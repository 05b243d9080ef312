import Mathlib.Algebra.Group.Nat.Defs
import TinyScript.Proofs.Activation
import TinyScript.Proofs.Dialogue
import TinyScript.Proofs.History
import TinyScript.Proofs.Spelling

/-!
# Counters

A function that is made in a call keeps the scope of that call. Functions that come from different
calls have different scopes, so what one of them counts there no other one sees, however their calls
follow one another (`Session.counters_apart`).
-/

namespace TinyScript

namespace Counters

def source : String :=
  "val counter = func() \x7b var count = 0; func() \x7b count = count + 1; count \x7d \x7d;"

def name (i : Nat) : String := "c" ++ toString i

def declarations (n : Nat) : String :=
  " ".intercalate ((List.range n).map fun i => "val " ++ name (i + 1) ++ " = counter();")

def request (i : Nat) : String := name i ++ "();"

def tick : Block :=
  [.assign "count" (.binary .add (.ident "count") (.int 1)), .expr (.ident "count")]

def making : Block := [.declare .mutable "count" (.int 0), .expr (.func [] tick)]

def declaring (i : Nat) : Stmt := .declare .fixed (name i) (.call (.ident "counter") [])

def asking (i : Nat) : Stmt := .expr (.call (.ident (name i)) [])

def counted (k : Nat) : Scope := ⟨[("count", ⟨.mutable, .int (.ofNat k)⟩)], some 0⟩

/-- The counter with the number `i` has come to `k`. Its object and its scope have that number too. -/
structure At (h : Heap) (i k : Nat) : Prop where
  name : h.binding? (name i) 0 = some ⟨.fixed, .object i⟩
  function : h.object? (.object i) = some (.function [] tick i)
  scope : h.scopes[i]? = some (counted k)

/-- There are the counters from one to `n`, and they have been asked in this order. -/
structure Counting (h : Heap) (n : Nat) (asked : List Nat) : Prop where
  top : h.Outward 0 [0]
  counter : ∀ i, 1 ≤ i → i ≤ n → At h i (asked.count i)

-- ---------------------------------------------------------------------------
-- Names
-- ---------------------------------------------------------------------------

theorem toList_name (i : Nat) : (name i).toList = 'c' :: Nat.toDigits 10 i := by
  have hdigits : (toString i).toList = Nat.toDigits 10 i := Nat.toList_repr
  rw [name, String.toList_append, hdigits]
  rfl

theorem isDigit_of_mem {i : Nat} {d : Char} (hd : d ∈ Nat.toDigits 10 i) : d.isDigit = true :=
  Nat.isDigit_of_mem_toDigits (by decide) (by decide) hd

theorem name_inj (h : name i = name j) : i = j := by
  have hlist := congrArg String.toList h
  rw [toList_name, toList_name] at hlist
  have hdigits : Nat.toDigits 10 i = Nat.toDigits 10 j := (List.cons.inj hlist).2
  calc i = Nat.ofDigitChars 10 (Nat.toDigits 10 i) 0 := Nat.ofDigitChars_ten_toDigits.symm
    _ = j := by rw [hdigits, Nat.ofDigitChars_ten_toDigits]

theorem counter_ne_name (i : Nat) : "counter" ≠ name i := by
  intro heq
  have hlist := congrArg String.toList heq
  rw [toList_name] at hlist
  have ho : 'o' ∈ Nat.toDigits 10 i := by
    rw [← (List.cons.inj hlist).2]
    decide
  exact absurd (isDigit_of_mem ho) (by decide)

theorem isName_name (i : Nat) : isName (name i) = true := by
  have hword : (Nat.toDigits 10 i).all isWordChar = true := by
    refine List.all_eq_true.mpr fun d hd => ?_
    rw [isWordChar, isDigit_of_mem hd, Bool.or_true]
  have hkeyword : Keyword.ofText? (name i) = none := by
    refine List.find?_eq_none.mpr fun k _ heq => ?_
    have hhead : k.text.toList.head? = some 'c' := by
      rw [beq_iff_eq.mp heq, toList_name]
      rfl
    cases k <;> exact absurd hhead (by decide)
  rw [isName, toList_name]
  simp only [hword, hkeyword]
  decide

-- ---------------------------------------------------------------------------
-- Asking
-- ---------------------------------------------------------------------------

section
variable {h : Heap} {i k : Nat}

/-- The heap in which the body of the counter runs, once the counter has come to `k`. -/
def ticked (h : Heap) (i k : Nat) : Heap :=
  (h.entered i []).withScope i (·.assign "count" (.int (.ofNat k)))

theorem lookup_count {s : ScopeId} (hs : h.Outward s [s, i, 0]) (hi : h.Outward i [i, 0])
    (hnew : h.binding? "count" s = none) (hscope : h.scopes[i]? = some (counted k)) :
    h.lookup s "count" = some (.int (.ofNat k)) := by
  have hcount : h.binding? "count" i = some ⟨.mutable, .int (.ofNat k)⟩ := by
    rw [Heap.binding?, hscope]
    rfl
  rw [Heap.lookup_outer hs hi hnew, Heap.lookup_own hi hcount]

theorem scopes_ticked (hscope : h.scopes[i]? = some (counted k)) (k' : Nat) :
    (ticked h i k').scopes[i]? = some (counted k') := by
  rw [ticked, Heap.scopes_withScope, if_pos rfl, Heap.scopes_entered_old hscope]
  rfl

theorem scopes_ticked_other (hne : j ≠ i) (hs : h.scopes[j]? = some s) (k' : Nat) :
    (ticked h i k').scopes[j]? = some s := by
  rw [ticked, Heap.scopes_withScope, if_neg hne.symm, Heap.scopes_entered_old hs]

theorem eval_tick {call : Caller} (ha : At h i k) (htop : h.Outward 0 [0]) :
    Block.eval call h.scopes.size tick .null (h.entered i []) =
      (.int (.ofNat (k + 1)), ticked h i (k + 1)) := by
  have hi : h.Outward i [i, 0] := .next ha.scope rfl htop
  have hs : (h.entered i []).Outward h.scopes.size [h.scopes.size, i, 0] := hi.entered
  have hnew : (h.entered i []).binding? "count" h.scopes.size = none := by
    rw [Heap.binding?_entered, if_pos rfl]
    rfl
  have hcount : (h.entered i []).binding? "count" i = some ⟨.mutable, .int (.ofNat k)⟩ := by
    rw [hi.binding?_older, Heap.binding?, ha.scope]
    rfl
  have hassign (v : Value) : (h.entered i []).assign h.scopes.size "count" v =
      (.ok (), (h.entered i []).withScope i (·.assign "count" v)) := by
    rw [Heap.assign_outer hs hi.older hnew, Heap.assign_own hi.older hcount]
  have hold : (h.entered i []).lookup h.scopes.size "count" = some (.int (.ofNat k)) :=
    lookup_count hs hi.older hnew (Heap.scopes_entered_old ha.scope)
  have hticked : (ticked h i (k + 1)).lookup h.scopes.size "count" =
      some (.int (.ofNat (k + 1))) := by
    refine lookup_count ?_ ?_ ?_ (scopes_ticked ha.scope (k + 1))
    · exact hs.withScope fun _ => rfl
    · exact hi.older.withScope fun _ => rfl
    · rw [ticked, Heap.binding?_withScope, if_neg (Nat.ne_of_lt hi.lt), hnew]
  have hnext : (Expr.binary .add (.ident "count") (.int 1)).eval call h.scopes.size
      (h.entered i []) = (.int (.ofNat (k + 1)), h.entered i []) := by
    rw [Expr.eval, Expr.eval_name hold, Int64.ofNat_add]
    rfl
  have hset : (Stmt.assign "count" (.binary .add (.ident "count") (.int 1))).eval call h.scopes.size
      (h.entered i []) = (.null, ticked h i (k + 1)) := by
    rw [Stmt.eval_assign, hnext, andThen_value rfl, hassign]
    rfl
  rw [tick, Block.eval, hset, andThen_value rfl, Block.eval_expr]
  exact Expr.eval_name hticked

theorem eval_asking (ha : At h i k) (htop : h.Outward 0 [0]) (calls : Nat) :
    (asking i).eval (apply (calls + 1)) 0 h = (.int (.ofNat (k + 1)), ticked h i (k + 1)) := by
  have happly : apply (calls + 1) (.object i) [] h =
      Run.caught (Block.eval (apply calls) h.scopes.size tick .null (h.entered i [])) :=
    applyWith_entered ha.function rfl .nil
  rw [asking, Stmt.eval, Expr.eval_call, Expr.eval_name (Heap.lookup_own htop ha.name),
    andThen_value rfl, Expr.evalList]
  exact happly.trans (congrArg Run.caught (eval_tick ha htop))

theorem binding?_ticked (htop : h.Outward 0 [0]) (hi : i ≠ 0) (name : String) :
    (ticked h i k).binding? name 0 = h.binding? name 0 := by
  rw [ticked, Heap.binding?_withScope, if_neg hi, htop.binding?_older]

theorem At.asked (ha : At h i k) (htop : h.Outward 0 [0]) (hi : i ≠ 0) (k' : Nat) :
    At (ticked h i k') i k' where
  name := (binding?_ticked htop hi _).trans ha.name
  function := ha.function
  scope := scopes_ticked ha.scope k'

theorem At.kept (ha : At h j k) (htop : h.Outward 0 [0]) (hi : i ≠ 0) (hne : j ≠ i) (k' : Nat) :
    At (ticked h i k') j k where
  name := (binding?_ticked htop hi _).trans ha.name
  function := ha.function
  scope := scopes_ticked_other hne ha.scope k'

/-- One request: the answer is how often that counter has been asked by now. -/
theorem Counting.step (hc : Counting h n asked) (hi : 1 ≤ i ∧ i ≤ n) :
    ∃ h', (asking i).eval (apply maxCallDepth) 0 h = (.int (.ofNat ((asked ++ [i]).count i)), h') ∧
      Counting h' n (asked ++ [i]) := by
  have hcount : (asked ++ [i]).count i = asked.count i + 1 := by
    rw [List.count_append, List.count_singleton_self]
  have hpos : i ≠ 0 := Nat.ne_of_gt hi.1
  have ha := hc.counter i hi.1 hi.2
  refine ⟨ticked h i (asked.count i + 1), ?_, hc.top.older.withScope fun _ => rfl, fun j hj hn => ?_⟩
  · rw [hcount]
    exact eval_asking ha hc.top 19999
  · by_cases hne : j = i
    · rw [hne, hcount]
      exact ha.asked hc.top hpos _
    · have hsame : (asked ++ [i]).count j = asked.count j := by
        rw [List.count_append, List.count_singleton, beq_false_of_ne (Ne.symm hne)]
        rfl
      rw [hsame]
      exact (hc.counter j hj hn).kept hc.top hpos hne _

theorem Counting.block (hc : Counting h n asked) (his : ∀ i ∈ is, 1 ≤ i ∧ i ≤ n)
    (hlast : last.isInterrupt = false) :
    ∃ v h', Block.eval (apply maxCallDepth) 0 (is.map asking) last h = (v, h') ∧
      v.isInterrupt = false ∧ Counting h' n (asked ++ is) := by
  induction is generalizing h asked last with
  | nil =>
    refine ⟨last, h, ?_, hlast, asked.append_nil.symm ▸ hc⟩
    rw [List.map_nil, Block.eval]
  | cons i is ih =>
    obtain ⟨hi, his⟩ := List.forall_mem_cons.mp his
    obtain ⟨h', heval, hc'⟩ := hc.step hi
    have hnumber : (Value.int (.ofNat ((asked ++ [i]).count i))).isInterrupt = false := rfl
    obtain ⟨v, h'', hrest, hv, hc''⟩ := ih hc' his hnumber
    refine ⟨v, h'', ?_, hv, List.append_cons .. ▸ hc''⟩
    rw [List.map_cons, Block.eval, heval, andThen_value rfl]
    exact hrest

-- ---------------------------------------------------------------------------
-- Making
-- ---------------------------------------------------------------------------

/-- There are the counters from one to `n`, of which none has been asked, and nothing else but the
function that makes them. -/
structure Made (h : Heap) (n : Nat) : Prop where
  counting : Counting h n []
  maker : h.binding? "counter" 0 = some ⟨.fixed, .object 0⟩
  function : h.object? (.object 0) = some (.function [] making 0)
  objects : h.objects.size = n + 1
  scopes : h.scopes.size = n + 1
  fresh : ∀ i, n < i → h.binding? (name i) 0 = none

def captured (h : Heap) (n : Nat) : Heap :=
  ((h.entered 0 [("count", ⟨.mutable, .int 0⟩)]).alloc (.function [] tick (n + 1))).2

def another (h : Heap) (n : Nat) : Heap :=
  (captured h n).withScope 0 (·.declare (name (n + 1)) ⟨.fixed, .object (n + 1)⟩)

theorem eval_making (call : Caller) :
    Block.eval call h.scopes.size making .null (h.entered 0 []) =
      (h.entered 0 [("count", ⟨.mutable, .int 0⟩)]).alloc (.function [] tick h.scopes.size) := by
  have hcount : (Stmt.declare .mutable "count" (.int 0)).eval call h.scopes.size (h.entered 0 []) =
      (.null, h.entered 0 [("count", ⟨.mutable, .int 0⟩)]) := by
    rw [Stmt.eval_declare, Expr.eval, andThen_value rfl, Heap.declare_entered rfl]
    rfl
  rw [making, Block.eval, hcount, andThen_value rfl, Block.eval_expr, Expr.eval]

section
variable (hm : Made h n)
include hm

theorem Made.eval_declaring (calls : Nat) :
    (declaring (n + 1)).eval (apply (calls + 1)) 0 h = (.null, another h n) := by
  have happly : apply (calls + 1) (.object 0) [] h =
      Run.caught (Block.eval (apply calls) h.scopes.size making .null (h.entered 0 [])) :=
    applyWith_entered hm.function rfl .nil
  have hcall : (Expr.call (.ident "counter") []).eval (apply (calls + 1)) 0 h =
      (.object (n + 1), captured h n) := by
    have halloc : (h.entered 0 [("count", ⟨.mutable, .int 0⟩)]).alloc
        (.function [] tick h.scopes.size) = (.object (n + 1), captured h n) := by
      rw [hm.scopes]
      exact Prod.ext (congrArg Value.object hm.objects) rfl
    rw [Expr.eval_call, Expr.eval_name (Heap.lookup_own hm.counting.top hm.maker),
      andThen_value rfl, Expr.evalList, whole, happly, eval_making, halloc]
    rfl
  have hfresh : (captured h n).binding? (name (n + 1)) 0 = none :=
    (hm.counting.top.binding?_older _).trans (hm.fresh _ (Nat.lt_succ_self n))
  rw [declaring, Stmt.eval_declare, hcall, andThen_value rfl, Heap.declare_own hfresh]
  rfl

theorem Made.top_captured : (captured h n).Outward 0 [0] :=
  hm.counting.top.keep fun _ s hs => ⟨s, Heap.scopes_entered_old hs, rfl⟩

theorem Made.binding?_another (x : String) :
    (another h n).binding? x 0 =
      if x = name (n + 1) then some ⟨.fixed, .object (n + 1)⟩ else h.binding? x 0 := by
  have hold : (captured h n).binding? x 0 = h.binding? x 0 := hm.counting.top.binding?_older x
  rw [another, (Heap.rebound_declare hm.top_captured.lt _).binding, hold]
  simp only [true_and]

theorem Made.object?_another (i : Nat) :
    (another h n).object? (.object i) =
      if i = n + 1 then some (.function [] tick (n + 1)) else h.object? (.object i) := by
  have hpush : (another h n).object? (.object i) = if i = h.objects.size then
      some (.function [] tick (n + 1)) else h.object? (.object i) := Array.getElem?_push
  rw [hpush, hm.objects]

theorem Made.scopes_another (hi : i ≠ 0) :
    (another h n).scopes[i]? = if i = n + 1 then some (counted 0) else h.scopes[i]? := by
  have hentered : (captured h n).scopes[i]? =
      if i = h.scopes.size then some (counted 0) else h.scopes[i]? := Heap.scopes_entered i
  rw [another, Heap.scopes_withScope, if_neg hi.symm, hentered, hm.scopes]

theorem Made.at_another (hi : 1 ≤ i) (hle : i ≤ n + 1) : At (another h n) i 0 := by
  have hpos : i ≠ 0 := Nat.ne_of_gt hi
  by_cases hlast : i = n + 1
  · refine ⟨?_, ?_, ?_⟩
    · rw [hm.binding?_another, if_pos (congrArg name hlast), hlast]
    · rw [hm.object?_another, if_pos hlast, hlast]
    · rw [hm.scopes_another hpos, if_pos hlast]
  · have ha : At h i 0 := hm.counting.counter i hi (Nat.le_of_lt_succ (Nat.lt_of_le_of_ne hle hlast))
    refine ⟨?_, ?_, ?_⟩
    · rw [hm.binding?_another, if_neg (hlast ∘ name_inj), ha.name]
    · rw [hm.object?_another, if_neg hlast, ha.function]
    · rw [hm.scopes_another hpos, if_neg hlast, ha.scope]

theorem Made.step : Made (another h n) (n + 1) where
  counting := ⟨hm.top_captured.withScope fun _ => rfl, fun _ => hm.at_another⟩
  maker := by rw [hm.binding?_another, if_neg (counter_ne_name _), hm.maker]
  function := by rw [hm.object?_another, if_neg (Nat.succ_ne_zero n).symm, hm.function]
  objects := (Array.size_push _).trans (congrArg (· + 1) hm.objects)
  scopes := Array.size_modify.trans ((Array.size_push _).trans (congrArg (· + 1) hm.scopes))
  fresh i hi := by
    have hne : i ≠ n + 1 := Nat.ne_of_gt hi
    rw [hm.binding?_another, if_neg (hne ∘ name_inj), hm.fresh i (Nat.lt_of_succ_lt hi)]

end

theorem Made.block (hm : Made h 0) (n : Nat) :
    ∃ h', Block.eval (apply maxCallDepth) 0 ((List.range n).map fun i => declaring (i + 1)) .null h =
      (.null, h') ∧ Made h' n := by
  induction n with
  | zero => exact ⟨h, by rw [List.range_zero, List.map_nil, Block.eval], hm⟩
  | succ n ih =>
    obtain ⟨h', hmade, hm'⟩ := ih
    have hnext : (declaring (n + 1)).eval (apply maxCallDepth) 0 h' = (.null, another h' n) :=
      hm'.eval_declaring 19999
    refine ⟨another h' n, ?_, hm'.step⟩
    rw [List.range_succ, List.map_append, Block.eval_append rfl, hmade, andThen_value rfl,
      List.map_singleton, Block.eval, hnext, andThen_value rfl, Block.eval]

end

-- ---------------------------------------------------------------------------
-- Texts
-- ---------------------------------------------------------------------------

theorem runText_source :
    ∃ h, Session.start.runText source = (.ok .null, ⟨h, 0⟩) ∧ Made h 0 := by
  have hparse : Program.parse source = ([.declare .fixed "counter" (.func [] making)], []) := by
    decide +kernel
  refine ⟨_, Session.runText_of_parse hparse, ⟨.last rfl rfl, fun i hi hle => ?_⟩, rfl, rfl, rfl,
    rfl, fun i _ => ?_⟩
  · omega
  · have hlookup : [("counter", Binding.mk .fixed (.object 0))].lookup (name i) = none := by
      rw [List.lookup_cons, beq_false_of_ne (counter_ne_name i).symm]
      rfl
    exact hlookup

theorem parse_statements (f : Nat → Stmt) (hf : ∀ i, (f i).isSpellable = true) (is : List Nat) :
    Program.parse (" ".intercalate (is.map fun i => (f i).render)) = (is.map f, []) := by
  have hspelled : Block.isSpellable (is.map f) = true := by
    induction is with
    | nil => rfl
    | cons i is ih => rw [List.map_cons, Block.isSpellable, hf i, ih, Bool.and_true]
  have hrenders : Stmt.renders (is.map f) = is.map fun i => (f i).render := by
    clear hspelled
    induction is with
    | nil => rfl
    | cons i is ih => rw [List.map_cons, List.map_cons, Stmt.renders, ih]
  have hwords := Spelling.words_render (is.map f) hspelled
  rw [Program.render, hrenders] at hwords
  exact Program.parse_words hwords

theorem render_asking (i : Nat) : (asking i).render = request i := by
  simp only [asking, Stmt.render, Expr.render, Expr.renders, String.intercalate_nil, request,
    String.append_assoc]
  rfl

theorem render_declaring (i : Nat) : (declaring i).render = "val " ++ name i ++ " = counter();" := by
  simp only [declaring, Stmt.render, Expr.render, Expr.renders, String.intercalate_nil,
    String.append_assoc]
  rfl

theorem parse_declarations (n : Nat) :
    Program.parse (declarations n) = ((List.range n).map fun i => declaring (i + 1), []) := by
  have hspelled (i : Nat) : (declaring (i + 1)).isSpellable = true := by
    rw [declaring, Stmt.isSpellable, isName_name]
    decide
  rw [← parse_statements _ hspelled (List.range n)]
  simp only [render_declaring, declarations]

theorem parse_requests (is : List Nat) :
    Program.parse (" ".intercalate (is.map request)) = (is.map asking, []) := by
  have hspelled (i : Nat) : (asking i).isSpellable = true := by
    rw [asking, Stmt.isSpellable, Expr.isSpellable, Expr.isSpellable, isName_name]
    rfl
  rw [← parse_statements _ hspelled is]
  simp only [render_asking]

theorem parse_request (i : Nat) : Program.parse (request i) = ([asking i], []) := by
  have hone := parse_requests [i]
  rwa [List.map_singleton, String.intercalate_singleton] at hone

-- ---------------------------------------------------------------------------
-- Sessions
-- ---------------------------------------------------------------------------

section
variable {h : Heap} {i n : Nat} {asked : List Nat}

theorem runText_declarations (hm : Made h 0) (n : Nat) :
    ∃ h', (Session.mk h 0).runText (declarations n) = (.ok .null, ⟨h', 0⟩) ∧ Made h' n := by
  obtain ⟨h', hmade, hm'⟩ := hm.block n
  refine ⟨h', ?_, hm'⟩
  rw [Session.runText_of_parse (parse_declarations n), Session.run_eq, hmade]
  rfl

theorem Counting.answer (hc : Counting h n asked) (hi : 1 ≤ i ∧ i ≤ n) :
    ∃ h', (Session.mk h 0).runText (request i) =
      (.ok (.int (.ofNat ((asked ++ [i]).count i))), ⟨h', 0⟩) ∧ Counting h' n (asked ++ [i]) := by
  obtain ⟨h', heval, hc'⟩ := hc.step hi
  refine ⟨h', ?_, hc'⟩
  rw [Session.runText_of_parse (parse_request i), Session.run_eq, Block.eval, heval,
    andThen_value rfl, Block.eval]
  rfl

theorem Counting.answers (hc : Counting h n asked) (his : ∀ i ∈ is, 1 ≤ i ∧ i ≤ n) :
    ∃ h', is.foldl (fun s i => (s.runText (request i)).2) (Session.mk h 0) = ⟨h', 0⟩ ∧
      Counting h' n (asked ++ is) := by
  induction is generalizing h asked with
  | nil => exact ⟨h, rfl, asked.append_nil.symm ▸ hc⟩
  | cons i is ih =>
    obtain ⟨hi, his⟩ := List.forall_mem_cons.mp his
    obtain ⟨h', hone, hc'⟩ := hc.answer hi
    obtain ⟨h'', hrest, hc''⟩ := ih hc' his
    refine ⟨h'', ?_, List.append_cons .. ▸ hc''⟩
    rw [List.foldl_cons, hone]
    exact hrest

theorem Counting.together (hc : Counting h n asked) (his : ∀ i ∈ is, 1 ≤ i ∧ i ≤ n)
    (hi : 1 ≤ i ∧ i ≤ n) :
    ((Session.mk h 0).runText (" ".intercalate ((is ++ [i]).map request))).1 =
      .ok (.int (.ofNat ((asked ++ is ++ [i]).count i))) := by
  obtain ⟨v, h', hbefore, hv, hc'⟩ := hc.block his (rfl : Value.null.isInterrupt = false)
  obtain ⟨h'', hlast, -⟩ := hc'.step hi
  rw [Session.runText_of_parse (parse_requests _), Session.run_eq, List.map_append,
    Block.eval_append rfl, hbefore, andThen_value hv, List.map_singleton, Block.eval, hlast,
    andThen_value rfl, Block.eval]
  rfl

end

end Counters

/-- However the calls of the counters follow one another, each gives how often its own counter has
been called by then, whether they are given as texts of their own or in one text. -/
theorem Session.counters_apart (n : Nat) (asked : List Nat)
    (hasked : ∀ i ∈ asked, 1 ≤ i ∧ i ≤ n) (hlen : asked.length < 2 ^ 63) :
    (start.runText Counters.source).1 = .ok .null ∧
    let made := (start.runText Counters.source).2.runText (Counters.declarations n)
    let ask (s : Session) (i : Nat) := s.runText (Counters.request i)
    made.1 = .ok .null ∧
    ∀ (j : Nat) (hj : j < asked.length), ∃ k : Int64,
      (ask ((asked.take j).foldl (fun s i => (ask s i).2) made.2) asked[j]).1 = .ok (.int k) ∧
      (made.2.runText (" ".intercalate ((asked.take (j + 1)).map Counters.request))).1 =
        .ok (.int k) ∧
      k.toInt = (asked.take (j + 1)).count asked[j] := by
  obtain ⟨h, hsource, hm⟩ := Counters.runText_source
  obtain ⟨h', hmade, hm'⟩ := Counters.runText_declarations hm n
  rw [hsource]
  refine ⟨rfl, ?_⟩
  dsimp only
  rw [hmade]
  refine ⟨rfl, fun j hj => ?_⟩
  have hbefore : ∀ i ∈ asked.take j, 1 ≤ i ∧ i ≤ n := fun i hi => hasked i (List.mem_of_mem_take hi)
  have hi : 1 ≤ asked[j] ∧ asked[j] ≤ n := hasked _ (List.getElem_mem hj)
  obtain ⟨h'', hbefore', hc⟩ := hm'.counting.answers hbefore
  obtain ⟨_, hone, -⟩ := hc.answer hi
  have htogether := hm'.counting.together hbefore hi
  have htake : asked.take (j + 1) = asked.take j ++ [asked[j]] :=
    List.take_succ_eq_append_getElem hj
  rw [List.nil_append, ← htake] at hone htogether
  refine ⟨.ofNat ((asked.take (j + 1)).count asked[j]), ?_, htogether, ?_⟩
  · rw [hbefore', hone]
  · have hcount : (asked.take (j + 1)).count asked[j] < 2 ^ 63 := by
      have hlength := List.count_le_length (a := asked[j]) (l := asked.take (j + 1))
      have htaken := List.length_take_le (j + 1) asked
      omega
    exact Int64.toInt_ofNat_of_lt hcount

/-- Three counters, where the second is called between two calls of the first. -/
theorem Session.counters_apart_sample :
    let made := ((start.runText Counters.source).2.runText (Counters.declarations 3)).2
    ∃ k : Int64, (made.runText "c1(); c2(); c1();").1 = .ok (.int k) ∧ k.toInt = 2 := by
  have hasked : ∀ i ∈ [1, 2, 1, 3], 1 ≤ i ∧ i ≤ 3 := by decide
  obtain ⟨k, -, htogether, hk⟩ :=
    (counters_apart 3 [1, 2, 1, 3] hasked (by decide)).2.2 2 (by decide)
  exact ⟨k, htogether, hk⟩

end TinyScript
