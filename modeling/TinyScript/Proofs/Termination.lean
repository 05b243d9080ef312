import TinyScript.Proofs.Machine
import TinyScript.Proofs.Outward

/-!
# Evaluation ends

The machine comes to an end for every program, in any scope of a grounded heap, and with what the
evaluator gives. So a program whose calls never bottom out ends as well: each call that is nested in
another takes one of the calls that are left.

`Yields` says that from a state on the value of the node at hand will be there. It follows the tree
inside one body, and the number of calls left from body to body. The second half is about the states
on the way: every evaluation in progress has a smaller measure than the one it is nested in, the
calls left first and the size of the node second. A body may be larger than the call that runs it,
and then there is one call less left.
-/

namespace TinyScript

namespace Machine

-- ---------------------------------------------------------------------------
-- Runs
-- ---------------------------------------------------------------------------

def Reaches (s s' : State) : Prop := ∃ n, run n s = s'

theorem run_halted (hs : step s = none) (n : Nat) : run n s = s := by
  cases n with
  | zero => rfl
  | succ n => simp only [run, hs]

theorem run_add (m n : Nat) (s : State) : run (m + n) s = run n (run m s) := by
  induction m generalizing s with
  | zero => rw [Nat.zero_add, run]
  | succ m ih =>
    rw [Nat.add_right_comm]
    cases hs : step s with
    | none => rw [run_halted hs, run_halted hs, run_halted hs]
    | some s' =>
      simp only [run, hs]
      exact ih s'

/-- What every step keeps, a run keeps. -/
theorem run_keeps {P : State → Prop} (hstep : ∀ s s', P s → step s = some s' → P s') {s : State}
    (hs : P s) (n : Nat) : P (run n s) := by
  induction n generalizing s with
  | zero => exact hs
  | succ n ih =>
    rw [run]
    cases h : step s with
    | none => exact hs
    | some s' => exact ih (hstep s s' hs h)

theorem Reaches.refl (s : State) : Reaches s s := ⟨0, rfl⟩

theorem Reaches.trans (h : Reaches s s') (h' : Reaches s' s'') : Reaches s s'' := by
  obtain ⟨m, rfl⟩ := h
  obtain ⟨n, rfl⟩ := h'
  exact ⟨m + n, run_add m n s⟩

theorem Reaches.step (h : step s = some s') : Reaches s s' := ⟨1, by simp only [run, h]⟩

theorem Reaches.ends (h : Reaches s s') (hs : Machine.step s' = none) :
    ∃ n, ∀ m ≥ n, run m s = s' := by
  obtain ⟨n, hn⟩ := h
  refine ⟨n, fun m hm => ?_⟩
  obtain ⟨k, rfl⟩ := Nat.exists_eq_add_of_le hm
  rw [run_add, hn, run_halted hs]

-- ---------------------------------------------------------------------------
-- What a state comes to
-- ---------------------------------------------------------------------------

structure Inside (scope : ScopeId) (h : Heap) : Prop where
  grounded : h.Grounded
  lt : scope < h.scopes.size

theorem Inside.still (hi : Inside scope h) (hs : Heap.Still h h') : Inside scope h' :=
  ⟨hi.grounded.still hs, hs.scopes ▸ hi.lt⟩

/-- From the state `s` on the value of `r` will be there for the nodes in `stack`, with the heap
of `r`. -/
structure Yields (s : State) (scope : ScopeId) (depth : Nat) (stack : List Waiting) (r : Run) :
    Prop where
  reaches : Reaches s ⟨.value r.1, scope, depth, stack, r.2⟩
  inside : Inside scope r.2

section
variable {s s' : State} {scope : ScopeId} {depth : Nat} {stack : List Waiting} {node : Node}
  {h : Heap} {r : Run}

theorem Yields.step (hs : step s = some s') (hy : Yields s' scope depth stack r) :
    Yields s scope depth stack r := ⟨(Reaches.step hs).trans hy.reaches, hy.inside⟩

theorem yields_value (hi : Inside scope h) :
    Yields ⟨.value v, scope, depth, stack, h⟩ scope depth stack (v, h) := ⟨Reaches.refl _, hi⟩

theorem yields_finish (hi : Inside scope r.2) :
    Yields (perform node scope depth stack (finish r)) scope depth stack r := ⟨Reaches.refl _, hi⟩

def Frame.passes : Frame → Bool
  | .body _ | .program => false
  | _ => true

theorem step_value {frame : Frame} (hf : frame.passes = true) :
    step ⟨.value v, scope, depth, ⟨node, d, frame⟩ :: stack, h⟩ =
      if v.isInterrupt then some ⟨.value v, scope, depth, stack, h⟩
      else some (perform node scope depth stack (resume depth scope v frame h)) := by
  cases frame <;> first | rfl | exact nomatch hf

/-- A node that waits goes on with a value, and a signal goes past it. -/
theorem Yields.andThen {frame : Frame} {next : Value → Heap → Run}
    (hy : Yields s scope depth (⟨node, d, frame⟩ :: stack) r) (hf : frame.passes = true)
    (hn : ∀ v h, Inside scope h →
      Yields (perform node scope depth stack (resume depth scope v frame h)) scope depth stack
        (next v h)) :
    Yields s scope depth stack (andThen r next) := by
  obtain ⟨v, h⟩ := r
  have hreaches := hy.reaches
  simp only [TinyScript.andThen]
  split
  case isTrue hv =>
    exact ⟨hreaches.trans (.step (by rw [step_value hf, if_pos hv])), hy.inside⟩
  case isFalse hv =>
    have hn := hn v h hy.inside
    exact ⟨(hreaches.trans (.step (by rw [step_value hf, if_neg hv]))).trans hn.reaches, hn.inside⟩

-- ---------------------------------------------------------------------------
-- Names
-- ---------------------------------------------------------------------------

def found (name : String) (o : Option Value) (h : Heap) : Run :=
  match o with
  | some v => (v, h)
  | none => unbound name h

theorem eval_ident (call : Caller) (name : String) :
    (Expr.ident name).eval call scope h = found name (h.lookup scope name) h := by
  rw [Expr.eval]
  cases h.lookup scope name with
  | some v => rfl
  | none => cases hb : Builtin.ofName? name <;> simp only [found, unbound, hb]

theorem inside_unbound (hi : Inside scope h) (name : String) : Inside scope (unbound name h).2 := by
  unfold unbound
  split
  · exact hi.still (Heap.still_alloc (by simp))
  · exact hi.still (Heap.still_raise _)

theorem look_yields (hi : Inside scope h) (ho : h.Outward i is) (name : String) :
    Yields ⟨.lookup node name i, scope, depth, stack, h⟩ scope depth stack
      (found name ((is.findSome? (h.binding? name)).map Binding.value) h) := by
  induction ho with
  | @last i s hs houter =>
    refine Yields.step rfl ?_
    rw [look, hs, List.findSome?_singleton]
    cases h.binding? name i with
    | some b => exact yields_value hi
    | none =>
      simp only [Option.bind_some, houter]
      exact yields_finish (inside_unbound hi name)
  | @next i s o is hs houter _ ih =>
    refine Yields.step rfl ?_
    rw [look, hs, List.findSome?_cons]
    cases h.binding? name i with
    | some b => exact yields_value hi
    | none =>
      simp only [Option.bind_some, houter]
      exact ih

def assignIn (is : List ScopeId) (name : String) (v : Value) (h : Heap) :
    Except ScopeError Unit × Heap :=
  match is.find? fun i => (h.binding? name i).isSome with
  | none => (.error (.undefined name), h)
  | some owner =>
    match (h.binding? name owner).map Binding.mutability with
    | some .mutable => (.ok (), { h with scopes := h.scopes.modify owner (·.assign name v) })
    | _ => (.error (.fixed name), h)

theorem change_owner (hi : Inside scope h) (hb : h.binding? name i = some b) (is : List ScopeId)
    (v : Value) :
    Yields (perform node scope depth stack (change name v i h)) scope depth stack
      (settle (assignIn (i :: is) name v h)) := by
  obtain ⟨m, w⟩ := b
  simp only [change, assignIn, hb, List.find?_cons, Option.isSome_some, Option.map_some]
  cases m with
  | mutable =>
    refine yields_value ⟨hi.grounded.modifyScope (f := (·.assign name v)) (fun _ => rfl) i, ?_⟩
    rw [Array.size_modify]
    exact hi.lt
  | fixed => exact yields_finish (hi.still (Heap.still_raise _))

theorem change_yields (hi : Inside scope h) (ho : h.Outward i is) (name : String) (v : Value) :
    Yields ⟨.assign node name v i, scope, depth, stack, h⟩ scope depth stack
      (settle (assignIn is name v h)) := by
  induction ho with
  | @last i s hs houter =>
    refine Yields.step rfl ?_
    cases hb : h.binding? name i with
    | some b => exact change_owner hi hb [] v
    | none =>
      have hin : assignIn [i] name v h = (.error (.undefined name), h) := by
        simp [assignIn, hb]
      simp only [change, hs, hb, hin, Option.bind_some, houter]
      exact yields_finish (hi.still (Heap.still_raise _))
  | @next i s o is hs houter _ ih =>
    refine Yields.step rfl ?_
    cases hb : h.binding? name i with
    | some b => exact change_owner hi hb is v
    | none =>
      have hin : assignIn (i :: is) name v h = assignIn is name v h := by
        simp [assignIn, hb]
      simp only [change, hs, hb, hin, Option.bind_some, houter]
      exact ih

end

-- ---------------------------------------------------------------------------
-- Trees
-- ---------------------------------------------------------------------------

/-- What a caller gives for a call is what the machine comes to when it makes the call. -/
def Calls (depth : Nat) (call : Caller) : Prop :=
  ∀ node scope stack f args h, Inside scope h →
    Yields (perform node scope depth stack (invoke depth f args h)) scope depth stack
      (call f args h)

theorem inside_settle {r : Except ScopeError Unit × Heap} (hi : Inside scope r.2) :
    Inside scope (settle r).2 := by
  obtain ⟨_ | _, h⟩ := r
  · exact hi.still (Heap.still_raise _)
  · exact hi

section
variable {call : Caller} {depth : Nat}

mutual

theorem expr_yields {h : Heap} {scope : ScopeId} (hcall : Calls depth call) (e : Expr)
    (hi : Inside scope h) (stack : List Waiting) :
    Yields ⟨.eval (.expr e), scope, depth, stack, h⟩ scope depth stack (e.eval call scope h) := by
  refine Yields.step rfl ?_
  match e with
  | .ident name =>
    obtain ⟨is, his⟩ := hi.grounded.outward scope hi.lt
    rw [eval_ident, Heap.lookup, his.chain]
    exact look_yields hi his name
  | .int _ | .bool _ | .null => exact yields_value hi
  | .str _ => exact yields_finish (hi.still (Heap.still_alloc fun _ _ _ => nofun))
  | .func _ _ => exact yields_finish ⟨hi.grounded.allocFunction hi.lt, hi.lt⟩
  | .unary op e =>
    refine (expr_yields hcall e hi _).andThen rfl fun v h hi => ?_
    exact yields_finish (hi.still (Heap.answer_unary op v).still)
  | .binary op l r =>
    refine (expr_yields hcall l hi _).andThen rfl fun a h hi => ?_
    refine (expr_yields hcall r hi _).andThen rfl fun b h hi => ?_
    exact yields_finish (hi.still (Heap.answer_binary op a b).still)
  | .cond test yes none =>
    rw [Expr.eval]
    refine (expr_yields hcall test hi _).andThen rfl fun v h hi => ?_
    cases v with
    | bool b =>
      cases b with
      | true => exact block_yields hcall yes hi stack
      | false => exact yields_value hi
    | _ => exact yields_value hi
  | .cond test yes (some no) =>
    rw [Expr.eval]
    refine (expr_yields hcall test hi _).andThen rfl fun v h hi => ?_
    cases v with
    | bool b =>
      cases b with
      | true => exact block_yields hcall yes hi stack
      | false => exact block_yields hcall no hi stack
    | _ => exact yields_value hi
  | .call callee args =>
    rw [Expr.eval_call]
    refine (expr_yields hcall callee hi _).andThen rfl fun f h hi => ?_
    exact collect_yields _ hcall (.call f) [] args hi stack fun values h hi =>
      hcall _ scope stack f values h hi
  | .array items =>
    rw [Expr.eval_array]
    refine collect_yields _ hcall .array [] items hi stack fun values h hi => ?_
    exact yields_finish (hi.still (Heap.still_alloc fun _ _ _ => nofun))
  | .hash pairs =>
    rw [Expr.eval_hash]
    exact collectPairs_yields _ hcall [] pairs hi stack
  | .index c i =>
    refine (expr_yields hcall c hi _).andThen rfl fun c h hi => ?_
    refine (expr_yields hcall i hi _).andThen rfl fun i h hi => ?_
    exact yields_finish (hi.still (Heap.answer_index c i).still)

theorem collect_yields {h : Heap} {scope : ScopeId} {next : List Value → Heap → Run} (node : Node)
    (hcall : Calls depth call) (goal : Goal) (done : List Value) (es : List Expr)
    (hi : Inside scope h) (stack : List Waiting)
    (hgoal : ∀ values h, Inside scope h →
      Yields (perform node scope depth stack (goal.reach depth (done ++ values) h)) scope depth
        stack (next values h)) :
    Yields (perform node scope depth stack (collect depth goal done es h)) scope depth stack
      (whole (Expr.evalList call scope es h) next) := by
  match es with
  | [] =>
    have hgoal := hgoal [] h hi
    rwa [List.append_nil] at hgoal
  | e :: es =>
    rw [Expr.evalList_cons, whole_part]
    refine (expr_yields hcall e hi _).andThen rfl fun v h hi => ?_
    rw [whole_map]
    refine collect_yields node hcall goal (done ++ [v]) es hi stack fun values h hi => ?_
    rw [List.append_assoc]
    exact hgoal (v :: values) h hi

theorem collectPairs_yields {h : Heap} {scope : ScopeId} (node : Node) (hcall : Calls depth call)
    (table : Table) (ps : List (Expr × Expr)) (hi : Inside scope h) (stack : List Waiting) :
    Yields (perform node scope depth stack (collectPairs table ps h)) scope depth stack
      (whole (Expr.evalPairs call scope ps table h) fun table h => h.alloc (.hash table)) := by
  match ps with
  | [] => exact yields_finish (hi.still (Heap.still_alloc fun _ _ _ => nofun))
  | (key, value) :: ps =>
    rw [Expr.evalPairs_cons, whole_part]
    refine (expr_yields hcall key hi _).andThen rfl fun k h hi => ?_
    rw [resume]
    cases h.hashKey? k with
    | none => exact yields_finish (hi.still (Heap.still_raise _))
    | some hashKey =>
      dsimp only
      rw [whole_part]
      refine (expr_yields hcall value hi _).andThen rfl fun v h hi => ?_
      exact collectPairs_yields node hcall _ ps hi stack

theorem stmt_yields {h : Heap} {scope : ScopeId} (hcall : Calls depth call) (s : Stmt)
    (hi : Inside scope h) (stack : List Waiting) :
    Yields ⟨.eval (.stmt s), scope, depth, stack, h⟩ scope depth stack (s.eval call scope h) := by
  refine Yields.step rfl ?_
  match s with
  | .declare m name e =>
    rw [Stmt.eval]
    refine (expr_yields hcall e hi _).andThen rfl fun v h hi => ?_
    refine yields_finish (inside_settle ⟨hi.grounded.declare scope name ⟨m, v⟩, ?_⟩)
    rw [Heap.size_declare]
    exact hi.lt
  | .assign name e =>
    rw [Stmt.eval]
    refine (expr_yields hcall e hi _).andThen rfl fun v h hi => ?_
    obtain ⟨is, his⟩ := hi.grounded.outward scope hi.lt
    have hassign : h.assign scope name v = assignIn is name v h := by
      rw [Heap.assign, his.chain]
      rfl
    rw [hassign]
    exact change_yields hi his name v
  | .ret e =>
    refine (expr_yields hcall e hi _).andThen rfl fun v h hi => ?_
    exact yields_finish ⟨hi.grounded.still ⟨rfl, fun _ _ _ _ => id⟩, hi.lt⟩
  | .expr e => exact expr_yields hcall e hi stack
  | .block body => exact block_yields hcall body hi stack

theorem block_yields {h : Heap} {scope : ScopeId} (hcall : Calls depth call) (body : List Stmt)
    (hi : Inside scope h) (stack : List Waiting) :
    Yields ⟨.eval (.block body), scope, depth, stack, h⟩ scope depth stack
      (Block.eval call scope body .null h) := by
  refine Yields.step rfl ?_
  match body with
  | [] => exact yields_value hi
  | s :: body =>
    refine (stmt_yields hcall s hi _).andThen rfl fun v h hi => ?_
    exact seq_yields _ hcall body v hi stack

theorem seq_yields {h : Heap} {scope : ScopeId} (node : Node) (hcall : Calls depth call)
    (body : List Stmt) (last : Value) (hi : Inside scope h) (stack : List Waiting) :
    Yields (perform node scope depth stack (resume depth scope last (.seq body) h)) scope depth
      stack (Block.eval call scope body last h) := by
  match body with
  | [] => exact yields_value hi
  | s :: body =>
    refine (stmt_yields hcall s hi _).andThen rfl fun v h hi => ?_
    exact seq_yields node hcall body v hi stack

end

end

-- ---------------------------------------------------------------------------
-- Calls and programs
-- ---------------------------------------------------------------------------

theorem Yields.leave {s : State} {new scope : ScopeId} {r : Run}
    (hy : Yields s new (depth + 1) (⟨node, depth, .body scope⟩ :: stack) r) (hold : scope < new) :
    Yields s scope depth stack r.caught :=
  ⟨hy.reaches.trans (.step rfl), hy.inside.grounded, Nat.lt_trans hold hy.inside.lt⟩

theorem calls_applyWith {body : Block → ScopeId → Heap → Run}
    (hbody : ∀ node scope new stack code h, Inside new h → scope < new →
      Yields (perform node scope depth stack (enter depth code new h)) scope depth stack
        (body code new h)) : Calls depth (applyWith body) := by
  intro node scope stack f args h hi
  cases hobject : h.object? f with
  | none =>
    simp only [applyWith, invoke, hobject]
    exact yields_finish (hi.still (Heap.still_raise _))
  | some o =>
    cases o with
    | builtin b =>
      simp only [applyWith, invoke, hobject]
      exact yields_finish (hi.still (Heap.still_builtin b args))
    | function params code outer =>
      rw [applyWith_function hobject]
      simp only [invoke, hobject]
      split
      · have houter : outer < h.scopes.size := hi.grounded.object? hobject
        have hopen := hi.grounded.openScope fun o ho => Option.mem_some.mp ho ▸ houter
        have hsize : (h.openScope (some outer)).2.scopes.size = h.scopes.size + 1 :=
          Array.size_push _
        obtain ⟨hg, hbound⟩ := hopen.bindParams (h.openScope (some outer)).1 (params.zip args)
        rw [hsize] at hbound
        generalize Heap.bindParams _ _ _ = r at hg hbound
        obtain ⟨_ | _, h'⟩ := r
        · exact yields_finish ⟨hg.still (Heap.still_raise _), hbound ▸ Nat.lt_succ_of_lt hi.lt⟩
        · exact hbody node scope _ stack code h' ⟨hg, hbound ▸ Nat.lt_succ_self _⟩ hi.lt
      · exact yields_finish (hi.still (Heap.still_raise _))
    | _ =>
      simp only [applyWith, invoke, hobject]
      exact yields_finish (hi.still (Heap.still_raise _))

theorem calls_apply (calls depth : Nat) (hcalls : calls = maxCallDepth - depth) :
    Calls depth (apply calls) := by
  induction calls generalizing depth with
  | zero =>
    refine calls_applyWith fun node scope new stack code h hi hold => ?_
    rw [enter, if_neg (by omega)]
    exact yields_finish ⟨(hi.still (Heap.still_raise _)).grounded, Nat.lt_trans hold hi.lt⟩
  | succ calls ih =>
    refine calls_applyWith fun node scope new stack code h hi hold => ?_
    rw [enter, if_pos (by omega)]
    exact (block_yields (ih (depth + 1) (by omega)) code hi _).leave hold

theorem program_reaches (depth : Nat) (p : Program) (hi : Inside scope h) :
    Reaches (start depth scope p h) (final depth scope (p.evalAt depth scope h)) := by
  have hp := block_yields (calls_apply _ depth rfl) p hi [⟨.program p, depth, .program⟩]
  exact ((Reaches.step rfl).trans hp.reaches).trans (.step rfl)

theorem inside_evalAt (depth : Nat) (p : Program) (hi : Inside scope h) :
    Inside scope (p.evalAt depth scope h).2 :=
  (block_yields (calls_apply _ depth rfl) p hi []).inside

-- ---------------------------------------------------------------------------
-- Measures
-- ---------------------------------------------------------------------------

/-- What a frame still has to evaluate is smaller than its node, which has the size `n`. -/
def Frame.Fits (n : Nat) : Frame → Prop
  | .left _ r => r.size < n
  | .cond yes no => Block.size yes < n ∧ ∀ b ∈ no, Block.size b < n
  | .callee args => Expr.sizes args < n
  | .list _ _ rest => Expr.sizes rest < n
  | .key v rest _ => v.size + Expr.pairSizes rest < n
  | .value _ _ rest _ => Expr.pairSizes rest < n
  | .collection i => i.size < n
  | .seq rest => Block.size rest < n
  | .body _ => False
  | _ => True

/-- What a node of the size `n` moves to is smaller, or it is in one more call. -/
def Move.Fits (depth n : Nat) : Move → Prop
  | .sub child frame => child.size < n ∧ frame.Fits n
  | .tail child => child.size < n
  | .enter _ _ => depth < maxCallDepth
  | _ => True

section
variable {depth n : Nat} {h : Heap}

theorem enter_fits : (enter depth code new h).1.Fits depth n := by
  unfold enter
  split
  case isTrue hlt => exact hlt
  case isFalse => trivial

theorem invoke_fits : (invoke depth f args h).1.Fits depth n := by
  unfold invoke
  split
  · trivial
  · split
    · dsimp only
      split
      · exact enter_fits
      · trivial
    · trivial
  · trivial

theorem collect_fits (goal : Goal) (done : List Value) (hn : Expr.sizes es < n) :
    (collect depth goal done es h).1.Fits depth n := by
  cases es with
  | nil =>
    cases goal with
    | call f => exact invoke_fits
    | array => trivial
  | cons e es =>
    simp only [Expr.sizes] at hn
    exact ⟨by simp only [Node.size]; omega, by simp only [Frame.Fits]; omega⟩

theorem collectPairs_fits (table : Table) (hn : Expr.pairSizes ps < n) :
    (collectPairs table ps h).1.Fits depth n := by
  match ps with
  | [] => trivial
  | (k, v) :: ps =>
    simp only [Expr.pairSizes] at hn
    exact ⟨by simp only [Node.size]; omega, by simp only [Frame.Fits]; omega⟩

theorem begin_fits (node : Node) : (begin depth scope node h).1.Fits depth node.size := by
  match node with
  | .expr e =>
    match e with
    | .ident _ | .int _ | .str _ | .bool _ | .null | .func _ _ => trivial
    | .unary _ e => exact ⟨Nat.lt_succ_self _, trivial⟩
    | .binary _ l r | .index l r =>
      constructor <;> simp only [Node.size, Frame.Fits, Expr.size] <;> omega
    | .cond test yes none =>
      refine ⟨?_, ?_, nofun⟩ <;> simp only [Node.size, Expr.size] <;> omega
    | .cond test yes (some no) =>
      refine ⟨?_, ?_, ?_⟩
      · simp only [Node.size, Expr.size]
        omega
      · simp only [Node.size, Expr.size]
        omega
      · rintro _ ⟨⟩
        simp only [Node.size, Expr.size]
        omega
    | .call callee args =>
      constructor <;> simp only [Node.size, Frame.Fits, Expr.size] <;> omega
    | .array items => exact collect_fits _ _ (Nat.lt_succ_self _)
    | .hash pairs => exact collectPairs_fits _ (Nat.lt_succ_self _)
  | .stmt s =>
    match s with
    | .declare _ _ _ | .assign _ _ | .ret _ => exact ⟨Nat.lt_succ_self _, trivial⟩
    | .expr _ | .block _ => exact Nat.lt_succ_self _
  | .block [] => trivial
  | .block (s :: rest) =>
    constructor <;> simp only [Node.size, Frame.Fits, Block.size] <;> omega
  | .program p => exact ⟨Nat.lt_succ_self _, trivial⟩

theorem resume_fits (frame : Frame) (hf : frame.Fits n) :
    (resume depth scope v frame h).1.Fits depth n := by
  match frame with
  | .left _ _ | .collection _ => exact ⟨hf, trivial⟩
  | .cond yes no =>
    obtain ⟨hyes, hno⟩ := hf
    cases v with
    | bool b =>
      cases b with
      | true => exact hyes
      | false =>
        cases no with
        | none => trivial
        | some no => exact hno no rfl
    | _ => trivial
  | .callee _ | .list _ _ _ => exact collect_fits _ _ hf
  | .key _ rest _ =>
    simp only [Frame.Fits] at hf
    rw [resume]
    split
    · trivial
    · exact ⟨by simp only [Node.size]; omega, by simp only [Frame.Fits]; omega⟩
  | .value _ _ _ _ => exact collectPairs_fits _ hf
  | .seq [] => trivial
  | .seq (s :: rest) =>
    simp only [Frame.Fits, Block.size] at hf
    exact ⟨by simp only [Node.size]; omega, by simp only [Frame.Fits]; omega⟩
  | .unary _ | .right _ _ | .position _ | .declare _ _ | .assign _ | .ret | .body _ | .program =>
    trivial

theorem look_fits (name : String) (i : ScopeId) : (look name i h).1.Fits depth n := by
  unfold look
  split
  · trivial
  · split <;> trivial

theorem change_fits (name : String) (v : Value) (i : ScopeId) :
    (change name v i h).1.Fits depth n := by
  unfold change
  split
  · split <;> trivial
  · split <;> trivial

end

-- ---------------------------------------------------------------------------
-- States on the way
-- ---------------------------------------------------------------------------

/-- An evaluation of the size `n` with `depth` calls around it, and the nodes that wait for it: the
innermost of them is larger, or it is a call and there was one call less around it. -/
inductive Nested : (depth n : Nat) → List Waiting → Prop
  | nil {depth n : Nat} : Nested depth n []
  | inner {depth n : Nat} {node : Node} {frame : Frame} {stack : List Waiting} :
      n < node.size → frame.Fits node.size → Nested depth node.size stack →
      Nested depth n (⟨node, depth, frame⟩ :: stack)
  | body {depth n : Nat} {node : Node} {caller : ScopeId} {stack : List Waiting} :
      depth < maxCallDepth → Nested depth node.size stack →
      Nested (depth + 1) n (⟨node, depth, .body caller⟩ :: stack)

theorem Nested.mono (h : Nested depth n stack) (hm : m ≤ n) : Nested depth m stack := by
  cases h with
  | nil => exact .nil
  | inner hn hf hs => exact .inner (Nat.lt_of_le_of_lt hm hn) hf hs
  | body hd hs => exact .body hd hs

def State.Ordered (s : State) : Prop :=
  match s.control with
  | .eval node | .lookup node _ _ | .assign node _ _ _ => Nested s.depth node.size s.stack
  | .value _ => Nested s.depth 0 s.stack

theorem ordered_perform {turn : Turn} (hs : Nested depth node.size stack)
    (hm : turn.1.Fits depth node.size) : (perform node scope depth stack turn).Ordered := by
  obtain ⟨move, h⟩ := turn
  cases move with
  | done v => exact hs.mono (Nat.zero_le _)
  | sub child frame => exact .inner hm.1 hm.2 hs
  | tail child => exact hs.mono (Nat.le_of_lt hm)
  | lookup name i => exact hs
  | assign name v i => exact hs
  | enter code new => exact .body hm hs

theorem State.Ordered.step {s s' : State} (hs : s.Ordered) (h : step s = some s') : s'.Ordered := by
  obtain ⟨control, scope, depth, stack, heap⟩ := s
  cases control with
  | eval node =>
    obtain rfl := Option.some.inj h
    exact ordered_perform hs (begin_fits node)
  | lookup node name i =>
    obtain rfl := Option.some.inj h
    exact ordered_perform hs (look_fits name i)
  | assign node name v i =>
    obtain rfl := Option.some.inj h
    exact ordered_perform hs (change_fits name v i)
  | value v =>
    have hnested : Nested depth 0 stack := hs
    cases hnested with
    | nil => exact nomatch h
    | @inner _ _ node frame stack _ hf hrest =>
      by_cases hp : frame.passes = true
      · rw [step_value hp] at h
        split at h
        · obtain rfl := Option.some.inj h
          exact hrest.mono (Nat.zero_le _)
        · obtain rfl := Option.some.inj h
          exact ordered_perform hrest (resume_fits frame hf)
      · cases frame with
        | body _ => exact hf.elim
        | program =>
          obtain rfl := Option.some.inj h
          exact hrest.mono (Nat.zero_le _)
        | _ => exact absurd rfl hp
    | body hd hrest =>
      obtain rfl := Option.some.inj h
      exact hrest.mono (Nat.zero_le _)

theorem State.Ordered.run {s : State} (hs : s.Ordered) (n : Nat) : (run n s).Ordered :=
  run_keeps (fun _ _ hs h => hs.step h) hs n

abbrev Smaller : Nat × Nat → Nat × Nat → Prop := Prod.Lex (· < ·) (· < ·)

theorem Smaller.trans (h : Smaller a b) (h' : Smaller b c) : Smaller a c := by
  simp only [Smaller, Prod.lex_def] at h h' ⊢
  omega

theorem Nested.smaller (h : Nested depth n stack) :
    (∀ x ∈ stack.map Waiting.measure, Smaller (maxCallDepth - depth, n) x) ∧
    (stack.map Waiting.measure).Pairwise Smaller := by
  induction h with
  | nil => exact ⟨nofun, .nil⟩
  | @inner depth n node frame stack hn _ _ ih =>
    have hhead : Smaller (maxCallDepth - depth, n) (measure depth node) := .right _ hn
    refine ⟨List.forall_mem_cons.mpr ⟨hhead, fun x hx => hhead.trans (ih.1 x hx)⟩, ?_⟩
    exact List.pairwise_cons.mpr ih
  | @body depth n node caller stack hd _ ih =>
    have hhead : Smaller (maxCallDepth - (depth + 1), n) (measure depth node) :=
      .left _ _ (by omega)
    refine ⟨List.forall_mem_cons.mpr ⟨hhead, fun x hx => hhead.trans (ih.1 x hx)⟩, ?_⟩
    exact List.pairwise_cons.mpr ih

theorem State.Ordered.active {s : State} (hs : s.Ordered) : s.active.Pairwise Smaller := by
  obtain ⟨control, scope, depth, stack, heap⟩ := s
  cases control with
  | eval node | lookup node _ _ | assign node _ _ _ =>
    exact List.pairwise_cons.mpr (Nested.smaller hs)
  | value v => exact (Nested.smaller hs).2

end Machine

open Machine in
/-- Every program comes to its end and stays there, in any scope of a grounded heap and with any
number of calls around it, and with what the evaluator gives for it. On the way, the evaluations in
progress get smaller from each to the one inside. -/
theorem Program.evalAt_ends (depth : Nat) (scope : ScopeId) (p : Program) (h : Heap)
    (hg : h.Grounded) (hscope : scope < h.scopes.size) :
    (∃ n, ∀ m ≥ n, run m (start depth scope p h) = final depth scope (p.evalAt depth scope h)) ∧
    ∀ n, (run n (start depth scope p h)).active.Pairwise Smaller := by
  obtain ⟨n, hn⟩ := program_reaches depth p ⟨hg, hscope⟩
  refine ⟨⟨n, fun m hm => ?_⟩, fun n => ?_⟩
  · obtain ⟨k, rfl⟩ := Nat.exists_eq_add_of_le hm
    rw [run_add, hn, run_halted (step_final _ _ _)]
  · have hstart : (start depth scope p h).Ordered := .nil
    exact (hstart.run n).active

/-- For a function that calls itself without end. -/
theorem Program.evalAt_ends_sample :
    let p : Program :=
      [.declare .fixed "forever"
        (.func ["n"] [.expr (.call (.ident "forever") [.binary .add (.ident "n") (.int 1)])]),
       .expr (.call (.ident "forever") [.int 0])]
    let h := (Heap.empty.openScope none).2
    h.Grounded ∧ 0 < h.scopes.size ∧
    (∃ n, ∀ m ≥ n, Machine.run m (Machine.start 0 0 p h) = Machine.final 0 0 (p.evalAt 0 0 h)) ∧
    ∀ n, (Machine.run n (Machine.start 0 0 p h)).active.Pairwise Machine.Smaller := by
  have hg : (Heap.empty.openScope none).2.Grounded := Heap.grounded_empty.openScope nofun
  have hscope : 0 < (Heap.empty.openScope none).2.scopes.size := Nat.zero_lt_one
  exact ⟨hg, hscope, Program.evalAt_ends 0 0 _ _ hg hscope⟩

end TinyScript
