import TinyScript.Display
import TinyScript.Proofs.Growth
import TinyScript.Proofs.Origin
import TinyScript.Proofs.Outward

/-!
# Names that are never mentioned

A scope may have a name that no code mentions, neither the program that runs nor a function of the
heap. Then nothing that happens depends on it: the run with the name and the run without it give
the same value, and their heaps differ by that name alone (`Program.evalAt_unmentioned`). The name
of a built-in procedure is no exception, since it is looked up only where it is mentioned.

`Heap.without` takes a name out of a scope. Every step of an evaluation from a heap that has the
name does the same from the heap without it (`Overlooks`).
-/

namespace TinyScript

def Scope.without (s : Scope) (name : String) : Scope :=
  { s with bindings := s.bindings.filter (·.1 != name) }

namespace Heap

def without (h : Heap) (i : ScopeId) (name : String) : Heap := h.withScope i (·.without name)

/-- No function mentions the name, neither as a parameter nor in its body. -/
def Silent (h : Heap) (name : String) : Prop :=
  ∀ (id : ObjectId) (params : List String) (body : Block) (scope : ScopeId),
    h.objects[id]? = some (.function params body scope) →
      name ∉ params ∧ .name name ∉ Block.atoms body

/-- A scope binds a name that no function mentions. -/
structure Spare (i : ScopeId) (name : String) (b : Binding) (h : Heap) : Prop where
  binding : h.binding? name i = some b
  silent : h.Silent name

end Heap

/-- What is done with a name in a scope is done without it too, and the name stays spare. -/
structure Overlooks (i : ScopeId) (name : String) (b : Binding) (r r' : α × Heap) : Prop where
  spare : r.2.Spare i name b
  same : r' = (r.1, r.2.without i name)

-- ---------------------------------------------------------------------------
-- Operations that look at objects only
-- ---------------------------------------------------------------------------

namespace Heap

def withScopes (scopes : Array Scope) (h : Heap) : Heap := { h with scopes }

section
variable {h : Heap} {ss : Array Scope}

@[simp] theorem object?_withScopes : (h.withScopes ss).object? v = h.object? v := by cases v <;> rfl

@[simp] theorem tag_withScopes : (h.withScopes ss).tag v = h.tag v := by cases v <;> rfl

@[simp] theorem string?_withScopes : (h.withScopes ss).string? v = h.string? v := by cases v <;> rfl

@[simp] theorem hashKey?_withScopes : (h.withScopes ss).hashKey? v = h.hashKey? v := by
  cases v <;> rfl

theorem unary_withScopes (op : UnaryOp) (v : Value) :
    (h.withScopes ss).unary op v = ((h.unary op v).1, (h.unary op v).2.withScopes ss) := by
  cases op <;> cases v <;> rfl

theorem arithmetic_withScopes (op : BinaryOp) (l r : Int64) :
    (h.withScopes ss).arithmetic op l r =
      ((h.arithmetic op l r).1, (h.arithmetic op l r).2.withScopes ss) := by
  unfold arithmetic
  split
  case h_4 | h_5 => split <;> rfl
  all_goals rfl

theorem rejectOperands_withScopes (op : BinaryOp) (l r : Value) :
    (h.withScopes ss).rejectOperands op l r =
      ((h.rejectOperands op l r).1, (h.rejectOperands op l r).2.withScopes ss) := by
  unfold rejectOperands
  rw [tag_withScopes, tag_withScopes]
  split <;> rfl

theorem binary_withScopes (op : BinaryOp) (l r : Value) :
    (h.withScopes ss).binary op l r =
      ((h.binary op l r).1, (h.binary op l r).2.withScopes ss) := by
  unfold binary
  split
  · exact arithmetic_withScopes _ _ _
  · split
    · rfl
    · rfl
    · rw [string?_withScopes, string?_withScopes]
      split
      · rfl
      · exact rejectOperands_withScopes _ _ _
    · exact rejectOperands_withScopes _ _ _

theorem index_withScopes (c i : Value) :
    (h.withScopes ss).index c i = ((h.index c i).1, (h.index c i).2.withScopes ss) := by
  unfold index
  rw [object?_withScopes]
  split
  · rfl
  · rw [hashKey?_withScopes, tag_withScopes]
    split <;> rfl
  · rw [tag_withScopes, tag_withScopes]
    rfl

theorem onArray_withScopes (b : Builtin) (id : ObjectId) (items : Array Value)
    (extra : List Value) :
    b.onArray id items extra (h.withScopes ss) =
      ((b.onArray id items extra h).1, (b.onArray id items extra h).2.withScopes ss) := by
  cases b
  case pop | popleft =>
    rw [Builtin.onArray, Builtin.onArray]
    cases items.isEmpty <;> rfl
  all_goals rfl

theorem builtin_withScopes (b : Builtin) (args : List Value) :
    b.call args (h.withScopes ss) = ((b.call args h).1, (b.call args h).2.withScopes ss) := by
  unfold Builtin.call
  split
  · rfl
  split
  · rw [object?_withScopes]
    split
    · exact onArray_withScopes _ _ _ _
    · rfl
    · rw [tag_withScopes]
      rfl
  · rfl

theorem textIn_withScopes (arrays hashes : List ObjectId) (v : Value) :
    (h.withScopes ss).textIn arrays hashes v = h.textIn arrays hashes v := by
  have hobjects : (h.withScopes ss).objects = h.objects := rfl
  fun_induction h.textIn arrays hashes v
  case case5 ih => rw [textIn, ih]
  case case1 | case2 | case3 | case4 => rw [textIn]
  all_goals
    rw [textIn]
    split <;> simp_all

end

end Heap

-- ---------------------------------------------------------------------------
-- Scopes and other names
-- ---------------------------------------------------------------------------

namespace Scope

variable {name x : String}

theorem find?_without (s : Scope) (hx : x ≠ name) : (s.without name).find? x = s.find? x := by
  obtain ⟨bindings, outer⟩ := s
  simp only [find?, without]
  induction bindings with
  | nil => rfl
  | cons p bindings ih =>
    obtain ⟨n, b⟩ := p
    by_cases hn : n = name
    · subst hn
      simpa [List.lookup_cons, beq_false_of_ne hx] using ih
    · simp only [List.filter_cons, bne_iff_ne, ne_eq, hn, not_false_eq_true, if_true,
        List.lookup_cons, ih]

theorem declare_without (s : Scope) (hx : x ≠ name) (b : Binding) :
    (s.without name).declare x b = (s.declare x b).without name := by
  simp [declare, without, hx]

theorem assign_without (s : Scope) (x : String) (v : Value) :
    (s.without name).assign x v = (s.assign x v).without name := by
  simp [assign, without, List.filter_map, Function.comp_def]

theorem without_declare (s : Scope) (hb : s.find? name = none) (b : Binding) :
    (s.declare name b).without name = s := by
  obtain ⟨bindings, outer⟩ := s
  have hall : ∀ p ∈ bindings, p.1 != name := by
    intro p hp
    exact bne_comm.trans (List.lookup_eq_none_iff.mp hb p hp)
  simp [declare, without, List.filter_eq_self.mpr hall]

end Scope

namespace Heap

section
variable {h : Heap} {i : ScopeId} {name x : String} {b : Binding}

theorem chain_without (j : ScopeId) : (h.without i name).chain j = h.chain j := by
  have houter := outer_withScope (f := (·.without name)) (fun _ => rfl) h i
  rw [chain, without, chainUpTo_congr houter, withScope, Array.size_modify, chain]

theorem binding?_without (hx : x ≠ name) : (h.without i name).binding? x = h.binding? x := by
  funext j
  rw [without, binding?_withScope, binding?]
  simp only [Scope.find?_without _ hx]
  split <;> rfl

theorem lookup_without (hx : x ≠ name) :
    (h.without i name).lookup scope x = h.lookup scope x := by
  rw [lookup, lookup, chain_without, binding?_without hx]

theorem withScope_without {f : Scope → Scope}
    (hf : ∀ s : Scope, f (s.without name) = (f s).without name) (j : ScopeId) :
    (h.without i name).withScope j f = (h.withScope j f).without i name := by
  have hscopes : ((h.scopes.modify i (·.without name)).modify j f) =
      (h.scopes.modify j f).modify i (·.without name) := by
    refine Array.ext_getElem? fun k => ?_
    simp only [Array.getElem?_modify]
    cases h.scopes[k]? <;> split <;> split <;> simp [hf]
  rw [without, withScope, withScope, without, withScope, withScope]
  exact congrArg (fun ss => (⟨h.objects, ss, h.signals⟩ : Heap)) hscopes

theorem declare_without (hx : x ≠ name) (j : ScopeId) (c : Binding) :
    (h.without i name).declare j x c =
      ((h.declare j x c).1, (h.declare j x c).2.without i name) := by
  unfold declare
  rw [binding?_without hx]
  split
  · rfl
  · exact congrArg (Prod.mk _) (withScope_without (Scope.declare_without · hx c) j)

theorem assign_without (hx : x ≠ name) (j : ScopeId) (v : Value) :
    (h.without i name).assign j x v =
      ((h.assign j x v).1, (h.assign j x v).2.without i name) := by
  unfold assign
  rw [binding?_without hx, chain_without]
  split
  · rfl
  · split
    · exact congrArg (Prod.mk _) (withScope_without (Scope.assign_without · x v) _)
    · rfl

theorem openScope_without (hi : i < h.scopes.size) (outer : Option ScopeId) :
    (h.without i name).openScope outer =
      ((h.openScope outer).1, (h.openScope outer).2.without i name) := by
  have hscopes : (h.scopes.modify i (·.without name)).push ⟨[], outer⟩ =
      (h.scopes.push ⟨[], outer⟩).modify i (·.without name) := by
    refine Array.ext_getElem? fun k => ?_
    simp only [Array.getElem?_modify, Array.getElem?_push, Array.size_modify]
    by_cases hik : i = k
    · rw [if_pos hik, if_pos hik, if_neg (hik ▸ Nat.ne_of_lt hi), if_neg (hik ▸ Nat.ne_of_lt hi)]
    · rw [if_neg hik, if_neg hik]
  rw [openScope, openScope, without, withScope, Array.size_modify, hscopes]
  rfl

theorem without_declare (hb : h.binding? name i = none) (b : Binding) :
    (h.declare i name b).2.without i name = h := by
  have hscopes : (h.scopes.modify i (·.declare name b)).modify i (·.without name) = h.scopes := by
    refine Array.ext_getElem? fun k => ?_
    simp only [Array.getElem?_modify]
    by_cases hik : i = k
    · rw [if_pos hik, if_pos hik]
      cases hs : h.scopes[k]? with
      | none => rfl
      | some s => exact congrArg some (s.without_declare (binding?_eq_none (hik ▸ hb) hs) b)
    · rw [if_neg hik, if_neg hik]
  rw [declare, hb]
  exact congrArg (fun ss => (⟨h.objects, ss, h.signals⟩ : Heap)) hscopes

-- ---------------------------------------------------------------------------
-- What keeps a name spare
-- ---------------------------------------------------------------------------

theorem spare_declare (hsilent : h.Silent name) (hi : i < h.scopes.size)
    (hnew : h.binding? name i = none) : (h.declare i name b).2.Spare i name b := by
  rw [declare, hnew]
  refine ⟨?_, hsilent⟩
  refine (h.binding?_withScope i i name (·.declare name b)).trans ?_
  rw [if_pos rfl, Array.getElem?_eq_getElem hi, Option.bind_some, Scope.find?_declare, if_pos rfl]

theorem Spare.lt_size (hs : h.Spare i name b) : i < h.scopes.size := by
  obtain ⟨s, hs, -⟩ := Option.bind_eq_some_iff.mp hs.binding
  exact lt_of_scope hs

theorem Spare.still {h' : Heap} (hs : h.Spare i name b) (hstill : Still h h') :
    h'.Spare i name b := by
  refine ⟨?_, fun id params body scope hid => ?_⟩
  · rw [binding?, hstill.scopes]
    exact hs.binding
  · exact hs.silent id params body scope (hstill.functions _ _ _ _ hid)

theorem Spare.silent_object (hs : h.Spare i name b)
    (hf : h.object? f = some (.function params body scope)) :
    name ∉ params ∧ .name name ∉ Block.atoms body := by
  cases f with
  | object id => exact hs.silent id params body scope hf
  | _ => exact nomatch hf

theorem Spare.allocFunction (hs : h.Spare i name b) (hparams : name ∉ params)
    (hbody : .name name ∉ Block.atoms body) :
    (h.alloc (.function params body scope)).2.Spare i name b := by
  refine ⟨hs.binding, fun id params' body' scope' hid => ?_⟩
  rw [alloc, Array.getElem?_push] at hid
  split at hid
  · cases hid
    exact ⟨hparams, hbody⟩
  · exact hs.silent id params' body' scope' hid

theorem Spare.openScope (hs : h.Spare i name b) (outer : Option ScopeId) :
    (h.openScope outer).2.Spare i name b :=
  ⟨(h.binding?_openScope outer name i).trans hs.binding, hs.silent⟩

theorem Spare.withScope {f : Scope → Scope} (hs : h.Spare i name b) (j : ScopeId)
    (hf : ∀ s : Scope, (f s).find? name = s.find? name) :
    (h.withScope j f).Spare i name b := by
  refine ⟨?_, hs.silent⟩
  rw [binding?_withScope]
  split
  · simp only [hf]
    exact hs.binding
  · exact hs.binding

theorem Spare.declare (hs : h.Spare i name b) (hx : x ≠ name) (j : ScopeId) (c : Binding) :
    (h.declare j x c).2.Spare i name b := by
  rcases h.declare_cases j x c with heq | ⟨-, heq⟩
  · rw [heq]
    exact hs
  · rw [heq]
    exact hs.withScope j fun s => by rw [Scope.find?_declare, if_neg hx.symm]

theorem Spare.assign (hs : h.Spare i name b) (hx : x ≠ name) (j : ScopeId) (v : Value) :
    (h.assign j x v).2.Spare i name b := by
  rcases h.assign_cases j x v with ⟨e, heq⟩ | ⟨k, -, c, -, -, heq⟩
  · rw [heq]
    exact hs
  · rw [heq]
    exact hs.withScope k fun s => by simp [Scope.find?_assign, hx.symm]

end

end Heap

-- ---------------------------------------------------------------------------
-- Going on
-- ---------------------------------------------------------------------------

section
variable {i : ScopeId} {name : String} {b : Binding} {h : Heap}

theorem Overlooks.go {r r' : α × Heap} {k : α → Heap → β × Heap} (hr : Overlooks i name b r r')
    (hk : ∀ a h, h.Spare i name b → Overlooks i name b (k a h) (k a (h.without i name))) :
    Overlooks i name b (k r.1 r.2) (k r'.1 r'.2) := by
  rw [hr.same]
  exact hk _ _ hr.spare

theorem overlooks_pure (a : α) (hs : h.Spare i name b) :
    Overlooks i name b (a, h) (a, h.without i name) := ⟨hs, rfl⟩

theorem Overlooks.andThen {r r' : Run} {next : Value → Heap → Run} (hr : Overlooks i name b r r')
    (hn : ∀ v h, h.Spare i name b → Overlooks i name b (next v h) (next v (h.without i name))) :
    Overlooks i name b (andThen r next) (andThen r' next) := by
  refine hr.go (k := fun v h => if v.isInterrupt then (v, h) else next v h) fun v h hs => ?_
  split
  · exact overlooks_pure v hs
  · exact hn v h hs

theorem Overlooks.part {r r' : Run} {next : Value → Heap → Parts α} (hr : Overlooks i name b r r')
    (hn : ∀ v h, h.Spare i name b → Overlooks i name b (next v h) (next v (h.without i name))) :
    Overlooks i name b (part r next) (part r' next) := by
  refine hr.go (k := fun v h => if v.isInterrupt then (.error v, h) else next v h)
    fun v h hs => ?_
  split
  · exact overlooks_pure _ hs
  · exact hn v h hs

theorem Overlooks.whole {r r' : Parts α} {next : α → Heap → Run} (hr : Overlooks i name b r r')
    (hn : ∀ a h, h.Spare i name b → Overlooks i name b (next a h) (next a (h.without i name))) :
    Overlooks i name b (whole r next) (whole r' next) := by
  obtain ⟨_ | a, h⟩ := r
  all_goals rw [hr.same]
  · exact overlooks_pure _ hr.spare
  · exact hn a h hr.spare

theorem Overlooks.map {r r' : Parts α} (hr : Overlooks i name b r r') (f : α → β) :
    Overlooks i name b (Parts.map f r) (Parts.map f r') := by
  obtain ⟨_ | a, h⟩ := r
  all_goals
    rw [hr.same]
    exact overlooks_pure _ hr.spare

theorem Overlooks.caught {r r' : Run} (hr : Overlooks i name b r r') :
    Overlooks i name b r.caught r'.caught :=
  hr.go (k := fun v h => (v.unwrap, h)) fun _ _ hs => overlooks_pure _ hs

theorem overlooks_still {op : Heap → Run} (hop : ∀ ss, op (h.withScopes ss) =
    ((op h).1, (op h).2.withScopes ss)) (hstill : h.Still (op h).2) (hs : h.Spare i name b) :
    Overlooks i name b (op h) (op (h.without i name)) := by
  refine ⟨hs.still hstill, ?_⟩
  have hscopes : (op h).2.without i name =
      (op h).2.withScopes (h.scopes.modify i (·.without name)) := by
    rw [Heap.without, Heap.withScope, hstill.scopes]
    rfl
  rw [hscopes]
  exact hop _

theorem overlooks_raise (fault : Fault) (hs : h.Spare i name b) :
    Overlooks i name b (h.raise fault) ((h.without i name).raise fault) :=
  overlooks_still (fun _ => rfl) (Heap.still_raise fault) hs

theorem overlooks_alloc {o : Object} (ho : ∀ params body scope, o ≠ .function params body scope)
    (hs : h.Spare i name b) :
    Overlooks i name b (h.alloc o) ((h.without i name).alloc o) :=
  overlooks_still (fun _ => rfl) (Heap.still_alloc ho) hs

theorem Overlooks.afterChange {r r' : Except ScopeError Unit × Heap} {next : Heap → Run}
    (hr : Overlooks i name b r r')
    (hn : ∀ h, h.Spare i name b → Overlooks i name b (next h) (next (h.without i name))) :
    Overlooks i name b (afterChange r next) (afterChange r' next) := by
  obtain ⟨_ | _, h⟩ := r
  all_goals rw [hr.same]
  · exact overlooks_raise _ hr.spare
  · exact hn h hr.spare

end

-- ---------------------------------------------------------------------------
-- Trees
-- ---------------------------------------------------------------------------

theorem Atom.not_mem_append {a : Atom} {xs ys : List Atom} : a ∉ xs ++ ys ↔ a ∉ xs ∧ a ∉ ys := by
  rw [List.mem_append, not_or]

theorem Atom.not_mem_name {x name : String} {as : List Atom} :
    .name name ∉ Atom.name x :: as ↔ x ≠ name ∧ .name name ∉ as := by
  simp [eq_comm]

def CallOverlooks (i : ScopeId) (name : String) (b : Binding) (call : Caller) : Prop :=
  ∀ f args (h : Heap), h.Spare i name b →
    Overlooks i name b (call f args h) (call f args (h.without i name))

section
variable {i : ScopeId} {name : String} {b : Binding} {call : Caller} {scope : ScopeId}

mutual

theorem overlooks_expr {h : Heap} (hcall : CallOverlooks i name b call) (e : Expr)
    (he : .name name ∉ e.atoms) (hs : h.Spare i name b) :
    Overlooks i name b (e.eval call scope h) (e.eval call scope (h.without i name)) := by
  match e with
  | .ident x =>
    have hx : x ≠ name := fun hx => he (hx ▸ List.mem_singleton_self _)
    rw [Expr.eval, Expr.eval, Heap.lookup_without hx]
    cases h.lookup scope x with
    | some v => exact overlooks_pure v hs
    | none =>
      cases Builtin.ofName? x with
      | some p => exact overlooks_alloc (fun _ _ _ => nofun) hs
      | none => exact overlooks_raise _ hs
  | .int _ | .bool _ | .null => exact overlooks_pure _ hs
  | .str _ => exact overlooks_alloc (fun _ _ _ => nofun) hs
  | .func params body =>
    simp only [Expr.atoms, List.mem_append, List.mem_map, Atom.name.injEq, exists_eq_right,
      not_or] at he
    exact ⟨hs.allocFunction he.1 he.2, rfl⟩
  | .unary op e =>
    refine (overlooks_expr hcall e he hs).andThen fun v h hs => ?_
    exact overlooks_still (fun _ => Heap.unary_withScopes op v) (Heap.answer_unary op v).still hs
  | .binary op l r =>
    obtain ⟨hl, hr⟩ := Atom.not_mem_append.mp he
    refine (overlooks_expr hcall l hl hs).andThen fun a h hs => ?_
    refine (overlooks_expr hcall r hr hs).andThen fun c h hs => ?_
    exact overlooks_still (fun _ => Heap.binary_withScopes op a c)
      (Heap.answer_binary op a c).still hs
  | .cond test yes none =>
    obtain ⟨htest, hyes⟩ := Atom.not_mem_append.mp he
    rw [Expr.eval, Expr.eval]
    refine (overlooks_expr hcall test htest hs).andThen fun v h hs => ?_
    cases v with
    | bool c =>
      cases c with
      | true => exact overlooks_block hcall yes hyes hs
      | false => exact overlooks_pure _ hs
    | _ => exact overlooks_pure _ hs
  | .cond test yes (some no) =>
    obtain ⟨htest, hblocks⟩ := Atom.not_mem_append.mp he
    obtain ⟨hyes, hno⟩ := Atom.not_mem_append.mp hblocks
    rw [Expr.eval, Expr.eval]
    refine (overlooks_expr hcall test htest hs).andThen fun v h hs => ?_
    cases v with
    | bool c =>
      cases c with
      | true => exact overlooks_block hcall yes hyes hs
      | false => exact overlooks_block hcall no hno hs
    | _ => exact overlooks_pure _ hs
  | .call callee args =>
    obtain ⟨hcallee, hargs⟩ := Atom.not_mem_append.mp he
    rw [Expr.eval_call, Expr.eval_call]
    refine (overlooks_expr hcall callee hcallee hs).andThen fun f h hs => ?_
    exact (overlooks_exprs hcall args hargs hs).whole fun values h hs => hcall f values h hs
  | .array items =>
    rw [Expr.eval_array, Expr.eval_array]
    refine (overlooks_exprs hcall items he hs).whole fun values h hs => ?_
    exact overlooks_alloc (fun _ _ _ => nofun) hs
  | .hash ps =>
    rw [Expr.eval_hash, Expr.eval_hash]
    refine (overlooks_pairs hcall ps he hs).whole fun table h hs => ?_
    exact overlooks_alloc (fun _ _ _ => nofun) hs
  | .index c p =>
    obtain ⟨hc, hp⟩ := Atom.not_mem_append.mp he
    refine (overlooks_expr hcall c hc hs).andThen fun c h hs => ?_
    refine (overlooks_expr hcall p hp hs).andThen fun p h hs => ?_
    exact overlooks_still (fun _ => Heap.index_withScopes c p) (Heap.answer_index c p).still hs

theorem overlooks_exprs {h : Heap} (hcall : CallOverlooks i name b call) (es : List Expr)
    (hes : .name name ∉ Expr.listAtoms es) (hs : h.Spare i name b) :
    Overlooks i name b (Expr.evalList call scope es h)
      (Expr.evalList call scope es (h.without i name)) := by
  match es with
  | [] => exact overlooks_pure _ hs
  | e :: es =>
    obtain ⟨he, hes⟩ := Atom.not_mem_append.mp hes
    rw [Expr.evalList_cons, Expr.evalList_cons]
    refine (overlooks_expr hcall e he hs).part fun v h hs => ?_
    exact (overlooks_exprs hcall es hes hs).map _

theorem overlooks_pairs {h : Heap} {table : Table} (hcall : CallOverlooks i name b call)
    (ps : List (Expr × Expr)) (hps : .name name ∉ Expr.pairAtoms ps) (hs : h.Spare i name b) :
    Overlooks i name b (Expr.evalPairs call scope ps table h)
      (Expr.evalPairs call scope ps table (h.without i name)) := by
  match ps with
  | [] => exact overlooks_pure _ hs
  | (key, value) :: ps =>
    obtain ⟨hkey, hrest⟩ := Atom.not_mem_append.mp hps
    obtain ⟨hvalue, hps⟩ := Atom.not_mem_append.mp hrest
    rw [Expr.evalPairs_cons, Expr.evalPairs_cons]
    refine (overlooks_expr hcall key hkey hs).part fun k h hs => ?_
    have hkey' : (h.without i name).hashKey? k = h.hashKey? k := Heap.hashKey?_withScopes
    have htag' : (h.without i name).tag k = h.tag k := Heap.tag_withScopes
    rw [hkey', htag']
    cases h.hashKey? k with
    | none =>
      exact (overlooks_raise _ hs).go (k := fun v h => (Except.error v, h)) fun _ _ hs =>
        overlooks_pure _ hs
    | some hashKey =>
      refine (overlooks_expr hcall value hvalue hs).part fun v h hs => ?_
      exact overlooks_pairs hcall ps hps hs

theorem overlooks_stmt {h : Heap} (hcall : CallOverlooks i name b call) (s : Stmt)
    (hnot : .name name ∉ s.atoms) (hs : h.Spare i name b) :
    Overlooks i name b (s.eval call scope h) (s.eval call scope (h.without i name)) := by
  match s with
  | .declare m x e =>
    obtain ⟨hx, he⟩ := Atom.not_mem_name.mp hnot
    rw [Stmt.eval_declare, Stmt.eval_declare]
    refine (overlooks_expr hcall e he hs).andThen fun v h hs => ?_
    have hdeclare : Overlooks i name b (h.declare scope x ⟨m, v⟩)
        ((h.without i name).declare scope x ⟨m, v⟩) :=
      ⟨hs.declare hx scope _, Heap.declare_without hx scope _⟩
    exact hdeclare.afterChange fun h hs => overlooks_pure _ hs
  | .assign x e =>
    obtain ⟨hx, he⟩ := Atom.not_mem_name.mp hnot
    rw [Stmt.eval_assign, Stmt.eval_assign]
    refine (overlooks_expr hcall e he hs).andThen fun v h hs => ?_
    have hassign : Overlooks i name b (h.assign scope x v)
        ((h.without i name).assign scope x v) :=
      ⟨hs.assign hx scope v, Heap.assign_without hx scope v⟩
    exact hassign.afterChange fun h hs => overlooks_pure _ hs
  | .ret e =>
    refine (overlooks_expr hcall e hnot hs).andThen fun v h hs => ?_
    exact ⟨⟨hs.binding, hs.silent⟩, rfl⟩
  | .expr e => exact overlooks_expr hcall e hnot hs
  | .block body =>
    exact overlooks_block hcall body (fun hbody => hnot (List.mem_cons_of_mem _ hbody)) hs

theorem overlooks_block {h : Heap} {last : Value} (hcall : CallOverlooks i name b call)
    (body : List Stmt) (hbody : .name name ∉ Block.atoms body) (hs : h.Spare i name b) :
    Overlooks i name b (Block.eval call scope body last h)
      (Block.eval call scope body last (h.without i name)) := by
  match body with
  | [] => exact overlooks_pure _ hs
  | s :: body =>
    obtain ⟨hstmt, hbody⟩ := Atom.not_mem_append.mp hbody
    refine (overlooks_stmt hcall s hstmt hs).andThen fun v h hs => ?_
    exact overlooks_block hcall body hbody hs

end

end

-- ---------------------------------------------------------------------------
-- Calls and programs
-- ---------------------------------------------------------------------------

section
variable {i : ScopeId} {name : String} {b : Binding} {h : Heap}

theorem overlooks_bindParams {ps : List (String × Value)} (hps : ∀ p ∈ ps, p.1 ≠ name)
    (scope : ScopeId) (hs : h.Spare i name b) :
    Overlooks i name b (h.bindParams scope ps) ((h.without i name).bindParams scope ps) := by
  induction ps generalizing h with
  | nil => exact overlooks_pure _ hs
  | cons p ps ih =>
    obtain ⟨x, v⟩ := p
    obtain ⟨hx, hps⟩ := List.forall_mem_cons.mp hps
    have hdeclared := hs.declare hx scope ⟨.mutable, v⟩
    rw [Heap.bindParams, Heap.bindParams, Heap.declare_without hx]
    generalize h.declare scope x ⟨.mutable, v⟩ = r at hdeclared
    obtain ⟨_ | _, h'⟩ := r
    · exact overlooks_pure _ hdeclared
    · exact ih hps hdeclared

theorem overlooks_applyWith {body : Block → ScopeId → Heap → Run}
    (hbody : ∀ code scope (h : Heap), .name name ∉ Block.atoms code → h.Spare i name b →
      Overlooks i name b (body code scope h) (body code scope (h.without i name))) :
    CallOverlooks i name b (applyWith body) := by
  intro f args h hs
  have hobject' : (h.without i name).object? f = h.object? f := Heap.object?_withScopes
  have htag' : (h.without i name).tag f = h.tag f := Heap.tag_withScopes
  cases hobject : h.object? f with
  | none =>
    simp only [applyWith, hobject', hobject, htag']
    exact overlooks_raise _ hs
  | some o =>
    cases o with
    | builtin p =>
      simp only [applyWith, hobject', hobject]
      exact overlooks_still (fun _ => Heap.builtin_withScopes p args)
        (Heap.still_builtin p args) hs
    | function params code outer =>
      rw [applyWith_function hobject, applyWith_function (hobject'.trans hobject),
        Heap.openScope_without hs.lt_size]
      split
      · obtain ⟨hparams, hcode⟩ := hs.silent_object hobject
        have hothers : ∀ p ∈ params.zip args, p.1 ≠ name := by
          rintro p hp rfl
          exact hparams (List.of_mem_zip hp).1
        exact (overlooks_bindParams hothers _ (hs.openScope (some outer))).afterChange
          fun h hs => hbody code _ h hcode hs
      · exact overlooks_raise _ hs
    | _ =>
      simp only [applyWith, hobject', hobject, htag']
      exact overlooks_raise _ hs

theorem overlooks_apply (calls : Nat) : CallOverlooks i name b (apply calls) := by
  induction calls with
  | zero => exact overlooks_applyWith fun _ _ h _ hs => overlooks_raise _ hs
  | succ calls ih =>
    exact overlooks_applyWith fun code scope h hcode hs => (overlooks_block ih code hcode hs).caught

end

/-- A name that neither the program nor any function mentions can be declared in a scope that does
not have it, and the program does the same as before: it gives the same value with the same text,
and all that is different afterwards is that name. -/
theorem Program.evalAt_unmentioned (depth : Nat) (scope : ScopeId) (p : Program) (h : Heap)
    (i : ScopeId) (name : String) (b : Binding) (hp : .name name ∉ Block.atoms p)
    (hsilent : h.Silent name) (hi : i < h.scopes.size) (hnew : h.binding? name i = none) :
    let r := p.evalAt depth scope h
    let r' := p.evalAt depth scope (h.declare i name b).2
    r'.1 = r.1 ∧ r'.2.display r'.1 = r.2.display r.1 ∧
      r'.2.binding? name i = some b ∧ r'.2.without i name = r.2 := by
  dsimp only
  have hspare : (h.declare i name b).2.Spare i name b := Heap.spare_declare hsilent hi hnew
  have hrun : Overlooks i name b (p.evalAt depth scope (h.declare i name b).2)
      (p.evalAt depth scope ((h.declare i name b).2.without i name)) :=
    (overlooks_block (overlooks_apply (maxCallDepth - depth)) p hp hspare).caught
  rw [Heap.without_declare hnew] at hrun
  rw [hrun.same]
  exact ⟨rfl, (Heap.textIn_withScopes [] [] _).symm, hrun.spare.binding, rfl⟩

/-- With `push` declared in the scope of a function that is called, between two elements. -/
theorem Program.evalAt_unmentioned_sample :
    let p : Program :=
      [.declare .mutable "xs" (.array [.int 1]),
        .expr (.call (.ident "f") [.call (.ident "len") [.ident "xs"]])]
    let f : Object := .function ["x"] [.ret (.array [.ident "x", .ident "x"])] 0
    let h := (((Heap.empty.openScope none).2.alloc f).2.declare 0 "f" ⟨.fixed, .object 0⟩).2
    let b : Binding := ⟨.mutable, .int 7⟩
    let r := p.evalAt 0 0 h
    let r' := p.evalAt 0 0 (h.declare 0 "push" b).2
    r'.1 = r.1 ∧ r'.2.display r'.1 = r.2.display r.1 ∧
      r'.2.binding? "push" 0 = some b ∧ r'.2.without 0 "push" = r.2 := by
  refine Program.evalAt_unmentioned 0 0 _ _ 0 "push" _ ?_ ?_ ?_ ?_
  · decide
  · intro id params body scope hid
    cases id with
    | zero =>
      cases hid
      exact ⟨by decide, by decide⟩
    | succ id => exact nomatch hid
  · decide
  · decide

end TinyScript
