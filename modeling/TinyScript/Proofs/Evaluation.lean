import TinyScript.Eval

/-!
# Evaluation put together from steps

The evaluator goes on in three ways: after a value (`andThen`), with a value that becomes a part of
something (`part`), and with everything that was put together (`whole`). Here its equations
are written with these, so that what holds of going on need not be shown again for every tree. What
an operator can do to a heap is said once as well (`Heap.Answer`).
-/

namespace TinyScript

/-- What has been put together, or the signal that ended it. -/
abbrev Parts (α : Type) := Except Value α × Heap

def whole (r : Parts α) (next : α → Heap → Run) : Run :=
  match r with
  | (.ok a, h) => next a h
  | (.error v, h) => (v, h)

def Parts.map (f : α → β) (r : Parts α) : Parts β :=
  match r with
  | (.ok a, h) => (.ok (f a), h)
  | (.error v, h) => (.error v, h)

def part (r : Run) (next : Value → Heap → Parts α) : Parts α :=
  if r.1.isInterrupt then (.error r.1, r.2) else next r.1 r.2

def Run.caught (r : Run) : Run := (r.1.unwrap, r.2)

/-- Goes on in a scope that has been changed; a refusal is a failure. -/
def afterChange (r : Except ScopeError Unit × Heap) (next : Heap → Run) : Run :=
  match r with
  | (.ok (), h) => next h
  | (.error e, h) => h.raise (.scope e)

theorem whole_part (r : Run) (next : Value → Heap → Parts α) (k : α → Heap → Run) :
    whole (part r next) k = andThen r fun v h => whole (next v h) k := by
  obtain ⟨v, h⟩ := r
  simp only [part, andThen]
  split <;> rfl

theorem whole_map (f : α → β) (r : Parts α) (k : β → Heap → Run) :
    whole (Parts.map f r) k = whole r fun a h => k (f a) h := by
  obtain ⟨_ | _, _⟩ := r <;> rfl

section
variable {call : Caller} {scope : ScopeId} {h : Heap}

theorem settle_eq (r : Except ScopeError Unit × Heap) :
    settle r = afterChange r fun h => (.null, h) := by
  obtain ⟨_ | _, _⟩ := r <;> rfl

theorem Expr.eval_call : (Expr.call f args).eval call scope h =
    andThen (f.eval call scope h) fun f h =>
      whole (Expr.evalList call scope args h) fun values h => call f values h := by
  rw [Expr.eval]
  congr
  funext f h
  obtain ⟨_ | _, _⟩ := Expr.evalList call scope args h <;> rfl

theorem Expr.eval_array : (Expr.array items).eval call scope h =
    whole (Expr.evalList call scope items h) fun values h => h.alloc (.array values.toArray) := by
  rw [Expr.eval]
  obtain ⟨_ | _, _⟩ := Expr.evalList call scope items h <;> rfl

theorem Expr.eval_hash : (Expr.hash pairs).eval call scope h =
    whole (Expr.evalPairs call scope pairs [] h) fun table h => h.alloc (.hash table) := by
  rw [Expr.eval]
  obtain ⟨_ | _, _⟩ := Expr.evalPairs call scope pairs [] h <;> rfl

theorem Expr.evalList_cons : Expr.evalList call scope (e :: es) h =
    part (e.eval call scope h) fun v h => Parts.map (v :: ·) (Expr.evalList call scope es h) := by
  rw [Expr.evalList]
  obtain ⟨v, h⟩ := e.eval call scope h
  simp only [part]
  split
  · rfl
  · obtain ⟨_ | _, _⟩ := Expr.evalList call scope es h <;> rfl

theorem Expr.evalPairs_cons : Expr.evalPairs call scope ((key, value) :: ps) table h =
    part (key.eval call scope h) fun k h =>
      match h.hashKey? k with
      | none => (.error (h.raise (.unhashable (h.tag k))).1, (h.raise (.unhashable (h.tag k))).2)
      | some hashKey =>
        part (value.eval call scope h) fun v h =>
          Expr.evalPairs call scope ps (table.insert ⟨hashKey, k, v⟩) h := by
  rw [Expr.evalPairs]
  obtain ⟨k, h⟩ := key.eval call scope h
  cases h.hashKey? k <;> rfl

theorem Stmt.eval_declare : (Stmt.declare m name e).eval call scope h =
    andThen (e.eval call scope h) fun v h =>
      afterChange (h.declare scope name ⟨m, v⟩) fun h => (.null, h) := by
  simp only [Stmt.eval, settle_eq]

theorem Stmt.eval_assign : (Stmt.assign name e).eval call scope h =
    andThen (e.eval call scope h) fun v h =>
      afterChange (h.assign scope name v) fun h => (.null, h) := by
  simp only [Stmt.eval, settle_eq]

end

theorem Heap.bindParams_keeps {P : Heap → Prop} (ps : List (String × Value))
    (hkeep : ∀ p ∈ ps, ∀ h : Heap, P h → P (h.declare scope p.1 ⟨.mutable, p.2⟩).2) {h : Heap}
    (hP : P h) : P (h.bindParams scope ps).2 := by
  induction ps generalizing h with
  | nil => exact hP
  | cons p ps ih =>
    obtain ⟨name, v⟩ := p
    obtain ⟨hp, hkeep⟩ := List.forall_mem_cons.mp hkeep
    have hP := hp h hP
    rw [Heap.bindParams]
    generalize h.declare scope name ⟨.mutable, v⟩ = r at hP
    obtain ⟨_ | _, h'⟩ := r
    · exact hP
    · exact ih hkeep hP

theorem applyWith_function {body : Block → ScopeId → Heap → Run} {h : Heap}
    (hf : h.object? f = some (.function params code outer)) :
    applyWith body f args h =
      if params.length = args.length then
        afterChange ((h.openScope (some outer)).2.bindParams (h.openScope (some outer)).1
          (params.zip args)) fun h' => body code (h.openScope (some outer)).1 h'
      else h.raise (.arity params.length args.length) := by
  simp only [applyWith, hf]
  split
  · generalize Heap.bindParams _ _ _ = r
    obtain ⟨_ | _, _⟩ := r <;> rfl
  · rfl

-- ---------------------------------------------------------------------------
-- What operators give
-- ---------------------------------------------------------------------------

namespace Heap

/-- A value with the heap as it was, or a new string, or a failure. -/
inductive Answer (h : Heap) : Run → Prop
  | value (v : Value) : Answer h (v, h)
  | string (text : String) : Answer h (h.alloc (.string text))
  | failure (fault : Fault) : Answer h (h.raise fault)

variable {h : Heap}

theorem answer_unary (op : UnaryOp) (v : Value) : h.Answer (h.unary op v) := by
  fun_cases Heap.unary op v h
  · exact .value _
  · exact .value _
  · exact .failure _

theorem answer_arithmetic (op : BinaryOp) (l r : Int64) : h.Answer (h.arithmetic op l r) := by
  cases op
  case div | mod =>
    rw [arithmetic]
    split
    · exact .failure _
    · exact .value _
  all_goals exact .value _

theorem answer_rejectOperands (op : BinaryOp) (l r : Value) :
    h.Answer (h.rejectOperands op l r) := by
  unfold rejectOperands
  split <;> exact .failure _

theorem answer_binary (op : BinaryOp) (l r : Value) : h.Answer (h.binary op l r) := by
  fun_cases Heap.binary op l r h
  · exact answer_arithmetic _ _ _
  · exact .value _
  · exact .value _
  · exact .string _
  · exact answer_rejectOperands _ _ _
  · exact answer_rejectOperands _ _ _

theorem answer_index (c i : Value) : h.Answer (h.index c i) := by
  fun_cases Heap.index c i h
  · exact .value _
  · exact .value _
  · exact .failure _
  · exact .failure _

end Heap

end TinyScript
