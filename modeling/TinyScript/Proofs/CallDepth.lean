import TinyScript.Proofs.Evaluator
import TinyScript.Proofs.Storage

/-!
# The limit of calls

A run that stays below the limit does not know of it: from fewer active calls it is the same run
with the same heap. The failure of the limit is never turned into anything else on its way, so a run
that met it ends in it, and `Unlimited` is all that fewer active calls can change. An evaluator that
runs programs one after another is new again after each of them, however it ended
(`Evaluator.program_limit`).
-/

namespace TinyScript

/-- The failure that a value is, as it is worded. -/
def Value.failure? : Value → Option String
  | .error _ fault => some fault.message
  | _ => none

-- ---------------------------------------------------------------------------
-- Two runs
-- ---------------------------------------------------------------------------

/-- The second run is the first one, unless that has met the limit. -/
def Unlimited (r r' : Run) : Prop := (∃ i, r.1 = .error i .callDepth) ∨ r' = r

def UnlimitedOn (r r' : Parts α) : Prop := (∃ i, r.1 = .error (.error i .callDepth)) ∨ r' = r

section
variable {r r' : Run}

theorem Unlimited.refl (r : Run) : Unlimited r r := .inr rfl

theorem UnlimitedOn.refl (r : Parts α) : UnlimitedOn r r := .inr rfl

theorem Unlimited.andThen {next next' : Value → Heap → Run} (hr : Unlimited r r')
    (hn : ∀ v h, Unlimited (next v h) (next' v h)) :
    Unlimited (andThen r next) (andThen r' next') := by
  obtain ⟨v, h⟩ := r
  rcases hr with ⟨i, rfl⟩ | rfl
  · exact .inl ⟨i, rfl⟩
  · simp only [TinyScript.andThen]
    split
    · exact .refl _
    · exact hn v h

theorem Unlimited.part {next next' : Value → Heap → Parts α} (hr : Unlimited r r')
    (hn : ∀ v h, UnlimitedOn (next v h) (next' v h)) :
    UnlimitedOn (part r next) (part r' next') := by
  obtain ⟨v, h⟩ := r
  rcases hr with ⟨i, rfl⟩ | rfl
  · exact .inl ⟨i, rfl⟩
  · simp only [TinyScript.part]
    split
    · exact .refl _
    · exact hn v h

theorem UnlimitedOn.whole {r r' : Parts α} {next next' : α → Heap → Run} (hr : UnlimitedOn r r')
    (hn : ∀ a h, Unlimited (next a h) (next' a h)) :
    Unlimited (whole r next) (whole r' next') := by
  obtain ⟨v, h⟩ := r
  rcases hr with ⟨i, rfl⟩ | rfl
  · exact .inl ⟨i, rfl⟩
  · cases v with
    | error v => exact .refl _
    | ok a => exact hn a h

theorem UnlimitedOn.map {r r' : Parts α} (hr : UnlimitedOn r r') (f : α → β) :
    UnlimitedOn (r.map f) (r'.map f) := by
  obtain ⟨v, h⟩ := r
  rcases hr with ⟨i, rfl⟩ | rfl
  · exact .inl ⟨i, rfl⟩
  · exact .refl _

theorem Unlimited.caught (hr : Unlimited r r') : Unlimited r.caught r'.caught := by
  obtain ⟨v, h⟩ := r
  rcases hr with ⟨i, rfl⟩ | rfl
  · exact .inl ⟨i, rfl⟩
  · exact .refl _

end

-- ---------------------------------------------------------------------------
-- Trees
-- ---------------------------------------------------------------------------

section
variable {call call' : Caller} {scope : ScopeId}

mutual

theorem unlimited_expr (hcall : ∀ f args h, Unlimited (call f args h) (call' f args h)) (e : Expr)
    (h : Heap) : Unlimited (e.eval call scope h) (e.eval call' scope h) := by
  match e with
  | .ident _ | .int _ | .str _ | .bool _ | .null | .func _ _ =>
    simp only [Expr.eval]
    exact .refl _
  | .unary op e =>
    rw [Expr.eval, Expr.eval]
    exact (unlimited_expr hcall e h).andThen fun v h => .refl _
  | .binary op l r =>
    rw [Expr.eval, Expr.eval]
    refine (unlimited_expr hcall l h).andThen fun a h => ?_
    exact (unlimited_expr hcall r h).andThen fun b h => .refl _
  | .cond test yes none =>
    rw [Expr.eval, Expr.eval]
    refine (unlimited_expr hcall test h).andThen fun v h => ?_
    split
    · exact unlimited_block hcall yes .null h
    · exact .refl _
  | .cond test yes (some no) =>
    rw [Expr.eval, Expr.eval]
    refine (unlimited_expr hcall test h).andThen fun v h => ?_
    split
    · exact unlimited_block hcall yes .null h
    · exact unlimited_block hcall no .null h
    · exact .refl _
  | .call callee args =>
    rw [Expr.eval_call, Expr.eval_call]
    refine (unlimited_expr hcall callee h).andThen fun f h => ?_
    exact (unlimited_exprs hcall args h).whole fun values h => hcall f values h
  | .array items =>
    rw [Expr.eval_array, Expr.eval_array]
    exact (unlimited_exprs hcall items h).whole fun values h => .refl _
  | .hash ps =>
    rw [Expr.eval_hash, Expr.eval_hash]
    exact (unlimited_pairs hcall ps [] h).whole fun table h => .refl _
  | .index c i =>
    rw [Expr.eval, Expr.eval]
    refine (unlimited_expr hcall c h).andThen fun c h => ?_
    exact (unlimited_expr hcall i h).andThen fun i h => .refl _

theorem unlimited_exprs (hcall : ∀ f args h, Unlimited (call f args h) (call' f args h))
    (es : List Expr) (h : Heap) :
    UnlimitedOn (Expr.evalList call scope es h) (Expr.evalList call' scope es h) := by
  match es with
  | [] =>
    rw [Expr.evalList, Expr.evalList]
    exact .refl _
  | e :: es =>
    rw [Expr.evalList_cons, Expr.evalList_cons]
    exact (unlimited_expr hcall e h).part fun v h => (unlimited_exprs hcall es h).map _

theorem unlimited_pairs (hcall : ∀ f args h, Unlimited (call f args h) (call' f args h))
    (ps : List (Expr × Expr)) (table : Table) (h : Heap) :
    UnlimitedOn (Expr.evalPairs call scope ps table h) (Expr.evalPairs call' scope ps table h) := by
  match ps with
  | [] =>
    rw [Expr.evalPairs, Expr.evalPairs]
    exact .refl _
  | (key, value) :: ps =>
    rw [Expr.evalPairs_cons, Expr.evalPairs_cons]
    refine (unlimited_expr hcall key h).part fun k h => ?_
    split
    · exact .refl _
    · exact (unlimited_expr hcall value h).part fun v h => unlimited_pairs hcall ps _ h

theorem unlimited_stmt (hcall : ∀ f args h, Unlimited (call f args h) (call' f args h)) (s : Stmt)
    (h : Heap) : Unlimited (s.eval call scope h) (s.eval call' scope h) := by
  match s with
  | .declare _ _ e | .assign _ e | .ret e =>
    rw [Stmt.eval, Stmt.eval]
    exact (unlimited_expr hcall e h).andThen fun v h => .refl _
  | .expr e =>
    rw [Stmt.eval, Stmt.eval]
    exact unlimited_expr hcall e h
  | .block body =>
    rw [Stmt.eval, Stmt.eval]
    exact unlimited_block hcall body .null h

theorem unlimited_block (hcall : ∀ f args h, Unlimited (call f args h) (call' f args h))
    (body : List Stmt) (last : Value) (h : Heap) :
    Unlimited (Block.eval call scope body last h) (Block.eval call' scope body last h) := by
  match body with
  | [] =>
    rw [Block.eval, Block.eval]
    exact .refl _
  | s :: body =>
    rw [Block.eval, Block.eval]
    exact (unlimited_stmt hcall s h).andThen fun v h => unlimited_block hcall body v h

end

end

-- ---------------------------------------------------------------------------
-- Calls and programs
-- ---------------------------------------------------------------------------

theorem unlimited_applyWith {body body' : Block → ScopeId → Heap → Run}
    (hbody : ∀ code scope h, Unlimited (body code scope h) (body' code scope h))
    (f : Value) (args : List Value) (h : Heap) :
    Unlimited (applyWith body f args h) (applyWith body' f args h) := by
  unfold applyWith
  split
  · exact .refl _
  · split
    · dsimp only
      split
      · exact hbody _ _ _
      · exact .refl _
    · exact .refl _
  · exact .refl _

theorem unlimited_apply (hle : calls ≤ calls') (f : Value) (args : List Value) (h : Heap) :
    Unlimited (apply calls f args h) (apply calls' f args h) := by
  induction calls generalizing calls' f args h with
  | zero =>
    cases calls' with
    | zero => exact .refl _
    | succ calls' => exact unlimited_applyWith (fun _ _ h => .inl ⟨h.signals, rfl⟩) f args h
  | succ calls ih =>
    obtain ⟨calls', rfl⟩ := Nat.exists_eq_add_of_le' (Nat.one_le_of_lt hle)
    refine unlimited_applyWith (fun code scope h => ?_) f args h
    exact (unlimited_block (ih (Nat.le_of_succ_le_succ hle)) code .null h).caught

theorem unlimited_evalAt (hle : d' ≤ d) (p : Program) (scope : ScopeId) (h : Heap) :
    Unlimited (p.evalAt d scope h) (p.evalAt d' scope h) :=
  (unlimited_block (unlimited_apply (Nat.sub_le_sub_left hle _)) p .null h).caught

theorem message_callDepth : Fault.callDepth.message = "maximum call depth exceeded: 20000" := by
  decide

theorem Unlimited.eq {r r' : Run} (hr : Unlimited r r')
    (hfailure : r.1.failure? ≠ some "maximum call depth exceeded: 20000") : r' = r := by
  rcases hr with ⟨i, hv⟩ | hr
  · rw [hv, Value.failure?, message_callDepth] at hfailure
    exact absurd rfl hfailure
  · exact hr

-- ---------------------------------------------------------------------------
-- Sessions
-- ---------------------------------------------------------------------------

namespace Evaluator

theorem program_new (p : Program) (s : Session) :
    program p (new s) = some ((s.run p).1, new (s.run p).2) := program_gives p (new s)

theorem programs_new (ps : List Program) (s : Session) :
    ∃ vs, ps.mapM program (new s) = some (vs, new (s.after ps)) := by
  induction ps generalizing s with
  | nil => exact ⟨[], rfl⟩
  | cons p ps ih =>
    obtain ⟨vs, hvs⟩ := ih (s.run p).2
    refine ⟨(s.run p).1 :: vs, ?_⟩
    rw [List.mapM_cons, bind_eq (program_new p s), bind_eq hvs]
    rfl

/-- A program comes to its end, whatever becomes of it, with the scope and the number of active
calls as they were. If it does not end in the failure of the limit, it gives the same with fewer
calls around it. So what runs after other programs runs as in a new evaluator. -/
theorem program_limit (p : Program) (s : Evaluator) :
    let r := p.evalAt s.depth s.scope s.heap
    program p s = some (r.1, { s with heap := r.2 }) ∧
    (r.1.failure? ≠ some "maximum call depth exceeded: 20000" → ∀ d ≤ s.depth,
      p.evalAt d s.scope s.heap = r ∧
      program p { s with depth := d } = some (r.1, ⟨r.2, s.scope, d⟩)) ∧
    ∀ (session : Session) (earlier : List Program),
      (earlier.mapM program >>= fun _ => program p) (new session) =
        program p (new (session.after earlier)) := by
  refine ⟨program_gives p s, fun hfailure d hd => ?_, fun session earlier => ?_⟩
  · have heq := (unlimited_evalAt hd p s.scope s.heap).eq hfailure
    exact ⟨heq, heq ▸ program_gives p { s with depth := d }⟩
  · obtain ⟨vs, hvs⟩ := programs_new earlier session
    exact bind_eq hvs _

/-- For calls that go down to the very last one that may be active. -/
theorem program_limit_sample :
    let down : Expr := .func ["n"] [.expr (.cond (.binary .equal (.ident "n") (.int 0))
      [.expr (.int 7)] (some [.expr (.call (.ident "down") [.binary .sub (.ident "n") (.int 1)])]))]
    let p : Program := [.declare .fixed "down" down, .expr (.call (.ident "down") [.int 2])]
    let s : Evaluator := ⟨(Heap.empty.openScope none).2, 0, 19997⟩
    let r := p.evalAt s.depth s.scope s.heap
    r.1 = .int 7 ∧ 3 ≤ s.depth ∧ p.evalAt 3 s.scope s.heap = r ∧
      program p { s with depth := 3 } = some (r.1, ⟨r.2, s.scope, 3⟩) := by
  intro down p s r
  have hr : r.1 = .int 7 := by decide +kernel
  have hfailure : r.1.failure? ≠ some "maximum call depth exceeded: 20000" := by
    rw [hr]
    exact nofun
  have hle : 3 ≤ s.depth := by decide
  exact ⟨hr, hle, (program_limit p s).2.1 hfailure 3 hle⟩

end Evaluator

end TinyScript
