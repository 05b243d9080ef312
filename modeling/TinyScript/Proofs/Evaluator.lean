import TinyScript.Proofs.Evaluation
import TinyScript.Session

/-!
# An evaluator with fields

The evaluator as an object that runs programs: the current scope and the number of active calls are
fields of it, and so is the heap. A call counts itself and swaps the scope, runs the body, and takes
both back; whatever else may leave a call early does so before. Nothing bounds how far calls go but
the field itself: an action gives `none` if it never comes back, and that none does is for the
proofs to show.

`Gives` says that an action does what a run of `Program.evalAt` does and that the fields are back
where they were. It holds of every tree and every call, from any number of active calls on
(`Evaluator.program_gives`).
-/

namespace TinyScript

structure Evaluator where
  heap : Heap
  scope : ScopeId
  depth : Nat

namespace Evaluator

def new (s : Session) : Evaluator := ⟨s.heap, s.scope, 0⟩

abbrev Action := StateT Evaluator Option

def onHeap (f : Heap → α × Heap) : Action α := fun s =>
  some ((f s.heap).1, { s with heap := (f s.heap).2 })

-- ---------------------------------------------------------------------------
-- Trees and calls
-- ---------------------------------------------------------------------------

/-- What there is to do, by what comes of it. -/
inductive Task : Type → Type
  | expr (e : Expr) : Task Value
  | exprs (es : List Expr) : Task (Except Value (List Value))
  | pairs (ps : List (Expr × Expr)) (table : Table) : Task (Except Value Table)
  | stmt (s : Stmt) : Task Value
  | block (body : List Stmt) (last : Value) : Task Value
  | apply (callee : Value) (args : List Value) : Task Value
  /-- A body in the scope of its arguments, unless there are too many calls. -/
  | enter (code : Block) (scope : ScopeId) : Task Value

def Task.run (t : Task α) : Action α :=
  match t with
  | .expr e => do
    match e with
    | .ident name =>
      let s ← get
      match s.heap.lookup s.scope name with
      | some v => return v
      | none =>
        match Builtin.ofName? name with
        | some b => onHeap (Heap.alloc (.builtin b))
        | none => onHeap (Heap.raise (.unknownName name))
    | .int n => return .int n
    | .str raw => onHeap (Heap.alloc (.string raw))
    | .bool b => return .bool b
    | .null => return .null
    | .unary op e =>
      let v ← Task.expr e |>.run
      if v.isInterrupt then return v
      onHeap (Heap.unary op v)
    | .binary op l r =>
      let a ← Task.expr l |>.run
      if a.isInterrupt then return a
      let b ← Task.expr r |>.run
      if b.isInterrupt then return b
      onHeap (Heap.binary op a b)
    | .cond test yes no =>
      let v ← Task.expr test |>.run
      if v.isInterrupt then return v
      match v, no with
      | .bool true, _ => Task.block yes .null |>.run
      | .bool false, some no => Task.block no .null |>.run
      | _, _ => return .null
    | .func params body =>
      let s ← get
      onHeap (Heap.alloc (.function params body s.scope))
    | .call callee args =>
      let f ← Task.expr callee |>.run
      if f.isInterrupt then return f
      match ← Task.exprs args |>.run with
      | .ok values => Task.apply f values |>.run
      | .error v => return v
    | .array items =>
      match ← Task.exprs items |>.run with
      | .ok values => onHeap (Heap.alloc (.array values.toArray))
      | .error v => return v
    | .hash ps =>
      match ← Task.pairs ps [] |>.run with
      | .ok table => onHeap (Heap.alloc (.hash table))
      | .error v => return v
    | .index collection position =>
      let c ← Task.expr collection |>.run
      if c.isInterrupt then return c
      let i ← Task.expr position |>.run
      if i.isInterrupt then return i
      onHeap (Heap.index c i)
  | .exprs es => do
    match es with
    | [] => return .ok []
    | e :: rest =>
      let v ← Task.expr e |>.run
      if v.isInterrupt then return .error v
      match ← Task.exprs rest |>.run with
      | .ok values => return .ok (v :: values)
      | .error v => return .error v
  | .pairs ps table => do
    match ps with
    | [] => return .ok table
    | (key, value) :: rest =>
      let k ← Task.expr key |>.run
      if k.isInterrupt then return .error k
      let s ← get
      match s.heap.hashKey? k with
      | none =>
        let v ← onHeap (Heap.raise (.unhashable (s.heap.tag k)))
        return .error v
      | some hashKey =>
        let v ← Task.expr value |>.run
        if v.isInterrupt then return .error v
        Task.pairs rest (table.insert ⟨hashKey, k, v⟩) |>.run
  | .stmt s => do
    match s with
    | .declare m name e =>
      let v ← Task.expr e |>.run
      if v.isInterrupt then return v
      let s ← get
      onHeap fun h => settle (h.declare s.scope name ⟨m, v⟩)
    | .assign name e =>
      let v ← Task.expr e |>.run
      if v.isInterrupt then return v
      let s ← get
      onHeap fun h => settle (h.assign s.scope name v)
    | .ret e =>
      let v ← Task.expr e |>.run
      if v.isInterrupt then return v
      onHeap (Heap.returning v)
    | .expr e => Task.expr e |>.run
    | .block body => Task.block body .null |>.run
  | .block body last => do
    match body with
    | [] => return last
    | s :: rest =>
      let v ← Task.stmt s |>.run
      if v.isInterrupt then return v
      Task.block rest v |>.run
  | .apply callee args => do
    let s ← get
    match s.heap.object? callee with
    | some (.builtin b) => onHeap (b.call args)
    | some (.function params code outer) =>
      if params.length = args.length then
        let scope ← onHeap (Heap.openScope (some outer))
        match ← onHeap (Heap.bindParams scope (params.zip args)) with
        | .ok () => Task.enter code scope |>.run
        | .error error => onHeap (Heap.raise (.scope error))
      else onHeap (Heap.raise (.arity params.length args.length))
    | _ => onHeap (Heap.raise (.notCallable (s.heap.tag callee)))
  | .enter code scope => do
    let caller ← get
    if maxCallDepth ≤ caller.depth then onHeap (Heap.raise .callDepth)
    else
      set { caller with scope, depth := caller.depth + 1 }
      let v ← Task.block code .null |>.run
      modify fun s => { s with scope := caller.scope, depth := s.depth - 1 }
      return v.unwrap
partial_fixpoint

def program (p : Program) : Action Value := do
  let v ← (Task.block p .null).run
  return v.unwrap

-- ---------------------------------------------------------------------------
-- Actions and runs
-- ---------------------------------------------------------------------------

/-- The action does what the run did, and the scope and the number of calls are what they were. -/
def Gives (m : Action α) (s : Evaluator) (r : α × Heap) : Prop :=
  m s = some (r.1, { s with heap := r.2 })

section
variable {s : Evaluator}

theorem gives_pure (a : α) : Gives (pure a) s (a, s.heap) := rfl

theorem gives_onHeap (f : Heap → α × Heap) : Gives (onHeap f) s (f s.heap) := rfl

theorem bind_eq {m : Action α} (hm : m s = some (a, s')) (next : α → Action β) :
    (m >>= next) s = next a s' := by
  simp only [bind, StateT.bind, hm, Option.bind]

theorem Gives.bind {m : Action α} {next : α → Action β} (hm : Gives m s r)
    (hn : Gives (next r.1) { s with heap := r.2 } r') : Gives (m >>= next) s r' := by
  rw [Gives, bind_eq hm]
  exact hn

theorem gives_get {next : Evaluator → Action α} (hn : Gives (next s) s r) :
    Gives (get >>= next) s r := hn

theorem Gives.andThen {m : Action Value} {next : Value → Action Value}
    {next' : Value → Heap → Run} (hm : Gives m s r)
    (hn : ∀ v h, Gives (next v) { s with heap := h } (next' v h)) :
    Gives (do let v ← m; if v.isInterrupt then return v else next v) s
      (TinyScript.andThen r next') := by
  refine hm.bind ?_
  rw [TinyScript.andThen]
  split
  · exact gives_pure _
  · exact hn _ _

theorem Gives.part {m : Action Value} {next : Value → Action (Except Value α)}
    {next' : Value → Heap → Parts α} (hm : Gives m s r)
    (hn : ∀ v h, Gives (next v) { s with heap := h } (next' v h)) :
    Gives (do let v ← m; if v.isInterrupt then return .error v else next v) s
      (TinyScript.part r next') := by
  refine hm.bind ?_
  rw [TinyScript.part]
  split
  · exact gives_pure _
  · exact hn _ _

theorem Gives.whole {m : Action (Except Value α)} {next : Except Value α → Action Value}
    {next' : α → Heap → Run} {r : Parts α} (hm : Gives m s r)
    (hn : ∀ a h, Gives (next (.ok a)) { s with heap := h } (next' a h))
    (hv : ∀ v, next (.error v) = pure v) :
    Gives (m >>= next) s (TinyScript.whole r next') := by
  refine hm.bind ?_
  obtain ⟨v | a, h⟩ := r
  · rw [hv]
    exact gives_pure v
  · exact hn a h

theorem Gives.map {m : Action (Except Value α)} {next : Except Value α → Action (Except Value β)}
    {f : α → β} {r : Parts α} (hm : Gives m s r) (hf : ∀ a, next (.ok a) = pure (.ok (f a)))
    (hv : ∀ v, next (.error v) = pure (.error v)) : Gives (m >>= next) s (r.map f) := by
  refine hm.bind ?_
  obtain ⟨v | a, h⟩ := r
  · rw [hv]
    exact gives_pure _
  · rw [hf]
    exact gives_pure _

end

-- ---------------------------------------------------------------------------
-- Trees
-- ---------------------------------------------------------------------------

/-- With so many calls active, a call gives what `call` gives for it, in whatever scope. -/
def Calls (depth : Nat) (call : Caller) : Prop :=
  ∀ f args h scope, Gives (Task.apply f args).run ⟨h, scope, depth⟩ (call f args h)

section
variable {call : Caller} {depth : Nat} {scope : ScopeId}

mutual

theorem gives_expr (hcall : Calls depth call) (e : Expr) (h : Heap) :
    Gives (Task.expr e).run ⟨h, scope, depth⟩ (e.eval call scope h) := by
  match e with
  | .ident name =>
    rw [Task.run, Expr.eval]
    refine gives_get ?_
    cases h.lookup scope name with
    | some v => exact gives_pure _
    | none =>
      cases Builtin.ofName? name with
      | some b => exact gives_onHeap _
      | none => exact gives_onHeap _
  | .int _ | .bool _ | .null =>
    rw [Task.run, Expr.eval]
    exact gives_pure _
  | .str _ =>
    rw [Task.run, Expr.eval]
    exact gives_onHeap _
  | .unary op e =>
    rw [Task.run, Expr.eval]
    exact (gives_expr hcall e h).andThen fun v h => gives_onHeap _
  | .binary op l r =>
    rw [Task.run, Expr.eval]
    refine (gives_expr hcall l h).andThen fun a h => ?_
    exact (gives_expr hcall r h).andThen fun b h => gives_onHeap _
  | .cond test yes none =>
    rw [Task.run, Expr.eval]
    refine (gives_expr hcall test h).andThen fun v h => ?_
    cases v with
    | bool b =>
      cases b with
      | true => exact gives_block hcall yes .null h
      | false => exact gives_pure _
    | _ => exact gives_pure _
  | .cond test yes (some no) =>
    rw [Task.run, Expr.eval]
    refine (gives_expr hcall test h).andThen fun v h => ?_
    cases v with
    | bool b =>
      cases b with
      | true => exact gives_block hcall yes .null h
      | false => exact gives_block hcall no .null h
    | _ => exact gives_pure _
  | .func params body =>
    rw [Task.run, Expr.eval]
    exact gives_get (gives_onHeap _)
  | .call callee args =>
    rw [Task.run, Expr.eval_call]
    refine (gives_expr hcall callee h).andThen fun f h => ?_
    exact (gives_exprs hcall args h).whole (fun values h => hcall f values h scope) fun _ => rfl
  | .array items =>
    rw [Task.run, Expr.eval_array]
    exact (gives_exprs hcall items h).whole (fun values h => gives_onHeap _) fun _ => rfl
  | .hash ps =>
    rw [Task.run, Expr.eval_hash]
    exact (gives_pairs hcall ps [] h).whole (fun table h => gives_onHeap _) fun _ => rfl
  | .index c i =>
    rw [Task.run, Expr.eval]
    refine (gives_expr hcall c h).andThen fun c h => ?_
    exact (gives_expr hcall i h).andThen fun i h => gives_onHeap _

theorem gives_exprs (hcall : Calls depth call) (es : List Expr) (h : Heap) :
    Gives (Task.exprs es).run ⟨h, scope, depth⟩ (Expr.evalList call scope es h) := by
  match es with
  | [] =>
    rw [Task.run, Expr.evalList]
    exact gives_pure _
  | e :: es =>
    rw [Task.run, Expr.evalList_cons]
    refine (gives_expr hcall e h).part fun v h => ?_
    exact (gives_exprs hcall es h).map (fun _ => rfl) fun _ => rfl

theorem gives_pairs (hcall : Calls depth call) (ps : List (Expr × Expr)) (table : Table)
    (h : Heap) :
    Gives (Task.pairs ps table).run ⟨h, scope, depth⟩ (Expr.evalPairs call scope ps table h) := by
  match ps with
  | [] =>
    rw [Task.run, Expr.evalPairs]
    exact gives_pure _
  | (key, value) :: ps =>
    rw [Task.run, Expr.evalPairs_cons]
    refine (gives_expr hcall key h).part fun k h => gives_get ?_
    cases h.hashKey? k with
    | none => exact (gives_onHeap _).bind (gives_pure _)
    | some hashKey =>
      exact (gives_expr hcall value h).part fun v h => gives_pairs hcall ps _ h

theorem gives_stmt (hcall : Calls depth call) (s : Stmt) (h : Heap) :
    Gives (Task.stmt s).run ⟨h, scope, depth⟩ (s.eval call scope h) := by
  match s with
  | .declare m name e =>
    rw [Task.run, Stmt.eval]
    exact (gives_expr hcall e h).andThen fun v h => gives_get (gives_onHeap _)
  | .assign name e =>
    rw [Task.run, Stmt.eval]
    exact (gives_expr hcall e h).andThen fun v h => gives_get (gives_onHeap _)
  | .ret e =>
    rw [Task.run, Stmt.eval]
    exact (gives_expr hcall e h).andThen fun v h => gives_onHeap _
  | .expr e =>
    rw [Task.run, Stmt.eval]
    exact gives_expr hcall e h
  | .block body =>
    rw [Task.run, Stmt.eval]
    exact gives_block hcall body .null h

theorem gives_block (hcall : Calls depth call) (body : List Stmt) (last : Value) (h : Heap) :
    Gives (Task.block body last).run ⟨h, scope, depth⟩ (Block.eval call scope body last h) := by
  match body with
  | [] =>
    rw [Task.run, Block.eval]
    exact gives_pure _
  | s :: body =>
    rw [Task.run, Block.eval]
    exact (gives_stmt hcall s h).andThen fun v h => gives_block hcall body v h

end

end

-- ---------------------------------------------------------------------------
-- Calls and programs
-- ---------------------------------------------------------------------------

section
variable {depth : Nat}

theorem calls_applyWith {body : Block → ScopeId → Heap → Run}
    (hbody : ∀ code new h scope,
      Gives (Task.enter code new).run ⟨h, scope, depth⟩ (body code new h)) :
    Calls depth (applyWith body) := by
  intro f args h scope
  rw [Task.run]
  refine gives_get ?_
  cases hobject : h.object? f with
  | none =>
    simp only [applyWith, hobject]
    exact gives_onHeap _
  | some o =>
    cases o with
    | builtin b =>
      simp only [applyWith, hobject]
      exact gives_onHeap _
    | function params code outer =>
      rw [applyWith_function hobject]
      dsimp only
      split
      · refine (gives_onHeap _).bind ((gives_onHeap _).bind ?_)
        dsimp only
        generalize Heap.bindParams _ _ _ = r
        obtain ⟨_ | _, h'⟩ := r
        · exact gives_onHeap _
        · exact hbody code _ h' scope
      · exact gives_onHeap _
    | _ =>
      simp only [applyWith, hobject]
      exact gives_onHeap _

theorem gives_enter (hdepth : depth < maxCallDepth) (hcall : Calls (depth + 1) call) (code : Block)
    (new : ScopeId) (h : Heap) (scope : ScopeId) :
    Gives (Task.enter code new).run ⟨h, scope, depth⟩ (Block.eval call new code .null h).caught := by
  have hbody : Gives (Task.block code .null).run ⟨h, new, depth + 1⟩
      (Block.eval call new code .null h) := gives_block hcall code .null h
  rw [Task.run]
  refine gives_get ?_
  rw [if_neg (Nat.not_le_of_gt hdepth)]
  refine (bind_eq rfl _).trans ?_
  exact bind_eq hbody _

theorem calls_apply (calls depth : Nat) (hcalls : calls = maxCallDepth - depth) :
    Calls depth (TinyScript.apply calls) := by
  induction calls generalizing depth with
  | zero =>
    refine calls_applyWith fun code new h scope => ?_
    rw [Task.run]
    refine gives_get ?_
    rw [if_pos (show maxCallDepth ≤ depth by omega)]
    exact gives_onHeap _
  | succ calls ih =>
    refine calls_applyWith fun code new h scope => ?_
    exact gives_enter (by omega) (ih (depth + 1) (by omega)) code new h scope

end

theorem program_gives (p : Program) (s : Evaluator) :
    Gives (program p) s (p.evalAt s.depth s.scope s.heap) :=
  (gives_block (calls_apply _ s.depth rfl) p .null s.heap).bind (gives_pure _)

end Evaluator

end TinyScript
