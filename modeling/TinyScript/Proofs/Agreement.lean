import TinyScript.Proofs.Clean
import TinyScript.Proofs.Evaluation
import TinyScript.Proofs.Reference

/-!
# Signals as values and as outcomes

The evaluator hands failures and returns on as values, and each place that gets one has to see that
it is no value to go on with. The reference evaluator has outcomes for them. From a clean heap both
do the same: they end alike, with the same objects and the same scopes. The heaps differ in the
number of signals raised, which is how signals are told apart as values, and in nothing else.

`Agrees` is what holds of the two at every step. It is kept by going on (`Agrees.andThen`,
`Agrees.bind`), by each operation, and so by the evaluation of every tree.
-/

namespace TinyScript

def Value.outcome : Value → Outcome Value
  | .error _ fault => .failed fault
  | .returned _ v => .returning v
  | v => .normal v

namespace Heap

def withSignals (n : Nat) (h : Heap) : Heap := { h with signals := n }

section
variable {h : Heap} {n : Nat}

@[simp] theorem scopes_withSignals : (h.withSignals n).scopes = h.scopes := rfl

@[simp] theorem object?_withSignals : (h.withSignals n).object? v = h.object? v := by
  cases v <;> rfl

@[simp] theorem tag_withSignals : (h.withSignals n).tag v = h.tag v := by cases v <;> rfl

@[simp] theorem string?_withSignals : (h.withSignals n).string? v = h.string? v := by
  cases v <;> rfl

@[simp] theorem hashKey?_withSignals : (h.withSignals n).hashKey? v = h.hashKey? v := by
  cases v <;> rfl

theorem chainUpTo_withSignals (k : Nat) (scope : ScopeId) :
    (h.withSignals n).chainUpTo k scope = h.chainUpTo k scope := by
  induction k generalizing scope with
  | zero => rfl
  | succ k ih => simp only [chainUpTo, scopes_withSignals, ih]

@[simp] theorem chain_withSignals : (h.withSignals n).chain scope = h.chain scope :=
  chainUpTo_withSignals _ _

@[simp] theorem binding?_withSignals : (h.withSignals n).binding? name = h.binding? name := rfl

@[simp] theorem lookup_withSignals : (h.withSignals n).lookup scope name = h.lookup scope name := by
  simp [lookup]

theorem declare_withSignals : (h.withSignals n).declare scope name b =
    ((h.declare scope name b).1, (h.declare scope name b).2.withSignals n) := by
  unfold declare
  rw [binding?_withSignals]
  cases (h.binding? name scope).isSome <;> rfl

theorem assign_withSignals : (h.withSignals n).assign scope name v =
    ((h.assign scope name v).1, (h.assign scope name v).2.withSignals n) := by
  unfold assign
  rw [binding?_withSignals, chain_withSignals]
  cases (h.chain scope).find? fun i => (h.binding? name i).isSome with
  | none => rfl
  | some owner =>
    dsimp only
    cases (h.binding? name owner).map Binding.mutability with
    | none => rfl
    | some m => cases m <;> rfl

end

end Heap

namespace Reference

-- ---------------------------------------------------------------------------
-- Agreement
-- ---------------------------------------------------------------------------

/-- A signal and the outcome that says the same. What a return carries is no signal. -/
inductive Signals : Value → Outcome α → Prop
  | failed : Signals (.error i fault) (.failed fault)
  | returning : v.Plain → Signals (.returned i v) (.returning v)

/-- A value and an outcome that say the same, with heaps that differ in the number of signals and
are clean. -/
inductive Agrees (n : Nat) : Run → Outcome Value × Heap → Prop
  | normal : v.Plain → h.Clean → Agrees n (v, h) (.normal v, h.withSignals n)
  | signal : Signals v o → h.Clean → Agrees n (v, h) (o, h.withSignals n)

/-- The same for evaluations of parts, where signals are kept apart from what has been put together
so far, and that has a property `P`. -/
inductive AgreesOn (n : Nat) (P : α → Prop) : Except Value α × Heap → Outcome α × Heap → Prop
  | normal : P a → h.Clean → AgreesOn n P (.ok a, h) (.normal a, h.withSignals n)
  | signal : Signals v o → h.Clean → AgreesOn n P (.error v, h) (o, h.withSignals n)

theorem Signals.isInterrupt (h : Signals v (o : Outcome α)) : v.isInterrupt = true := by
  cases h <;> rfl

section
variable {n : Nat} {h : Heap} {r : Run} {m : Effect Value}

theorem Signals.bind {m : Effect α} {o : Outcome α} (hs : Signals v o) (hm : m h = (o, h'))
    (next : α → Effect β) : ∃ o' : Outcome β, Signals v o' ∧ (m >>= next) h = (o', h') := by
  cases hs with
  | failed => exact ⟨_, .failed, by simp only [Bind.bind, hm]⟩
  | returning hv => exact ⟨_, .returning hv, by simp only [Bind.bind, hm]⟩

theorem bind_normal {m : Effect α} {next : α → Effect β} (hm : m h = (.normal a, h')) :
    (m >>= next) h = next a h' := by
  simp only [Bind.bind, hm]

theorem Agrees.andThen {next : Value → Heap → Run} {next' : Value → Effect Value}
    (hr : Agrees n r (m h))
    (hn : ∀ v h, v.Plain → h.Clean → Agrees n (next v h) (next' v (h.withSignals n))) :
    Agrees n (andThen r next) ((m >>= next') h) := by
  generalize ho : m h = o at hr
  cases hr with
  | normal hv hc =>
    simp only [TinyScript.andThen, hv, bind_normal ho, Bool.false_eq_true, if_false]
    exact hn _ _ hv hc
  | signal hs hc =>
    obtain ⟨o', hs', hbind⟩ := hs.bind ho next'
    simp only [TinyScript.andThen, hs.isInterrupt, hbind, if_true]
    exact .signal hs' hc

theorem Agrees.part {next : Value → Heap → Parts α} {next' : Value → Effect α}
    (hr : Agrees n r (m h))
    (hn : ∀ v h, v.Plain → h.Clean → AgreesOn n P (next v h) (next' v (h.withSignals n))) :
    AgreesOn n P (part r next) ((m >>= next') h) := by
  generalize ho : m h = o at hr
  cases hr with
  | normal hv hc =>
    simp only [TinyScript.part, hv, bind_normal ho, Bool.false_eq_true, if_false]
    exact hn _ _ hv hc
  | signal hs hc =>
    obtain ⟨o', hs', hbind⟩ := hs.bind ho next'
    simp only [TinyScript.part, hs.isInterrupt, hbind, if_true]
    exact .signal hs' hc

theorem AgreesOn.whole {r : Parts α} {m : Effect α} {next : α → Heap → Run}
    {next' : α → Effect Value} (hr : AgreesOn n P r (m h))
    (hn : ∀ a h, P a → h.Clean → Agrees n (next a h) (next' a (h.withSignals n))) :
    Agrees n (whole r next) ((m >>= next') h) := by
  generalize ho : m h = o at hr
  cases hr with
  | normal ha hc =>
    rw [bind_normal ho]
    exact hn _ _ ha hc
  | signal hs hc =>
    obtain ⟨o', hs', hbind⟩ := hs.bind ho next'
    rw [hbind]
    exact .signal hs' hc

theorem AgreesOn.map {r : Parts α} {m : Effect α} {f : α → β} {Q : β → Prop}
    (hr : AgreesOn n P r (m h)) (hf : ∀ a, P a → Q (f a)) :
    AgreesOn n Q (Parts.map f r) ((m >>= fun a => pure (f a)) h) := by
  generalize ho : m h = o at hr
  cases hr with
  | normal ha hc =>
    rw [bind_normal ho]
    exact .normal (hf _ ha) hc
  | signal hs hc =>
    obtain ⟨o', hs', hbind⟩ := hs.bind ho fun a => pure (f a)
    rw [hbind]
    exact .signal hs' hc

-- ---------------------------------------------------------------------------
-- Operations
-- ---------------------------------------------------------------------------

theorem agrees_pure (hv : v.Plain) (hc : h.Clean) :
    Agrees n (v, h) ((pure v : Effect Value) (h.withSignals n)) := .normal hv hc

theorem agrees_raise (fault : Fault) (hc : h.Clean) :
    Agrees n (h.raise fault) ((Effect.fail fault : Effect Value) (h.withSignals n)) :=
  .signal .failed (hc.signals _)

theorem agrees_alloc (ho : o.Clean) (hc : h.Clean) :
    Agrees n (h.alloc o) (Effect.alloc o (h.withSignals n)) :=
  .normal rfl (hc.alloc ho)

theorem agrees_unary (op : UnaryOp) (v : Value) (hc : h.Clean) :
    Agrees n (h.unary op v) (unary op v (h.withSignals n)) := by
  cases op <;> cases v
  case not.bool | negate.int => exact agrees_pure rfl hc
  all_goals exact agrees_raise _ hc

theorem agrees_arithmetic (op : BinaryOp) (l r : Int64) (hc : h.Clean) :
    Agrees n (h.arithmetic op l r) (arithmetic op l r (h.withSignals n)) := by
  unfold Heap.arithmetic arithmetic
  split
  case h_4 | h_5 =>
    split
    · exact agrees_raise _ hc
    · exact agrees_pure rfl hc
  all_goals exact agrees_pure rfl hc

theorem agrees_rejectOperands (op : BinaryOp) (l r : Value) (hc : h.Clean) :
    Agrees n (h.rejectOperands op l r) (rejectOperands op l r (h.withSignals n)) := by
  unfold Heap.rejectOperands rejectOperands
  rw [bind_normal (m := Effect.heap) rfl, Heap.tag_withSignals, Heap.tag_withSignals]
  split <;> exact agrees_raise _ hc

theorem agrees_binary (op : BinaryOp) (l r : Value) (hc : h.Clean) :
    Agrees n (h.binary op l r) (binary op l r (h.withSignals n)) := by
  fun_cases Heap.binary op l r h with
  | case1 => exact agrees_arithmetic _ _ _ hc
  | case2 l r hne =>
    rw [binary.eq_2 l r hne]
    exact agrees_pure rfl hc
  | case3 l r hne =>
    rw [binary.eq_3 l r hne]
    exact agrees_pure rfl hc
  | case4 l r hne a b ha hb =>
    rw [binary.eq_4 l r hne, bind_normal (m := Effect.heap) rfl]
    simp only [Heap.string?_withSignals, ha, hb]
    exact agrees_alloc trivial hc
  | case5 l r hne hstrings =>
    rw [binary.eq_4 l r hne, bind_normal (m := Effect.heap) rfl]
    simp only [Heap.string?_withSignals]
    exact agrees_rejectOperands _ _ _ hc
  | case6 l r hne op hequal hnotEqual hadd =>
    rw [binary.eq_5 op l r hne hequal hnotEqual hadd]
    exact agrees_rejectOperands _ _ _ hc

theorem plain_getD {o : Option Value} (ho : ∀ v, o = some v → v.Plain) : (o.getD .null).Plain := by
  cases o with
  | none => rfl
  | some v => exact ho v rfl

theorem agrees_index (c i : Value) (hc : h.Clean) :
    Agrees n (h.index c i) (index c i (h.withSignals n)) := by
  rw [index, bind_normal (m := Effect.heap) rfl]
  simp only [Heap.object?_withSignals, Heap.hashKey?_withSignals, Heap.tag_withSignals]
  fun_cases Heap.index c i h with
  | case1 items k hitems =>
    simp only [hitems]
    refine agrees_pure ?_ hc
    split
    · rfl
    · exact plain_getD fun v hv => hc.object? hitems v (Array.mem_of_getElem? hv)
  | case2 i table htable k hk =>
    simp only [htable, hk]
    exact agrees_pure (plain_getD fun v hv => Heap.find?_plain (hc.object? htable) hv) hc
  | case3 i table htable hk =>
    simp only [htable, hk]
    exact agrees_raise _ hc
  | case4 i hitems htable =>
    cases hobject : h.object? c with
    | none => exact agrees_raise _ hc
    | some o =>
      cases o with
      | hash table => exact absurd hobject (htable table)
      | array items =>
        cases i with
        | int k => exact absurd rfl (hitems items k hobject)
        | _ => exact agrees_raise _ hc
      | _ => exact agrees_raise _ hc

-- ---------------------------------------------------------------------------
-- Built-in procedures
-- ---------------------------------------------------------------------------

theorem agrees_onArray (b : Builtin) (hitems : ∀ v ∈ items, v.Plain)
    (hextra : ∀ v ∈ extra, v.Plain) (hc : h.Clean) (i : ObjectId) :
    Agrees n (b.onArray i items extra h) (onArray b i items extra (h.withSignals n)) := by
  cases b with
  | len => exact agrees_pure rfl hc
  | head => exact agrees_pure (plain_getD fun v hv => hitems v (Array.mem_of_getElem? hv)) hc
  | tail => exact agrees_pure (plain_getD fun v hv => hitems v (Array.mem_of_back? hv)) hc
  | push =>
    refine .normal rfl (hc.modifyItems (fun items hitems v hv => ?_) i)
    rw [← Array.mem_toList_iff, Array.toList_appendList] at hv
    exact (List.mem_append.mp hv).elim (fun hv => hitems v (Array.mem_toList_iff.mp hv)) (hextra v)
  | pushleft =>
    refine .normal rfl (hc.modifyItems (fun items hitems v hv => ?_) i)
    exact (Array.mem_append.mp hv).elim (fun hv => hextra v (List.mem_toArray.mp hv)) (hitems v)
  | pop =>
    rw [Builtin.onArray, onArray]
    split
    · exact agrees_pure rfl hc
    · refine .normal rfl (hc.modifyItems (fun items hitems v hv => ?_) i)
      rw [← Array.mem_toList_iff, Array.toList_pop] at hv
      exact hitems v (Array.mem_toList_iff.mp (List.dropLast_subset _ hv))
  | popleft =>
    rw [Builtin.onArray, onArray]
    split
    · exact agrees_pure rfl hc
    · refine .normal rfl (hc.modifyItems (fun items hitems v hv => ?_) i)
      obtain ⟨k, _, rfl⟩ := Array.mem_extract_iff_getElem.mp hv
      exact hitems _ (Array.getElem_mem _)

theorem agrees_builtin (b : Builtin) (hargs : ∀ v ∈ args, v.Plain) (hc : h.Clean) :
    Agrees n (b.call args h) (builtin b args (h.withSignals n)) := by
  cases args with
  | nil => exact agrees_raise _ hc
  | cons v extra =>
    obtain ⟨-, hextra⟩ := List.forall_mem_cons.mp hargs
    unfold Builtin.call builtin
    dsimp only
    split
    · rw [bind_normal (m := Effect.heap) rfl]
      simp only [Heap.object?_withSignals]
      cases v with
      | object id =>
        cases hobject : h.object? (.object id) with
        | none => cases b <;> exact agrees_raise _ hc
        | some o =>
          have ho := hc.object? hobject
          cases o with
          | array items => exact agrees_onArray b ho hextra hc id
          | string s =>
            cases b with
            | len => exact agrees_pure rfl hc
            | _ => exact agrees_raise _ hc
          | _ => cases b <;> exact agrees_raise _ hc
      | _ => cases b <;> exact agrees_raise _ hc
    · exact agrees_raise _ hc

-- ---------------------------------------------------------------------------
-- Scopes
-- ---------------------------------------------------------------------------

theorem agrees_attempt {change : Heap → Except ScopeError Unit × Heap} {next : Heap → Run}
    {next' : Effect Value}
    (hchange : change (h.withSignals n) = ((change h).1, (change h).2.withSignals n))
    (hc : (change h).2.Clean)
    (hn : ∀ h : Heap, h.Clean → Agrees n (next h) (next' (h.withSignals n))) :
    Agrees n (afterChange (change h) next) ((do Effect.attempt change; next') (h.withSignals n)) := by
  simp only [Bind.bind, Effect.attempt, hchange]
  generalize change h = r at hc
  obtain ⟨_ | _, h'⟩ := r
  · exact agrees_raise _ hc
  · exact hn h' hc

theorem bindParams_eq_attempt (scope : ScopeId) (ps : List (String × Value)) :
    bindParams scope ps = Effect.attempt (Heap.bindParams scope ps) := by
  induction ps with
  | nil => rfl
  | cons p ps ih =>
    obtain ⟨name, v⟩ := p
    funext h
    simp only [bindParams, ih, Bind.bind, Effect.attempt, Heap.bindParams]
    generalize h.declare scope name ⟨.mutable, v⟩ = r
    obtain ⟨_ | _, _⟩ := r <;> rfl

theorem bindParams_withSignals {ps : List (String × Value)} :
    (h.withSignals n).bindParams scope ps =
      ((h.bindParams scope ps).1, (h.bindParams scope ps).2.withSignals n) := by
  induction ps generalizing h with
  | nil => rfl
  | cons p ps ih =>
    obtain ⟨name, v⟩ := p
    simp only [Heap.bindParams, Heap.declare_withSignals]
    generalize h.declare scope name ⟨.mutable, v⟩ = r
    obtain ⟨_ | _, h'⟩ := r
    · rfl
    · exact ih

theorem clean_bindParams {ps : List (String × Value)} (hps : ∀ p ∈ ps, p.2.Plain) (hc : h.Clean) :
    (h.bindParams scope ps).2.Clean :=
  Heap.bindParams_keeps ps (fun p hp _ hc => hc.declare (hps p hp)) hc

end

-- ---------------------------------------------------------------------------
-- Trees
-- ---------------------------------------------------------------------------

def CallersAgree (n : Nat) (call : TinyScript.Caller) (call' : Caller) : Prop :=
  ∀ f args h, f.Plain → (∀ v ∈ args, v.Plain) → h.Clean →
    Agrees n (call f args h) (call' f args (h.withSignals n))

section
variable {n : Nat} {call : TinyScript.Caller} {call' : Caller}

mutual

theorem agrees_expr {h : Heap} (hcall : CallersAgree n call call') (scope : ScopeId) (e : Expr)
    (hc : h.Clean) :
    Agrees n (e.eval call scope h) (expr call' scope e (h.withSignals n)) := by
  match e with
  | .ident name =>
    rw [Expr.eval, expr, bind_normal (m := Effect.heap) rfl, Heap.lookup_withSignals]
    cases hlookup : h.lookup scope name with
    | some v => exact agrees_pure (hc.lookup hlookup) hc
    | none =>
      cases Builtin.ofName? name with
      | some b => exact agrees_alloc trivial hc
      | none => exact agrees_raise _ hc
  | .int _ | .bool _ | .null => exact agrees_pure rfl hc
  | .str _ | .func _ _ => exact agrees_alloc trivial hc
  | .unary op e =>
    exact (agrees_expr hcall scope e hc).andThen fun v h _ hc => agrees_unary op v hc
  | .binary op l r =>
    refine (agrees_expr hcall scope l hc).andThen fun a h _ hc => ?_
    exact (agrees_expr hcall scope r hc).andThen fun b h _ hc => agrees_binary op a b hc
  | .cond test yes none =>
    rw [Expr.eval, expr]
    refine (agrees_expr hcall scope test hc).andThen fun v h _ hc => ?_
    cases v with
    | bool b =>
      cases b with
      | true => exact agrees_block hcall scope yes rfl hc
      | false => exact agrees_pure rfl hc
    | _ => exact agrees_pure rfl hc
  | .cond test yes (some no) =>
    rw [Expr.eval, expr]
    refine (agrees_expr hcall scope test hc).andThen fun v h _ hc => ?_
    cases v with
    | bool b =>
      cases b with
      | true => exact agrees_block hcall scope yes rfl hc
      | false => exact agrees_block hcall scope no rfl hc
    | _ => exact agrees_pure rfl hc
  | .call callee args =>
    rw [Expr.eval_call, expr]
    refine (agrees_expr hcall scope callee hc).andThen fun f h hf hc => ?_
    refine (agrees_exprs hcall scope args hc).whole fun values h hvalues hc => ?_
    exact hcall f values h hf hvalues hc
  | .array items =>
    rw [Expr.eval_array, expr]
    refine (agrees_exprs hcall scope items hc).whole fun values h hvalues hc => ?_
    exact agrees_alloc (fun v hv => hvalues v (List.mem_toArray.mp hv)) hc
  | .hash ps =>
    rw [Expr.eval_hash, expr]
    have hnil : (Object.hash []).Clean := nofun
    refine (agrees_pairs hcall scope ps hnil hc).whole fun table h htable hc => ?_
    exact agrees_alloc htable hc
  | .index c i =>
    refine (agrees_expr hcall scope c hc).andThen fun c h _ hc => ?_
    exact (agrees_expr hcall scope i hc).andThen fun i h _ hc => agrees_index c i hc

theorem agrees_exprs {h : Heap} (hcall : CallersAgree n call call') (scope : ScopeId)
    (es : List Expr) (hc : h.Clean) :
    AgreesOn n (fun values => ∀ v ∈ values, v.Plain) (Expr.evalList call scope es h)
      (exprs call' scope es (h.withSignals n)) := by
  match es with
  | [] => exact .normal nofun hc
  | e :: es =>
    rw [Expr.evalList_cons, exprs]
    refine (agrees_expr hcall scope e hc).part fun v h hv hc => ?_
    refine (agrees_exprs hcall scope es hc).map fun values hvalues => ?_
    exact List.forall_mem_cons.mpr ⟨hv, hvalues⟩

theorem agrees_pairs {h : Heap} {table : Table} (hcall : CallersAgree n call call')
    (scope : ScopeId) (ps : List (Expr × Expr)) (ht : (Object.hash table).Clean) (hc : h.Clean) :
    AgreesOn n (fun table => (Object.hash table).Clean) (Expr.evalPairs call scope ps table h)
      (pairs call' scope ps table (h.withSignals n)) := by
  match ps with
  | [] => exact .normal ht hc
  | (key, value) :: ps =>
    rw [Expr.evalPairs_cons, pairs]
    refine (agrees_expr hcall scope key hc).part fun k h hk hc => ?_
    rw [bind_normal (m := Effect.heap) rfl]
    simp only [Heap.hashKey?_withSignals, Heap.tag_withSignals]
    cases h.hashKey? k with
    | none => exact .signal .failed (hc.signals _)
    | some hashKey =>
      refine (agrees_expr hcall scope value hc).part fun v h hv hc => ?_
      refine agrees_pairs hcall scope ps (fun e he => ?_) hc
      rcases Table.mem_insert he with rfl | he
      · exact ⟨hk, hv⟩
      · exact ht e he

theorem agrees_stmt {h : Heap} (hcall : CallersAgree n call call') (scope : ScopeId) (s : Stmt)
    (hc : h.Clean) :
    Agrees n (s.eval call scope h) (stmt call' scope s (h.withSignals n)) := by
  match s with
  | .declare m name e =>
    rw [Stmt.eval_declare, stmt]
    refine (agrees_expr hcall scope e hc).andThen fun v h hv hc => ?_
    exact agrees_attempt Heap.declare_withSignals (hc.declare hv) fun h hc => agrees_pure rfl hc
  | .assign name e =>
    rw [Stmt.eval_assign, stmt]
    refine (agrees_expr hcall scope e hc).andThen fun v h hv hc => ?_
    exact agrees_attempt Heap.assign_withSignals (hc.assign hv) fun h hc => agrees_pure rfl hc
  | .ret e =>
    rw [Stmt.eval, stmt]
    refine (agrees_expr hcall scope e hc).andThen fun v h hv hc => ?_
    exact .signal (.returning hv) (hc.signals _)
  | .expr e => exact agrees_expr hcall scope e hc
  | .block body => exact agrees_block hcall scope body rfl hc

theorem agrees_block {h : Heap} {last : Value} (hcall : CallersAgree n call call')
    (scope : ScopeId) (body : List Stmt) (hlast : last.Plain) (hc : h.Clean) :
    Agrees n (Block.eval call scope body last h)
      (block call' scope body last (h.withSignals n)) := by
  match body with
  | [] => exact agrees_pure hlast hc
  | s :: body =>
    refine (agrees_stmt hcall scope s hc).andThen fun v h hv hc => ?_
    exact agrees_block hcall scope body hv hc

end

end

-- ---------------------------------------------------------------------------
-- Calls and programs
-- ---------------------------------------------------------------------------

section
variable {n : Nat} {h : Heap}

theorem Agrees.caught {r : Run} {m : Effect Value} (hr : Agrees n r (m h)) :
    Agrees n r.caught (Effect.caught m h) := by
  unfold Effect.caught
  generalize m h = o at hr
  cases hr with
  | normal hv hc => cases ‹Value› <;> first | exact .normal rfl hc | exact nomatch hv
  | signal hs hc =>
    cases hs with
    | failed => exact .signal .failed hc
    | returning hv => exact .normal hv hc

theorem agrees_applyWith {body : Block → ScopeId → Heap → Run}
    {body' : Block → ScopeId → Effect Value}
    (hbody : ∀ code scope h, h.Clean →
      Agrees n (body code scope h) (body' code scope (h.withSignals n))) :
    CallersAgree n (TinyScript.applyWith body) (applyWith body') := by
  intro f args h _ hargs hc
  rw [applyWith, bind_normal (m := Effect.heap) rfl, Heap.object?_withSignals, Heap.tag_withSignals]
  cases hobject : h.object? f with
  | none =>
    simp only [TinyScript.applyWith, hobject]
    exact agrees_raise _ hc
  | some o =>
    cases o with
    | builtin b =>
      simp only [TinyScript.applyWith, hobject]
      exact agrees_builtin b hargs hc
    | function params code outer =>
      rw [applyWith_function hobject]
      dsimp only
      split
      · rw [bind_normal (m := Effect.openScope outer) rfl, bindParams_eq_attempt]
        refine agrees_attempt bindParams_withSignals (clean_bindParams ?_ hc.openScope)
          fun h hc => hbody code _ h hc
        exact fun p hp => hargs p.2 (List.of_mem_zip hp).2
      · exact agrees_raise _ hc
    | _ =>
      simp only [TinyScript.applyWith, hobject]
      exact agrees_raise _ hc

theorem agrees_apply (calls : Nat) : CallersAgree n (TinyScript.apply calls) (apply calls) := by
  induction calls with
  | zero => exact agrees_applyWith fun _ _ h hc => agrees_raise _ hc
  | succ calls ih =>
    exact agrees_applyWith fun code scope h hc => (agrees_block ih scope code rfl hc).caught

end

end Reference

/-- Running a program in any scope of a clean heap ends as the reference evaluator says, with the
same objects and the same scopes. -/
theorem Program.evalAt_reference (depth : Nat) (scope : ScopeId) (p : Program) (h : Heap)
    (hc : h.Clean) :
    (Reference.program depth scope p h).1 = (p.evalAt depth scope h).1.outcome ∧
    (Reference.program depth scope p h).2.objects = (p.evalAt depth scope h).2.objects ∧
    (Reference.program depth scope p h).2.scopes = (p.evalAt depth scope h).2.scopes := by
  have hp : Reference.Agrees h.signals (p.evalAt depth scope h)
      (Reference.program depth scope p h) :=
    (Reference.agrees_block (Reference.agrees_apply _) scope p rfl hc).caught
  generalize p.evalAt depth scope h = r at hp
  generalize Reference.program depth scope p h = o at hp
  cases hp with
  | normal hv _ => cases ‹Value› <;> first | exact ⟨rfl, rfl, rfl⟩ | exact nomatch hv
  | signal hs _ => cases hs <;> exact ⟨rfl, rfl, rfl⟩

/-- For a failure among the elements of an array that a function was about to return. -/
theorem Program.evalAt_reference_sample :
    let p : Program :=
      [.declare .fixed "f"
        (.func ["x"] [.ret (.array [.ident "x", .binary .div (.int 1) (.int 0)])]),
       .declare .mutable "y" (.call (.ident "f") [.int 2])]
    let h := ((Heap.empty.openScope none).2.alloc (.array #[.int 1, .null])).2
    h.Clean ∧
    (Reference.program 0 0 p h).1 = (p.evalAt 0 0 h).1.outcome ∧
    (Reference.program 0 0 p h).2.objects = (p.evalAt 0 0 h).2.objects ∧
    (Reference.program 0 0 p h).2.scopes = (p.evalAt 0 0 h).2.scopes := by
  have hitems : (Object.array #[.int 1, .null]).Clean := by
    intro v hv
    simp only [Array.mem_def, List.mem_cons, List.not_mem_nil, or_false] at hv
    rcases hv with rfl | rfl <;> rfl
  have hscope : (Heap.empty.openScope none).2.Clean := Heap.clean_empty.openScope
  have hc := hscope.alloc hitems
  exact ⟨hc, Program.evalAt_reference 0 0 _ _ hc⟩

end TinyScript
