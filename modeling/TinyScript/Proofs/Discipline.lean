import TinyScript.Proofs.Clean
import TinyScript.Proofs.Evaluation
import TinyScript.Proofs.Growth

/-!
# What a run keeps

A `Discipline` names a property of heaps, the values that may be stored and passed on, the scopes
that may be looked in, and those that code may run in. Its laws speak of one operation on a heap
each: reading gives allowed values, and storing them keeps the heap good. An evaluation then does
the same as a whole (`Discipline.Kept`), for every tree, for calls of any depth and for programs, so
that a property of runs is shown by its laws for the operations alone.

Failures are nobody's values: they are results that nothing is stored of. A return carries an
allowed value.
-/

namespace TinyScript

def Object.Within (value : Value → Prop) (scope : ScopeId → Prop) : Object → Prop
  | .array items => ∀ v ∈ items, value v
  | .hash table => ∀ e ∈ table, value e.key ∧ value e.value
  | .function _ _ i => scope i
  | .string _ | .builtin _ => True

theorem Object.Within.imp {o : Object} {value value' : Value → Prop} {scope scope' : ScopeId → Prop}
    (hvalue : ∀ v, value v → value' v) (hscope : ∀ i, scope i → scope' i)
    (ho : o.Within value scope) : o.Within value' scope' := by
  cases o with
  | array items => exact fun v hv => hvalue v (ho v hv)
  | hash table => exact fun e he => ⟨hvalue _ (ho e he).1, hvalue _ (ho e he).2⟩
  | function _ _ _ => exact hscope _ ho
  | _ => trivial

def Object.Keyed (h : Heap) : Object → Prop
  | .hash table => ∀ e ∈ table, h.hashKey? e.key = some e.hashKey
  | _ => True

def Value.IsDirect : Value → Prop
  | .int _ | .bool _ | .null => True
  | _ => False

structure Discipline where
  good : Heap → Prop
  value : Heap → Value → Prop
  scope : Heap → ScopeId → Prop
  /-- The scopes that code may run in and that may get new names. -/
  home : Heap → ScopeId → Prop
  value_mono {h h' : Heap} {v : Value} : h.Grows h' → value h v → value h' v
  scope_mono {h h' : Heap} {i : ScopeId} : h.Grows h' → scope h i → scope h' i
  home_mono {h h' : Heap} {i : ScopeId} : h.Grows h' → home h i → home h' i
  home_scope {h : Heap} {i : ScopeId} : home h i → scope h i
  direct {h : Heap} {v : Value} : v.IsDirect → value h v
  unwrap {h : Heap} {n : Nat} {v : Value} : value h (.returned n v) → value h v
  outer {h : Heap} {i o : ScopeId} {s : Scope} : good h → scope h i → h.scopes[i]? = some s →
    s.outer = some o → scope h o
  binding {h : Heap} {i : ScopeId} {name : String} {b : Binding} : good h → scope h i →
    h.binding? name i = some b → value h b.value
  inside {h : Heap} {v : Value} {o : Object} : good h → value h v → h.object? v = some o →
    o.Within (value h) (scope h)
  signals {h : Heap} {n : Nat} : good h → good { h with signals := n }
  alloc {h : Heap} {o : Object} : good h → o.Within (value h) (scope h) → o.Keyed h →
    good (h.alloc o).2 ∧ value (h.alloc o).2 (h.alloc o).1
  openScope {h : Heap} {o : ScopeId} : good h → scope h o →
    good (h.openScope (some o)).2 ∧ home (h.openScope (some o)).2 (h.openScope (some o)).1
  declare {h : Heap} {i : ScopeId} {name : String} {b : Binding} : good h → home h i →
    value h b.value → h.binding? name i = none → good (h.withScope i (·.declare name b))
  assign {h : Heap} {i : ScopeId} {name : String} {b : Binding} {v : Value} : good h → scope h i →
    value h v → h.binding? name i = some b → b.mutability = .mutable →
    good (h.withScope i (·.assign name v))
  modifyItems {h : Heap} {id : ObjectId} {items : Array Value} {f : Array Value → Array Value} :
    good h → value h (.object id) → h.objects[id]? = some (.array items) →
    (∀ v ∈ f items, value h v) → good (h.modifyItems id f)

namespace Discipline

variable {D : Discipline}

/-- What an evaluation may give: an allowed value, a return of one, or a failure. -/
def result (D : Discipline) (h : Heap) : Value → Prop
  | .error _ _ => True
  | .returned _ v => D.value h v
  | v => D.value h v

def table (D : Discipline) (h : Heap) (t : Table) : Prop :=
  (Object.hash t).Within (D.value h) (D.scope h) ∧ (Object.hash t).Keyed h

theorem value_null : D.value h .null := D.direct trivial

theorem result_of_value (hv : D.value h v) : D.result h v := by
  cases v with
  | error _ _ => trivial
  | returned _ _ => exact D.unwrap hv
  | _ => exact hv

theorem value_of_result (hr : D.result h v) (hv : v.isInterrupt = false) : D.value h v := by
  cases v with
  | error _ _ | returned _ _ => exact nomatch hv
  | _ => exact hr

theorem result_unwrap (hr : D.result h v) : D.result h v.unwrap := by
  cases v with
  | returned _ v => exact result_of_value hr
  | _ => exact hr

theorem value_of_unwrap (hr : D.result h v) (hv : v.unwrap.isError = false) :
    D.value h v.unwrap := by
  cases v with
  | error _ _ => exact nomatch hv
  | _ => exact hr

theorem Within.mono {o : Object} (hg : h.Grows h') (ho : o.Within (D.value h) (D.scope h)) :
    o.Within (D.value h') (D.scope h') :=
  ho.imp (fun _ => D.value_mono hg) fun _ => D.scope_mono hg

theorem Keyed.mono {o : Object} (hg : h.Grows h') (ho : o.Keyed h) : o.Keyed h' := by
  cases o with
  | hash table => exact fun e he => hg.hashKey? (ho e he)
  | _ => trivial

theorem table_nil : D.table h [] := ⟨nofun, nofun⟩

theorem table_mono (hg : h.Grows h') (ht : D.table h t) : D.table h' t :=
  ⟨Within.mono hg ht.1, Keyed.mono hg ht.2⟩

theorem table_insert (ht : D.table h t) (hk : D.value h k) (hv : D.value h v)
    (hhash : h.hashKey? k = some hashKey) : D.table h (t.insert ⟨hashKey, k, v⟩) := by
  constructor
  · intro e he
    rcases Table.mem_insert he with rfl | he
    · exact ⟨hk, hv⟩
    · exact ht.1 e he
  · intro e he
    rcases Table.mem_insert he with rfl | he
    · exact hhash
    · exact ht.2 e he

-- ---------------------------------------------------------------------------
-- Results
-- ---------------------------------------------------------------------------

/-- From the heap `h` on, the discipline was kept and the heap grew. -/
structure Kept (D : Discipline) (h : Heap) (r : Run) : Prop where
  grows : h.Grows r.2
  good : D.good r.2
  result : D.result r.2 r.1

structure KeptOn (D : Discipline) (P : Heap → α → Prop) (h : Heap) (r : Parts α) : Prop where
  grows : h.Grows r.2
  good : D.good r.2
  parts : ∀ a, r.1 = .ok a → P r.2 a
  signal : ∀ v, r.1 = .error v → D.result r.2 v

section
variable {h h' : Heap} {r : Run} {id : ObjectId} {scope : ScopeId}

theorem Kept.after (hg : h.Grows h') (hr : D.Kept h' r) : D.Kept h r :=
  ⟨hg.trans hr.grows, hr.good, hr.result⟩

theorem KeptOn.after {r : Parts α} (hg : h.Grows h') (hr : D.KeptOn P h' r) : D.KeptOn P h r :=
  ⟨hg.trans hr.grows, hr.good, hr.parts, hr.signal⟩

theorem kept_value (hh : D.good h) (hv : D.value h v) : D.Kept h (v, h) :=
  ⟨.refl h, hh, result_of_value hv⟩

theorem kept_direct (hh : D.good h) (hv : v.IsDirect) : D.Kept h (v, h) :=
  kept_value hh (D.direct hv)

theorem kept_raise (hh : D.good h) (fault : Fault) : D.Kept h (h.raise fault) :=
  ⟨h.grows_signals _, D.signals hh, trivial⟩

theorem kept_returning (hh : D.good h) (hv : D.value h v) : D.Kept h (h.returning v) :=
  ⟨h.grows_signals _, D.signals hh, D.value_mono (h.grows_signals _) hv⟩

theorem kept_alloc (hh : D.good h) (ho : o.Within (D.value h) (D.scope h)) (hk : o.Keyed h) :
    D.Kept h (h.alloc o) := by
  obtain ⟨hgood, hvalue⟩ := D.alloc hh ho hk
  exact ⟨h.grows_alloc o, hgood, result_of_value hvalue⟩

theorem Kept.caught (hr : D.Kept h r) : D.Kept h r.caught :=
  ⟨hr.grows, hr.good, result_unwrap hr.result⟩

-- ---------------------------------------------------------------------------
-- Going on
-- ---------------------------------------------------------------------------

theorem Kept.andThen {next : Value → Heap → Run} (hr : D.Kept h r)
    (hn : ∀ v h', h.Grows h' → D.good h' → D.value h' v → D.Kept h' (next v h')) :
    D.Kept h (andThen r next) := by
  obtain ⟨v, h'⟩ := r
  simp only [TinyScript.andThen]
  split
  case isTrue => exact hr
  case isFalse hv =>
    have hv := value_of_result hr.result (Bool.eq_false_iff.mpr hv)
    exact (hn v h' hr.grows hr.good hv).after hr.grows

theorem Kept.part {next : Value → Heap → Parts α} (hr : D.Kept h r)
    (hn : ∀ v h', h.Grows h' → D.good h' → D.value h' v → D.KeptOn P h' (next v h')) :
    D.KeptOn P h (part r next) := by
  obtain ⟨v, h'⟩ := r
  unfold TinyScript.part
  split
  case isTrue =>
    refine ⟨hr.grows, hr.good, nofun, ?_⟩
    rintro _ ⟨⟩
    exact hr.result
  case isFalse hv =>
    have hv := value_of_result hr.result (Bool.eq_false_iff.mpr hv)
    exact (hn v h' hr.grows hr.good hv).after hr.grows

theorem KeptOn.whole {r : Parts α} {next : α → Heap → Run} (hr : D.KeptOn P h r)
    (hn : ∀ a h', h.Grows h' → D.good h' → P h' a → D.Kept h' (next a h')) :
    D.Kept h (whole r next) := by
  obtain ⟨_ | a, h'⟩ := r
  · exact ⟨hr.grows, hr.good, hr.signal _ rfl⟩
  · exact (hn a h' hr.grows hr.good (hr.parts a rfl)).after hr.grows

theorem KeptOn.map {r : Parts α} {f : α → β} {Q : Heap → β → Prop} (hr : D.KeptOn P h r)
    (hf : ∀ a h', h.Grows h' → P h' a → Q h' (f a)) : D.KeptOn Q h (Parts.map f r) := by
  obtain ⟨_ | a, h'⟩ := r
  · refine ⟨hr.grows, hr.good, nofun, ?_⟩
    rintro _ ⟨⟩
    exact hr.signal _ rfl
  · refine ⟨hr.grows, hr.good, ?_, nofun⟩
    rintro _ ⟨⟩
    exact hf a h' hr.grows (hr.parts a rfl)

theorem kept_afterChange {r : Except ScopeError Unit × Heap} {next : Heap → Run}
    (hg : h.Grows r.2) (hh : D.good r.2) (hn : D.Kept r.2 (next r.2)) :
    D.Kept h (afterChange r next) := by
  obtain ⟨_ | _, h'⟩ := r
  · exact (kept_raise hh _).after hg
  · exact hn.after hg

theorem kept_settle {r : Except ScopeError Unit × Heap} (hg : h.Grows r.2) (hh : D.good r.2) :
    D.Kept h (settle r) := by
  rw [settle_eq]
  exact kept_afterChange hg hh (kept_direct hh trivial)

-- ---------------------------------------------------------------------------
-- Operators
-- ---------------------------------------------------------------------------

theorem kept_unary (op : UnaryOp) (v : Value) (hh : D.good h) : D.Kept h (h.unary op v) := by
  fun_cases Heap.unary op v h
  · exact kept_direct hh trivial
  · exact kept_direct hh trivial
  · exact kept_raise hh _

theorem kept_arithmetic (op : BinaryOp) (l r : Int64) (hh : D.good h) :
    D.Kept h (h.arithmetic op l r) := by
  cases op
  case div | mod =>
    rw [Heap.arithmetic]
    split
    · exact kept_raise hh _
    · exact kept_direct hh trivial
  all_goals exact kept_direct hh trivial

theorem kept_rejectOperands (op : BinaryOp) (l r : Value) (hh : D.good h) :
    D.Kept h (h.rejectOperands op l r) := by
  unfold Heap.rejectOperands
  split <;> exact kept_raise hh _

theorem kept_binary (op : BinaryOp) (l r : Value) (hh : D.good h) :
    D.Kept h (h.binary op l r) := by
  fun_cases Heap.binary op l r h
  · exact kept_arithmetic _ _ _ hh
  · exact kept_direct hh trivial
  · exact kept_direct hh trivial
  · exact kept_alloc hh trivial trivial
  · exact kept_rejectOperands _ _ _ hh
  · exact kept_rejectOperands _ _ _ hh

theorem value_getD {o : Option Value} (ho : ∀ v, o = some v → D.value h v) :
    D.value h (o.getD .null) := by
  cases o with
  | none => exact D.direct trivial
  | some v => exact ho v rfl

theorem kept_index (c i : Value) (hh : D.good h) (hc : D.value h c) : D.Kept h (h.index c i) := by
  fun_cases Heap.index c i h with
  | case1 items k hitems =>
    refine kept_value hh ?_
    split
    · exact D.direct trivial
    · exact value_getD fun v hv => D.inside hh hc hitems v (Array.mem_of_getElem? hv)
  | case2 i table htable k hk =>
    refine kept_value hh (value_getD fun v hv => ?_)
    obtain ⟨e, he, rfl⟩ := Option.map_eq_some_iff.mp hv
    exact (D.inside hh hc htable e (List.mem_of_find?_eq_some he)).2
  | case3 => exact kept_raise hh _
  | case4 => exact kept_raise hh _

-- ---------------------------------------------------------------------------
-- Built-in procedures
-- ---------------------------------------------------------------------------

theorem kept_modifyItems {f : Array Value → Array Value} (hh : D.good h)
    (hid : D.value h (.object id)) (hitems : h.objects[id]? = some (.array items))
    (hf : ∀ v ∈ f items, D.value h v) (hv : D.value h v) : D.Kept h (v, h.modifyItems id f) :=
  ⟨h.grows_modifyItems id f, D.modifyItems hh hid hitems hf,
    result_of_value (D.value_mono (h.grows_modifyItems id f) hv)⟩

theorem kept_onArray (b : Builtin) (hh : D.good h) (hid : D.value h (.object id))
    (hitems : h.objects[id]? = some (.array items)) (hextra : ∀ v ∈ extra, D.value h v) :
    D.Kept h (b.onArray id items extra h) := by
  have hmem : ∀ v ∈ items, D.value h v := D.inside hh hid hitems
  cases b with
  | len => exact kept_direct hh trivial
  | head => exact kept_value hh (value_getD fun v hv => hmem v (Array.mem_of_getElem? hv))
  | tail => exact kept_value hh (value_getD fun v hv => hmem v (Array.mem_of_back? hv))
  | push =>
    refine kept_modifyItems hh hid hitems (fun v hv => ?_) value_null
    rw [← Array.mem_toList_iff, Array.toList_appendList] at hv
    exact (List.mem_append.mp hv).elim (fun hv => hmem v (Array.mem_toList_iff.mp hv)) (hextra v)
  | pushleft =>
    refine kept_modifyItems hh hid hitems (fun v hv => ?_) value_null
    exact (Array.mem_append.mp hv).elim (fun hv => hextra v (List.mem_toArray.mp hv)) (hmem v)
  | pop =>
    rw [Builtin.onArray]
    split
    · exact kept_direct hh trivial
    · refine kept_modifyItems hh hid hitems (fun v hv => ?_) hid
      rw [← Array.mem_toList_iff, Array.toList_pop] at hv
      exact hmem v (Array.mem_toList_iff.mp (List.dropLast_subset _ hv))
  | popleft =>
    rw [Builtin.onArray]
    split
    · exact kept_direct hh trivial
    · refine kept_modifyItems hh hid hitems (fun v hv => ?_) hid
      obtain ⟨k, _, rfl⟩ := Array.mem_extract_iff_getElem.mp hv
      exact hmem _ (Array.getElem_mem _)

theorem kept_builtin (b : Builtin) (hh : D.good h) (hargs : ∀ v ∈ args, D.value h v) :
    D.Kept h (b.call args h) := by
  cases args with
  | nil => exact kept_raise hh _
  | cons v extra =>
    obtain ⟨hv, hextra⟩ := List.forall_mem_cons.mp hargs
    unfold Builtin.call
    dsimp only
    split
    · split
      · rename_i hitems _
        exact kept_onArray _ hh hv hitems hextra
      · exact kept_direct hh trivial
      · exact kept_raise hh _
    · exact kept_raise hh _

-- ---------------------------------------------------------------------------
-- Scopes
-- ---------------------------------------------------------------------------

theorem scope_chainUpTo (hh : D.good h) (n : Nat) (hi : D.scope h i) (hj : j ∈ h.chainUpTo n i) :
    D.scope h j := by
  induction n generalizing i with
  | zero => exact nomatch hj
  | succ n ih =>
    unfold Heap.chainUpTo at hj
    split at hj
    · exact nomatch hj
    · rwa [List.mem_singleton.mp hj]
    · rename_i houter
      rcases List.mem_cons.mp hj with rfl | hj
      · exact hi
      · exact ih (D.outer hh hi houter rfl) hj

theorem value_lookup (hh : D.good h) (hscope : D.scope h scope)
    (hv : h.lookup scope name = some v) : D.value h v := by
  obtain ⟨b, hb, rfl⟩ := Option.map_eq_some_iff.mp hv
  obtain ⟨i, hi, hb⟩ := List.exists_of_findSome?_eq_some hb
  exact D.binding hh (scope_chainUpTo hh _ hscope hi) hb

theorem good_declare (hh : D.good h) (hhome : D.home h scope) (hb : D.value h b.value) :
    D.good (h.declare scope name b).2 := by
  rcases h.declare_cases scope name b with heq | ⟨hnew, heq⟩
  · rwa [heq]
  · rw [heq]
    exact D.declare hh hhome hb hnew

theorem good_assign (hh : D.good h) (hscope : D.scope h scope) (hv : D.value h v) :
    D.good (h.assign scope name v).2 := by
  rcases h.assign_cases scope name v with ⟨e, heq⟩ | ⟨i, hi, b, hb, hm, heq⟩
  · rwa [heq]
  · rw [heq]
    exact D.assign hh (scope_chainUpTo hh _ hscope hi) hv hb hm

theorem good_bindParams {ps : List (String × Value)} (hh : D.good h) (hhome : D.home h scope)
    (hps : ∀ p ∈ ps, D.value h p.2) :
    h.Grows (h.bindParams scope ps).2 ∧ D.good (h.bindParams scope ps).2 := by
  refine Heap.bindParams_keeps (P := fun h' => h.Grows h' ∧ D.good h') ps ?_ ⟨.refl h, hh⟩
  intro p hp h' ⟨hg, hh'⟩
  refine ⟨hg.trans (h'.grows_declare _ _ _), ?_⟩
  exact good_declare hh' (D.home_mono hg hhome) (D.value_mono hg (hps p hp))

theorem good_entry {outer : ScopeId} (hh : D.good h) (hf : D.value h f)
    (hobject : h.object? f = some (.function params code outer)) (hargs : ∀ v ∈ args, D.value h v) :
    let r := (h.openScope (some outer)).2.bindParams (h.openScope (some outer)).1 (params.zip args)
    h.Grows r.2 ∧ D.good r.2 ∧ D.home r.2 (h.openScope (some outer)).1 := by
  have houter : D.scope h outer := D.inside hh hf hobject
  obtain ⟨hgood, hhome⟩ := D.openScope hh houter
  have hopen := h.grows_openScope (some outer)
  have hparams : ∀ p ∈ params.zip args, D.value _ p.2 := fun p hp =>
    D.value_mono hopen (hargs p.2 (List.of_mem_zip hp).2)
  obtain ⟨hbind, hgood⟩ := good_bindParams hgood hhome hparams
  exact ⟨hopen.trans hbind, hgood, D.home_mono hbind hhome⟩

end

-- ---------------------------------------------------------------------------
-- Trees
-- ---------------------------------------------------------------------------

def CallKept (D : Discipline) (call : Caller) : Prop :=
  ∀ f args h, D.good h → D.value h f → (∀ v ∈ args, D.value h v) → D.Kept h (call f args h)

section
variable {call : Caller} {scope : ScopeId}

mutual

theorem kept_expr {h : Heap} (hcall : D.CallKept call) (e : Expr) (hh : D.good h)
    (hhome : D.home h scope) : D.Kept h (e.eval call scope h) := by
  match e with
  | .ident name =>
    rw [Expr.eval]
    split
    · exact kept_value hh (value_lookup hh (D.home_scope hhome) ‹_›)
    · split
      · exact kept_alloc hh trivial trivial
      · exact kept_raise hh _
  | .int _ | .bool _ | .null => exact kept_direct hh trivial
  | .str _ => exact kept_alloc hh trivial trivial
  | .func _ _ => exact kept_alloc hh (D.home_scope hhome) trivial
  | .unary op e =>
    exact (kept_expr hcall e hh hhome).andThen fun v h _ hh _ => kept_unary op v hh
  | .binary op l r =>
    refine (kept_expr hcall l hh hhome).andThen fun a h hg hh _ => ?_
    exact (kept_expr hcall r hh (D.home_mono hg hhome)).andThen fun b h _ hh _ =>
      kept_binary op a b hh
  | .cond test yes none =>
    rw [Expr.eval]
    refine (kept_expr hcall test hh hhome).andThen fun v h hg hh _ => ?_
    split
    · exact kept_block hcall yes hh (D.home_mono hg hhome) value_null
    · exact kept_direct hh trivial
  | .cond test yes (some no) =>
    rw [Expr.eval]
    refine (kept_expr hcall test hh hhome).andThen fun v h hg hh _ => ?_
    split
    · exact kept_block hcall yes hh (D.home_mono hg hhome) value_null
    · exact kept_block hcall no hh (D.home_mono hg hhome) value_null
    · exact kept_direct hh trivial
  | .call callee args =>
    rw [Expr.eval_call]
    refine (kept_expr hcall callee hh hhome).andThen fun f h hg hh hf => ?_
    refine (kept_exprs hcall args hh (D.home_mono hg hhome)).whole fun values h hg hh hvalues => ?_
    exact hcall f values h hh (D.value_mono hg hf) hvalues
  | .array items =>
    rw [Expr.eval_array]
    refine (kept_exprs hcall items hh hhome).whole fun values h _ hh hvalues => ?_
    exact kept_alloc hh (fun v hv => hvalues v (List.mem_toArray.mp hv)) trivial
  | .hash pairs =>
    rw [Expr.eval_hash]
    refine (kept_pairs hcall pairs hh hhome table_nil).whole fun table h _ hh htable => ?_
    exact kept_alloc hh htable.1 htable.2
  | .index c i =>
    refine (kept_expr hcall c hh hhome).andThen fun c h hg hh hc => ?_
    refine (kept_expr hcall i hh (D.home_mono hg hhome)).andThen fun i h hg hh _ => ?_
    exact kept_index c i hh (D.value_mono hg hc)

theorem kept_exprs {h : Heap} (hcall : D.CallKept call) (es : List Expr) (hh : D.good h)
    (hhome : D.home h scope) :
    D.KeptOn (fun h values => ∀ v ∈ values, D.value h v) h (Expr.evalList call scope es h) := by
  match es with
  | [] =>
    refine ⟨.refl h, hh, ?_, nofun⟩
    rintro _ ⟨⟩
    exact nofun
  | e :: es =>
    rw [Expr.evalList_cons]
    refine (kept_expr hcall e hh hhome).part fun v h hg hh hv => ?_
    refine (kept_exprs hcall es hh (D.home_mono hg hhome)).map fun values h hg hvalues => ?_
    exact List.forall_mem_cons.mpr ⟨D.value_mono hg hv, hvalues⟩

theorem kept_pairs {h : Heap} {table : Table} (hcall : D.CallKept call) (ps : List (Expr × Expr))
    (hh : D.good h) (hhome : D.home h scope) (ht : D.table h table) :
    D.KeptOn D.table h (Expr.evalPairs call scope ps table h) := by
  match ps with
  | [] =>
    refine ⟨.refl h, hh, ?_, nofun⟩
    rintro _ ⟨⟩
    exact ht
  | (key, value) :: ps =>
    rw [Expr.evalPairs_cons]
    refine (kept_expr hcall key hh hhome).part fun k h hg hh hkey => ?_
    have hhome := D.home_mono hg hhome
    have ht := table_mono hg ht
    split
    · refine ⟨h.grows_signals _, D.signals hh, nofun, ?_⟩
      rintro _ ⟨⟩
      trivial
    · rename_i hashKey hhash
      refine (kept_expr hcall value hh hhome).part fun v h hg hh hv => ?_
      refine kept_pairs hcall ps hh (D.home_mono hg hhome) ?_
      exact table_insert (table_mono hg ht) (D.value_mono hg hkey) hv (hg.hashKey? hhash)

theorem kept_stmt {h : Heap} (hcall : D.CallKept call) (s : Stmt) (hh : D.good h)
    (hhome : D.home h scope) : D.Kept h (s.eval call scope h) := by
  match s with
  | .declare m name e =>
    rw [Stmt.eval]
    refine (kept_expr hcall e hh hhome).andThen fun v h hg hh hv => ?_
    exact kept_settle (h.grows_declare _ _ _) (good_declare hh (D.home_mono hg hhome) hv)
  | .assign name e =>
    rw [Stmt.eval]
    refine (kept_expr hcall e hh hhome).andThen fun v h hg hh hv => ?_
    have hscope := D.home_scope (D.home_mono hg hhome)
    exact kept_settle (h.grows_assign _ _ _) (good_assign hh hscope hv)
  | .ret e => exact (kept_expr hcall e hh hhome).andThen fun v h _ hh hv => kept_returning hh hv
  | .expr e => exact kept_expr hcall e hh hhome
  | .block body => exact kept_block hcall body hh hhome value_null

theorem kept_block {h : Heap} {last : Value} (hcall : D.CallKept call) (body : List Stmt)
    (hh : D.good h) (hhome : D.home h scope) (hlast : D.value h last) :
    D.Kept h (Block.eval call scope body last h) := by
  match body with
  | [] => exact kept_value hh hlast
  | s :: body =>
    refine (kept_stmt hcall s hh hhome).andThen fun v h hg hh hv => ?_
    exact kept_block hcall body hh (D.home_mono hg hhome) hv

end

end

-- ---------------------------------------------------------------------------
-- Calls and programs
-- ---------------------------------------------------------------------------

section
variable {h : Heap} {scope : ScopeId}

theorem kept_applyWith {body : Block → ScopeId → Heap → Run}
    (hbody : ∀ code scope h, D.good h → D.home h scope → D.Kept h (body code scope h)) :
    D.CallKept (applyWith body) := by
  intro f args h hh hf hargs
  cases hobject : h.object? f with
  | none =>
    simp only [applyWith, hobject]
    exact kept_raise hh _
  | some o =>
    cases o with
    | builtin b =>
      simp only [applyWith, hobject]
      exact kept_builtin b hh hargs
    | function params code outer =>
      rw [applyWith_function hobject]
      split
      · obtain ⟨hgrows, hgood, hhome⟩ := good_entry hh hf hobject hargs
        exact kept_afterChange hgrows hgood (hbody code _ _ hgood hhome)
      · exact kept_raise hh _
    | _ =>
      simp only [applyWith, hobject]
      exact kept_raise hh _

theorem kept_apply (calls : Nat) : D.CallKept (apply calls) := by
  induction calls with
  | zero => exact kept_applyWith fun _ _ h hh _ => kept_raise hh _
  | succ calls ih =>
    exact kept_applyWith fun code scope h hh hhome =>
      (kept_block ih code hh hhome value_null).caught

theorem kept_evalAt (depth : Nat) (p : Program) (hh : D.good h) (hhome : D.home h scope) :
    D.Kept h (p.evalAt depth scope h) :=
  (kept_block (kept_apply _) p hh hhome value_null).caught

end

end Discipline

end TinyScript
