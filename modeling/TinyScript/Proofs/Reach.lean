import Mathlib.Logic.Relation
import TinyScript.Proofs.Discipline

/-!
# What a call can reach

From a value or a scope one gets to others: through bindings and outward, into the scope of a
function, to the elements of an array, the keys and values of a hash, and the value in a return. A
call changes no scope and no object that its callee and its arguments do not lead to, and what it
gives leads to nothing else of what was there before. So a function sees nothing of where it is
called from.

A `Region` is a set of places that nothing leads out of. A run that starts in it stays in it, apart
from what the run makes itself (`Region.Confined`).
-/

namespace TinyScript

inductive Place where
  | value (v : Value)
  | scope (i : ScopeId)

namespace Heap

inductive Leads (h : Heap) : Place → Place → Prop
  | binding : h.binding? name i = some b → Leads h (.scope i) (.value b.value)
  | outer : h.scopes[i]? = some s → s.outer = some o → Leads h (.scope i) (.scope o)
  | captured : h.object? v = some (.function params body i) → Leads h (.value v) (.scope i)
  | item : h.object? v = some (.array items) → x ∈ items → Leads h (.value v) (.value x)
  | key : h.object? v = some (.hash table) → e ∈ table → Leads h (.value v) (.value e.key)
  | entry : h.object? v = some (.hash table) → e ∈ table → Leads h (.value v) (.value e.value)
  | wrapped : Leads h (.value (.returned n v)) (.value v)

def Reaches (h : Heap) (vs : List Value) (p : Place) : Prop :=
  ∃ v ∈ vs, Relation.ReflTransGen h.Leads (.value v) p

theorem Reaches.step {h : Heap} (hp : h.Reaches vs p) (hq : h.Leads p q) : h.Reaches vs q := by
  obtain ⟨v, hv, hreach⟩ := hp
  exact ⟨v, hv, hreach.tail hq⟩

end Heap

/-- Places of a heap that lead to each other only. -/
structure Region where
  base : Heap
  places : Place → Prop
  closed : places p → base.Leads p q → places q

namespace Region

def reached (h : Heap) (vs : List Value) : Region := ⟨h, h.Reaches vs, Heap.Reaches.step⟩

-- ---------------------------------------------------------------------------
-- Inside and outside
-- ---------------------------------------------------------------------------

/-- Every object in the value is in the region, or it was made later, of `size` objects in all. -/
def HasValue (R : Region) (size : Nat) : Value → Prop
  | .object id => R.places (.value (.object id)) ∨ R.base.objects.size ≤ id ∧ id < size
  | .returned _ v => R.HasValue size v
  | _ => True

def HasScope (R : Region) (size : Nat) (i : ScopeId) : Prop :=
  R.places (.scope i) ∨ R.base.scopes.size ≤ i ∧ i < size

def HasObject (R : Region) (h : Heap) (o : Object) : Prop :=
  o.Within (R.HasValue h.objects.size) (R.HasScope h.scopes.size)

/-- Outside of the region the heap is as it was, and nothing leads there from inside. -/
structure Confined (R : Region) (h : Heap) : Prop where
  size_objects : R.base.objects.size ≤ h.objects.size
  size_scopes : R.base.scopes.size ≤ h.scopes.size
  same_objects : ∀ id < R.base.objects.size, ¬ R.places (.value (.object id)) →
    h.objects[id]? = R.base.objects[id]?
  same_scopes : ∀ i < R.base.scopes.size, ¬ R.places (.scope i) →
    h.scopes[i]? = R.base.scopes[i]?
  objects : ∀ (id : ObjectId) (o : Object), R.HasValue h.objects.size (.object id) →
    h.objects[id]? = some o → R.HasObject h o
  outer : ∀ (i o : ScopeId) (s : Scope), R.HasScope h.scopes.size i → h.scopes[i]? = some s →
    s.outer = some o → R.HasScope h.scopes.size o
  bindings : ∀ (i : ScopeId) (s : Scope) (name : String) (b : Binding),
    R.HasScope h.scopes.size i → h.scopes[i]? = some s → s.find? name = some b →
    R.HasValue h.objects.size b.value

variable {R : Region} {h h' : Heap} {id : ObjectId} {m n : Nat}

theorem value_of_places (v : Value) (hv : R.places (.value v)) : R.HasValue n v := by
  match v with
  | .object id => exact .inl hv
  | .returned _ v => exact value_of_places v (R.closed hv .wrapped)
  | .int _ | .bool _ | .null | .error _ _ => trivial

theorem value_mono (hle : m ≤ n) (v : Value) (hv : R.HasValue m v) : R.HasValue n v := by
  match v with
  | .object id => exact hv.imp_right fun ⟨hlo, hlt⟩ => ⟨hlo, Nat.lt_of_lt_of_le hlt hle⟩
  | .returned _ v => exact value_mono hle v hv
  | .int _ | .bool _ | .null | .error _ _ => trivial

theorem scope_mono (hle : m ≤ n) (hi : R.HasScope m i) : R.HasScope n i :=
  hi.imp_right fun ⟨hlo, hlt⟩ => ⟨hlo, Nat.lt_of_lt_of_le hlt hle⟩

theorem object_mono {o : Object} (hobjects : h.objects.size ≤ h'.objects.size)
    (hscopes : h.scopes.size ≤ h'.scopes.size) (ho : R.HasObject h o) : R.HasObject h' o :=
  ho.imp (value_mono hobjects) fun _ => scope_mono hscopes

theorem value_of_get (hid : R.HasValue n (.object id)) (ho : h.objects[id]? = some o) :
    R.HasValue h.objects.size (.object id) := by
  obtain ⟨hlt, -⟩ := Array.getElem?_eq_some_iff.mp ho
  exact hid.imp_right fun ⟨hlo, _⟩ => ⟨hlo, hlt⟩

theorem scope_of_get (hi : R.HasScope n i) (hs : h.scopes[i]? = some s) :
    R.HasScope h.scopes.size i := by
  obtain ⟨hlt, -⟩ := Array.getElem?_eq_some_iff.mp hs
  exact hi.imp_right fun ⟨hlo, _⟩ => ⟨hlo, hlt⟩

theorem places_of_value (hid : R.HasValue R.base.objects.size (.object id)) :
    R.places (.value (.object id)) :=
  hid.elim (fun hp => hp) fun ⟨hlo, hlt⟩ => absurd hlt (Nat.not_lt_of_le hlo)

theorem places_of_scope (hi : R.HasScope R.base.scopes.size i) : R.places (.scope i) :=
  hi.elim (fun hp => hp) fun ⟨hlo, hlt⟩ => absurd hlt (Nat.not_lt_of_le hlo)

theorem confined_base (R : Region) : R.Confined R.base where
  size_objects := Nat.le_refl _
  size_scopes := Nat.le_refl _
  same_objects _ _ _ := rfl
  same_scopes _ _ _ := rfl
  objects id o hid ho := by
    have hid := places_of_value hid
    cases o with
    | array items => exact fun v hv => value_of_places v (R.closed hid (.item ho hv))
    | hash table =>
      intro e he
      exact ⟨value_of_places _ (R.closed hid (.key ho he)),
        value_of_places _ (R.closed hid (.entry ho he))⟩
    | function _ _ i => exact .inl (R.closed hid (.captured ho))
    | _ => trivial
  outer i o s hi hs ho := .inl (R.closed (places_of_scope hi) (.outer hs ho))
  bindings i s name b hi hs hb := by
    have hb : R.base.binding? name i = some b := by rw [Heap.binding?, hs, Option.bind_some, hb]
    exact value_of_places _ (R.closed (places_of_scope hi) (.binding hb))

-- ---------------------------------------------------------------------------
-- Staying inside
-- ---------------------------------------------------------------------------

theorem Confined.signals (hc : R.Confined h) : R.Confined { h with signals := n } :=
  ⟨hc.size_objects, hc.size_scopes, hc.same_objects, hc.same_scopes, hc.objects, hc.outer,
    hc.bindings⟩

theorem Confined.alloc (hc : R.Confined h) (ho : R.HasObject h o) : R.Confined (h.alloc o).2 := by
  have hsize := (h.grows_alloc o).size_objects
  refine ⟨Nat.le_trans hc.size_objects hsize, hc.size_scopes, fun id hid hout => ?_, hc.same_scopes,
    fun id o' hid ho' => ?_, hc.outer, fun i s name b hi hs hb => ?_⟩
  · have hne : id ≠ h.objects.size := Nat.ne_of_lt (Nat.lt_of_lt_of_le hid hc.size_objects)
    rw [Heap.alloc, Array.getElem?_push, if_neg hne]
    exact hc.same_objects id hid hout
  · refine object_mono hsize (Nat.le_refl _) ?_
    rcases Heap.object_of_alloc ho' with rfl | ho'
    · exact ho
    · exact hc.objects id o' (value_of_get hid ho') ho'
  · exact value_mono hsize _ (hc.bindings i s name b hi hs hb)

theorem Confined.modifyItems {f : Array Value → Array Value} (hc : R.Confined h)
    (hid : R.HasValue h.objects.size (.object id)) (hitems : h.objects[id]? = some (.array items))
    (hf : ∀ v ∈ f items, R.HasValue h.objects.size v) : R.Confined (h.modifyItems id f) := by
  have hsize := (h.grows_modifyItems id f).size_objects
  refine ⟨Nat.le_trans hc.size_objects hsize, hc.size_scopes, fun j hj hout => ?_, hc.same_scopes,
    fun j o hj ho => ?_, hc.outer, fun i s name b hi hs hb => ?_⟩
  · have hne : id ≠ j := by
      rintro rfl
      exact hid.elim hout fun ⟨hlo, _⟩ => Nat.not_lt_of_le hlo hj
    rw [Heap.modifyItems, Array.getElem?_modify, if_neg hne]
    exact hc.same_objects j hj hout
  · refine object_mono hsize (Nat.le_refl _) ?_
    rcases Heap.object_of_modifyItems ho with ⟨items', hitems', rfl⟩ | ho
    · obtain rfl := Object.array.inj (Option.some.inj (hitems.symm.trans hitems'))
      exact hf
    · exact hc.objects j o (value_of_get hj ho) ho
  · exact value_mono hsize _ (hc.bindings i s name b hi hs hb)

theorem Confined.openScope (hc : R.Confined h) (ho : R.HasScope h.scopes.size o) :
    R.Confined (h.openScope (some o)).2 := by
  have hsize := (h.grows_openScope (some o)).size_scopes
  refine ⟨hc.size_objects, Nat.le_trans hc.size_scopes hsize, hc.same_objects, fun i hi hout => ?_,
    fun id o' hid ho' => ?_, fun i o' s hi hs ho' => ?_, fun i s name b hi hs hb => ?_⟩
  · have hne : i ≠ h.scopes.size := Nat.ne_of_lt (Nat.lt_of_lt_of_le hi hc.size_scopes)
    rw [Heap.openScope, Array.getElem?_push, if_neg hne]
    exact hc.same_scopes i hi hout
  · exact object_mono (h := h) (Nat.le_refl _) hsize (hc.objects id o' hid ho')
  · refine scope_mono hsize ?_
    rcases Heap.scope_of_openScope hs with rfl | hs
    · obtain rfl := Option.some.inj ho'
      exact ho
    · exact hc.outer i o' s (scope_of_get hi hs) hs ho'
  · rcases Heap.scope_of_openScope hs with rfl | hs
    · exact nomatch hb
    · exact hc.bindings i s name b (scope_of_get hi hs) hs hb

theorem Confined.withScope {f : Scope → Scope} (hc : R.Confined h) (hj : R.HasScope h.scopes.size j)
    (houter : ∀ s, (f s).outer = s.outer)
    (hf : ∀ s name b, (f s).find? name = some b →
      s.find? name = some b ∨ R.HasValue h.objects.size b.value) :
    R.Confined (h.withScope j f) := by
  have hsize : (h.withScope j f).scopes.size = h.scopes.size := Array.size_modify
  refine ⟨hc.size_objects, hsize ▸ hc.size_scopes, hc.same_objects, fun i hi hout => ?_,
    fun id o hid ho => ?_, fun i o s hi hs ho => ?_, fun i s name b hi hs hb => ?_⟩
  · have hne : j ≠ i := by
      rintro rfl
      exact hj.elim hout fun ⟨hlo, _⟩ => Nat.not_lt_of_le hlo hi
    rw [Heap.scopes_withScope, if_neg hne]
    exact hc.same_scopes i hi hout
  · exact object_mono (h := h) (Nat.le_refl _) (Nat.le_of_eq hsize.symm) (hc.objects id o hid ho)
  · rw [hsize] at hi ⊢
    rcases Heap.scope_of_withScope hs with hs | ⟨s, hget, rfl⟩
    · exact hc.outer i o s hi hs ho
    · exact hc.outer i o s hi hget ((houter s).symm.trans ho)
  · rw [hsize] at hi
    rcases Heap.scope_of_withScope hs with hs | ⟨s, hget, rfl⟩
    · exact hc.bindings i s name b hi hs hb
    · exact (hf s name b hb).elim (hc.bindings i s name b hi hget) fun hv => hv

def discipline (R : Region) : Discipline where
  good := R.Confined
  value h := R.HasValue h.objects.size
  scope h := R.HasScope h.scopes.size
  home h := R.HasScope h.scopes.size
  value_mono hg := value_mono hg.size_objects _
  scope_mono hg := scope_mono hg.size_scopes
  home_mono hg := scope_mono hg.size_scopes
  home_scope hi := hi
  direct {_ v} hv := by
    cases v with
    | int _ | bool _ | null => trivial
    | _ => exact hv.elim
  unwrap hv := hv
  outer hc hi hs ho := hc.outer _ _ _ hi hs ho
  binding hc hi hb := by
    obtain ⟨s, hs, hb⟩ := Option.bind_eq_some_iff.mp hb
    exact hc.bindings _ s _ _ hi hs hb
  inside {_ v _} hc hv ho := by
    cases v with
    | object id => exact hc.objects id _ hv ho
    | _ => exact nomatch ho
  signals hc := hc.signals
  alloc hc ho _ := by
    refine ⟨hc.alloc ho, .inr ⟨hc.size_objects, ?_⟩⟩
    rw [Heap.alloc, Array.size_push]
    exact Nat.lt_succ_self _
  openScope hc ho := by
    refine ⟨hc.openScope ho, .inr ⟨hc.size_scopes, ?_⟩⟩
    rw [Heap.openScope, Array.size_push]
    exact Nat.lt_succ_self _
  declare hc hi hb _ := by
    refine hc.withScope hi (fun _ => rfl) fun s x b' hb' => ?_
    refine (Scope.of_find?_declare hb').imp_right ?_
    rintro rfl
    exact hb
  assign hc hi hv _ _ := by
    refine hc.withScope hi (fun _ => rfl) fun s x b' hb' => ?_
    refine (Scope.of_find?_assign hb').imp_right fun heq => ?_
    rwa [heq]
  modifyItems hc hid hitems hf := hc.modifyItems hid hitems hf

theorem Confined.reaches (hc : R.Confined h) {p : Place}
    (hp : Relation.ReflTransGen h.Leads (.value v) p) (hv : R.HasValue h.objects.size v) :
    match p with
    | .value w => R.HasValue h.objects.size w
    | .scope i => R.HasScope h.scopes.size i := by
  induction hp with
  | refl => exact hv
  | tail _ hstep ih =>
    cases hstep with
    | binding hb => exact R.discipline.binding hc ih hb
    | outer hs ho => exact hc.outer _ _ _ ih hs ho
    | captured ho => exact R.discipline.inside hc ih ho
    | item ho hx => exact R.discipline.inside hc ih ho _ hx
    | key ho he => exact (R.discipline.inside hc ih ho _ he).1
    | entry ho he => exact (R.discipline.inside hc ih ho _ he).2
    | wrapped => exact ih

end Region

/-- A call leaves every scope and every object as it was that the callee and the arguments did not
lead to, and what its result leads to is new or was in their reach before. -/
theorem apply_stays_in_reach (calls : Nat) (f : Value) (args : List Value) (h : Heap) :
    let r := apply calls f args h
    (∀ i < h.scopes.size, ¬ h.Reaches (f :: args) (.scope i) → r.2.scopes[i]? = h.scopes[i]?) ∧
    (∀ id < h.objects.size, ¬ h.Reaches (f :: args) (.value (.object id)) →
      r.2.objects[id]? = h.objects[id]?) ∧
    (∀ i, r.2.Reaches [r.1] (.scope i) →
      h.Reaches (f :: args) (.scope i) ∨ h.scopes.size ≤ i ∧ i < r.2.scopes.size) ∧
    ∀ id, r.2.Reaches [r.1] (.value (.object id)) →
      h.Reaches (f :: args) (.value (.object id)) ∨
        h.objects.size ≤ id ∧ id < r.2.objects.size := by
  let R := Region.reached h (f :: args)
  have hvalue : ∀ v ∈ f :: args, R.HasValue h.objects.size v := fun v hv =>
    Region.value_of_places v ⟨v, hv, .refl⟩
  obtain ⟨hf, hargs⟩ := List.forall_mem_cons.mp hvalue
  have hkept := Discipline.kept_apply (D := R.discipline) calls f args h R.confined_base hf hargs
  have hresult : R.HasValue (apply calls f args h).2.objects.size (apply calls f args h).1 := by
    have hr := hkept.result
    generalize (apply calls f args h).1 = v at hr ⊢
    cases v with
    | error _ _ => trivial
    | _ => exact hr
  refine ⟨hkept.good.same_scopes, hkept.good.same_objects, fun i hi => ?_, fun id hid => ?_⟩
  · obtain ⟨v, hv, hreach⟩ := hi
    obtain rfl := List.mem_singleton.mp hv
    exact hkept.good.reaches hreach hresult
  · obtain ⟨v, hv, hreach⟩ := hid
    obtain rfl := List.mem_singleton.mp hv
    exact hkept.good.reaches hreach hresult

end TinyScript
