import TinyScript.Builtin.Call
import TinyScript.Operation
import TinyScript.Scope

/-!
# Heaps without signals in them

Failures and returns are values like others, so they could end up in a variable, an array or a hash.
In a clean heap none did. Nothing that can be done to a heap makes it unclean as long as no signal
is put into it, and what is read from a clean heap is no signal.
-/

namespace TinyScript

abbrev Value.Plain (v : Value) : Prop := v.isInterrupt = false

def Object.Clean : Object → Prop
  | .array items => ∀ v ∈ items, v.Plain
  | .hash table => ∀ e ∈ table, e.key.Plain ∧ e.value.Plain
  | _ => True

def Scope.Clean (s : Scope) : Prop := ∀ b ∈ s.bindings, b.2.value.Plain

theorem Scope.Clean.declare {s : Scope} (hs : s.Clean) (hb : b.value.Plain) :
    (s.declare name b).Clean := List.forall_mem_cons.mpr ⟨hb, hs⟩

theorem Scope.Clean.assign {s : Scope} (hs : s.Clean) (hv : v.Plain) : (s.assign name v).Clean := by
  intro b hb
  obtain ⟨old, hold, rfl⟩ := List.mem_map.mp hb
  dsimp only
  split
  · exact hv
  · exact hs old hold

namespace Heap

structure Clean (h : Heap) : Prop where
  objects : ∀ (id : ObjectId) (o : Object), h.objects[id]? = some o → o.Clean
  scopes : ∀ (id : ScopeId) (s : Scope), h.scopes[id]? = some s → s.Clean

theorem clean_empty : empty.Clean := ⟨fun _ _ => nofun, fun _ _ => nofun⟩

-- ---------------------------------------------------------------------------
-- Reading
-- ---------------------------------------------------------------------------

section
variable {h : Heap}

theorem Clean.object? (hc : h.Clean) (ho : h.object? v = some o) : o.Clean := by
  cases v with
  | object id => exact hc.objects id o ho
  | _ => exact nomatch ho

theorem Clean.binding? (hc : h.Clean) (hb : h.binding? name scope = some b) : b.value.Plain := by
  obtain ⟨s, hs, hb⟩ := Option.bind_eq_some_iff.mp hb
  obtain ⟨before, after, hsplit, -⟩ := List.lookup_eq_some_iff.mp hb
  exact hc.scopes scope s hs (name, b) (hsplit ▸ List.mem_append_right _ List.mem_cons_self)

theorem Clean.lookup (hc : h.Clean) (hv : h.lookup scope name = some v) : v.Plain := by
  obtain ⟨b, hb, rfl⟩ := Option.map_eq_some_iff.mp hv
  obtain ⟨i, -, hi⟩ := List.exists_of_findSome?_eq_some hb
  exact hc.binding? hi

theorem find?_plain (ht : (Object.hash t).Clean) (hv : Table.find? t k = some v) :
    v.Plain := by
  obtain ⟨e, he, rfl⟩ := Option.map_eq_some_iff.mp hv
  exact (ht e (List.mem_of_find?_eq_some he)).2

-- ---------------------------------------------------------------------------
-- Changing
-- ---------------------------------------------------------------------------

theorem Clean.signals (hc : h.Clean) (n : Nat) : Clean { h with signals := n } :=
  ⟨hc.objects, hc.scopes⟩

theorem object_of_alloc {id : ObjectId} {o o' : Object}
    (ho : (h.alloc o).2.objects[id]? = some o') :
    o' = o ∨ h.objects[id]? = some o' := by
  rw [Heap.alloc, Array.getElem?_push] at ho
  split at ho
  · exact .inl (Option.some.inj ho).symm
  · exact .inr ho

theorem object_of_modifyItems {i id : ObjectId} {f : Array Value → Array Value} {o : Object}
    (ho : (h.modifyItems i f).objects[id]? = some o) :
    (∃ items, h.objects[i]? = some (.array items) ∧ o = .array (f items)) ∨
      h.objects[id]? = some o := by
  rw [Heap.modifyItems, Array.getElem?_modify] at ho
  split at ho
  · rename_i heq
    obtain ⟨o, hget, rfl⟩ := Option.map_eq_some_iff.mp ho
    cases o with
    | array items => exact .inl ⟨items, heq ▸ hget, rfl⟩
    | _ => exact .inr hget
  · exact .inr ho

theorem scope_of_openScope {i : ScopeId} {s : Scope}
    (hs : (h.openScope outer).2.scopes[i]? = some s) :
    s = ⟨[], outer⟩ ∨ h.scopes[i]? = some s := by
  rw [Heap.openScope, Array.getElem?_push] at hs
  split at hs
  · exact .inl (Option.some.inj hs).symm
  · exact .inr hs

theorem Clean.alloc (hc : h.Clean) (ho : o.Clean) : (h.alloc o).2.Clean := by
  refine ⟨fun id o' ho' => ?_, hc.scopes⟩
  rcases object_of_alloc ho' with rfl | ho'
  · exact ho
  · exact hc.objects id o' ho'

theorem Clean.modifyArray {f : Array Value → Array Value} {i : ObjectId} (hc : h.Clean)
    (hf : ∀ items, h.objects[i]? = some (.array items) → ∀ v ∈ f items, v.Plain) :
    (h.modifyItems i f).Clean := by
  refine ⟨fun id o ho => ?_, hc.scopes⟩
  rcases object_of_modifyItems ho with ⟨items, hitems, rfl⟩ | ho
  · exact hf items hitems
  · exact hc.objects id o ho

theorem Clean.modifyItems {f : Array Value → Array Value} (hc : h.Clean)
    (hf : ∀ items, (∀ v ∈ items, v.Plain) → ∀ v ∈ f items, v.Plain) (i : ObjectId) :
    (h.modifyItems i f).Clean :=
  hc.modifyArray fun items hitems => hf items (hc.objects i _ hitems)

theorem Clean.openScope (hc : h.Clean) : (h.openScope outer).2.Clean := by
  refine ⟨hc.objects, fun id s hs => ?_⟩
  rcases scope_of_openScope hs with rfl | hs
  · exact nofun
  · exact hc.scopes id s hs

theorem Clean.modifyScope {f : Scope → Scope} (hc : h.Clean) (hf : ∀ s, s.Clean → (f s).Clean)
    (i : ScopeId) : Clean { h with scopes := h.scopes.modify i f } := by
  refine ⟨hc.objects, fun id s hs => ?_⟩
  rw [Array.getElem?_modify] at hs
  split at hs
  · obtain ⟨s, hget, rfl⟩ := Option.map_eq_some_iff.mp hs
    exact hf s (hc.scopes id s hget)
  · exact hc.scopes id s hs

theorem Clean.declare (hc : h.Clean) (hb : b.value.Plain) : (h.declare scope name b).2.Clean := by
  unfold Heap.declare
  split
  · exact hc
  · exact hc.modifyScope (fun s hs => hs.declare hb) scope

theorem Clean.assign (hc : h.Clean) (hv : v.Plain) : (h.assign scope name v).2.Clean := by
  unfold Heap.assign
  split
  · exact hc
  · split
    · exact hc.modifyScope (fun s hs => hs.assign hv) _
    · exact hc

end

end Heap

theorem Table.mem_insert {t : Table} (h : e ∈ t.insert new) : e = new ∨ e ∈ t := by
  induction t with
  | nil => exact .inl (List.mem_singleton.mp h)
  | cons e' t ih =>
    rw [Table.insert] at h
    split at h
    · exact (List.mem_cons.mp h).imp id (List.mem_cons_of_mem _)
    split at h
    · exact List.mem_cons.mp h
    · rcases List.mem_cons.mp h with rfl | h
      · exact .inr List.mem_cons_self
      · exact (ih h).imp id (List.mem_cons_of_mem _)

end TinyScript
