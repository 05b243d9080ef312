import TinyScript.Proofs.Storage

/-!
# The order of creation

A scope lies in an older one, and a hash holds older objects only: what it holds was there when it
was made, and it is never changed. Of all objects only arrays can come to hold newer ones. So it is
at every moment of a session (`Session.backward_state`).
-/

namespace TinyScript

def Value.OlderThan (n : ObjectId) : Value → Prop
  | .object id => id < n
  | .returned _ v => v.OlderThan n
  | _ => True

theorem Value.OlderThan.mono {v : Value} (hle : m ≤ n) (hv : v.OlderThan m) : v.OlderThan n := by
  match v with
  | .object _ => exact Nat.lt_of_lt_of_le hv hle
  | .returned _ v => exact OlderThan.mono (v := v) hle hv
  | .int _ | .bool _ | .null | .error _ _ => trivial

namespace Heap

def Holds (h : Heap) (o : Object) : Prop :=
  o.Within (·.OlderThan h.objects.size) (· < h.scopes.size)

/-- Outer scopes and the objects in hashes are older. -/
structure Backward (h : Heap) : Prop where
  objects : ∀ (id : ObjectId) (o : Object), h.objects[id]? = some o → h.Holds o
  hashes : ∀ (id : ObjectId) (t : Table), h.objects[id]? = some (.hash t) →
    ∀ e ∈ t, e.key.OlderThan id ∧ e.value.OlderThan id
  outer : ∀ (i o : ScopeId) (s : Scope), h.scopes[i]? = some s → s.outer = some o → o < i
  bindings : ∀ (i : ScopeId) (s : Scope) (name : String) (b : Binding), h.scopes[i]? = some s →
    s.find? name = some b → b.value.OlderThan h.objects.size

theorem backward_empty : empty.Backward :=
  ⟨fun _ _ => nofun, fun _ _ => nofun, fun _ _ _ => nofun, fun _ _ _ _ => nofun⟩

section
variable {h h' : Heap} {o : Object}

theorem Holds.mono (hobjects : h.objects.size ≤ h'.objects.size)
    (hscopes : h.scopes.size ≤ h'.scopes.size) (ho : h.Holds o) : h'.Holds o :=
  ho.imp (fun _ hv => hv.mono hobjects) fun _ hi => Nat.lt_of_lt_of_le hi hscopes

theorem Backward.alloc (hh : h.Backward) (ho : h.Holds o) : (h.alloc o).2.Backward := by
  have hsize : h.objects.size ≤ (h.alloc o).2.objects.size := (h.grows_alloc o).size_objects
  refine ⟨fun id o' ho' => ?_, fun id t ht e he => ?_, hh.outer, fun i s name b hs hb => ?_⟩
  · refine Holds.mono (h := h) hsize (Nat.le_refl _) ?_
    rcases object_of_alloc ho' with rfl | ho'
    · exact ho
    · exact hh.objects id o' ho'
  · rw [Heap.alloc, Array.getElem?_push] at ht
    split at ht
    · -- the new hash: what it holds was there before
      rename_i hid
      obtain rfl := Option.some.inj ht
      exact hid ▸ ho e he
    · exact hh.hashes id t ht e he
  · exact (hh.bindings i s name b hs hb).mono hsize

theorem Backward.modifyItems {items : Array Value} {f : Array Value → Array Value} {i : ObjectId}
    (hh : h.Backward) (hitems : h.objects[i]? = some (.array items))
    (hf : ∀ v ∈ f items, v.OlderThan h.objects.size) : (h.modifyItems i f).Backward := by
  have hsize : h.objects.size ≤ (h.modifyItems i f).objects.size :=
    (h.grows_modifyItems i f).size_objects
  refine ⟨fun id o ho => ?_, fun id t ht => ?_, hh.outer, fun i s name b hs hb => ?_⟩
  · refine Holds.mono (h := h) hsize (Nat.le_refl _) ?_
    rcases object_of_modifyItems ho with ⟨items', hitems', rfl⟩ | ho
    · obtain rfl := Object.array.inj (Option.some.inj (hitems.symm.trans hitems'))
      exact hf
    · exact hh.objects id o ho
  · rcases object_of_modifyItems ht with ⟨_, _, hne⟩ | ht
    · exact nomatch hne
    · exact hh.hashes id t ht
  · exact (hh.bindings i s name b hs hb).mono hsize

theorem Backward.openScope {outer : Option ScopeId} (hh : h.Backward)
    (ho : ∀ o ∈ outer, o < h.scopes.size) : (h.openScope outer).2.Backward := by
  refine ⟨fun id o ho => ?_, hh.hashes, fun i o s hs hout => ?_, fun i s name b hs hb => ?_⟩
  · have hsize := (h.grows_openScope outer).size_scopes
    exact Holds.mono (h := h) (Nat.le_refl _) hsize (hh.objects id o ho)
  · rw [Heap.openScope, Array.getElem?_push] at hs
    split at hs
    · rename_i hi
      obtain rfl := Option.some.inj hs
      exact hi ▸ ho o hout
    · exact hh.outer i o s hs hout
  · rcases scope_of_openScope hs with rfl | hs
    · exact nomatch hb
    · exact hh.bindings i s name b hs hb

theorem Backward.withScope {f : Scope → Scope} {j : ScopeId} (hh : h.Backward)
    (houter : ∀ s, (f s).outer = s.outer)
    (hf : ∀ s name b, (f s).find? name = some b →
      s.find? name = some b ∨ b.value.OlderThan h.objects.size) : (h.withScope j f).Backward := by
  have hsize : (h.withScope j f).scopes.size = h.scopes.size := Array.size_modify
  refine ⟨fun id o ho => ?_, hh.hashes, fun i o s hs ho => ?_, fun i s name b hs hb => ?_⟩
  · exact Holds.mono (h := h) (Nat.le_refl _) (Nat.le_of_eq hsize.symm) (hh.objects id o ho)
  · rcases scope_of_withScope hs with hs | ⟨s, hs', rfl⟩
    · exact hh.outer i o s hs ho
    · exact hh.outer i o s hs' ((houter s).symm.trans ho)
  · rcases scope_of_withScope hs with hs | ⟨s, hs', rfl⟩
    · exact hh.bindings i s name b hs hb
    · exact (hf s name b hb).elim (hh.bindings i s name b hs') fun hv => hv

end

end Heap

/-- What a heap has leads back in the order of creation. -/
def creationOrder : Discipline where
  good := Heap.Backward
  value h v := v.OlderThan h.objects.size
  scope h i := i < h.scopes.size
  home h i := i < h.scopes.size
  value_mono hg hv := hv.mono hg.size_objects
  scope_mono hg hi := Nat.lt_of_lt_of_le hi hg.size_scopes
  home_mono hg hi := Nat.lt_of_lt_of_le hi hg.size_scopes
  home_scope hi := hi
  direct {_ v} hv := by
    cases v with
    | int _ | bool _ | null => trivial
    | _ => exact hv.elim
  unwrap hv := hv
  outer hh hi hs ho := Nat.lt_trans (hh.outer _ _ _ hs ho) hi
  binding hh _ hb := by
    obtain ⟨s, hs, hb⟩ := Option.bind_eq_some_iff.mp hb
    exact hh.bindings _ s _ _ hs hb
  inside {_ v _} hh _ ho := by
    cases v with
    | object id => exact hh.objects id _ ho
    | _ => exact nomatch ho
  signals hh := ⟨hh.objects, hh.hashes, hh.outer, hh.bindings⟩
  alloc {h o} hh ho _ := by
    refine ⟨hh.alloc ho, ?_⟩
    rw [Heap.alloc, Array.size_push]
    exact Nat.lt_succ_self _
  openScope {h o} hh ho := by
    refine ⟨hh.openScope fun o' ho' => Option.some.inj ho' ▸ ho, ?_⟩
    rw [Heap.openScope, Array.size_push]
    exact Nat.lt_succ_self _
  declare hh _ hb _ := by
    refine hh.withScope (fun _ => rfl) fun s x b' hb' => ?_
    refine (Scope.of_find?_declare hb').imp_right ?_
    rintro rfl
    exact hb
  assign hh _ hv _ _ := by
    refine hh.withScope (fun _ => rfl) fun s x b' hb' => ?_
    refine (Scope.of_find?_assign hb').imp_right fun heq => ?_
    rwa [heq]
  modifyItems hh _ hitems hf := hh.modifyItems hitems hf

namespace Session

structure Backward (s : Session) : Prop where
  heap : s.heap.Backward
  scope : s.scope < s.heap.scopes.size

theorem backward_start : start.Backward := ⟨Heap.backward_empty.openScope nofun, Nat.zero_lt_one⟩

theorem Backward.run {s : Session} (hs : s.Backward) (p : Program) : (s.run p).2.Backward :=
  have hkept := Discipline.kept_evalAt (D := creationOrder) 0 p hs.heap hs.scope
  ⟨hkept.good, Nat.lt_of_lt_of_le hs.scope hkept.grows.size_scopes⟩

theorem backward_after (ps : List Program) : (start.after ps).Backward := by
  suffices ∀ s : Session, s.Backward → (s.after ps).Backward from this _ backward_start
  induction ps with
  | nil => exact fun s hs => hs
  | cons p ps ih => exact fun s hs => ih _ (hs.run p)

theorem backward_state (ps : List Program) (p : Program) (n : Nat) :
    let s := start.after ps
    (Machine.run n (Machine.start 0 s.scope p s.heap)).heap.Backward := by
  have hs := backward_after ps
  exact ((Discipline.kept_start (D := creationOrder) p hs.heap hs.scope).run n).good

end Session

end TinyScript
