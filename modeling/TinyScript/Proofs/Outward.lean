import Mathlib.Data.List.Perm.Subperm
import TinyScript.Proofs.Evaluation

/-!
# The way outward

From each scope of a grounded heap the outer scopes lead to one that has none. There are as many
scopes on that way as `Heap.chain` visits: none comes twice, so the heap has enough of them. What an
evaluation does to a heap keeps it grounded, for a new scope lies in one that is there already.
-/

theorem List.findSome?_eq_bind_find? (f : α → Option β) (xs : List α) :
    xs.findSome? f = (xs.find? fun x => (f x).isSome).bind f := by
  induction xs with
  | nil => rfl
  | cons x xs ih => cases hx : f x <;> simp [hx, ih]

namespace TinyScript.Heap

inductive Outward (h : Heap) : ScopeId → List ScopeId → Prop
  | last : h.scopes[i]? = some s → s.outer = none → Outward h i [i]
  | next : h.scopes[i]? = some s → s.outer = some o → Outward h o is → Outward h i (i :: is)

/-- Every scope has a way outward that ends, and every function lies in a scope that is there. -/
structure Grounded (h : Heap) : Prop where
  outward : ∀ i < h.scopes.size, ∃ is, h.Outward i is
  functions : ∀ (id : ObjectId) (params : List String) (body : Block) (scope : ScopeId),
    h.objects[id]? = some (.function params body scope) → scope < h.scopes.size

-- ---------------------------------------------------------------------------
-- Chains
-- ---------------------------------------------------------------------------

section
variable {h : Heap}

theorem Outward.unique (hi : h.Outward i is) (hi' : h.Outward i js) : is = js := by
  induction hi generalizing js with
  | last hs ho =>
    cases hi' with
    | last _ _ => rfl
    | next hs' ho' _ =>
      obtain rfl := Option.some.inj (hs.symm.trans hs')
      exact nomatch ho.symm.trans ho'
  | next hs ho _ ih =>
    cases hi' with
    | last hs' ho' =>
      obtain rfl := Option.some.inj (hs.symm.trans hs')
      exact nomatch ho.symm.trans ho'
    | next hs' ho' hrest =>
      obtain rfl := Option.some.inj (hs.symm.trans hs')
      obtain rfl := Option.some.inj (ho.symm.trans ho')
      rw [ih hrest]

theorem lt_of_scope (hs : h.scopes[i]? = some s) : i < h.scopes.size := by
  obtain ⟨hi, -⟩ := Array.getElem?_eq_some_iff.mp hs
  exact hi

theorem Outward.mem (hi : h.Outward i is) (hj : j ∈ is) :
    j < h.scopes.size ∧ ∃ js, h.Outward j js ∧ js.length ≤ is.length := by
  induction hi with
  | last hs ho =>
    obtain rfl := List.mem_singleton.mp hj
    exact ⟨lt_of_scope hs, _, .last hs ho, Nat.le_refl _⟩
  | next hs ho hrest ih =>
    rcases List.mem_cons.mp hj with rfl | hj
    · exact ⟨lt_of_scope hs, _, .next hs ho hrest, Nat.le_refl _⟩
    · obtain ⟨hlt, js, hjs, hlen⟩ := ih hj
      exact ⟨hlt, js, hjs, Nat.le_succ_of_le hlen⟩

theorem Outward.nodup (hi : h.Outward i is) : is.Nodup := by
  induction hi with
  | last _ _ => exact List.nodup_cons.mpr ⟨List.not_mem_nil, List.nodup_nil⟩
  | next hs ho hrest ih =>
    refine List.nodup_cons.mpr ⟨fun hmem => ?_, ih⟩
    -- its way from there would be shorter than the same way from here
    obtain ⟨-, js, hjs, hlen⟩ := hrest.mem hmem
    rw [hjs.unique (.next hs ho hrest)] at hlen
    exact Nat.not_succ_le_self _ hlen

theorem Outward.length_le (hi : h.Outward i is) : is.length ≤ h.scopes.size := by
  have hsub : is ⊆ List.range h.scopes.size := fun j hj => List.mem_range.mpr (hi.mem hj).1
  have hle := (hi.nodup.subperm hsub).length_le
  rwa [List.length_range] at hle

theorem Outward.chainUpTo (hi : h.Outward i is) (hn : is.length ≤ n) : h.chainUpTo n i = is := by
  induction hi generalizing n with
  | @last i s hs ho =>
    obtain ⟨bindings, outer⟩ := s
    obtain rfl : outer = none := ho
    obtain ⟨n, rfl⟩ := Nat.exists_eq_add_one_of_ne_zero (Nat.ne_of_gt hn)
    simp only [Heap.chainUpTo, hs]
  | @next i s o is hs ho _ ih =>
    obtain ⟨bindings, outer⟩ := s
    obtain rfl : outer = some o := ho
    obtain ⟨n, rfl⟩ := Nat.exists_eq_add_one_of_ne_zero (Nat.ne_of_gt (Nat.zero_lt_of_lt hn))
    simp only [Heap.chainUpTo, hs, ih (Nat.le_of_succ_le_succ hn)]

/-- The scopes that a name is looked up in are those on the way outward, all of them. -/
theorem Outward.chain (hi : h.Outward i is) : h.chain i = is := hi.chainUpTo hi.length_le

-- ---------------------------------------------------------------------------
-- What leaves scopes and functions alone
-- ---------------------------------------------------------------------------

structure Still (h h' : Heap) : Prop where
  scopes : h'.scopes = h.scopes
  functions : ∀ (id : ObjectId) (params : List String) (body : Block) (scope : ScopeId),
    h'.objects[id]? = some (.function params body scope) →
      h.objects[id]? = some (.function params body scope)

theorem Still.refl : Still h h := ⟨rfl, fun _ _ _ _ => id⟩

theorem still_raise (fault : Fault) : Still h (h.raise fault).2 := ⟨rfl, fun _ _ _ _ => id⟩

theorem still_alloc (ho : ∀ params body scope, o ≠ .function params body scope) :
    Still h (h.alloc o).2 := by
  refine ⟨rfl, fun id params body scope hid => ?_⟩
  rw [alloc, Array.getElem?_push] at hid
  split at hid
  · exact absurd (Option.some.inj hid) (ho params body scope)
  · exact hid

theorem still_modifyItems (i : ObjectId) (f : Array Value → Array Value) :
    Still h (h.modifyItems i f) := by
  refine ⟨rfl, fun id params body scope hid => ?_⟩
  rw [modifyItems, Array.getElem?_modify] at hid
  split at hid
  · obtain ⟨o, ho, hmap⟩ := Option.map_eq_some_iff.mp hid
    cases o with
    | function _ _ _ => exact ho.trans (congrArg some hmap)
    | _ => exact absurd hmap nofun
  · exact hid

theorem Answer.still (hr : h.Answer r) : Still h r.2 := by
  cases hr with
  | value _ => exact .refl
  | string _ => exact still_alloc fun _ _ _ => nofun
  | failure fault => exact still_raise fault

theorem still_onArray (b : Builtin) (id : ObjectId) (items : Array Value) (extra : List Value) :
    Still h (b.onArray id items extra h).2 := by
  cases b
  case push | pushleft => exact still_modifyItems _ _
  case pop | popleft =>
    rw [Builtin.onArray]
    split
    · exact .refl
    · exact still_modifyItems _ _
  all_goals exact .refl

theorem still_builtin (b : Builtin) (args : List Value) : Still h (b.call args h).2 := by
  unfold Builtin.call
  split
  · exact still_raise _
  split
  · split
    · exact still_onArray _ _ _ _
    · exact .refl
    · exact still_raise _
  · exact still_raise _

-- ---------------------------------------------------------------------------
-- What keeps a heap grounded
-- ---------------------------------------------------------------------------

def Keeps (h h' : Heap) : Prop :=
  ∀ (i : ScopeId) (s : Scope), h.scopes[i]? = some s →
    ∃ s' : Scope, h'.scopes[i]? = some s' ∧ s'.outer = s.outer

theorem Outward.keep {h' : Heap} (hkeep : h.Keeps h') (hi : h.Outward i is) : h'.Outward i is := by
  induction hi with
  | last hs ho =>
    obtain ⟨s', hs', heq⟩ := hkeep _ _ hs
    exact .last hs' (heq.trans ho)
  | next hs ho _ ih =>
    obtain ⟨s', hs', heq⟩ := hkeep _ _ hs
    exact .next hs' (heq.trans ho) ih

theorem Grounded.still {h' : Heap} (hg : h.Grounded) (hs : Still h h') : h'.Grounded := by
  have hkeep : h.Keeps h' := fun i s hi => ⟨s, hs.scopes ▸ hi, rfl⟩
  refine ⟨fun i hi => ?_, fun id params body scope hid => ?_⟩
  · obtain ⟨is, his⟩ := hg.outward i (hs.scopes ▸ hi)
    exact ⟨is, his.keep hkeep⟩
  · rw [hs.scopes]
    exact hg.functions id params body scope (hs.functions _ _ _ _ hid)

theorem Grounded.allocFunction (hg : h.Grounded) (hscope : scope < h.scopes.size) :
    (h.alloc (.function params body scope)).2.Grounded := by
  have hkeep : h.Keeps (h.alloc (.function params body scope)).2 := fun i s hi => ⟨s, hi, rfl⟩
  refine ⟨fun i hi => ?_, fun id params' body' scope' hid => ?_⟩
  · obtain ⟨is, his⟩ := hg.outward i hi
    exact ⟨is, his.keep hkeep⟩
  · rw [alloc, Array.getElem?_push] at hid
    split at hid
    · cases hid
      exact hscope
    · exact hg.functions id params' body' scope' hid

theorem grounded_empty : Heap.empty.Grounded := ⟨nofun, nofun⟩

theorem Grounded.openScope (hg : h.Grounded) (ho : ∀ o ∈ outer, o < h.scopes.size) :
    (h.openScope outer).2.Grounded := by
  have hkeep : h.Keeps (h.openScope outer).2 := by
    intro i s hi
    have hne : i ≠ h.scopes.size := Nat.ne_of_lt (lt_of_scope hi)
    exact ⟨s, by rw [Heap.openScope, Array.getElem?_push, if_neg hne, hi], rfl⟩
  refine ⟨fun i hi => ?_, fun id params body scope hid => ?_⟩
  · rw [Heap.openScope, Array.size_push] at hi
    rcases Nat.lt_succ_iff_lt_or_eq.mp hi with hlt | rfl
    · obtain ⟨is, his⟩ := hg.outward i hlt
      exact ⟨is, his.keep hkeep⟩
    · cases outer with
      | none => exact ⟨_, .last Array.getElem?_push_size rfl⟩
      | some o =>
        obtain ⟨is, his⟩ := hg.outward o (ho o rfl)
        exact ⟨_, .next Array.getElem?_push_size rfl (his.keep hkeep)⟩
  · rw [Heap.openScope, Array.size_push]
    exact Nat.lt_succ_of_lt (hg.functions id params body scope hid)

theorem Grounded.object? (hg : h.Grounded)
    (hf : h.object? f = some (.function params body scope)) : scope < h.scopes.size := by
  cases f with
  | object id => exact hg.functions id params body scope hf
  | _ => exact nomatch hf

theorem Grounded.modifyScope {f : Scope → Scope} (hf : ∀ s, (f s).outer = s.outer) (hg : h.Grounded)
    (i : ScopeId) : Grounded { h with scopes := h.scopes.modify i f } := by
  have hkeep : h.Keeps { h with scopes := h.scopes.modify i f } := by
    intro j s hj
    by_cases hij : i = j
    · exact ⟨f s, by rw [Array.getElem?_modify, if_pos hij, hj]; rfl, hf s⟩
    · exact ⟨s, by rw [Array.getElem?_modify, if_neg hij, hj], rfl⟩
  refine ⟨fun j hj => ?_, fun id params body scope hid => ?_⟩
  · rw [Array.size_modify] at hj
    obtain ⟨is, his⟩ := hg.outward j hj
    exact ⟨is, his.keep hkeep⟩
  · rw [Array.size_modify]
    exact hg.functions id params body scope hid

theorem Grounded.declare (hg : h.Grounded) (scope : ScopeId) (name : String) (b : Binding) :
    (h.declare scope name b).2.Grounded := by
  unfold Heap.declare
  split
  · exact hg
  · exact hg.modifyScope (f := fun s => s.declare name b) (fun _ => rfl) scope

theorem size_declare (h : Heap) (scope : ScopeId) (name : String) (b : Binding) :
    (h.declare scope name b).2.scopes.size = h.scopes.size := by
  unfold Heap.declare
  split
  · rfl
  · exact Array.size_modify

theorem Grounded.bindParams (hg : h.Grounded) (scope : ScopeId) (ps : List (String × Value)) :
    (h.bindParams scope ps).2.Grounded ∧ (h.bindParams scope ps).2.scopes.size = h.scopes.size := by
  refine Heap.bindParams_keeps (P := fun h' => h'.Grounded ∧ h'.scopes.size = h.scopes.size) ps ?_
    ⟨hg, rfl⟩
  rintro ⟨name, v⟩ - h' ⟨hg, hsize⟩
  exact ⟨hg.declare scope name _, (size_declare h' scope name _).trans hsize⟩

end

end TinyScript.Heap
