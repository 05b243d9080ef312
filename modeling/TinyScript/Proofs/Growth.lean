import TinyScript.Eval

/-!
# What stays of a heap

Nothing is ever removed from a heap. A scope keeps its place, the scope around it and its names; a
fixed name keeps its value, and a variable stays one. An object stays what it is, but for the
elements of an array. `Heap.Grows` is all of this for two heaps of which one came after the other,
and every operation on a heap makes it grow.
-/

namespace TinyScript

def Binding.Becomes (b b' : Binding) : Prop :=
  b'.mutability = b.mutability ∧ (b.mutability = .fixed → b'.value = b.value)

structure Scope.Grows (s s' : Scope) : Prop where
  outer : s'.outer = s.outer
  bindings : ∀ (name : String) (b : Binding), s.find? name = some b →
    ∃ b', s'.find? name = some b' ∧ b.Becomes b'

inductive Object.Becomes : Object → Object → Prop
  | same : Becomes o o
  | items : Becomes (.array xs) (.array ys)

structure Heap.Grows (h h' : Heap) : Prop where
  scopes : ∀ (i : ScopeId) (s : Scope), h.scopes[i]? = some s →
    ∃ s', h'.scopes[i]? = some s' ∧ s.Grows s'
  objects : ∀ (id : ObjectId) (o : Object), h.objects[id]? = some o →
    ∃ o', h'.objects[id]? = some o' ∧ o.Becomes o'

-- ---------------------------------------------------------------------------
-- One scope
-- ---------------------------------------------------------------------------

namespace Scope

theorem find?_declare (s : Scope) (name x : String) (b : Binding) :
    (s.declare name b).find? x = if x = name then some b else s.find? x := by
  simp only [find?, declare, List.lookup_cons]
  split <;> simp_all

theorem find?_assign (s : Scope) (name x : String) (v : Value) :
    (s.assign name v).find? x =
      (s.find? x).map fun b => if x = name then { b with value := v } else b := by
  obtain ⟨bindings, outer⟩ := s
  simp only [find?, assign]
  induction bindings with
  | nil => rfl
  | cons p bindings ih =>
    obtain ⟨n, b⟩ := p
    simp only [List.map_cons, List.lookup_cons]
    by_cases hx : x = n
    · subst hx
      simp
    · simp only [beq_false_of_ne hx, ih]

theorem of_find?_declare {s : Scope} {b b' : Binding}
    (hb : (s.declare name b).find? x = some b') : s.find? x = some b' ∨ b' = b := by
  rw [find?_declare] at hb
  split at hb
  · exact .inr (Option.some.inj hb).symm
  · exact .inl hb

theorem of_find?_assign {s : Scope} {b : Binding} (hb : (s.assign name v).find? x = some b) :
    s.find? x = some b ∨ b.value = v := by
  rw [find?_assign] at hb
  obtain ⟨old, hold, rfl⟩ := Option.map_eq_some_iff.mp hb
  split
  · exact .inr rfl
  · exact .inl hold

theorem Grows.refl (s : Scope) : s.Grows s := ⟨rfl, fun _ b hb => ⟨b, hb, rfl, fun _ => rfl⟩⟩

theorem Grows.trans {s s' s'' : Scope} (h : s.Grows s') (h' : s'.Grows s'') : s.Grows s'' := by
  refine ⟨h'.outer.trans h.outer, fun name b hb => ?_⟩
  obtain ⟨b', hb', hm, hv⟩ := h.bindings name b hb
  obtain ⟨b'', hb'', hm', hv'⟩ := h'.bindings name b' hb'
  exact ⟨b'', hb'', hm'.trans hm, fun hf => (hv' (hm.trans hf)).trans (hv hf)⟩

theorem grows_declare {s : Scope} (hnew : s.find? name = none) (b : Binding) :
    s.Grows (s.declare name b) := by
  refine ⟨rfl, fun x b' hb' => ⟨b', ?_, rfl, fun _ => rfl⟩⟩
  have hx : x ≠ name := by
    rintro rfl
    exact nomatch hnew.symm.trans hb'
  rw [find?_declare, if_neg hx, hb']

theorem grows_assign {s : Scope} (hb : s.find? name = some b) (hm : b.mutability = .mutable)
    (v : Value) : s.Grows (s.assign name v) := by
  refine ⟨rfl, fun x b' hb' => ?_⟩
  rw [find?_assign, hb']
  by_cases hx : x = name
  · subst hx
    obtain rfl := Option.some.inj (hb.symm.trans hb')
    refine ⟨{ b with value := v }, by simp, rfl, fun hf => ?_⟩
    exact nomatch hm.symm.trans hf
  · exact ⟨b', by simp [hx], rfl, fun _ => rfl⟩

@[simp] theorem names_assign (s : Scope) (name : String) (v : Value) :
    (s.assign name v).names = s.names := by
  simp [names, assign, Function.comp_def]

end Scope

-- ---------------------------------------------------------------------------
-- Growing
-- ---------------------------------------------------------------------------

theorem Object.Becomes.trans {o o' o'' : Object} (h : o.Becomes o') (h' : o'.Becomes o'') :
    o.Becomes o'' := by
  cases h with
  | same => exact h'
  | items =>
    cases h' with
    | same => exact .items
    | items => exact .items

namespace Heap

section
variable {h h' h'' : Heap}

theorem Grows.refl (h : Heap) : h.Grows h :=
  ⟨fun _ s hs => ⟨s, hs, .refl s⟩, fun _ o ho => ⟨o, ho, .same⟩⟩

theorem Grows.trans (hg : h.Grows h') (hg' : h'.Grows h'') : h.Grows h'' := by
  constructor
  · intro i s hs
    obtain ⟨s', hs', hbecomes⟩ := hg.scopes i s hs
    obtain ⟨s'', hs'', hbecomes'⟩ := hg'.scopes i s' hs'
    exact ⟨s'', hs'', hbecomes.trans hbecomes'⟩
  · intro id o ho
    obtain ⟨o', ho', hbecomes⟩ := hg.objects id o ho
    obtain ⟨o'', ho'', hbecomes'⟩ := hg'.objects id o' ho'
    exact ⟨o'', ho'', hbecomes.trans hbecomes'⟩

theorem Grows.size_objects (hg : h.Grows h') : h.objects.size ≤ h'.objects.size := by
  refine Nat.le_of_not_lt fun hlt => ?_
  obtain ⟨o', ho', -⟩ := hg.objects _ _ (Array.getElem?_eq_getElem hlt)
  obtain ⟨hlt', -⟩ := Array.getElem?_eq_some_iff.mp ho'
  exact Nat.lt_irrefl _ hlt'

theorem Grows.size_scopes (hg : h.Grows h') : h.scopes.size ≤ h'.scopes.size := by
  refine Nat.le_of_not_lt fun hlt => ?_
  obtain ⟨s', hs', -⟩ := hg.scopes _ _ (Array.getElem?_eq_getElem hlt)
  obtain ⟨hlt', -⟩ := Array.getElem?_eq_some_iff.mp hs'
  exact Nat.lt_irrefl _ hlt'

theorem Grows.object? (hg : h.Grows h') (ho : h.object? v = some o)
    (hne : ∀ items, o ≠ .array items) : h'.object? v = some o := by
  cases v with
  | object id =>
    obtain ⟨o', ho', hbecomes⟩ := hg.objects id o ho
    cases hbecomes with
    | same => exact ho'
    | items => exact absurd rfl (hne _)
  | _ => exact nomatch ho

theorem Grows.hashKey? (hg : h.Grows h') (hk : h.hashKey? v = some k) : h'.hashKey? v = some k := by
  cases v with
  | object id =>
    obtain ⟨s, hs, rfl⟩ := Option.map_eq_some_iff.mp hk
    have ho' := hg.object? (string?_eq_some_iff.mp hs) fun _ => nofun
    rw [Heap.hashKey?, string?_eq_some_iff.mpr ho', Option.map_some] <;> nofun
  | int _ | bool _ => exact hk
  | _ => exact nomatch hk

-- ---------------------------------------------------------------------------
-- Operations
-- ---------------------------------------------------------------------------

theorem grows_signals (h : Heap) (n : Nat) : h.Grows { h with signals := n } :=
  ⟨fun _ s hs => ⟨s, hs, .refl s⟩, fun _ o ho => ⟨o, ho, .same⟩⟩

theorem grows_alloc (h : Heap) (o : Object) : h.Grows (h.alloc o).2 := by
  refine ⟨fun _ s hs => ⟨s, hs, .refl s⟩, fun id o' ho' => ⟨o', ?_, .same⟩⟩
  obtain ⟨hlt, -⟩ := Array.getElem?_eq_some_iff.mp ho'
  rw [alloc, Array.getElem?_push, if_neg (Nat.ne_of_lt hlt), ho']

theorem grows_modifyItems (h : Heap) (i : ObjectId) (f : Array Value → Array Value) :
    h.Grows (h.modifyItems i f) := by
  refine ⟨fun _ s hs => ⟨s, hs, .refl s⟩, fun id o ho => ?_⟩
  rw [modifyItems, Array.getElem?_modify, ho]
  split
  · refine ⟨o.mapItems f, rfl, ?_⟩
    cases o with
    | array _ => exact .items
    | _ => exact .same
  · exact ⟨o, rfl, .same⟩

theorem grows_openScope (h : Heap) (outer : Option ScopeId) : h.Grows (h.openScope outer).2 := by
  refine ⟨fun i s hs => ⟨s, ?_, .refl s⟩, fun _ o ho => ⟨o, ho, .same⟩⟩
  obtain ⟨hlt, -⟩ := Array.getElem?_eq_some_iff.mp hs
  rw [openScope, Array.getElem?_push, if_neg (Nat.ne_of_lt hlt), hs]

theorem binding?_openScope (h : Heap) (outer : Option ScopeId) (name : String) (i : ScopeId) :
    (h.openScope outer).2.binding? name i = h.binding? name i := by
  rw [binding?, binding?, openScope, Array.getElem?_push]
  split
  case isTrue hi =>
    rw [hi, Array.getElem?_eq_none (Nat.le_refl _)]
    rfl
  case isFalse => rfl

def withScope (h : Heap) (i : ScopeId) (f : Scope → Scope) : Heap :=
  { h with scopes := h.scopes.modify i f }

theorem scopes_withScope (h : Heap) (i j : ScopeId) (f : Scope → Scope) :
    (h.withScope i f).scopes[j]? = if i = j then h.scopes[j]?.map f else h.scopes[j]? :=
  Array.getElem?_modify

theorem scope_of_withScope {f : Scope → Scope} {i j : ScopeId} {s : Scope}
    (hs : (h.withScope j f).scopes[i]? = some s) :
    h.scopes[i]? = some s ∨ ∃ s', h.scopes[i]? = some s' ∧ s = f s' := by
  rw [scopes_withScope] at hs
  split at hs
  · obtain ⟨s', hs', rfl⟩ := Option.map_eq_some_iff.mp hs
    exact .inr ⟨s', hs', rfl⟩
  · exact .inl hs

theorem binding?_withScope (h : Heap) (i j : ScopeId) (name : String) (f : Scope → Scope) :
    (h.withScope i f).binding? name j =
      if i = j then h.scopes[j]?.bind fun s => (f s).find? name else h.binding? name j := by
  rw [binding?, scopes_withScope]
  split
  case isTrue => rw [Option.bind_map]; rfl
  case isFalse => rfl

theorem outer_withScope {f : Scope → Scope} (hf : ∀ s, (f s).outer = s.outer) (h : Heap)
    (i j : ScopeId) :
    (h.withScope i f).scopes[j]?.map Scope.outer = h.scopes[j]?.map Scope.outer := by
  rw [scopes_withScope]
  split
  case isTrue => rw [Option.map_map]; exact congrArg (Option.map · _) (funext hf)
  case isFalse => rfl

theorem chainUpTo_congr (houter : ∀ i : ScopeId,
      h'.scopes[i]?.map Scope.outer = h.scopes[i]?.map Scope.outer) (n : Nat) (i : ScopeId) :
    h'.chainUpTo n i = h.chainUpTo n i := by
  induction n generalizing i with
  | zero => rfl
  | succ n ih =>
    have hi := houter i
    simp only [chainUpTo, ih]
    cases hs : h.scopes[i]? with
    | none =>
      rw [hs, Option.map_none, Option.map_eq_none_iff] at hi
      rw [hi]
    | some s =>
      rw [hs, Option.map_some, Option.map_eq_some_iff] at hi
      obtain ⟨⟨bindings, outer⟩, hs', houter⟩ := hi
      obtain ⟨bindings', outer'⟩ := s
      obtain rfl : outer = outer' := houter
      rw [hs']
      cases outer <;> rfl

theorem grows_withScope {f : Scope → Scope} (hf : ∀ s, h.scopes[i]? = some s → s.Grows (f s)) :
    h.Grows (h.withScope i f) := by
  refine ⟨fun j s hs => ?_, fun _ o ho => ⟨o, ho, .same⟩⟩
  rw [scopes_withScope, hs]
  split
  · rename_i hij
    exact ⟨f s, rfl, hf s (hij ▸ hs)⟩
  · exact ⟨s, rfl, .refl s⟩

theorem binding?_eq_none (hb : h.binding? name i = none) (hs : h.scopes[i]? = some s) :
    s.find? name = none := by
  rwa [binding?, hs] at hb

theorem find?_of_binding? (hb : h.binding? name i = some b) (hs : h.scopes[i]? = some s) :
    s.find? name = some b := by
  rwa [binding?, hs] at hb

/-- A declaration is refused and changes nothing, or the name is new in the scope and gets a
binding there. -/
theorem declare_cases (h : Heap) (scope : ScopeId) (name : String) (b : Binding) :
    h.declare scope name b = (.error (.alreadyDeclared name), h) ∨
    h.binding? name scope = none ∧
      h.declare scope name b = (.ok (), h.withScope scope (·.declare name b)) := by
  unfold declare
  cases hb : h.binding? name scope with
  | some _ => exact .inl rfl
  | none => exact .inr ⟨rfl, rfl⟩

/-- A new value is refused and changes nothing, or one of the scopes on the way outward has a
variable of that name, which gets it. -/
theorem assign_cases (h : Heap) (scope : ScopeId) (name : String) (v : Value) :
    (∃ e, h.assign scope name v = (.error e, h)) ∨
    ∃ i ∈ h.chain scope, ∃ b, h.binding? name i = some b ∧ b.mutability = .mutable ∧
      h.assign scope name v = (.ok (), h.withScope i (·.assign name v)) := by
  unfold assign
  cases howner : (h.chain scope).find? fun i => (h.binding? name i).isSome with
  | none => exact .inl ⟨_, rfl⟩
  | some i =>
    have hsome := List.find?_some howner
    obtain ⟨⟨m, old⟩, hb⟩ := Option.isSome_iff_exists.mp hsome
    simp only [hb, Option.map_some]
    cases m with
    | mutable => exact .inr ⟨i, List.mem_of_find?_eq_some howner, _, hb, rfl, rfl⟩
    | fixed => exact .inl ⟨_, rfl⟩

theorem grows_declare (h : Heap) (scope : ScopeId) (name : String) (b : Binding) :
    h.Grows (h.declare scope name b).2 := by
  rcases h.declare_cases scope name b with heq | ⟨hnew, heq⟩
  · rw [heq]
    exact .refl h
  · rw [heq]
    exact grows_withScope fun s hs => Scope.grows_declare (binding?_eq_none hnew hs) b

theorem grows_assign (h : Heap) (scope : ScopeId) (name : String) (v : Value) :
    h.Grows (h.assign scope name v).2 := by
  rcases h.assign_cases scope name v with ⟨e, heq⟩ | ⟨i, -, b, hb, hm, heq⟩
  · rw [heq]
    exact .refl h
  · rw [heq]
    exact grows_withScope fun s hs => Scope.grows_assign (find?_of_binding? hb hs) hm v

end

end Heap

end TinyScript
