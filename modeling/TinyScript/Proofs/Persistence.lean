import TinyScript.Proofs.Discipline

/-!
# What a program leaves as it was

A run takes nothing away from a heap, and what is fixed stays as it is (`Heap.Grows`). New names get
into the scope that the program runs in and into scopes that the run itself opens, and into no
other: a call runs in a scope of its own, and however it ends, what is declared afterwards is
declared where it was before.
-/

namespace TinyScript

/-- The scopes of `h₀` but `home` have the names they had. Code runs in `home` or in a newer
scope. -/
def namesKept (h₀ : Heap) (home : ScopeId) : Discipline where
  good h := h₀.scopes.size ≤ h.scopes.size ∧ ∀ (i : ScopeId) (s : Scope), i ≠ home →
    h₀.scopes[i]? = some s → ∃ s', h.scopes[i]? = some s' ∧ s'.names = s.names
  value _ _ := True
  scope _ _ := True
  home _ i := i = home ∨ h₀.scopes.size ≤ i
  value_mono _ _ := trivial
  scope_mono _ _ := trivial
  home_mono _ hi := hi
  home_scope _ := trivial
  direct _ := trivial
  unwrap _ := trivial
  outer _ _ _ _ := trivial
  binding _ _ _ := trivial
  inside {_ _ o} _ _ _ := by
    cases o with
    | hash _ => exact fun _ _ => ⟨trivial, trivial⟩
    | array _ => exact fun _ _ => trivial
    | _ => trivial
  signals hh := hh
  alloc hh _ _ := ⟨hh, trivial⟩
  openScope {h o} hh _ := by
    obtain ⟨hsize, hnames⟩ := hh
    refine ⟨⟨Nat.le_trans hsize (h.grows_openScope _).size_scopes, fun i s hi hs => ?_⟩, .inr hsize⟩
    obtain ⟨s', hs', heq⟩ := hnames i s hi hs
    obtain ⟨hlt, -⟩ := Array.getElem?_eq_some_iff.mp hs'
    exact ⟨s', by rw [Heap.openScope, Array.getElem?_push, if_neg (Nat.ne_of_lt hlt), hs'], heq⟩
  declare {h j _ _} hh hhome _ _ := by
    obtain ⟨hsize, hnames⟩ := hh
    refine ⟨Nat.le_trans hsize (Nat.le_of_eq Array.size_modify.symm), fun i s hi hs => ?_⟩
    -- the scope is `home` or newer than all of `h₀`
    have hne : j ≠ i := by
      rintro rfl
      obtain ⟨hlt, -⟩ := Array.getElem?_eq_some_iff.mp hs
      exact hhome.elim hi (Nat.not_le_of_lt hlt)
    rw [Heap.scopes_withScope, if_neg hne]
    exact hnames i s hi hs
  assign {h j name _ v} hh _ _ _ _ := by
    obtain ⟨hsize, hnames⟩ := hh
    refine ⟨Nat.le_trans hsize (Nat.le_of_eq Array.size_modify.symm), fun i s hi hs => ?_⟩
    obtain ⟨s', hs', heq⟩ := hnames i s hi hs
    rw [Heap.scopes_withScope, hs']
    split
    · exact ⟨s'.assign name v, rfl, (s'.names_assign name v).trans heq⟩
    · exact ⟨s', rfl, heq⟩
  modifyItems hh _ _ _ := hh

/-- Whatever a program does in a scope of a heap, the heap only grows, and the other scopes that
were there have the same names afterwards. -/
theorem Program.evalAt_grows (depth : Nat) (scope : ScopeId) (p : Program) (h : Heap) :
    h.Grows (p.evalAt depth scope h).2 ∧
    ∀ (i : ScopeId) (s : Scope), i ≠ scope → h.scopes[i]? = some s →
      ∃ s', (p.evalAt depth scope h).2.scopes[i]? = some s' ∧ s'.names = s.names := by
  have hgood : (namesKept h scope).good h := ⟨Nat.le_refl _, fun _ s _ hs => ⟨s, hs, rfl⟩⟩
  have hkept := Discipline.kept_evalAt depth p hgood (.inl rfl)
  exact ⟨hkept.grows, hkept.good.2⟩

end TinyScript
