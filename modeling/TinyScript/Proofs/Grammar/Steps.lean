import TinyScript.Syntax.Step

/-!
# What a step achieves

Two ways to speak of a step of reading. `Step.Clean` is for what follows from a step without
mistakes: it has read a tree, and something holds of the tree and of what is left. `Step.Reads` is
for showing that a step reads a given tree. Each way of putting steps together has one law for
either.
-/

namespace TinyScript.Step

variable {α β : Type} {m n : Nat}

/-- If there was no mistake, there is a tree, and `Q` holds of it and of the rest. -/
def Clean (s : Step α n) (Q : α → List Token → Prop) : Prop :=
  s.errors = [] → ∃ a, s.result = some a ∧ Q a s.rest

def Reads (s : Step α n) (a : α) (rest : List Token) : Prop :=
  s.result = some a ∧ s.errors = [] ∧ s.rest = rest

-- ---------------------------------------------------------------------------
-- Steps without mistakes
-- ---------------------------------------------------------------------------

theorem Clean.mono {s : Step α n} (hs : s.Clean P) (h : ∀ a ts, P a ts → Q a ts) : s.Clean Q := by
  intro he
  obtain ⟨a, ha, hP⟩ := hs he
  exact ⟨a, ha, h a _ hP⟩

theorem Clean.done {a : α} {ts : List Token} (h : Q a ts) : (Step.done a ts).Clean Q :=
  fun _ => ⟨a, rfl, h⟩

theorem Clean.fail : (Step.fail e ts : Step α _).Clean Q :=
  fun he => nomatch he

theorem Clean.failNext : (Step.failNext stop cause ts : Step α _).Clean Q := by
  intro he
  cases ts <;> exact nomatch he

theorem Clean.weaken {s : Step α m} {h : m ≤ n} (hs : s.Clean Q) : (s.weaken h).Clean Q := hs

theorem Clean.map {f : α → β} {s : Step α n} (hs : s.Clean fun a ts => Q (f a) ts) :
    (s.map f).Clean Q := by
  intro he
  obtain ⟨a, ha, hQ⟩ := hs he
  exact ⟨f a, by simp [Step.map, ha], hQ⟩

theorem Clean.bind {s : Step α n} {next : α → (ts : List Token) → ts.length ≤ n → Step β ts.length}
    (hs : s.Clean P) (hn : ∀ a ts h, P a ts → (next a ts h).Clean Q) : (s.bind next).Clean Q := by
  obtain ⟨result, errors, rest, hrest⟩ := s
  cases result with
  | none =>
    intro he
    obtain ⟨a, ha, -⟩ := hs he
    cases ha
  | some a =>
    intro he
    obtain ⟨rfl, he⟩ := List.append_eq_nil_iff.mp he
    obtain ⟨_, ha, hP⟩ := hs rfl
    cases ha
    exact hn _ _ _ hP he

theorem Clean.expect
    {next : Token → (rest : List Token) → rest.length < ts.length → Step β rest.length}
    (h : ∀ t rest hlt, ts = t :: rest → t.kind = kind → (next t rest hlt).Clean Q) :
    (Step.expect stop kind ts next).Clean Q := by
  cases ts with
  | nil => exact Clean.failNext
  | cons t rest =>
    simp only [Step.expect]
    split
    · exact Clean.weaken (h t rest _ rfl ‹_›)
    · exact Clean.weaken Clean.failNext

theorem Clean.thenSemicolon {s : Step α n} (hs : s.Clean fun a ts => Q a (dropSemicolon ts)) :
    s.thenSemicolon.Clean Q := hs

theorem Clean.thenRest {s : Step α n}
    {next : (ts : List Token) → ts.length ≤ n → Step (List α) ts.length}
    (hs : s.Clean P) (hn : ∀ a ts h, P a ts → (next ts h).Clean fun as ts => Q (a :: as) ts) :
    (s.thenRest next).Clean Q := by
  intro he
  obtain ⟨hs', hn'⟩ := List.append_eq_nil_iff.mp he
  obtain ⟨a, ha, hP⟩ := hs hs'
  obtain ⟨as, has, hQ⟩ := hn _ _ s.rest_le hP hn'
  exact ⟨a :: as, by simp [Step.thenRest, ha, has], hQ⟩

-- ---------------------------------------------------------------------------
-- Steps that read a given tree
-- ---------------------------------------------------------------------------

theorem Reads.unique {s : Step α n} (h : s.Reads a ts) (h' : s.Reads b us) : a = b ∧ ts = us :=
  ⟨Option.some.inj (h.1.symm.trans h'.1), h.2.2.symm.trans h'.2.2⟩

theorem Reads.done (a : α) (ts : List Token) : (Step.done a ts).Reads a ts := ⟨rfl, rfl, rfl⟩

theorem Reads.weaken {s : Step α m} {h : m ≤ n} (hs : s.Reads a ts) : (s.weaken h).Reads a ts := hs

theorem Reads.map {f : α → β} {s : Step α n} (hs : s.Reads a ts) : (s.map f).Reads (f a) ts :=
  ⟨by simp [Step.map, hs.1], hs.2⟩

theorem Reads.bind {s : Step α n} {next : α → (ts : List Token) → ts.length ≤ n → Step β ts.length}
    (hs : s.Reads a ts) (hn : ∀ h, (next a ts h).Reads b us) : (s.bind next).Reads b us := by
  obtain ⟨result, errors, rest', hrest⟩ := s
  obtain ⟨rfl, rfl, rfl⟩ := hs
  obtain ⟨hb, he, hr⟩ := hn hrest
  exact ⟨hb, by simp [Step.bind, he], hr⟩

theorem Reads.expect {t : Token}
    {next : Token → (rest : List Token) → rest.length < (t :: ts).length → Step β rest.length}
    (ht : t.kind = kind) (hn : ∀ h, (next t ts h).Reads b us) :
    (Step.expect stop kind (t :: ts) next).Reads b us := by
  simp only [Step.expect, if_pos ht]
  exact Reads.weaken (hn _)

theorem Reads.thenSemicolon {s : Step α n} (hs : s.Reads a ts) :
    s.thenSemicolon.Reads a (dropSemicolon ts) :=
  ⟨hs.1, hs.2.1, congrArg dropSemicolon hs.2.2⟩

theorem Reads.thenRest {s : Step α n}
    {next : (ts : List Token) → ts.length ≤ n → Step (List α) ts.length}
    (hs : s.Reads a ts) (hn : ∀ h, (next ts h).Reads as us) :
    (s.thenRest next).Reads (a :: as) us := by
  obtain ⟨result, errors, rest', hrest⟩ := s
  obtain ⟨rfl, rfl, rfl⟩ := hs
  obtain ⟨ha, he, hr⟩ := hn hrest
  exact ⟨by simp [Step.thenRest, ha], by simp [Step.thenRest, he], hr⟩

end TinyScript.Step
