import TinyScript.Proofs.Grammar.Reading

/-!
# Programs one after another

The words of two programs, one after the other, are those of both together, if the first ends in a
semicolon (`Statements.append`). An expression never ends in one, so that the semicolon belongs to
the last statement, which then does not mind what comes next.
-/

namespace TinyScript.Grammar

theorem Expression.last : Expression n us e →
    ∃ u, us.getLast? = some u ∧ u ≠ .symbol .semicolon
  | .tighter h => h.last
  | .binary _ _ hr => by
    obtain ⟨u, hu, hne⟩ := hr.last
    exact ⟨u, by simp [List.getLast?_append, List.getLast?_cons, hu], hne⟩
  | .unary _ he => by
    obtain ⟨u, hu, hne⟩ := he.last
    exact ⟨u, by simp [List.getLast?_cons, hu], hne⟩
  | .ident | .integer _ | .string | .true_ | .false_ | .null => ⟨_, rfl, nofun⟩
  | .call .. | .group _ =>
    ⟨.symbol .rparen, by simp [List.getLast?_append, List.getLast?_cons], nofun⟩
  | .index .. | .array _ =>
    ⟨.symbol .rbracket, by simp [List.getLast?_append, List.getLast?_cons], nofun⟩
  | .cond .. | .condElse .. | .func .. | .hash _ =>
    ⟨.symbol .rbrace, by simp [List.getLast?_append, List.getLast?_cons], nofun⟩

theorem Sentence.last (h : Sentence us s) : ∃ u, us.getLast? = some u ∧ u ≠ .symbol .semicolon := by
  cases h with
  | declare _ he | assign he | ret he =>
    obtain ⟨u, hu, hne⟩ := he.last
    exact ⟨u, by simp [List.getLast?_cons, hu], hne⟩
  | expr he => exact he.last

theorem Statement.closed (h : Statement us next s) (hus : us.getLast? = some (.symbol .semicolon))
    (next' : Option Terminal) : Statement us next' s := by
  cases h with
  | ended hs => exact .ended hs
  | openEnded hs _ =>
    obtain ⟨u, hu, hne⟩ := hs.last
    exact absurd (Option.some.inj (hu.symm.trans hus)) hne
  | bareEnded => exact .bareEnded
  | bare _ => exact nomatch hus

theorem Statements.eq_nil (h : Statements us p) : us = [] ↔ p = [] := by
  cases h with
  | nil => exact iff_of_true rfl rfl
  | cons hs _ =>
    obtain ⟨u, us', rfl, -⟩ := hs.head
    exact iff_of_false nofun nofun

theorem not_begins_foreign : ¬ Begins .foreign := by
  rintro (h | ⟨k, -, h⟩)
  · exact h
  · exact nomatch h

/-- What follows a program that ends in a semicolon is a program of its own. -/
theorem Statements.append (h : Statements us p) (hus : us.getLast? = some (.symbol .semicolon))
    (h' : Statements vs q) : Statements (us ++ vs) (p ++ q) := by
  induction p generalizing us with
  | nil =>
    cases h
    exact nomatch hus
  | cons s p ih =>
    cases h with
    | @cons ts _ us _ hs hp =>
      rw [List.append_assoc, List.cons_append]
      rw [List.getLast?_append] at hus
      cases us with
      | nil =>
        obtain rfl := hp.eq_nil.mp rfl
        exact .cons (hs.closed hus _) h'
      | cons u us =>
        rw [List.getLast?_cons, Option.some_or, ← List.getLast?_cons] at hus
        exact .cons hs (ih hp hus)

end TinyScript.Grammar
