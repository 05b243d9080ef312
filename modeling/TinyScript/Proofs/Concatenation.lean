import TinyScript.Proofs.Grammar.Completeness
import TinyScript.Proofs.Grammar.Sequence
import TinyScript.Proofs.Places

/-!
# Texts one behind the other

Behind a program that is without mistakes and ends in a semicolon another text is read as if it stood
alone, whatever mistakes it has: its statements follow those of the program, and only the places of
its mistakes are counted from the front of the whole (`Program.parse_append`).

There are three reasons. The tokens of the program do not depend on what is behind a semicolon, its
statements do not either, and reading the rest does not depend on where the rest stands.
-/

namespace TinyScript

namespace Grammar

open Parse Step

theorem Statement.reads_closed {ts : List Token} (h : Statement us next s)
    (hus : us.getLast? = some (.symbol .semicolon)) (stop : Token)
    (hts : ts.map Token.terminal = us) (rest : List Token) :
    (statement stop (ts ++ rest)).Reads s rest := by
  cases h with
  | ended hs =>
    obtain ⟨ts, ⟨_, _, _⟩, hts, ht, hsplit⟩ := exists_split_last hts
    obtain rfl := terminal_symbol.mp ht
    rw [hsplit]
    exact sentence_complete hs stop hts (ends_symbol (by decide)) (by rintro _ ⟨⟩; simp)
  | openEnded hs _ =>
    obtain ⟨u, hu, hne⟩ := hs.last
    exact absurd (Option.some.inj (hu.symm.trans hus)) hne
  | bareEnded =>
    obtain ⟨⟨_, _, _⟩, ts, ht, hts, hsplit⟩ := exists_cons hts
    obtain ⟨⟨_, _, _⟩, rfl, ht₁⟩ := List.map_eq_singleton_iff.mp hts
    obtain rfl := terminal_keyword.mp ht
    obtain rfl := terminal_symbol.mp ht₁
    rw [hsplit]
    unfold statement
    exact Reads.done ..
  | bare _ => exact nomatch hus

theorem Statements.read_append {ts : List Token} (h : Statements us p)
    (hus : us = [] ∨ us.getLast? = some (.symbol .semicolon)) (stop : Token)
    (hts : ts.map Token.terminal = us) (rest : List Token) :
    statements stop (ts ++ rest) =
      (p ++ (statements stop rest).1, (statements stop rest).2) := by
  induction p generalizing us ts with
  | nil =>
    cases h
    obtain rfl := List.map_eq_nil_iff.mp hts
    rfl
  | cons s p ih =>
    cases h with
    | @cons _ _ vs _ hs hp =>
      obtain ⟨as, bs, has, hbs, hsplit⟩ := exists_append hts
      have hparts : (statement stop (as ++ (bs ++ rest))).Reads s (bs ++ rest) ∧
          (vs = [] ∨ vs.getLast? = some (.symbol .semicolon)) := by
        cases vs with
        | nil =>
          -- the last statement
          obtain rfl := List.map_eq_nil_iff.mp hbs
          rw [List.append_nil] at hus
          refine ⟨hs.reads_closed (hus.resolve_left fun hnil => ?_) stop has rest, .inl rfl⟩
          obtain ⟨u, us, rfl, -⟩ := hs.head
          exact nomatch hnil
        | cons v vs =>
          refine ⟨statement_complete hs stop has ?_, .inr ?_⟩
          · obtain ⟨t, bs, rfl, rfl, -⟩ := List.map_eq_cons_iff.mp hbs
            rintro _ ⟨⟩
            exact .inr ⟨rfl, hp.head _ rfl⟩
          · simpa [List.getLast?_append, List.getLast?_cons] using hus
      obtain ⟨hread, hlast⟩ := hparts
      obtain ⟨t, ts', hcons, -⟩ := hs.begins has (bs ++ rest)
      rw [hsplit, hcons, statements]
      rw [hcons] at hread
      simp [hread.1, hread.2.1, hread.2.2, ih hp hlast hbs]

end Grammar

theorem Lexing.tokens_behind {front : List Char} (h : words front = [] ∨ Finished front)
    (back : List Char) :
    Cursor.tokens ⟨0, front ++ back⟩ =
      Cursor.tokens ⟨0, front⟩ ++ (Cursor.tokens ⟨0, back⟩).map (Token.shift (byteSize front)) := by
  rw [← tokens_shift]
  rcases h with h | h
  · rw [tokens_blanks (blank_of_words h), List.map_eq_nil_iff.mp h, List.nil_append]
  · exact h.tokens_append 0 back

/-- `back` is read behind `front` as if it stood alone: with its own statements, behind those of
`front`, and with its own mistakes, of the same wording and as many bytes further behind as `front`
has. -/
theorem Program.parse_append (front back : String) (hfront : (Program.parse front).2 = [])
    (hend : (Cursor.start front).tokens = [] ∨
      (Cursor.start front).tokens.getLast?.map Token.kind = some (.symbol .semicolon)) :
    (Program.parse (front ++ back)).1 = (Program.parse front).1 ++ (Program.parse back).1 ∧
    (Program.parse (front ++ back)).2.map (fun e => (e.message, e.help, e.span)) =
      (Program.parse back).2.map fun e => (e.message, e.help,
        ⟨e.span.start + front.utf8ByteSize, e.span.stop + front.utf8ByteSize⟩) := by
  have hwords : words front.toList = [] ∨ Lexing.Finished front.toList := by
    refine hend.imp (fun hnil => by rw [words]; exact List.map_eq_nil_iff.mpr hnil) fun hlast => ?_
    obtain ⟨t, ht, hk⟩ := Option.map_eq_some_iff.mp hlast
    rw [Lexing.Finished, words, List.getLast?_map]
    exact Option.map_eq_some_iff.mpr ⟨t, ht, Grammar.terminal_symbol.mpr hk⟩
  have htokens : (Cursor.start (front ++ back)).tokens = (Cursor.start front).tokens ++
      (Cursor.start back).tokens.map (Token.shift front.utf8ByteSize) := by
    have hbehind := Lexing.tokens_behind hwords back.toList
    rw [← String.toList_append, Lexing.byteSize_toList] at hbehind
    exact hbehind
  have hstop : Cursor.endToken (front ++ back) = (Cursor.endToken back).shift front.utf8ByteSize := by
    rw [Cursor.endToken, String.utf8ByteSize_append, Nat.add_comm]
    rfl
  have hparse : Program.parse (front ++ back) = ((Program.parse front).1 ++ (Program.parse back).1,
      (Program.parse back).2.map (SyntaxError.shift front.utf8ByteSize)) := by
    rw [Program.parse, htokens,
      (Grammar.statements_sound _ _ hfront).read_append hwords _ rfl, hstop,
      Parse.statements_shift _ _ _ rfl]
    rfl
  rw [hparse, List.map_map]
  exact ⟨rfl, rfl⟩

/-- Behind two statements, a text with a mistake in its first and one at its end; the places are in
bytes. -/
theorem Program.parse_append_sample :
    let front := "val p = \"é\"; f(1);\n"
    let back := "val = 5; x; [1, "
    (Program.parse front).2 = [] ∧
    (Program.parse (front ++ back)).1 = (Program.parse front).1 ++ (Program.parse back).1 ∧
    (Program.parse (front ++ back)).2.map (fun e => (e.message, e.help, e.span)) =
      (Program.parse back).2.map fun e => (e.message, e.help,
        ⟨e.span.start + front.utf8ByteSize, e.span.stop + front.utf8ByteSize⟩) := by
  intro front back
  have hfront : (Program.parse front).2 = [] := by decide +kernel
  exact ⟨hfront, Program.parse_append front back hfront (.inr (by decide +kernel))⟩

end TinyScript
