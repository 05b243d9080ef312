import TinyScript.Proofs.Lexing.Tokens
import TinyScript.Proofs.Origin
import TinyScript.Proofs.Spelling

/-!
# Printing what was read, and reading it again

What is kept of a text, with mistakes in it or without, can be printed and read again, unless a
string in it ends in an odd number of backslashes: the last of them protects the quote that is
printed after it. Such a string is the last token of its text and has no closing quote there
(`Program.parse_rereads`).

All names and numbers that come from a text can be spelled, and so can all strings that were closed.
A string that was not takes in the rest of its text, so that a printed one would have to be the end
of what is printed; but that is a semicolon or a brace.
-/

namespace TinyScript

-- ---------------------------------------------------------------------------
-- Trees that can be spelled
-- ---------------------------------------------------------------------------

def Atom.isSpellable : Atom → Bool
  | .name x => isName x
  | .number n => 0 ≤ n.toInt
  | .string raw => Lexing.isQuotable raw.toList
  | .block => false

theorem Lexing.scan_name (h : (Lexeme.scan c cs).kind = .ident) :
    isName (String.ofList (Lexeme.scan c cs).literal) = true := by
  have hcut := cut_scan c cs
  generalize Lexeme.scan c cs = l at h hcut
  cases hcut with
  | @word word hc hword =>
    have hkey : (Keyword.ofText? (String.ofList word)).isNone = true := by
      simp only [Lexeme.wordKind] at h
      split at h
      · cases h
      · rename_i hnone
        rw [hnone]
        rfl
    subst hword
    unfold isName
    rw [String.toList_ofList]
    simp only [hc, hkey, Bool.true_and, Bool.and_true]
    exact List.all_takeWhile
  | _ => cases h

theorem Lexing.token_name (ht : t ∈ Cursor.tokens ⟨n, cs⟩) (hk : t.kind = .ident) :
    isName t.literal = true := by
  obtain ⟨before, c, rest, front, -, rfl, -⟩ := tokens_split ht
  exact scan_name hk

mutual

theorem Expr.isSpellable_eq (e : Expr) : e.isSpellable = e.atoms.all Atom.isSpellable := by
  match e with
  | .ident _ | .int _ | .str _ => simp [Expr.isSpellable, Expr.atoms, Atom.isSpellable]
  | .bool _ | .null => rfl
  | .unary _ e => exact Expr.isSpellable_eq e
  | .binary _ l r | .index l r =>
    simp only [Expr.isSpellable, Expr.atoms, List.all_append, Expr.isSpellable_eq l,
      Expr.isSpellable_eq r]
  | .cond c yes none =>
    simp only [Expr.isSpellable, Expr.atoms, List.all_append, Expr.isSpellable_eq c,
      Block.isSpellable_eq yes]
  | .cond c yes (some no) =>
    simp only [Expr.isSpellable, Expr.atoms, List.all_append, Expr.isSpellable_eq c,
      Block.isSpellable_eq yes, Block.isSpellable_eq no, Bool.and_assoc]
  | .func params body =>
    simp only [Expr.isSpellable, Expr.atoms, List.all_append, List.all_map,
      Block.isSpellable_eq body]
    rfl
  | .call f args =>
    simp only [Expr.isSpellable, Expr.atoms, List.all_append, Expr.isSpellable_eq f,
      Expr.areSpellable_eq args]
  | .array items => exact Expr.areSpellable_eq items
  | .hash pairs => exact Expr.pairsAreSpellable_eq pairs

theorem Stmt.isSpellable_eq (s : Stmt) : s.isSpellable = s.atoms.all Atom.isSpellable := by
  match s with
  | .declare _ _ e | .assign _ e =>
    simp only [Stmt.isSpellable, Stmt.atoms, List.all_cons, Atom.isSpellable, Expr.isSpellable_eq e]
  | .ret e | .expr e => exact Expr.isSpellable_eq e
  | .block _ => rfl

theorem Block.isSpellable_eq (body : List Stmt) :
    Block.isSpellable body = (Block.atoms body).all Atom.isSpellable := by
  match body with
  | [] => rfl
  | s :: body =>
    simp only [Block.isSpellable, Block.atoms, List.all_append, Stmt.isSpellable_eq s,
      Block.isSpellable_eq body]

theorem Expr.areSpellable_eq (es : List Expr) :
    Expr.areSpellable es = (Expr.listAtoms es).all Atom.isSpellable := by
  match es with
  | [] => rfl
  | e :: es =>
    simp only [Expr.areSpellable, Expr.listAtoms, List.all_append, Expr.isSpellable_eq e,
      Expr.areSpellable_eq es]

theorem Expr.pairsAreSpellable_eq (ps : List (Expr × Expr)) :
    Expr.pairsAreSpellable ps = (Expr.pairAtoms ps).all Atom.isSpellable := by
  match ps with
  | [] => rfl
  | (k, v) :: ps =>
    simp only [Expr.pairsAreSpellable, Expr.pairAtoms, List.all_append, Expr.isSpellable_eq k,
      Expr.isSpellable_eq v, Expr.pairsAreSpellable_eq ps, Bool.and_assoc]

end

-- ---------------------------------------------------------------------------
-- How a spelling ends
-- ---------------------------------------------------------------------------

theorem toList_getLast?_append (text : String) {tail : String} (h : tail.toList.getLast? = some c) :
    (text ++ tail).toList.getLast? = some c := by
  rw [String.toList_append, List.getLast?_append, h]
  rfl

theorem blockText_end (texts : List String) : (blockText texts).toList.getLast? = some '\x7d' := by
  cases texts with
  | nil => rfl
  | cons text texts => exact toList_getLast?_append _ rfl

theorem Stmt.render_end (s : Stmt) :
    s.render.toList.getLast? = some ';' ∨ s.render.toList.getLast? = some '\x7d' := by
  cases s with
  | block body => exact .inr (blockText_end _)
  | declare _ _ _ | assign _ _ | ret _ | expr _ => exact .inl (toList_getLast?_append _ rfl)

theorem Program.render_end (s : Stmt) (p : Program) :
    (Program.render (s :: p)).toList.getLast? = some ';' ∨
      (Program.render (s :: p)).toList.getLast? = some '\x7d' := by
  induction p generalizing s with
  | nil =>
    rw [Program.render, Stmt.renders, Stmt.renders, String.intercalate_singleton]
    exact s.render_end
  | cons s' p ih =>
    have hrender : Program.render (s :: s' :: p) = s.render ++ " " ++ Program.render (s' :: p) :=
      String.intercalate_cons_cons
    rw [hrender]
    exact (ih s').imp (toList_getLast?_append _) (toList_getLast?_append _)

-- ---------------------------------------------------------------------------
-- What comes from a text
-- ---------------------------------------------------------------------------

section
variable {source : String}

/-- Whatever is kept of a text can be spelled, strings with a last backslash apart that protects
what comes next. -/
theorem Atom.spellable (ha : a ∈ Block.atoms (Program.parse source).1)
    (heven : ∀ raw, a = .string raw → finalBackslashes raw.toList % 2 = 0) :
    a.isSpellable = true := by
  obtain ⟨t, ht, hgives⟩ := Program.parse_origin source a ha
  cases hgives with
  | name hk => exact Lexing.token_name ht hk
  | number _ hn =>
    refine decide_eq_true ?_
    rw [Grammar.int?_eq_some_iff.mp hn]
    exact Int.natCast_nonneg _
  | string hk => exact (Lexing.token_string ht hk).mpr (heven _ rfl)

theorem Atom.unclosed (ha : .string raw ∈ Block.atoms (Program.parse source).1)
    (hodd : finalBackslashes raw.toList % 2 = 1) :
    ∃ before, source = before ++ "\"" ++ raw ∧ (Cursor.start source).tokens.getLast? =
      some ⟨.string, raw, ⟨before.utf8ByteSize, source.utf8ByteSize⟩⟩ := by
  obtain ⟨t, ht, hgives⟩ := Program.parse_origin source _ ha
  cases hgives with
  | string hk =>
    have hq : Lexing.isQuotable t.literal.toList = false := by
      refine Bool.eq_false_iff.mpr fun hq => ?_
      have heven := (Lexing.token_string ht hk).mp hq
      omega
    obtain ⟨before, hsource, hlast, hspan⟩ := Lexing.token_unclosed ht hk hq
    refine ⟨String.ofList before, ?_, ?_⟩
    · refine String.toList_inj.mp ?_
      rw [hsource]
      simp [String.toList_append]
    · have hsize := Lexing.utf8ByteSize_ofList source.toList
      rw [String.ofList_toList] at hsize
      rw [Nat.zero_add, Nat.zero_add, ← hsize, ← Lexing.utf8ByteSize_ofList before] at hspan
      rw [Cursor.start, hlast, ← hk, ← hspan]

end

/-- What is kept of a text prints as itself exactly if no string in it ends in an odd number of
backslashes, and such a string is the last token of the text and is not closed there. -/
theorem Program.parse_rereads (source : String) :
    (Program.parse (Program.parse source).1.render = ((Program.parse source).1, []) ↔
      ∀ raw, .string raw ∈ Block.atoms (Program.parse source).1 →
        finalBackslashes raw.toList % 2 = 0) ∧
    ∀ raw, .string raw ∈ Block.atoms (Program.parse source).1 →
      finalBackslashes raw.toList % 2 = 1 →
      ∃ before, source = before ++ "\"" ++ raw ∧ (Cursor.start source).tokens.getLast? =
        some ⟨.string, raw, ⟨before.utf8ByteSize, source.utf8ByteSize⟩⟩ := by
  refine ⟨⟨fun hreads raw hraw => ?_, fun heven => ?_⟩, fun raw hraw hodd => Atom.unclosed hraw hodd⟩
  · refine Nat.mod_two_ne_one.mp fun hodd => ?_
    -- the string would end what is printed
    have hagain : .string raw ∈ Block.atoms (Program.parse (Program.parse source).1.render).1 := by
      rwa [hreads]
    obtain ⟨before, hprinted, -⟩ := Atom.unclosed hagain hodd
    have hlast := toList_getLast?_append (before ++ "\"") (Lexing.getLast?_of_finalBackslashes hodd)
    rw [← hprinted] at hlast
    cases hp : (Program.parse source).1 with
    | nil =>
      rw [hp] at hraw
      exact nomatch hraw
    | cons s rest =>
      rw [hp] at hlast
      rcases Program.render_end s rest with hend | hend <;> exact nomatch hlast.symm.trans hend
  · have hspellable : Block.isSpellable (Program.parse source).1 = true := by
      rw [Block.isSpellable_eq, List.all_eq_true]
      exact fun a ha => Atom.spellable ha fun raw hraw => heven raw (hraw ▸ ha)
    exact Grammar.statements_complete (Spelling.words_render _ hspellable) _ rfl

/-- The shortest text with a string like that: a quote and a backslash. -/
example : Program.parse "\"\\" = ([.expr (.str "\\")], []) ∧
    Program.rereads [.expr (.str "\\")] = false := by
  constructor <;> cbv

end TinyScript
