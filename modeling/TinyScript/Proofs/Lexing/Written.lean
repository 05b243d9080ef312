import Mathlib.Data.List.Chain
import TinyScript.Proofs.Lexing.Finished

/-!
# Writing tokens out

Pieces written one behind the other are read as these pieces again (`Lexing.tokens_write`). A piece
is a word, a row of digits, a text between quotes, a symbol or a character that starts none of these,
and between two of them there can be any blanks. There have to be some only where the two would be
taken for one, or for others (`Piece.joins`).
-/

namespace TinyScript

namespace Lexing

def isOdd (c : Char) : Bool :=
  !isBlank c && c != '"' && !isLetter c && !c.isDigit && (Symbol.ofChar? c).isNone

/-- What can be written out. -/
inductive Piece where
  | word (c : Char) (cs : List Char) (hc : isLetter c = true) (hcs : cs.all isWordChar = true)
  | digits (d : Char) (ds : List Char) (hd : d.isDigit = true) (hds : ds.all Char.isDigit = true)
  | quoted (body : List Char) (h : isQuotable body = true)
  | symbol (s : Symbol)
  | odd (c : Char) (h : isOdd c = true)

/-- What stands between two pieces, or at an end of the text. -/
abbrev Blanks := { cs : List Char // cs.all isBlank = true }

namespace Piece

def text : Piece → List Char
  | word c cs _ _ => c :: cs
  | digits d ds _ _ => d :: ds
  | quoted body _ => '"' :: (body ++ ['"'])
  | symbol s => s.text.toList
  | odd c _ => [c]

/-- The text that its token keeps. -/
def literal : Piece → List Char
  | quoted body _ => body
  | p => p.text

def kind : Piece → Token.Kind
  | word c cs _ _ => ((Keyword.ofText? (String.ofList (c :: cs))).map .keyword).getD .ident
  | digits .. => .integer
  | quoted .. => .string
  | symbol s => .symbol s
  | odd .. => .illegal

/-- Two pieces that need a blank between them. -/
def joins : Piece → Piece → Bool
  | word .., word .. | word .., digits .. | digits .., digits .. => true
  | symbol s, q => isOpen s && q.text.head? == some '='
  | _, _ => false

end Piece

def write (front : Blanks) (ps : List (Piece × Blanks)) : List Char :=
  front.1 ++ ps.flatMap fun p => p.1.text ++ p.2.1

-- ---------------------------------------------------------------------------
-- One piece
-- ---------------------------------------------------------------------------

theorem isOdd_class (h : isOdd c = true) : isBlank c = false ∧ c ≠ '"' ∧ isLetter c = false ∧
    c.isDigit = false ∧ Symbol.ofChar? c = none := by
  simpa [isOdd, and_assoc] using h

namespace Piece

def EndsBefore (rest : List Char) : Piece → Prop
  | word .. => ∀ d ∈ rest.head?, isWordChar d = false
  | digits .. => ∀ d ∈ rest.head?, d.isDigit = false
  | symbol s => isOpen s = true → '=' ∉ rest.head?
  | quoted .. | odd .. => True

theorem scan (p : Piece) (h : p.EndsBefore rest) :
    ∃ c cs, p.text ++ rest = c :: cs ∧ isBlank c = false ∧
      Lexeme.scan c cs = ⟨p.kind, p.literal, p.text, rest⟩ := by
  cases p with
  | word c cs hc hcs =>
    refine ⟨c, cs ++ rest, rfl, isLetter_class hc, ?_⟩
    rw [scan_word hc (List.all_eq_true.mp hcs) h, Lexeme.wordKind, kind]
    cases Keyword.ofText? (String.ofList (c :: cs)) <;> rfl
  | digits d ds hd hds =>
    have hscan := scan_integer hd (List.all_eq_true.mp hds) h
    exact ⟨d, ds ++ rest, rfl, (isDigit_class hd).1, hscan⟩
  | quoted body hbody =>
    refine ⟨'"', body ++ '"' :: rest, ?_, rfl, scan_quoted hbody rest⟩
    simp [text]
  | symbol s =>
    obtain ⟨c, cs, htext, hc, hscan⟩ := scan_symbol s h
    exact ⟨c, cs ++ rest, congrArg (· ++ rest) htext, hc, hscan⟩
  | odd c hc =>
    obtain ⟨hblank, hquote, hletter, hdigit, hsymbol⟩ := isOdd_class hc
    refine ⟨c, rest, rfl, hblank, ?_⟩
    rw [scan_single hletter hdigit hquote fun d _ => ofChars?_none hsymbol d, hsymbol]
    rfl

theorem tokens_text (p : Piece) (h : p.EndsBefore rest) (n : Nat) :
    Cursor.tokens ⟨n, p.text ++ rest⟩ =
      ⟨p.kind, String.ofList p.literal, ⟨n, n + byteSize p.text⟩⟩ ::
        Cursor.tokens ⟨n + byteSize p.text, rest⟩ := by
  obtain ⟨c, cs, htext, hc, hscan⟩ := p.scan h
  rw [htext, tokens_cons hc, read_scan hscan]

-- ---------------------------------------------------------------------------
-- Two pieces
-- ---------------------------------------------------------------------------

theorem endsBefore_nil (p : Piece) : p.EndsBefore [] := by
  cases p <;> simp [EndsBefore]

theorem endsBefore_blank (p : Piece) (hc : isBlank c = true) : p.EndsBefore (c :: cs) := by
  have hletter : isLetter c = false := Bool.eq_false_iff.mpr fun h => by simp [isLetter_class h] at hc
  have hdigit : c.isDigit = false := Bool.eq_false_iff.mpr fun h => by
    simp [(isDigit_class h).1] at hc
  cases p with
  | word => simp [EndsBefore, isWordChar, hletter, hdigit]
  | digits => simp [EndsBefore, hdigit]
  | symbol s =>
    rintro - ⟨⟩
    exact nomatch hc
  | quoted | odd => trivial

theorem head_class (q : Piece) (hd : d ∈ q.text.head?) :
    (∃ c cs hc hcs, q = word c cs hc hcs ∧ isLetter d = true) ∨
    (∃ c cs hc hcs, q = digits c cs hc hcs) ∨ isWordChar d = false := by
  cases q with
  | word c cs hc hcs =>
    obtain rfl := Option.some.inj hd
    exact .inl ⟨c, cs, hc, hcs, rfl, hc⟩
  | digits c cs hc hcs => exact .inr (.inl ⟨c, cs, hc, hcs, rfl⟩)
  | quoted =>
    obtain rfl := Option.some.inj hd
    exact .inr (.inr rfl)
  | symbol s => cases s <;> obtain rfl := Option.some.inj hd <;> exact .inr (.inr rfl)
  | odd c hc =>
    obtain rfl := Option.some.inj hd
    obtain ⟨-, -, hletter, hdigit, -⟩ := isOdd_class hc
    refine .inr (.inr ?_)
    rw [isWordChar, hletter, hdigit]
    rfl

theorem head_text (q : Piece) (rest : List Char) : (q.text ++ rest).head? = q.text.head? := by
  cases q with
  | symbol s => cases s <;> rfl
  | _ => rfl

theorem endsBefore_piece (p q : Piece) (h : p.joins q = false) (rest : List Char) :
    p.EndsBefore (q.text ++ rest) := by
  cases p with
  | word =>
    rw [EndsBefore, head_text]
    intro d hd
    rcases q.head_class hd with ⟨_, _, _, _, rfl, -⟩ | ⟨_, _, _, _, rfl⟩ | hword
    · exact nomatch h
    · exact nomatch h
    · exact hword
  | digits =>
    rw [EndsBefore, head_text]
    intro d hd
    rcases q.head_class hd with ⟨_, _, _, _, rfl, hletter⟩ | ⟨_, _, _, _, rfl⟩ | hword
    · exact Bool.eq_false_iff.mpr fun hdigit => by simp [(isDigit_class hdigit).2] at hletter
    · exact nomatch h
    · exact (Bool.or_eq_false_iff.mp hword).2
  | symbol s =>
    rw [EndsBefore, head_text]
    intro hs heq
    simp [joins, hs, Option.mem_def.mp heq] at h
  | quoted | odd => trivial

end Piece

-- ---------------------------------------------------------------------------
-- All pieces
-- ---------------------------------------------------------------------------

theorem endsBefore_written {ps : List (Piece × Blanks)} (p : Piece) (behind : Blanks)
    (h : behind.1 = [] → ∀ q ∈ ps.head?, p.joins q.1 = false) :
    p.EndsBefore (write behind ps) := by
  obtain ⟨blanks, hblanks⟩ := behind
  cases blanks with
  | cons c cs => exact p.endsBefore_blank (Bool.and_eq_true_iff.mp hblanks).1
  | nil =>
    cases ps with
    | nil => exact p.endsBefore_nil
    | cons q ps =>
      rw [write, List.flatMap_cons, List.nil_append, List.append_assoc]
      exact p.endsBefore_piece q.1 (h rfl q rfl) _

theorem map_tokens_write (front : Blanks) (ps : List (Piece × Blanks))
    (hps : ps.IsChain fun p q => p.2.1 = [] → p.1.joins q.1 = false) (n : Nat) :
    (Cursor.tokens ⟨n, write front ps⟩).map (fun t => (t.kind, t.literal)) =
      ps.map fun p => (p.1.kind, String.ofList p.1.literal) := by
  induction ps generalizing front n with
  | nil =>
    rw [write, tokens_blanks (List.all_eq_true.mp front.2), List.flatMap_nil, tokens_nil]
    rfl
  | cons p ps ih =>
    have hends : p.1.EndsBefore (write p.2 ps) := endsBefore_written p.1 p.2 fun hnil q hq => by
      obtain ⟨ps, rfl⟩ := List.head?_eq_some_iff.mp hq
      exact (List.isChain_cons_cons.mp hps).1 hnil
    have hwrite : write front (p :: ps) = front.1 ++ (p.1.text ++ write p.2 ps) := by
      simp only [write, List.flatMap_cons, List.append_assoc]
    rw [hwrite, tokens_blanks (List.all_eq_true.mp front.2), p.1.tokens_text hends, List.map_cons,
      List.map_cons, ih p.2 hps.tail]

/-- Pieces that are written out are read back, each with the text that it keeps: blanks are needed
between two of them only where they would join. -/
theorem tokens_write (front : Blanks) (ps : List (Piece × Blanks))
    (hps : ps.IsChain fun p q => p.2.1 = [] → p.1.joins q.1 = false) :
    (Cursor.start (String.ofList (write front ps))).tokens.map (fun t => (t.kind, t.literal)) =
      ps.map fun p => (p.1.kind, String.ofList p.1.literal) := by
  rw [Cursor.start, String.toList_ofList]
  exact map_tokens_write front ps hps 0

/-- Pieces that touch, but for a line feed before `_x` and one at the end. -/
theorem tokens_write_sample :
    let nothing : Blanks := ⟨[], rfl⟩
    let newline : Blanks := ⟨['\n'], rfl⟩
    let ps : List (Piece × Blanks) :=
      [(.digits '1' ['2'] rfl rfl, nothing), (.word 'v' ['a', 'r'] rfl rfl, newline),
        (.word '_' ['x'] rfl rfl, nothing), (.quoted ['\\', '"'] rfl, nothing),
        (.quoted ['é'] rfl, nothing), (.symbol .equal, nothing), (.symbol .assign, nothing),
        (.odd '€' rfl, newline)]
    ps.IsChain (fun p q => p.2.1 = [] → p.1.joins q.1 = false) ∧
    String.ofList (write nothing ps) = "12var\n_x\"\\\"\"\"é\"===€\n" ∧
    (Cursor.start (String.ofList (write nothing ps))).tokens.map (fun t => (t.kind, t.literal)) =
      [(.integer, "12"), (.keyword .var, "var"), (.ident, "_x"), (.string, "\\\""),
        (.string, "é"), (.symbol .equal, "=="), (.symbol .assign, "="), (.illegal, "€")] := by
  intro nothing newline ps
  have hps : ps.IsChain fun p q => p.2.1 = [] → p.1.joins q.1 = false := by decide
  exact ⟨hps, by decide, (tokens_write nothing ps hps).trans (by decide)⟩

end Lexing

end TinyScript
