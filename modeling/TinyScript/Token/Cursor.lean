import TinyScript.Token

/-!
# Reading tokens

A `Cursor` is a place in a source text. `Cursor.next` reads one token and never fails: a character
that starts no word is an `illegal` token, and a string without a closing quote runs to the end.
At the end of the text the end token is read again and again. `Cursor.tokens` is everything
before the first end token.

A lexeme never loses text: what it covers and what it leaves make up the input (`Lexeme.scan_split`).
-/

namespace TinyScript

def byteSize (cs : List Char) : Nat := cs.foldr (fun c n => c.utf8Size + n) 0

def isBlank (c : Char) : Bool := c == ' ' || c == '\t' || c == '\n' || c == '\r'

def isLetter (c : Char) : Bool := c.isAlpha || c == '_'

def isWordChar (c : Char) : Bool := isLetter c || c.isDigit

structure Lexeme where
  kind : Token.Kind
  literal : List Char
  /-- The text covered, quotes included. -/
  covered : List Char
  rest : List Char

namespace Lexeme

/-- The body of a string and what follows it. The rest starts with the closing quote, if there is
one: the first quote that no backslash protects. A backslash protects the next character, and a
last lone backslash belongs to the body. -/
def stringBody : List Char → List Char × List Char
  | [] => ([], [])
  | '"' :: cs => ([], '"' :: cs)
  | '\\' :: c :: cs => ('\\' :: c :: (stringBody cs).1, (stringBody cs).2)
  | c :: cs => (c :: (stringBody cs).1, (stringBody cs).2)

def wordKind (word : List Char) : Token.Kind :=
  match Keyword.ofText? (String.ofList word) with
  | some k => .keyword k
  | none => .ident

/-- The lexeme at the front of `c :: cs`; `c` is not blank. -/
def scan (c : Char) (cs : List Char) : Lexeme :=
  if isLetter c then
    let word := c :: cs.takeWhile isWordChar
    ⟨wordKind word, word, word, cs.dropWhile isWordChar⟩
  else if c.isDigit then
    let digits := c :: cs.takeWhile Char.isDigit
    ⟨.integer, digits, digits, cs.dropWhile Char.isDigit⟩
  else if c = '"' then
    match stringBody cs with
    | (body, []) => ⟨.string, body, c :: body, []⟩
    | (body, quote :: rest) => ⟨.string, body, c :: (body ++ [quote]), rest⟩
  else
    let single : Lexeme :=
      ⟨((Symbol.ofChar? c).map Token.Kind.symbol).getD .illegal, [c], [c], cs⟩
    match cs with
    | [] => single
    | d :: rest =>
      match Symbol.ofChars? c d with
      | some s => ⟨.symbol s, [c, d], [c, d], rest⟩
      | none => single

theorem stringBody_append (cs : List Char) : (stringBody cs).1 ++ (stringBody cs).2 = cs := by
  fun_induction stringBody cs <;> simp_all

theorem scan_split (c : Char) (cs : List Char) :
    (scan c cs).covered ++ (scan c cs).rest = c :: cs := by
  have hs := stringBody_append cs
  unfold scan
  split
  · simp
  split
  · simp
  split
  · split <;> rename_i h <;> simp_all
  · split
    · rfl
    · split <;> rfl

theorem covered_ne_nil (c : Char) (cs : List Char) : (scan c cs).covered ≠ [] := by
  unfold scan
  repeat' split
  all_goals simp

theorem rest_length_le (c : Char) (cs : List Char) : (scan c cs).rest.length ≤ cs.length := by
  have h := congrArg List.length (scan_split c cs)
  have hpos := List.length_pos_iff.mpr (covered_ne_nil c cs)
  simp only [List.length_append, List.length_cons] at h
  omega

end Lexeme

/-- A place in a source text: how many bytes came before and the characters still to come. -/
structure Cursor where
  offset : Nat
  rest : List Char
  deriving DecidableEq, Repr

namespace Cursor

def start (source : String) : Cursor := ⟨0, source.toList⟩

def skipBlanks (c : Cursor) : Cursor :=
  ⟨c.offset + byteSize (c.rest.takeWhile isBlank), c.rest.dropWhile isBlank⟩

def read : Cursor → Token × Cursor
  | ⟨offset, []⟩ => (.endAt offset, ⟨offset, []⟩)
  | ⟨offset, c :: cs⟩ =>
    let lexeme := Lexeme.scan c cs
    let stop := offset + byteSize lexeme.covered
    (⟨lexeme.kind, String.ofList lexeme.literal, ⟨offset, stop⟩⟩, ⟨stop, lexeme.rest⟩)

def next (c : Cursor) : Token × Cursor := c.skipBlanks.read

theorem length_skipBlanks (c : Cursor) : c.skipBlanks.rest.length ≤ c.rest.length := by
  have h := congrArg List.length (List.takeWhile_append_dropWhile (p := isBlank) (l := c.rest))
  simp only [List.length_append] at h
  simp only [skipBlanks]
  omega

theorem length_next (c : Cursor) (h : c.skipBlanks.rest ≠ []) :
    c.next.2.rest.length < c.rest.length := by
  have hs := length_skipBlanks c
  rw [next]
  generalize c.skipBlanks = d at h hs
  match d with
  | ⟨_, []⟩ => contradiction
  | ⟨_, ch :: cs⟩ => exact Nat.lt_of_le_of_lt (Lexeme.rest_length_le ch cs) hs

def tokens (c : Cursor) : List Token :=
  if h : c.skipBlanks.rest = [] then []
  else
    have := length_next c h
    c.next.1 :: tokens c.next.2
termination_by c.rest.length

def endToken (source : String) : Token := .endAt source.utf8ByteSize

end Cursor

end TinyScript
