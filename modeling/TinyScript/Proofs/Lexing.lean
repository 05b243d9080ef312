import TinyScript.Proofs.Grammar
import TinyScript.Token.Cursor

/-!
# The words of a text

`words` is what the tokens of a text are once their places are forgotten. It is read off from the
front by one rule for a blank and one for a lexeme, and from these come the rules for each kind of
word. A name, a number or a keyword needs that no word character follows, and a symbol that no `=`
does; marks and strings can be followed by anything.
-/

namespace TinyScript

def words (cs : List Char) : List Terminal := (Cursor.tokens ⟨0, cs⟩).map Token.terminal

def Lexeme.terminal (l : Lexeme) : Terminal :=
  Token.terminal ⟨l.kind, String.ofList l.literal, ⟨0, 0⟩⟩

namespace Lexing

-- ---------------------------------------------------------------------------
-- One word
-- ---------------------------------------------------------------------------

theorem tokens_congr {c d : Cursor} (h : c.skipBlanks = d.skipBlanks) : c.tokens = d.tokens := by
  unfold Cursor.tokens
  simp only [h, Cursor.next]

theorem skipBlanks_cons_blank (hc : isBlank c = true) :
    Cursor.skipBlanks ⟨n, c :: cs⟩ = Cursor.skipBlanks ⟨n + c.utf8Size, cs⟩ := by
  simp [Cursor.skipBlanks, hc, byteSize, Nat.add_assoc]

theorem skipBlanks_cons (hc : isBlank c = false) :
    Cursor.skipBlanks ⟨n, c :: cs⟩ = ⟨n, c :: cs⟩ := by
  simp [Cursor.skipBlanks, hc, byteSize]

@[simp] theorem tokens_nil (n : Nat) : Cursor.tokens ⟨n, []⟩ = [] := by
  simp [Cursor.tokens, Cursor.skipBlanks]

theorem tokens_cons (hc : isBlank c = false) (cs : List Char) (n : Nat) :
    Cursor.tokens ⟨n, c :: cs⟩ =
      (Cursor.read ⟨n, c :: cs⟩).1 :: Cursor.tokens (Cursor.read ⟨n, c :: cs⟩).2 := by
  rw [Cursor.tokens]
  simp only [skipBlanks_cons hc, Cursor.next, reduceCtorEq, dif_neg, not_false_eq_true]

theorem map_terminal_tokens (n : Nat) (cs : List Char) :
    (Cursor.tokens ⟨n, cs⟩).map Token.terminal = words cs := by
  suffices ∀ n m, (Cursor.tokens ⟨n, cs⟩).map Token.terminal =
      (Cursor.tokens ⟨m, cs⟩).map Token.terminal from this n 0
  induction hlen : cs.length using Nat.strongRecOn generalizing cs with
  | ind len ih =>
    subst hlen
    intro n m
    cases cs with
    | nil => rw [tokens_nil, tokens_nil]
    | cons c cs =>
      by_cases hc : isBlank c = true
      · rw [tokens_congr (skipBlanks_cons_blank hc), tokens_congr (skipBlanks_cons_blank hc)]
        exact ih _ (Nat.lt_succ_self _) cs rfl _ _
      · have hc := Bool.eq_false_iff.mpr hc
        rw [tokens_cons hc, tokens_cons hc, List.map_cons, List.map_cons]
        exact congrArg _ (ih _ (Nat.lt_succ_of_le (Lexeme.rest_length_le c cs)) _ rfl _ _)

@[simp] theorem words_nil : words [] = [] := by rw [words, tokens_nil, List.map_nil]

theorem words_blank (hc : isBlank c = true) : words (c :: cs) = words cs := by
  rw [words, tokens_congr (skipBlanks_cons_blank hc), map_terminal_tokens]

theorem words_scan (hc : isBlank c = false) :
    words (c :: cs) = (Lexeme.scan c cs).terminal :: words (Lexeme.scan c cs).rest := by
  rw [words, tokens_cons hc, List.map_cons]
  exact congrArg _ (map_terminal_tokens _ _)

-- ---------------------------------------------------------------------------
-- Symbols
-- ---------------------------------------------------------------------------

theorem ofChar?_class (h : Symbol.ofChar? c = some s) :
    isBlank c = false ∧ isLetter c = false ∧ c.isDigit = false ∧ c ≠ '"' := by
  unfold Symbol.ofChar? at h
  split at h
  case h_19 => exact nomatch h
  all_goals decide

theorem ofChars?_class (h : Symbol.ofChars? c d = some s) :
    isBlank c = false ∧ isLetter c = false ∧ c.isDigit = false ∧ c ≠ '"' := by
  unfold Symbol.ofChars? at h
  split at h
  case h_5 => exact nomatch h
  all_goals decide

theorem ofChars?_of_ne (hd : d ≠ '=') (c : Char) : Symbol.ofChars? c d = none := by
  unfold Symbol.ofChars?
  split <;> simp_all

theorem ofChars?_none (h : Symbol.ofChar? c = none) (d : Char) : Symbol.ofChars? c d = none := by
  unfold Symbol.ofChars?
  split
  case h_5 => rfl
  all_goals exact nomatch h

theorem scan_single (hletter : isLetter c = false) (hdigit : c.isDigit = false) (hquote : c ≠ '"')
    (hcs : ∀ d ∈ cs.head?, Symbol.ofChars? c d = none) :
    Lexeme.scan c cs =
      ⟨((Symbol.ofChar? c).map Token.Kind.symbol).getD .illegal, [c], [c], cs⟩ := by
  unfold Lexeme.scan
  rw [if_neg (by simp [hletter]), if_neg (by simp [hdigit]), if_neg hquote]
  cases cs with
  | nil => rfl
  | cons d cs => simp [hcs d rfl]

theorem scan_double (h : Symbol.ofChars? c d = some s) (cs : List Char) :
    Lexeme.scan c (d :: cs) = ⟨.symbol s, [c, d], [c, d], cs⟩ := by
  obtain ⟨-, hletter, hdigit, hquote⟩ := ofChars?_class h
  unfold Lexeme.scan
  rw [if_neg (by simp [hletter]), if_neg (by simp [hdigit]), if_neg hquote]
  simp only [h]

theorem words_single (h : Symbol.ofChar? c = some s)
    (hcs : ∀ d ∈ cs.head?, Symbol.ofChars? c d = none) :
    words (c :: cs) = .symbol s :: words cs := by
  obtain ⟨hblank, hletter, hdigit, hquote⟩ := ofChar?_class h
  rw [words_scan hblank, scan_single hletter hdigit hquote hcs, h]
  rfl

theorem words_double (h : Symbol.ofChars? c d = some s) :
    words (c :: d :: cs) = .symbol s :: words cs := by
  rw [words_scan (ofChars?_class h).1, scan_double h]
  rfl

def isMark : Symbol → Bool
  | .comma | .semicolon | .colon | .lparen | .rparen => true
  | .lbrace | .rbrace | .lbracket | .rbracket => true
  | _ => false

theorem words_mark (h : Symbol.ofChar? c = some s) (hs : isMark s = true) :
    words (c :: cs) = .symbol s :: words cs := by
  refine words_single h fun d _ => ?_
  unfold Symbol.ofChars?
  split
  case h_5 => rfl
  all_goals
    obtain rfl := Option.some.inj h
    exact nomatch hs

/-- The symbols that are another symbol with an `=` behind. -/
def isOpen : Symbol → Bool
  | .assign | .bang | .less | .greater => true
  | _ => false

theorem scan_symbol (s : Symbol) (hrest : isOpen s = true → '=' ∉ rest.head?) :
    ∃ c cs, s.text.toList = c :: cs ∧ isBlank c = false ∧
      Lexeme.scan c (cs ++ rest) = ⟨.symbol s, s.text.toList, s.text.toList, rest⟩ := by
  cases s
  case equal | notEqual | lessEqual | greaterEqual => exact ⟨_, _, rfl, rfl, scan_double rfl rest⟩
  case assign | bang | less | greater =>
    exact ⟨_, _, rfl, rfl, scan_single rfl rfl (by decide) fun d hd =>
      ofChars?_of_ne (fun h => hrest rfl (h ▸ hd)) _⟩
  all_goals exact ⟨_, _, rfl, rfl, scan_single rfl rfl (by decide) fun _ _ => rfl⟩

theorem words_symbol (s : Symbol) (hcs : (cs.head? == some '=') = false) :
    words (s.text.toList ++ cs) = .symbol s :: words cs := by
  have hrest : isOpen s = true → '=' ∉ cs.head? := fun _ h => by
    simp [Option.mem_def.mp h] at hcs
  obtain ⟨c, ds, htext, hc, hscan⟩ := scan_symbol s hrest
  rw [htext, List.cons_append, words_scan hc, hscan]
  rfl

theorem words_equals (cs : List Char) :
    ∃ s ds, words ('=' :: cs) = .symbol s :: words ds ∧ s ∈ [Symbol.assign, .equal] := by
  match cs with
  | [] => exact ⟨.assign, [], words_single rfl nofun, by decide⟩
  | d :: cs =>
    by_cases hd : d = '='
    · subst hd
      exact ⟨.equal, cs, words_double rfl, by decide⟩
    · refine ⟨.assign, d :: cs, words_single rfl ?_, by decide⟩
      rintro _ ⟨⟩
      exact ofChars?_of_ne hd _

-- ---------------------------------------------------------------------------
-- Names, keywords and numbers
-- ---------------------------------------------------------------------------

/-- What follows continues neither a word nor a symbol. -/
def isApart (cs : List Char) : Bool := cs.head?.all fun c => !isWordChar c && c != '='

theorem isApart_head (h : isApart cs = true) (hc : c ∈ cs.head?) :
    isWordChar c = false ∧ c ≠ '=' := by
  rw [isApart, Option.mem_def.mp hc] at h
  simpa using h

theorem takeWhile_append_stop {p : α → Bool} {xs ys : List α} (hxs : ∀ x ∈ xs, p x = true)
    (hys : ∀ y ∈ ys.head?, p y = false) :
    (xs ++ ys).takeWhile p = xs ∧ (xs ++ ys).dropWhile p = ys := by
  rw [List.takeWhile_append_of_pos hxs, List.dropWhile_append_of_pos hxs]
  cases ys with
  | nil => simp
  | cons y ys => simp [hys y rfl]

theorem isLetter_class (hc : isLetter c = true) : isBlank c = false := by
  refine Bool.eq_false_iff.mpr fun hb => ?_
  simp only [isBlank, Bool.or_eq_true, beq_iff_eq] at hb
  rcases hb with ((rfl | rfl) | rfl) | rfl <;> exact absurd hc (by decide)

theorem isLetter_bounds (hc : isLetter c = true) : 65 ≤ c.toNat ∧ c.toNat ≤ 122 := by
  have hl : ((decide ('A'.val ≤ c.val ∧ c.val ≤ 'Z'.val) ||
    decide ('a'.val ≤ c.val) && decide (c.val ≤ 'z'.val)) || c == '_') = true := hc
  simp only [Bool.or_eq_true, Bool.and_eq_true, decide_eq_true_eq, beq_iff_eq,
    UInt32.le_iff_toNat_le] at hl
  rcases hl with (⟨h, h'⟩ | ⟨h, h'⟩) | rfl
  · exact ⟨h, Nat.le_trans h' (by decide)⟩
  · exact ⟨Nat.le_trans (by decide) h, h'⟩
  · decide

theorem isDigit_class (hc : c.isDigit = true) : isBlank c = false ∧ isLetter c = false := by
  constructor
  · refine Bool.eq_false_iff.mpr fun hb => ?_
    simp only [isBlank, Bool.or_eq_true, beq_iff_eq] at hb
    rcases hb with ((rfl | rfl) | rfl) | rfl <;> exact absurd hc (by decide)
  · refine Bool.eq_false_iff.mpr fun hl => ?_
    have hletter := isLetter_bounds hl
    have hdigit : 48 ≤ c.toNat ∧ c.toNat ≤ 57 := Char.isDigit_iff_toNat.mp hc
    omega

theorem scan_word (hc : isLetter c = true) (hcs : ∀ x ∈ cs, isWordChar x = true)
    (hrest : ∀ y ∈ rest.head?, isWordChar y = false) :
    Lexeme.scan c (cs ++ rest) = ⟨Lexeme.wordKind (c :: cs), c :: cs, c :: cs, rest⟩ := by
  obtain ⟨htake, hdrop⟩ := takeWhile_append_stop hcs hrest
  rw [Lexeme.scan, if_pos hc, htake, hdrop]

theorem scan_integer (hd : d.isDigit = true) (hds : ∀ x ∈ ds, x.isDigit = true)
    (hrest : ∀ y ∈ rest.head?, y.isDigit = false) :
    Lexeme.scan d (ds ++ rest) = ⟨.integer, d :: ds, d :: ds, rest⟩ := by
  obtain ⟨htake, hdrop⟩ := takeWhile_append_stop hds hrest
  rw [Lexeme.scan, if_neg (by simp [(isDigit_class hd).2]), if_pos hd, htake, hdrop]

theorem words_word (hc : isLetter c = true) (hcs : ∀ x ∈ cs, isWordChar x = true)
    (hrest : isApart rest = true) :
    words (c :: cs ++ rest) =
      Lexeme.terminal ⟨Lexeme.wordKind (c :: cs), c :: cs, c :: cs, rest⟩ :: words rest := by
  rw [List.cons_append, words_scan (isLetter_class hc),
    scan_word hc hcs fun y hy => (isApart_head hrest hy).1]

theorem words_integer (hds : ∀ d ∈ ds, d.isDigit = true) (hne : ds ≠ [])
    (hrest : isApart rest = true) :
    words (ds ++ rest) = .integer (String.ofList ds) :: words rest := by
  obtain ⟨d, ds, rfl⟩ := List.exists_cons_of_ne_nil hne
  obtain ⟨hd, hds⟩ := List.forall_mem_cons.mp hds
  have hstop : ∀ y ∈ rest.head?, y.isDigit = false := fun y hy =>
    (Bool.or_eq_false_iff.mp (isApart_head hrest hy).1).2
  rw [List.cons_append, words_scan (isDigit_class hd).1, scan_integer hd hds hstop]
  rfl

theorem words_ident (hc : isLetter c = true) (hcs : ∀ x ∈ cs, isWordChar x = true)
    (hkey : Keyword.ofText? (String.ofList (c :: cs)) = none) (hrest : isApart rest = true) :
    words (c :: cs ++ rest) = .ident (String.ofList (c :: cs)) :: words rest := by
  rw [words_word hc hcs hrest, Lexeme.wordKind, hkey]
  rfl

theorem words_keyword (k : Keyword) (hrest : isApart rest = true) :
    words (k.text.toList ++ rest) = .keyword k :: words rest := by
  obtain ⟨c, cs, htext, hc, hcs⟩ : ∃ c cs, k.text.toList = c :: cs ∧ isLetter c = true ∧
      cs.all isWordChar = true := by
    cases k <;> exact ⟨_, _, rfl, rfl, rfl⟩
  have hkind : Lexeme.wordKind (c :: cs) = .keyword k := by
    rw [Lexeme.wordKind, ← htext, String.ofList_toList, Keyword.ofText?_text]
  rw [htext, words_word hc (List.all_eq_true.mp hcs) hrest, hkind]
  rfl

-- ---------------------------------------------------------------------------
-- Strings
-- ---------------------------------------------------------------------------

/-- The texts that can stand between quotes: no quote and no backslash but in pairs of a backslash
and any character. -/
def isQuotable : List Char → Bool
  | [] => true
  | '"' :: _ => false
  | ['\\'] => false
  | '\\' :: _ :: cs => isQuotable cs
  | _ :: cs => isQuotable cs

theorem stringBody_quotable (h : isQuotable cs = true) (rest : List Char) :
    Lexeme.stringBody (cs ++ '"' :: rest) = (cs, '"' :: rest) := by
  fun_induction isQuotable cs with
  | case1 => rfl
  | case2 | case3 => exact nomatch h
  | case4 c cs ih => simp [Lexeme.stringBody, ih h]
  | case5 c cs hquote hlast hslash ih =>
    have hc : c ≠ '\\' := by
      rintro rfl
      cases cs with
      | nil => exact hlast rfl rfl
      | cons d cs => exact hslash d cs rfl rfl
    rw [List.cons_append, Lexeme.stringBody, ih h]
    · exact hquote
    · exact fun _ _ h => absurd h hc

theorem scan_quoted (h : isQuotable cs = true) (rest : List Char) :
    Lexeme.scan '"' (cs ++ '"' :: rest) = ⟨.string, cs, '"' :: (cs ++ ['"']), rest⟩ := by
  rw [Lexeme.scan, if_neg (by decide), if_neg (by decide), if_pos rfl, stringBody_quotable h rest]

theorem words_string (h : isQuotable cs = true) (rest : List Char) :
    words ('"' :: cs ++ '"' :: rest) = .string (String.ofList cs) :: words rest := by
  rw [List.cons_append, words_scan (by decide), scan_quoted h]
  rfl

end Lexing

end TinyScript
