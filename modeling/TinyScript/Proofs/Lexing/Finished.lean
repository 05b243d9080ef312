import TinyScript.Proofs.Grammar.Binding
import TinyScript.Proofs.Lexing.Tiling
import TinyScript.Text.WhiteSpace

/-!
# Texts that end in a semicolon

A semicolon joins no other word. So the tokens of a text whose last word is one do not depend on
what is written behind it, and what is written there is read as if it stood alone
(`Finished.tokens_append`). Such a text can be trimmed too, unless it starts with white space that
is no blank (`Finished.trim`).
-/

namespace TinyScript.Lexing

def Finished (cs : List Char) : Prop := (words cs).getLast? = some (.symbol .semicolon)

-- ---------------------------------------------------------------------------
-- One lexeme
-- ---------------------------------------------------------------------------

theorem takeWhile_swap {p : Char → Bool} {cs : List Char} (h : cs.dropWhile p = d :: ds)
    (ds' : List Char) :
    (cs.takeWhile p ++ d :: ds').takeWhile p = cs.takeWhile p ∧
      (cs.takeWhile p ++ d :: ds').dropWhile p = d :: ds' := by
  refine takeWhile_append_stop (List.all_eq_true.mp List.all_takeWhile) ?_
  rintro _ ⟨⟩
  have hd := List.head?_dropWhile_not p cs
  rw [h] at hd
  exact hd

theorem stringBody_swap {cs : List Char} (h : Lexeme.stringBody cs = (body, q :: ds))
    (ds' : List Char) :
    q = '"' ∧ Lexeme.stringBody (body ++ '"' :: ds') = (body, '"' :: ds') := by
  have hbehind : (Lexeme.stringBody cs).2 = q :: ds := by rw [h]
  refine ⟨(isQuote_stringBody hbehind).1, stringBody_quotable ?_ ds'⟩
  refine Bool.not_eq_false _ ▸ fun hopen => ?_
  have hnil : (Lexeme.stringBody cs).2 = [] := stringBody_unclosed (by rwa [h])
  exact nomatch hbehind.symm.trans hnil

/-- A lexeme that stops before a character stops there whatever follows. -/
theorem scan_swap {c d : Char} {cs ds : List Char}
    (h : Lexeme.scan c cs = ⟨kind, literal, covered, d :: ds⟩) (ds' : List Char) :
    ∃ front, covered = c :: front ∧
      Lexeme.scan c (front ++ d :: ds') = ⟨kind, literal, covered, d :: ds'⟩ := by
  unfold Lexeme.scan at h ⊢
  by_cases hletter : isLetter c = true
  · rw [if_pos hletter] at h
    simp only [Lexeme.mk.injEq] at h
    obtain ⟨rfl, rfl, rfl, hrest⟩ := h
    obtain ⟨htake, hdrop⟩ := takeWhile_swap hrest ds'
    exact ⟨_, rfl, by rw [if_pos hletter, htake, hdrop]⟩
  by_cases hdigit : c.isDigit = true
  · rw [if_neg hletter, if_pos hdigit] at h
    simp only [Lexeme.mk.injEq] at h
    obtain ⟨rfl, rfl, rfl, hrest⟩ := h
    obtain ⟨htake, hdrop⟩ := takeWhile_swap hrest ds'
    exact ⟨_, rfl, by rw [if_neg hletter, if_pos hdigit, htake, hdrop]⟩
  by_cases hquote : c = '"'
  · rw [if_neg hletter, if_neg hdigit, if_pos hquote] at h
    split at h
    · simp at h
    · rename_i body q rest hbody
      simp only [Lexeme.mk.injEq] at h
      obtain ⟨rfl, rfl, rfl, rfl⟩ := h
      obtain ⟨rfl, hswap⟩ := stringBody_swap hbody (d :: ds')
      refine ⟨body ++ ['"'], rfl, ?_⟩
      have hsame : body ++ ['"'] ++ d :: ds' = body ++ '"' :: d :: ds' := by simp
      rw [if_neg hletter, if_neg hdigit, if_pos hquote, hsame, hswap]
  rw [if_neg hletter, if_neg hdigit, if_neg hquote] at h
  cases cs with
  | nil => simp at h
  | cons e rest =>
    dsimp only at h
    cases hpair : Symbol.ofChars? c e with
    | some s =>
      simp only [hpair, Lexeme.mk.injEq] at h
      obtain ⟨rfl, rfl, rfl, rfl⟩ := h
      refine ⟨[e], rfl, ?_⟩
      simp [hletter, hdigit, hquote, hpair]
    | none =>
      simp only [hpair, Lexeme.mk.injEq, List.cons.injEq] at h
      obtain ⟨rfl, rfl, rfl, rfl, rfl⟩ := h
      refine ⟨[], rfl, ?_⟩
      simp [hletter, hdigit, hquote, hpair]

theorem scan_before {c : Char} {cs xs ds : List Char} (h : (Lexeme.scan c cs).rest = xs ++ ds)
    (hxs : xs ≠ []) :
    ∃ front, (Lexeme.scan c cs).covered = c :: front ∧ ∀ ds',
      Lexeme.scan c (front ++ (xs ++ ds')) = { Lexeme.scan c cs with rest := xs ++ ds' } := by
  obtain ⟨x, xs, rfl⟩ := List.exists_cons_of_ne_nil hxs
  generalize hl : Lexeme.scan c cs = l at h
  obtain ⟨kind, literal, covered, rest⟩ := l
  obtain rfl : rest = x :: (xs ++ ds) := h
  obtain ⟨front, rfl, -⟩ := scan_swap hl ds
  refine ⟨front, rfl, fun ds' => ?_⟩
  obtain ⟨front', hfront, hscan⟩ := scan_swap hl (xs ++ ds')
  obtain rfl := (List.cons.inj hfront).2
  exact hscan

theorem scan_semicolon (ds : List Char) :
    Lexeme.scan ';' ds = ⟨.symbol .semicolon, [';'], [';'], ds⟩ := by
  cases ds <;> rfl

theorem semicolon_of_scan (h : (Lexeme.scan c cs).kind = .symbol .semicolon) : c = ';' := by
  have hsingle : ((Symbol.ofChar? c).map Token.Kind.symbol).getD .illegal = .symbol .semicolon →
      c = ';' := by
    unfold Symbol.ofChar?
    split <;> simp
  unfold Lexeme.scan at h
  split at h
  · have hword : Lexeme.wordKind (c :: cs.takeWhile isWordChar) = .symbol .semicolon := h
    unfold Lexeme.wordKind at hword
    split at hword <;> exact nomatch hword
  split at h
  · exact nomatch h
  split at h
  · split at h <;> exact nomatch h
  split at h
  · exact hsingle h
  · split at h
    · rename_i hpair
      obtain rfl := Token.Kind.symbol.inj h
      unfold Symbol.ofChars? at hpair
      split at hpair <;> exact nomatch hpair
    · exact hsingle h

-- ---------------------------------------------------------------------------
-- All tokens
-- ---------------------------------------------------------------------------

theorem read_scan (h : Lexeme.scan c cs = l) :
    Cursor.read ⟨n, c :: cs⟩ =
      (⟨l.kind, String.ofList l.literal, ⟨n, n + byteSize l.covered⟩⟩,
        ⟨n + byteSize l.covered, l.rest⟩) := by
  rw [Cursor.read, h]

theorem tokens_blanks {cs : List Char} (hcs : ∀ c ∈ cs, isBlank c = true) (n : Nat)
    (ds : List Char) : Cursor.tokens ⟨n, cs ++ ds⟩ = Cursor.tokens ⟨n + byteSize cs, ds⟩ := by
  induction cs generalizing n with
  | nil => rfl
  | cons c cs ih =>
    obtain ⟨hc, hcs⟩ := List.forall_mem_cons.mp hcs
    rw [List.cons_append, tokens_congr (skipBlanks_cons_blank hc), ih hcs, Nat.add_assoc]
    rfl

theorem blank_of_words (h : words cs = []) : ∀ c ∈ cs, isBlank c = true := by
  induction cs with
  | nil => exact nofun
  | cons c cs ih =>
    by_cases hc : isBlank c = true
    · rw [words_blank hc] at h
      exact List.forall_mem_cons.mpr ⟨hc, ih h⟩
    · rw [words_scan (Bool.eq_false_iff.mpr hc)] at h
      exact nomatch h

/-- `front` is the text up to its last semicolon, with only blanks behind it, and these tokens are
read whatever is there instead of the blanks. -/
structure UpTo (front cs : List Char) : Prop where
  behind : ∃ blanks, cs = front ++ blanks ∧ ∀ c ∈ blanks, isBlank c = true
  last : front.getLast? = some ';'
  tokens : ∀ n ds, Cursor.tokens ⟨n, front ++ ds⟩ =
    Cursor.tokens ⟨n, cs⟩ ++ Cursor.tokens ⟨n + byteSize front, ds⟩

theorem upTo_semicolon (h : words cs = []) : UpTo [';'] (';' :: cs) := by
  have hblanks := blank_of_words h
  refine ⟨⟨cs, rfl, hblanks⟩, rfl, fun n ds => ?_⟩
  have hcs := tokens_blanks hblanks (n + byteSize [';']) []
  rw [List.append_nil, tokens_nil] at hcs
  rw [List.singleton_append, tokens_cons rfl, tokens_cons rfl, read_scan (scan_semicolon ds),
    read_scan (scan_semicolon cs)]
  simp only [hcs, List.cons_append, List.nil_append]

theorem UpTo.blank (h : UpTo front cs) (hc : isBlank c = true) : UpTo (c :: front) (c :: cs) := by
  obtain ⟨blanks, rfl, hblanks⟩ := h.behind
  refine ⟨⟨blanks, rfl, hblanks⟩, by simp [List.getLast?_cons, h.last], fun n ds => ?_⟩
  rw [List.cons_append, tokens_congr (skipBlanks_cons_blank hc),
    tokens_congr (skipBlanks_cons_blank hc), h.tokens, Nat.add_assoc]
  rfl

theorem UpTo.scan (h : UpTo front (Lexeme.scan c cs).rest) (hc : isBlank c = false) :
    UpTo ((Lexeme.scan c cs).covered ++ front) (c :: cs) := by
  obtain ⟨blanks, hrest, hblanks⟩ := h.behind
  have hne : front ≠ [] := by
    rintro rfl
    exact nomatch h.last
  obtain ⟨before, hcovered, hscan⟩ := scan_before hrest hne
  refine ⟨⟨blanks, ?_, hblanks⟩, ?_, fun n ds => ?_⟩
  · rw [List.append_assoc, ← hrest, Lexeme.scan_split]
  · rw [List.getLast?_append, h.last]
    rfl
  · have hshape : (Lexeme.scan c cs).covered ++ front ++ ds = c :: (before ++ (front ++ ds)) := by
      simp [hcovered]
    rw [hshape, tokens_cons hc, tokens_cons hc, read_scan (hscan ds), read_scan rfl,
      List.cons_append, byteSize_append, ← Nat.add_assoc]
    exact congrArg _ (h.tokens _ ds)

theorem Finished.upTo {cs : List Char} (h : Finished cs) : ∃ front, UpTo front cs := by
  induction hlen : cs.length using Nat.strongRecOn generalizing cs with
  | ind len ih =>
    subst hlen
    cases cs with
    | nil =>
      rw [Finished, words_nil] at h
      exact nomatch h
    | cons c cs =>
      by_cases hc : isBlank c = true
      · rw [Finished, words_blank hc] at h
        obtain ⟨front, hfront⟩ := ih _ (Nat.lt_succ_self _) h rfl
        exact ⟨_, hfront.blank hc⟩
      · have hc := Bool.eq_false_iff.mpr hc
        rw [Finished, words_scan hc] at h
        cases hwords : words (Lexeme.scan c cs).rest with
        | nil =>
          -- the lexeme is the last
          rw [hwords] at h
          obtain rfl := semicolon_of_scan (Grammar.terminal_symbol.mp (Option.some.inj h))
          rw [scan_semicolon] at hwords
          exact ⟨_, upTo_semicolon hwords⟩
        | cons u us =>
          have hrest : Finished (Lexeme.scan c cs).rest := by
            rw [hwords, List.getLast?_cons_cons, ← hwords] at h
            exact h
          have hlt := Nat.lt_succ_of_le (Lexeme.rest_length_le c cs)
          obtain ⟨front, hfront⟩ := ih _ hlt hrest rfl
          exact ⟨_, hfront.scan hc⟩

/-- What is behind a text that ends in a semicolon is read as if it stood alone. -/
theorem Finished.tokens_append {cs : List Char} (h : Finished cs) (n : Nat) (ds : List Char) :
    Cursor.tokens ⟨n, cs ++ ds⟩ =
      Cursor.tokens ⟨n, cs⟩ ++ Cursor.tokens ⟨n + byteSize cs, ds⟩ := by
  obtain ⟨front, hfront⟩ := h.upTo
  obtain ⟨blanks, hsplit, hblanks⟩ := hfront.behind
  have hbehind := hfront.tokens n (blanks ++ ds)
  rw [← List.append_assoc, ← hsplit, tokens_blanks hblanks] at hbehind
  rw [hbehind, hsplit, byteSize_append, Nat.add_assoc]

theorem Finished.words_append {cs : List Char} (h : Finished cs) (ds : List Char) :
    words (cs ++ ds) = words cs ++ words ds := by
  rw [words, h.tokens_append, List.map_append]
  exact congrArg (words cs ++ ·) (map_terminal_tokens _ _)

-- ---------------------------------------------------------------------------
-- White space around a text
-- ---------------------------------------------------------------------------

theorem not_white_semicolon : isWhiteSpace ';' = false := by decide

theorem isWhiteSpace_of_isBlank (h : isBlank c = true) : isWhiteSpace c = true := by
  simp only [isBlank, Bool.or_eq_true, beq_iff_eq] at h
  rcases h with ((rfl | rfl) | rfl) | rfl <;> decide

theorem isWhiteSpace_class (h : isWhiteSpace c = true) :
    isLetter c = false ∧ c.isDigit = false ∧ c ≠ '"' := by
  have hnat : c.toNat ≤ 0x20 ∨ 0x85 ≤ c.toNat := by
    simp only [isWhiteSpace, Bool.or_eq_true, Bool.and_eq_true, decide_eq_true_eq, beq_iff_eq] at h
    omega
  refine ⟨Bool.eq_false_iff.mpr fun hl => ?_, Bool.eq_false_iff.mpr fun hd => ?_, ?_⟩
  · have hletter := isLetter_bounds hl
    omega
  · have hdigit : 48 ≤ c.toNat ∧ c.toNat ≤ 57 := Char.isDigit_iff_toNat.mp hd
    omega
  · rintro rfl
    exact absurd h (by decide)

theorem isWhiteSpace_symbol (h : isWhiteSpace c = true) :
    Symbol.ofChar? c = none ∧ ∀ d, Symbol.ofChars? c d = none := by
  constructor
  · unfold Symbol.ofChar?
    split
    case h_19 => rfl
    all_goals exact absurd h (by decide)
  · intro d
    unfold Symbol.ofChars?
    split
    case h_5 => rfl
    all_goals exact absurd h (by decide)

theorem words_foreign (h : isWhiteSpace c = true) (hc : isBlank c = false) (cs : List Char) :
    (words (c :: cs)).head? = some .foreign := by
  obtain ⟨hletter, hdigit, hquote⟩ := isWhiteSpace_class h
  obtain ⟨hsingle, hpair⟩ := isWhiteSpace_symbol h
  have hscan : Lexeme.scan c cs = ⟨.illegal, [c], [c], cs⟩ := by
    unfold Lexeme.scan
    rw [if_neg (by simp [hletter]), if_neg (by simp [hdigit]), if_neg hquote, hsingle]
    cases cs with
    | nil => rfl
    | cons d cs => simp [hpair d]
  rw [words_scan hc, hscan]
  rfl

theorem words_dropWhile (h : (words cs).head? ≠ some .foreign) :
    words (cs.dropWhile isWhiteSpace) = words cs := by
  induction cs with
  | nil => rfl
  | cons c cs ih =>
    rw [List.dropWhile_cons]
    split
    case isTrue hwhite =>
      by_cases hc : isBlank c = true
      · rw [words_blank hc] at h ⊢
        exact ih h
      · exact absurd (words_foreign hwhite (Bool.eq_false_iff.mpr hc) cs) h
    case isFalse => rfl

/-- A text that ends in a semicolon keeps its words when it is trimmed, and then the semicolon is
its last character. -/
theorem Finished.trim {text : String} (h : Finished text.toList)
    (hhead : (words text.toList).head? ≠ some .foreign) :
    words (trim text).toList = words text.toList ∧ (trim text).toList.getLast? = some ';' := by
  have hfront := words_dropWhile hhead
  have hfinished : Finished (text.toList.dropWhile isWhiteSpace) := by
    rw [Finished, hfront]
    exact h
  obtain ⟨front, hupTo⟩ := hfinished.upTo
  obtain ⟨blanks, hsplit, hblanks⟩ := hupTo.behind
  have htrim : (TinyScript.trim text).toList = front := by
    obtain ⟨init, rfl⟩ := List.getLast?_eq_some_iff.mp hupTo.last
    have hwhite : ∀ c ∈ blanks.reverse, isWhiteSpace c = true := fun c hc =>
      isWhiteSpace_of_isBlank (hblanks c (List.mem_reverse.mp hc))
    rw [TinyScript.trim, String.toList_ofList, hsplit]
    simp [List.dropWhile_append_of_pos hwhite, not_white_semicolon]
  have hwords := congrArg (List.map Token.terminal) (hupTo.tokens 0 [])
  rw [List.append_nil, tokens_nil, List.append_nil] at hwords
  rw [htrim]
  exact ⟨hwords.trans hfront, hupTo.last⟩

end TinyScript.Lexing
