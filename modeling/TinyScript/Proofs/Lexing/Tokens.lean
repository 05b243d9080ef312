import TinyScript.Proofs.Lexing

/-!
# Tokens in their places

Every token of a text is a lexeme that was cut off where the token stands. What was read of a string
can be put between quotes again, unless it ends in an odd number of backslashes, of which the last
one protects the character behind it. Then the string was not closed: it is the last token, and it
goes from its quote to the end of the text (`Lexing.token_unclosed`).
-/

namespace TinyScript

def finalBackslashes (cs : List Char) : Nat := (cs.reverse.takeWhile (· == '\\')).length

namespace Lexing

-- ---------------------------------------------------------------------------
-- Strings without a closing quote
-- ---------------------------------------------------------------------------

theorem finalBackslashes_le (cs : List Char) : finalBackslashes cs ≤ cs.length := by
  have h := (List.takeWhile_prefix (· == '\\') (l := cs.reverse)).length_le
  rwa [List.length_reverse] at h

theorem finalBackslashes_cons (c : Char) (cs : List Char) :
    finalBackslashes (c :: cs) =
      if c = '\\' ∧ finalBackslashes cs = cs.length then cs.length + 1 else finalBackslashes cs := by
  unfold finalBackslashes
  rw [List.reverse_cons, List.takeWhile_append, List.length_reverse]
  split
  case isTrue h =>
    rw [List.length_append, List.length_reverse, h]
    by_cases hc : c = '\\' <;> simp [hc]
  case isFalse h => rw [if_neg fun hand => h hand.2]

theorem finalBackslashes_pair (c : Char) (cs : List Char) :
    finalBackslashes ('\\' :: c :: cs) % 2 = finalBackslashes cs % 2 := by
  have hle := finalBackslashes_le cs
  have hcons := finalBackslashes_cons c cs
  rw [finalBackslashes_cons, List.length_cons]
  split at hcons
  case isTrue h =>
    rw [if_pos ⟨rfl, hcons⟩, h.2]
    omega
  case isFalse h =>
    rw [if_neg fun hand => ?_, hcons]
    omega

theorem getLast?_of_finalBackslashes (h : finalBackslashes cs % 2 = 1) :
    cs.getLast? = some '\\' := by
  unfold finalBackslashes at h
  rw [← List.head?_reverse]
  cases hcs : cs.reverse with
  | nil =>
    rw [hcs] at h
    exact nomatch h
  | cons c rest =>
    rw [hcs, List.takeWhile_cons] at h
    split at h
    case isTrue hc => rw [List.head?_cons, beq_iff_eq.mp hc]
    case isFalse => exact nomatch h

theorem isQuotable_cons (hquote : c ≠ '"') (hslash : c ≠ '\\') :
    isQuotable (c :: cs) = isQuotable cs := by
  rw [isQuotable]
  · exact hquote
  · exact fun h => absurd h hslash
  · exact fun _ _ h => absurd h hslash

theorem last_backslash (hslash : ∀ d ds, c = '\\' → cs = d :: ds → False) :
    c = '\\' ∧ cs = [] ∨ c ≠ '\\' := by
  by_cases hc : c = '\\'
  · cases cs with
    | nil => exact .inl ⟨hc, rfl⟩
    | cons d ds => exact (hslash d ds hc rfl).elim
  · exact .inr hc

/-- What a string was read to can stand between quotes, unless it ends in a backslash that protects
what comes next. -/
theorem isQuotable_stringBody (cs : List Char) :
    isQuotable (Lexeme.stringBody cs).1 = true ↔
      finalBackslashes (Lexeme.stringBody cs).1 % 2 = 0 := by
  fun_induction Lexeme.stringBody cs with
  | case1 | case2 => exact iff_of_true rfl rfl
  | case3 c cs ih =>
    rw [finalBackslashes_pair]
    exact ih
  | case4 c cs hquote hslash ih =>
    rcases last_backslash hslash with ⟨rfl, rfl⟩ | hc
    · decide
    · rw [isQuotable_cons hquote hc, finalBackslashes_cons, if_neg fun h => hc h.1]
      exact ih

theorem stringBody_unclosed (h : isQuotable (Lexeme.stringBody cs).1 = false) :
    (Lexeme.stringBody cs).2 = [] := by
  fun_induction Lexeme.stringBody cs with
  | case1 => rfl
  | case2 => cases h
  | case3 c cs ih => exact ih h
  | case4 c cs hquote hslash ih =>
    rcases last_backslash hslash with ⟨rfl, rfl⟩ | hc
    · rfl
    · rw [isQuotable_cons hquote hc] at h
      exact ih h

-- ---------------------------------------------------------------------------
-- One lexeme
-- ---------------------------------------------------------------------------

/-- How a lexeme is cut off, by its class. -/
inductive Cut (c : Char) (cs : List Char) : Lexeme → Prop
  | word {word : List Char} : isLetter c = true → word = c :: cs.takeWhile isWordChar →
      Cut c cs ⟨Lexeme.wordKind word, word, word, cs.dropWhile isWordChar⟩
  | integer : Cut c cs ⟨.integer, digits, digits, rest⟩
  | string : c = '"' →
      Cut c cs ⟨.string, (Lexeme.stringBody cs).1, covered, (Lexeme.stringBody cs).2.tail⟩
  | symbol : Cut c cs ⟨.symbol s, text, text, rest⟩
  | illegal : Cut c cs ⟨.illegal, text, text, rest⟩

theorem cut_single (c : Char) (cs rest : List Char) :
    Cut c cs ⟨((Symbol.ofChar? c).map Token.Kind.symbol).getD .illegal, [c], [c], rest⟩ := by
  cases Symbol.ofChar? c with
  | none => exact .illegal
  | some s => exact .symbol

theorem cut_scan (c : Char) (cs : List Char) : Cut c cs (Lexeme.scan c cs) := by
  unfold Lexeme.scan
  split
  case isTrue hc => exact .word hc rfl
  split
  case isTrue => exact .integer
  split
  case isTrue hc =>
    have hstring : ∀ covered, Cut c cs
        ⟨.string, (Lexeme.stringBody cs).1, covered, (Lexeme.stringBody cs).2.tail⟩ :=
      fun _ => .string hc
    split
    · rename_i heq
      rw [heq] at hstring
      exact hstring _
    · rename_i heq
      rw [heq] at hstring
      exact hstring _
  split
  · exact cut_single c _ _
  · split
    · exact .symbol
    · exact cut_single c _ _

theorem scan_string (h : (Lexeme.scan c cs).kind = .string) :
    c = '"' ∧ (Lexeme.scan c cs).literal = (Lexeme.stringBody cs).1 ∧
      (Lexeme.scan c cs).rest = (Lexeme.stringBody cs).2.tail := by
  have hcut := cut_scan c cs
  generalize Lexeme.scan c cs = l at h hcut
  cases hcut with
  | word _ _ =>
    simp only [Lexeme.wordKind] at h
    split at h <;> cases h
  | string hc => exact ⟨hc, rfl, rfl⟩
  | _ => cases h

-- ---------------------------------------------------------------------------
-- Tokens in their places
-- ---------------------------------------------------------------------------

theorem byteSize_append (xs ys : List Char) : byteSize (xs ++ ys) = byteSize xs + byteSize ys := by
  induction xs with
  | nil => exact (Nat.zero_add _).symm
  | cons x xs ih =>
    simp only [byteSize, List.cons_append, List.foldr_cons] at ih ⊢
    rw [ih, Nat.add_assoc]

theorem utf8ByteSize_ofList (cs : List Char) : (String.ofList cs).utf8ByteSize = byteSize cs := by
  induction cs with
  | nil => rfl
  | cons c cs ih =>
    rw [String.ofList_cons, String.utf8ByteSize_append, String.utf8ByteSize_singleton, ih]
    rfl

theorem byteSize_toList (source : String) : byteSize source.toList = source.utf8ByteSize := by
  rw [← utf8ByteSize_ofList, String.ofList_toList]

/-- Each token is read at its own place, and the tokens behind it are those of what it leaves. -/
theorem tokens_split (ht : t ∈ Cursor.tokens ⟨n, cs⟩) :
    ∃ before c rest front, cs = before ++ c :: rest ∧
      t = (Cursor.read ⟨n + byteSize before, c :: rest⟩).1 ∧
      Cursor.tokens ⟨n, cs⟩ =
        front ++ t :: Cursor.tokens (Cursor.read ⟨n + byteSize before, c :: rest⟩).2 := by
  induction hlen : cs.length using Nat.strongRecOn generalizing cs n with
  | ind len ih =>
    subst hlen
    cases cs with
    | nil => simp at ht
    | cons c cs =>
      by_cases hc : isBlank c = true
      · rw [tokens_congr (skipBlanks_cons_blank hc)] at ht ⊢
        obtain ⟨before, c', rest, front, rfl, hread, hsplit⟩ :=
          ih _ (Nat.lt_succ_self _) ht rfl
        rw [Nat.add_assoc] at hread hsplit
        exact ⟨c :: before, c', rest, front, rfl, hread, hsplit⟩
      · rw [tokens_cons (Bool.eq_false_iff.mpr hc)] at ht ⊢
        rcases List.mem_cons.mp ht with rfl | ht
        · exact ⟨[], c, cs, [], rfl, rfl, rfl⟩
        · have hlt := Nat.lt_succ_of_le (Lexeme.rest_length_le c cs)
          obtain ⟨before, c', rest, front, hrest, hread, hsplit⟩ := ih _ hlt ht rfl
          rw [Nat.add_assoc, ← byteSize_append] at hread hsplit
          refine ⟨(Lexeme.scan c cs).covered ++ before, c', rest,
            (Cursor.read ⟨n, c :: cs⟩).1 :: front, ?_, hread, congrArg _ hsplit⟩
          rw [List.append_assoc, ← hrest, Lexeme.scan_split]

theorem tokens_split_string (ht : t ∈ Cursor.tokens ⟨n, cs⟩) (hk : t.kind = .string) :
    ∃ before rest front, cs = before ++ '"' :: rest ∧
      t.literal.toList = (Lexeme.stringBody rest).1 ∧
      t.span = ⟨n + byteSize before,
        n + byteSize before + byteSize (Lexeme.scan '"' rest).covered⟩ ∧
      (Lexeme.scan '"' rest).rest = (Lexeme.stringBody rest).2.tail ∧
      ∃ m, Cursor.tokens ⟨n, cs⟩ = front ++ t :: Cursor.tokens ⟨m, (Lexeme.scan '"' rest).rest⟩ := by
  obtain ⟨before, c, rest, front, hcs, rfl, htokens⟩ := tokens_split ht
  obtain ⟨rfl, hliteral, hrest⟩ := scan_string hk
  refine ⟨before, rest, front, hcs, ?_, rfl, hrest, _, htokens⟩
  rw [← hliteral]
  exact String.toList_ofList

theorem token_string (ht : t ∈ Cursor.tokens ⟨n, cs⟩) (hk : t.kind = .string) :
    isQuotable t.literal.toList = true ↔ finalBackslashes t.literal.toList % 2 = 0 := by
  obtain ⟨_, rest, _, -, htext, -⟩ := tokens_split_string ht hk
  rw [htext]
  exact isQuotable_stringBody rest

/-- A string token that cannot stand between quotes is the last token, and from its opening quote
on it is all that is left of the text. -/
theorem token_unclosed (ht : t ∈ Cursor.tokens ⟨n, cs⟩) (hk : t.kind = .string)
    (hq : isQuotable t.literal.toList = false) :
    ∃ before, cs = before ++ '"' :: t.literal.toList ∧
      (Cursor.tokens ⟨n, cs⟩).getLast? = some t ∧
      t.span = ⟨n + byteSize before, n + byteSize cs⟩ := by
  obtain ⟨before, rest, front, hcs, htext, hspan, hrest, m, htokens⟩ := tokens_split_string ht hk
  have hopen := stringBody_unclosed (htext ▸ hq)
  have hbody := Lexeme.stringBody_append rest
  rw [hopen, List.append_nil] at hbody
  rw [hopen, List.tail_nil] at hrest
  have hcovered := Lexeme.scan_split '"' rest
  rw [hrest, List.append_nil] at hcovered
  refine ⟨before, by rw [htext, hbody, hcs], ?_, ?_⟩
  · rw [htokens, hrest, tokens_nil, List.getLast?_concat]
  · rw [hspan, hcovered, hcs, byteSize_append, Nat.add_assoc]

end Lexing

end TinyScript
