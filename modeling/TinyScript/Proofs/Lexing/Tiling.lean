import TinyScript.Proofs.Lexing.Tokens

/-!
# Tokens tile their text

The tokens of a text lie one behind the other, each on bytes of its own that begin and end between
characters, and what lies between them is blank (`Lexing.Tiling`). A token keeps the text it lies
on, but for the quotes of a string. Past the last token there is the end token, however often one
asks (`Cursor.tokens_tile`).

A string is closed by the first quote that no backslash skips. Whether a character is skipped is
said here by its place alone (`Lexing.isSkipped`), without regard to how a string is read.
-/

namespace TinyScript

/-- The token that one more call gives after so many calls. -/
def Cursor.call (c : Cursor) : Nat → Token
  | 0 => c.next.1
  | k + 1 => c.next.2.call k

namespace Lexing

/-- Whether the character at a place is skipped: before it stands a backslash that is not skipped
itself. -/
def isSkipped (cs : List Char) : Nat → Bool
  | 0 => false
  | k + 1 => cs[k]? == some '\\' && !isSkipped cs k

/-- A quote that is not skipped; `cs` is the text behind an opening quote. -/
def IsQuote (cs : List Char) (k : Nat) : Prop := cs[k]? = some '"' ∧ isSkipped cs k = false

/-- What a token keeps of the text it lies on, where `after` is the rest of the source. -/
inductive Keeps (t : Token) : (text after : String) → Prop
  | plain : t.kind ≠ .string → Keeps t t.literal after
  | closed : t.kind = .string →
      IsQuote (t.literal ++ "\"" ++ after).toList t.literal.toList.length →
      (∀ k < t.literal.toList.length, ¬ IsQuote (t.literal ++ "\"" ++ after).toList k) →
      Keeps t ("\"" ++ t.literal ++ "\"") after
  | unclosed : t.kind = .string → (∀ k, ¬ IsQuote t.literal.toList k) →
      Keeps t ("\"" ++ t.literal) ""

structure Tiling (source : String) (ts : List Token) : Prop where
  proper : ∀ t ∈ ts, t.kind ≠ .endOfInput
  ordered : ts.Pairwise fun t u => t.span.stop ≤ u.span.start
  nonempty : ∀ t ∈ ts, t.span.start < t.span.stop
  /-- A token begins and ends between characters, and keeps what is in between. -/
  placed : ∀ t ∈ ts, ∃ before text after, source = before ++ text ++ after ∧
    t.span = ⟨before.utf8ByteSize, (before ++ text).utf8ByteSize⟩ ∧ Keeps t text after
  blanks : ∀ (i : Nat) (b : UInt8), source.toUTF8.data.toList[i]? = some b →
    (∀ t ∈ ts, ¬ (t.span.start ≤ i ∧ i < t.span.stop)) →
    b ∈ [' ', '\t', '\n', '\r'].map Char.toUInt8

-- ---------------------------------------------------------------------------
-- Closing quotes
-- ---------------------------------------------------------------------------

theorem isSkipped_pair (c : Char) (cs : List Char) (k : Nat) :
    isSkipped ('\\' :: c :: cs) (k + 2) = isSkipped cs k := by
  induction k with
  | zero => simp [isSkipped]
  | succ k ih => rw [isSkipped, ih, isSkipped, List.getElem?_cons_succ, List.getElem?_cons_succ]

theorem isSkipped_cons (hc : c ≠ '\\') (cs : List Char) (k : Nat) :
    isSkipped (c :: cs) (k + 1) = isSkipped cs k := by
  induction k with
  | zero => simp [isSkipped, hc]
  | succ k ih => rw [isSkipped, ih, isSkipped, List.getElem?_cons_succ]

theorem isQuote_pair (c : Char) (cs : List Char) (k : Nat) :
    IsQuote ('\\' :: c :: cs) k ↔ ∃ j, k = j + 2 ∧ IsQuote cs j := by
  match k with
  | 0 => simp [IsQuote]
  | 1 => simp [IsQuote, isSkipped]
  | k + 2 => simp [IsQuote, isSkipped_pair]

theorem isQuote_cons (hquote : c ≠ '"') (hslash : c ≠ '\\') (cs : List Char) (k : Nat) :
    IsQuote (c :: cs) k ↔ ∃ j, k = j + 1 ∧ IsQuote cs j := by
  cases k with
  | zero => simp [IsQuote, hquote]
  | succ k => simp [IsQuote, isSkipped_cons hslash]

theorem not_isQuote_stringBody (cs : List Char) :
    ∀ k < (Lexeme.stringBody cs).1.length, ¬ IsQuote cs k := by
  fun_induction Lexeme.stringBody cs with
  | case1 | case2 => exact fun k hk => absurd hk (Nat.not_lt_zero k)
  | case3 c cs ih =>
    intro k hk hquote
    obtain ⟨j, rfl, hj⟩ := (isQuote_pair c cs k).mp hquote
    simp only [List.length_cons] at hk
    exact ih j (by omega) hj
  | case4 c cs hquote hslash ih =>
    rcases last_backslash hslash with ⟨rfl, rfl⟩ | hc
    · intro k _ hk
      cases k <;> simp [IsQuote] at hk
    · intro k hk hk'
      obtain ⟨j, rfl, hj⟩ := (isQuote_cons hquote hc cs k).mp hk'
      exact ih j (Nat.lt_of_succ_lt_succ hk) hj

theorem isQuote_stringBody (h : (Lexeme.stringBody cs).2 = q :: rest) :
    q = '"' ∧ IsQuote cs (Lexeme.stringBody cs).1.length := by
  fun_induction Lexeme.stringBody cs with
  | case1 => cases h
  | case2 cs =>
    obtain ⟨rfl, rfl⟩ := List.cons.inj h
    exact ⟨rfl, rfl, rfl⟩
  | case3 c cs ih =>
    obtain ⟨hq, hcs⟩ := ih h
    exact ⟨hq, (isQuote_pair c cs _).mpr ⟨_, rfl, hcs⟩⟩
  | case4 c cs hquote hslash ih =>
    rcases last_backslash hslash with ⟨rfl, rfl⟩ | hc
    · cases h
    · obtain ⟨hq, hcs⟩ := ih h
      exact ⟨hq, (isQuote_cons hquote hc cs _).mpr ⟨_, rfl, hcs⟩⟩

-- ---------------------------------------------------------------------------
-- One token
-- ---------------------------------------------------------------------------

theorem scan_literal (h : (Lexeme.scan c cs).kind ≠ .string) :
    (Lexeme.scan c cs).literal = (Lexeme.scan c cs).covered := by
  have hcut := cut_scan c cs
  generalize Lexeme.scan c cs = l at h hcut
  cases hcut with
  | string _ => exact absurd rfl h
  | _ => rfl

theorem scan_proper (c : Char) (cs : List Char) : (Lexeme.scan c cs).kind ≠ .endOfInput := by
  have hcut := cut_scan c cs
  generalize Lexeme.scan c cs = l at hcut
  cases hcut with
  | word _ _ =>
    simp only [Lexeme.wordKind]
    split <;> rintro ⟨⟩
  | _ => rintro ⟨⟩

theorem scan_quote (cs : List Char) :
    (∃ rest, (Lexeme.stringBody cs).2 = '"' :: rest ∧
      (Lexeme.scan '"' cs).covered = '"' :: ((Lexeme.stringBody cs).1 ++ ['"']) ∧
      (Lexeme.scan '"' cs).rest = rest) ∨
    ((Lexeme.stringBody cs).2 = [] ∧
      (Lexeme.scan '"' cs).covered = '"' :: (Lexeme.stringBody cs).1 ∧
      (Lexeme.scan '"' cs).rest = []) := by
  cases hbody : Lexeme.stringBody cs with
  | mk body behind =>
    have hbehind : (Lexeme.stringBody cs).2 = behind := by rw [hbody]
    cases behind with
    | nil => simp [Lexeme.scan, isLetter, hbody]
    | cons q rest =>
      obtain ⟨rfl, -⟩ := isQuote_stringBody hbehind
      simp [Lexeme.scan, isLetter, hbody]

theorem keeps_string {t : Token} (hk : t.kind = .string)
    (htext : t.literal = String.ofList (Lexeme.stringBody cs).1) :
    Keeps t (String.ofList (Lexeme.scan '"' cs).covered)
      (String.ofList (Lexeme.scan '"' cs).rest) := by
  have hsplit := Lexeme.stringBody_append cs
  have hbody : t.literal.toList = (Lexeme.stringBody cs).1 := by rw [htext, String.toList_ofList]
  rcases scan_quote cs with ⟨rest, hbehind, hcovered, hrest⟩ | ⟨hbehind, hcovered, hrest⟩
  · have hcs : (t.literal ++ "\"" ++ String.ofList rest).toList = cs := by
      rw [hbehind] at hsplit
      simp [hbody, hsplit]
    have hshape : String.ofList ('"' :: ((Lexeme.stringBody cs).1 ++ ['"'])) =
        "\"" ++ t.literal ++ "\"" := by
      refine String.toList_inj.mp ?_
      simp [hbody]
    rw [hcovered, hrest, hshape]
    refine .closed hk ?_ ?_
    · rw [hcs, hbody]
      exact (isQuote_stringBody hbehind).2
    · rw [hcs, hbody]
      exact not_isQuote_stringBody cs
  · rw [hbehind, List.append_nil] at hsplit
    have hshape : String.ofList ('"' :: (Lexeme.stringBody cs).1) = "\"" ++ t.literal := by
      refine String.toList_inj.mp ?_
      simp [hbody]
    rw [hcovered, hrest, hshape]
    refine .unclosed hk fun k hquote => ?_
    obtain ⟨hlt, -⟩ := List.getElem?_eq_some_iff.mp hquote.1
    rw [hbody, hsplit] at hquote hlt
    exact not_isQuote_stringBody cs k (hsplit.symm ▸ hlt) hquote

theorem keeps_read (n : Nat) (c : Char) (cs : List Char) :
    Keeps (Cursor.read ⟨n, c :: cs⟩).1 (String.ofList (Lexeme.scan c cs).covered)
      (String.ofList (Lexeme.scan c cs).rest) := by
  by_cases hk : (Lexeme.scan c cs).kind = .string
  · obtain ⟨rfl, hliteral, -⟩ := scan_string hk
    exact keeps_string hk (congrArg String.ofList hliteral)
  · rw [← scan_literal hk]
    exact .plain hk

-- ---------------------------------------------------------------------------
-- All tokens
-- ---------------------------------------------------------------------------

/-- The tokens of a text that starts at `n`, from the front: a blank gives none, and every other
character starts one. -/
inductive Laid : Nat → List Char → List Token → Prop
  | nil : Laid n [] []
  | blank : isBlank c = true → Laid (n + c.utf8Size) cs ts → Laid n (c :: cs) ts
  | token : isBlank c = false →
      Laid (n + byteSize (Lexeme.scan c cs).covered) (Lexeme.scan c cs).rest ts →
      Laid n (c :: cs) ((Cursor.read ⟨n, c :: cs⟩).1 :: ts)

theorem laid_tokens (n : Nat) (cs : List Char) : Laid n cs (Cursor.tokens ⟨n, cs⟩) := by
  induction hlen : cs.length using Nat.strongRecOn generalizing cs n with
  | ind len ih =>
    subst hlen
    cases cs with
    | nil =>
      rw [tokens_nil]
      exact .nil
    | cons c cs =>
      by_cases hc : isBlank c = true
      · rw [tokens_congr (skipBlanks_cons_blank hc)]
        exact .blank hc (ih _ (Nat.lt_succ_self _) _ cs rfl)
      · have hc := Bool.eq_false_iff.mpr hc
        rw [tokens_cons hc]
        exact .token hc (ih _ (Nat.lt_succ_of_le (Lexeme.rest_length_le c cs)) _ _ rfl)

theorem byteSize_scan (c : Char) (cs : List Char) :
    byteSize (Lexeme.scan c cs).covered + byteSize (Lexeme.scan c cs).rest =
      byteSize (c :: cs) := by
  rw [← byteSize_append, Lexeme.scan_split]

theorem byteSize_pos (h : cs ≠ []) : 0 < byteSize cs := by
  cases cs with
  | nil => exact absurd rfl h
  | cons c cs => exact Nat.add_pos_left c.utf8Size_pos _

theorem Laid.bounds (h : Laid n cs ts) :
    ∀ t ∈ ts, n ≤ t.span.start ∧ t.span.start < t.span.stop := by
  induction h with
  | nil => exact nofun
  | blank _ _ ih => exact fun t ht => ⟨Nat.le_of_add_right_le (ih t ht).1, (ih t ht).2⟩
  | @token c n cs ts _ _ ih =>
    refine List.forall_mem_cons.mpr ⟨⟨Nat.le_refl _, ?_⟩, fun t ht => ?_⟩
    · exact Nat.lt_add_of_pos_right (byteSize_pos (Lexeme.covered_ne_nil c cs))
    · exact ⟨Nat.le_of_add_right_le (ih t ht).1, (ih t ht).2⟩

theorem Laid.ordered (h : Laid n cs ts) : ts.Pairwise fun t u => t.span.stop ≤ u.span.start := by
  induction h with
  | nil => exact .nil
  | blank _ _ ih => exact ih
  | token _ hrest ih => exact .cons (fun u hu => (hrest.bounds u hu).1) ih

theorem Laid.proper (h : Laid n cs ts) : ∀ t ∈ ts, t.kind ≠ .endOfInput := by
  induction h with
  | nil => exact nofun
  | blank _ _ ih => exact ih
  | @token c _ cs _ _ _ ih => exact List.forall_mem_cons.mpr ⟨scan_proper c cs, ih⟩

theorem call_congr {c d : Cursor} (h : c.skipBlanks = d.skipBlanks) (k : Nat) :
    c.call k = d.call k := by
  have hnext : c.next = d.next := by rw [Cursor.next, h, Cursor.next]
  cases k <;> rw [Cursor.call, Cursor.call, hnext]

theorem call_end (n k : Nat) : Cursor.call ⟨n, []⟩ k = .endAt n := by
  induction k with
  | zero => rfl
  | succ k ih => exact ih

theorem Laid.call (h : Laid n cs ts) (k : Nat) :
    Cursor.call ⟨n, cs⟩ k = ts[k]?.getD (.endAt (n + byteSize cs)) := by
  induction h generalizing k with
  | @nil n => exact call_end n k
  | @blank c n cs ts hc _ ih =>
    rw [call_congr (skipBlanks_cons_blank hc), ih k, Nat.add_assoc]
    rfl
  | @token c n cs ts hc _ ih =>
    have hnext : Cursor.next ⟨n, c :: cs⟩ = Cursor.read ⟨n, c :: cs⟩ := by
      rw [Cursor.next, skipBlanks_cons hc]
    cases k with
    | zero =>
      rw [Cursor.call, hnext]
      rfl
    | succ k =>
      rw [Cursor.call, hnext, List.getElem?_cons_succ, ← byteSize_scan, ← Nat.add_assoc]
      exact ih k

-- ---------------------------------------------------------------------------
-- Bytes
-- ---------------------------------------------------------------------------

theorem toList_toUTF8 (s : String) :
    s.toUTF8.data.toList = s.toList.flatMap String.utf8EncodeChar := by
  rw [String.toUTF8_eq_toByteArray, ← String.utf8Encode_toList, List.utf8Encode,
    List.data_toByteArray, List.toList_toArray]

theorem length_encoded (cs : List Char) :
    (cs.flatMap String.utf8EncodeChar).length = byteSize cs := by
  induction cs with
  | nil => rfl
  | cons c cs ih =>
    rw [List.flatMap_cons, List.length_append, String.length_utf8EncodeChar, ih]
    rfl

theorem encoded_blank (hc : isBlank c = true) :
    String.utf8EncodeChar c = [c.toUInt8] ∧ c.utf8Size = 1 ∧ c ∈ [' ', '\t', '\n', '\r'] := by
  simp only [isBlank, Bool.or_eq_true, beq_iff_eq] at hc
  rcases hc with ((rfl | rfl) | rfl) | rfl <;> decide

theorem Laid.blanks (h : Laid n cs ts) :
    ∀ (i : Nat) (b : UInt8), (cs.flatMap String.utf8EncodeChar)[i]? = some b →
      (∀ t ∈ ts, ¬ (t.span.start ≤ n + i ∧ n + i < t.span.stop)) →
      b ∈ [' ', '\t', '\n', '\r'].map Char.toUInt8 := by
  induction h with
  | nil => exact nofun
  | @blank c n cs ts hc _ ih =>
    intro i b hb hfree
    obtain ⟨hencoded, hsize, hmem⟩ := encoded_blank hc
    rw [List.flatMap_cons, hencoded] at hb
    cases i with
    | zero =>
      obtain rfl := Option.some.inj hb
      exact List.mem_map_of_mem hmem
    | succ i =>
      refine ih i b hb fun t ht => ?_
      rw [hsize, Nat.add_assoc, Nat.add_comm 1 i]
      exact hfree t ht
  | @token c n cs ts _ _ ih =>
    intro i b hb hfree
    obtain ⟨hhere, hbehind⟩ := List.forall_mem_cons.mp hfree
    rw [← Lexeme.scan_split, List.flatMap_append] at hb
    have hlen := length_encoded (Lexeme.scan c cs).covered
    by_cases hi : i < byteSize (Lexeme.scan c cs).covered
    · exact absurd ⟨Nat.le_add_right n i, Nat.add_lt_add_left hi n⟩ hhere
    · obtain ⟨j, rfl⟩ := Nat.exists_eq_add_of_le (Nat.le_of_not_lt hi)
      rw [List.getElem?_append_right (by omega), hlen, Nat.add_sub_cancel_left] at hb
      refine ih j b hb fun t ht => ?_
      rw [Nat.add_assoc]
      exact hbehind t ht

end Lexing

/-- The tokens of a text tile it, and the calls give them in order and then the end token of the
text, again and again. -/
theorem Cursor.tokens_tile (source : String) :
    Lexing.Tiling source (Cursor.start source).tokens ∧
    ∀ k, (Cursor.start source).call k =
      (Cursor.start source).tokens[k]?.getD
        ⟨.endOfInput, "", ⟨source.utf8ByteSize, source.utf8ByteSize⟩⟩ := by
  have hlaid := Lexing.laid_tokens 0 source.toList
  have hsize : byteSize source.toList = source.utf8ByteSize := by
    rw [← Lexing.utf8ByteSize_ofList, String.ofList_toList]
  refine ⟨⟨hlaid.proper, hlaid.ordered, fun t ht => (hlaid.bounds t ht).2, fun t ht => ?_, ?_⟩, ?_⟩
  · obtain ⟨before, c, rest, -, hsource, rfl, -⟩ := Lexing.tokens_split ht
    refine ⟨String.ofList before, String.ofList (Lexeme.scan c rest).covered,
      String.ofList (Lexeme.scan c rest).rest, ?_, ?_, Lexing.keeps_read _ c rest⟩
    · refine String.toList_inj.mp ?_
      simp [hsource, Lexeme.scan_split]
    · rw [String.utf8ByteSize_append, Lexing.utf8ByteSize_ofList, Lexing.utf8ByteSize_ofList,
        Nat.zero_add]
      rfl
  · intro i b hb hfree
    rw [Lexing.toList_toUTF8] at hb
    refine hlaid.blanks i b hb fun t ht => ?_
    rw [Nat.zero_add]
    exact hfree t ht
  · intro k
    have hcall := hlaid.call k
    rw [Nat.zero_add, hsize] at hcall
    exact hcall

end TinyScript
