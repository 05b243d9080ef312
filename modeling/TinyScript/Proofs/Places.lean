import TinyScript.Proofs.Lexing.Finished
import TinyScript.Syntax.Parse

/-!
# Reading and places

Reading sees what the tokens are and not where they stand. Tokens that stand further behind give the
same tree, and the same mistakes as far behind (`Step.Shifted`); so it is for every construct, with
mistakes or without (`Parse.statements_shift`).
-/

namespace TinyScript

-- ---------------------------------------------------------------------------
-- Places further behind
-- ---------------------------------------------------------------------------

def Span.shift (k : Nat) (s : Span) : Span := ⟨s.start + k, s.stop + k⟩

def Token.shift (k : Nat) (t : Token) : Token := { t with span := t.span.shift k }

def SyntaxError.shift (k : Nat) (e : SyntaxError) : SyntaxError := { e with token := e.token.shift k }

namespace Lexing

theorem tokens_shift (n k : Nat) (cs : List Char) :
    Cursor.tokens ⟨n + k, cs⟩ = (Cursor.tokens ⟨n, cs⟩).map (Token.shift k) := by
  induction hlen : cs.length using Nat.strongRecOn generalizing cs n with
  | ind len ih =>
    subst hlen
    cases cs with
    | nil => rw [tokens_nil, tokens_nil, List.map_nil]
    | cons c cs =>
      by_cases hc : isBlank c = true
      · rw [tokens_congr (skipBlanks_cons_blank hc), tokens_congr (skipBlanks_cons_blank hc),
          Nat.add_right_comm]
        exact ih _ (Nat.lt_succ_self _) _ cs rfl
      · have hc := Bool.eq_false_iff.mpr hc
        rw [tokens_cons hc, tokens_cons hc, List.map_cons, read_scan rfl, read_scan rfl,
          Nat.add_right_comm]
        exact congrArg _ (ih _ (Nat.lt_succ_of_le (Lexeme.rest_length_le c cs)) _ _ rfl)

end Lexing

namespace Step

/-- The second step reads the same tree as the first, from tokens that stand `k` bytes further
behind. -/
structure Shifted (k : Nat) (s : Step α m) (s' : Step α n) : Prop where
  result : s.result = s'.result
  errors : s.errors.map (SyntaxError.shift k) = s'.errors
  rest : s.rest.map (Token.shift k) = s'.rest

section
variable {k : Nat} {ts us : List Token}

theorem Shifted.done (a : α) (h : ts.map (Token.shift k) = us) :
    Shifted k (Step.done a ts) (Step.done a us) := ⟨rfl, rfl, h⟩

theorem Shifted.fail (e : SyntaxError) (h : ts.map (Token.shift k) = us) :
    Shifted k (Step.fail e ts : Step α _) (Step.fail (e.shift k) us) := ⟨rfl, rfl, h⟩

theorem Shifted.failNext (stop : Token) (cause : SyntaxError.Cause)
    (h : ts.map (Token.shift k) = us) :
    Shifted k (Step.failNext stop cause ts : Step α _) (Step.failNext (stop.shift k) cause us) := by
  subst h
  cases ts <;> exact ⟨rfl, rfl, rfl⟩

theorem Shifted.weaken {s : Step α m} {s' : Step α n} (hs : Shifted k s s') {h : m ≤ m'}
    {h' : n ≤ n'} : Shifted k (s.weaken h) (s'.weaken h') := ⟨hs.result, hs.errors, hs.rest⟩

theorem Shifted.map {s : Step α m} {s' : Step α n} (hs : Shifted k s s') {f : α → β} :
    Shifted k (s.map f) (s'.map f) := ⟨congrArg (Option.map f) hs.result, hs.errors, hs.rest⟩

theorem Shifted.bind {s : Step α m} {s' : Step α n}
    {next : α → (ts : List Token) → ts.length ≤ m → Step β ts.length}
    {next' : α → (ts : List Token) → ts.length ≤ n → Step β ts.length} (hs : Shifted k s s')
    (hn : ∀ a ts us h h', ts.map (Token.shift k) = us →
      Shifted k (next a ts h) (next' a us h')) : Shifted k (s.bind next) (s'.bind next') := by
  obtain ⟨result, errors, rest, hle⟩ := s
  obtain ⟨result', errors', rest', hle'⟩ := s'
  obtain ⟨hresult, herrors, hrest⟩ := hs
  dsimp only at hresult herrors hrest
  subst hresult herrors
  cases result with
  | none => exact ⟨rfl, rfl, hrest⟩
  | some a =>
    obtain ⟨hresult, herrors, hrest⟩ := hn a rest rest' hle hle' hrest
    exact ⟨hresult, by simp [Step.bind, herrors], hrest⟩

theorem Shifted.expect
    {next : Token → (rest : List Token) → rest.length < ts.length → Step β rest.length}
    {next' : Token → (rest : List Token) → rest.length < us.length → Step β rest.length}
    (h : ts.map (Token.shift k) = us)
    (hn : ∀ t rest rest' h h', ts = t :: rest → rest.map (Token.shift k) = rest' →
      Shifted k (next t rest h) (next' (t.shift k) rest' h')) :
    Shifted k (Step.expect stop kind ts next) (Step.expect (stop.shift k) kind us next') := by
  match ts, us with
  | [], [] => exact Shifted.failNext stop _ rfl
  | t :: rest, t' :: rest' =>
    obtain ⟨rfl, hrest⟩ := List.cons.inj h
    simp only [Step.expect]
    by_cases hk : t.kind = kind
    · have hk' : (t.shift k).kind = kind := hk
      rw [if_pos hk, if_pos hk']
      exact (hn t rest rest' _ _ rfl hrest).weaken
    · have hk' : (t.shift k).kind ≠ kind := hk
      rw [if_neg hk, if_neg hk']
      exact (Shifted.failNext stop _ h).weaken

theorem dropSemicolon_shift (ts : List Token) :
    (dropSemicolon ts).map (Token.shift k) = dropSemicolon (ts.map (Token.shift k)) := by
  match ts with
  | [] => rfl
  | ⟨kind, _, _⟩ :: ts =>
    by_cases hk : kind = .symbol .semicolon
    · subst hk
      rfl
    · simp [Token.shift, dropSemicolon, hk]

theorem Shifted.thenSemicolon {s : Step α m} {s' : Step α n} (hs : Shifted k s s') :
    Shifted k s.thenSemicolon s'.thenSemicolon :=
  ⟨hs.result, hs.errors, (dropSemicolon_shift _).trans (congrArg dropSemicolon hs.rest)⟩

theorem Shifted.thenRest {s : Step α m} {s' : Step α n}
    {next : (ts : List Token) → ts.length ≤ m → Step (List α) ts.length}
    {next' : (ts : List Token) → ts.length ≤ n → Step (List α) ts.length} (hs : Shifted k s s')
    (hn : ∀ ts us h h', ts.map (Token.shift k) = us → Shifted k (next ts h) (next' us h')) :
    Shifted k (s.thenRest next) (s'.thenRest next') := by
  obtain ⟨hresult, herrors, hrest⟩ := hn s.rest s'.rest s.rest_le s'.rest_le hs.rest
  refine ⟨?_, ?_, hrest⟩
  · simp only [Step.thenRest, hs.result, hresult]
  · simp only [Step.thenRest, List.map_append, hs.errors, herrors]

end

end Step

namespace Parse

open Step

variable {k : Nat}

theorem cons_of_shift {ts us : List Token} {kind : Token.Kind}
    (h : ts.map (Token.shift k) = ⟨kind, l, p⟩ :: us) :
    ∃ p' ts', ts = ⟨kind, l, p'⟩ :: ts' ∧ ts'.map (Token.shift k) = us := by
  obtain ⟨⟨_, _, _⟩, ts', rfl, ht, hus⟩ := List.map_eq_cons_iff.mp h
  obtain ⟨rfl, rfl, -⟩ := Token.mk.inj ht
  exact ⟨_, ts', rfl, hus⟩

theorem moreParams_shift (stop : Token) (ts us : List Token) (h : ts.map (Token.shift k) = us) :
    Shifted k (moreParams stop ts) (moreParams (stop.shift k) us) := by
  unfold moreParams
  split
  · subst h
    refine Shifted.weaken (Shifted.expect rfl ?_)
    rintro t rest rest' hlt hlt' rfl hrest
    exact (moreParams_shift stop rest rest' hrest).map
  · rename_i hne
    split
    · obtain ⟨_, _, rfl, -⟩ := cons_of_shift h
      exact (hne _ _ _ rfl).elim
    · refine Shifted.expect h ?_
      rintro t rest rest' hlt hlt' rfl hrest
      exact Shifted.done [] hrest
termination_by ts.length
decreasing_by subst_vars; simp only [List.length_cons]; omega

theorem params_shift (stop : Token) (ts us : List Token) (h : ts.map (Token.shift k) = us) :
    Shifted k (params stop ts) (params (stop.shift k) us) := by
  unfold params
  split
  · subst h
    exact (Shifted.done [] rfl).weaken
  · rename_i hne
    split
    · obtain ⟨_, _, rfl, -⟩ := cons_of_shift h
      exact (hne _ _ _ rfl).elim
    · refine Shifted.expect h ?_
      rintro t rest rest' hlt hlt' rfl hrest
      exact (moreParams_shift stop rest rest' hrest).map

mutual

theorem expression_shift (stop : Token) (level : Precedence) (ts us : List Token)
    (h : ts.map (Token.shift k) = us) :
    Shifted k (expression stop level ts) (expression (stop.shift k) level us) := by
  match ts, us with
  | [], [] =>
    unfold expression
    exact Shifted.failNext stop _ rfl
  | t :: ts, t' :: us =>
    obtain ⟨rfl, htail⟩ := List.cons.inj h
    unfold expression
    refine Shifted.bind (operand_shift stop t ts us htail) ?_
    rintro left mid mid' hle hle' hmid
    exact continued_shift stop level left mid mid' hmid
termination_by 4 * ts.length
decreasing_by all_goals simp only [List.length_cons] at *; omega

theorem operand_shift (stop t : Token) (ts us : List Token) (h : ts.map (Token.shift k) = us) :
    Shifted k (operand stop t ts) (operand (stop.shift k) (t.shift k) us) := by
  have hkind : (t.shift k).kind = t.kind := rfl
  have hliteral : (t.shift k).literal = t.literal := rfl
  unfold operand
  rw [hkind, hliteral]
  split
  case h_1 | h_3 | h_4 | h_5 | h_6 => exact Shifted.done _ h
  case h_2 =>
    split
    · exact Shifted.done _ h
    · exact Shifted.fail _ h
  case h_7 | h_8 => exact (expression_shift stop .unary ts us h).map.weaken
  case h_9 =>
    refine Shifted.weaken (Shifted.bind (expression_shift stop .lowest ts us h) ?_)
    rintro e mid mid' hle hle' hmid
    refine Shifted.expect hmid ?_
    rintro t' rest rest' hlt hlt' rfl hrest
    exact Shifted.done e hrest
  case h_10 => exact (items_shift stop _ ts us h).map
  case h_11 => exact (pairs_shift stop ts us h).map
  case h_12 =>
    refine Shifted.expect h ?_
    rintro t₁ ts₁ us₁ hlt₁ hlt₁' rfl h₁
    refine Shifted.weaken (Shifted.bind (expression_shift stop .lowest ts₁ us₁ h₁) ?_)
    rintro test ts₂ us₂ hle₂ hle₂' h₂
    refine Shifted.expect h₂ ?_
    rintro t₃ ts₃ us₃ hlt₃ hlt₃' rfl h₃
    refine Shifted.expect h₃ ?_
    rintro t₄ ts₄ us₄ hlt₄ hlt₄' rfl h₄
    refine Shifted.bind (block_shift stop ts₄ us₄ h₄) ?_
    rintro yes ts₅ us₅ hle₅ hle₅' h₅
    split
    · subst h₅
      refine Shifted.weaken (Shifted.expect rfl ?_)
      rintro t₆ ts₆ us₆ hlt₆ hlt₆' rfl h₆
      exact (block_shift stop ts₆ us₆ h₆).map
    · rename_i hne
      split
      · obtain ⟨_, _, rfl, -⟩ := cons_of_shift h₅
        exact (hne _ _ _ hle₅ rfl .rfl).elim
      · exact Shifted.done _ h₅
  case h_13 =>
    refine Shifted.expect h ?_
    rintro t₁ ts₁ us₁ hlt₁ hlt₁' rfl h₁
    refine Shifted.bind (params_shift stop ts₁ us₁ h₁) ?_
    rintro xs ts₂ us₂ hle₂ hle₂' h₂
    refine Shifted.expect h₂ ?_
    rintro t₃ ts₃ us₃ hlt₃ hlt₃' rfl h₃
    exact (block_shift stop ts₃ us₃ h₃).map
  case h_14 => exact Shifted.fail _ h
termination_by 4 * ts.length + 2
decreasing_by all_goals subst_vars; simp only [List.length_cons] at *; omega

theorem continued_shift (stop : Token) (level : Precedence) (left : Expr) (ts us : List Token)
    (h : ts.map (Token.shift k) = us) :
    Shifted k (continued stop level left ts) (continued (stop.shift k) level left us) := by
  match ts, us with
  | [], [] =>
    unfold continued
    exact Shifted.done left rfl
  | t :: ts, t' :: us =>
    obtain ⟨rfl, htail⟩ := List.cons.inj h
    have hkind : (t.shift k).kind = t.kind := rfl
    unfold continued
    rw [hkind]
    split
    case isFalse => exact Shifted.done left h
    case isTrue =>
      split
      case h_1 =>
        refine Shifted.weaken (Shifted.bind (items_shift stop _ ts us htail) ?_)
        rintro args mid mid' hle hle' hmid
        exact continued_shift stop level _ mid mid' hmid
      case h_2 =>
        refine Shifted.weaken (Shifted.bind (expression_shift stop .lowest ts us htail) ?_)
        rintro i mid mid' hle hle' hmid
        refine Shifted.expect hmid ?_
        rintro t' rest rest' hlt hlt' rfl hrest
        exact continued_shift stop level _ rest rest' hrest
      case h_3 =>
        split
        · refine Shifted.weaken (Shifted.bind (expression_shift stop _ ts us htail) ?_)
          rintro right mid mid' hle hle' hmid
          exact continued_shift stop level _ mid mid' hmid
        · exact Shifted.done left h
      case h_4 => exact Shifted.done left h
termination_by 4 * ts.length + 1
decreasing_by all_goals subst_vars; simp only [List.length_cons] at *; omega

theorem items_shift (stop : Token) (close : Token.Kind) (ts us : List Token)
    (h : ts.map (Token.shift k) = us) :
    Shifted k (items stop close ts) (items (stop.shift k) close us) := by
  match ts, us with
  | [], [] =>
    unfold items
    exact Shifted.failNext stop _ rfl
  | t :: ts, t' :: us =>
    obtain ⟨rfl, htail⟩ := List.cons.inj h
    have hkind : (t.shift k).kind = t.kind := rfl
    unfold items
    rw [hkind]
    split
    case isTrue => exact (Shifted.done [] htail).weaken
    case isFalse =>
      refine Shifted.weaken (Shifted.bind (expression_shift stop .lowest (t :: ts) _ h) ?_)
      rintro e mid mid' hle hle' hmid
      exact (moreItems_shift stop close mid mid' hmid).map
termination_by 4 * ts.length + 1
decreasing_by all_goals subst_vars; simp only [List.length_cons] at *; omega

theorem moreItems_shift (stop : Token) (close : Token.Kind) (ts us : List Token)
    (h : ts.map (Token.shift k) = us) :
    Shifted k (moreItems stop close ts) (moreItems (stop.shift k) close us) := by
  unfold moreItems
  split
  · rename_i ts
    subst h
    refine Shifted.weaken (Shifted.bind (expression_shift stop .lowest ts _ rfl) ?_)
    rintro e mid mid' hle hle' hmid
    exact (moreItems_shift stop close mid mid' hmid).map
  · rename_i hne
    split
    · obtain ⟨_, _, rfl, -⟩ := cons_of_shift h
      exact (hne _ _ _ rfl).elim
    · refine Shifted.expect h ?_
      rintro t rest rest' hlt hlt' rfl hrest
      exact Shifted.done [] hrest
termination_by 4 * ts.length + 1
decreasing_by all_goals subst_vars; simp only [List.length_cons] at *; omega

theorem pairs_shift (stop : Token) (ts us : List Token) (h : ts.map (Token.shift k) = us) :
    Shifted k (pairs stop ts) (pairs (stop.shift k) us) := by
  unfold pairs
  split
  · subst h
    exact Shifted.failNext stop _ rfl
  · subst h
    exact (Shifted.done [] rfl).weaken
  · rename_i t ts hne
    split
    · exact nomatch h
    · obtain ⟨_, _, heq, -⟩ := cons_of_shift h
      exact (hne _ _ (List.cons.inj heq).1).elim
    · refine Shifted.weaken (Shifted.bind (expression_shift stop .lowest (t :: ts) _ h) ?_)
      rintro key ts₁ us₁ hle₁ hle₁' h₁
      refine Shifted.expect h₁ ?_
      rintro t₂ ts₂ us₂ hlt₂ hlt₂' rfl h₂
      refine Shifted.weaken (Shifted.bind (expression_shift stop .lowest ts₂ us₂ h₂) ?_)
      rintro value ts₃ us₃ hle₃ hle₃' h₃
      split
      · subst h₃
        exact (Shifted.done _ rfl).weaken
      · rename_i hne₃
        split
        · obtain ⟨_, _, rfl, -⟩ := cons_of_shift h₃
          exact (hne₃ _ _ _ hle₃ rfl .rfl).elim
        · refine Shifted.expect h₃ ?_
          rintro t₄ ts₄ us₄ hlt₄ hlt₄' rfl h₄
          exact (pairs_shift stop ts₄ us₄ h₄).map
termination_by 4 * ts.length + 1
decreasing_by all_goals grind

theorem block_shift (stop : Token) (ts us : List Token) (h : ts.map (Token.shift k) = us) :
    Shifted k (block stop ts) (block (stop.shift k) us) := by
  unfold block
  split
  · subst h
    exact Shifted.failNext stop _ rfl
  · subst h
    exact (Shifted.done [] rfl).weaken
  · rename_i t ts hne
    split
    · exact nomatch h
    · obtain ⟨_, _, heq, -⟩ := cons_of_shift h
      exact (hne _ _ (List.cons.inj heq).1).elim
    · refine Shifted.weaken (Shifted.thenRest (statement_shift stop (t :: ts) _ h) ?_)
      rintro mid mid' hle hle' hmid
      exact block_shift stop mid mid' hmid
termination_by 4 * ts.length + 3
decreasing_by all_goals subst_vars; simp only [List.length_cons] at *; omega

theorem statement_shift (stop : Token) (ts us : List Token) (h : ts.map (Token.shift k) = us) :
    Shifted k (statement stop ts) (statement (stop.shift k) us) := by
  unfold statement
  split
  · subst h
    exact declaration_shift stop .mutable _ _ rfl
  · subst h
    exact declaration_shift stop .fixed _ _ rfl
  · subst h
    exact (expression_shift stop .lowest _ _ rfl).thenSemicolon.map.weaken
  · cases us with
    | nil => exact nomatch h
    | cons t' us =>
      obtain ⟨rfl, htail⟩ := List.cons.inj h
      dsimp only [Token.shift]
      split
      · subst htail
        exact Shifted.done _ rfl
      · subst htail
        exact Shifted.done _ rfl
      · subst htail
        exact (Shifted.done _ rfl).weaken
      · rename_i t ts hbrace hsemicolon
        split
        · exact nomatch htail
        · obtain ⟨_, _, heq, -⟩ := cons_of_shift htail
          exact (hbrace _ _ (List.cons.inj heq).1).elim
        · obtain ⟨_, _, heq, -⟩ := cons_of_shift htail
          exact (hsemicolon _ _ (List.cons.inj heq).1).elim
        · exact (expression_shift stop .lowest _ _ htail).thenSemicolon.map.weaken
  · rename_i hvar hval hassign hret
    split
    · obtain ⟨_, _, rfl, -⟩ := cons_of_shift h
      exact (hvar _ _ _ rfl).elim
    · obtain ⟨_, _, rfl, -⟩ := cons_of_shift h
      exact (hval _ _ _ rfl).elim
    · obtain ⟨_, _, rfl, htail⟩ := cons_of_shift h
      obtain ⟨_, _, rfl, -⟩ := cons_of_shift htail
      exact (hassign _ _ _ _ _ rfl).elim
    · obtain ⟨_, _, rfl, -⟩ := cons_of_shift h
      exact (hret _ _ _ rfl).elim
    · exact (expression_shift stop .lowest ts us h).thenSemicolon.map
termination_by 4 * ts.length + 1
decreasing_by all_goals subst_vars; simp only [List.length_cons] at *; omega

theorem declaration_shift (stop : Token) (m : Mutability) (ts us : List Token)
    (h : ts.map (Token.shift k) = us) :
    Shifted k (declaration stop m ts) (declaration (stop.shift k) m us) := by
  unfold declaration
  refine Shifted.expect h ?_
  rintro t ts₁ us₁ hlt₁ hlt₁' rfl h₁
  refine Shifted.expect h₁ ?_
  rintro t₂ ts₂ us₂ hlt₂ hlt₂' rfl h₂
  exact (expression_shift stop .lowest ts₂ us₂ h₂).thenSemicolon.map.weaken
termination_by 4 * ts.length + 1
decreasing_by all_goals subst_vars; simp only [List.length_cons] at *; omega

end

theorem statements_shift (stop : Token) (ts us : List Token) (h : ts.map (Token.shift k) = us) :
    statements (stop.shift k) us =
      ((statements stop ts).1, (statements stop ts).2.map (SyntaxError.shift k)) := by
  match ts, us with
  | [], [] =>
    unfold statements
    rfl
  | t :: ts, t' :: us =>
    have hs := statement_shift stop (t :: ts) _ h
    have ih := statements_shift stop _ _ hs.rest
    unfold statements
    simp only [ih, ← hs.result, ← hs.errors, List.map_append]
termination_by ts.length
decreasing_by exact Nat.lt_succ_of_le (statement stop (t :: ts)).rest_le

end Parse

end TinyScript
