import TinyScript.Proofs.Attempts

/-!
# Mistakes

The parser that reads from a cursor comes to the end of every text, with the statements that are
read from its tokens and with the same mistakes. Along the way each construct consumes what it reads,
so that its mistakes stand where it was read, and hands the failure of a part on without another
mistake. Only the attempt to read a statement ends a failure: it has then exactly one mistake of its
own, and the next attempt starts behind that. So the attempts account for every token of the text, for
every statement of the program and of the blocks in it, and for every mistake
(`Program.parse_mistakes`).

The theorems on the constructs follow the steps that read the tokens, one for each of them, with the
tokens to come as the measure.
-/

namespace TinyScript

namespace Parser

section
variable {stop : Token} (hstop : stop.kind = .endOfInput)
include hstop

theorem does_moreParams {p : Parser} (us : List Token) (hp : p.Left stop done us) :
    Does stop done [] p Construct.moreParams.read us (Parse.moreParams stop us) := by
  unfold Parse.moreParams
  split
  · rename_i literal span ts
    have hpeek : p.peek.kind = .symbol .comma := congrArg Token.kind hp.peek
    rw [Construct.read]
    refine does_then hpeek ?_
    refine does_advance hstop hp fun hat => ?_
    refine Does.consumed (does_expect hstop hat.left ident_proper rfl ?_)
    rintro name rest hlt rfl - hrest
    exact (does_moreParams rest hrest).map rfl (fun _ => rfl) fun _ => rfl
  · rename_i hne
    rw [Construct.read]
    refine does_else (hp.peek_ne hstop hne (symbol_proper _)) ?_
    refine does_expect hstop hp (symbol_proper _) rfl ?_
    rintro t rest hlt rfl - hrest
    exact does_done hrest _ rfl
termination_by us.length
decreasing_by subst_vars; simp only [List.length_cons]; omega

theorem does_params {p : Parser} (us : List Token) (hp : p.Left stop done us) :
    Does stop done [] p Construct.params.read us (Parse.params stop us) := by
  unfold Parse.params
  split
  · rename_i literal span ts
    have hpeek : p.peek.kind = .symbol .rparen := congrArg Token.kind hp.peek
    rw [Construct.read]
    refine does_then hpeek ?_
    exact does_advance hstop hp fun hat => Does.consumed (does_done hat.left _ rfl)
  · rename_i hne
    rw [Construct.read]
    refine does_else (hp.peek_ne hstop hne (symbol_proper _)) ?_
    refine does_expect hstop hp ident_proper rfl ?_
    rintro name rest hlt rfl - hrest
    exact (does_moreParams hstop rest hrest).map rfl (fun _ => rfl) fun _ => rfl

theorem does_expressionEnd [Bodied α] {p : Parser} (hp : p.At stop done []) (level : Precedence)
    {f : Option Expr → Action (Option α)} (hnone : f none = pure none) :
    Does stop done before p ((Construct.expression level).read >>= f) []
      (Step.failNext stop .notAnExpression [] : Step α _) := by
  have hoperand : (Construct.operand p.current).read = fail .notAnExpression := by
    have hcurrent : p.current = stop := hp.current
    rw [Construct.read, hcurrent, hstop]
  have hexpression : (Construct.expression level).read p = fail .notAnExpression p := by
    have hget : (get : Action Parser) p = some (p, p) := rfl
    rw [Construct.read, bind_eq hget, hoperand]
    rfl
  refine (does_failEnd hstop hp .notAnExpression).congr ?_
  rw [bind_eq hexpression, hnone]
  rfl

theorem peek_ne_assign {p : Parser} (hp : p.At stop done us) (hident : p.current.kind = .ident)
    (hassign : ∀ name span literal span' ts,
      us = ⟨.ident, name, span⟩ :: ⟨.symbol .assign, literal, span'⟩ :: ts → False) :
    p.peek.kind ≠ .symbol .assign := by
  intro hpeek
  refine absurd hident (hp.current_ne hstop ?_ ident_proper)
  rintro name span ts rfl
  refine absurd hpeek (hp.left.peek_ne hstop ?_ (symbol_proper _))
  rintro literal span' vs hts
  exact hassign name span literal span' vs (congrArg _ hts)

mutual

theorem does_expression {p : Parser} (level : Precedence) (us : List Token)
    (hp : p.At stop done us) :
    Does stop done [] p (Construct.expression level).read us (Parse.expression stop level us) := by
  match us with
  | [] =>
    unfold Parse.expression
    exact (does_expressionEnd hstop hp level (f := pure) rfl).congr (by rw [bind_pure])
  | t :: ts =>
    unfold Parse.expression
    have hcurrent : p.current = t := hp.current
    rw [Construct.read]
    refine does_get ?_
    rw [hcurrent]
    refine (does_operand t ts hcurrent hp.left).bind rfl ?_
    rintro left rest hle p' done' hrest
    exact does_continued level left rest hrest
termination_by 4 * us.length
decreasing_by all_goals simp only [List.length_cons]; omega

theorem does_operand {p : Parser} (t : Token) (ts : List Token) (ht : p.current = t)
    (hp : p.Left stop (done ++ [.token t]) ts) :
    Does stop done [] p (Construct.operand t).read (t :: ts) (Parse.operand stop t ts) := by
  unfold Parse.operand
  split
  case h_1 hk | h_3 hk | h_4 hk | h_5 hk | h_6 hk =>
    rw [Construct.read, hk]
    exact (does_done hp _ rfl).behind
  case h_2 hk =>
    rw [Construct.read, hk]
    dsimp only
    cases Parse.int? t.literal with
    | some n => exact (does_done hp _ rfl).behind
    | none => exact does_fail hp ht _
  case h_7 hk | h_8 hk =>
    rw [Construct.read, hk]
    dsimp only
    rw [Construct.read]
    refine Does.behind (does_advance hstop hp fun hat => Does.weaken ?_ _)
    exact (does_expression .unary ts hat).map rfl (fun _ => rfl) fun _ => rfl
  case h_9 hk =>
    rw [Construct.read, hk]
    dsimp only
    rw [Construct.read]
    refine Does.behind (does_advance hstop hp fun hat => Does.weaken ?_ _)
    refine (does_expression .lowest ts hat).bind rfl ?_
    rintro e mid hle p' done' hmid
    refine does_expect hstop hmid (symbol_proper _) rfl ?_
    rintro t' rest hlt rfl - hrest
    exact does_done hrest e rfl
  case h_10 hk =>
    rw [Construct.read, hk]
    dsimp only
    refine Does.behind ?_
    exact (does_items (.symbol .rbracket) ts (symbol_proper _) hp).map rfl (fun _ => rfl) fun _ => rfl
  case h_11 hk =>
    rw [Construct.read, hk]
    dsimp only
    refine Does.behind ?_
    exact (does_pairs ts hp).map rfl (fun _ => rfl) fun _ => rfl
  case h_12 hk =>
    rw [Construct.read, hk]
    dsimp only
    rw [Construct.read]
    refine Does.behind ?_
    refine does_expect hstop hp (symbol_proper _) rfl ?_
    rintro t₁ ts₁ hlt₁ rfl - hts₁
    refine does_advance hstop hts₁ fun hat => Does.weaken ?_ _
    refine (does_expression .lowest ts₁ hat).bind rfl ?_
    rintro test ts₂ hle₂ p₂ done₂ hts₂
    refine does_expect hstop hts₂ (symbol_proper _) rfl ?_
    rintro t₃ ts₃ hlt₃ rfl - hts₃
    refine does_expect hstop hts₃ (symbol_proper _) rfl ?_
    rintro t₄ ts₄ hlt₄ rfl ht₄ hts₄
    refine (does_braced hstop hts₄ ht₄ fun p' hat => does_block ts₄ hat).bind rfl ?_
    rintro yes ts₅ hle₅ p₅ done₅ hts₅
    dsimp only
    split
    · rename_i literal span ts₆ _ hts₅
      have hpeek : p₅.peek.kind = .keyword .else_ := congrArg Token.kind hts₅.peek
      rw [Construct.read]
      refine does_then hpeek ?_
      refine does_advance hstop hts₅ fun hat₅ => Does.consumed ?_
      refine does_expect hstop hat₅.left (symbol_proper _) rfl ?_
      rintro t₇ ts₇ hlt₇ rfl ht₇ hts₇
      refine (does_braced hstop hts₇ ht₇ fun p' hat => does_block ts₇ hat).map rfl (fun _ => rfl) ?_
      intro no
      exact List.append_cons ..
    · rename_i hother
      have hne : ∀ literal span ts, ts₅ = ⟨.keyword .else_, literal, span⟩ :: ts → False := by
        rintro literal span ts rfl
        exact hother literal span ts hle₅ rfl .rfl
      rw [Construct.read]
      refine does_else (hts₅.peek_ne hstop hne (keyword_proper _)) ?_
      exact does_done hts₅ _ rfl
  case h_13 hk =>
    rw [Construct.read, hk]
    dsimp only
    rw [Construct.read]
    refine Does.behind ?_
    refine does_expect hstop hp (symbol_proper _) rfl ?_
    rintro t₁ ts₁ hlt₁ rfl - hts₁
    refine (does_params hstop ts₁ hts₁).bind rfl ?_
    rintro xs ts₂ hle₂ p₂ done₂ hts₂
    refine does_expect hstop hts₂ (symbol_proper _) rfl ?_
    rintro t₃ ts₃ hlt₃ rfl ht₃ hts₃
    refine (does_braced hstop hts₃ ht₃ fun p' hat => does_block ts₃ hat).map rfl (fun _ => rfl) ?_
    exact fun _ => rfl
  case h_14 =>
    rw [Construct.read]
    split
    case h_14 => exact does_fail hp ht _
    all_goals contradiction
termination_by 4 * ts.length + 2
decreasing_by all_goals subst_vars; simp only [List.length_cons] at *; omega

theorem does_continued {p : Parser} (level : Precedence) (left : Expr) (us : List Token)
    (hp : p.Left stop done us) :
    Does stop done left.bodies p (Construct.continued level left).read us
      (Parse.continued stop level left us) := by
  match us with
  | [] =>
    unfold Parse.continued
    have hpeek : p.peek.kind = .endOfInput := (congrArg Token.kind hp.peek).trans hstop
    have hend : ¬(p.peek.kind ≠ .symbol .semicolon ∧ level < Precedence.ofKind p.peek.kind) := by
      rw [hpeek]
      exact fun h => Nat.not_lt_zero _ h.2
    rw [Construct.read]
    refine does_else hend ?_
    exact does_done hp left rfl
  | t :: ts =>
    have hpeek : p.peek = t := hp.peek
    unfold Parse.continued
    split
    case isFalse hlevel =>
      rw [Construct.read]
      refine does_else (fun h => hlevel (hpeek ▸ h.2)) ?_
      exact does_done hp left rfl
    case isTrue hlevel =>
      have hgoes : p.peek.kind ≠ .symbol .semicolon ∧ level < Precedence.ofKind p.peek.kind := by
        refine ⟨fun hsemicolon => ?_, hpeek.symm ▸ hlevel⟩
        rw [← hpeek, hsemicolon] at hlevel
        exact Nat.not_lt_zero _ hlevel
      rw [Construct.read]
      refine does_then hgoes ?_
      rw [hpeek]
      split
      case h_1 hk =>
        rw [hk, Construct.read]
        refine does_advance hstop hp fun hat => Does.consumed ?_
        refine (does_items (.symbol .rparen) ts (symbol_proper _) hat.left).bind rfl ?_
        rintro args rest hle p' done' hrest
        exact does_continued level _ rest hrest
      case h_2 hk =>
        rw [hk, Construct.read]
        refine does_advance hstop hp fun hat => Does.consumed ?_
        refine does_advance hstop hat.left fun hat' => ?_
        refine (does_expression .lowest ts hat').bind rfl ?_
        rintro position mid hle p' done' hmid
        refine does_expect hstop hmid (symbol_proper _) rfl ?_
        rintro t' rest hlt rfl - hrest
        exact does_continued level _ rest hrest
      case h_3 s hparen hbracket hk =>
        rw [hk, Construct.read]
        · cases BinaryOp.ofSymbol? s with
          | none => exact does_done hp left rfl
          | some op =>
            refine does_advance hstop hp fun hat => Does.consumed ?_
            refine does_advance hstop hat.left fun hat' => ?_
            refine (does_expression _ ts hat').bind rfl ?_
            rintro right rest hle p' done' hrest
            exact does_continued level _ rest hrest
        · exact hparen
        · exact hbracket
      case h_4 hparen hbracket hother =>
        rw [Construct.read]
        · exact does_done hp left rfl
        · exact hparen
        · exact hbracket
        · exact hother
termination_by 4 * us.length + 1
decreasing_by all_goals simp only [List.length_cons]; omega

theorem does_items {p : Parser} (close : Token.Kind) (us : List Token)
    (hclose : close ≠ .endOfInput) (hp : p.Left stop done us) :
    Does stop done [] p (Construct.items close).read us (Parse.items stop close us) := by
  match us with
  | [] =>
    unfold Parse.items
    have hpeek : p.peek.kind = .endOfInput := (congrArg Token.kind hp.peek).trans hstop
    rw [Construct.read]
    refine does_else (fun h => hclose (h.symm.trans hpeek)) ?_
    exact does_advance hstop hp fun hat => does_expressionEnd hstop hat .lowest rfl
  | t :: ts =>
    have hpeek : p.peek.kind = t.kind := congrArg Token.kind hp.peek
    unfold Parse.items
    split
    case isTrue hk =>
      rw [Construct.read]
      refine does_then (hpeek.trans hk) ?_
      exact does_advance hstop hp fun hat => Does.consumed (does_done hat.left [] rfl)
    case isFalse hk =>
      rw [Construct.read]
      refine does_else (fun h => hk (hpeek.symm.trans h)) ?_
      refine does_advance hstop hp fun hat => Does.weaken ?_ _
      refine (does_expression .lowest (t :: ts) hat).bind rfl ?_
      rintro e rest hle p' done' hrest
      exact (does_moreItems close rest hclose hrest).map rfl (fun _ => rfl) fun _ => rfl
termination_by 4 * us.length + 1
decreasing_by all_goals simp only [List.length_cons] at *; omega

theorem does_moreItems {p : Parser} (close : Token.Kind) (us : List Token)
    (hclose : close ≠ .endOfInput) (hp : p.Left stop done us) :
    Does stop done [] p (Construct.moreItems close).read us (Parse.moreItems stop close us) := by
  unfold Parse.moreItems
  split
  · rename_i literal span ts
    have hpeek : p.peek.kind = .symbol .comma := congrArg Token.kind hp.peek
    rw [Construct.read]
    refine does_then hpeek ?_
    refine does_advance hstop hp fun hat => Does.consumed ?_
    refine does_advance hstop hat.left fun hat' => ?_
    refine (does_expression .lowest ts hat').bind rfl ?_
    rintro e rest hle p' done' hrest
    exact (does_moreItems close rest hclose hrest).map rfl (fun _ => rfl) fun _ => rfl
  · rename_i hne
    rw [Construct.read]
    refine does_else (hp.peek_ne hstop hne (symbol_proper _)) ?_
    refine does_expect hstop hp hclose rfl ?_
    rintro t rest hlt rfl - hrest
    exact does_done hrest [] rfl
termination_by 4 * us.length + 1
decreasing_by all_goals subst_vars; simp only [List.length_cons]; omega

theorem does_pairs {p : Parser} (us : List Token) (hp : p.Left stop done us) :
    Does stop done [] p Construct.pairs.read us (Parse.pairs stop us) := by
  unfold Parse.pairs
  split
  · have hpeek : p.peek.kind = .endOfInput := (congrArg Token.kind hp.peek).trans hstop
    rw [Construct.read]
    refine does_get ?_
    rw [hpeek, if_neg (symbol_proper _).symm]
    exact does_advance hstop hp fun hat => does_expressionEnd hstop hat .lowest rfl
  · rename_i literal span ts
    have hpeek : p.peek.kind = .symbol .rbrace := congrArg Token.kind hp.peek
    rw [Construct.read]
    refine does_then hpeek ?_
    exact does_found hstop hp rfl rfl fun hrest => does_done hrest [] rfl
  · rename_i t ts hne
    have hpeek : p.peek = t := hp.peek
    rw [Construct.read]
    refine does_get ?_
    rw [hpeek, if_neg (kind_ne hne)]
    refine does_advance hstop hp fun hat => Does.weaken ?_ _
    refine (does_expression .lowest (t :: ts) hat).bind rfl ?_
    rintro key ts₁ hle₁ p₁ done₁ hts₁
    refine does_expect hstop hts₁ (symbol_proper _) rfl ?_
    rintro t₂ ts₂ hlt₂ rfl - hts₂
    refine does_advance hstop hts₂ fun hat₂ => Does.weaken ?_ _
    refine (does_expression .lowest ts₂ hat₂).bind rfl ?_
    rintro value ts₃ hle₃ p₃ done₃ hts₃
    dsimp only
    split
    · rename_i literal span ts₄ _ hts₃
      have hpeek : p₃.peek.kind = .symbol .rbrace := congrArg Token.kind hts₃.peek
      have hend := does_pairs _ hts₃
      rw [Parse.pairs] at hend
      rw [Construct.read]
      refine does_then hpeek ?_
      exact hend.map rfl (fun _ => rfl) fun _ => rfl
    · rename_i hother
      have hne : ∀ literal span ts, ts₃ = ⟨.symbol .rbrace, literal, span⟩ :: ts → False := by
        rintro literal span ts rfl
        exact hother literal span ts hle₃ rfl .rfl
      rw [Construct.read]
      refine does_else (hts₃.peek_ne hstop hne (symbol_proper _)) ?_
      refine does_expect hstop hts₃ (symbol_proper _) rfl ?_
      rintro t₄ ts₄ hlt₄ rfl - hts₄
      exact (does_pairs ts₄ hts₄).map rfl (fun _ => rfl) fun _ => rfl
termination_by 4 * us.length + 1
decreasing_by all_goals subst_vars; omega

theorem does_block {p : Parser} (us : List Token) (hp : p.At stop [] us) :
    Lists stop p Construct.block.read us (Parse.block stop us) := by
  unfold Parse.block
  split
  · have hcurrent : p.current = stop := hp.current
    rw [Construct.read]
    refine lists_get ?_
    rw [hcurrent, hstop, if_neg (symbol_proper _).symm, if_pos rfl]
    exact lists_missing hstop hp
  · have hcurrent : p.current.kind = .symbol .rbrace := congrArg Token.kind hp.current
    rw [Construct.read]
    refine lists_get ?_
    rw [if_pos hcurrent]
    exact lists_brace hp rfl
  · rename_i t ts hne
    have hcurrent : p.current = t := hp.current
    have hproper : t.kind ≠ .endOfInput := hp.proper t List.mem_cons_self
    have hbrace : t.kind ≠ .symbol .rbrace := kind_ne hne
    rw [Construct.read]
    refine lists_get ?_
    rw [hcurrent, if_neg hbrace, if_neg hproper]
    refine (attempts_statement hp (Nat.lt_succ_self _) (does_statement (t :: ts))).thenBlock hstop
      ?_ ?_ ?_
    · exact fun _ => rfl
    · exact fun _ _ => rfl
    · exact fun rest hle p' hrest => does_block rest hrest
termination_by 4 * us.length + 3
decreasing_by all_goals subst_vars; simp only [List.length_cons] at *; omega

theorem does_statement {p : Parser} (us : List Token) (hp : p.At stop done us) :
    Does stop done [] p Construct.sentence.read us (Parse.statement stop us) := by
  unfold Parse.statement
  split
  case h_1 literal span ts =>
    have hcurrent : p.current.kind = .keyword .var := congrArg Token.kind hp.current
    rw [Construct.read]
    refine does_get ?_
    rw [hcurrent]
    exact (does_declaration .mutable ts hp.left).behind
  case h_2 literal span ts =>
    have hcurrent : p.current.kind = .keyword .val := congrArg Token.kind hp.current
    rw [Construct.read]
    refine does_get ?_
    rw [hcurrent]
    exact (does_declaration .fixed ts hp.left).behind
  case h_3 name span literal span' ts =>
    have hcurrent : p.current = ⟨.ident, name, span⟩ := hp.current
    have hpeek : p.peek.kind = .symbol .assign := congrArg Token.kind hp.left.peek
    rw [Construct.read]
    refine does_get ?_
    rw [hcurrent]
    dsimp only
    rw [Construct.read]
    refine does_then hpeek ?_
    rw [Construct.read]
    refine does_get (Does.behind ?_)
    rw [hcurrent]
    refine does_found hstop hp.left rfl rfl fun hrest => ?_
    refine does_advance hstop hrest fun hat => ?_
    exact (does_expression .lowest ts hat).thenSemicolon hstop rfl (fun _ => rfl) fun _ => rfl
  case h_4 literal span ts =>
    have hcurrent : p.current.kind = .keyword .return_ := congrArg Token.kind hp.current
    rw [Construct.read]
    refine does_get ?_
    rw [hcurrent]
    dsimp only
    refine Does.behind ?_
    split
    · have hpeek : p.peek.kind = .endOfInput := (congrArg Token.kind hp.left.peek).trans hstop
      rw [Construct.read]
      refine does_then (.inr hpeek) ?_
      exact does_done hp.left _ rfl
    · have hpeek : p.peek.kind = .symbol .rbrace := congrArg Token.kind hp.left.peek
      rw [Construct.read]
      refine does_then (.inl hpeek) ?_
      exact does_done hp.left _ rfl
    · have hpeek : p.peek.kind = .symbol .semicolon := congrArg Token.kind hp.left.peek
      rw [Construct.read]
      refine does_get ?_
      rw [hpeek, if_neg (by decide), if_pos rfl]
      exact does_advance hstop hp.left fun hat => Does.consumed (does_done hat.left _ rfl)
    · rename_i t ts hbrace hsemicolon
      have hpeek : p.peek = t := hp.left.peek
      have hproper : t.kind ≠ .endOfInput := hp.left.proper t List.mem_cons_self
      rw [Construct.read]
      refine does_get ?_
      rw [hpeek, if_neg (not_or.mpr ⟨kind_ne hbrace, hproper⟩), if_neg (kind_ne hsemicolon)]
      refine does_advance hstop hp.left fun hat => Does.weaken ?_ _
      exact (does_expression .lowest (t :: ts) hat).thenSemicolon hstop rfl (fun _ => rfl) fun _ => rfl
  case h_5 hvar hval hassign hreturn =>
    have hphrase : Does stop done [] p Construct.phrase.read us
        ((Parse.expression stop .lowest us).thenSemicolon.map .expr) := by
      rw [Construct.read]
      exact (does_expression .lowest us hp).thenSemicolon hstop rfl (fun _ => rfl) fun _ => rfl
    rw [Construct.read]
    refine does_get ?_
    split
    case h_1 hk => exact absurd hk (hp.current_ne hstop hvar (keyword_proper _))
    case h_2 hk => exact absurd hk (hp.current_ne hstop hval (keyword_proper _))
    case h_3 hk => exact absurd hk (hp.current_ne hstop hreturn (keyword_proper _))
    case h_4 hk =>
      rw [Construct.read]
      refine does_else (peek_ne_assign hstop hp hk hassign) ?_
      exact hphrase
    case h_5 => exact hphrase
termination_by 4 * us.length + 1
decreasing_by all_goals subst_vars; first | omega | simp only [List.length_cons]; omega

theorem does_declaration {p : Parser} (m : Mutability) (us : List Token)
    (hp : p.Left stop done us) :
    Does stop done [] p (Construct.declaration m).read us (Parse.declaration stop m us) := by
  unfold Parse.declaration
  rw [Construct.read]
  refine does_expect hstop hp ident_proper rfl ?_
  rintro name ts₁ hlt₁ rfl - hts₁
  refine does_expect hstop hts₁ (symbol_proper _) rfl ?_
  rintro t₂ ts₂ hlt₂ rfl - hts₂
  refine does_advance hstop hts₂ fun hat => Does.weaken ?_ _
  exact (does_expression .lowest ts₂ hat).thenSemicolon hstop rfl (fun _ => rfl) fun _ => rfl
termination_by 4 * us.length + 1
decreasing_by all_goals omega

end

end

/-- The parser comes to the end of the text, with an attempt at each statement that the steps read
and with no tokens between the attempts. -/
theorem program_gives (hstop : stop.kind = .endOfInput) {p : Parser} (us : List Token)
    (hp : p.At stop [] us) :
    ∃ tries p', program p = some ((Parse.statements stop us).1, p') ∧
      p.Noted p' (Parse.statements stop us).2 [] tries ∧
      (Parse.statements stop us).1 = tries.filterMap Attempt.result ∧
      Step.Accounts (n := us.length) ⟨some (Parse.statements stop us).1, (Parse.statements stop us).2,
        [], Nat.zero_le _⟩ stop us (tries.flatMap Attempt.tokens) (tries.flatMap Attempt.all) [] := by
  have hget : (get : Action Parser) p = some (p, p) := rfl
  match us with
  | [] =>
    have hcurrent : p.current.kind = .endOfInput := (congrArg Token.kind hp.current).trans hstop
    rw [Parse.statements]
    refine ⟨[], p, ?_, .refl p, rfl, rfl, rfl, List.forall_mem_nil _, List.forall_mem_nil _,
      Nat.le_refl _, .none []⟩
    rw [program, Construct.read, bind_eq hget, if_pos hcurrent]
    rfl
  | t :: ts =>
    have hcurrent : p.current = t := hp.current
    have hproper : t.kind ≠ .endOfInput := hp.proper t List.mem_cons_self
    obtain ⟨a, p', hrun, hleft, hnoted, hresult, haccounts⟩ :=
      attempts_statement hp (Nat.lt_succ_self _) (does_statement hstop (t :: ts))
    have hadvance : advance p' = some ((), p'.advanced) := rfl
    obtain ⟨tries, p'', hrun', hnoted', hkept, haccounts'⟩ :=
      program_gives hstop _ (hleft.advanced hstop)
    refine ⟨a :: tries, p'', ?_, ?_, ?_, ?_⟩
    · rw [program, Construct.read, bind_eq hget, hcurrent, if_neg hproper, bind_eq hrun,
        bind_eq hadvance, bind_eq hrun', Parse.statements]
      rfl
    · rw [Parse.statements]
      exact hnoted.trans hnoted'.since
    · rw [Parse.statements, Attempt.results_cons, hresult, hkept]
    · rw [Parse.statements]
      exact haccounts.trans haccounts' rfl rfl
termination_by us.length
decreasing_by exact Nat.lt_succ_of_le (Parse.statement stop (t :: ts)).rest_le

theorem at_new (source : String) :
    (new source).At (Cursor.endToken source) [] (Cursor.start source).tokens := by
  have hlaid := Lexing.laid_tokens 0 source.toList
  have hfeeds : (Cursor.start source).Feeds (Cursor.endToken source)
      (Cursor.start source).tokens := by
    intro k
    have hcall := hlaid.call k
    rwa [Nat.zero_add, Lexing.byteSize_toList] at hcall
  have hfirst := hfeeds.next.1
  have hend : (Cursor.endToken source).kind = .endOfInput := rfl
  have hparts : partsOf (Cursor.start source).next.1 =
      ((Cursor.start source).tokens.take 1).map .token := by
    rw [hfirst]
    exact partsOf_head hend hlaid.proper
  exact ⟨hfirst, ⟨hparts, Part.Braced.nil.tokens _, hfeeds.next.2.next.1, hfeeds.next.2.next.2,
    fun t ht => hlaid.proper t (List.mem_of_mem_tail ht)⟩, hlaid.proper⟩

end Parser

-- ---------------------------------------------------------------------------
-- Where mistakes are
-- ---------------------------------------------------------------------------

theorem Lexing.Laid.within (h : Laid n cs ts) : ∀ t ∈ ts, t.span.stop ≤ n + byteSize cs := by
  induction h with
  | nil => exact List.forall_mem_nil _
  | blank _ _ ih => exact fun t ht => Nat.add_assoc _ _ _ ▸ ih t ht
  | @token c n cs ts _ _ ih =>
    rw [← byteSize_scan, ← Nat.add_assoc]
    refine List.forall_mem_cons.mpr ⟨Nat.le_add_right _ _, ih⟩

theorem Lexing.starts_ordered (source : String) (ends : Nat) :
    ((Cursor.start source).tokens ++ List.replicate ends (Cursor.endToken source)).Pairwise
      fun t u => t.span.start ≤ u.span.start := by
  have hlaid := Lexing.laid_tokens 0 source.toList
  refine List.pairwise_append.mpr ⟨?_, ?_, ?_⟩
  · refine hlaid.ordered.imp_of_mem fun ht _ hle => ?_
    exact Nat.le_trans (Nat.le_of_lt (hlaid.bounds _ ht).2) hle
  · exact List.pairwise_replicate.mpr (.inr (Nat.le_refl _))
  · intro t ht u hu
    obtain rfl := List.eq_of_mem_replicate hu
    have hwithin := hlaid.within t ht
    rw [Nat.zero_add, Lexing.byteSize_toList] at hwithin
    exact Nat.le_trans (Nat.le_of_lt (hlaid.bounds t ht).2) hwithin

theorem length_own {tries : List Attempt} (h : ∀ a ∈ tries, a.Fits) :
    (tries.flatMap Attempt.own).length = tries.countP (·.result.isNone) := by
  induction tries with
  | nil => rfl
  | cons a tries ih =>
    obtain ⟨ha, h⟩ := List.forall_mem_cons.mp h
    rw [List.flatMap_cons, List.length_append, ih h, ha.settled, List.countP_cons]
    cases a.result with
    | none => exact Nat.add_comm _ _
    | some s => exact Nat.zero_add _

/-- The attempts `tries` take the tokens one after the other, from the first one to the end. The
program is what they came to, in order, and the mistakes are their own and those of the attempts in
their blocks, of which each that failed has one. -/
structure Attempt.Account (tokens : List Token) (program : Program) (errors : List SyntaxError)
    (tries : List Attempt) : Prop where
  taken : tokens = tries.flatMap Attempt.tokens
  kept : program = tries.filterMap Attempt.result
  noted : errors = (tries.flatMap Attempt.all).flatMap Attempt.own
  fits : ∀ a ∈ tries.flatMap Attempt.all, a.Fits
  failures : errors.length = (tries.flatMap Attempt.all).countP (·.result.isNone)
  few : (tries.flatMap Attempt.all).length ≤ tokens.length

/-- The mistakes of a text stand at tokens of it or at its end, in order. The parser that reads from
a cursor comes to the end of every text, with the same program and the same mistakes, and its
attempts account for all of them: nothing is left out of the program, or of a block in it, but what
was read up to a mistake. Since the attempts start at different tokens, there are no more mistakes
than tokens. -/
theorem Program.parse_mistakes (source : String) :
    let tokens := (Cursor.start source).tokens
    let program := (Program.parse source).1
    let errors := (Program.parse source).2
    (∀ e ∈ errors, e.token ∈ tokens ∨ e.token = Cursor.endToken source) ∧
    (errors.Pairwise fun e f => e.span.start ≤ f.span.start) ∧
    errors.length ≤ tokens.length ∧
    ∃ p, Parser.program (Parser.new source) = some (program, p) ∧ p.errors = errors ∧
      Attempt.Account tokens program errors p.attempts := by
  intro tokens program errors
  obtain ⟨tries, p, hrun, hnoted, hkept, haccounts⟩ :=
    Parser.program_gives rfl tokens (Parser.at_new source)
  obtain ⟨read, ends, hread, -, hmarks⟩ := haccounts.placed
  have hmarks : (errors.map SyntaxError.token).Sublist
      (tokens ++ List.replicate ends (Cursor.endToken source)) := by
    rwa [hread, List.append_nil]
  have hattempts : p.attempts = tries := hnoted.attempts
  have howned : errors = (tries.flatMap Attempt.all).flatMap Attempt.own :=
    haccounts.errors.trans (List.append_nil _)
  have hfailed : errors.length = (tries.flatMap Attempt.all).countP (·.result.isNone) :=
    (congrArg List.length howned).trans (length_own haccounts.fits)
  have htries : (tries.flatMap Attempt.all).length ≤ tokens.length := haccounts.length
  refine ⟨fun e he => ?_, ?_, ?_, p, hrun, hnoted.errors, ?_⟩
  · have hmem := hmarks.subset (List.mem_map_of_mem he)
    exact (List.mem_append.mp hmem).imp_right List.eq_of_mem_replicate
  · have hstarts := (Lexing.starts_ordered source ends).sublist hmarks
    rwa [List.pairwise_map] at hstarts
  · exact hfailed ▸ Nat.le_trans List.countP_le_length htries
  · rw [hattempts]
    exact ⟨haccounts.taken.trans (List.append_nil _), hkept, howned, haccounts.fits, hfailed,
      htries⟩

/-- A block goes on after a statement that failed in it, and only its missing brace is a mistake of
the statement that it is in. -/
example : (Program.parse "if (a) \x7b val = 1; b").2.map SyntaxError.message =
    ["missing token: IDENTIFIER", "missing token: \x7d"] := by
  decide +kernel

end TinyScript
