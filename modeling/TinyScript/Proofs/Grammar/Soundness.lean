import TinyScript.Proofs.Grammar.Binding
import TinyScript.Proofs.Grammar.Steps

/-!
# What is read without mistakes is in the grammar

Each function of `Parse`, when it meets no mistake, has read a tree that the grammar gives to the
words between its start and its rest. The words that come next enter twice: `Loose` says that no
operator after an expression binds tighter than the expression, and this is what lets the loop of
`Parse.continued` take one operator after the other with the tier of its left side falling.
-/

namespace TinyScript.Grammar

open Parse Step

/-- The words between `ts` and its rest satisfy `P`. -/
def Spelled (P : List Terminal → Prop) (ts rest : List Token) : Prop :=
  ∃ us, ts.map Token.terminal = us ++ rest.map Token.terminal ∧ P us

theorem moreParams_sound (stop : Token) (ts : List Token) :
    (moreParams stop ts).Clean fun xs rest =>
      Spelled (fun us => ∃ vs, us = vs ++ [.symbol .rparen] ∧ MoreParams vs xs) ts rest := by
  unfold moreParams
  split
  · refine Clean.weaken (Clean.expect ?_)
    rintro t ts hlt rfl ht
    refine Clean.map ((moreParams_sound stop ts).mono ?_)
    rintro xs rest ⟨_, hus, vs, rfl, hvs⟩
    exact ⟨_, by simp [hus, Token.terminal, ht], _, rfl, .cons hvs⟩
  · refine Clean.expect ?_
    rintro t rest hlt rfl ht
    exact Clean.done ⟨_, by simp [terminal_symbol.mpr ht], [], rfl, .nil⟩
termination_by ts.length
decreasing_by subst_vars; simp only [List.length_cons]; omega

theorem params_sound (stop : Token) (ts : List Token) :
    (params stop ts).Clean fun xs rest =>
      Spelled (fun us => ∃ vs, us = vs ++ [.symbol .rparen] ∧ Params vs xs) ts rest := by
  unfold params
  split
  · exact Clean.weaken (Clean.done ⟨_, by simp, [], rfl, .nil⟩)
  · refine Clean.expect ?_
    rintro t ts hlt rfl ht
    refine Clean.map ((moreParams_sound stop ts).mono ?_)
    rintro xs rest ⟨_, hus, vs, rfl, hvs⟩
    exact ⟨_, by simp [hus, Token.terminal, ht], _, rfl, .cons hvs⟩

theorem Statement.last (h : Statement us next s) : Statement us none s := by
  cases h with
  | ended hs => exact .ended hs
  | openEnded hs _ => exact .openEnded hs nofun
  | bareEnded => exact .bareEnded
  | bare _ => exact .bare (.inl rfl)

theorem sentence_clean (front : List Terminal) {s : Step Expr n} {make : Expr → Stmt}
    (hs : s.Clean fun e rest => Spelled (Expression 1 · e) ts rest ∧ Stops .lowest rest)
    (hmake : ∀ us e, Expression 1 us e → Sentence (front ++ us) (make e)) :
    (s.thenSemicolon.map make).Clean fun st rest =>
      Spelled (fun us => Statement (front ++ us) (rest.head?.map Token.terminal) st) ts rest := by
  refine Clean.map (Clean.thenSemicolon (hs.mono ?_))
  rintro e rest ⟨⟨us, hus, he⟩, hstops⟩
  unfold dropSemicolon
  split
  · refine ⟨us ++ [.symbol .semicolon], by simp [hus], ?_⟩
    simpa using Statement.ended (hmake us e he)
  · refine ⟨us, hus, .openEnded (hmake us e he) ?_⟩
    intro u hu hc
    obtain ⟨t, ht, rfl⟩ := Option.map_eq_some_iff.mp hu
    exact hstops t ht (continues_iff.mp hc)

def IsOperand (e : Expr) (ts rest : List Token) : Prop :=
  ∃ p, 5 ≤ p ∧ Loose p rest ∧ Spelled (Expression p · e) ts rest

section
variable {ts rest : List Token}

theorem IsOperand.primary (h : Spelled (Expression 7 · e) ts rest) : IsOperand e ts rest :=
  ⟨7, by decide, fun _ _ => .inr (by decide), h⟩

theorem IsOperand.signed (h : Spelled (Expression 5 · e) ts rest) (hs : Stops .unary rest) :
    IsOperand e ts rest := ⟨5, Nat.le_refl _, hs.loose, h⟩

end

mutual

theorem expression_sound (stop : Token) (hm : level.level ≤ 5) (ts : List Token) :
    (expression stop level ts).Clean fun e rest =>
      Spelled (Expression level.tier · e) ts rest ∧ Stops level rest := by
  match ts with
  | [] =>
    unfold expression
    exact Clean.failNext
  | t :: ts =>
    unfold expression
    refine Clean.bind (operand_sound stop t ts) ?_
    rintro left mid hle ⟨p, hp, hloose, us, hus, hleft⟩
    refine (continued_sound stop hm hleft (Nat.le_trans (Nat.min_le_right _ _) hp) hloose).mono ?_
    rintro e rest ⟨⟨vs, hvs, he⟩, hstops⟩
    exact ⟨⟨us ++ vs, by simp only [hus, hvs, List.append_assoc], he⟩, hstops⟩
termination_by 4 * ts.length
decreasing_by all_goals simp only [List.length_cons] at *; omega

theorem operand_sound (stop t : Token) (ts : List Token) :
    (operand stop t ts).Clean fun e rest => IsOperand e (t :: ts) rest := by
  unfold operand
  split
  case h_1 ht =>
    exact Clean.done (.primary ⟨_, by simp [Token.terminal, ht], .ident⟩)
  case h_2 ht =>
    split
    · rename_i n hn
      exact Clean.done (.primary ⟨_, by simp [Token.terminal, ht],
        .integer (int?_eq_some_iff.mp hn)⟩)
    · exact Clean.fail
  case h_3 ht =>
    exact Clean.done (.primary ⟨_, by simp [Token.terminal, ht], .string⟩)
  case h_4 ht =>
    exact Clean.done (.primary ⟨_, by simp [Token.terminal, ht], .true_⟩)
  case h_5 ht =>
    exact Clean.done (.primary ⟨_, by simp [Token.terminal, ht], .false_⟩)
  case h_6 ht =>
    exact Clean.done (.primary ⟨_, by simp [Token.terminal, ht], .null⟩)
  case h_7 ht =>
    refine Clean.weaken (Clean.map ((expression_sound stop (by decide) ts).mono ?_))
    rintro e rest ⟨⟨us, hus, he⟩, hstops⟩
    exact .signed ⟨_ :: us, by simp [hus, Token.terminal, ht, UnaryOp.symbol],
      .unary .not he⟩ hstops
  case h_8 ht =>
    refine Clean.weaken (Clean.map ((expression_sound stop (by decide) ts).mono ?_))
    rintro e rest ⟨⟨us, hus, he⟩, hstops⟩
    exact .signed ⟨_ :: us, by simp [hus, Token.terminal, ht, UnaryOp.symbol],
      .unary .negate he⟩ hstops
  case h_9 ht =>
    refine Clean.weaken (Clean.bind (expression_sound stop (by decide) ts) ?_)
    rintro e mid hle ⟨⟨us, hus, he⟩, -⟩
    refine Clean.expect ?_
    rintro t' rest hlt rfl ht'
    exact Clean.done (.primary ⟨_, by simp [hus, Token.terminal, ht, ht'], .group he⟩)
  case h_10 ht =>
    refine Clean.map ((items_sound stop .rbracket ts).mono ?_)
    rintro es rest ⟨_, hus, us, rfl, hes⟩
    exact .primary ⟨_, by simp [hus, Token.terminal, ht], .array hes⟩
  case h_11 ht =>
    refine Clean.map ((pairs_sound stop ts).mono ?_)
    rintro ps rest ⟨_, hus, us, rfl, hps⟩
    exact .primary ⟨_, by simp [hus, Token.terminal, ht], .hash hps⟩
  case h_12 ht =>
    refine Clean.expect ?_
    rintro t₁ ts₁ hlt₁ rfl ht₁
    refine Clean.weaken (Clean.bind (expression_sound stop (by decide) ts₁) ?_)
    rintro test ts₂ hle₂ ⟨⟨us, hus, htest⟩, -⟩
    refine Clean.expect ?_
    rintro t₃ ts₃ hlt₃ rfl ht₃
    refine Clean.expect ?_
    rintro t₄ ts₄ hlt₄ rfl ht₄
    refine Clean.bind (block_sound stop ts₄) ?_
    rintro yes ts₅ hle₅ ⟨_, hvs, vs, rfl, hyes⟩
    split
    · refine Clean.weaken (Clean.expect ?_)
      rintro t₆ ts₆ hlt₆ rfl ht₆
      refine Clean.map ((block_sound stop ts₆).mono ?_)
      rintro no rest ⟨_, hws, ws, rfl, hno⟩
      exact .primary ⟨_,
        by simp [hus, hvs, hws, Token.terminal, ht, ht₁, ht₃, ht₄, ht₆], .condElse htest hyes hno⟩
    · exact Clean.done (.primary ⟨_,
        by simp [hus, hvs, Token.terminal, ht, ht₁, ht₃, ht₄], .cond htest hyes⟩)
  case h_13 ht =>
    refine Clean.expect ?_
    rintro t₁ ts₁ hlt₁ rfl ht₁
    refine Clean.bind (params_sound stop ts₁) ?_
    rintro xs ts₂ hle₂ ⟨_, hus, us, rfl, hxs⟩
    refine Clean.expect ?_
    rintro t₃ ts₃ hlt₃ rfl ht₃
    refine Clean.map ((block_sound stop ts₃).mono ?_)
    rintro body rest ⟨_, hvs, vs, rfl, hbody⟩
    exact .primary ⟨_,
      by simp [hus, hvs, Token.terminal, ht, ht₁, ht₃], .func hxs hbody⟩
  case h_14 => exact Clean.fail
termination_by 4 * ts.length + 2
decreasing_by all_goals subst_vars; simp only [List.length_cons] at *; omega

/-- The tier of the left side falls from operator to operator. -/
theorem continued_sound (stop : Token) (hm : level.level ≤ 5) (hleft : Expression p ls left)
    (hp : level.tier ≤ p) (hloose : Loose p ts) :
    (continued stop level left ts).Clean fun e rest =>
      Spelled (fun us => Expression level.tier (ls ++ us) e) ts rest ∧ Stops level rest := by
  match ts with
  | [] =>
    unfold continued
    exact Clean.done ⟨⟨[], rfl, by simpa using hleft.loosen hp⟩, nofun⟩
  | t :: ts =>
    have hend : ¬ level < Precedence.ofKind t.kind →
        Spelled (fun us => Expression level.tier (ls ++ us) left) (t :: ts) (t :: ts) ∧
          Stops level (t :: ts) := fun h =>
      ⟨⟨[], rfl, by simpa using hleft.loosen hp⟩, fun _ hmem => Option.some.inj hmem ▸ h⟩
    unfold continued
    split
    case isFalse hlt => exact Clean.done (hend hlt)
    case isTrue hlt =>
      have hbind := hloose t rfl
      have hop := kind_of_level_pos (Nat.zero_lt_of_lt hlt)
      split
      case h_1 ht =>
        have hsix : 6 ≤ p := by
          rw [ht] at hbind
          exact hbind.elim id id
        refine Clean.weaken (Clean.bind (items_sound stop .rparen ts) ?_)
        rintro args mid hle ⟨_, hus, us, rfl, hargs⟩
        refine (continued_sound stop hm (.call (hleft.loosen hsix) hargs) ?_ ?_).mono ?_
        · exact Nat.le_trans (Nat.min_le_right _ _) (by decide)
        · exact fun _ _ => .inr (by decide)
        · rintro e rest ⟨⟨vs, hvs, he⟩, hstops⟩
          refine ⟨⟨.symbol .lparen :: (us ++ .symbol .rparen :: vs), ?_, ?_⟩, hstops⟩
          · simp [hus, hvs, terminal_symbol.mpr ht]
          · simpa using he
      case h_2 ht =>
        have hsix : 6 ≤ p := by
          rw [ht] at hbind
          exact hbind.elim (Nat.le_trans (by decide)) id
        refine Clean.weaken (Clean.bind (expression_sound stop (by decide) ts) ?_)
        rintro i mid hle ⟨⟨us, hus, hi⟩, -⟩
        refine Clean.expect ?_
        rintro t' mid' hlt' rfl ht'
        refine (continued_sound stop hm (.index (hleft.loosen hsix) hi) ?_ ?_).mono ?_
        · exact Nat.le_trans (Nat.min_le_right _ _) (by decide)
        · exact fun _ _ => .inr (by decide)
        · rintro e rest ⟨⟨vs, hvs, he⟩, hstops⟩
          refine ⟨⟨.symbol .lbracket :: (us ++ .symbol .rbracket :: vs), ?_, ?_⟩, hstops⟩
          · simp [hus, hvs, terminal_symbol.mpr ht, terminal_symbol.mpr ht']
          · simpa using he
      case h_3 s _ _ ht =>
        split
        case h_1 op hs =>
          obtain rfl := BinaryOp.eq_symbol hs
          rw [ht, op.level_symbol] at hbind
          have hlevel : level.level < op.tier := op.level_symbol ▸ ht ▸ hlt
          have hle := op.tier_le
          refine Clean.weaken (Clean.bind (expression_sound stop ?_ ts) ?_)
          · rw [ht, op.level_symbol]
            omega
          rintro right mid hmid ⟨⟨us, hus, hright⟩, hstops⟩
          rw [ht, op.tier_ofKind] at hright
          rw [ht] at hstops
          have hleft := Expression.binary op (hleft.loosen (by omega)) hright
          refine (continued_sound stop hm hleft ?_ ?_).mono ?_
          · exact Nat.le_trans (Nat.min_le_left _ _) hlevel
          · exact op.level_symbol ▸ hstops.loose
          · rintro e rest ⟨⟨vs, hvs, he⟩, hstops⟩
            refine ⟨⟨.symbol op.symbol :: (us ++ vs), ?_, by simpa using he⟩, hstops⟩
            simp [hus, hvs, terminal_symbol.mpr ht]
        case h_2 hs =>
          rcases hop with ⟨op, hk⟩ | hk | hk
          · obtain rfl : s = op.symbol := by simpa [ht] using hk
            exact nomatch hs.symm.trans op.ofSymbol?_symbol
          · simp_all
          · simp_all
      case h_4 =>
        rcases hop with ⟨op, hk⟩ | hk | hk <;> simp_all
termination_by 4 * ts.length + 1
decreasing_by all_goals simp only [List.length_cons]; omega

theorem items_sound (stop : Token) (close : Symbol) (ts : List Token) :
    (items stop (.symbol close) ts).Clean fun es rest =>
      Spelled (fun us => ∃ vs, us = vs ++ [.symbol close] ∧ Items vs es) ts rest := by
  match ts with
  | [] =>
    unfold items
    exact Clean.failNext
  | t :: ts =>
    unfold items
    split
    case isTrue ht =>
      exact Clean.weaken (Clean.done ⟨_, by simp [Token.terminal, ht], [], rfl, .nil⟩)
    case isFalse =>
      refine Clean.weaken (Clean.bind (expression_sound stop (by decide) (t :: ts)) ?_)
      rintro e mid hle ⟨⟨us, hus, he⟩, -⟩
      refine Clean.map ((moreItems_sound stop close mid).mono ?_)
      rintro es rest ⟨_, hvs, vs, rfl, hes⟩
      exact ⟨us ++ (vs ++ [.symbol close]), by simp only [hus, hvs, List.append_assoc],
        us ++ vs, by simp, .cons he hes⟩
termination_by 4 * ts.length + 1
decreasing_by all_goals simp only [List.length_cons] at *; omega

theorem moreItems_sound (stop : Token) (close : Symbol) (ts : List Token) :
    (moreItems stop (.symbol close) ts).Clean fun es rest =>
      Spelled (fun us => ∃ vs, us = vs ++ [.symbol close] ∧ MoreItems vs es) ts rest := by
  unfold moreItems
  split
  · rename_i ts
    refine Clean.weaken (Clean.bind (expression_sound stop (by decide) ts) ?_)
    rintro e mid hle ⟨⟨us, hus, he⟩, -⟩
    refine Clean.map ((moreItems_sound stop close mid).mono ?_)
    rintro es rest ⟨_, hvs, vs, rfl, hes⟩
    exact ⟨.symbol .comma :: (us ++ (vs ++ [.symbol close])), by simp [hus, hvs],
      .symbol .comma :: (us ++ vs), by simp, .cons he hes⟩
  · refine Clean.expect ?_
    rintro t rest hlt rfl ht
    exact Clean.done ⟨_, by simp [terminal_symbol.mpr ht], [], rfl, .nil⟩
termination_by 4 * ts.length + 1
decreasing_by all_goals subst_vars; simp only [List.length_cons] at *; omega

theorem pairs_sound (stop : Token) (ts : List Token) :
    (pairs stop ts).Clean fun ps rest =>
      Spelled (fun us => ∃ vs, us = vs ++ [.symbol .rbrace] ∧ Pairs vs ps) ts rest := by
  unfold pairs
  split
  · exact Clean.failNext
  · exact Clean.weaken (Clean.done ⟨_, by simp, [], rfl, .nil⟩)
  · rename_i t ts _
    refine Clean.weaken (Clean.bind (expression_sound stop (by decide) (t :: ts)) ?_)
    rintro key ts₁ hle₁ ⟨⟨ks, hks, hkey⟩, -⟩
    refine Clean.expect ?_
    rintro t₂ ts₂ hlt₂ rfl ht₂
    refine Clean.weaken (Clean.bind (expression_sound stop (by decide) ts₂) ?_)
    rintro value ts₃ hle₃ ⟨⟨vs, hvs, hvalue⟩, -⟩
    split
    · refine Clean.weaken (Clean.done ⟨ks ++ .symbol .colon :: (vs ++ [.symbol .rbrace]), ?_,
        ks ++ .symbol .colon :: vs, by simp, .last hkey hvalue⟩)
      rw [hks, List.map_cons, hvs]
      simp [terminal_symbol.mpr ht₂]
    · refine Clean.expect ?_
      rintro t₄ ts₄ hlt₄ rfl ht₄
      refine Clean.map ((pairs_sound stop ts₄).mono ?_)
      rintro ps rest ⟨_, hus, us, rfl, hps⟩
      refine ⟨ks ++ .symbol .colon :: (vs ++ .symbol .comma :: (us ++ [.symbol .rbrace])), ?_,
        ks ++ .symbol .colon :: (vs ++ .symbol .comma :: us), by simp, .cons hkey hvalue hps⟩
      rw [hks, List.map_cons, hvs, List.map_cons, hus]
      simp [terminal_symbol.mpr ht₂, terminal_symbol.mpr ht₄]
termination_by 4 * ts.length + 1
decreasing_by all_goals grind

theorem block_sound (stop : Token) (ts : List Token) :
    (block stop ts).Clean fun body rest =>
      Spelled (fun us => ∃ vs, us = vs ++ [.symbol .rbrace] ∧ Statements vs body) ts rest := by
  unfold block
  split
  · exact Clean.failNext
  · exact Clean.weaken (Clean.done ⟨_, by simp, [], rfl, .nil⟩)
  · rename_i t ts _
    refine Clean.weaken (Clean.thenRest (statement_sound stop (t :: ts)) ?_)
    rintro s mid hle ⟨us, hus, hs⟩
    refine (block_sound stop mid).mono ?_
    rintro body rest ⟨_, hvs, vs, rfl, hbody⟩
    refine ⟨us ++ (vs ++ [.symbol .rbrace]), by simp only [hus, hvs, List.append_assoc],
      us ++ vs, by simp, .cons ?_ hbody⟩
    cases vs with
    | nil => exact hs.last
    | cons v vs =>
      rw [← List.head?_map, hvs] at hs
      simpa using hs
termination_by 4 * ts.length + 3
decreasing_by all_goals subst_vars; simp only [List.length_cons] at *; omega

theorem statement_sound (stop : Token) (ts : List Token) :
    (statement stop ts).Clean fun s rest =>
      Spelled (fun us => Statement us (rest.head?.map Token.terminal) s) ts rest := by
  unfold statement
  split
  · rename_i ts
    refine (declaration_sound stop .mutable ts).mono ?_
    rintro st rest ⟨us, hus, hst⟩
    exact ⟨.keyword .var :: us, by simp [hus], hst⟩
  · rename_i ts
    refine (declaration_sound stop .fixed ts).mono ?_
    rintro st rest ⟨us, hus, hst⟩
    exact ⟨.keyword .val :: us, by simp [hus], hst⟩
  · rename_i x _ _ _ ts
    refine Clean.weaken ((sentence_clean [.ident x, .symbol .assign]
      (expression_sound stop (by decide) ts) fun us e he => .assign he).mono ?_)
    rintro st rest ⟨us, hus, hst⟩
    exact ⟨.ident x :: .symbol .assign :: us, by simp [hus], hst⟩
  · split
    · exact Clean.done ⟨_, by simp, .bare (.inl rfl)⟩
    · exact Clean.done ⟨[_], by simp, .bare (.inr rfl)⟩
    · exact Clean.weaken (Clean.done ⟨[_, _], by simp, .bareEnded⟩)
    · rename_i t ts _ _
      refine Clean.weaken ((sentence_clean [.keyword .return_]
        (expression_sound stop (by decide) (t :: ts)) fun us e he => .ret he).mono ?_)
      rintro st rest ⟨us, hus, hst⟩
      exact ⟨.keyword .return_ :: us, by rw [List.map_cons, hus]; simp, hst⟩
  · exact sentence_clean [] (expression_sound stop (by decide) ts)
      fun us e he => .expr he
termination_by 4 * ts.length + 1
decreasing_by all_goals subst_vars; simp only [List.length_cons] at *; omega

theorem declaration_sound (stop : Token) (m : Mutability) (ts : List Token) :
    (declaration stop m ts).Clean fun s rest =>
      Spelled (fun us => Statement (.keyword m.keyword :: us) (rest.head?.map Token.terminal) s)
        ts rest := by
  unfold declaration
  refine Clean.expect ?_
  rintro t ts₁ hlt₁ rfl ht
  refine Clean.expect ?_
  rintro t₂ ts₂ hlt₂ rfl ht₂
  refine Clean.weaken ((sentence_clean
    [.keyword m.keyword, .ident t.literal, .symbol .assign]
    (expression_sound stop (by decide) ts₂) fun us e he => .declare m he).mono ?_)
  rintro st rest ⟨us, hus, hst⟩
  exact ⟨.ident t.literal :: .symbol .assign :: us,
    by simp [hus, terminal_ident.mpr ⟨ht, rfl⟩, terminal_symbol.mpr ht₂], hst⟩
termination_by 4 * ts.length + 1
decreasing_by all_goals subst_vars; simp only [List.length_cons] at *; omega

end

theorem statements_sound (stop : Token) (ts : List Token) (h : (statements stop ts).2 = []) :
    Statements (ts.map Token.terminal) (statements stop ts).1 := by
  match ts with
  | [] =>
    unfold statements
    exact .nil
  | t :: ts =>
    unfold statements at h ⊢
    obtain ⟨hs, htail⟩ := List.append_eq_nil_iff.mp h
    obtain ⟨s, hs, us, hus, hst⟩ := statement_sound stop (t :: ts) hs
    have ih := statements_sound stop _ htail
    simp only [hs, hus]
    refine .cons ?_ ih
    rwa [List.head?_map]
termination_by ts.length
decreasing_by exact Nat.lt_succ_of_le (statement stop (t :: ts)).rest_le

end TinyScript.Grammar
