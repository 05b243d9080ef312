import TinyScript.Proofs.Grammar.Reading

/-!
# What is in the grammar is read

A derivation is followed from the left. For an expression the statement is about reading it and
whatever the loop makes of the words behind it, so that an operator finds its left side already
read; this needs that the next word does not bind into the expression (`Loose`) and is no `else`.

`accepts_iff` puts both directions together: reading a text meets no mistake exactly if the grammar
has a derivation for its words, and then it builds the derived program.
-/

namespace TinyScript.Grammar

open Parse Step

-- ---------------------------------------------------------------------------
-- Parameters
-- ---------------------------------------------------------------------------

theorem moreParams_complete (h : MoreParams us xs) (stop : Token) (hts : ts.map Token.terminal = us)
    (ht : t.kind = .symbol .rparen) (rest : List Token) :
    (moreParams stop (ts ++ t :: rest)).Reads xs rest := by
  induction h generalizing ts with
  | nil =>
    obtain rfl := List.map_eq_nil_iff.mp hts
    obtain ⟨_, _, _⟩ := t
    obtain rfl := ht
    rw [List.nil_append]
    unfold moreParams
    exact Reads.expect rfl fun _ => Reads.done ..
  | cons h ih =>
    obtain ⟨⟨_, _, _⟩, ts₁, rfl, hk₁, hts₁⟩ := List.map_eq_cons_iff.mp hts
    obtain ⟨t₂, ts₂, rfl, hk₂, hts₂⟩ := List.map_eq_cons_iff.mp hts₁
    obtain rfl := terminal_symbol.mp hk₁
    obtain ⟨hk₂', rfl⟩ := terminal_ident.mp hk₂
    rw [List.cons_append, moreParams]
    exact Reads.weaken (Reads.expect hk₂' fun _ => Reads.map (ih hts₂))

theorem params_complete (h : Params us xs) (stop : Token) (hts : ts.map Token.terminal = us)
    (ht : t.kind = .symbol .rparen) (rest : List Token) :
    (params stop (ts ++ t :: rest)).Reads xs rest := by
  cases h with
  | nil =>
    obtain rfl := List.map_eq_nil_iff.mp hts
    obtain ⟨_, _, _⟩ := t
    obtain rfl := ht
    exact Reads.done [] rest
  | cons h =>
    obtain ⟨⟨_, _, _⟩, ts₁, rfl, hk₁, hts₁⟩ := List.map_eq_cons_iff.mp hts
    obtain ⟨rfl, rfl⟩ := terminal_ident.mp hk₁
    exact Reads.expect rfl fun _ => Reads.map (moreParams_complete h stop hts₁ ht rest)

/-- Reading the tokens at a level down to tier `n`, and more behind them, is to go on with `e`. -/
def Leads (stop : Token) (n : Nat) (ts : List Token) (e : Expr) : Prop :=
  ∀ ⦃level rest x rest'⦄, Precedence.tier level ≤ n → level.level ≤ 5 → Loose n rest →
    NoElse rest → (continued stop level e rest).Reads x rest' →
    (expression stop level (ts ++ rest)).Reads x rest'

theorem Leads.reads {rest : List Token} (h : Leads stop 1 ts e) (hend : Ends rest) :
    (expression stop .lowest (ts ++ rest)).Reads e rest :=
  h (Nat.le_refl _) (by decide) hend.loose hend.noElse (continued_done hend.stops)

mutual

theorem expression_complete {ts : List Token} (h : Expression n us e) (stop : Token)
    (hts : ts.map Token.terminal = us) : Leads stop n ts e := by
  intro level rest x rest' hn hm hloose helse hc
  match h with
  | .tighter h =>
    refine expression_complete h stop hts (Nat.le_succ_of_le hn) hm ?_ helse hc
    exact fun t ht => (hloose t ht).imp Nat.le_succ_of_le Nat.le_succ_of_le
  | .binary op hl hr =>
    obtain ⟨ls, t, rs, hls, ht, hrs, hsplit⟩ := exists_split hts
    have ht := terminal_symbol.mp ht
    have hle := op.tier_le
    have hlevel : level.level < op.tier := by
      unfold Precedence.tier at hn
      omega
    rw [hsplit]
    refine expression_complete hl stop hls hn hm ?_ ?_ (continued_binary hlevel ht ?_ hc)
    · rintro _ ⟨⟩
      rw [ht, op.level_symbol]
      exact .inl (Nat.le_refl _)
    · rintro _ ⟨⟩
      simp [ht]
    · refine expression_complete hr stop hrs (Nat.le_of_eq op.tier_ofKind) ?_ ?_ helse
        (continued_done ?_)
      · rw [op.level_symbol]
        omega
      · exact fun t ht => (hloose t ht).imp Nat.le_succ_of_le Nat.le_succ_of_le
      · intro t ht hlt
        have hlt : (Precedence.ofKind (.symbol op.symbol)).level < _ := hlt
        rw [op.level_symbol] at hlt
        have := hloose t ht
        omega
  | .unary op he =>
    obtain ⟨t, ts, ht, hts, hsplit⟩ := exists_cons hts
    rw [hsplit]
    refine expression_of_operand (operand_unary (terminal_symbol.mp ht) ?_) hc
    exact expression_complete he stop hts (Nat.le_refl _) (Nat.le_refl _) hloose helse
      (continued_done fun t ht hlt => (hloose t ht).elim (Nat.not_le_of_lt hlt) (by decide))
  | .call hf ha =>
    obtain ⟨fs, t, as, hfs, ht, has, hsplit⟩ := exists_split hts
    obtain ⟨as, t', has, ht', hsplit'⟩ := exists_split_last has
    have ht := terminal_symbol.mp ht
    rw [hsplit, hsplit']
    refine expression_complete hf stop hfs hn hm (fun _ _ => .inr (Nat.le_refl _)) ?_
      (continued_call hm ht (items_complete ha stop has (terminal_symbol.mp ht') (by simp) rest) hc)
    rintro _ ⟨⟩
    simp [ht]
  | .index hb hi =>
    obtain ⟨cs, t, ts, hcs, ht, hts, hsplit⟩ := exists_split hts
    obtain ⟨ts, t', hts, ht', hsplit'⟩ := exists_split_last hts
    have ht := terminal_symbol.mp ht
    have ht' := terminal_symbol.mp ht'
    have hend : Ends (t' :: rest) := ends_cons ht'
    rw [hsplit, hsplit']
    refine expression_complete hb stop hcs hn hm (fun _ _ => .inr (Nat.le_refl _)) ?_
      (continued_index hm ht ht' ?_ hc)
    · rintro _ ⟨⟩
      simp [ht]
    · exact (expression_complete hi stop hts).reads hend
  | .ident =>
    obtain ⟨t, rfl, ht⟩ := List.map_eq_singleton_iff.mp hts
    obtain ⟨hk, rfl⟩ := terminal_ident.mp ht
    exact expression_of_operand (operand_ident hk) hc
  | .integer hv =>
    obtain ⟨t, rfl, ht⟩ := List.map_eq_singleton_iff.mp hts
    obtain ⟨hk, rfl⟩ := terminal_integer.mp ht
    exact expression_of_operand (operand_integer hk hv) hc
  | .string =>
    obtain ⟨t, rfl, ht⟩ := List.map_eq_singleton_iff.mp hts
    obtain ⟨hk, rfl⟩ := terminal_string.mp ht
    exact expression_of_operand (operand_string hk) hc
  | .true_ =>
    obtain ⟨t, rfl, ht⟩ := List.map_eq_singleton_iff.mp hts
    exact expression_of_operand (operand_bool true (terminal_keyword.mp ht)) hc
  | .false_ =>
    obtain ⟨t, rfl, ht⟩ := List.map_eq_singleton_iff.mp hts
    exact expression_of_operand (operand_bool false (terminal_keyword.mp ht)) hc
  | .null =>
    obtain ⟨t, rfl, ht⟩ := List.map_eq_singleton_iff.mp hts
    exact expression_of_operand (operand_null (terminal_keyword.mp ht)) hc
  | .group he =>
    obtain ⟨t, ts, ht, hts, hsplit⟩ := exists_cons hts
    obtain ⟨ts, t', hts, ht', hsplit'⟩ := exists_split_last hts
    have ht' := terminal_symbol.mp ht'
    have hend : Ends (t' :: rest) := ends_cons ht'
    rw [hsplit, hsplit']
    refine expression_of_operand (operand_group (terminal_symbol.mp ht) ?_ ht') hc
    exact (expression_complete he stop hts).reads hend
  | .cond he hy =>
    obtain ⟨t, ts, ht, hts, hsplit⟩ := exists_cons hts
    obtain ⟨t₁, ts, ht₁, hts, hsplit₁⟩ := exists_cons hts
    obtain ⟨cs, t₂, ts, hcs, ht₂, hts, hsplit₂⟩ := exists_split hts
    obtain ⟨t₃, ts, ht₃, hts, hsplit₃⟩ := exists_cons hts
    obtain ⟨ys, t₄, hys, ht₄, hsplit₄⟩ := exists_split_last hts
    have ht₂ := terminal_symbol.mp ht₂
    rw [hsplit, hsplit₁, hsplit₂, hsplit₃, hsplit₄]
    have hyes := block_complete hy stop hys (terminal_symbol.mp ht₄) rest
    refine expression_of_operand (operand_cond (terminal_keyword.mp ht) (terminal_symbol.mp ht₁) ?_
      ht₂ (terminal_symbol.mp ht₃) hyes helse) hc
    exact (expression_complete he stop hcs).reads (ends_cons ht₂)
  | .condElse he hy hn =>
    obtain ⟨t, ts, ht, hts, hsplit⟩ := exists_cons hts
    obtain ⟨t₁, ts, ht₁, hts, hsplit₁⟩ := exists_cons hts
    obtain ⟨cs, t₂, ts, hcs, ht₂, hts, hsplit₂⟩ := exists_split hts
    obtain ⟨t₃, ts, ht₃, hts, hsplit₃⟩ := exists_cons hts
    obtain ⟨ys, t₄, ts, hys, ht₄, hts, hsplit₄⟩ := exists_split hts
    obtain ⟨t₅, ts, ht₅, hts, hsplit₅⟩ := exists_cons hts
    obtain ⟨t₆, ts, ht₆, hts, hsplit₆⟩ := exists_cons hts
    obtain ⟨ns, t₇, hns, ht₇, hsplit₇⟩ := exists_split_last hts
    have ht₂ := terminal_symbol.mp ht₂
    rw [hsplit, hsplit₁, hsplit₂, hsplit₃, hsplit₄, hsplit₅, hsplit₆, hsplit₇]
    have hyes := block_complete hy stop hys (terminal_symbol.mp ht₄)
    have hno := block_complete hn stop hns (terminal_symbol.mp ht₇) rest
    refine expression_of_operand (operand_condElse (terminal_keyword.mp ht) (terminal_symbol.mp ht₁)
      ?_ ht₂ (terminal_symbol.mp ht₃) (hyes _) (terminal_keyword.mp ht₅) (terminal_symbol.mp ht₆)
      hno) hc
    exact (expression_complete he stop hcs).reads (ends_cons ht₂)
  | .func hp hb =>
    obtain ⟨t, ts, ht, hts, hsplit⟩ := exists_cons hts
    obtain ⟨t₁, ts, ht₁, hts, hsplit₁⟩ := exists_cons hts
    obtain ⟨ps, t₂, ts, hps, ht₂, hts, hsplit₂⟩ := exists_split hts
    obtain ⟨t₃, ts, ht₃, hts, hsplit₃⟩ := exists_cons hts
    obtain ⟨bs, t₄, hbs, ht₄, hsplit₄⟩ := exists_split_last hts
    rw [hsplit, hsplit₁, hsplit₂, hsplit₃, hsplit₄]
    refine expression_of_operand (operand_func (terminal_keyword.mp ht) (terminal_symbol.mp ht₁)
      (params_complete hp stop hps (terminal_symbol.mp ht₂) _) (terminal_symbol.mp ht₃) ?_) hc
    exact block_complete hb stop hbs (terminal_symbol.mp ht₄) rest
  | .array hi =>
    obtain ⟨t, ts, ht, hts, hsplit⟩ := exists_cons hts
    obtain ⟨ts, t', hts, ht', hsplit'⟩ := exists_split_last hts
    rw [hsplit, hsplit']
    exact expression_of_operand (operand_array (terminal_symbol.mp ht)
      (items_complete hi stop hts (terminal_symbol.mp ht') (by simp) rest)) hc
  | .hash hp =>
    obtain ⟨t, ts, ht, hts, hsplit⟩ := exists_cons hts
    obtain ⟨ts, t', hts, ht', hsplit'⟩ := exists_split_last hts
    rw [hsplit, hsplit']
    exact expression_of_operand (operand_hash (terminal_symbol.mp ht)
      (pairs_complete hp stop hts (terminal_symbol.mp ht') rest)) hc

theorem items_complete {ts : List Token} (h : Items us es) (stop : Token)
    (hts : ts.map Token.terminal = us) (ht : t.kind = .symbol close)
    (hclose : close = .rparen ∨ close = .rbracket) (rest : List Token) :
    (items stop (.symbol close) (ts ++ t :: rest)).Reads es rest := by
  match h with
  | .nil =>
    obtain rfl := List.map_eq_nil_iff.mp hts
    rw [List.nil_append, items, if_pos ht]
    exact Reads.done ..
  | .cons he hes =>
    obtain ⟨as, bs, has, hbs, hsplit⟩ := exists_append hts
    have hend := hes.ends hbs ht hclose rest
    rw [hsplit]
    refine items_cons (he.opens has _) hclose ?_ (moreItems_complete hes stop hbs ht hclose rest)
    exact (expression_complete he stop has).reads hend

theorem moreItems_complete {ts : List Token} (h : MoreItems us es) (stop : Token)
    (hts : ts.map Token.terminal = us) (ht : t.kind = .symbol close)
    (hclose : close = .rparen ∨ close = .rbracket) (rest : List Token) :
    (moreItems stop (.symbol close) (ts ++ t :: rest)).Reads es rest := by
  match h with
  | .nil =>
    obtain rfl := List.map_eq_nil_iff.mp hts
    exact moreItems_nil ht hclose
  | .cons he hes =>
    obtain ⟨t₁, ts, ht₁, hts, hsplit₁⟩ := exists_cons hts
    obtain ⟨as, bs, has, hbs, hsplit⟩ := exists_append hts
    have hend := hes.ends hbs ht hclose rest
    rw [hsplit₁, hsplit]
    refine moreItems_cons (terminal_symbol.mp ht₁) ?_
      (moreItems_complete hes stop hbs ht hclose rest)
    exact (expression_complete he stop has).reads hend

theorem pairs_complete {ts : List Token} (h : Pairs us ps) (stop : Token)
    (hts : ts.map Token.terminal = us) (ht : t.kind = .symbol .rbrace) (rest : List Token) :
    (pairs stop (ts ++ t :: rest)).Reads ps rest := by
  match h with
  | .nil =>
    obtain rfl := List.map_eq_nil_iff.mp hts
    obtain ⟨_, _, _⟩ := t
    obtain rfl := ht
    rw [List.nil_append]
    unfold pairs
    exact Reads.done [] rest
  | .last hk hv =>
    obtain ⟨ks, t₁, vs, hks, ht₁, hvs, hsplit⟩ := exists_split hts
    have ht₁ := terminal_symbol.mp ht₁
    rw [hsplit]
    exact pairs_last (hk.opens hks _) ((expression_complete hk stop hks).reads (ends_cons ht₁)) ht₁
      ((expression_complete hv stop hvs).reads (ends_cons ht)) ht
  | .cons hk hv hps =>
    obtain ⟨ks, t₁, ts, hks, ht₁, hts, hsplit⟩ := exists_split hts
    obtain ⟨vs, t₂, ts, hvs, ht₂, hts, hsplit₂⟩ := exists_split hts
    have ht₁ := terminal_symbol.mp ht₁
    have ht₂ := terminal_symbol.mp ht₂
    rw [hsplit, hsplit₂]
    exact pairs_cons (hk.opens hks _) ((expression_complete hk stop hks).reads (ends_cons ht₁)) ht₁
      ((expression_complete hv stop hvs).reads (ends_cons ht₂)) ht₂
      (pairs_complete hps stop hts ht rest)

theorem sentence_complete {ts rest : List Token} (h : Sentence us s) (stop : Token)
    (hts : ts.map Token.terminal = us) (hend : Ends rest) (hassign : NoAssign rest) :
    (statement stop (ts ++ rest)).Reads s (dropSemicolon rest) := by
  match h with
  | .declare m he =>
    obtain ⟨t, ts, ht, hts, hsplit⟩ := exists_cons hts
    obtain ⟨t₁, ts, ht₁, hts, hsplit₁⟩ := exists_cons hts
    obtain ⟨t₂, es, ht₂, hes, hsplit₂⟩ := exists_cons hts
    obtain ⟨hk₁, rfl⟩ := terminal_ident.mp ht₁
    rw [hsplit, hsplit₁, hsplit₂]
    refine statement_declare (terminal_keyword.mp ht) hk₁ (terminal_symbol.mp ht₂) ?_
    exact (expression_complete he stop hes).reads hend
  | .assign he =>
    obtain ⟨t, ts, ht, hts, hsplit⟩ := exists_cons hts
    obtain ⟨t₁, es, ht₁, hes, hsplit₁⟩ := exists_cons hts
    obtain ⟨hk, rfl⟩ := terminal_ident.mp ht
    rw [hsplit, hsplit₁]
    refine statement_assign hk (terminal_symbol.mp ht₁) ?_
    exact (expression_complete he stop hes).reads hend
  | .ret he =>
    obtain ⟨t, ts, ht, hts, hsplit⟩ := exists_cons hts
    rw [hsplit]
    refine statement_ret (terminal_keyword.mp ht) (he.opens hts rest) ?_
    exact (expression_complete he stop hts).reads hend
  | .expr he =>
    refine statement_expr (he.opens hts rest) ?_ hassign
    exact (expression_complete he stop hts).reads hend

theorem statement_complete {ts rest : List Token} (h : Statement us next s) (stop : Token)
    (hts : ts.map Token.terminal = us) (hbefore : Before next rest) :
    (statement stop (ts ++ rest)).Reads s rest := by
  match h with
  | .ended hs =>
    obtain ⟨ts, ⟨_, _, _⟩, hts, ht, hsplit⟩ := exists_split_last hts
    obtain rfl := terminal_symbol.mp ht
    rw [hsplit]
    exact sentence_complete hs stop hts (ends_symbol (by decide)) (by rintro _ ⟨⟩; simp)
  | .openEnded hs hnext =>
    have hsent := sentence_complete hs stop hts (hbefore.ends hnext) hbefore.noAssign
    rwa [hbefore.dropSemicolon] at hsent
  | .bareEnded =>
    obtain ⟨⟨_, _, _⟩, ts, ht, hts, hsplit⟩ := exists_cons hts
    obtain ⟨⟨_, _, _⟩, rfl, ht₁⟩ := List.map_eq_singleton_iff.mp hts
    obtain rfl := terminal_keyword.mp ht
    obtain rfl := terminal_symbol.mp ht₁
    rw [hsplit]
    unfold statement
    exact Reads.done ..
  | .bare hnext =>
    obtain ⟨⟨_, _, _⟩, rfl, ht⟩ := List.map_eq_singleton_iff.mp hts
    obtain rfl := terminal_keyword.mp ht
    exact statement_bare (hbefore.closed hnext)

theorem block_complete {ts : List Token} (h : Statements us body) (stop : Token)
    (hts : ts.map Token.terminal = us) (ht : t.kind = .symbol .rbrace) (rest : List Token) :
    (block stop (ts ++ t :: rest)).Reads body rest := by
  match h with
  | .nil =>
    obtain rfl := List.map_eq_nil_iff.mp hts
    obtain ⟨_, _, _⟩ := t
    obtain rfl := ht
    rw [List.nil_append]
    unfold block
    exact Reads.done [] rest
  | .cons hs hb =>
    obtain ⟨as, bs, has, hbs, hsplit⟩ := exists_append hts
    rw [hsplit]
    exact block_cons (hs.begins has _)
      (statement_complete hs stop has (hb.before hbs (t :: rest) (by rintro _ ⟨⟩; exact ht)))
      (block_complete hb stop hbs ht rest)

end

theorem statements_complete {ts : List Token} (h : Statements us p) (stop : Token)
    (hts : ts.map Token.terminal = us) : statements stop ts = (p, []) := by
  induction p generalizing us ts with
  | nil =>
    cases h
    obtain rfl := List.map_eq_nil_iff.mp hts
    rw [statements]
  | cons s p ih =>
    cases h with
    | cons hs hp =>
      obtain ⟨as, bs, has, hbs, hsplit⟩ := exists_append hts
      have hst := statement_complete hs stop has (hp.before hbs [] (by simp))
      obtain ⟨t, ts', hcons, -⟩ := hs.begins has (bs ++ [])
      rw [← ts.append_nil, hsplit, hcons, statements]
      rw [hcons, bs.append_nil] at hst
      simp [hst.1, hst.2.1, hst.2.2, ih hp hbs]

/-- Reading meets no mistake and gives `p` exactly if the grammar gives `p` to the words, be they
any list of tokens or those of a text. -/
theorem accepts_iff :
    (∀ stop ts p, statements stop ts = (p, []) ↔ Statements (ts.map Token.terminal) p) ∧
    ∀ source p, Program.parse source = (p, []) ↔
      Statements ((Cursor.start source).tokens.map Token.terminal) p := by
  have hiff : ∀ stop ts p, statements stop ts = (p, []) ↔ Statements (ts.map Token.terminal) p := by
    intro stop ts p
    constructor
    · intro h
      have hs := statements_sound stop ts (congrArg Prod.snd h)
      rwa [h] at hs
    · exact fun h => statements_complete h stop rfl
  exact ⟨hiff, fun source p => hiff _ _ p⟩

end TinyScript.Grammar
