import TinyScript.Proofs.Grammar.Completeness
import TinyScript.Proofs.Lexing

/-!
# Reading the canonical spelling

A tree built by hand may hold what no text can spell: a name with a space in it, a negative number
(its minus sign is an operator), a string with a quote inside, a block as a statement. Where nothing
like this is in it, a program is what its canonical spelling reads back as.

For each part of a tree there are words which its text is read as (`Spells`) and which the grammar
derives that part from. Operators and indexes are written in parentheses, so every text is at least
of the tier of calls, and no expression takes in what is written around it.
-/

namespace TinyScript

-- ---------------------------------------------------------------------------
-- Trees that can be spelled
-- ---------------------------------------------------------------------------

def isName (name : String) : Bool :=
  match name.toList with
  | [] => false
  | c :: cs => isLetter c && cs.all isWordChar && (Keyword.ofText? name).isNone

mutual
def Expr.isSpellable : Expr → Bool
  | .ident name => isName name
  | .int n => 0 ≤ n.toInt
  | .str raw => Lexing.isQuotable raw.toList
  | .bool _ | .null => true
  | .unary _ e => e.isSpellable
  | .binary _ l r => l.isSpellable && r.isSpellable
  | .cond c yes none => c.isSpellable && Block.isSpellable yes
  | .cond c yes (some no) => c.isSpellable && Block.isSpellable yes && Block.isSpellable no
  | .func params body => params.all isName && Block.isSpellable body
  | .call f args => f.isSpellable && Expr.areSpellable args
  | .array items => Expr.areSpellable items
  | .hash pairs => Expr.pairsAreSpellable pairs
  | .index c i => c.isSpellable && i.isSpellable
def Stmt.isSpellable : Stmt → Bool
  | .declare _ name e => isName name && e.isSpellable
  | .assign name e => isName name && e.isSpellable
  | .ret e => e.isSpellable
  | .expr e => e.isSpellable
  | .block _ => false
def Block.isSpellable : List Stmt → Bool
  | [] => true
  | s :: rest => s.isSpellable && Block.isSpellable rest
def Expr.areSpellable : List Expr → Bool
  | [] => true
  | e :: rest => e.isSpellable && Expr.areSpellable rest
def Expr.pairsAreSpellable : List (Expr × Expr) → Bool
  | [] => true
  | (k, v) :: rest => k.isSpellable && v.isSpellable && Expr.pairsAreSpellable rest
end

namespace Spelling

open Grammar Lexing

-- ---------------------------------------------------------------------------
-- Texts and their words
-- ---------------------------------------------------------------------------

/-- Before anything that does not go on with its last word, the text is read as these words. -/
def Spells (text : String) (us : List Terminal) : Prop :=
  ∀ rest, isApart rest = true → words (text.toList ++ rest) = us ++ words rest

theorem spells_nil : Spells "" [] := fun _ _ => rfl

theorem spells_name (h : isName name = true) : Spells name [.ident name] := by
  intro rest hrest
  unfold isName at h
  split at h
  · exact nomatch h
  · rename_i c cs hname
    simp only [Bool.and_eq_true, List.all_eq_true, Option.isNone_iff_eq_none] at h
    obtain ⟨⟨hc, hcs⟩, hkey⟩ := h
    obtain rfl : name = String.ofList (c :: cs) := by rw [← hname, String.ofList_toList]
    rw [String.toList_ofList]
    exact words_ident hc hcs hkey hrest

theorem spells_keyword (k : Keyword) : Spells k.text [.keyword k] :=
  fun _ hrest => words_keyword k hrest

theorem spells_integer {n : Int64} (h : 0 ≤ n.toInt) :
    ∃ digits, n.toInt = decimal digits ∧ Spells (intText n) [.integer digits] := by
  obtain ⟨k, hk⟩ := Int.eq_ofNat_of_zero_le h
  have htext : (intText n).toList = Nat.toDigits 10 k := by
    rw [intText, hk]
    exact Nat.toList_repr
  refine ⟨String.ofList (Nat.toDigits 10 k), ?_, fun rest hrest => ?_⟩
  · rw [hk, decimal, String.toList_ofList, Nat.ofDigitChars_ten_toDigits]
  · rw [htext]
    refine words_integer (fun d hd => ?_) Nat.toDigits_ne_nil hrest
    exact Nat.isDigit_of_mem_toDigits (by decide) (by decide) hd

theorem spells_string (h : isQuotable raw.toList = true) :
    Spells ("\"" ++ raw ++ "\"") [.string raw] := by
  intro rest _
  have hwords := words_string h rest
  rw [String.ofList_toList] at hwords
  simpa [String.toList_append] using hwords

theorem anywhere (he : Expression 6 us e) : Expression 1 us e := he.loosen (by decide)

theorem Spells.head (hus : Spells text us) (he : Expression n us e) (hrest : isApart rest = true) :
    ((text.toList ++ rest).head? == some '=') = false := by
  obtain ⟨u, us, rfl, hu⟩ := he.head
  have hwords := hus rest hrest
  refine Bool.eq_false_iff.mpr fun heq => ?_
  obtain ⟨cs, hcs⟩ := List.head?_eq_some_iff.mp (beq_iff_eq.mp heq)
  obtain ⟨s, ds, hs, hmem⟩ := words_equals cs
  rw [hcs, hs] at hwords
  obtain ⟨rfl, -⟩ := List.cons.inj hwords
  simp only [List.mem_cons, List.not_mem_nil, or_false] at hmem
  rcases hmem with rfl | rfl <;> simp [Opens] at hu

-- ---------------------------------------------------------------------------
-- Lists and blocks
-- ---------------------------------------------------------------------------

theorem Spells.comma (ht : Spells text us) (hts : Spells (", ".intercalate (t :: texts)) vs) :
    Spells (", ".intercalate (text :: t :: texts)) (us ++ .symbol .comma :: vs) := by
  intro rest hrest
  simp only [String.intercalate_cons_cons, String.toList_append, List.append_assoc,
    String.reduceToList, List.cons_append, List.nil_append]
  rw [ht _ rfl, words_mark rfl rfl, words_blank rfl, hts _ hrest]

theorem Spells.colon (ht : Spells text us) (hv : Spells text' vs) :
    Spells (text ++ ":" ++ text') (us ++ .symbol .colon :: vs) := by
  intro rest hrest
  simp only [String.toList_append, List.append_assoc, String.reduceToList, List.cons_append,
    List.nil_append]
  rw [ht _ rfl, words_mark rfl rfl, hv _ hrest]

theorem Spells.block (h : Spells (" ".intercalate texts) us) :
    Spells (blockText texts) (.symbol .lbrace :: (us ++ [.symbol .rbrace])) := by
  intro rest _
  have hbrace : words ('\x7d' :: rest) = .symbol .rbrace :: words rest := words_mark rfl rfl
  cases texts with
  | nil =>
    have h : words ('\x7d' :: rest) = _ := h ('\x7d' :: rest) rfl
    rw [hbrace] at h
    simp only [blockText, String.reduceToList, List.cons_append, List.nil_append]
    rw [words_mark rfl rfl, words_blank rfl, hbrace, List.append_assoc]
    exact congrArg _ h
  | cons t texts =>
    simp only [blockText, String.toList_append, List.append_assoc, String.reduceToList,
      List.cons_append, List.nil_append]
    rw [words_mark rfl rfl, words_blank rfl, h _ rfl, words_blank rfl, hbrace]

theorem spells_params (h : ∀ x ∈ params, isName x = true) :
    ∃ us, Spells (", ".intercalate params) us ∧ Params us params := by
  match params, h with
  | [], _ => exact ⟨[], spells_nil, .nil⟩
  | [x], h =>
    obtain ⟨hx, -⟩ := List.forall_mem_cons.mp h
    exact ⟨_, spells_name hx, .cons .nil⟩
  | x :: y :: params, h =>
    obtain ⟨hx, h⟩ := List.forall_mem_cons.mp h
    obtain ⟨us, hus, hparams⟩ := spells_params h
    refine ⟨_, (spells_name hx).comma hus, ?_⟩
    cases hparams with
    | cons hmore => exact .cons (.cons hmore)

-- ---------------------------------------------------------------------------
-- Trees
-- ---------------------------------------------------------------------------

mutual

theorem spells_expr (e : Expr) (h : e.isSpellable = true) :
    ∃ us, Spells e.render us ∧ Expression 6 us e := by
  match e with
  | .ident name => exact ⟨_, spells_name h, .tighter .ident⟩
  | .int n =>
    obtain ⟨digits, hn, hus⟩ := spells_integer (of_decide_eq_true h)
    exact ⟨_, hus, .tighter (.integer hn)⟩
  | .str raw => exact ⟨_, spells_string h, .tighter .string⟩
  | .bool true => exact ⟨_, spells_keyword .true_, .tighter .true_⟩
  | .bool false => exact ⟨_, spells_keyword .false_, .tighter .false_⟩
  | .null => exact ⟨_, spells_keyword .null, .tighter .null⟩
  | .unary op e =>
    obtain ⟨us, hus, he⟩ := spells_expr e h
    refine ⟨.symbol .lparen :: (.symbol op.symbol :: us ++ [.symbol .rparen]), ?_, ?_⟩
    · intro rest _
      simp only [Expr.render, UnaryOp.text, String.toList_append, List.append_assoc,
        String.reduceToList, List.cons_append, List.nil_append]
      rw [words_mark rfl rfl, words_symbol _ (hus.head he rfl), hus _ rfl,
        words_mark rfl rfl]
    · exact .tighter (.group ((Expression.unary op (he.loosen (by decide))).loosen (by decide)))
  | .binary op l r =>
    obtain ⟨hl, hr⟩ := Bool.and_eq_true_iff.mp h
    obtain ⟨us, hus, hl⟩ := spells_expr l hl
    obtain ⟨vs, hvs, hr⟩ := spells_expr r hr
    refine ⟨.symbol .lparen :: (us ++ .symbol op.symbol :: vs ++ [.symbol .rparen]), ?_, ?_⟩
    · intro rest _
      simp only [Expr.render, BinaryOp.text, String.toList_append, List.append_assoc,
        String.reduceToList, List.cons_append, List.nil_append]
      rw [words_mark rfl rfl, hus _ rfl, words_blank rfl, words_symbol _ rfl,
        words_blank rfl, hvs _ rfl, words_mark rfl rfl]
    · have hle := op.tier_le
      have hop := Expression.binary op (hl.loosen (by omega)) (hr.loosen (by omega))
      exact .tighter (.group (hop.loosen op.tier_pos))
  | .cond c yes none =>
    obtain ⟨hc, hyes⟩ := Bool.and_eq_true_iff.mp h
    obtain ⟨us, hus, hc⟩ := spells_expr c hc
    obtain ⟨ys, hys, hyes⟩ := spells_statements yes hyes
    refine ⟨_, ?_, .tighter (.cond (anywhere hc) hyes)⟩
    intro rest hrest
    have hif : "if (" = Keyword.if_.text ++ " (" := rfl
    simp only [Expr.render, hif, String.toList_append, List.append_assoc, String.reduceToList,
      List.cons_append, List.nil_append]
    rw [words_keyword _ rfl, words_blank rfl, words_mark rfl rfl, hus _ rfl,
      words_mark rfl rfl, words_blank rfl, hys.block _ hrest]
    simp
  | .cond c yes (some no) =>
    obtain ⟨h, hno⟩ := Bool.and_eq_true_iff.mp h
    obtain ⟨hc, hyes⟩ := Bool.and_eq_true_iff.mp h
    obtain ⟨us, hus, hc⟩ := spells_expr c hc
    obtain ⟨ys, hys, hyes⟩ := spells_statements yes hyes
    obtain ⟨ns, hns, hno⟩ := spells_statements no hno
    refine ⟨_, ?_, .tighter (.condElse (anywhere hc) hyes hno)⟩
    intro rest hrest
    have hif : "if (" = Keyword.if_.text ++ " (" := rfl
    have helse : " else " = " " ++ Keyword.else_.text ++ " " := rfl
    simp only [Expr.render, hif, helse, String.toList_append, List.append_assoc,
      String.reduceToList, List.cons_append, List.nil_append]
    rw [words_keyword _ rfl, words_blank rfl, words_mark rfl rfl, hus _ rfl,
      words_mark rfl rfl, words_blank rfl, hys.block _ rfl, words_blank rfl,
      words_keyword _ rfl, words_blank rfl, hns.block _ hrest]
    simp
  | .func params body =>
    obtain ⟨hparams, hbody⟩ := Bool.and_eq_true_iff.mp h
    obtain ⟨us, hus, hparams⟩ := spells_params (List.all_eq_true.mp hparams)
    obtain ⟨bs, hbs, hbody⟩ := spells_statements body hbody
    refine ⟨_, ?_, .tighter (.func hparams hbody)⟩
    intro rest hrest
    have hfunc : "func" = Keyword.func.text := rfl
    simp only [Expr.render, paramsText, hfunc, String.toList_append, List.append_assoc,
      String.reduceToList, List.cons_append, List.nil_append]
    rw [words_keyword _ rfl, words_mark rfl rfl, hus _ rfl, words_mark rfl rfl,
      words_blank rfl, hbs.block _ hrest]
    simp
  | .call f args =>
    obtain ⟨hf, hargs⟩ := Bool.and_eq_true_iff.mp h
    obtain ⟨us, hus, hf⟩ := spells_expr f hf
    obtain ⟨vs, hvs, hargs⟩ := spells_items args hargs
    refine ⟨_, ?_, .call hf hargs⟩
    intro rest _
    simp only [Expr.render, String.toList_append, List.append_assoc, String.reduceToList,
      List.cons_append, List.nil_append]
    rw [hus _ rfl, words_mark rfl rfl, hvs _ rfl, words_mark rfl rfl]
  | .array items =>
    obtain ⟨us, hus, hitems⟩ := spells_items items h
    refine ⟨_, ?_, .tighter (.array hitems)⟩
    intro rest _
    simp only [Expr.render, String.toList_append, List.append_assoc, String.reduceToList,
      List.cons_append, List.nil_append]
    rw [words_mark rfl rfl, hus _ rfl, words_mark rfl rfl]
  | .hash pairs =>
    obtain ⟨us, hus, hpairs⟩ := spells_pairs pairs h
    refine ⟨_, ?_, .tighter (.hash hpairs)⟩
    intro rest _
    simp only [Expr.render, String.toList_append, List.append_assoc, String.reduceToList,
      List.cons_append, List.nil_append]
    rw [words_mark rfl rfl, hus _ rfl, words_mark rfl rfl]
  | .index c i =>
    obtain ⟨hc, hi⟩ := Bool.and_eq_true_iff.mp h
    obtain ⟨us, hus, hc⟩ := spells_expr c hc
    obtain ⟨vs, hvs, hi⟩ := spells_expr i hi
    have hindex := Expression.index hc (anywhere hi)
    refine ⟨_, ?_, .tighter (.group (anywhere hindex))⟩
    intro rest _
    simp only [Expr.render, String.toList_append, List.append_assoc, String.reduceToList,
      List.cons_append, List.nil_append]
    rw [words_mark rfl rfl, hus _ rfl, words_mark rfl rfl, hvs _ rfl,
      words_mark rfl rfl, words_mark rfl rfl]

theorem spells_items (es : List Expr) (h : Expr.areSpellable es = true) :
    ∃ us, Spells (", ".intercalate (Expr.renders es)) us ∧ Items us es := by
  match es with
  | [] => exact ⟨[], spells_nil, .nil⟩
  | [e] =>
    obtain ⟨he, -⟩ := Bool.and_eq_true_iff.mp h
    obtain ⟨us, hus, he⟩ := spells_expr e he
    exact ⟨us ++ [], us.append_nil.symm ▸ hus, .cons (anywhere he) .nil⟩
  | e :: e' :: es =>
    obtain ⟨he, hes⟩ := Bool.and_eq_true_iff.mp h
    obtain ⟨us, hus, he⟩ := spells_expr e he
    obtain ⟨vs, hvs, hes⟩ := spells_items (e' :: es) hes
    refine ⟨_, hus.comma hvs, .cons (anywhere he) ?_⟩
    cases hes with
    | cons he' hmore => exact .cons he' hmore

theorem spells_pairs (ps : List (Expr × Expr)) (h : Expr.pairsAreSpellable ps = true) :
    ∃ us, Spells (", ".intercalate (Expr.renderPairs ps)) us ∧ Pairs us ps := by
  match ps with
  | [] => exact ⟨[], spells_nil, .nil⟩
  | [(k, v)] =>
    obtain ⟨h, -⟩ := Bool.and_eq_true_iff.mp h
    obtain ⟨hk, hv⟩ := Bool.and_eq_true_iff.mp h
    obtain ⟨us, hus, hk⟩ := spells_expr k hk
    obtain ⟨vs, hvs, hv⟩ := spells_expr v hv
    exact ⟨_, hus.colon hvs, .last (anywhere hk) (anywhere hv)⟩
  | (k, v) :: p :: ps =>
    obtain ⟨h, hps⟩ := Bool.and_eq_true_iff.mp h
    obtain ⟨hk, hv⟩ := Bool.and_eq_true_iff.mp h
    obtain ⟨us, hus, hk⟩ := spells_expr k hk
    obtain ⟨vs, hvs, hv⟩ := spells_expr v hv
    obtain ⟨ws, hws, hps⟩ := spells_pairs (p :: ps) hps
    refine ⟨_, (hus.colon hvs).comma hws, ?_⟩
    rw [List.append_assoc, List.cons_append]
    exact .cons (anywhere hk) (anywhere hv) hps

theorem spells_statement (s : Stmt) (h : s.isSpellable = true) :
    ∃ us, Spells s.render us ∧ ∀ next, Statement us next s := by
  match s with
  | .declare m x e =>
    obtain ⟨hx, he⟩ := Bool.and_eq_true_iff.mp h
    obtain ⟨us, hus, he⟩ := spells_expr e he
    have hs := Sentence.declare m (x := x) (anywhere he)
    refine ⟨_, ?_, fun next => .ended hs⟩
    intro rest _
    have hassign : " = " = " " ++ Symbol.assign.text ++ " " := rfl
    simp only [Stmt.render, hassign, String.toList_append, List.append_assoc, String.reduceToList,
      List.cons_append, List.nil_append]
    rw [words_keyword _ rfl, words_blank rfl, spells_name hx _ rfl, words_blank rfl,
      words_symbol _ rfl, words_blank rfl, hus _ rfl, words_mark rfl rfl]
    rfl
  | .assign x e =>
    obtain ⟨hx, he⟩ := Bool.and_eq_true_iff.mp h
    obtain ⟨us, hus, he⟩ := spells_expr e he
    have hs := Sentence.assign (x := x) (anywhere he)
    refine ⟨_, ?_, fun next => .ended hs⟩
    intro rest _
    have hassign : " = " = " " ++ Symbol.assign.text ++ " " := rfl
    simp only [Stmt.render, hassign, String.toList_append, List.append_assoc, String.reduceToList,
      List.cons_append, List.nil_append]
    rw [spells_name hx _ rfl, words_blank rfl, words_symbol _ rfl, words_blank rfl, hus _ rfl,
      words_mark rfl rfl]
    rfl
  | .ret e =>
    obtain ⟨us, hus, he⟩ := spells_expr e h
    have hs := Sentence.ret (anywhere he)
    refine ⟨_, ?_, fun next => .ended hs⟩
    intro rest _
    have hreturn : "return " = Keyword.return_.text ++ " " := rfl
    simp only [Stmt.render, hreturn, String.toList_append, List.append_assoc, String.reduceToList,
      List.cons_append, List.nil_append]
    rw [words_keyword _ rfl, words_blank rfl, hus _ rfl, words_mark rfl rfl]
  | .expr e =>
    obtain ⟨us, hus, he⟩ := spells_expr e h
    have hs := Sentence.expr (anywhere he)
    refine ⟨_, ?_, fun next => .ended hs⟩
    intro rest _
    simp only [Stmt.render, String.toList_append, List.append_assoc, String.reduceToList,
      List.cons_append, List.nil_append]
    rw [hus _ rfl, words_mark rfl rfl]
  | .block _ => exact nomatch h

theorem spells_statements (p : List Stmt) (h : Block.isSpellable p = true) :
    ∃ us, Spells (" ".intercalate (Stmt.renders p)) us ∧ Statements us p := by
  match p with
  | [] => exact ⟨[], spells_nil, .nil⟩
  | [s] =>
    obtain ⟨hs, -⟩ := Bool.and_eq_true_iff.mp h
    obtain ⟨us, hus, hs⟩ := spells_statement s hs
    exact ⟨us ++ [], us.append_nil.symm ▸ hus, .cons (hs _) .nil⟩
  | s :: s' :: p =>
    obtain ⟨hs, hp⟩ := Bool.and_eq_true_iff.mp h
    obtain ⟨us, hus, hs⟩ := spells_statement s hs
    obtain ⟨vs, hvs, hp⟩ := spells_statements (s' :: p) hp
    refine ⟨us ++ vs, ?_, .cons (hs _) hp⟩
    intro rest hrest
    simp only [Stmt.renders, String.intercalate_cons_cons, String.toList_append, List.append_assoc,
      String.reduceToList, List.cons_append, List.nil_append]
    rw [hus _ rfl, words_blank rfl]
    exact congrArg _ (hvs rest hrest)

end

theorem words_render (p : Program) (h : Block.isSpellable p = true) :
    Statements (words p.render.toList) p := by
  obtain ⟨us, hus, hp⟩ := spells_statements p h
  have hwords := hus [] rfl
  rw [List.append_nil, words_nil, List.append_nil] at hwords
  exact hwords ▸ hp

end Spelling

/-- A program that can be spelled is what its canonical spelling reads back as. -/
theorem Program.parse_render (p : Program) (h : Block.isSpellable p = true) :
    Program.parse p.render = (p, []) :=
  Grammar.statements_complete (Spelling.words_render p h) _ rfl

/-- Spelled out for a function that calls itself in a condition, and for a hash with a quoted quote
in a string. -/
theorem Program.parse_render_sample :
    let p : Program :=
      [.declare .fixed "f_1" (.func ["x", "y"]
        [.expr (.cond (.binary .less (.ident "x") (.int 10))
          [.ret (.call (.ident "f_1") [.unary .negate (.ident "x"), .int 0])]
          (some []))]),
       .assign "f_1" (.index (.hash [(.str "a\\\"b", .array [.null, .bool true])]) (.str "k"))]
    Block.isSpellable p = true ∧ Program.parse p.render = (p, []) :=
  ⟨by decide, Program.parse_render _ (by decide)⟩

end TinyScript
