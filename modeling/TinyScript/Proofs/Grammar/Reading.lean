import TinyScript.Proofs.Grammar.Soundness

/-!
# One rule at a time

What one turn of reading does on words that a rule of the grammar allows: which words an expression
or a statement starts with, what may come after them, and for each way to read on, that it reads the
tree of the rule when its parts are read.
-/

namespace TinyScript.Grammar

open Parse Step

-- ---------------------------------------------------------------------------
-- First words
-- ---------------------------------------------------------------------------

def Opens : Terminal → Prop
  | .ident _ | .integer _ | .string _ => True
  | .symbol s => s ∈ [.bang, .minus, .lparen, .lbracket, .lbrace]
  | .keyword k => k ∈ [.true_, .false_, .null, .if_, .func]
  | .foreign => False

def Begins (u : Terminal) : Prop :=
  Opens u ∨ ∃ k ∈ [Keyword.var, .val, .return_], u = .keyword k

theorem Expression.head : Expression n us e → ∃ u us', us = u :: us' ∧ Opens u
  | .tighter h => h.head
  | .binary _ hl _ => by
    obtain ⟨u, us, rfl, hu⟩ := hl.head
    exact ⟨u, _, rfl, hu⟩
  | .call hf _ => by
    obtain ⟨u, us, rfl, hu⟩ := hf.head
    exact ⟨u, _, rfl, hu⟩
  | .index hc _ => by
    obtain ⟨u, us, rfl, hu⟩ := hc.head
    exact ⟨u, _, rfl, hu⟩
  | .unary op _ => ⟨_, _, rfl, by cases op <;> simp [Opens, UnaryOp.symbol]⟩
  | .ident | .integer _ | .string => ⟨_, _, rfl, trivial⟩
  | .true_ | .false_ | .null | .group _ | .cond .. | .condElse .. | .func .. | .array _
  | .hash _ => ⟨_, _, rfl, by simp [Opens]⟩

theorem Sentence.head (h : Sentence us s) : ∃ u us', us = u :: us' ∧ Begins u := by
  cases h with
  | declare m _ =>
    exact ⟨_, _, rfl, .inr ⟨m.keyword, by cases m <;> simp [Mutability.keyword], rfl⟩⟩
  | assign _ => exact ⟨_, _, rfl, .inl trivial⟩
  | ret _ => exact ⟨_, _, rfl, .inr ⟨.return_, by simp, rfl⟩⟩
  | expr he =>
    obtain ⟨u, us', rfl, hu⟩ := he.head
    exact ⟨u, us', rfl, .inl hu⟩

theorem Statement.head (h : Statement us next s) : ∃ u us', us = u :: us' ∧ Begins u := by
  cases h with
  | ended hs =>
    obtain ⟨u, us', rfl, hu⟩ := hs.head
    exact ⟨u, _, rfl, hu⟩
  | openEnded hs _ => exact hs.head
  | bareEnded | bare _ => exact ⟨_, _, rfl, .inr ⟨.return_, by simp, rfl⟩⟩

theorem Statements.head (h : Statements us body) : ∀ u ∈ us.head?, Begins u := by
  cases h with
  | nil => nofun
  | cons hs _ =>
    obtain ⟨u, us', rfl, hu⟩ := hs.head
    rintro _ ⟨⟩
    exact hu

-- ---------------------------------------------------------------------------
-- Places in a list of tokens
-- ---------------------------------------------------------------------------

def StartsWith (P : Terminal → Prop) (ts : List Token) : Prop :=
  ∃ t ts', ts = t :: ts' ∧ P t.terminal

@[simp] theorem not_startsWith_nil : ¬ StartsWith P [] := nofun

@[simp] theorem startsWith_cons : StartsWith P (t :: ts) ↔ P t.terminal := by
  constructor
  · rintro ⟨_, _, ⟨⟩, ht⟩
    exact ht
  · exact fun ht => ⟨t, ts, rfl, ht⟩

theorem Expression.opens {ts : List Token} (h : Expression n us e)
    (hts : ts.map Token.terminal = us) (rest : List Token) : StartsWith Opens (ts ++ rest) := by
  obtain ⟨_, _, rfl, hu⟩ := h.head
  obtain ⟨t, ts, rfl, rfl, -⟩ := List.map_eq_cons_iff.mp hts
  exact ⟨t, ts ++ rest, rfl, hu⟩

theorem Statement.begins {ts : List Token} (h : Statement us next s)
    (hts : ts.map Token.terminal = us) (rest : List Token) : StartsWith Begins (ts ++ rest) := by
  obtain ⟨_, _, rfl, hu⟩ := h.head
  obtain ⟨t, ts, rfl, rfl, -⟩ := List.map_eq_cons_iff.mp hts
  exact ⟨t, ts ++ rest, rfl, hu⟩

def NoElse (ts : List Token) : Prop := ∀ t ∈ ts.head?, t.kind ≠ .keyword .else_

def Ends (ts : List Token) : Prop :=
  ∀ t ∈ ts.head?, (Precedence.ofKind t.kind).level = 0 ∧ t.kind ≠ .keyword .else_

theorem Ends.loose (h : Ends ts) : Loose n ts :=
  fun t ht => .inl ((h t ht).1 ▸ Nat.zero_le n)

theorem Ends.noElse (h : Ends ts) : NoElse ts := fun t ht => (h t ht).2

theorem Ends.stops (h : Ends ts) : Stops level ts :=
  fun t ht hlt => Nat.not_lt_zero level.level ((h t ht).1 ▸ hlt)

theorem ends_cons (ht : t.kind = k)
    (hk : (Precedence.ofKind k).level = 0 ∧ k ≠ .keyword .else_ := by decide) :
    Ends (t :: ts) := by
  rintro _ ⟨⟩
  exact ht ▸ hk

theorem ends_symbol (hs : (Precedence.ofKind (.symbol s)).level = 0) :
    Ends (⟨.symbol s, l, p⟩ :: ts) := by
  rintro _ ⟨⟩
  exact ⟨hs, nofun⟩

theorem exists_cons {ts : List Token} (h : ts.map Token.terminal = u :: us) :
    ∃ t bs, t.terminal = u ∧ bs.map Token.terminal = us ∧
      ∀ rest, ts ++ rest = t :: (bs ++ rest) := by
  obtain ⟨t, bs, rfl, ht, hbs⟩ := List.map_eq_cons_iff.mp h
  exact ⟨t, bs, ht, hbs, fun _ => rfl⟩

theorem exists_append {ts : List Token} (h : ts.map Token.terminal = us ++ vs) :
    ∃ as bs, as.map Token.terminal = us ∧ bs.map Token.terminal = vs ∧
      ∀ rest, ts ++ rest = as ++ (bs ++ rest) := by
  obtain ⟨as, bs, rfl, has, hbs⟩ := List.map_eq_append_iff.mp h
  exact ⟨as, bs, has, hbs, fun _ => by rw [List.append_assoc]⟩

theorem exists_split {ts : List Token} (h : ts.map Token.terminal = us ++ u :: vs) :
    ∃ as t bs, as.map Token.terminal = us ∧ t.terminal = u ∧ bs.map Token.terminal = vs ∧
      ∀ rest, ts ++ rest = as ++ t :: (bs ++ rest) := by
  obtain ⟨as, bs, has, hbs, h⟩ := exists_append h
  obtain ⟨t, bs, ht, hbs, h'⟩ := exists_cons hbs
  exact ⟨as, t, bs, has, ht, hbs, fun rest => by rw [h, h']⟩

theorem exists_split_last {ts : List Token} (h : ts.map Token.terminal = us ++ [u]) :
    ∃ as t, as.map Token.terminal = us ∧ t.terminal = u ∧ ∀ rest, ts ++ rest = as ++ t :: rest := by
  obtain ⟨as, t, bs, has, ht, hbs, h⟩ := exists_split h
  obtain rfl := List.map_eq_nil_iff.mp hbs
  exact ⟨as, t, has, ht, h⟩

-- ---------------------------------------------------------------------------
-- One turn of the loop
-- ---------------------------------------------------------------------------

section
variable {stop t : Token} {level : Precedence} {ts rest : List Token} {e x : Expr}

theorem continued_done (h : Stops level rest) : (continued stop level e rest).Reads e rest := by
  cases rest with
  | nil =>
    rw [continued]
    exact Reads.done ..
  | cons t rest =>
    rw [continued, if_neg (h t rfl)]
    exact Reads.done ..

theorem expression_of_operand (ho : (operand stop t ts).Reads e mid)
    (hc : (continued stop level e mid).Reads x rest) :
    (expression stop level (t :: ts)).Reads x rest := by
  rw [expression]
  exact Reads.bind ho fun _ => hc

theorem continued_binary {op : BinaryOp} (hlevel : level.level < op.tier)
    (ht : t.kind = .symbol op.symbol)
    (hr : (expression stop (Precedence.ofKind (.symbol op.symbol)) ts).Reads r mid)
    (hc : (continued stop level (.binary op e r) mid).Reads x rest) :
    (continued stop level e (t :: ts)).Reads x rest := by
  have hlt : level < Precedence.ofKind t.kind := by
    show level.level < _
    rwa [ht, op.level_symbol]
  rw [continued, if_pos hlt]
  split
  case h_1 hk =>
    rw [ht] at hk
    cases op <;> cases hk
  case h_2 hk =>
    rw [ht] at hk
    cases op <;> cases hk
  case h_3 s _ _ hk =>
    obtain rfl : s = op.symbol := by simpa [ht] using hk.symm
    split
    case h_1 op' hop =>
      obtain rfl : op = op' := by simpa [op.ofSymbol?_symbol] using hop
      rw [ht]
      exact Reads.weaken (Reads.bind hr fun _ => hc)
    case h_2 hop =>
      rw [op.ofSymbol?_symbol] at hop
      cases hop
  case h_4 h => exact absurd ht (h _)

theorem continued_call (hm : level.level ≤ 5) (ht : t.kind = .symbol .lparen)
    (ha : (items stop (.symbol .rparen) ts).Reads args mid)
    (hc : (continued stop level (.call e args) mid).Reads x rest) :
    (continued stop level e (t :: ts)).Reads x rest := by
  have hlt : level < Precedence.ofKind t.kind := by
    rw [ht]
    exact Nat.lt_of_le_of_lt hm (by decide)
  rw [continued, if_pos hlt]
  simp only [ht]
  exact Reads.weaken (Reads.bind ha fun _ => hc)

theorem continued_index (hm : level.level ≤ 5) (ht : t.kind = .symbol .lbracket)
    (ht' : t'.kind = .symbol .rbracket)
    (hi : (expression stop .lowest ts).Reads i (t' :: mid))
    (hc : (continued stop level (.index e i) mid).Reads x rest) :
    (continued stop level e (t :: ts)).Reads x rest := by
  have hlt : level < Precedence.ofKind t.kind := by
    rw [ht]
    exact Nat.lt_of_le_of_lt hm (by decide)
  rw [continued, if_pos hlt]
  simp only [ht]
  exact Reads.weaken (Reads.bind hi fun _ => Reads.expect ht' fun _ => hc)

end

-- ---------------------------------------------------------------------------
-- Operands
-- ---------------------------------------------------------------------------

section
variable {stop t t₁ t₂ t₃ t₄ : Token} {ts mid rest : List Token} {e : Expr}

theorem operand_ident (ht : t.kind = .ident) : (operand stop t ts).Reads (.ident t.literal) ts := by
  obtain ⟨_, _, _⟩ := t
  obtain rfl := ht
  unfold operand
  exact Reads.done ..

theorem operand_integer {n : Int64} (ht : t.kind = .integer) (hn : n.toInt = decimal t.literal) :
    (operand stop t ts).Reads (.int n) ts := by
  obtain ⟨_, _, _⟩ := t
  obtain rfl := ht
  unfold operand
  simp only [int?_eq_some_iff.mpr hn]
  exact Reads.done ..

theorem operand_string (ht : t.kind = .string) : (operand stop t ts).Reads (.str t.literal) ts := by
  obtain ⟨_, _, _⟩ := t
  obtain rfl := ht
  unfold operand
  exact Reads.done ..

theorem operand_bool (b : Bool) (ht : t.kind = .keyword (if b then .true_ else .false_)) :
    (operand stop t ts).Reads (.bool b) ts := by
  obtain ⟨_, _, _⟩ := t
  obtain rfl := ht
  unfold operand
  cases b <;> exact Reads.done ..

theorem operand_null (ht : t.kind = .keyword .null) : (operand stop t ts).Reads .null ts := by
  obtain ⟨_, _, _⟩ := t
  obtain rfl := ht
  unfold operand
  exact Reads.done ..

theorem operand_unary {op : UnaryOp} (ht : t.kind = .symbol op.symbol)
    (he : (expression stop .unary ts).Reads e rest) :
    (operand stop t ts).Reads (.unary op e) rest := by
  obtain ⟨_, _, _⟩ := t
  obtain rfl := ht
  unfold operand
  cases op <;> exact Reads.map he

theorem operand_group (ht : t.kind = .symbol .lparen)
    (he : (expression stop .lowest ts).Reads e (t₁ :: rest)) (ht₁ : t₁.kind = .symbol .rparen) :
    (operand stop t ts).Reads e rest := by
  obtain ⟨_, _, _⟩ := t
  obtain rfl := ht
  unfold operand
  exact Reads.weaken (Reads.bind he fun _ => Reads.expect ht₁ fun _ => Reads.done ..)

theorem operand_array (ht : t.kind = .symbol .lbracket)
    (hi : (items stop (.symbol .rbracket) ts).Reads es rest) :
    (operand stop t ts).Reads (.array es) rest := by
  obtain ⟨_, _, _⟩ := t
  obtain rfl := ht
  unfold operand
  exact Reads.map hi

theorem operand_hash (ht : t.kind = .symbol .lbrace) (hp : (pairs stop ts).Reads ps rest) :
    (operand stop t ts).Reads (.hash ps) rest := by
  obtain ⟨_, _, _⟩ := t
  obtain rfl := ht
  unfold operand
  exact Reads.map hp

theorem operand_func (ht : t.kind = .keyword .func) (ht₁ : t₁.kind = .symbol .lparen)
    (hp : (params stop ts).Reads xs (t₂ :: mid)) (ht₂ : t₂.kind = .symbol .lbrace)
    (hb : (block stop mid).Reads body rest) :
    (operand stop t (t₁ :: ts)).Reads (.func xs body) rest := by
  obtain ⟨_, _, _⟩ := t
  obtain rfl := ht
  unfold operand
  exact Reads.expect ht₁ fun _ => Reads.bind hp fun _ => Reads.expect ht₂ fun _ => Reads.map hb

theorem operand_cond (ht : t.kind = .keyword .if_) (ht₁ : t₁.kind = .symbol .lparen)
    (he : (expression stop .lowest ts).Reads e (t₂ :: t₃ :: mid)) (ht₂ : t₂.kind = .symbol .rparen)
    (ht₃ : t₃.kind = .symbol .lbrace) (hy : (block stop mid).Reads yes rest) (helse : NoElse rest) :
    (operand stop t (t₁ :: ts)).Reads (.cond e yes none) rest := by
  obtain ⟨_, _, _⟩ := t
  obtain rfl := ht
  unfold operand
  refine Reads.expect ht₁ fun _ => Reads.weaken (Reads.bind he fun _ => Reads.expect ht₂ fun _ =>
    Reads.expect ht₃ fun _ => Reads.bind hy fun _ => ?_)
  split
  · exact absurd rfl (helse _ rfl)
  · exact Reads.done ..

theorem operand_condElse (ht : t.kind = .keyword .if_) (ht₁ : t₁.kind = .symbol .lparen)
    (he : (expression stop .lowest ts).Reads e (t₂ :: t₃ :: mid)) (ht₂ : t₂.kind = .symbol .rparen)
    (ht₃ : t₃.kind = .symbol .lbrace) (hy : (block stop mid).Reads yes (t₄ :: t₅ :: mid'))
    (ht₄ : t₄.kind = .keyword .else_) (ht₅ : t₅.kind = .symbol .lbrace)
    (hn : (block stop mid').Reads no rest) :
    (operand stop t (t₁ :: ts)).Reads (.cond e yes (some no)) rest := by
  obtain ⟨_, _, _⟩ := t
  obtain rfl := ht
  obtain ⟨_, _, _⟩ := t₄
  obtain rfl := ht₄
  unfold operand
  exact Reads.expect ht₁ fun _ => Reads.weaken (Reads.bind he fun _ => Reads.expect ht₂ fun _ =>
    Reads.expect ht₃ fun _ => Reads.bind hy fun _ => Reads.weaken (Reads.expect ht₅ fun _ =>
      Reads.map hn))

end

-- ---------------------------------------------------------------------------
-- Lists
-- ---------------------------------------------------------------------------

section
variable {stop t : Token} {close : Symbol} {ts mid rest : List Token} {e key value : Expr}

theorem items_cons (hs : StartsWith Opens ts) (hclose : close = .rparen ∨ close = .rbracket)
    (he : (expression stop .lowest ts).Reads e mid)
    (hes : (moreItems stop (.symbol close) mid).Reads es rest) :
    (items stop (.symbol close) ts).Reads (e :: es) rest := by
  obtain ⟨t, ts, rfl, ht⟩ := hs
  have hne : t.kind ≠ .symbol close := by
    intro hk
    rw [terminal_symbol.mpr hk] at ht
    rcases hclose with rfl | rfl <;> simp [Opens] at ht
  rw [items, if_neg hne]
  exact Reads.weaken (Reads.bind he fun _ => Reads.map hes)

theorem moreItems_cons (ht : t.kind = .symbol .comma)
    (he : (expression stop .lowest ts).Reads e mid)
    (hes : (moreItems stop (.symbol close) mid).Reads es rest) :
    (moreItems stop (.symbol close) (t :: ts)).Reads (e :: es) rest := by
  obtain ⟨_, _, _⟩ := t
  obtain rfl := ht
  unfold moreItems
  exact Reads.weaken (Reads.bind he fun _ => Reads.map hes)

theorem moreItems_nil (ht : t.kind = .symbol close) (hclose : close = .rparen ∨ close = .rbracket) :
    (moreItems stop (.symbol close) (t :: ts)).Reads [] ts := by
  obtain ⟨_, _, _⟩ := t
  obtain rfl := ht
  unfold moreItems
  rcases hclose with rfl | rfl <;> exact Reads.expect rfl fun _ => Reads.done ..

theorem pairs_last (hs : StartsWith Opens ts)
    (hkey : (expression stop .lowest ts).Reads key (t :: mid)) (ht : t.kind = .symbol .colon)
    (hvalue : (expression stop .lowest mid).Reads value (t₁ :: rest))
    (ht₁ : t₁.kind = .symbol .rbrace) : (pairs stop ts).Reads [(key, value)] rest := by
  obtain ⟨_, _, _⟩ := t₁
  obtain rfl := ht₁
  unfold pairs
  split
  · simp at hs
  · simp [Opens] at hs
  · exact Reads.weaken (Reads.bind hkey fun _ => Reads.expect ht fun _ => Reads.weaken
      (Reads.bind hvalue fun _ => Reads.done ..))

theorem pairs_cons (hs : StartsWith Opens ts)
    (hkey : (expression stop .lowest ts).Reads key (t :: mid)) (ht : t.kind = .symbol .colon)
    (hvalue : (expression stop .lowest mid).Reads value (t₁ :: mid'))
    (ht₁ : t₁.kind = .symbol .comma) (hps : (pairs stop mid').Reads ps rest) :
    (pairs stop ts).Reads ((key, value) :: ps) rest := by
  obtain ⟨_, _, _⟩ := t₁
  obtain rfl := ht₁
  unfold pairs
  split
  · simp at hs
  · simp [Opens] at hs
  · exact Reads.weaken (Reads.bind hkey fun _ => Reads.expect ht fun _ => Reads.weaken
      (Reads.bind hvalue fun _ => Reads.expect rfl fun _ => Reads.map hps))

theorem block_cons (hs : StartsWith Begins ts) (hst : (statement stop ts).Reads s mid)
    (hb : (block stop mid).Reads body rest) : (block stop ts).Reads (s :: body) rest := by
  unfold block
  split
  · simp at hs
  · simp [Begins, Opens] at hs
  · exact Reads.weaken (Reads.thenRest hst fun _ => hb)

end

-- ---------------------------------------------------------------------------
-- Statements
-- ---------------------------------------------------------------------------

def NoAssign (ts : List Token) : Prop := ∀ t ∈ ts.head?, t.kind ≠ .symbol .assign

section
variable {stop t t₁ t₂ : Token} {ts mid rest : List Token} {e : Expr}

theorem statement_declare {m : Mutability} (ht : t.kind = .keyword m.keyword)
    (ht₁ : t₁.kind = .ident) (ht₂ : t₂.kind = .symbol .assign)
    (he : (expression stop .lowest ts).Reads e rest) :
    (statement stop (t :: t₁ :: t₂ :: ts)).Reads (.declare m t₁.literal e)
      (dropSemicolon rest) := by
  have hd : (declaration stop m (t₁ :: t₂ :: ts)).Reads (.declare m t₁.literal e)
      (dropSemicolon rest) := by
    unfold declaration
    exact Reads.expect ht₁ fun _ => Reads.expect ht₂ fun _ => Reads.weaken
      (Reads.map (Reads.thenSemicolon he))
  obtain ⟨_, _, _⟩ := t
  obtain rfl := ht
  unfold statement
  cases m <;> exact hd

theorem statement_assign (ht : t.kind = .ident) (ht₁ : t₁.kind = .symbol .assign)
    (he : (expression stop .lowest ts).Reads e rest) :
    (statement stop (t :: t₁ :: ts)).Reads (.assign t.literal e) (dropSemicolon rest) := by
  obtain ⟨_, _, _⟩ := t
  obtain rfl := ht
  obtain ⟨_, _, _⟩ := t₁
  obtain rfl := ht₁
  unfold statement
  exact Reads.weaken (Reads.map (Reads.thenSemicolon he))

theorem statement_ret (ht : t.kind = .keyword .return_) (hs : StartsWith Opens ts)
    (he : (expression stop .lowest ts).Reads e rest) :
    (statement stop (t :: ts)).Reads (.ret e) (dropSemicolon rest) := by
  obtain ⟨_, _, _⟩ := t
  obtain rfl := ht
  unfold statement
  split
  · simp at hs
  · simp [Opens] at hs
  · simp [Opens] at hs
  · exact Reads.weaken (Reads.map (Reads.thenSemicolon he))

theorem statement_bare (h : ∀ t ∈ rest.head?, t.kind = .symbol .rbrace) :
    (statement stop (⟨.keyword .return_, l, p⟩ :: rest)).Reads (.ret .null) rest := by
  match rest with
  | [] =>
    unfold statement
    exact Reads.done ..
  | ⟨_, _, _⟩ :: rest =>
    obtain rfl := h _ rfl
    unfold statement
    exact Reads.done ..

theorem statement_expr (hs : StartsWith Opens ts) (he : (expression stop .lowest ts).Reads e rest)
    (hassign : NoAssign rest) : (statement stop ts).Reads (.expr e) (dropSemicolon rest) := by
  unfold statement
  split
  · simp [Opens] at hs
  · simp [Opens] at hs
  · -- a name before `=` would be all of the expression
    obtain ⟨-, rfl⟩ := he.unique (expression_of_operand (operand_ident rfl)
      (continued_done (ends_symbol (by decide)).stops))
    exact absurd rfl (hassign _ rfl)
  · simp [Opens] at hs
  · exact Reads.map (Reads.thenSemicolon he)

end

-- ---------------------------------------------------------------------------
-- What comes after a statement
-- ---------------------------------------------------------------------------

/-- The tokens in front of which a statement before `next` stands. -/
def Before (next : Option Terminal) (ts : List Token) : Prop :=
  ∀ t ∈ ts.head?, t.kind = .symbol .rbrace ∨ next = some t.terminal ∧ Begins t.terminal

theorem Before.ends (h : Before next ts) (hnext : ∀ u ∈ next, ¬ Continues u) : Ends ts := by
  intro t ht
  rcases h t ht with hk | ⟨rfl, hbegins⟩
  · simp [hk, Precedence.ofKind, Precedence.level]
  · refine ⟨Nat.eq_zero_of_not_pos fun hpos => hnext _ rfl (continues_iff.mpr hpos), ?_⟩
    intro hk
    rw [terminal_keyword.mpr hk] at hbegins
    simp [Begins, Opens] at hbegins

theorem Before.noAssign (h : Before next ts) : NoAssign ts := by
  intro t ht hk
  rcases h t ht with hk' | ⟨-, hbegins⟩
  · exact nomatch hk.symm.trans hk'
  · rw [terminal_symbol.mpr hk] at hbegins
    simp [Begins, Opens] at hbegins

theorem Before.dropSemicolon (h : Before next ts) : dropSemicolon ts = ts := by
  unfold Step.dropSemicolon
  split
  · rcases h _ rfl with hk | ⟨-, hbegins⟩
    · exact nomatch hk
    · simp [Begins, Opens] at hbegins
  · rfl

theorem Before.closed (h : Before next ts) (hnext : next = none ∨ next = some (.symbol .rbrace)) :
    ∀ t ∈ ts.head?, t.kind = .symbol .rbrace := by
  intro t ht
  rcases h t ht with hk | ⟨rfl, hbegins⟩
  · exact hk
  · obtain hnext | hnext := hnext
    · exact nomatch hnext
    · exact terminal_symbol.mp (Option.some.inj hnext)

theorem Statements.before {ts : List Token} (h : Statements us body)
    (hts : ts.map Token.terminal = us) (rest : List Token)
    (hrest : ∀ t ∈ rest.head?, t.kind = .symbol .rbrace) : Before us.head? (ts ++ rest) := by
  subst hts
  cases ts with
  | nil => exact fun t ht => .inl (hrest t ht)
  | cons t ts =>
    rintro _ ⟨⟩
    exact .inr ⟨rfl, h.head _ rfl⟩

theorem MoreItems.ends {ts : List Token} (h : MoreItems us es) (hts : ts.map Token.terminal = us)
    (ht : t.kind = .symbol close) (hclose : close = .rparen ∨ close = .rbracket)
    (rest : List Token) : Ends (ts ++ t :: rest) := by
  cases h with
  | nil =>
    obtain rfl := List.map_eq_nil_iff.mp hts
    rcases hclose with rfl | rfl <;> exact ends_cons ht
  | cons _ _ =>
    obtain ⟨t₁, ts, ht₁, -, hsplit⟩ := exists_cons hts
    exact hsplit _ ▸ ends_cons (terminal_symbol.mp ht₁)

end TinyScript.Grammar
