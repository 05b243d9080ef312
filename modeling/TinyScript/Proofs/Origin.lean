import TinyScript.Proofs.Grammar.Steps
import TinyScript.Syntax.Parse

/-!
# Where a tree comes from

The names, the numbers and the strings are what a tree keeps of its text; everything else in it is
fixed words. Each of them stands in a token that was read, also where the text has mistakes and only
some of its statements were kept, and no statement is a block of its own
(`Program.parse_origin`).
-/

namespace TinyScript

-- ---------------------------------------------------------------------------
-- What a tree keeps of its text
-- ---------------------------------------------------------------------------

inductive Atom where
  | name (name : String)
  | number (value : Int64)
  | string (raw : String)
  /-- A statement that is a block, of whatever statements. -/
  | block
  deriving DecidableEq

mutual
def Expr.atoms : Expr → List Atom
  | .ident name => [.name name]
  | .int n => [.number n]
  | .str raw => [.string raw]
  | .bool _ | .null => []
  | .unary _ e => e.atoms
  | .binary _ l r => l.atoms ++ r.atoms
  | .cond c yes none => c.atoms ++ Block.atoms yes
  | .cond c yes (some no) => c.atoms ++ (Block.atoms yes ++ Block.atoms no)
  | .func params body => params.map .name ++ Block.atoms body
  | .call f args => f.atoms ++ Expr.listAtoms args
  | .array items => Expr.listAtoms items
  | .hash pairs => Expr.pairAtoms pairs
  | .index c i => c.atoms ++ i.atoms
def Stmt.atoms : Stmt → List Atom
  | .declare _ name e | .assign name e => .name name :: e.atoms
  | .ret e | .expr e => e.atoms
  | .block body => .block :: Block.atoms body
def Block.atoms : List Stmt → List Atom
  | [] => []
  | s :: rest => s.atoms ++ Block.atoms rest
def Expr.listAtoms : List Expr → List Atom
  | [] => []
  | e :: rest => e.atoms ++ Expr.listAtoms rest
def Expr.pairAtoms : List (Expr × Expr) → List Atom
  | [] => []
  | (k, v) :: rest => k.atoms ++ (v.atoms ++ Expr.pairAtoms rest)
end

/-- What the token stands for, if it is no fixed word. -/
inductive Token.Gives (t : Token) : Atom → Prop
  | name : t.kind = .ident → Gives t (.name t.literal)
  | number : t.kind = .integer → Parse.int? t.literal = some n → Gives t (.number n)
  | string : t.kind = .string → Gives t (.string t.literal)

-- ---------------------------------------------------------------------------
-- Steps, with mistakes or without
-- ---------------------------------------------------------------------------

def Supplied (fine : Atom → Prop) (ts : List Token) : Prop := ∀ t ∈ ts, ∀ a, t.Gives a → fine a

/-- `Q` holds of what the step has read, if that is anything, and what it leaves is fine. -/
def Step.Made (s : Step α n) (fine : Atom → Prop) (Q : α → Prop) : Prop :=
  (∀ a, s.result = some a → Q a) ∧ Supplied fine s.rest

namespace Step

section
variable {fine : Atom → Prop} {ts : List Token} {m n : Nat}

theorem Made.mono {s : Step α n} (hs : s.Made fine P) (h : ∀ a, P a → Q a) : s.Made fine Q :=
  ⟨fun a ha => h a (hs.1 a ha), hs.2⟩

theorem Made.done (hQ : Q a) (hts : Supplied fine ts) : (Step.done a ts).Made fine Q :=
  ⟨fun _ h => Option.some.inj h ▸ hQ, hts⟩

theorem Made.fail (hts : Supplied fine ts) : (Step.fail e ts : Step α _).Made fine Q :=
  ⟨nofun, hts⟩

theorem Made.failNext (hts : Supplied fine ts) :
    (Step.failNext stop cause ts : Step α _).Made fine Q := by
  cases ts with
  | nil => exact ⟨nofun, hts⟩
  | cons t ts => exact ⟨nofun, (List.forall_mem_cons.mp hts).2⟩

theorem Made.weaken {s : Step α m} {h : m ≤ n} (hs : s.Made fine Q) : (s.weaken h).Made fine Q := hs

theorem Made.map {f : α → β} {s : Step α n} (hs : s.Made fine fun a => Q (f a)) :
    (s.map f).Made fine Q := by
  refine ⟨fun b hb => ?_, hs.2⟩
  obtain ⟨a, ha, rfl⟩ := Option.map_eq_some_iff.mp hb
  exact hs.1 a ha

theorem Made.bind {s : Step α n} {next : α → (ts : List Token) → ts.length ≤ n → Step β ts.length}
    (hs : s.Made fine P)
    (hn : ∀ a ts h, P a → Supplied fine ts → (next a ts h).Made fine Q) :
    (s.bind next).Made fine Q := by
  obtain ⟨result, errors, rest, hrest⟩ := s
  cases result with
  | none => exact ⟨nofun, hs.2⟩
  | some a => exact hn a rest hrest (hs.1 a rfl) hs.2

theorem Made.expect
    {next : Token → (rest : List Token) → rest.length < ts.length → Step β rest.length}
    (hts : Supplied fine ts)
    (h : ∀ t rest hlt, ts = t :: rest → t.kind = kind → (∀ a, t.Gives a → fine a) →
      Supplied fine rest → (next t rest hlt).Made fine Q) :
    (Step.expect stop kind ts next).Made fine Q := by
  cases ts with
  | nil => exact Made.failNext hts
  | cons t rest =>
    obtain ⟨ht, hrest⟩ := List.forall_mem_cons.mp hts
    simp only [Step.expect]
    split
    · exact Made.weaken (h t rest _ rfl ‹_› ht hrest)
    · exact Made.weaken (Made.failNext hts)

theorem Made.thenSemicolon {s : Step α n} (hs : s.Made fine Q) : s.thenSemicolon.Made fine Q := by
  refine ⟨hs.1, ?_⟩
  have hrest := hs.2
  simp only [Step.thenSemicolon]
  unfold dropSemicolon
  split
  · rename_i heq
    rw [heq] at hrest
    exact (List.forall_mem_cons.mp hrest).2
  · exact hrest

theorem Made.thenRest {s : Step α n}
    {next : (ts : List Token) → ts.length ≤ n → Step (List α) ts.length}
    (hs : s.Made fine P) (hn : ∀ ts h, Supplied fine ts → (next ts h).Made fine Q)
    (hcons : ∀ a as, P a → Q as → Q (a :: as)) : (s.thenRest next).Made fine Q := by
  obtain ⟨hresult, hrest⟩ := hn _ s.rest_le hs.2
  refine ⟨fun as has => ?_, hrest⟩
  obtain ⟨as, hnext, rfl⟩ := Option.map_eq_some_iff.mp has
  cases ha : s.result with
  | none => exact hresult as hnext
  | some a => exact hcons a as (hs.1 a ha) (hresult as hnext)

end

end Step

-- ---------------------------------------------------------------------------
-- Reading
-- ---------------------------------------------------------------------------

namespace Parse

open Step

variable {fine : Atom → Prop}

theorem moreParams_made (stop : Token) (ts : List Token) (hts : Supplied fine ts) :
    (moreParams stop ts).Made fine fun xs => ∀ x ∈ xs, fine (.name x) := by
  unfold moreParams
  split
  · obtain ⟨-, hts⟩ := List.forall_mem_cons.mp hts
    refine Made.weaken (Made.expect hts ?_)
    rintro t rest hlt rfl hk ht hrest
    refine Made.map ((moreParams_made stop rest hrest).mono fun xs hxs => ?_)
    exact List.forall_mem_cons.mpr ⟨ht _ (.name hk), hxs⟩
  · refine Made.expect hts ?_
    rintro t rest hlt rfl - - hrest
    exact Made.done (List.forall_mem_nil _) hrest
termination_by ts.length
decreasing_by subst_vars; simp only [List.length_cons]; omega

theorem params_made (stop : Token) (ts : List Token) (hts : Supplied fine ts) :
    (params stop ts).Made fine fun xs => ∀ x ∈ xs, fine (.name x) := by
  unfold params
  split
  · exact Made.weaken (Made.done nofun (List.forall_mem_cons.mp hts).2)
  · refine Made.expect hts ?_
    rintro t rest hlt rfl hk ht hrest
    refine Made.map ((moreParams_made stop rest hrest).mono fun xs hxs => ?_)
    exact List.forall_mem_cons.mpr ⟨ht _ (.name hk), hxs⟩

theorem sentence_made {s : Step Expr n} {make : Expr → Stmt}
    (hs : s.Made fine fun e => ∀ a ∈ e.atoms, fine a)
    (hmake : ∀ e, (∀ a ∈ e.atoms, fine a) → ∀ a ∈ (make e).atoms, fine a) :
    (s.thenSemicolon.map make).Made fine fun st => ∀ a ∈ st.atoms, fine a :=
  Made.map ((Made.thenSemicolon hs).mono hmake)

mutual

theorem expression_made (stop : Token) (level : Precedence) (ts : List Token)
    (hts : Supplied fine ts) :
    (expression stop level ts).Made fine fun e => ∀ a ∈ e.atoms, fine a := by
  match ts with
  | [] =>
    unfold expression
    exact Made.failNext hts
  | t :: ts =>
    obtain ⟨ht, hts⟩ := List.forall_mem_cons.mp hts
    unfold expression
    refine Made.bind (operand_made stop t ts ht hts) ?_
    rintro left mid hle hleft hmid
    exact continued_made stop level left mid hleft hmid
termination_by 4 * ts.length
decreasing_by all_goals simp only [List.length_cons] at *; omega

theorem operand_made (stop t : Token) (ts : List Token) (ht : ∀ a, t.Gives a → fine a)
    (hts : Supplied fine ts) :
    (operand stop t ts).Made fine fun e => ∀ a ∈ e.atoms, fine a := by
  unfold operand
  split
  case h_1 hk =>
    exact Made.done (List.forall_mem_singleton.mpr (ht _ (.name hk))) hts
  case h_2 hk =>
    split
    · rename_i n hn
      exact Made.done (List.forall_mem_singleton.mpr (ht _ (.number hk hn))) hts
    · exact Made.fail hts
  case h_3 hk =>
    exact Made.done (List.forall_mem_singleton.mpr (ht _ (.string hk))) hts
  case h_4 | h_5 | h_6 => exact Made.done nofun hts
  case h_7 | h_8 => exact Made.weaken (Made.map (expression_made stop .unary ts hts))
  case h_9 =>
    refine Made.weaken (Made.bind (expression_made stop .lowest ts hts) ?_)
    rintro e mid hle he hmid
    refine Made.expect hmid ?_
    rintro t' rest hlt rfl - - hrest
    exact Made.done he hrest
  case h_10 => exact Made.map (items_made stop _ ts hts)
  case h_11 => exact Made.map (pairs_made stop ts hts)
  case h_12 =>
    refine Made.expect hts ?_
    rintro t₁ ts₁ hlt₁ rfl - - hts₁
    refine Made.weaken (Made.bind (expression_made stop .lowest ts₁ hts₁) ?_)
    rintro test ts₂ hle₂ htest hts₂
    refine Made.expect hts₂ ?_
    rintro t₃ ts₃ hlt₃ rfl - - hts₃
    refine Made.expect hts₃ ?_
    rintro t₄ ts₄ hlt₄ rfl - - hts₄
    refine Made.bind (block_made stop ts₄ hts₄) ?_
    rintro yes ts₅ hle₅ hyes hts₅
    split
    · obtain ⟨-, hts₅⟩ := List.forall_mem_cons.mp hts₅
      refine Made.weaken (Made.expect hts₅ ?_)
      rintro t₆ ts₆ hlt₆ rfl - - hts₆
      refine Made.map ((block_made stop ts₆ hts₆).mono fun no hno => ?_)
      exact List.forall_mem_append.mpr ⟨htest, List.forall_mem_append.mpr ⟨hyes, hno⟩⟩
    · exact Made.done (List.forall_mem_append.mpr ⟨htest, hyes⟩) hts₅
  case h_13 =>
    refine Made.expect hts ?_
    rintro t₁ ts₁ hlt₁ rfl - - hts₁
    refine Made.bind (params_made stop ts₁ hts₁) ?_
    rintro xs ts₂ hle₂ hxs hts₂
    refine Made.expect hts₂ ?_
    rintro t₃ ts₃ hlt₃ rfl - - hts₃
    refine Made.map ((block_made stop ts₃ hts₃).mono fun body hbody => ?_)
    exact List.forall_mem_append.mpr ⟨List.forall_mem_map.mpr hxs, hbody⟩
  case h_14 => exact Made.fail hts
termination_by 4 * ts.length + 2
decreasing_by all_goals subst_vars; simp only [List.length_cons] at *; omega

theorem continued_made (stop : Token) (level : Precedence) (left : Expr) (ts : List Token)
    (hleft : ∀ a ∈ left.atoms, fine a) (hts : Supplied fine ts) :
    (continued stop level left ts).Made fine fun e => ∀ a ∈ e.atoms, fine a := by
  match ts with
  | [] =>
    unfold continued
    exact Made.done hleft hts
  | t :: ts =>
    obtain ⟨-, hrest⟩ := List.forall_mem_cons.mp hts
    unfold continued
    split
    case isFalse => exact Made.done hleft hts
    case isTrue =>
      split
      case h_1 =>
        refine Made.weaken (Made.bind (items_made stop _ ts hrest) ?_)
        rintro args mid hle hargs hmid
        exact continued_made stop level _ mid (List.forall_mem_append.mpr ⟨hleft, hargs⟩) hmid
      case h_2 =>
        refine Made.weaken (Made.bind (expression_made stop .lowest ts hrest) ?_)
        rintro i mid hle hi hmid
        refine Made.expect hmid ?_
        rintro t' mid' hlt' rfl - - hmid'
        exact continued_made stop level _ mid' (List.forall_mem_append.mpr ⟨hleft, hi⟩) hmid'
      case h_3 =>
        split
        · refine Made.weaken (Made.bind (expression_made stop _ ts hrest) ?_)
          rintro right mid hle hright hmid
          exact continued_made stop level _ mid (List.forall_mem_append.mpr ⟨hleft, hright⟩) hmid
        · exact Made.done hleft hts
      case h_4 => exact Made.done hleft hts
termination_by 4 * ts.length + 1
decreasing_by all_goals simp only [List.length_cons]; omega

theorem items_made (stop : Token) (close : Token.Kind) (ts : List Token)
    (hts : Supplied fine ts) :
    (items stop close ts).Made fine fun es => ∀ a ∈ Expr.listAtoms es, fine a := by
  match ts with
  | [] =>
    unfold items
    exact Made.failNext hts
  | t :: ts =>
    unfold items
    split
    case isTrue => exact Made.weaken (Made.done nofun (List.forall_mem_cons.mp hts).2)
    case isFalse =>
      refine Made.weaken (Made.bind (expression_made stop .lowest (t :: ts) hts) ?_)
      rintro e mid hle he hmid
      refine Made.map ((moreItems_made stop close mid hmid).mono fun es hes => ?_)
      exact List.forall_mem_append.mpr ⟨he, hes⟩
termination_by 4 * ts.length + 1
decreasing_by all_goals simp only [List.length_cons] at *; omega

theorem moreItems_made (stop : Token) (close : Token.Kind) (ts : List Token)
    (hts : Supplied fine ts) :
    (moreItems stop close ts).Made fine fun es => ∀ a ∈ Expr.listAtoms es, fine a := by
  unfold moreItems
  split
  · rename_i ts
    obtain ⟨-, hts⟩ := List.forall_mem_cons.mp hts
    refine Made.weaken (Made.bind (expression_made stop .lowest ts hts) ?_)
    rintro e mid hle he hmid
    refine Made.map ((moreItems_made stop close mid hmid).mono fun es hes => ?_)
    exact List.forall_mem_append.mpr ⟨he, hes⟩
  · refine Made.expect hts ?_
    rintro t rest hlt rfl - - hrest
    exact Made.done nofun hrest
termination_by 4 * ts.length + 1
decreasing_by all_goals subst_vars; simp only [List.length_cons] at *; omega

theorem pairs_made (stop : Token) (ts : List Token) (hts : Supplied fine ts) :
    (pairs stop ts).Made fine fun ps => ∀ a ∈ Expr.pairAtoms ps, fine a := by
  unfold pairs
  split
  · exact Made.failNext hts
  · exact Made.weaken (Made.done nofun (List.forall_mem_cons.mp hts).2)
  · rename_i t ts _
    refine Made.weaken (Made.bind (expression_made stop .lowest (t :: ts) hts) ?_)
    rintro key ts₁ hle₁ hkey hts₁
    refine Made.expect hts₁ ?_
    rintro t₂ ts₂ hlt₂ rfl - - hts₂
    refine Made.weaken (Made.bind (expression_made stop .lowest ts₂ hts₂) ?_)
    rintro value ts₃ hle₃ hvalue hts₃
    split
    · refine Made.weaken (Made.done ?_ (List.forall_mem_cons.mp hts₃).2)
      exact List.forall_mem_append.mpr ⟨hkey, List.forall_mem_append.mpr ⟨hvalue, nofun⟩⟩
    · refine Made.expect hts₃ ?_
      rintro t₄ ts₄ hlt₄ rfl - - hts₄
      refine Made.map ((pairs_made stop ts₄ hts₄).mono fun ps hps => ?_)
      exact List.forall_mem_append.mpr ⟨hkey, List.forall_mem_append.mpr ⟨hvalue, hps⟩⟩
termination_by 4 * ts.length + 1
decreasing_by all_goals grind

theorem block_made (stop : Token) (ts : List Token) (hts : Supplied fine ts) :
    (block stop ts).Made fine fun body => ∀ a ∈ Block.atoms body, fine a := by
  unfold block
  split
  · exact Made.failNext hts
  · exact Made.weaken (Made.done nofun (List.forall_mem_cons.mp hts).2)
  · rename_i t ts _
    refine Made.weaken (Made.thenRest (statement_made stop (t :: ts) hts) ?_ ?_)
    · rintro mid hle hmid
      exact block_made stop mid hmid
    · exact fun s body hs hbody => List.forall_mem_append.mpr ⟨hs, hbody⟩
termination_by 4 * ts.length + 3
decreasing_by all_goals subst_vars; simp only [List.length_cons] at *; omega

theorem statement_made (stop : Token) (ts : List Token) (hts : Supplied fine ts) :
    (statement stop ts).Made fine fun s => ∀ a ∈ s.atoms, fine a := by
  unfold statement
  split
  · exact declaration_made stop .mutable _ (List.forall_mem_cons.mp hts).2
  · exact declaration_made stop .fixed _ (List.forall_mem_cons.mp hts).2
  · rename_i x _ _ _ ts
    obtain ⟨hx, hts⟩ := List.forall_mem_cons.mp hts
    obtain ⟨-, hts⟩ := List.forall_mem_cons.mp hts
    refine Made.weaken (sentence_made (expression_made stop .lowest ts hts) fun e he => ?_)
    exact List.forall_mem_cons.mpr ⟨hx _ (.name rfl), he⟩
  · obtain ⟨-, hts⟩ := List.forall_mem_cons.mp hts
    split
    · exact Made.done nofun hts
    · exact Made.done nofun hts
    · exact Made.weaken (Made.done nofun (List.forall_mem_cons.mp hts).2)
    · exact Made.weaken (sentence_made (expression_made stop .lowest _ hts) fun _ he => he)
  · exact sentence_made (expression_made stop .lowest ts hts) fun _ he => he
termination_by 4 * ts.length + 1
decreasing_by all_goals subst_vars; simp only [List.length_cons] at *; omega

theorem declaration_made (stop : Token) (m : Mutability) (ts : List Token)
    (hts : Supplied fine ts) :
    (declaration stop m ts).Made fine fun s => ∀ a ∈ s.atoms, fine a := by
  unfold declaration
  refine Made.expect hts ?_
  rintro t ts₁ hlt₁ rfl hk ht hts₁
  refine Made.expect hts₁ ?_
  rintro t₂ ts₂ hlt₂ rfl - - hts₂
  refine Made.weaken (sentence_made (expression_made stop .lowest ts₂ hts₂) fun e he => ?_)
  exact List.forall_mem_cons.mpr ⟨ht _ (.name hk), he⟩
termination_by 4 * ts.length + 1
decreasing_by all_goals subst_vars; simp only [List.length_cons] at *; omega

end

theorem statements_made (stop : Token) (ts : List Token) (hts : Supplied fine ts) :
    ∀ a ∈ Block.atoms (statements stop ts).1, fine a := by
  match ts with
  | [] =>
    unfold statements
    exact nofun
  | t :: ts =>
    unfold statements
    obtain ⟨hresult, hrest⟩ := statement_made stop (t :: ts) hts
    have ih := statements_made stop _ hrest
    cases hs : (statement stop (t :: ts)).result with
    | none =>
      simp only [hs]
      exact ih
    | some s =>
      simp only [hs]
      exact List.forall_mem_append.mpr ⟨hresult s hs, ih⟩
termination_by ts.length
decreasing_by exact Nat.lt_succ_of_le (statement stop (t :: ts)).rest_le

end Parse

/-- Whatever is kept of a text, its names, numbers and strings are those of tokens of the text. -/
theorem Program.parse_origin (source : String) :
    ∀ a ∈ Block.atoms (Program.parse source).1, ∃ t ∈ (Cursor.start source).tokens, t.Gives a :=
  Parse.statements_made _ _ fun t ht _ hgives => ⟨t, ht, hgives⟩

end TinyScript
