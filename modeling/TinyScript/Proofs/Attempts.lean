import TinyScript.Proofs.Lexing.Tiling
import TinyScript.Proofs.Parser

/-!
# Accounts of attempts

What the parser with fields keeps of its attempts is an account of all that was read. The parts of
an attempt are the tokens it went through, in their order, and its blocks stand between braces; a
block consists of the statements that its attempts came to, and a statement that was read has the
blocks of its parts and no others. An attempt that failed goes no further than to its mistake
(`Attempt.Fits`).

`Parser.Does` says of an action that it comes back, and that what it added to the record accounts for
what the step on the tokens has read. There is one law for each way in which a construct goes on.
-/

namespace TinyScript

-- ---------------------------------------------------------------------------
-- Blocks in a tree
-- ---------------------------------------------------------------------------

mutual
/-- The blocks in an expression, in their order, without those inside of them. -/
def Expr.bodies : Expr → List Block
  | .ident _ | .int _ | .str _ | .bool _ | .null => []
  | .unary _ e => e.bodies
  | .binary _ l r => l.bodies ++ r.bodies
  | .cond test yes no => test.bodies ++ yes :: no.toList
  | .func _ body => [body]
  | .call f args => f.bodies ++ Expr.listBodies args
  | .array items => Expr.listBodies items
  | .hash pairs => Expr.pairBodies pairs
  | .index c i => c.bodies ++ i.bodies
def Expr.listBodies : List Expr → List Block
  | [] => []
  | e :: rest => e.bodies ++ Expr.listBodies rest
def Expr.pairBodies : List (Expr × Expr) → List Block
  | [] => []
  | (k, v) :: rest => k.bodies ++ v.bodies ++ Expr.pairBodies rest
end

def Stmt.bodies : Stmt → List Block
  | .declare _ _ e | .assign _ e | .ret e | .expr e => e.bodies
  | .block body => [body]

/-- What a construct comes to has blocks in it. -/
class Bodied (α : Type) where
  bodies : α → List Block

export Bodied (bodies)

instance : Bodied Expr := ⟨Expr.bodies⟩

instance : Bodied (List Expr) := ⟨Expr.listBodies⟩

instance : Bodied (List (Expr × Expr)) := ⟨Expr.pairBodies⟩

instance : Bodied Stmt := ⟨Stmt.bodies⟩

instance : Bodied Block := ⟨fun body => [body]⟩

instance : Bodied (List String) := ⟨fun _ => []⟩

-- ---------------------------------------------------------------------------
-- What is in an attempt
-- ---------------------------------------------------------------------------

mutual
def Attempt.tokens : Attempt → List Token
  | ⟨parts, _, _⟩ => parts.flatMap Part.tokens
def Part.tokens : Part Attempt → List Token
  | .token t => [t]
  | .block tries _ => tries.flatMap Attempt.tokens
end

mutual
/-- The attempt and those in its blocks, in the order of their ends. -/
def Attempt.all : Attempt → List Attempt
  | ⟨parts, own, result⟩ => parts.flatMap Part.attempts ++ [⟨parts, own, result⟩]
def Part.attempts : Part Attempt → List Attempt
  | .token _ => []
  | .block tries _ => tries.flatMap Attempt.all
end

theorem Attempt.all_eq (a : Attempt) : a.all = a.parts.flatMap Part.attempts ++ [a] := by
  cases a
  rw [Attempt.all]

theorem Attempt.results_cons (a : Attempt) (tries : List Attempt) :
    (a :: tries).filterMap Attempt.result = a.result.toList ++ tries.filterMap Attempt.result := by
  rw [List.filterMap_cons]
  cases a.result <;> rfl

namespace Part

@[simp] theorem tokens_token (t : Token) : tokens (.token t) = [t] := by rw [tokens]

@[simp] theorem tokens_block (tries : List Attempt) (result : Option Block) :
    tokens (.block tries result) = tries.flatMap Attempt.tokens := by rw [tokens]

@[simp] theorem attempts_token (t : Token) : attempts (.token t) = [] := by rw [attempts]

@[simp] theorem attempts_block (tries : List Attempt) (result : Option Block) :
    attempts (.block tries result) = tries.flatMap Attempt.all := by rw [attempts]

def outcome? : Part Attempt → Option (Option Block)
  | .token _ => none
  | .block _ result => some result

/-- A block stands behind its opening brace. If it comes to anything, then to the statements that its
attempts gave, and its closing brace follows. -/
inductive Braced : List (Part Attempt) → Prop
  | nil : Braced []
  | token (t : Token) : Braced parts → Braced (parts ++ [.token t])
  | closed : Braced (parts ++ [.token opening]) → opening.kind = .symbol .lbrace →
      closing.kind = .symbol .rbrace →
      Braced (parts ++ [.token opening] ++
        [.block tries (some (tries.filterMap Attempt.result)), .token closing])
  | unclosed : Braced (parts ++ [.token opening]) → opening.kind = .symbol .lbrace →
      Braced (parts ++ [.token opening] ++ [.block tries none])

theorem Braced.tokens {parts : List (Part Attempt)} (h : Braced parts) (ts : List Token) :
    Braced (parts ++ ts.map .token) := by
  induction ts generalizing parts with
  | nil =>
    rw [List.map_nil, List.append_nil]
    exact h
  | cons t ts ih =>
    rw [List.map_cons, List.append_cons]
    exact ih (h.token t)

theorem Braced.head {parts : List (Part Attempt)} (h : Braced parts) :
    parts = [] ∨ ∃ t rest, parts = .token t :: rest := by
  have front : ∀ {parts rest : List (Part Attempt)} {u : Token},
      (parts ++ [.token u] = [] ∨ ∃ t rest, parts ++ [.token u] = .token t :: rest) →
      ∃ t rest', parts ++ [.token u] ++ rest = .token t :: rest' := by
    rintro parts rest u (hnil | ⟨t, rest', hparts⟩)
    · exact absurd hnil (by simp)
    · exact ⟨t, rest' ++ rest, by rw [hparts, List.cons_append]⟩
  induction h with
  | nil => exact .inl rfl
  | token t _ ih =>
    rcases ih with rfl | ⟨u, rest, rfl⟩
    · exact .inr ⟨t, [], rfl⟩
    · exact .inr ⟨u, rest ++ [.token t], rfl⟩
  | closed _ _ _ ih => exact .inr (front ih)
  | unclosed _ _ ih => exact .inr (front ih)

/-- What is behind the attempts in a block, by what comes of it. -/
inductive Closes (tries : List Attempt) : Option Block → List (Part Attempt) → Prop
  | brace : closing.kind = .symbol .rbrace →
      Closes tries (some (tries.filterMap Attempt.result)) [.token closing]
  | missing : Closes tries none []

theorem Closes.cons (h : Closes tries result last) (a : Attempt) :
    Closes (a :: tries) (result.map (a.result.toList ++ ·)) last := by
  cases h with
  | missing => exact .missing
  | brace hclosing =>
    rw [Option.map_some, ← Attempt.results_cons]
    exact .brace hclosing

theorem Closes.braced (h : Closes tries result last)
    (hbraced : Part.Braced (parts ++ [.token opening])) (hopening : opening.kind = .symbol .lbrace) :
    Part.Braced (parts ++ [.token opening] ++ .block tries result :: last) := by
  cases h with
  | brace hclosing => exact .closed hbraced hopening hclosing
  | missing => exact .unclosed hbraced hopening

theorem Closes.attempts (h : Closes tries result last) : last.flatMap Part.attempts = [] := by
  cases h with
  | brace => rw [List.flatMap_singleton, Part.attempts_token]
  | missing => rfl

theorem Closes.outcomes (h : Closes tries result last) : last.filterMap Part.outcome? = [] := by
  cases h <;> rfl

end Part

/-- The mistake ends what was read, semicolons behind it aside, or stands at the end of the text. -/
def SyntaxError.Ends (e : SyntaxError) (read : List Token) : Prop :=
  e.token.kind = .endOfInput ∨
    ∃ front more, read = front ++ e.token :: more ∧ ∀ t ∈ more, t.kind = .symbol .semicolon

theorem SyntaxError.Ends.append_left {e : SyntaxError} {read : List Token} (h : e.Ends read)
    (front : List Token) : e.Ends (front ++ read) := by
  rcases h with hend | ⟨front', more, rfl, hmore⟩
  · exact .inl hend
  · exact .inr ⟨front ++ front', more, (List.append_assoc ..).symm, hmore⟩

theorem SyntaxError.Ends.semicolons {e : SyntaxError} {read ts : List Token} (h : e.Ends read)
    (hts : ∀ t ∈ ts, t.kind = .symbol .semicolon) : e.Ends (read ++ ts) := by
  rcases h with hend | ⟨front, more, rfl, hmore⟩
  · exact .inl hend
  · exact .inr ⟨front, more ++ ts, List.append_assoc .., List.forall_mem_append.mpr ⟨hmore, hts⟩⟩

/-- What an attempt kept goes together: it took a token of its own first, it comes to a statement or
to one mistake and not to both, and goes no further than to that mistake; and the blocks of the
statement are those that it went through. -/
structure Attempt.Fits (a : Attempt) : Prop where
  first : ∃ t rest, a.parts = .token t :: rest
  settled : a.own.length = if a.result.isSome then 0 else 1
  ends : ∀ e ∈ a.own, e.Ends a.tokens
  braced : Part.Braced a.parts
  bodies : ∀ s, a.result = some s → a.parts.filterMap Part.outcome? = s.bodies.map some

-- ---------------------------------------------------------------------------
-- Tokens to come
-- ---------------------------------------------------------------------------

/-- The cursor gives these tokens, and then `stop` again and again. -/
def Cursor.Feeds (c : Cursor) (stop : Token) (us : List Token) : Prop :=
  ∀ k, c.call k = us[k]?.getD stop

theorem Cursor.Feeds.next {c : Cursor} (h : c.Feeds stop us) :
    c.next.1 = us.headD stop ∧ c.next.2.Feeds stop us.tail := by
  refine ⟨?_, fun k => ?_⟩
  · have hfirst := h 0
    rwa [Cursor.call, ← List.head?_eq_getElem?, ← List.headD_eq_head?_getD] at hfirst
  · have hnext := h (k + 1)
    rwa [Cursor.call, ← List.getElem?_tail] at hnext

namespace Parser

/-- What came so far is `done`; behind the current token come these, and then the end token. -/
structure Left (p : Parser) (stop : Token) (done : List (Part Attempt)) (us : List Token) :
    Prop where
  parts : p.parts = done
  braced : Part.Braced done
  peek : p.peek = us.headD stop
  feeds : p.cursor.Feeds stop us.tail
  proper : ∀ t ∈ us, t.kind ≠ .endOfInput

structure At (p : Parser) (stop : Token) (done : List (Part Attempt)) (us : List Token) :
    Prop where
  current : p.current = us.headD stop
  left : p.Left stop (done ++ (us.take 1).map .token) us.tail
  proper : ∀ t ∈ us, t.kind ≠ .endOfInput

theorem ident_proper : Token.Kind.ident ≠ .endOfInput := nofun

theorem keyword_proper (k : Keyword) : Token.Kind.keyword k ≠ .endOfInput := nofun

theorem symbol_proper (s : Symbol) : Token.Kind.symbol s ≠ .endOfInput := nofun

theorem kind_ne {t : Token} (hne : ∀ literal span, t = ⟨kind, literal, span⟩ → False) :
    t.kind ≠ kind := by
  rintro rfl
  exact hne t.literal t.span rfl

section
variable {stop : Token} (hstop : stop.kind = .endOfInput) {p : Parser} {us : List Token}
include hstop

theorem head_ne (hne : ∀ literal span ts, us = ⟨kind, literal, span⟩ :: ts → False)
    (hkind : kind ≠ .endOfInput) : (us.headD stop).kind ≠ kind := by
  cases us with
  | nil => exact hstop ▸ hkind.symm
  | cons t ts => exact kind_ne fun literal span ht => hne literal span ts (ht ▸ rfl)

theorem Left.peek_ne (hp : p.Left stop done us)
    (hne : ∀ literal span ts, us = ⟨kind, literal, span⟩ :: ts → False)
    (hkind : kind ≠ .endOfInput) : p.peek.kind ≠ kind := by
  rw [hp.peek]
  exact head_ne hstop hne hkind

theorem At.current_ne (hp : p.At stop done us)
    (hne : ∀ literal span ts, us = ⟨kind, literal, span⟩ :: ts → False)
    (hkind : kind ≠ .endOfInput) : p.current.kind ≠ kind := by
  rw [hp.current]
  exact head_ne hstop hne hkind

theorem partsOf_head (hproper : ∀ t ∈ us, t.kind ≠ .endOfInput) :
    partsOf (us.headD stop) = (us.take 1).map .token := by
  cases us with
  | nil => exact if_pos hstop
  | cons t ts => exact if_neg (hproper t List.mem_cons_self)

theorem Left.advanced (hp : p.Left stop done us) : p.advanced.At stop done us where
  current := hp.peek
  left :=
    { parts := by
        rw [← partsOf_head hstop hp.proper, ← hp.peek, ← hp.parts]
        rfl
      braced := hp.braced.tokens (us.take 1)
      peek := hp.feeds.next.1
      feeds := hp.feeds.next.2
      proper := fun t ht => hp.proper t (List.mem_of_mem_tail ht) }
  proper := hp.proper

end

end Parser

-- ---------------------------------------------------------------------------
-- What a step accounts for
-- ---------------------------------------------------------------------------

/-- The marks are tokens among those read off `us`, in their order and none twice, and then perhaps
the end token, if nothing is left. -/
def Placed (stop : Token) (us marks rest : List Token) : Prop :=
  ∃ read ends, us = read ++ rest ∧ (rest ≠ [] → ends = 0) ∧
    marks.Sublist (read ++ List.replicate ends stop)

theorem Placed.none (us : List Token) : Placed stop us [] us := ⟨[], 0, rfl, fun _ => rfl, .slnil⟩

theorem Placed.here (t : Token) (ts : List Token) : Placed stop (t :: ts) [t] ts :=
  ⟨[t], 0, rfl, fun _ => rfl, .refl _⟩

theorem Placed.atEnd : Placed stop [] [stop] [] := ⟨[], 1, rfl, fun h => absurd rfl h, .refl _⟩

theorem Placed.behind (h : Placed stop us marks rest) (t : Token) :
    Placed stop (t :: us) marks rest := by
  obtain ⟨read, ends, rfl, hends, hmarks⟩ := h
  exact ⟨t :: read, ends, rfl, hends, hmarks.cons t⟩

theorem Placed.trans (h : Placed stop us marks mid) (h' : Placed stop mid marks' rest) :
    Placed stop us (marks ++ marks') rest := by
  obtain ⟨read, ends, rfl, hends, hmarks⟩ := h
  obtain ⟨read', ends', rfl, hends', hmarks'⟩ := h'
  refine ⟨read ++ read', ends + ends', (List.append_assoc ..).symm, fun hrest => ?_, ?_⟩
  · have hmid : read' ++ rest ≠ [] := fun h => hrest (List.append_eq_nil_iff.mp h).2
    rw [hends hmid, hends' hrest]
  · have hall := hmarks.append hmarks'
    by_cases hmid : read' ++ rest = []
    · obtain ⟨rfl, rfl⟩ := List.append_eq_nil_iff.mp hmid
      rwa [List.nil_append, List.append_assoc, List.replicate_append_replicate,
        ← List.append_nil read] at hall
    · rwa [hends hmid, List.replicate_zero, List.append_nil, ← List.append_assoc,
        ← Nat.zero_add ends', ← hends hmid] at hall

/-- In the step the tokens `read` were taken and the attempts `tries` were made, and `own` are its
mistakes outside of them. -/
structure Step.Accounts (s : Step α n) (stop : Token) (us read : List Token) (tries : List Attempt)
    (own : List SyntaxError) : Prop where
  taken : us = read ++ s.rest
  errors : s.errors = tries.flatMap Attempt.own ++ own
  ends : ∀ e ∈ own, e.Ends read
  fits : ∀ a ∈ tries, a.Fits
  /-- No two attempts start at the same token. -/
  length : tries.length + s.rest.length ≤ n
  placed : Placed stop us (s.errors.map SyntaxError.token) s.rest

namespace Step

section
variable {us read : List Token}

theorem Accounts.weaken {s : Step α m} (h : s.Accounts stop us read tries own) (hle : m ≤ n) :
    (s.weaken hle).Accounts stop us read tries own :=
  ⟨h.taken, h.errors, h.ends, h.fits, Nat.le_trans h.length hle, h.placed⟩

theorem Accounts.behind {s : Step α n} (h : s.Accounts stop us read tries own) (t : Token) :
    s.Accounts stop (t :: us) (t :: read) tries own :=
  ⟨congrArg _ h.taken, h.errors, fun e he => (h.ends e he).append_left [t], h.fits, h.length,
    h.placed.behind t⟩

theorem Accounts.map {s : Step α n} (h : s.Accounts stop us read tries own) (f : α → β) :
    (s.map f).Accounts stop us read tries own :=
  ⟨h.taken, h.errors, h.ends, h.fits, h.length, h.placed⟩

theorem Accounts.trans {s : Step α n} {t : Step β s.rest.length} {u : Step γ n}
    (hs : s.Accounts stop us read tries []) (ht : t.Accounts stop s.rest read' tries' own)
    (herrors : u.errors = s.errors ++ t.errors) (hrest : u.rest = t.rest) :
    u.Accounts stop us (read ++ read') (tries ++ tries') own where
  taken := by rw [hrest, List.append_assoc, ← ht.taken, ← hs.taken]
  errors := by
    rw [herrors, hs.errors, ht.errors, List.flatMap_append, List.append_nil, List.append_assoc]
  ends := fun e he => (ht.ends e he).append_left read
  fits := List.forall_mem_append.mpr ⟨hs.fits, ht.fits⟩
  length := by
    have hfirst := hs.length
    have hsecond := ht.length
    rw [hrest, List.length_append]
    omega
  placed := by
    rw [herrors, hrest, List.map_append]
    exact hs.placed.trans ht.placed

theorem dropSemicolon_cases (us : List Token) :
    dropSemicolon us = us ∨ ∃ t, t.kind = .symbol .semicolon ∧ us = t :: dropSemicolon us := by
  unfold dropSemicolon
  split
  · exact .inr ⟨_, rfl, rfl⟩
  · exact .inl rfl

theorem Accounts.thenSemicolon {s : Step α n} (h : s.Accounts stop us read tries own)
    (hread : s.rest = more ++ dropSemicolon s.rest)
    (hmore : ∀ t ∈ more, t.kind = .symbol .semicolon) :
    s.thenSemicolon.Accounts stop us (read ++ more) tries own where
  taken := by
    rw [List.append_assoc]
    exact h.taken.trans (congrArg _ hread)
  errors := h.errors
  ends := fun e he => (h.ends e he).semicolons hmore
  fits := h.fits
  length := Nat.le_trans (Nat.add_le_add_left (length_dropSemicolon _) _) h.length
  placed := by
    have hskipped : Placed stop s.rest [] (dropSemicolon s.rest) := by
      rcases dropSemicolon_cases s.rest with hnone | ⟨t, -, hsome⟩
      · rw [hnone]
        exact .none _
      · have hbehind : Placed stop (t :: dropSemicolon s.rest) [] (dropSemicolon s.rest) :=
          (Placed.none _).behind t
        rwa [← hsome] at hbehind
    have hplaced := h.placed.trans hskipped
    rwa [List.append_nil] at hplaced

/-- An attempt that goes through `parts` and takes some tokens. -/
theorem Accounts.fits_attempt {s : Step Stmt n}
    (h : s.Accounts stop us (parts.flatMap Part.tokens) tries own)
    (hlt : s.rest.length < us.length) (honce : own.length = if s.result.isSome then 0 else 1)
    (hbraced : Part.Braced parts)
    (hbodies : ∀ t, s.result = some t → t.bodies.map some = parts.filterMap Part.outcome?) :
    Attempt.Fits ⟨parts, own, s.result⟩ where
  first := by
    refine hbraced.head.resolve_left fun hnil => ?_
    have hrest : us = s.rest := by
      rw [h.taken, hnil]
      rfl
    exact absurd (hrest ▸ hlt) (Nat.lt_irrefl _)
  settled := honce
  ends := by
    rw [Attempt.tokens]
    exact h.ends
  braced := hbraced
  bodies := fun t ht => (hbodies t ht).symm

end

end Step

namespace Parser

structure Noted (p p' : Parser) (errors own : List SyntaxError) (tries : List Attempt) : Prop where
  errors : p'.errors = p.errors ++ errors
  own : p'.own = p.own ++ own
  attempts : p'.attempts = p.attempts ++ tries

theorem Noted.refl (p : Parser) : p.Noted p [] [] [] :=
  ⟨(List.append_nil _).symm, (List.append_nil _).symm, (List.append_nil _).symm⟩

theorem Noted.trans {p p' p'' : Parser} {errors errors' own own' : List SyntaxError}
    (h : p.Noted p' errors own tries)
    (h' : p'.Noted p'' errors' own' tries') :
    p.Noted p'' (errors ++ errors') (own ++ own') (tries ++ tries') where
  errors := by rw [h'.errors, h.errors, List.append_assoc]
  own := by rw [h'.own, h.own, List.append_assoc]
  attempts := by rw [h'.attempts, h.attempts, List.append_assoc]

theorem Noted.since {p p' : Parser} {errors own : List SyntaxError}
    (h : p.advanced.Noted p' errors own tries) : p.Noted p' errors own tries :=
  ⟨h.errors, h.own, h.attempts⟩

section
variable {stop : Token} {p : Parser} {us : List Token}

theorem bind_eq {m : Action α} (hm : m p = some (a, p')) (next : α → Action β) :
    (m >>= next) p = next a p' := by
  simp only [bind, StateT.bind, hm, Option.bind_some]

theorem pure_map {f : Option α → Action (Option β)} {g : α → β} (hnone : f none = pure none)
    (hsome : ∀ a, f (some a) = pure (some (g a))) (result : Option α) :
    f result = pure (result.map g) := by
  cases result with
  | none => exact hnone
  | some a => exact hsome a

theorem expect_bind {f : Option Token → Action (Option α)} (hnone : f none = pure none) :
    (expect kind >>= f) p = if p.advanced.current.kind = kind
      then f (some p.advanced.current) p.advanced else fail (.missing kind) p.advanced := by
  have hexpect : expect kind p = (if p.advanced.current.kind = kind
      then pure (some p.advanced.current) else fail (.missing kind) : Action _) p.advanced := rfl
  split
  case isTrue hkind =>
    rw [if_pos hkind] at hexpect
    exact bind_eq hexpect f
  case isFalse hkind =>
    rw [if_neg hkind] at hexpect
    rw [bind_eq hexpect, hnone]
    rfl

theorem semicolon_left (hstop : stop.kind = .endOfInput) (hp : p.Left stop done us) :
    ∃ ts p', semicolon p = some ((), p') ∧ us = ts ++ Step.dropSemicolon us ∧
      (∀ t ∈ ts, t.kind = .symbol .semicolon) ∧
      p'.Left stop (done ++ ts.map .token) (Step.dropSemicolon us) ∧ p.Noted p' [] [] [] := by
  have hsemicolon : semicolon p =
      (if p.peek.kind = .symbol .semicolon then advance else pure () : Action _) p := rfl
  unfold Step.dropSemicolon
  split
  · rename_i literal span ts
    have hpeek : p.peek.kind = .symbol .semicolon := congrArg Token.kind hp.peek
    rw [if_pos hpeek] at hsemicolon
    exact ⟨[⟨_, literal, span⟩], p.advanced, hsemicolon, rfl, by simp, (hp.advanced hstop).left,
      (Noted.refl p.advanced).since⟩
  · rename_i hne
    rw [if_neg (hp.peek_ne hstop hne (symbol_proper _))] at hsemicolon
    have hleft : p.Left stop (done ++ []) us := by rwa [List.append_nil]
    exact ⟨[], p, hsemicolon, rfl, List.forall_mem_nil _, hleft, .refl p⟩

end

/-- The action comes back with what the step has read of `us`, leaves what the step leaves and notes
its mistakes. What it went through is added to `done`, and the blocks of the result are those in it
and `before`. One mistake is not of an attempt that was made on the way if there is no result, and
else none. -/
def Does [Bodied α] (stop : Token) (done : List (Part Attempt)) (before : List Block) (p : Parser)
    (m : Action (Option α)) (us : List Token) (s : Step α n) : Prop :=
  ∃ parts own p', m p = some (s.result, p') ∧ p'.Left stop (done ++ parts) s.rest ∧
    p.Noted p' s.errors own [] ∧
    s.Accounts stop us (parts.flatMap Part.tokens) (parts.flatMap Part.attempts) own ∧
    own.length = (if s.result.isSome then 0 else 1) ∧
    ∀ a, s.result = some a → (bodies a).map some = before.map some ++ parts.filterMap Part.outcome?

section
variable [Bodied α] [Bodied β] {stop : Token} {done : List (Part Attempt)} {before : List Block}
  {p : Parser} {us : List Token}

theorem does_done (hp : p.Left stop done us) (a : α) (hbodies : bodies a = before) :
    Does stop done before p (pure (some a)) us (Step.done a us) := by
  have hleft : p.Left stop (done ++ []) us := by rwa [List.append_nil]
  refine ⟨[], [], p, rfl, hleft, .refl p, ?_, rfl, ?_⟩
  · exact ⟨rfl, rfl, List.forall_mem_nil _, List.forall_mem_nil _, Nat.le_of_eq (Nat.zero_add _),
      .none us⟩
  · intro b hb
    obtain rfl : a = b := Option.some.inj hb
    rw [hbodies, List.filterMap_nil, List.append_nil]

theorem does_fail (hp : p.Left stop (done ++ [.token t]) ts) (ht : p.current = t)
    (cause : SyntaxError.Cause) :
    Does stop done before p (fail cause) (t :: ts) (Step.fail ⟨cause, t⟩ ts : Step α _) := by
  refine ⟨[.token t], [⟨cause, t⟩], p.noted ⟨cause, t⟩, ?_,
    ⟨hp.parts, hp.braced, hp.peek, hp.feeds, hp.proper⟩,
    ⟨rfl, rfl, (List.append_nil _).symm⟩, ?_, rfl, nofun⟩
  · rw [← ht]
    rfl
  · simp only [List.flatMap_singleton, Part.tokens_token, Part.attempts_token]
    have hends : SyntaxError.Ends ⟨cause, t⟩ [t] := .inr ⟨[], [], rfl, List.forall_mem_nil _⟩
    exact ⟨rfl, rfl, List.forall_mem_singleton.mpr hends, List.forall_mem_nil _,
      Nat.le_of_eq (Nat.zero_add _), .here t ts⟩

theorem does_failEnd (hstop : stop.kind = .endOfInput) (hp : p.At stop done [])
    (cause : SyntaxError.Cause) :
    Does stop done before p (fail cause) [] (Step.failNext stop cause [] : Step α _) := by
  have hleft := hp.left
  have hcurrent : p.current = stop := hp.current
  refine ⟨[], [⟨cause, stop⟩], p.noted ⟨cause, stop⟩, ?_,
    ⟨hleft.parts, hleft.braced, hleft.peek, hleft.feeds, List.forall_mem_nil _⟩,
    ⟨rfl, rfl, (List.append_nil _).symm⟩,
    ⟨rfl, rfl, List.forall_mem_singleton.mpr (.inl hstop), List.forall_mem_nil _, Nat.le_refl _,
      .atEnd⟩, rfl, nofun⟩
  rw [← hcurrent]
  rfl

theorem Does.weaken {m : Action (Option α)} {s : Step α n} (h : Does stop done before p m us s)
    (hle : n ≤ k) : Does stop done before p m us (s.weaken hle) := by
  obtain ⟨parts, own, p', hrun, hleft, hnoted, haccounts, honce, hbodies⟩ := h
  exact ⟨parts, own, p', hrun, hleft, hnoted, haccounts.weaken hle, honce, hbodies⟩

theorem Does.congr {m m' : Action (Option α)} {s : Step α n} (h : Does stop done before p m us s)
    (hm : m' p = m p) : Does stop done before p m' us s := by
  rw [Does, hm]
  exact h

theorem Does.behind {m : Action (Option α)} {s : Step α n}
    (h : Does stop (done ++ [.token t]) before p m us s) :
    Does stop done before p m (t :: us) s := by
  obtain ⟨parts, own, p', hrun, hleft, hnoted, haccounts, honce, hbodies⟩ := h
  refine ⟨.token t :: parts, own, p', hrun, ?_, hnoted, ?_, honce, hbodies⟩
  · rwa [List.append_cons]
  · rw [List.flatMap_cons, List.flatMap_cons, Part.tokens_token, Part.attempts_token]
    exact haccounts.behind t

theorem Does.consumed {m : Action (Option α)} {s : Step α n} {hle : n ≤ k}
    (h : Does stop (done ++ [.token t]) before p m us s) :
    Does stop done before p m (t :: us) (s.weaken hle) := (h.weaken hle).behind

theorem Does.bind {m : Action (Option α)} {s : Step α n} {f : Option α → Action (Option β)}
    {next : α → (ts : List Token) → ts.length ≤ n → Step β ts.length}
    (h : Does stop done [] p m us s) (hnone : f none = pure none)
    (hnext : ∀ a rest hle p' done', p'.Left stop done' rest →
      Does stop done' (before ++ bodies a) p' (f (some a)) rest (next a rest hle)) :
    Does stop done before p (m >>= f) us (s.bind next) := by
  obtain ⟨parts, own, p', hrun, hleft, hnoted, haccounts, honce, hbodies⟩ := h
  obtain ⟨result, errors, rest, hle⟩ := s
  cases result with
  | none =>
    refine ⟨parts, own, p', ?_, hleft, hnoted, ?_, honce, nofun⟩
    · rw [bind_eq hrun, hnone]
      rfl
    · exact ⟨haccounts.taken, haccounts.errors, haccounts.ends, haccounts.fits, haccounts.length,
        haccounts.placed⟩
  | some a =>
    obtain rfl : own = [] := List.length_eq_zero_iff.mp honce
    obtain ⟨parts', own', p'', hrun', hleft', hnoted', haccounts', honce', hbodies'⟩ :=
      hnext a rest hle p' _ hleft
    refine ⟨parts ++ parts', own', p'', ?_, ?_, hnoted.trans hnoted', ?_, honce', fun b hb => ?_⟩
    · rw [bind_eq hrun]
      exact hrun'
    · rwa [← List.append_assoc]
    · rw [List.flatMap_append, List.flatMap_append]
      exact haccounts.trans haccounts' rfl rfl
    · rw [hbodies' b hb, List.map_append, hbodies a rfl, List.filterMap_append, List.map_nil,
        List.nil_append, List.append_assoc]

theorem Does.map {m : Action (Option α)} {s : Step α n} {f : Option α → Action (Option β)}
    {g : α → β} (h : Does stop done [] p m us s) (hnone : f none = pure none)
    (hsome : ∀ a, f (some a) = pure (some (g a)))
    (hg : ∀ a, bodies (g a) = before ++ bodies a) :
    Does stop done before p (m >>= f) us (s.map g) := by
  obtain ⟨parts, own, p', hrun, hleft, hnoted, haccounts, honce, hbodies⟩ := h
  refine ⟨parts, own, p', ?_, hleft, hnoted, haccounts.map g, ?_, fun b hb => ?_⟩
  · rw [bind_eq hrun, pure_map hnone hsome]
    rfl
  · rw [honce, Step.map, Option.isSome_map]
  · obtain ⟨a, ha, rfl⟩ := Option.map_eq_some_iff.mp hb
    rw [hg, List.map_append, hbodies a ha, List.map_nil, List.nil_append]

theorem Does.advanced {m m' : Action (Option α)} {s : Step α n}
    (h : Does stop done before p.advanced m us s) (hm : m' p = m p.advanced) :
    Does stop done before p m' us s := by
  obtain ⟨parts, own, p', hrun, hleft, hnoted, haccounts, honce, hbodies⟩ := h
  exact ⟨parts, own, p', hm.trans hrun, hleft, hnoted.since, haccounts, honce, hbodies⟩

theorem does_get {f : Parser → Action (Option α)} {s : Step α n}
    (h : Does stop done before p (f p) us s) : Does stop done before p (get >>= f) us s := h

section
variable {c : Parser → Prop} [DecidablePred c] {yes no : Parser → Action (Option α)} {s : Step α n}

theorem does_then (hc : c p) (h : Does stop done before p (yes p) us s) :
    Does stop done before p (get >>= fun p => if c p then yes p else no p) us s :=
  does_get (by rwa [if_pos hc])

theorem does_else (hc : ¬c p) (h : Does stop done before p (no p) us s) :
    Does stop done before p (get >>= fun p => if c p then yes p else no p) us s :=
  does_get (by rwa [if_neg hc])

end

section
variable (hstop : stop.kind = .endOfInput)
include hstop

theorem does_advance {f : Unit → Action (Option α)} {s : Step α n} (hp : p.Left stop done us)
    (h : p.advanced.At stop done us → Does stop done before p.advanced (f ()) us s) :
    Does stop done before p (advance >>= f) us s := (h (hp.advanced hstop)).advanced rfl

theorem does_found {f : Option Token → Action (Option α)} {s : Step α n} {hle : n ≤ k}
    (hp : p.Left stop done (t :: ts)) (hkind : t.kind = kind) (hnone : f none = pure none)
    (h : p.advanced.Left stop (done ++ [.token t]) ts →
      Does stop (done ++ [.token t]) before p.advanced (f (some t)) ts s) :
    Does stop done before p (expect kind >>= f) (t :: ts) (s.weaken hle) := by
  have hat := hp.advanced hstop
  have hcurrent : p.advanced.current = t := hat.current
  refine Does.advanced (Does.consumed (h hat.left)) ?_
  rw [expect_bind hnone, hcurrent, if_pos hkind]

theorem does_expect {f : Option Token → Action (Option α)}
    {next : Token → (rest : List Token) → rest.length < us.length → Step α rest.length}
    (hp : p.Left stop done us) (hkind : kind ≠ .endOfInput) (hnone : f none = pure none)
    (h : ∀ t rest hlt, us = t :: rest → t.kind = kind →
      p.advanced.Left stop (done ++ [.token t]) rest →
      Does stop (done ++ [.token t]) before p.advanced (f (some t)) rest (next t rest hlt)) :
    Does stop done before p (expect kind >>= f) us (Step.expect stop kind us next) := by
  have hat := hp.advanced hstop
  cases us with
  | nil =>
    refine (does_failEnd hstop hat (.missing kind)).advanced ?_
    have hcurrent : p.advanced.current = stop := hat.current
    rw [expect_bind hnone, hcurrent, hstop, if_neg hkind.symm]
  | cons t rest =>
    have hcurrent : p.advanced.current = t := hat.current
    rw [Step.expect]
    split
    case isTrue hkind => exact does_found hstop hp hkind hnone (h t rest _ rfl hkind)
    case isFalse hkind =>
      refine ((does_fail hat.left hcurrent (.missing kind)).weaken _).advanced ?_
      rw [expect_bind hnone, hcurrent, if_neg hkind]

theorem Does.thenSemicolon {m : Action (Option α)} {s : Step α n}
    {f : Option α → Action (Option β)} {g : α → β} (h : Does stop done [] p m us s)
    (hnone : f none = pure none) (hsome : ∀ a, f (some a) = pure (some (g a)))
    (hg : ∀ a, bodies (g a) = bodies a) :
    Does stop done [] p (m >>= fun result => semicolon >>= fun _ => f result) us
      (s.thenSemicolon.map g) := by
  obtain ⟨parts, own, p', hrun, hleft, hnoted, haccounts, honce, hbodies⟩ := h
  obtain ⟨ts, p'', hrun', hread, hsemicolons, hleft', hnoted'⟩ := semicolon_left hstop hleft
  have hboth := hnoted.trans hnoted'
  rw [List.append_nil, List.append_nil, List.append_nil] at hboth
  have htokens : (ts.map Part.token).flatMap Part.tokens = ts := by
    simp [List.flatMap_map, List.flatMap_singleton']
  have hattempts : (ts.map Part.token).flatMap Part.attempts = [] := by
    simp [List.flatMap_map]
  have houtcomes : (ts.map Part.token).filterMap Part.outcome? = [] := by
    simp [List.filterMap_map, Part.outcome?]
  refine ⟨parts ++ ts.map .token, own, p'', ?_, ?_, hboth, ?_, ?_, fun b hb => ?_⟩
  · rw [bind_eq hrun, bind_eq hrun', pure_map hnone hsome]
    rfl
  · rwa [← List.append_assoc]
  · rw [List.flatMap_append, List.flatMap_append, htokens, hattempts, List.append_nil]
    exact (haccounts.thenSemicolon hread hsemicolons).map g
  · rw [honce, Step.map, Option.isSome_map]
    rfl
  · obtain ⟨a, ha, rfl⟩ := Option.map_eq_some_iff.mp hb
    rw [hg, hbodies a ha, List.filterMap_append, houtcomes, List.append_nil]

end

end

-- ---------------------------------------------------------------------------
-- Statements and blocks
-- ---------------------------------------------------------------------------

section
variable {stop : Token} {p : Parser} {us : List Token}

/-- An attempt to read a statement was made from `us` on, and it comes to what the step comes to. -/
def Attempts (stop : Token) (p : Parser) (us : List Token) (s : Step Stmt n) : Prop :=
  ∃ a p', Construct.statement.read p = some (s.result, p') ∧ p'.Left stop [] s.rest ∧
    p.Noted p' s.errors [] [a] ∧ a.result = s.result ∧
    (s.weaken (Nat.le_succ n)).Accounts stop us a.tokens a.all []

theorem attempts_statement {s : Step Stmt n} (hp : p.At stop [] us) (hlt : n < us.length)
    (h : At { p with own := [] } stop [] us →
      Does stop [] [] { p with own := [] } Construct.sentence.read us s) :
    Attempts stop p us s := by
  have hbegun : At { p with own := [] } stop [] us := ⟨hp.current,
    ⟨hp.left.parts, hp.left.braced, hp.left.peek, hp.left.feeds, hp.left.proper⟩, hp.proper⟩
  obtain ⟨parts, own, p', hrun, hleft, hnoted, haccounts, honce, hbodies⟩ := h hbegun
  have hparts : p'.parts = parts := hleft.parts
  have hown : p'.own = own := hnoted.own
  have hstart : start p = some (p.own, { p with own := [] }) := rfl
  have hfits : Attempt.Fits ⟨parts, own, s.result⟩ :=
    haccounts.fits_attempt (Nat.lt_of_le_of_lt s.rest_le hlt) honce hleft.braced hbodies
  obtain ⟨a, ha⟩ : ∃ a : Attempt, a = ⟨parts, own, s.result⟩ := ⟨_, rfl⟩
  have hall : a.all = parts.flatMap Part.attempts ++ [a] := by rw [a.all_eq, ha]
  refine ⟨a, { p' with own := p.own, parts := [], attempts := p'.attempts ++ [a] }, ?_,
    ⟨rfl, .nil, hleft.peek, hleft.feeds, hleft.proper⟩,
    ⟨hnoted.errors, (List.append_nil _).symm, ?_⟩, by rw [ha],
    ⟨?_, ?_, List.forall_mem_nil _, ?_, ?_, haccounts.placed⟩⟩
  · rw [Construct.read, bind_eq hstart, bind_eq hrun, ha, ← hparts, ← hown]
    rfl
  · rw [hnoted.attempts, List.append_nil]
  · rw [ha, Attempt.tokens]
    exact haccounts.taken
  · rw [hall, List.flatMap_append, List.flatMap_singleton, List.append_nil, ha]
    exact haccounts.errors
  · rw [hall]
    exact List.forall_mem_append.mpr ⟨haccounts.fits, List.forall_mem_singleton.mpr (ha ▸ hfits)⟩
  · have hlength := Nat.succ_le_succ haccounts.length
    rw [hall, List.length_append, List.length_singleton, Nat.add_right_comm]
    exact hlength

/-- The action reads a block from `us` on, each of its statements in an attempt, up to its end. -/
def Lists (stop : Token) (p : Parser) (m : Action (Option Block)) (us : List Token)
    (s : Step Block n) : Prop :=
  ∃ tries last own p', m p = some (s.result, p') ∧ p'.Left stop last s.rest ∧
    p.Noted p' s.errors own tries ∧ Part.Closes tries s.result last ∧
    s.Accounts stop us (tries.flatMap Attempt.tokens ++ last.flatMap Part.tokens)
      (tries.flatMap Attempt.all) own ∧
    own.length = (if s.result.isSome then 0 else 1)

theorem lists_get {f : Parser → Action (Option Block)} {s : Step Block n}
    (h : Lists stop p (f p) us s) : Lists stop p (get >>= f) us s := h

theorem lists_missing (hstop : stop.kind = .endOfInput) (hp : p.At stop [] []) :
    Lists stop p (fail (.missing (.symbol .rbrace))) []
      (Step.failNext stop (.missing (.symbol .rbrace)) []) := by
  have hleft := hp.left
  have hcurrent : p.current = stop := hp.current
  refine ⟨[], [], [⟨.missing (.symbol .rbrace), stop⟩], p.noted ⟨.missing (.symbol .rbrace), stop⟩,
    ?_, ⟨hleft.parts, hleft.braced, hleft.peek, hleft.feeds, List.forall_mem_nil _⟩,
    ⟨rfl, rfl, (List.append_nil _).symm⟩, .missing,
    ⟨rfl, rfl, List.forall_mem_singleton.mpr (.inl hstop), List.forall_mem_nil _, Nat.le_refl _,
      .atEnd⟩, rfl⟩
  rw [← hcurrent]
  rfl

theorem lists_brace (hp : p.At stop [] (t :: ts)) (ht : t.kind = .symbol .rbrace) :
    Lists stop p (pure (some [])) (t :: ts) ((Step.done [] ts).weaken (Nat.le_succ _)) := by
  refine ⟨[], [.token t], [], p, rfl, hp.left, .refl p, .brace ht, ?_, rfl⟩
  simp only [List.flatMap_nil, List.nil_append, List.flatMap_singleton, Part.tokens_token]
  exact ⟨rfl, rfl, List.forall_mem_nil _, List.forall_mem_nil _, by simp [Step.weaken, Step.done],
    (Placed.none ts).behind t⟩

theorem Attempts.thenBlock {s : Step Stmt n}
    {next : (ts : List Token) → ts.length ≤ n → Step Block ts.length}
    {f : Option Stmt → Option Block → Action (Option Block)} (h : Attempts stop p us s)
    (hstop : stop.kind = .endOfInput) (hnone : ∀ result, f result none = pure none)
    (hsome : ∀ result body, f result (some body) = pure (some (result.toList ++ body)))
    (hnext : ∀ rest hle p', p'.At stop [] rest →
      Lists stop p' Construct.block.read rest (next rest hle)) :
    Lists stop p (Construct.statement.read >>= fun result =>
        advance >>= fun _ => Construct.block.read >>= f result) us
      ((s.thenRest next).weaken (Nat.le_succ n)) := by
  obtain ⟨a, p', hrun, hleft, hnoted, hresult, haccounts⟩ := h
  obtain ⟨tries, last, own, p'', hrun', hleft', hnoted', hcloses, haccounts', honce⟩ :=
    hnext _ s.rest_le _ (hleft.advanced hstop)
  refine ⟨a :: tries, last, own, p'', ?_, hleft', hnoted.trans hnoted'.since, ?_, ?_, ?_⟩
  · have hadvance : advance p' = some ((), p'.advanced) := rfl
    rw [bind_eq hrun, bind_eq hadvance, bind_eq hrun', pure_map (hnone _) (hsome _)]
    rfl
  · have hkept := hcloses.cons a
    rwa [hresult] at hkept
  · rw [List.flatMap_cons, List.flatMap_cons, List.append_assoc]
    exact haccounts.trans haccounts' rfl rfl
  · rw [honce]
    simp only [Step.weaken, Step.thenRest, Option.isSome_map]

theorem does_braced {s : Step Block n} (hstop : stop.kind = .endOfInput)
    (hp : p.Left stop (done ++ [.token t]) us) (ht : t.kind = .symbol .lbrace)
    (h : ∀ p', p'.At stop [] us → Lists stop p' Construct.block.read us s) :
    Does stop (done ++ [.token t]) [] p Construct.braced.read us s := by
  have hentered : Left { p with parts := [], attempts := [] } stop [] us :=
    ⟨rfl, .nil, hp.peek, hp.feeds, hp.proper⟩
  obtain ⟨tries, last, own, p', hrun, hleft, hnoted, hcloses, haccounts, honce⟩ :=
    h _ (hentered.advanced hstop)
  have hattempts : p'.attempts = tries := hnoted.attempts
  have henter : enter p = some ((p.parts, p.attempts), { p with parts := [], attempts := [] }) := rfl
  have hadvance : advance { p with parts := [], attempts := [] } =
    some ((), advanced { p with parts := [], attempts := [] }) := rfl
  refine ⟨.block tries s.result :: last, own,
    { p' with parts := p.parts ++ .block tries s.result :: last, attempts := p.attempts }, ?_,
    ⟨by rw [hp.parts], hcloses.braced hp.braced ht, hleft.peek, hleft.feeds, hleft.proper⟩,
    ⟨hnoted.errors, hnoted.own, (List.append_nil _).symm⟩, ?_, honce, ?_⟩
  · rw [Construct.read, bind_eq henter, bind_eq hadvance, bind_eq hrun, ← hattempts, ← hleft.parts]
    rfl
  · rw [List.flatMap_cons, List.flatMap_cons, Part.tokens_block, Part.attempts_block,
      hcloses.attempts, List.append_nil]
    exact haccounts
  · intro body hbody
    rw [List.filterMap_cons, hcloses.outcomes, hbody]
    rfl

end

end Parser

end TinyScript
