import TinyScript.Syntax.Parse

/-!
# A parser with fields

The parser as an object that reads a text from its cursor: the token it is at and the one behind
that are fields of it, and so are the mistakes. A construct starts with the parser at its first token
and leaves it at its last one, or at the token that does not fit. At the end of the text the end
token comes again and again, and nothing bounds how often it is asked for: an action gives `none` if
it never comes back, and that none does is for the proofs to show.

What is kept besides is every attempt to read a statement: the tokens it went through, the blocks
that it read on the way with the attempts made in them, the mistakes of its own, which are those
noted while it was the innermost statement being read, and its outcome.
-/

namespace TinyScript

/-- What an attempt goes through: a token of its own, or a block with the attempts made in it and
with what came of it. -/
inductive Part (α : Type) where
  | token (t : Token)
  | block (tries : List α) (result : Option Block)

structure Attempt where
  parts : List (Part Attempt)
  own : List SyntaxError
  result : Option Stmt

structure Parser where
  cursor : Cursor
  current : Token
  peek : Token
  errors : List SyntaxError
  /-- The mistakes so far of the statement that is being read. -/
  own : List SyntaxError
  parts : List (Part Attempt)
  /-- The attempts so far in the innermost block, or in the program outside of blocks. -/
  attempts : List Attempt

namespace Parser

/-- The end token is no part of a statement. -/
def partsOf (t : Token) : List (Part Attempt) := if t.kind = .endOfInput then [] else [.token t]

def new (source : String) : Parser :=
  let first := (Cursor.start source).next
  let second := first.2.next
  ⟨second.2, first.1, second.1, [], [], partsOf first.1, []⟩

abbrev Action := StateT Parser Option

def advanced (p : Parser) : Parser :=
  { p with
    current := p.peek, peek := p.cursor.next.1, cursor := p.cursor.next.2,
    parts := p.parts ++ partsOf p.peek }

def noted (e : SyntaxError) (p : Parser) : Parser :=
  { p with errors := p.errors ++ [e], own := p.own ++ [e] }

def advance : Action Unit := modify advanced

/-- Notes a mistake at the current token, which ends the construct. -/
def fail (cause : SyntaxError.Cause) : Action (Option α) := do
  modify fun p => p.noted ⟨cause, p.current⟩
  return none

def expect (kind : Token.Kind) : Action (Option Token) := do
  advance
  let p ← get
  if p.current.kind = kind then return some p.current
  fail (.missing kind)

def semicolon : Action Unit := do
  let p ← get
  if p.peek.kind = .symbol .semicolon then advance

/-- Starts an attempt; gives the mistakes so far of the statement around it. -/
def start : Action (List SyntaxError) := modifyGet fun p => (p.own, { p with own := [] })

def finish (outer : List SyntaxError) (result : Option Stmt) : Action Unit :=
  modify fun p =>
    { p with own := outer, parts := [], attempts := p.attempts ++ [⟨p.parts, p.own, result⟩] }

/-- Starts a block; gives the parts of the statement around it and the attempts around that. -/
def enter : Action (List (Part Attempt) × List Attempt) :=
  modifyGet fun p => ((p.parts, p.attempts), { p with parts := [], attempts := [] })

def leave (outer : List (Part Attempt) × List Attempt) (result : Option Block) : Action Unit :=
  modify fun p =>
    { p with parts := outer.1 ++ .block p.attempts result :: p.parts, attempts := outer.2 }

-- ---------------------------------------------------------------------------
-- Constructs
-- ---------------------------------------------------------------------------

/-- What there is to read, by what comes of it. -/
inductive Construct : Type → Type
  | moreParams : Construct (Option (List String))
  | params : Construct (Option (List String))
  | expression (level : Precedence) : Construct (Option Expr)
  | operand (t : Token) : Construct (Option Expr)
  | unary (op : UnaryOp) : Construct (Option Expr)
  | grouped : Construct (Option Expr)
  | conditional : Construct (Option Expr)
  | alternative (test : Expr) (yes : Block) : Construct (Option Expr)
  | function : Construct (Option Expr)
  | continued (level : Precedence) (left : Expr) : Construct (Option Expr)
  | extended (level : Precedence) (left : Expr) (kind : Token.Kind) : Construct (Option Expr)
  | items (close : Token.Kind) : Construct (Option (List Expr))
  | moreItems (close : Token.Kind) : Construct (Option (List Expr))
  | pairs : Construct (Option (List (Expr × Expr)))
  | morePairs (pair : Expr × Expr) : Construct (Option (List (Expr × Expr)))
  /-- A block behind its opening brace, which is kept with its outcome. -/
  | braced : Construct (Option Block)
  | block : Construct (Option Block)
  /-- An attempt to read a statement, which is kept with its outcome. -/
  | statement : Construct (Option Stmt)
  | sentence : Construct (Option Stmt)
  | named : Construct (Option Stmt)
  | phrase : Construct (Option Stmt)
  | declaration (m : Mutability) : Construct (Option Stmt)
  | assignment : Construct (Option Stmt)
  /-- A bare `return` leaves a closing brace alone. -/
  | return_ : Construct (Option Stmt)
  | program : Construct Program

def Construct.read (c : Construct α) : Action α :=
  match c with
  | .moreParams => do
    let p ← get
    if p.peek.kind = .symbol .comma then
      advance
      let some name ← expect .ident | return none
      let some names ← Construct.moreParams |>.read | return none
      return some (name.literal :: names)
    let some _ ← expect (.symbol .rparen) | return none
    return some []
  | .params => do
    let p ← get
    if p.peek.kind = .symbol .rparen then
      advance
      return some []
    let some name ← expect .ident | return none
    let some names ← Construct.moreParams |>.read | return none
    return some (name.literal :: names)
  | .expression level => do
    let p ← get
    let some left ← Construct.operand p.current |>.read | return none
    Construct.continued level left |>.read
  | .operand t => do
    match t.kind with
    | .ident => return some (.ident t.literal)
    | .integer =>
      match Parse.int? t.literal with
      | some n => return some (.int n)
      | none => fail .tooLarge
    | .string => return some (.str t.literal)
    | .keyword .true_ => return some (.bool true)
    | .keyword .false_ => return some (.bool false)
    | .keyword .null => return some .null
    | .symbol .bang => Construct.unary .not |>.read
    | .symbol .minus => Construct.unary .negate |>.read
    | .symbol .lparen => Construct.grouped |>.read
    | .symbol .lbracket =>
      let some es ← Construct.items (.symbol .rbracket) |>.read | return none
      return some (.array es)
    | .symbol .lbrace =>
      let some ps ← Construct.pairs |>.read | return none
      return some (.hash ps)
    | .keyword .if_ => Construct.conditional |>.read
    | .keyword .func => Construct.function |>.read
    | _ => fail .notAnExpression
  | .unary op => do
    advance
    let some e ← Construct.expression .unary |>.read | return none
    return some (.unary op e)
  | .grouped => do
    advance
    let some e ← Construct.expression .lowest |>.read | return none
    let some _ ← expect (.symbol .rparen) | return none
    return some e
  | .conditional => do
    let some _ ← expect (.symbol .lparen) | return none
    advance
    let some test ← Construct.expression .lowest |>.read | return none
    let some _ ← expect (.symbol .rparen) | return none
    let some _ ← expect (.symbol .lbrace) | return none
    let some yes ← Construct.braced |>.read | return none
    Construct.alternative test yes |>.read
  | .alternative test yes => do
    let p ← get
    if p.peek.kind = .keyword .else_ then
      advance
      let some _ ← expect (.symbol .lbrace) | return none
      let some no ← Construct.braced |>.read | return none
      return some (.cond test yes (some no))
    return some (.cond test yes none)
  | .function => do
    let some _ ← expect (.symbol .lparen) | return none
    let some names ← Construct.params |>.read | return none
    let some _ ← expect (.symbol .lbrace) | return none
    let some body ← Construct.braced |>.read | return none
    return some (.func names body)
  | .continued level left => do
    let p ← get
    if p.peek.kind ≠ .symbol .semicolon ∧ level < Precedence.ofKind p.peek.kind then
      Construct.extended level left p.peek.kind |>.read
    else return some left
  | .extended level left kind => do
    match kind with
    | .symbol .lparen =>
      advance
      let some args ← Construct.items (.symbol .rparen) |>.read | return none
      Construct.continued level (.call left args) |>.read
    | .symbol .lbracket =>
      advance
      advance
      let some position ← Construct.expression .lowest |>.read | return none
      let some _ ← expect (.symbol .rbracket) | return none
      Construct.continued level (.index left position) |>.read
    | .symbol s =>
      match BinaryOp.ofSymbol? s with
      | some op =>
        advance
        advance
        let some right ← Construct.expression (Precedence.ofKind kind) |>.read | return none
        Construct.continued level (.binary op left right) |>.read
      | none => return some left
    | _ => return some left
  | .items close => do
    let p ← get
    if p.peek.kind = close then
      advance
      return some []
    advance
    let some e ← Construct.expression .lowest |>.read | return none
    let some es ← Construct.moreItems close |>.read | return none
    return some (e :: es)
  | .moreItems close => do
    let p ← get
    if p.peek.kind = .symbol .comma then
      advance
      advance
      let some e ← Construct.expression .lowest |>.read | return none
      let some es ← Construct.moreItems close |>.read | return none
      return some (e :: es)
    let some _ ← expect close | return none
    return some []
  | .pairs => do
    let p ← get
    if p.peek.kind = .symbol .rbrace then
      let some _ ← expect (.symbol .rbrace) | return none
      return some []
    advance
    let some key ← Construct.expression .lowest |>.read | return none
    let some _ ← expect (.symbol .colon) | return none
    advance
    let some value ← Construct.expression .lowest |>.read | return none
    Construct.morePairs (key, value) |>.read
  | .morePairs pair => do
    let p ← get
    if p.peek.kind = .symbol .rbrace then
      let some ps ← Construct.pairs |>.read | return none
      return some (pair :: ps)
    let some _ ← expect (.symbol .comma) | return none
    let some ps ← Construct.pairs |>.read | return none
    return some (pair :: ps)
  | .braced => do
    let outer ← enter
    advance
    let result ← Construct.block |>.read
    leave outer result
    return result
  | .block => do
    let p ← get
    if p.current.kind = .symbol .rbrace then return some []
    if p.current.kind = .endOfInput then return ← fail (.missing (.symbol .rbrace))
    let result ← Construct.statement |>.read
    advance
    let some body ← Construct.block |>.read | return none
    return some (result.toList ++ body)
  | .statement => do
    let outer ← start
    let result ← Construct.sentence |>.read
    finish outer result
    return result
  | .sentence => do
    let p ← get
    match p.current.kind with
    | .keyword .var => Construct.declaration .mutable |>.read
    | .keyword .val => Construct.declaration .fixed |>.read
    | .keyword .return_ => Construct.return_ |>.read
    | .ident => Construct.named |>.read
    | _ => Construct.phrase |>.read
  | .named => do
    let p ← get
    if p.peek.kind = .symbol .assign then Construct.assignment |>.read
    else Construct.phrase |>.read
  | .phrase => do
    let result ← Construct.expression .lowest |>.read
    semicolon
    let some e := result | return none
    return some (.expr e)
  | .declaration m => do
    let some name ← expect .ident | return none
    let some _ ← expect (.symbol .assign) | return none
    advance
    let result ← Construct.expression .lowest |>.read
    semicolon
    let some e := result | return none
    return some (.declare m name.literal e)
  | .assignment => do
    let p ← get
    let some _ ← expect (.symbol .assign) | return none
    advance
    let result ← Construct.expression .lowest |>.read
    semicolon
    let some e := result | return none
    return some (.assign p.current.literal e)
  | .return_ => do
    let p ← get
    if p.peek.kind = .symbol .rbrace ∨ p.peek.kind = .endOfInput then return some (.ret .null)
    if p.peek.kind = .symbol .semicolon then
      advance
      return some (.ret .null)
    advance
    let result ← Construct.expression .lowest |>.read
    semicolon
    let some e := result | return none
    return some (.ret e)
  | .program => do
    let p ← get
    if p.current.kind = .endOfInput then return []
    let result ← Construct.statement |>.read
    advance
    let body ← Construct.program |>.read
    return result.toList ++ body
partial_fixpoint

abbrev program : Action Program := Construct.program.read

end Parser

end TinyScript
