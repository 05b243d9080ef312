import TinyScript.Syntax

/-!
# The grammar

Which lists of words spell a program, and which program each of them spells. The rules say nothing
about how a text is read. An `Expression` has a tier, the loosest binding of an operator that stands
in it outside brackets:

* 1 to 4: the binary operators, from equality to products, all grouping to the left
* 5: `!` and `-` in front
* 6: calls and indexes behind
* 7: names, literals and what is in brackets

A statement may go without its semicolon, but then the next word must not be one that could go on
with an expression (`Continues`), since `a (b)` is a call and not two statements.
-/

namespace TinyScript

/-- A token without its place. The text counts for names, numbers and strings only, and `foreign`
is what stands in no program. -/
inductive Terminal where
  | ident (name : String)
  | integer (digits : String)
  | string (raw : String)
  | symbol (s : Symbol)
  | keyword (k : Keyword)
  | foreign
  deriving DecidableEq, Repr

def Token.terminal (t : Token) : Terminal :=
  match t.kind with
  | .ident => .ident t.literal
  | .integer => .integer t.literal
  | .string => .string t.literal
  | .symbol s => .symbol s
  | .keyword k => .keyword k
  | .illegal | .endOfInput => .foreign

def BinaryOp.tier : BinaryOp → Nat
  | .equal | .notEqual => 1
  | .less | .greater | .lessEqual | .greaterEqual => 2
  | .add | .sub => 3
  | .mul | .div | .mod => 4

namespace Grammar

/-- The words that go on with an expression that could end before them. -/
inductive Continues : Terminal → Prop
  | operator (op : BinaryOp) : Continues (.symbol op.symbol)
  | call : Continues (.symbol .lparen)
  | index : Continues (.symbol .lbracket)

def decimal (digits : String) : Nat := Nat.ofDigitChars 10 digits.toList 0

inductive MoreParams : List Terminal → List String → Prop
  | nil : MoreParams [] []
  | cons : MoreParams ts xs → MoreParams (.symbol .comma :: .ident x :: ts) (x :: xs)

inductive Params : List Terminal → List String → Prop
  | nil : Params [] []
  | cons : MoreParams ts xs → Params (.ident x :: ts) (x :: xs)

mutual
/-- Expressions of a tier or tighter. -/
inductive Expression : Nat → List Terminal → Expr → Prop
  | tighter : Expression (n + 1) ts e → Expression n ts e
  | binary (op : BinaryOp) : Expression op.tier ls l → Expression (op.tier + 1) rs r →
      Expression op.tier (ls ++ .symbol op.symbol :: rs) (.binary op l r)
  | unary (op : UnaryOp) : Expression 5 ts e →
      Expression 5 (.symbol op.symbol :: ts) (.unary op e)
  | call : Expression 6 fs f → Items ts args →
      Expression 6 (fs ++ .symbol .lparen :: (ts ++ [.symbol .rparen])) (.call f args)
  | index : Expression 6 cs c → Expression 1 ts i →
      Expression 6 (cs ++ .symbol .lbracket :: (ts ++ [.symbol .rbracket])) (.index c i)
  | ident : Expression 7 [.ident x] (.ident x)
  | integer {n : Int64} : n.toInt = decimal digits → Expression 7 [.integer digits] (.int n)
  | string : Expression 7 [.string raw] (.str raw)
  | true_ : Expression 7 [.keyword .true_] (.bool true)
  | false_ : Expression 7 [.keyword .false_] (.bool false)
  | null : Expression 7 [.keyword .null] .null
  | group : Expression 1 ts e →
      Expression 7 (.symbol .lparen :: (ts ++ [.symbol .rparen])) e
  | cond : Expression 1 cs c → Statements ys yes →
      Expression 7 (.keyword .if_ :: .symbol .lparen :: (cs ++ .symbol .rparen ::
        .symbol .lbrace :: (ys ++ [.symbol .rbrace]))) (.cond c yes none)
  | condElse : Expression 1 cs c → Statements ys yes → Statements ns no →
      Expression 7 (.keyword .if_ :: .symbol .lparen :: (cs ++ .symbol .rparen ::
        .symbol .lbrace :: (ys ++ .symbol .rbrace :: .keyword .else_ ::
        .symbol .lbrace :: (ns ++ [.symbol .rbrace])))) (.cond c yes (some no))
  | func : Params ps xs → Statements bs body →
      Expression 7 (.keyword .func :: .symbol .lparen :: (ps ++ .symbol .rparen ::
        .symbol .lbrace :: (bs ++ [.symbol .rbrace]))) (.func xs body)
  | array : Items ts es →
      Expression 7 (.symbol .lbracket :: (ts ++ [.symbol .rbracket])) (.array es)
  | hash : Pairs ts ps →
      Expression 7 (.symbol .lbrace :: (ts ++ [.symbol .rbrace])) (.hash ps)
inductive Items : List Terminal → List Expr → Prop
  | nil : Items [] []
  | cons : Expression 1 ts e → MoreItems us es → Items (ts ++ us) (e :: es)
inductive MoreItems : List Terminal → List Expr → Prop
  | nil : MoreItems [] []
  | cons : Expression 1 ts e → MoreItems us es →
      MoreItems (.symbol .comma :: (ts ++ us)) (e :: es)
/-- Pairs with commas between them; one more comma may follow the last. -/
inductive Pairs : List Terminal → List (Expr × Expr) → Prop
  | nil : Pairs [] []
  | last : Expression 1 ks k → Expression 1 vs v → Pairs (ks ++ .symbol .colon :: vs) [(k, v)]
  | cons : Expression 1 ks k → Expression 1 vs v → Pairs us ps →
      Pairs (ks ++ .symbol .colon :: (vs ++ .symbol .comma :: us)) ((k, v) :: ps)
/-- A statement without its semicolon; a bare `return` apart. -/
inductive Sentence : List Terminal → Stmt → Prop
  | declare (m : Mutability) : Expression 1 ts e →
      Sentence (.keyword m.keyword :: .ident x :: .symbol .assign :: ts) (.declare m x e)
  | assign : Expression 1 ts e → Sentence (.ident x :: .symbol .assign :: ts) (.assign x e)
  | ret : Expression 1 ts e → Sentence (.keyword .return_ :: ts) (.ret e)
  | expr : Expression 1 ts e → Sentence ts (.expr e)
/-- A statement before the word `next`, which is none at the end of the text. -/
inductive Statement : List Terminal → (next : Option Terminal) → Stmt → Prop
  | ended : Sentence ts s → Statement (ts ++ [.symbol .semicolon]) next s
  | openEnded : Sentence ts s → (∀ t ∈ next, ¬ Continues t) → Statement ts next s
  | bareEnded : Statement [.keyword .return_, .symbol .semicolon] next (.ret .null)
  | bare : next = none ∨ next = some (.symbol .rbrace) →
      Statement [.keyword .return_] next (.ret .null)
/-- The statements of a block or of a program. Only a closing brace or the end of the text comes
after the last, and neither matters to it. -/
inductive Statements : List Terminal → List Stmt → Prop
  | nil : Statements [] []
  | cons : Statement ts us.head? s → Statements us rest → Statements (ts ++ us) (s :: rest)
end

end Grammar

end TinyScript
