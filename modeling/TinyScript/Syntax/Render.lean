import TinyScript.Syntax

/-!
# The canonical spelling

`render` writes a tree the one way the language prints it: unary, binary and index expressions in
parentheses, a semicolon after every statement but a block, one space between statements. A string
is written with its raw text between quotes. `lead` is the word a tree is named by in listings.
-/

namespace TinyScript

def UnaryOp.text (op : UnaryOp) : String := op.symbol.text

def BinaryOp.text (op : BinaryOp) : String := op.symbol.text

def boolText : Bool → String
  | true => "true"
  | false => "false"

def intText (n : Int64) : String := toString n.toInt

def blockText : List String → String
  | [] => "\x7b \x7d"
  | texts => "\x7b " ++ " ".intercalate texts ++ " \x7d"

def paramsText (params : List String) : String := "(" ++ ", ".intercalate params ++ ")"

mutual
def Expr.render : Expr → String
  | .ident name => name
  | .int n => intText n
  | .str raw => "\"" ++ raw ++ "\""
  | .bool b => boolText b
  | .null => "null"
  | .unary op e => "(" ++ op.text ++ e.render ++ ")"
  | .binary op l r => "(" ++ l.render ++ " " ++ op.text ++ " " ++ r.render ++ ")"
  | .cond c yes none => "if (" ++ c.render ++ ") " ++ blockText (Stmt.renders yes)
  | .cond c yes (some no) =>
    "if (" ++ c.render ++ ") " ++ blockText (Stmt.renders yes) ++ " else " ++
      blockText (Stmt.renders no)
  | .func params body => "func" ++ paramsText params ++ " " ++ blockText (Stmt.renders body)
  | .call f args => f.render ++ "(" ++ ", ".intercalate (Expr.renders args) ++ ")"
  | .array items => "[" ++ ", ".intercalate (Expr.renders items) ++ "]"
  | .hash pairs => "\x7b" ++ ", ".intercalate (Expr.renderPairs pairs) ++ "\x7d"
  | .index c i => "(" ++ c.render ++ "[" ++ i.render ++ "])"
def Stmt.render : Stmt → String
  | .declare m name e => m.keyword.text ++ " " ++ name ++ " = " ++ e.render ++ ";"
  | .assign name e => name ++ " = " ++ e.render ++ ";"
  | .ret e => "return " ++ e.render ++ ";"
  | .expr e => e.render ++ ";"
  | .block body => blockText (Stmt.renders body)
def Stmt.renders : List Stmt → List String
  | [] => []
  | s :: rest => s.render :: Stmt.renders rest
def Expr.renders : List Expr → List String
  | [] => []
  | e :: rest => e.render :: Expr.renders rest
def Expr.renderPairs : List (Expr × Expr) → List String
  | [] => []
  | (k, v) :: rest => (k.render ++ ":" ++ v.render) :: Expr.renderPairs rest
end

def Block.render (body : Block) : String := blockText (Stmt.renders body)

def Program.render (p : Program) : String := " ".intercalate (Stmt.renders p)

/-- The word an expression is named by: its own text for a leaf, its operator or its opening word
or bracket otherwise. -/
def Expr.lead : Expr → String
  | .ident name => name
  | .int n => intText n
  | .str raw => raw
  | .bool b => boolText b
  | .null => Keyword.null.text
  | .unary op _ => op.text
  | .binary op _ _ => op.text
  | .cond .. => Keyword.if_.text
  | .func .. => Keyword.func.text
  | .call .. => Symbol.lparen.text
  | .array _ => Symbol.lbracket.text
  | .hash _ => Symbol.lbrace.text
  | .index .. => Symbol.lbracket.text

def Stmt.lead : Stmt → String
  | .declare m _ _ => m.keyword.text
  | .assign name _ => name
  | .ret _ => Keyword.return_.text
  | .expr e => e.lead
  | .block _ => Symbol.lbrace.text

def Program.lead : Program → String
  | [] => ""
  | s :: _ => s.lead

end TinyScript
