import TinyScript.Token

/-!
# Mistakes in a source text

A mistake is a cause at a token. The wording is in `SyntaxError.message`, and a hint for the reader
in `SyntaxError.help`.
-/

namespace TinyScript

namespace SyntaxError

inductive Cause where
  | missing (expected : Token.Kind)
  | notAnExpression
  | tooLarge
  deriving DecidableEq, Repr

end SyntaxError

/-- What is wrong and the token where it shows, which is the end token at the end of the text. -/
structure SyntaxError where
  cause : SyntaxError.Cause
  token : Token
  deriving DecidableEq, Repr

namespace SyntaxError

def span (e : SyntaxError) : Span := e.token.span

def quoted (text : String) : String := "'" ++ text ++ "'"

def expectedText : Token.Kind → String
  | .ident => "an identifier"
  | kind => quoted kind.text

def foundText (t : Token) : String :=
  match t.kind with
  | .endOfInput => "the end of input"
  | _ => quoted t.literal

def message (e : SyntaxError) : String :=
  match e.cause with
  | .missing expected => "missing token: " ++ expected.text
  | .notAnExpression => "failed to understand: " ++ quoted e.token.literal
  | .tooLarge => "could not parse \"" ++ e.token.literal ++ "\" as integer"

def notAnExpressionHelp : Token.Kind → String
  | .illegal => "This character is not part of the language."
  | .symbol .rparen => "Found ')' without matching '('. Check for unbalanced parentheses."
  | .symbol .rbrace =>
    "Found '\x7d' without matching '\x7b'. Check for unbalanced braces."
  | .symbol .rbracket => "Found ']' without matching '['. Check for unbalanced brackets."
  | .endOfInput => "Reached end of input while expecting an expression."
  | _ => "Expected a literal, identifier, or parenthesized expression here."

def help (e : SyntaxError) : String :=
  match e.cause with
  | .missing expected =>
    "Expected " ++ expectedText expected ++ " here but found " ++ foundText e.token ++ "."
  | .notAnExpression => notAnExpressionHelp e.token.kind
  | .tooLarge =>
    "Integer literals must fit in a signed 64-bit value " ++
      "(-9223372036854775808 to 9223372036854775807)."

end SyntaxError

end TinyScript
