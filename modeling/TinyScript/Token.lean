/-!
# Tokens

The words of the language and the byte ranges they occupy. `Keyword` and `Symbol` are the fixed
spellings; each has one text, and the look-ups by text, by one character and by two characters
recover it.
-/

namespace TinyScript

/-- A half-open byte range of a source text. -/
structure Span where
  start : Nat
  stop : Nat
  deriving DecidableEq, Repr

inductive Keyword where
  | var | val | true_ | false_ | null | func | if_ | else_ | return_
  deriving DecidableEq, Repr

namespace Keyword

def text : Keyword → String
  | var => "var"
  | val => "val"
  | true_ => "true"
  | false_ => "false"
  | null => "null"
  | func => "func"
  | if_ => "if"
  | else_ => "else"
  | return_ => "return"

def all : List Keyword :=
  [var, val, true_, false_, null, func, if_, else_, return_]

def ofText? (word : String) : Option Keyword :=
  all.find? (·.text == word)

theorem ofText?_text (k : Keyword) : ofText? k.text = some k := by cases k <;> decide

end Keyword

inductive Symbol where
  | assign | bang | plus | minus | star | slash | percent | less | greater
  | comma | semicolon | colon | lparen | rparen | lbrace | rbrace | lbracket | rbracket
  | equal | notEqual | lessEqual | greaterEqual
  deriving DecidableEq, Repr

namespace Symbol

def text : Symbol → String
  | assign => "="
  | bang => "!"
  | plus => "+"
  | minus => "-"
  | star => "*"
  | slash => "/"
  | percent => "%"
  | less => "<"
  | greater => ">"
  | comma => ","
  | semicolon => ";"
  | colon => ":"
  | lparen => "("
  | rparen => ")"
  | lbrace => "\x7b"
  | rbrace => "\x7d"
  | lbracket => "["
  | rbracket => "]"
  | equal => "=="
  | notEqual => "!="
  | lessEqual => "<="
  | greaterEqual => ">="

def ofChar? : Char → Option Symbol
  | '=' => some assign
  | '!' => some bang
  | '+' => some plus
  | '-' => some minus
  | '*' => some star
  | '/' => some slash
  | '%' => some percent
  | '<' => some less
  | '>' => some greater
  | ',' => some comma
  | ';' => some semicolon
  | ':' => some colon
  | '(' => some lparen
  | ')' => some rparen
  | '\x7b' => some lbrace
  | '\x7d' => some rbrace
  | '[' => some lbracket
  | ']' => some rbracket
  | _ => none

/-- The symbol spelled by two characters, which always end in `=`. -/
def ofChars? : Char → Char → Option Symbol
  | '=', '=' => some equal
  | '!', '=' => some notEqual
  | '<', '=' => some lessEqual
  | '>', '=' => some greaterEqual
  | _, _ => none

end Symbol

namespace Token

/-- What a token is; `illegal` is a character that no word of the language starts with. -/
inductive Kind where
  | illegal
  | endOfInput
  | ident
  | integer
  | string
  | symbol (s : Symbol)
  | keyword (k : Keyword)
  deriving DecidableEq, Repr

/-- The name a kind has in messages: classes in capitals, fixed words as they are written. -/
def Kind.text : Kind → String
  | illegal => "ILLEGAL"
  | endOfInput => "END_OF_FILE"
  | ident => "IDENTIFIER"
  | integer => "INTEGER_LITERAL"
  | string => "STRING"
  | symbol s => s.text
  | keyword k => k.text

end Token

/-- A word of the source. `literal` is its text, without the quotes for a string. -/
structure Token where
  kind : Token.Kind
  literal : String
  span : Span
  deriving DecidableEq, Repr

def Token.endAt (size : Nat) : Token := ⟨.endOfInput, "", ⟨size, size⟩⟩

end TinyScript
