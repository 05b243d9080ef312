import TinyScript.Token

/-!
# Binding power

How tightly a symbol after a complete expression binds to it. A binary operator reads its right
side at its own level, so that operators of one level group to the left.
-/

namespace TinyScript

inductive Precedence where
  | lowest | equality | comparison | sum | product | unary | call | index
  deriving DecidableEq, Repr

namespace Precedence

def level : Precedence → Nat
  | lowest => 0
  | equality => 1
  | comparison => 2
  | sum => 3
  | product => 4
  | unary => 5
  | call => 6
  | index => 7

instance : LT Precedence := ⟨fun p q => p.level < q.level⟩

instance (p q : Precedence) : Decidable (p < q) := inferInstanceAs (Decidable (p.level < q.level))

/-- The level of a token that follows an expression; `lowest` if it cannot continue one. -/
def ofKind : Token.Kind → Precedence
  | .symbol .equal | .symbol .notEqual => equality
  | .symbol .less | .symbol .greater | .symbol .lessEqual | .symbol .greaterEqual => comparison
  | .symbol .plus | .symbol .minus => sum
  | .symbol .star | .symbol .slash | .symbol .percent => product
  | .symbol .lparen => call
  | .symbol .lbracket => index
  | _ => lowest

end Precedence

end TinyScript
