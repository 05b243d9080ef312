import TinyScript.Token

/-!
# Programs

Expressions and statements as trees. A tree owns its parts and never changes; names are plain text,
so a tree built by hand may hold names that no source text can spell. Equality of trees is
decidable.
-/

namespace TinyScript

inductive Mutability where
  | mutable
  | fixed
  deriving DecidableEq, Repr

namespace Mutability

def keyword : Mutability → Keyword
  | mutable => .var
  | fixed => .val

def ofKeyword? : Keyword → Option Mutability
  | .var => some mutable
  | .val => some fixed
  | _ => none

end Mutability

inductive UnaryOp where
  | not
  | negate
  deriving DecidableEq, Repr

def UnaryOp.symbol : UnaryOp → Symbol
  | not => .bang
  | negate => .minus

inductive BinaryOp where
  | add | sub | mul | div | mod | less | greater | equal | notEqual | lessEqual | greaterEqual
  deriving DecidableEq, Repr

namespace BinaryOp

def symbol : BinaryOp → Symbol
  | add => .plus
  | sub => .minus
  | mul => .star
  | div => .slash
  | mod => .percent
  | less => .less
  | greater => .greater
  | equal => .equal
  | notEqual => .notEqual
  | lessEqual => .lessEqual
  | greaterEqual => .greaterEqual

def ofSymbol? : Symbol → Option BinaryOp
  | .plus => some add
  | .minus => some sub
  | .star => some mul
  | .slash => some div
  | .percent => some mod
  | .less => some less
  | .greater => some greater
  | .equal => some equal
  | .notEqual => some notEqual
  | .lessEqual => some lessEqual
  | .greaterEqual => some greaterEqual
  | _ => none

theorem ofSymbol?_symbol (op : BinaryOp) : ofSymbol? op.symbol = some op := by cases op <;> rfl

end BinaryOp

mutual
/-- A string keeps its raw text: backslashes are not interpreted. The pairs of a hash are in source
order. -/
inductive Expr where
  | ident (name : String)
  | int (value : Int64)
  | str (raw : String)
  | bool (value : Bool)
  | null
  | unary (op : UnaryOp) (operand : Expr)
  | binary (op : BinaryOp) (left right : Expr)
  | cond (test : Expr) (yes : List Stmt) (no : Option (List Stmt))
  | func (params : List String) (body : List Stmt)
  | call (callee : Expr) (args : List Expr)
  | array (items : List Expr)
  | hash (pairs : List (Expr × Expr))
  | index (collection position : Expr)
/-- A block of its own can be built but not written: a brace in statement position opens a hash. -/
inductive Stmt where
  | declare (mutability : Mutability) (name : String) (value : Expr)
  | assign (name : String) (value : Expr)
  | ret (value : Expr)
  | expr (value : Expr)
  | block (body : List Stmt)
end

abbrev Block := List Stmt

abbrev Program := List Stmt

-- ---------------------------------------------------------------------------
-- Equality
-- ---------------------------------------------------------------------------

mutual
def Expr.beq : Expr → Expr → Bool
  | .ident a, .ident b => a == b
  | .int a, .int b => a == b
  | .str a, .str b => a == b
  | .bool a, .bool b => a == b
  | .null, .null => true
  | .unary o a, .unary p b => o == p && a.beq b
  | .binary o a c, .binary p b d => o == p && a.beq b && c.beq d
  | .cond a y none, .cond b z none => a.beq b && Block.beq y z
  | .cond a y (some n), .cond b z (some m) => a.beq b && Block.beq y z && Block.beq n m
  | .func p a, .func q b => p == q && Block.beq a b
  | .call a x, .call b y => a.beq b && Expr.beqList x y
  | .array x, .array y => Expr.beqList x y
  | .hash x, .hash y => Expr.beqPairs x y
  | .index a c, .index b d => a.beq b && c.beq d
  | _, _ => false
def Stmt.beq : Stmt → Stmt → Bool
  | .declare m x a, .declare n y b => m == n && x == y && a.beq b
  | .assign x a, .assign y b => x == y && a.beq b
  | .ret a, .ret b => a.beq b
  | .expr a, .expr b => a.beq b
  | .block a, .block b => Block.beq a b
  | _, _ => false
def Block.beq : List Stmt → List Stmt → Bool
  | [], [] => true
  | a :: x, b :: y => a.beq b && Block.beq x y
  | _, _ => false
def Expr.beqList : List Expr → List Expr → Bool
  | [], [] => true
  | a :: x, b :: y => a.beq b && Expr.beqList x y
  | _, _ => false
def Expr.beqPairs : List (Expr × Expr) → List (Expr × Expr) → Bool
  | [], [] => true
  | (a, c) :: x, (b, d) :: y => a.beq b && c.beq d && Expr.beqPairs x y
  | _, _ => false
end

mutual
theorem Expr.beq_iff : (a b : Expr) → (a.beq b = true ↔ a = b)
  | .ident _, b => by cases b <;> simp [Expr.beq]
  | .int _, b => by cases b <;> simp [Expr.beq]
  | .str _, b => by cases b <;> simp [Expr.beq]
  | .bool _, b => by cases b <;> simp [Expr.beq]
  | .null, b => by cases b <;> simp [Expr.beq]
  | .unary _ a, b => by cases b <;> simp [Expr.beq, Expr.beq_iff a]
  | .binary _ a c, b => by cases b <;> simp [Expr.beq, Expr.beq_iff a, Expr.beq_iff c, and_assoc]
  | .cond a y none, b => by
    cases b with
    | cond _ _ m => cases m <;> simp [Expr.beq, Expr.beq_iff a, Block.beq_iff y]
    | _ => simp [Expr.beq]
  | .cond a y (some n), b => by
    cases b with
    | cond _ _ m =>
      cases m <;> simp [Expr.beq, Expr.beq_iff a, Block.beq_iff y, Block.beq_iff n, and_assoc]
    | _ => simp [Expr.beq]
  | .func _ a, b => by cases b <;> simp [Expr.beq, Block.beq_iff a]
  | .call a x, b => by cases b <;> simp [Expr.beq, Expr.beq_iff a, Expr.beqList_iff x]
  | .array x, b => by cases b <;> simp [Expr.beq, Expr.beqList_iff x]
  | .hash x, b => by cases b <;> simp [Expr.beq, Expr.beqPairs_iff x]
  | .index a c, b => by cases b <;> simp [Expr.beq, Expr.beq_iff a, Expr.beq_iff c]
theorem Stmt.beq_iff : (a b : Stmt) → (a.beq b = true ↔ a = b)
  | .declare _ _ a, b => by cases b <;> simp [Stmt.beq, Expr.beq_iff a, and_assoc]
  | .assign _ a, b => by cases b <;> simp [Stmt.beq, Expr.beq_iff a]
  | .ret a, b => by cases b <;> simp [Stmt.beq, Expr.beq_iff a]
  | .expr a, b => by cases b <;> simp [Stmt.beq, Expr.beq_iff a]
  | .block a, b => by cases b <;> simp [Stmt.beq, Block.beq_iff a]
theorem Block.beq_iff : (a b : List Stmt) → (Block.beq a b = true ↔ a = b)
  | [], b => by cases b <;> simp [Block.beq]
  | a :: x, b => by cases b <;> simp [Block.beq, Stmt.beq_iff a, Block.beq_iff x]
theorem Expr.beqList_iff : (a b : List Expr) → (Expr.beqList a b = true ↔ a = b)
  | [], b => by cases b <;> simp [Expr.beqList]
  | a :: x, b => by cases b <;> simp [Expr.beqList, Expr.beq_iff a, Expr.beqList_iff x]
theorem Expr.beqPairs_iff : (a b : List (Expr × Expr)) → (Expr.beqPairs a b = true ↔ a = b)
  | [], b => by cases b <;> simp [Expr.beqPairs]
  | (a, c) :: x, [] => by simp [Expr.beqPairs]
  | (a, c) :: x, (b, d) :: y => by
    simp [Expr.beqPairs, Expr.beq_iff a, Expr.beq_iff c, Expr.beqPairs_iff x]
end

instance : DecidableEq Expr := fun a b => decidable_of_iff _ (Expr.beq_iff a b)

instance : DecidableEq Stmt := fun a b => decidable_of_iff _ (Stmt.beq_iff a b)

end TinyScript
