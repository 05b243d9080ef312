import TinyScript.Heap

/-!
# Operators

What the operators do with values. Numbers have 64 bits and wrap around; a quotient is truncated
toward zero and a remainder has the sign of the dividend. `==` compares numbers by value and
everything else by identity, so two strings of one text may differ.
-/

namespace TinyScript

namespace Heap

def unary (op : UnaryOp) (v : Value) (h : Heap) : Run :=
  match op, v with
  | .not, .bool b => (.bool !b, h)
  | .negate, .int n => (.int (-n), h)
  | op, v => h.raise (.unaryOperand op (h.tag v))

def arithmetic (op : BinaryOp) (l r : Int64) (h : Heap) : Run :=
  match op with
  | .add => (.int (l + r), h)
  | .sub => (.int (l - r), h)
  | .mul => (.int (l * r), h)
  | .div => if r = 0 then h.raise (.divisionByZero op l) else (.int (l / r), h)
  | .mod => if r = 0 then h.raise (.divisionByZero op l) else (.int (l % r), h)
  | .less => (.bool (l < r), h)
  | .greater => (.bool (r < l), h)
  | .equal => (.bool (l == r), h)
  | .notEqual => (.bool (l != r), h)
  | .lessEqual => (.bool (l ≤ r), h)
  | .greaterEqual => (.bool (r ≤ l), h)

/-- No meaning for these operands; different types are named as such. -/
def rejectOperands (op : BinaryOp) (l r : Value) (h : Heap) : Run :=
  if h.tag l = h.tag r then h.raise (.binaryOperands op (h.tag l) (h.tag r))
  else h.raise (.mismatch op (h.tag l) (h.tag r))

def binary (op : BinaryOp) (l r : Value) (h : Heap) : Run :=
  match l, r with
  | .int a, .int b => h.arithmetic op a b
  | l, r =>
    match op with
    | .equal => (.bool (l == r), h)
    | .notEqual => (.bool (l != r), h)
    | .add =>
      match h.string? l, h.string? r with
      | some a, some b => h.alloc (.string (a ++ b))
      | _, _ => h.rejectOperands .add l r
    | op => h.rejectOperands op l r

def index (collection position : Value) (h : Heap) : Run :=
  match h.object? collection, position with
  | some (.array items), .int n =>
    (if n < 0 then .null else (items[n.toInt.toNat]?).getD .null, h)
  | some (.hash table), position =>
    match h.hashKey? position with
    | some k => ((table.find? k).getD .null, h)
    | none => h.raise (.unhashableIndex (h.tag position))
  | _, position => h.raise (.notIndexable (h.tag collection) (h.tag position))

end Heap

end TinyScript
