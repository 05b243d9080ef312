import TinyScript.Fault

/-!
# Values

A value is a number, a truth value, null, a handle to an object of a heap, or a signal: a failure or
a value on its way out of a function. Equality of values is identity: two handles are equal exactly
if they lead to the same object, and each signal carries the number of signals raised before it.
Numbers, truth values and null have no identity of their own.
-/

namespace TinyScript

/-- The place of an object in its heap, in order of creation. -/
abbrev ObjectId := Nat

abbrev ScopeId := Nat

inductive Value where
  | int (n : Int64)
  | bool (b : Bool)
  | null
  | object (id : ObjectId)
  | error (serial : Nat) (fault : Fault)
  | returned (serial : Nat) (value : Value)
  deriving DecidableEq, Repr

namespace Value

def isError : Value → Bool
  | error .. => true
  | _ => false

def isInterrupt : Value → Bool
  | error .. | returned .. => true
  | _ => false

def unwrap : Value → Value
  | returned _ v => v
  | v => v

end Value

end TinyScript
