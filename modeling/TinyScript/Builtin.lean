/-!
# Built-in procedures: their names

They are known everywhere, and any binding of the same name hides them.
-/

namespace TinyScript

inductive Builtin where
  | len | head | tail | push | pushleft | pop | popleft
  deriving DecidableEq, Repr

namespace Builtin

def name : Builtin → String
  | len => "len"
  | head => "head"
  | tail => "tail"
  | push => "push"
  | pushleft => "pushleft"
  | pop => "pop"
  | popleft => "popleft"

def all : List Builtin := [len, head, tail, push, pushleft, pop, popleft]

def ofName? (name : String) : Option Builtin := all.find? (·.name == name)

def arity : Builtin → Nat
  | push | pushleft => 2
  | len | head | tail | pop | popleft => 1

end Builtin

end TinyScript
