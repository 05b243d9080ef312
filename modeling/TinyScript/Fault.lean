import TinyScript.Builtin
import TinyScript.Syntax.Render
import TinyScript.TypeTag

/-!
# Why a run fails

Causes, each with one wording. `Fault.custom` carries a text from outside the language.
-/

namespace TinyScript

inductive ScopeError where
  | alreadyDeclared (name : String)
  | fixed (name : String)
  | undefined (name : String)
  deriving DecidableEq, Repr

namespace ScopeError

def name : ScopeError → String
  | alreadyDeclared n | fixed n | undefined n => n

def message : ScopeError → String
  | alreadyDeclared n => "given identifier '" ++ n ++ "' is already declared"
  | fixed _ => "can not reassign variables declared with 'val'"
  | undefined n => "identifier not found: " ++ n

end ScopeError

def maxCallDepth : Nat := 20000

inductive Fault where
  | scope (error : ScopeError)
  | unknownName (name : String)
  | unaryOperand (op : UnaryOp) (operand : TypeTag)
  | binaryOperands (op : BinaryOp) (left right : TypeTag)
  | mismatch (op : BinaryOp) (left right : TypeTag)
  | divisionByZero (op : BinaryOp) (left : Int64)
  | unhashable (key : TypeTag)
  | unhashableIndex (index : TypeTag)
  | notIndexable (collection index : TypeTag)
  | notCallable (callee : TypeTag)
  | arity (expected received : Nat)
  | callDepth
  | argument (procedure : Builtin) (argument : TypeTag)
  | custom (text : String)
  deriving DecidableEq, Repr

def Fault.message : Fault → String
  | scope e => e.message
  | unknownName n => "identifier not found: " ++ n
  | unaryOperand op t => "unknown operator: " ++ op.text ++ t.text
  | binaryOperands op l r => "unknown operator: " ++ l.text ++ " " ++ op.text ++ " " ++ r.text
  | mismatch op l r => "type mismatch: " ++ l.text ++ " " ++ op.text ++ " " ++ r.text
  | divisionByZero op l => "division by zero: " ++ intText l ++ " " ++ op.text ++ " 0"
  | unhashable t => t.text ++ " can not be used as hash key"
  | unhashableIndex t => "unusable as hash key: " ++ t.text
  | notIndexable c i => "unsupported operation: " ++ c.text ++ "[" ++ i.text ++ "]"
  | notCallable t => "failed to invoke " ++ t.text ++ " as a function"
  | arity expected received =>
    "wrong number of arguments: expected " ++ toString expected ++ ", but received " ++
      toString received
  | callDepth => "maximum call depth exceeded: " ++ toString maxCallDepth
  | argument b t => b.name ++ "(" ++ t.text ++ ") not supported"
  | custom text => text

end TinyScript
