/-!
# Type tags

The kinds of value a program can meet, as they are named in messages.
-/

namespace TinyScript

inductive TypeTag where
  | integer | boolean | string | null | array | hash | function | builtin | returned | error
  deriving DecidableEq, Repr

def TypeTag.text : TypeTag → String
  | integer => "INTEGER"
  | boolean => "BOOLEAN"
  | string => "STRING"
  | null => "NULL"
  | array => "ARRAY"
  | hash => "HASH"
  | function => "FUNCTION"
  | builtin => "BUILTIN"
  | returned => "RETURN_VALUE"
  | error => "ERROR"

end TinyScript
