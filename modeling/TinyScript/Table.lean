import TinyScript.HashKey
import TinyScript.Value

/-!
# Tables

The content of a hash: entries in the order of their hash keys, one for each. A later entry with the
same hash key replaces both the key and the value of the earlier one.
-/

namespace TinyScript

structure Entry where
  hashKey : HashKey
  key : Value
  value : Value
  deriving DecidableEq, Repr

abbrev Table := List Entry

namespace Table

def insert (new : Entry) : Table → Table
  | [] => [new]
  | e :: rest =>
    if new.hashKey = e.hashKey then new :: rest
    else if new.hashKey < e.hashKey then new :: e :: rest
    else e :: insert new rest

def find? (t : Table) (k : HashKey) : Option Value :=
  (List.find? (·.hashKey == k) t).map Entry.value

end Table

end TinyScript
