import TinyScript.TypeTag

/-!
# Hash keys

A hash finds its entries by a key of 64 bits for each type of hashable value: the bits of a number,
one or zero for a truth value, and the FNV-1a hash of the bytes of a string. Keys are ordered by type
first and then as unsigned numbers. Two strings may have one key.
-/

namespace TinyScript

/-- The FNV-1a hash of 64 bits: each byte is mixed in by exclusive or and then multiplied by the
prime. -/
def fnv1a (bytes : List UInt8) : UInt64 :=
  bytes.foldl (fun hash byte => (hash ^^^ byte.toUInt64) * 0x100000001b3) 0xcbf29ce484222325

inductive HashKey where
  | int (bits : UInt64)
  | bool (b : Bool)
  | string (hash : UInt64)
  deriving DecidableEq, Repr

namespace HashKey

def ofInt (n : Int64) : HashKey := int n.toUInt64

def ofString (s : String) : HashKey := string (fnv1a s.toUTF8.data.toList)

def tag : HashKey → TypeTag
  | int _ => .integer
  | bool _ => .boolean
  | string _ => .string

/-- The number that is shown for a key. -/
def bits : HashKey → UInt64
  | int b => b
  | bool b => if b then 1 else 0
  | string h => h

def rank : HashKey → Nat
  | int _ => 0
  | bool _ => 1
  | string _ => 2

instance : LT HashKey :=
  ⟨fun a b => a.rank < b.rank ∨ a.rank = b.rank ∧ a.bits.toNat < b.bits.toNat⟩

instance (a b : HashKey) : Decidable (a < b) :=
  inferInstanceAs (Decidable (a.rank < b.rank ∨ a.rank = b.rank ∧ a.bits.toNat < b.bits.toNat))

end HashKey

end TinyScript
