import TinyScript.Syntax
import TinyScript.Table

/-!
# The heap

Everything with an identity that a run creates: objects and scopes, numbered in order of creation
and never removed, and the number of signals raised so far. Of the objects only arrays change.
Reading a place where nothing is gives null, no elements and no bindings, so that every reading
function is total; no run makes such a handle.
-/

namespace TinyScript

/-- What a handle leads to. A function keeps the scope it was created in. -/
inductive Object where
  | string (text : String)
  | array (items : Array Value)
  | hash (table : Table)
  | function (params : List String) (body : Block) (scope : ScopeId)
  | builtin (procedure : Builtin)
  deriving DecidableEq

def Object.tag : Object → TypeTag
  | string _ => .string
  | array _ => .array
  | hash _ => .hash
  | function .. => .function
  | builtin _ => .builtin

def Object.mapItems (f : Array Value → Array Value) : Object → Object
  | .array items => .array (f items)
  | o => o

structure Binding where
  mutability : Mutability
  value : Value
  deriving DecidableEq, Repr

structure Scope where
  bindings : List (String × Binding)
  outer : Option ScopeId
  deriving DecidableEq, Repr

structure Heap where
  objects : Array Object
  scopes : Array Scope
  signals : Nat
  deriving DecidableEq

abbrev Run := Value × Heap

/-- Goes on with a value that is no interrupt; an interrupt ends the evaluation as it is. -/
@[inline]
def andThen (r : Run) (next : Value → Heap → Run) : Run :=
  match r with
  | (v, h) => if v.isInterrupt then (v, h) else next v h

namespace Heap

def empty : Heap := ⟨#[], #[], 0⟩

-- ---------------------------------------------------------------------------
-- Making objects and signals
-- ---------------------------------------------------------------------------

def alloc (o : Object) (h : Heap) : Run :=
  (.object h.objects.size, { h with objects := h.objects.push o })

def raise (fault : Fault) (h : Heap) : Run :=
  (.error h.signals fault, { h with signals := h.signals + 1 })

def returning (v : Value) (h : Heap) : Run :=
  (.returned h.signals v, { h with signals := h.signals + 1 })

-- ---------------------------------------------------------------------------
-- Looking at values
-- ---------------------------------------------------------------------------

def object? (h : Heap) : Value → Option Object
  | .object id => h.objects[id]?
  | _ => none

def tag (h : Heap) : Value → TypeTag
  | .int _ => .integer
  | .bool _ => .boolean
  | .null => .null
  | .error .. => .error
  | .returned .. => .returned
  | .object id => (h.objects[id]?.map Object.tag).getD .null

def string? (h : Heap) (v : Value) : Option String :=
  match h.object? v with
  | some (.string s) => some s
  | _ => none

def items? (h : Heap) (v : Value) : Option (Array Value) :=
  match h.object? v with
  | some (.array items) => some items
  | _ => none

theorem string?_eq_some_iff {h : Heap} {s : String} :
    h.string? v = some s ↔ h.object? v = some (.string s) := by
  unfold string?
  split
  · simp_all
  · rename_i hne
    exact ⟨nofun, fun hs => absurd hs (hne s)⟩

theorem items?_eq_some_iff {h : Heap} {items : Array Value} :
    h.items? v = some items ↔ h.object? v = some (.array items) := by
  unfold items?
  split
  · simp_all
  · rename_i hne
    exact ⟨nofun, fun hitems => absurd hitems (hne items)⟩

def hashKey? (h : Heap) : Value → Option HashKey
  | .int n => some (.ofInt n)
  | .bool b => some (.bool b)
  | v => (h.string? v).map .ofString

-- ---------------------------------------------------------------------------
-- Changing arrays
-- ---------------------------------------------------------------------------

def modifyItems (id : ObjectId) (f : Array Value → Array Value) (h : Heap) : Heap :=
  { h with objects := h.objects.modify id (Object.mapItems f) }

end Heap

end TinyScript
