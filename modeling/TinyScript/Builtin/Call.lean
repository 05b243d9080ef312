import TinyScript.Heap

/-!
# Built-in procedures: what they do

An array is a queue with two ends, shared by all its handles. `pop` and `popleft` give back the array
they have shortened, or null if it was empty; `push` and `pushleft` give null. The number of arguments
is checked before their types, and a call that fails changes nothing.
-/

namespace TinyScript

namespace Builtin

/-- A procedure on the array `id` with the elements `items`; `extra` are the other arguments. -/
def onArray (b : Builtin) (id : ObjectId) (items : Array Value) (extra : List Value) (h : Heap) :
    Run :=
  match b with
  | len => (.int (Int64.ofNat items.size), h)
  | head => (items[0]?.getD .null, h)
  | tail => (items.back?.getD .null, h)
  | push => (.null, h.modifyItems id (· ++ extra))
  | pushleft => (.null, h.modifyItems id (extra.toArray ++ ·))
  | pop => if items.isEmpty then (.null, h) else (.object id, h.modifyItems id Array.pop)
  | popleft =>
    if items.isEmpty then (.null, h) else (.object id, h.modifyItems id (·.extract 1 items.size))

def call (b : Builtin) (args : List Value) (h : Heap) : Run :=
  match args with
  | [] => h.raise (.arity b.arity 0)
  | v :: extra =>
    if (v :: extra).length = b.arity then
      match b, v, h.object? v with
      | b, .object id, some (.array items) => b.onArray id items extra h
      | .len, _, some (.string s) => (.int (Int64.ofNat s.utf8ByteSize), h)
      | b, v, _ => h.raise (.argument b (h.tag v))
    else h.raise (.arity b.arity (v :: extra).length)

end Builtin

end TinyScript
