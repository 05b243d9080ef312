import TinyScript.Heap
import TinyScript.Path

/-!
# Structural comparison

`Heap.alike` compares two values by content, for hosts; the language's own `==` compares identities.
Failures are compared by their text, functions by parameters, body and scope, arrays and hashes
element by element. An array is like itself without a look inside.

Two containers met again while they are being compared count as alike, which ends the comparison of
containers that contain themselves.
-/

namespace TinyScript

/-- Whether two objects have the same content, as far as `inner` can tell of the values in them;
`same` says that they are one object. -/
def Object.alike (same : Bool) (inner : Value → Value → Bool) : Object → Object → Bool
  | .string s, .string t => s == t
  | .builtin b, .builtin c => b == c
  | .function ps body s, .function qs code t => ps == qs && body == code && s == t
  | .array xs, .array ys =>
    same || (xs.size == ys.size && (xs.toList.zip ys.toList).all fun (x, y) => inner x y)
  | .hash t, .hash u =>
    t.length == u.length &&
      (t.zip u).all fun (d, e) =>
        d.hashKey == e.hashKey && inner d.key e.key && inner d.value e.value
  | _, _ => false

namespace Heap

def objectPairs (h : Heap) : List (ObjectId × ObjectId) :=
  (List.range h.objects.size).flatMap fun i => (List.range h.objects.size).map (i, ·)

theorem mem_objectPairs {h : Heap} {i j : ObjectId} {a b : Object} (ha : h.objects[i]? = some a)
    (hb : h.objects[j]? = some b) : (i, j) ∈ h.objectPairs := by
  obtain ⟨hi, _⟩ := Array.getElem?_eq_some_iff.mp ha
  obtain ⟨hj, _⟩ := Array.getElem?_eq_some_iff.mp hb
  simp [objectPairs, hi, hj]

/-- Whether two values are alike inside the pairs of containers `path`. -/
def alikeIn (h : Heap) (path : List (ObjectId × ObjectId)) (a b : Value) : Bool :=
  match a, b with
  | .error _ f, .error _ g => f.message == g.message
  | .returned _ a, .returned _ b => h.alikeIn path a b
  | .object i, .object j =>
    match _hi : h.objects[i]?, _hj : h.objects[j]? with
    | some a, some b =>
      if _hnew : (i, j) ∈ path then true
      else Object.alike (i == j) (fun x y => h.alikeIn ((i, j) :: path) x y) a b
    | a, b => a.isNone && b.isNone
  | a, b => a == b
termination_by (unseen h.objectPairs path, sizeOf a)
decreasing_by
  · exact Prod.Lex.right _ (by simp only [Value.returned.sizeOf_spec]; omega)
  · exact Prod.Lex.left _ _ (unseen_cons_lt (mem_objectPairs _hi _hj) _hnew)

def alike (h : Heap) (a b : Value) : Bool := h.alikeIn [] a b

end Heap

end TinyScript
