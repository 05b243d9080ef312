import TinyScript.Heap
import TinyScript.Path

/-!
# The text of a value

`Heap.display` writes a value for the user. An array that contains itself is cut short: met again
while it is being written, it shows as `[...]`. A hash has no such mark, since it contains only
objects made before it; one that lies on a cycle is written again until an array on the way cuts it.

The writing ends for every heap: along the way down arrays are new each time, and so are the hashes
between one array and the next. A hash that contains itself with no array between, which no run
makes, is cut short too.
-/

namespace TinyScript

namespace Heap

def objectIds (h : Heap) : List ObjectId := List.range h.objects.size

theorem mem_objectIds {h : Heap} {id : ObjectId} {o : Object} (hobj : h.objects[id]? = some o) :
    id ∈ h.objectIds := by
  obtain ⟨hlt, _⟩ := Array.getElem?_eq_some_iff.mp hobj
  exact List.mem_range.mpr hlt

/-- The text of a value inside the arrays `arrays`, and inside the hashes `hashes` within the
innermost of them. -/
def textIn (h : Heap) (arrays hashes : List ObjectId) (v : Value) : String :=
  match v with
  | .int n => intText n
  | .bool b => boolText b
  | .null => "null"
  | .error _ fault => "[ERROR] " ++ fault.message
  | .returned _ v => h.textIn arrays hashes v
  | .object id =>
    match _hobj : h.objects[id]? with
    | none => "null"
    | some (.string s) => s
    | some (.builtin b) => "builtin function " ++ b.name
    | some (.function params body _) => "func" ++ paramsText params ++ " " ++ Block.render body
    | some (.array items) =>
      if _hnew : id ∈ arrays then "[...]"
      else
        let texts := items.toList.map fun v => h.textIn (id :: arrays) [] v
        "[" ++ ", ".intercalate texts ++ "]"
    | some (.hash table) =>
      if _hnew : id ∈ hashes then "\x7b...\x7d"
      else
        let texts := table.map fun e =>
          h.textIn arrays (id :: hashes) e.key ++ ": " ++ h.textIn arrays (id :: hashes) e.value
        "\x7b" ++ ", ".intercalate texts ++ "\x7d"
termination_by (unseen h.objectIds arrays, unseen h.objectIds hashes, sizeOf v)
decreasing_by
  · exact Prod.Lex.right _ (Prod.Lex.right _ (by simp only [Value.returned.sizeOf_spec]; omega))
  · exact Prod.Lex.left _ _ (unseen_cons_lt (mem_objectIds _hobj) _hnew)
  all_goals exact Prod.Lex.right _ (Prod.Lex.left _ _ (unseen_cons_lt (mem_objectIds _hobj) _hnew))

def display (h : Heap) (v : Value) : String := h.textIn [] [] v

end Heap

end TinyScript
