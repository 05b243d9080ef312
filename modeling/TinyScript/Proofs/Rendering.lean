import Mathlib.Computability.StateTransition
import Mathlib.Data.Finset.Insert
import TinyScript.Proofs.CreationOrder

/-!
# Cycles in a text

The text of a value elides an array exactly where it is met inside of itself: `Heap.Shows` carries
the arrays on the way down, and nothing else decides. That there is such a text for every value of
every heap of a session is due to the order of creation: below a hash there are ever older objects
until an array is met.

A writer need not carry the way. `Heap.write` has one set of the arrays that are being written, in
which an array is entered before its elements and left after them. It comes to an end, with the same
text and with the set as it was (`Session.display_elides_cycles`).
-/

namespace TinyScript

namespace Heap

def atom? (h : Heap) : Value → Option String
  | .int n => some (intText n)
  | .bool b => some (boolText b)
  | .null => some "null"
  | .error _ fault => some ("[ERROR] " ++ fault.message)
  | .returned _ _ => none
  | .object id =>
    match h.objects[id]? with
    | none => some "null"
    | some (.string s) => some s
    | some (.builtin b) => some ("builtin function " ++ b.name)
    | some (.function params body _) =>
      some ("func" ++ paramsText params ++ " " ++ Block.render body)
    | some (.array _) | some (.hash _) => none

/-- The text of a value that is met inside the arrays `path`. -/
inductive Shows (h : Heap) : List ObjectId → Value → String → Prop
  | atom : h.atom? v = some text → Shows h path v text
  | returned : Shows h path v text → Shows h path (.returned n v) text
  | elided : h.objects[i]? = some (.array items) → i ∈ path → Shows h path (.object i) "[...]"
  | array {text : Value → String} : h.objects[i]? = some (.array items) → i ∉ path →
      (∀ v ∈ items.toList, Shows h (i :: path) v (text v)) →
      Shows h path (.object i) ("[" ++ ", ".intercalate (items.toList.map text) ++ "]")
  | hash {key value : Entry → String} : h.objects[i]? = some (.hash table) →
      (∀ e ∈ table, Shows h path e.key (key e)) → (∀ e ∈ table, Shows h path e.value (value e)) →
      Shows h path (.object i)
        ("\x7b" ++ ", ".intercalate (table.map fun e => key e ++ ": " ++ value e) ++ "\x7d")

section
variable {h : Heap} {path : List ObjectId} {v : Value} {text text' : String}

theorem Shows.unique (hs : h.Shows path v text) (hs' : h.Shows path v text') : text = text' := by
  induction hs generalizing text' with
  | atom ha =>
    cases hs' with
    | atom ha' => exact Option.some.inj (ha.symm.trans ha')
    | returned _ => cases ha
    | elided hi _ | array hi _ _ | hash hi _ _ => simp [atom?, hi] at ha
  | returned _ ih =>
    cases hs' with
    | atom ha' => cases ha'
    | returned hs' => exact ih hs'
  | elided hi hmem =>
    cases hs' with
    | atom ha' => simp [atom?, hi] at ha'
    | elided _ _ => rfl
    | array _ hnew _ => exact absurd hmem hnew
    | hash hi' _ _ => cases hi.symm.trans hi'
  | array hi hnew _ ih =>
    cases hs' with
    | atom ha' => simp [atom?, hi] at ha'
    | elided _ hmem => exact absurd hmem hnew
    | array hi' _ hitems =>
      obtain rfl := Object.array.inj (Option.some.inj (hi.symm.trans hi'))
      rw [List.map_congr_left fun v hv => ih v hv (hitems v hv)]
    | hash hi' _ _ => cases hi.symm.trans hi'
  | hash hi _ _ ihkey ihvalue =>
    cases hs' with
    | atom ha' => simp [atom?, hi] at ha'
    | elided hi' _ | array hi' _ _ => cases hi.symm.trans hi'
    | hash hi' hkeys hvalues =>
      obtain rfl := Object.hash.inj (Option.some.inj (hi.symm.trans hi'))
      refine congrArg (fun texts => "\x7b" ++ ", ".intercalate texts ++ "\x7d") ?_
      refine List.map_congr_left fun e he => ?_
      rw [ihkey e he (hkeys e he), ihvalue e he (hvalues e he)]

/-- Below a hash there are older objects until an array comes: no hash is met inside of itself. -/
theorem shows_textIn (hh : h.Backward) (arrays hashes : List ObjectId) (v : Value)
    (hv : ∀ i ∈ hashes, v.OlderThan i) : h.Shows arrays v (h.textIn arrays hashes v) := by
  fun_induction h.textIn arrays hashes v with
  | case1 | case2 | case3 | case4 => exact .atom rfl
  | case5 _ _ _ _ ih => exact .returned (ih hv)
  | case6 _ _ _ hi | case7 _ _ _ _ hi | case8 _ _ _ _ hi | case9 _ _ _ _ _ _ hi =>
    exact .atom (by simp only [atom?, hi])
  | case10 _ _ _ _ hi hmem => exact .elided hi hmem
  | case11 arrays hashes i items hi hnew ih =>
    exact .array hi hnew fun v _ => ih v (List.forall_mem_nil _)
  | case12 _ _ i _ _ hmem => exact absurd (hv i hmem) (Nat.lt_irrefl i)
  | case13 arrays hashes i table hi hnew ihkey ihvalue =>
    have holder : ∀ v : Value, v.OlderThan i → ∀ j ∈ i :: hashes, v.OlderThan j := by
      intro v hvi j hj
      rcases List.mem_cons.mp hj with rfl | hj
      · exact hvi
      · exact hvi.mono (Nat.le_of_lt (hv j hj))
    have hinside := hh.hashes i table hi
    exact .hash hi (fun e he => ihkey e (holder _ (hinside e he).1)) fun e he =>
      ihvalue e (holder _ (hinside e he).2)

theorem shows_iff (hh : h.Backward) : h.Shows path v text ↔ text = h.textIn path [] v := by
  have hshows := shows_textIn hh path [] v (List.forall_mem_nil _)
  constructor
  · intro hs
    exact hs.unique hshows
  · rintro rfl
    exact hshows

end

-- ---------------------------------------------------------------------------
-- A writer with one set
-- ---------------------------------------------------------------------------

/-- What is still to be done: a value or a text is to be written, or an array to be left. -/
inductive Task where
  | value (v : Value)
  | text (s : String)
  | leave (id : ObjectId)

structure Writer where
  tasks : List Task
  active : Finset ObjectId
  out : String

def Task.separated (parts : List (List Task)) : List Task := [text ", "].intercalate parts

def Task.ofEntry (e : Entry) : List Task := [value e.key, text ": ", value e.value]

/-- One thing that the writer does. An array that is entered is in the set until it is left. -/
def write (h : Heap) : Writer → Option Writer
  | ⟨[], _, _⟩ => none
  | ⟨.text s :: rest, active, out⟩ => some ⟨rest, active, out ++ s⟩
  | ⟨.leave id :: rest, active, out⟩ => some ⟨rest, active.erase id, out⟩
  | ⟨.value v :: rest, active, out⟩ =>
    match v, h.object? v with
    | .returned _ v, _ => some ⟨.value v :: rest, active, out⟩
    | .object id, some (.array items) =>
      if id ∈ active then some ⟨rest, active, out ++ "[...]"⟩
      else
        let inside := Task.separated (items.toList.map fun v => [.value v])
        some ⟨.text "[" :: inside ++ .text "]" :: .leave id :: rest, insert id active, out⟩
    | _, some (.hash table) =>
      let inside := Task.separated (table.map Task.ofEntry)
      some ⟨.text "\x7b" :: inside ++ .text "\x7d" :: rest, active, out⟩
    | v, _ => (h.atom? v).map fun text => ⟨rest, active, out ++ text⟩

/-- The tasks come to an end with this text written and with the set as it was. -/
def Writes (h : Heap) (active : Finset ObjectId) (tasks : List Task) (text : String) : Prop :=
  ∀ rest out,
    StateTransition.Reaches h.write ⟨tasks ++ rest, active, out⟩ ⟨rest, active, out ++ text⟩

section
variable {h : Heap} {active : Finset ObjectId} {tasks more : List Task} {text text' : String}

theorem writes_nil : h.Writes active [] "" := by
  intro rest out
  rw [String.append_empty]
  exact .refl

theorem writes_text (s : String) : h.Writes active [.text s] s := fun _ _ => .single rfl

theorem Writes.append (hw : h.Writes active tasks text) (hw' : h.Writes active more text') :
    h.Writes active (tasks ++ more) (text ++ text') := by
  intro rest out
  rw [List.append_assoc, ← String.append_assoc]
  exact (hw (more ++ rest) out).trans (hw' rest (out ++ text))

theorem writes_separated {α : Type} {tasks : α → List Task} {text : α → String} (xs : List α)
    (hw : ∀ x ∈ xs, h.Writes active (tasks x) (text x)) :
    h.Writes active (Task.separated (xs.map tasks)) (", ".intercalate (xs.map text)) := by
  match xs with
  | [] => exact writes_nil
  | [x] => simpa [Task.separated] using hw x List.mem_cons_self
  | x :: y :: xs =>
    obtain ⟨hx, hrest⟩ := List.forall_mem_cons.mp hw
    have hmore := (hx.append (writes_text ", ")).append (writes_separated (y :: xs) hrest)
    simpa [Task.separated] using hmore

theorem Writes.step {v : Value} (hstep : ∀ rest out,
      h.write ⟨.value v :: rest, active, out⟩ = some ⟨tasks ++ rest, active, out⟩)
    (hw : h.Writes active tasks text) : h.Writes active [.value v] text := fun rest out =>
  .head (hstep rest out) (hw rest out)

theorem write_atom {v : Value} {rest : List Task} {out : String} (ha : h.atom? v = some text) :
    h.write ⟨.value v :: rest, active, out⟩ = some ⟨rest, active, out ++ text⟩ := by
  cases v with
  | object i =>
    simp only [write, object?]
    cases hi : h.objects[i]? with
    | none => simp [ha]
    | some o =>
      cases o with
      | array _ | hash _ => simp [atom?, hi] at ha
      | _ => simp [ha]
  | returned _ _ => cases ha
  | _ => simp [write, object?, ha]

theorem writes_array {items : Array Value} {i : ObjectId}
    (hi : h.objects[i]? = some (.array items)) (hnew : i ∉ active)
    (hw : h.Writes (insert i active) (Task.separated (items.toList.map fun v => [.value v])) text) :
    h.Writes active [.value (.object i)] ("[" ++ text ++ "]") := by
  intro rest out
  have hinside := ((writes_text "[").append hw).append (writes_text "]") (.leave i :: rest) out
  have henter : h.write ⟨.value (.object i) :: rest, active, out⟩ = some
      ⟨.text "[" :: Task.separated (items.toList.map fun v => [.value v]) ++
        .text "]" :: .leave i :: rest, insert i active, out⟩ := by
    simp [write, object?, hi, hnew]
  have hleave : h.write ⟨.leave i :: rest, insert i active, out ++ ("[" ++ text ++ "]")⟩ =
      some ⟨rest, active, out ++ ("[" ++ text ++ "]")⟩ := by
    rw [write, Finset.erase_insert hnew]
  refine .head henter (.tail ?_ hleave)
  simpa [StateTransition.Reaches] using hinside

theorem writes_hash {table : Table} {i : ObjectId} (hi : h.objects[i]? = some (.hash table))
    (hw : h.Writes active (Task.separated (table.map Task.ofEntry)) text) :
    h.Writes active [.value (.object i)] ("\x7b" ++ text ++ "\x7d") := by
  refine .step (fun rest out => ?_) (((writes_text "\x7b").append hw).append (writes_text "\x7d"))
  simp [write, object?, hi]

/-- The set has the arrays on the way, and the writer comes to what the way tells. -/
theorem Shows.writes {path : List ObjectId} (hs : h.Shows path v text) :
    h.Writes path.toFinset [.value v] text := by
  induction hs with
  | atom ha => exact fun rest out => .single (write_atom ha)
  | returned _ ih => exact .step (fun _ _ => rfl) ih
  | elided hi hmem =>
    intro rest out
    exact .single (by simp [write, object?, hi, hmem])
  | @array i path items text hi hnew _ ih =>
    refine writes_array hi (List.mem_toFinset.not.mpr hnew) ?_
    rw [← List.toFinset_cons]
    exact writes_separated items.toList ih
  | @hash i table path key value hi _ _ ihkey ihvalue =>
    refine writes_hash hi (writes_separated table fun e he => ?_)
    exact ((ihkey e he).append (writes_text ": ")).append (ihvalue e he)

theorem Writes.eval (hw : h.Writes active tasks text) (out : String) :
    StateTransition.eval h.write ⟨tasks, active, out⟩ = .some ⟨[], active, out ++ text⟩ := by
  have hreach := hw [] out
  rw [List.append_nil] at hreach
  exact Part.eq_some_iff.mpr (StateTransition.mem_eval.mpr ⟨hreach, rfl⟩)

end

end Heap

namespace Session

/-- Whatever programs have run in a session that started empty, and wherever the next one is: the
text of a value is what the way down from it tells, `[...]` for an array that is on the way already
and all of its elements for any other. A writer with one set of arrays comes to an end with that
text, and leaves the set as it found it, also in the middle of other arrays. -/
theorem display_elides_cycles (ps : List Program) (p : Program) (n : Nat) (v : Value) :
    let s := start.after ps
    let h := (Machine.run n (Machine.start 0 s.scope p s.heap)).heap
    (∀ text, h.Shows [] v text ↔ text = h.display v) ∧
    (∀ out, StateTransition.eval h.write ⟨[.value v], ∅, out⟩ = .some ⟨[], ∅, out ++ h.display v⟩) ∧
    ∀ path out, ∃ text, h.Shows path v text ∧
      StateTransition.eval h.write ⟨[.value v], path.toFinset, out⟩ =
        .some ⟨[], path.toFinset, out ++ text⟩ := by
  intro s h
  have hh : h.Backward := backward_state ps p n
  refine ⟨fun _ => Heap.shows_iff hh, fun out => ?_, fun path out => ?_⟩
  · exact (Heap.shows_textIn hh [] [] v (List.forall_mem_nil _)).writes.eval out
  · have hshows := Heap.shows_textIn hh path [] v (List.forall_mem_nil _)
    exact ⟨_, hshows, hshows.writes.eval out⟩

end Session

/-- An array in a hash in that array: seen from the hash, the hash comes again before the array
does. -/
example :
    let h : Heap := ⟨#[.array #[.object 1], .hash [⟨.ofInt 1, .int 1, .object 0⟩]], #[], 0⟩
    h.display (.object 0) = "[\x7b1: [...]\x7d]" ∧
      h.display (.object 1) = "\x7b1: [\x7b1: [...]\x7d]\x7d" := by
  cbv

end TinyScript
