import TinyScript.Proofs.Clean

/-!
# Arrays as queues

Whatever the built-in procedures are asked to do, one after another, on arrays that lie in each
other or in themselves: an array has the elements that come of replaying, on a plain list, the
requests that named it and did not fail (`Heap.arrays_replay`). No array is changed through another
one.
-/

namespace TinyScript

-- ---------------------------------------------------------------------------
-- Procedures on lists
-- ---------------------------------------------------------------------------

namespace Builtin

def mutates : Builtin → Bool
  | push | pushleft | pop | popleft => true
  | len | head | tail => false

/-- The elements that are left of `items`; `extra` are the arguments behind the array. -/
def edit (b : Builtin) (extra items : List Value) : List Value :=
  match b with
  | push => items ++ extra
  | pushleft => extra ++ items
  | pop => items.dropLast
  | popleft => items.tail
  | len | head | tail => items

def answer (b : Builtin) (id : ObjectId) (items : List Value) : Value :=
  match b with
  | len => .int (Int64.ofNat items.length)
  | head => items.head?.getD .null
  | tail => items.getLast?.getD .null
  | push | pushleft => .null
  | pop | popleft => if items = [] then .null else .object id

theorem edit_of_not_mutates (hb : b.mutates = false) : edit b extra items = items := by
  cases b <;> first | rfl | exact nomatch hb

theorem answer_of_mutates {id : ObjectId} (hb : b.mutates = true) :
    (answer b id items).isError = false := by
  cases b with
  | push | pushleft => rfl
  | pop | popleft => simp only [answer]; split <;> rfl
  | _ => exact nomatch hb

end Builtin

structure Request where
  procedure : Builtin
  args : List Value

def Request.run (r : Request) (h : Heap) : Run := r.procedure.call r.args h

structure Reply extends Request where
  result : Value

/-- The request was to change the array `id`, and it did not fail. -/
def Reply.concerns (c : Reply) (id : ObjectId) : Bool :=
  c.procedure.mutates && c.args.head? == some (.object id) && !c.result.isError

def replay (id : ObjectId) (log : List Reply) (items : List Value) : List Value :=
  (log.filter (·.concerns id)).foldl (fun items c => c.procedure.edit c.args.tail items) items

section
variable {id : ObjectId}

theorem replay_one (c : Reply) (items : List Value) : replay id [c] items =
    if c.concerns id then c.procedure.edit c.args.tail items else items := by
  simp only [replay, List.filter_cons]
  split <;> rfl

theorem replay_cons (c : Reply) (log : List Reply) (items : List Value) :
    replay id (c :: log) items = replay id log (replay id [c] items) := by
  simp only [replay, List.filter_cons]
  split <;> rfl

end

namespace Heap

def list? (h : Heap) (id : ObjectId) : Option (List Value) :=
  (h.items? (.object id)).map Array.toList

def setList (id : ObjectId) (items : List Value) (h : Heap) : Heap :=
  h.modifyItems id fun _ => items.toArray

def serve (h : Heap) : List Request → List Reply × Heap
  | [] => ([], h)
  | r :: rs =>
    let (v, h₁) := r.run h
    let (log, h₂) := h₁.serve rs
    (⟨r, v⟩ :: log, h₂)

end Heap

/-- What a request comes to. -/
inductive Request.Does (h : Heap) : Request → Run → Prop
  | array : h.list? i = some items → extra.length + 1 = b.arity →
      Does h ⟨b, .object i :: extra⟩ (b.answer i items, h.setList i (b.edit extra items))
  | text : h.string? v = some s → Does h ⟨.len, [v]⟩ (.int (Int64.ofNat s.utf8ByteSize), h)
  | arity : vs.length ≠ b.arity → Does h ⟨b, vs⟩ (h.raise (.arity b.arity vs.length))
  | argument : extra.length + 1 = b.arity → (∀ i, v = .object i → h.list? i = none) →
      (b = .len → h.string? v = none) →
      Does h ⟨b, v :: extra⟩ (h.raise (.argument b (h.tag v)))

-- ---------------------------------------------------------------------------
-- The arrays of a heap
-- ---------------------------------------------------------------------------

namespace Heap

section
variable {h : Heap} {id i : ObjectId} {items : List Value}

theorem list?_eq_some_iff :
    h.list? id = some items ↔ h.objects[id]? = some (.array items.toArray) := by
  rw [list?, Option.map_eq_some_iff]
  constructor
  · rintro ⟨xs, hxs, rfl⟩
    exact items?_eq_some_iff.mp hxs
  · intro hobject
    exact ⟨_, items?_eq_some_iff.mpr hobject, rfl⟩

theorem list?_of_not_concerns {h' : Heap} {c : Reply} (hc : c.concerns id = false)
    (ho : h'.objects[id]? = h.objects[id]?) :
    h'.list? id = (h.list? id).map (replay id [c]) := by
  have hreplay : replay id [c] = fun items => items := by
    funext items
    rw [replay_one, hc]
    rfl
  rw [hreplay, Option.map_id']
  simp only [list?, items?, object?, ho]

theorem setList_objects (hlist : h.list? id = some items') :
    (h.setList id items).objects[i]? =
      if id = i then some (.array items.toArray) else h.objects[i]? := by
  rw [setList, modifyItems, Array.getElem?_modify]
  split
  · subst_vars
    rw [list?_eq_some_iff.mp hlist]
    rfl
  · rfl

theorem list?_setList (hlist : h.list? id = some items') :
    (h.setList id items).list? id = some items := by
  rw [list?_eq_some_iff, setList_objects hlist, if_pos rfl]

theorem modifyItems_eq_setList {f : Array Value → Array Value} {xs : Array Value}
    (hxs : h.objects[id]? = some (.array xs)) (hf : (f xs).toList = items) :
    h.modifyItems id f = h.setList id items := by
  subst hf
  unfold setList modifyItems
  congr 1
  apply Array.ext_getElem?
  intro i
  rw [Array.getElem?_modify, Array.getElem?_modify]
  split
  · subst_vars
    rw [hxs]
    rfl
  · rfl

theorem setList_self (hlist : h.list? id = some items) : h.setList id items = h := by
  have hobjects : (h.setList id items).objects = h.objects := by
    apply Array.ext_getElem?
    intro i
    rw [setList_objects hlist]
    split
    · subst_vars
      exact (list?_eq_some_iff.mp hlist).symm
    · rfl
  exact congrArg (Heap.mk · h.scopes h.signals) hobjects

end

end Heap

-- ---------------------------------------------------------------------------
-- One request
-- ---------------------------------------------------------------------------

theorem Builtin.onArray_eq {h : Heap} {id : ObjectId} {items : Array Value} (b : Builtin)
    (extra : List Value) (hitems : h.objects[id]? = some (.array items)) :
    b.onArray id items extra h =
      (b.answer id items.toList, h.setList id (b.edit extra items.toList)) := by
  have hlist : h.list? id = some items.toList := Heap.list?_eq_some_iff.mpr hitems
  cases b with
  | len | head | tail =>
    simp [onArray, answer, edit, Heap.setList_self hlist, List.head?_eq_getElem?]
  | push | pushleft =>
    refine Prod.ext rfl (Heap.modifyItems_eq_setList hitems ?_)
    simp [edit]
  | pop =>
    by_cases hempty : items = #[]
    · subst hempty
      exact Prod.ext rfl (Heap.setList_self hlist).symm
    · simp only [onArray, answer, Array.isEmpty_iff, Array.toList_eq_nil_iff, if_neg hempty]
      exact Prod.ext rfl (Heap.modifyItems_eq_setList hitems (by simp [edit]))
  | popleft =>
    by_cases hempty : items = #[]
    · subst hempty
      exact Prod.ext rfl (Heap.setList_self hlist).symm
    · simp only [onArray, answer, Array.isEmpty_iff, Array.toList_eq_nil_iff, if_neg hempty]
      refine Prod.ext rfl (Heap.modifyItems_eq_setList hitems ?_)
      rw [Array.toList_extract, List.extract_eq_take_drop, List.drop_one, edit]
      exact List.take_of_length_le (by simp)

namespace Request

theorem does_run (r : Request) (h : Heap) : r.Does h (r.run h) := by
  obtain ⟨b, vs⟩ := r
  unfold run Builtin.call
  dsimp only
  split
  · have hb : ([] : List Value).length ≠ b.arity := by cases b <;> nofun
    exact .arity hb
  · rename_i v extra
    split
    · rename_i hlength
      split
      · rename_i hitems
        rw [Builtin.onArray_eq _ _ hitems]
        exact .array (Heap.list?_eq_some_iff.mpr hitems) hlength
      · rename_i hs
        cases List.length_eq_zero_iff.mp (Nat.succ.inj hlength)
        exact .text (Heap.string?_eq_some_iff.mpr hs)
      · rename_i hnoText hnoArray
        refine .argument hlength (fun i hi => ?_) (fun hb => ?_)
        · refine Option.eq_none_iff_forall_ne_some.mpr fun items hitems => ?_
          subst hi
          exact hnoArray i _ rfl (Heap.list?_eq_some_iff.mp hitems)
        · refine Option.eq_none_iff_forall_ne_some.mpr fun s hs => ?_
          exact hnoText s hb (Heap.string?_eq_some_iff.mp hs)
    · rename_i hlength
      exact .arity hlength

section
variable {h : Heap} {r : Request} {out : Run} {i : ObjectId}

theorem Does.frame (hd : Does h r out) :
    out.2.scopes = h.scopes ∧ ∀ i, (r.args.head? = some (.object i) → h.list? i = none) →
      out.2.objects[i]? = h.objects[i]? := by
  cases hd with
  | array hlist _ =>
    refine ⟨rfl, fun i hi => ?_⟩
    rw [Heap.setList_objects hlist, if_neg]
    rintro rfl
    exact nomatch hlist.symm.trans (hi rfl)
  | text _ => exact ⟨rfl, fun _ _ => rfl⟩
  | arity _ => exact ⟨rfl, fun _ _ => rfl⟩
  | argument _ _ _ => exact ⟨rfl, fun _ _ => rfl⟩

theorem Does.failure (hd : Does h r out) (hout : out.1.isError = true) :
    out.2.objects = h.objects ∧ out.2.scopes = h.scopes := by
  refine ⟨?_, hd.frame.1⟩
  cases hd with
  | @array _ items b _ hlist _ =>
    cases hb : b.mutates with
    | false => rw [Builtin.edit_of_not_mutates hb, Heap.setList_self hlist]
    | true => exact nomatch (Builtin.answer_of_mutates hb).symm.trans hout
  | text _ => rfl
  | arity _ => rfl
  | argument _ _ _ => rfl

theorem Does.list? (hd : Does h r out) :
    out.2.list? i = (h.list? i).map (replay i [⟨r, out.1⟩]) := by
  cases hd with
  | @array j items b extra hitems _ =>
    by_cases hj : j = i
    · subst hj
      rw [Heap.list?_setList hitems, hitems, Option.map_some, replay_one]
      cases hb : b.mutates with
      | false => simp [Reply.concerns, hb, Builtin.edit_of_not_mutates hb]
      | true => simp [Reply.concerns, hb, Builtin.answer_of_mutates hb]
    · refine Heap.list?_of_not_concerns (by simp [Reply.concerns, hj]) ?_
      rw [Heap.setList_objects hitems, if_neg hj]
  | text _ => exact Heap.list?_of_not_concerns rfl rfl
  | arity _ => exact Heap.list?_of_not_concerns (Bool.and_false _) rfl
  | argument _ _ _ => exact Heap.list?_of_not_concerns (Bool.and_false _) rfl

end

end Request

namespace Heap

/-- The invariant of a run of requests: each array has the replayed elements. -/
theorem list?_serve (h : Heap) (rs : List Request) (id : ObjectId) :
    (h.serve rs).2.list? id = (h.list? id).map (replay id (h.serve rs).1) := by
  induction rs generalizing h with
  | nil => exact Option.map_id'.symm
  | cons r rs ih =>
    have hstep := (r.does_run h).list? (i := id)
    simp only [serve]
    rw [ih, hstep, Option.map_map]
    congr 1
    funext items
    exact (replay_cons _ _ items).symm

/-- After any requests each array has the elements that come of replaying those of them that named
it as their first argument and did not fail. The next request does what its procedure is to do with
these elements: it changes the array that it names and nothing else, and nothing at all if it
fails. -/
theorem arrays_replay (h : Heap) (before : List Request) (r : Request) :
    let log := (h.serve before).1
    let now := (h.serve before).2
    let after := r.run now
    (∀ id, now.list? id = (h.list? id).map (replay id log)) ∧
    r.Does now after ∧
    after.2.scopes = now.scopes ∧
    (∀ id, (r.args.head? = some (.object id) → now.list? id = none) →
      after.2.objects[id]? = now.objects[id]?) ∧
    (after.1.isError = true → after.2.objects = now.objects) := by
  intro log now after
  have hdoes := r.does_run now
  exact ⟨h.list?_serve before, hdoes, hdoes.frame.1, hdoes.frame.2, fun he => (hdoes.failure he).1⟩

/-- An array is put into itself, behind a number, and emptied from the front. -/
example :
    let h : Heap := ⟨#[.array #[]], #[], 0⟩
    let rs : List Request := [⟨.push, [.object 0, .object 0]⟩, ⟨.pushleft, [.object 0, .int 7]⟩,
      ⟨.popleft, [.object 0]⟩, ⟨.tail, [.object 0]⟩, ⟨.popleft, [.object 0]⟩, ⟨.pop, [.object 0]⟩]
    (h.serve rs).1.map Reply.result = [.null, .null, .object 0, .object 0, .object 0, .null] ∧
      (h.serve rs).2.list? 0 = some [] := by
  decide

end Heap

end TinyScript
