import Mathlib.Data.List.Chain
import TinyScript.Proofs.Equality
import TinyScript.Proofs.Holding

/-!
# Scopes and containers that point back

Hosts open scopes, declare names in them and give names other values, make objects and run programs.
Whatever they do, and wherever a program is, each scope lies in an older one and each hash holds older
objects. So every walk outward ends and asks no scope twice, in particular none that it holds for
writing; and values that contain each other in a ring have an array among them, since an array alone
can come to hold what is newer (`Built.always_pointsBack`).
-/

namespace TinyScript

/-- What can be made of an empty heap by hosts and their programs, with scopes and values that are
there. -/
inductive Built : Heap → Prop
  | empty : Built .empty
  | new : Built h → Built (h.openScope none).2
  | enclosed : Built h → outer < h.scopes.size → Built (h.openScope (some outer)).2
  | declare (name : String) (b : Binding) : Built h → scope < h.scopes.size →
      b.value.OlderThan h.objects.size → Built (h.declare scope name b).2
  | assign (name : String) (v : Value) : Built h → scope < h.scopes.size →
      v.OlderThan h.objects.size → Built (h.assign scope name v).2
  | alloc (o : Object) : Built h → h.Holds o → Built (h.alloc o).2
  | run (p : Program) : Built h → scope < h.scopes.size → Built (p.eval scope h).2

namespace Heap

/-- Scopes and hashes lead to what was there before them, walks outward end, and only arrays close
a cycle. -/
structure PointsBack (h : Heap) : Prop where
  outer : ∀ (i o : ScopeId) (s : Scope), h.scopes[i]? = some s → s.outer = some o → o < i
  outward : ∀ i < h.scopes.size, h.Outward i (h.chain i) ∧ (h.chain i).Nodup
  resolve : ∀ i < h.scopes.size, ∀ name, ∃ asked, asked <+: h.chain i ∧ asked.Nodup ∧
    h.resolve i name = some (.answer asked.reverse (h.lookup i name))
  reassign : ∀ i < h.scopes.size, ∀ name v, ∃ asked, asked <+: h.chain i ∧ asked.Nodup ∧
    h.reassign i name v = some (.answer asked.reverse (h.assign i name v))
  hashes : ∀ (id : ObjectId) (t : Table), h.objects[id]? = some (.hash t) →
    ∀ e ∈ t, e.key.OlderThan id ∧ e.value.OlderThan id
  cycles : ∀ (v : Value) (vs : List Value), List.IsChain h.Contains (v :: (vs ++ [v])) →
    ∃ w ∈ v :: vs, (h.items? w).isSome = true

section
variable {h : Heap}

theorem Backward.outward (hh : h.Backward) (hi : i < h.scopes.size) : ∃ is, h.Outward i is := by
  induction i using Nat.strongRecOn with
  | ind i ih =>
    have hs := Array.getElem?_eq_getElem hi
    cases ho : h.scopes[i].outer with
    | none => exact ⟨[i], .last hs ho⟩
    | some o =>
      have hlt := hh.outer i o _ hs ho
      obtain ⟨is, his⟩ := ih o hlt (Nat.lt_trans hlt hi)
      exact ⟨i :: is, .next hs ho his⟩

theorem Backward.outward_chain (hh : h.Backward) (hi : i < h.scopes.size) :
    h.Outward i (h.chain i) := by
  obtain ⟨is, his⟩ := hh.outward hi
  rwa [his.chain]

-- ---------------------------------------------------------------------------
-- Cycles
-- ---------------------------------------------------------------------------

/-- What lies directly in a value that is no array, and so for good. -/
def ContainsFixed (h : Heap) (a b : Value) : Prop := h.Contains a b ∧ h.items? a = none

theorem ContainsFixed.older (hib : h.ContainsFixed (.object i) b) (hh : h.Backward) :
    b.OlderThan i := by
  obtain ⟨hcontains, hplain⟩ := hib
  rcases hh.older hcontains with ⟨items, hi, -⟩ | hb
  · exact nomatch hplain.symm.trans (items?_eq_some_iff.mpr hi)
  · exact hb

theorem transGen_of_isChain {R : Value → Value → Prop} {a b : Value} {vs : List Value}
    (hchain : List.IsChain R (a :: (vs ++ [b]))) : Relation.TransGen R a b := by
  induction vs generalizing a with
  | nil => exact .single (List.isChain_cons_cons.mp hchain).1
  | cons v vs ih =>
    obtain ⟨hab, hrest⟩ := List.isChain_cons_cons.mp hchain
    exact .head hab (ih hrest)

/-- Without an array a cycle would lead to ever older objects. -/
theorem Backward.exists_array {v : Value} {vs : List Value} (hh : h.Backward)
    (hcycle : List.IsChain h.Contains (v :: (vs ++ [v]))) :
    ∃ w ∈ v :: vs, (h.items? w).isSome = true := by
  by_contra hnone
  have hplain : ∀ w ∈ v :: vs, h.items? w = none := fun w hw =>
    Option.not_isSome_iff_eq_none.mp fun hsome => hnone ⟨w, hw, hsome⟩
  have hmem : ∀ w ∈ v :: (vs ++ [v]), w ∈ v :: vs := by grind
  have hfixed : List.IsChain h.ContainsFixed (v :: (vs ++ [v])) :=
    hcycle.imp_of_mem_imp fun a b ha _ hab => ⟨hab, hplain a (hmem a ha)⟩
  exact not_transGen_self (fun _ _ hab => hab.1) (fun i b hib => hib.older hh) v
    (transGen_of_isChain hfixed)

theorem Backward.pointsBack (hh : h.Backward) : h.PointsBack where
  outer := hh.outer
  outward _ hi := ⟨hh.outward_chain hi, (hh.outward_chain hi).nodup⟩
  resolve _ hi name := (hh.outward_chain hi).resolve name
  reassign _ hi name v := (hh.outward_chain hi).reassign name v
  hashes := hh.hashes
  cycles _ _ := hh.exists_array

end

end Heap

namespace Built

theorem backward (hb : Built h) : h.Backward := by
  induction hb with
  | empty => exact Heap.backward_empty
  | new _ ih => exact ih.openScope nofun
  | enclosed _ ho ih => exact ih.openScope fun o ho' => Option.some.inj ho' ▸ ho
  | declare name b _ hscope hb ih => exact Discipline.good_declare (D := creationOrder) ih hscope hb
  | assign name v _ hscope hv ih => exact Discipline.good_assign (D := creationOrder) ih hscope hv
  | alloc o _ ho ih => exact ih.alloc ho
  | run p _ hscope ih => exact (Discipline.kept_evalAt (D := creationOrder) 0 p ih hscope).good

/-- Whatever hosts and programs have made, and at each step of the next program, all of it points
back; and the scope that the program is in is there, so that what is said of its walks outward is
said of all that it does. -/
theorem always_pointsBack (hb : Built h) :
    h.PointsBack ∧
    ∀ (p : Program) (scope : ScopeId) (n : Nat), scope < h.scopes.size →
      let s := Machine.run n (Machine.start 0 scope p h)
      s.heap.PointsBack ∧ s.scope < s.heap.scopes.size := by
  have hh := hb.backward
  refine ⟨hh.pointsBack, fun p scope n hscope => ?_⟩
  have hstart : creationOrder.StateKept (Machine.start 0 scope p h) :=
    Discipline.kept_start p hh hscope
  have hstate := hstart.run n
  exact ⟨hstate.good.pointsBack, hstate.home⟩

/-- An array and a hash that hold each other, made in a scope from which a variable of the scope
around it is written. -/
theorem always_pointsBack_sample :
    let p : Program := [
      .declare .fixed "row" (.array []),
      .declare .fixed "table" (.hash [(.int 1, .ident "row")]),
      .expr (.call (.ident "push") [.ident "row", .ident "table"])]
    let outside := ((Heap.empty.openScope none).2.declare 0 "count" ⟨.mutable, .int 0⟩).2
    let h := (p.eval 1 (outside.openScope (some 0)).2).2
    Built h ∧ 1 < h.scopes.size ∧ h.PointsBack ∧
    (∀ n, (Machine.run n (Machine.start 0 1 p h)).heap.PointsBack) ∧ h.chain 1 = [1, 0] ∧
    h.reassign 1 "count" (.int 5) = some (.answer [0, 1] (h.assign 1 "count" (.int 5))) ∧
    List.IsChain h.Contains [.object 0, .object 1, .object 0] ∧
    ∃ w ∈ [Value.object 0, .object 1], (h.items? w).isSome = true := by
  intro p outside h
  have hb : Built h := by
    refine .run p (.enclosed (.declare "count" _ (.new .empty) ?_ trivial) ?_) ?_ <;> decide
  have hheap : h = ⟨
      #[.array #[.object 1], .hash [⟨.ofInt 1, .int 1, .object 0⟩], .builtin .push],
      #[⟨[("count", ⟨.mutable, .int 0⟩)], none⟩,
        ⟨[("table", ⟨.fixed, .object 1⟩), ("row", ⟨.fixed, .object 0⟩)], some 0⟩], 0⟩ := by decide
  have harray : h.objects[0]? = some (.array #[.object 1]) := by rw [hheap]; rfl
  have hhash : h.objects[1]? = some (.hash [⟨.ofInt 1, .int 1, .object 0⟩]) := by rw [hheap]; rfl
  have hscope : 1 < h.scopes.size := by rw [hheap]; decide
  have hchain : h.chain 1 = [1, 0] := by rw [hheap]; rfl
  have hcount : h.reassign 1 "count" (.int 5) =
      some (.answer [0, 1] (h.assign 1 "count" (.int 5))) := by
    rw [hheap, Heap.reassign, Heap.walk_ask _ _ _ List.not_mem_nil]
    exact (Heap.walk_ask _ _ _ (by decide)).trans rfl
  have hdown : h.Contains (.object 0) (.object 1) := .item harray (by simp)
  have hback : h.Contains (.object 1) (.object 0) :=
    .value (e := ⟨.ofInt 1, .int 1, .object 0⟩) hhash (List.mem_singleton_self _)
  have hring : List.IsChain h.Contains [.object 0, .object 1, .object 0] :=
    .cons_cons hdown (.cons_cons hback (.singleton _))
  obtain ⟨hpoints, hsteps⟩ := always_pointsBack hb
  exact ⟨hb, hscope, hpoints, fun n => (hsteps p 1 n hscope).1, hchain, hcount, hring,
    hpoints.cycles (.object 0) [.object 1] hring⟩

end Built

end TinyScript
