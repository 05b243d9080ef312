import TinyScript.Proofs.Growth
import TinyScript.Proofs.Outward

/-!
# Scopes that are held

A name is looked for scope by scope, and each scope on the way is held until the whole walk is over:
for reading, which others may do at the same time, or for writing, which needs the scope alone.
Nothing in a walk bounds it. Where scopes lay around each other in a ring, one that reads would never
come back, and one that writes would ask for a scope that it holds itself.

On a way outward that ends neither can happen. A walk goes along it from its start up to the scope
that has the name, and comes to what `Heap.lookup` and `Heap.assign` give (`Outward.resolve`,
`Outward.reassign`).
-/

namespace TinyScript

inductive Hold where
  | reading
  | writing
  deriving DecidableEq

/-- What a walk comes to: an answer and the scopes it holds by then, the last one first, or a scope
that it asks for while it holds it for writing. -/
inductive Walk (α : Type) where
  | answer (held : List ScopeId) (a : α)
  | clash (scope : ScopeId)

namespace Heap

/-- Asks a scope, and the one around it if there is no answer; `last` is the answer where no scope is
around. -/
def walk (hold : Hold) (ask : ScopeId → Option α) (last : α) (h : Heap) (held : List ScopeId)
    (i : ScopeId) : Option (Walk α) :=
  if hold = .writing ∧ i ∈ held then some (.clash i)
  else
    match ask i, h.scopes[i]?.bind Scope.outer with
    | some a, _ => some (.answer (i :: held) a)
    | none, some o => h |>.walk hold ask last (i :: held) o
    | none, none => some (.answer (i :: held) last)
partial_fixpoint

def readAt (name : String) (h : Heap) (i : ScopeId) : Option (Option Value) :=
  (h.binding? name i).map fun b => some b.value

def writeAt (name : String) (v : Value) (h : Heap) (i : ScopeId) :
    Option (Except ScopeError Unit × Heap) :=
  (h.binding? name i).map fun b =>
    match b.mutability with
    | .mutable => (.ok (), h.withScope i (·.assign name v))
    | .fixed => (.error (.fixed name), h)

def resolve (scope : ScopeId) (name : String) (h : Heap) : Option (Walk (Option Value)) :=
  h.walk .reading (h.readAt name) none [] scope

def reassign (scope : ScopeId) (name : String) (v : Value) (h : Heap) :
    Option (Walk (Except ScopeError Unit × Heap)) :=
  h.walk .writing (h.writeAt name v) (.error (.undefined name), h) [] scope

section
variable {h : Heap} {is held : List ScopeId}

theorem walk_ask (hold : Hold) (ask : ScopeId → Option α) (last : α) (hi : i ∉ held) :
    h.walk hold ask last held i =
      match ask i, h.scopes[i]?.bind Scope.outer with
      | some a, _ => some (.answer (i :: held) a)
      | none, some o => h.walk hold ask last (i :: held) o
      | none, none => some (.answer (i :: held) last) := by
  rw [walk, if_neg fun hclash => hi hclash.2]

/-- A walk follows the way outward and ends on it, if it holds none of its scopes before. -/
theorem Outward.walk (hold : Hold) (ask : ScopeId → Option α) (last : α) (hi : h.Outward i is)
    (hnew : ∀ j ∈ is, j ∉ held) :
    ∃ asked, asked <+: is ∧ h.walk hold ask last held i =
      some (.answer (asked.reverse ++ held) ((is.findSome? ask).getD last)) := by
  induction hi generalizing held with
  | @last i s hs ho =>
    refine ⟨[i], List.prefix_refl _, ?_⟩
    rw [walk_ask hold ask last (hnew i List.mem_cons_self)]
    cases hask : ask i with
    | some a => simp [hask]
    | none => simp [hask, hs, ho]
  | @next i s o is hs ho hrest ih =>
    rw [walk_ask hold ask last (hnew i List.mem_cons_self)]
    cases hask : ask i with
    | some a => exact ⟨[i], by simp, by simp [hask]⟩
    | none =>
      -- no scope comes twice, so those further out are not the one that is held now
      have hnodup := (Outward.next hs ho hrest).nodup
      obtain ⟨hi, -⟩ := List.nodup_cons.mp hnodup
      have hnew' : ∀ j ∈ is, j ∉ i :: held := fun j hj hmem => by
        rcases List.mem_cons.mp hmem with rfl | hmem
        · exact hi hj
        · exact hnew j (List.mem_cons_of_mem _ hj) hmem
      obtain ⟨asked, hasked, hwalk⟩ := ih hnew'
      refine ⟨i :: asked, (List.prefix_cons_inj i).mpr hasked, ?_⟩
      simp [hs, ho, hwalk, hask]

theorem Outward.walk_free (hold : Hold) (ask : ScopeId → Option α) (last : α)
    (hi : h.Outward i is) :
    ∃ asked, asked <+: is ∧ asked.Nodup ∧ h.walk hold ask last [] i =
      some (.answer asked.reverse ((is.findSome? ask).getD last)) := by
  obtain ⟨asked, hasked, hwalk⟩ := hi.walk hold ask last fun j _ => List.not_mem_nil
  rw [List.append_nil] at hwalk
  exact ⟨asked, hasked, hi.nodup.sublist hasked.sublist, hwalk⟩

theorem Outward.resolve (hi : h.Outward i is) (name : String) :
    ∃ asked, asked <+: is ∧ asked.Nodup ∧
      h.resolve i name = some (.answer asked.reverse (h.lookup i name)) := by
  obtain ⟨asked, hasked, hnodup, hwalk⟩ := hi.walk_free .reading (h.readAt name) none
  have hread : is.findSome? (h.readAt name) =
      (is.findSome? (h.binding? name)).map fun b => some b.value := List.map_findSome?.symm
  refine ⟨asked, hasked, hnodup, hwalk.trans ?_⟩
  rw [hread, Heap.lookup, hi.chain]
  cases is.findSome? (h.binding? name) <;> rfl

theorem Outward.reassign (hi : h.Outward i is) (name : String) (v : Value) :
    ∃ asked, asked <+: is ∧ asked.Nodup ∧
      h.reassign i name v = some (.answer asked.reverse (h.assign i name v)) := by
  obtain ⟨asked, hasked, hnodup, hwalk⟩ :=
    hi.walk_free .writing (h.writeAt name v) (.error (.undefined name), h)
  refine ⟨asked, hasked, hnodup, hwalk.trans ?_⟩
  rw [Heap.assign, hi.chain, List.findSome?_eq_bind_find?]
  simp only [writeAt, Option.isSome_map]
  cases howner : is.find? fun j => (h.binding? name j).isSome with
  | none => rfl
  | some j =>
    have hsome := List.find?_some howner
    obtain ⟨⟨m, old⟩, hb⟩ := Option.isSome_iff_exists.mp hsome
    simp only [writeAt, Option.bind_some, hb, Option.map_some]
    cases m <;> rfl

end

/-- Two scopes around each other: a writer that gets no answer comes back to where it started. -/
example :
    let h : Heap := ⟨#[], #[⟨[], some 1⟩, ⟨[], some 0⟩], 0⟩
    h.walk .writing (fun _ => none) () [] 0 = some (.clash 0) := by
  cbv

end Heap

end TinyScript
