import TinyScript.Proofs.Growth
import TinyScript.Proofs.Outward

/-!
# Scopes and their history

What a name means in a scope is told by the history of the scopes alone: by which scope was opened
in which, where the name was declared, and which of the writes were admitted. The store of scopes
keeps none of that history, and still answers as the history says (`History.lexical`).

A history counts the scopes that were opened, so that it can only be about scopes that are there.
-/

namespace TinyScript

/-- What was done to a store of scopes, empty at first, in which `n` scopes have been opened. -/
inductive History : Nat → Type
  | start : History 0
  | new (past : History n) : History (n + 1)
  | enclosed (past : History n) (outer : Fin n) : History (n + 1)
  | declare (past : History n) (scope : Fin n) (name : String) (b : Binding) : History n
  | assign (past : History n) (scope : Fin n) (name : String) (v : Value) : History n

structure Write where
  scope : ScopeId
  name : String
  value : Value

namespace History

/-- The store after everything that was done to it, whether it was admitted or refused. -/
def heap : History n → Heap
  | .start => .empty
  | .new past => (past.heap.openScope none).2
  | .enclosed past outer => (past.heap.openScope (some outer)).2
  | .declare past scope name b => (past.heap.declare scope name b).2
  | .assign past scope name v => (past.heap.assign scope name v).2

-- ---------------------------------------------------------------------------
-- What the history says
-- ---------------------------------------------------------------------------

def chain : History n → ScopeId → List ScopeId
  | .start, _ => []
  | @new n past, i => if i = n then [i] else past.chain i
  | @enclosed n past outer, i => if i = n then i :: past.chain outer else past.chain i
  | .declare past .., i | .assign past .., i => past.chain i

/-- How a scope declares a name, if it does. The first declaration counts. -/
def declared : History n → ScopeId → String → Option Mutability
  | .start, _, _ => none
  | .new past, i, name | .enclosed past _, i, name | .assign past .., i, name =>
    past.declared i name
  | .declare past scope x b, i, name =>
    (past.declared i name).or (if i = scope ∧ name = x then some b.mutability else none)

def owner (past : History n) (i : ScopeId) (name : String) : Option ScopeId :=
  (past.chain i).find? fun j => (past.declared j name).isSome

/-- The writes that were admitted, the latest first. A declaration writes to its own scope, and an
assignment to the innermost scope that declares the name, if it is a variable there. -/
def writes : History n → List Write
  | .start => []
  | .new past | .enclosed past _ => past.writes
  | .declare past scope name b =>
    if past.declared scope name = none then ⟨scope, name, b.value⟩ :: past.writes
    else past.writes
  | .assign past scope name v =>
    match past.owner scope name with
    | some j =>
      if past.declared j name = some .mutable then ⟨j, name, v⟩ :: past.writes else past.writes
    | none => past.writes

def latest (past : History n) (i : ScopeId) (name : String) : Option Value :=
  (past.writes.find? fun w => w.scope = i ∧ w.name = name).map Write.value

end History

namespace Heap

/-- `h'` is `h` but for one name of one scope, which is bound to `b`. -/
structure Rebound (h h' : Heap) (i : ScopeId) (name : String) (b : Binding) : Prop where
  binding : ∀ (x : String) (j : ScopeId),
    h'.binding? x j = if j = i ∧ x = name then some b else h.binding? x j
  outer : ∀ j : ScopeId, h'.scopes[j]?.map Scope.outer = h.scopes[j]?.map Scope.outer
  objects : h'.objects = h.objects
  signals : h'.signals = h.signals

-- ---------------------------------------------------------------------------
-- Changes of the store
-- ---------------------------------------------------------------------------

section
variable {h h' : Heap}

theorem Grows.keeps (hg : h.Grows h') : h.Keeps h' := by
  intro i s hs
  obtain ⟨s', hs', hgrows⟩ := hg.scopes i s hs
  exact ⟨s', hs', hgrows.outer⟩

theorem Grounded.chain_grows (hh : h.Grounded) (hg : h.Grows h') (hi : i < h.scopes.size) :
    h'.chain i = h.chain i := by
  obtain ⟨is, his⟩ := hh.outward i hi
  rw [his.chain, (his.keep hg.keeps).chain]

theorem Grounded.chain_openScope (hh : h.Grounded) (ho : ∀ o ∈ outer, o < h.scopes.size) :
    (h.openScope outer).2.chain h.scopes.size =
      h.scopes.size :: (outer.map h.chain).getD [] := by
  have hhere : (h.openScope outer).2.scopes[h.scopes.size]? = some ⟨[], outer⟩ :=
    Array.getElem?_push_size
  cases outer with
  | none => exact (Outward.last hhere rfl).chain
  | some o =>
    obtain ⟨is, his⟩ := hh.outward o (ho o rfl)
    have his' := his.keep (h.grows_openScope (some o)).keeps
    rw [(Outward.next hhere rfl his').chain]
    exact congrArg _ his.chain.symm

theorem Grounded.assign (hh : h.Grounded) (scope : ScopeId) (name : String) (v : Value) :
    (h.assign scope name v).2.Grounded := by
  rcases h.assign_cases scope name v with ⟨e, heq⟩ | ⟨i, -, b, -, -, heq⟩
  · rw [heq]
    exact hh
  · rw [heq]
    exact hh.modifyScope (f := fun s => s.assign name v) (fun _ => rfl) i

theorem size_assign (h : Heap) (scope : ScopeId) (name : String) (v : Value) :
    (h.assign scope name v).2.scopes.size = h.scopes.size := by
  rcases h.assign_cases scope name v with ⟨e, heq⟩ | ⟨i, -, b, -, -, heq⟩
  · rw [heq]
  · rw [heq]
    exact Array.size_modify

theorem rebound_declare (hi : i < h.scopes.size) (b : Binding) :
    h.Rebound (h.withScope i (·.declare name b)) i name b := by
  refine ⟨fun x j => ?_, outer_withScope (f := (·.declare name b)) (fun _ => rfl) h i, rfl, rfl⟩
  rw [binding?_withScope]
  by_cases hj : i = j
  · subst hj
    simp [binding?, Array.getElem?_eq_getElem hi, Scope.find?_declare]
  · rw [if_neg hj, if_neg fun hand => hj hand.1.symm]

theorem rebound_assign (hb : h.binding? name i = some b) (v : Value) :
    h.Rebound (h.withScope i (·.assign name v)) i name { b with value := v } := by
  refine ⟨fun x j => ?_, outer_withScope (f := (·.assign name v)) (fun _ => rfl) h i, rfl, rfl⟩
  rw [binding?_withScope]
  by_cases hj : i = j
  · subst hj
    obtain ⟨s, hs, hfind⟩ := Option.bind_eq_some_iff.mp hb
    simp only [binding?, hs, Option.bind_some, Scope.find?_assign, if_true, true_and]
    by_cases hx : x = name
    · rw [if_pos hx, hx, hfind, Option.map_some, if_pos rfl]
    · simp [hx]
  · rw [if_neg hj, if_neg fun hand => hj hand.1.symm]

end

end Heap

namespace History

-- ---------------------------------------------------------------------------
-- The store keeps track of the history
-- ---------------------------------------------------------------------------

structure Tracked (past : History n) : Prop where
  size : past.heap.scopes.size = n
  grounded : past.heap.Grounded
  chain : ∀ i < n, past.heap.chain i = past.chain i
  mutability : ∀ i name, (past.heap.binding? name i).map Binding.mutability = past.declared i name
  value : ∀ i name, (past.heap.binding? name i).map Binding.value = past.latest i name

section
variable {past : History n}

theorem Tracked.lt_size (ht : past.Tracked) (i : Fin n) : i.val < past.heap.scopes.size := by
  rw [ht.size]
  exact i.isLt

theorem Tracked.binding_none (ht : past.Tracked) :
    past.heap.binding? name i = none ↔ past.declared i name = none := by
  rw [← ht.mutability, Option.map_eq_none_iff]

theorem Tracked.isSome (ht : past.Tracked) :
    (past.heap.binding? name i).isSome = (past.declared i name).isSome := by
  rw [← ht.mutability, Option.isSome_map]

theorem Tracked.owner (ht : past.Tracked) (i : Fin n) (name : String) :
    ((past.heap.chain i).find? fun j => (past.heap.binding? name j).isSome) =
      past.owner i name := by
  rw [History.owner, ht.chain i i.isLt]
  exact congrArg (List.find? · _) (funext fun j => ht.isSome)

theorem owner_declared (ho : past.owner i name = some j) :
    ∃ m, past.declared j name = some m := by
  have hsome := List.find?_some ho
  exact Option.isSome_iff_exists.mp hsome

theorem Tracked.bound (ht : past.Tracked) (hd : past.declared i name = some m) :
    ∃ b, past.heap.binding? name i = some b ∧ b.mutability = m ∧
      past.latest i name = some b.value := by
  rw [← ht.mutability] at hd
  obtain ⟨b, hb, hm⟩ := Option.map_eq_some_iff.mp hd
  exact ⟨b, hb, hm, by rw [← ht.value, hb]; rfl⟩

theorem Tracked.openScope (ht : past.Tracked) (outer : Option ScopeId)
    (ho : ∀ o ∈ outer, o < past.heap.scopes.size) {later : History (n + 1)}
    (hheap : later.heap = (past.heap.openScope outer).2)
    (hchain : ∀ i, later.chain i =
      if i = n then i :: (outer.map past.heap.chain).getD [] else past.chain i)
    (hdeclared : later.declared = past.declared) (hwrites : later.writes = past.writes) :
    later.Tracked where
  size := by rw [hheap, Heap.openScope, Array.size_push, ht.size]
  grounded := hheap ▸ ht.grounded.openScope ho
  chain i hi := by
    rw [hheap, hchain]
    split
    case isTrue heq =>
      obtain rfl : i = past.heap.scopes.size := heq.trans ht.size.symm
      exact ht.grounded.chain_openScope ho
    case isFalse hne =>
      have hlt : i < n := Nat.lt_of_le_of_ne (Nat.le_of_lt_succ hi) hne
      rw [ht.grounded.chain_grows (past.heap.grows_openScope outer) (ht.size.symm ▸ hlt)]
      exact ht.chain i hlt
  mutability i name := by rw [hheap, Heap.binding?_openScope, hdeclared, ht.mutability]
  value i name := by rw [hheap, Heap.binding?_openScope, latest, hwrites, ht.value, latest]

theorem Tracked.rebound (ht : past.Tracked) {later : History n}
    (hgrows : past.heap.Grows later.heap)
    (hgrounded : later.heap.Grounded) (hsize : later.heap.scopes.size = past.heap.scopes.size)
    (hrebound : past.heap.Rebound later.heap i name b) (hchain : later.chain = past.chain)
    (hdeclared : ∀ j x, later.declared j x =
      if j = i ∧ x = name then some b.mutability else past.declared j x)
    (hwrites : later.writes = ⟨i, name, b.value⟩ :: past.writes) : later.Tracked where
  size := hsize.trans ht.size
  grounded := hgrounded
  chain j hj := by
    rw [ht.grounded.chain_grows hgrows (ht.size.symm ▸ hj), hchain]
    exact ht.chain j hj
  mutability j x := by
    rw [hrebound.binding, hdeclared, ← ht.mutability]
    split <;> rfl
  value j x := by
    rw [hrebound.binding, latest, hwrites, List.find?_cons]
    by_cases hjx : j = i ∧ x = name
    · obtain ⟨rfl, rfl⟩ := hjx
      simp
    · have hne : ¬ (i = j ∧ name = x) := fun hand => hjx ⟨hand.1.symm, hand.2.symm⟩
      rw [if_neg hjx, ht.value]
      simp [hne, latest]

theorem Tracked.refused (ht : past.Tracked) {later : History n} (hheap : later.heap = past.heap)
    (hchain : later.chain = past.chain) (hdeclared : later.declared = past.declared)
    (hwrites : later.writes = past.writes) : later.Tracked where
  size := hheap ▸ ht.size
  grounded := hheap ▸ ht.grounded
  chain i hi := by rw [hheap, hchain, ht.chain i hi]
  mutability i name := by rw [hheap, hdeclared, ht.mutability]
  value i name := by rw [hheap, latest, hwrites, ht.value, latest]

-- ---------------------------------------------------------------------------
-- What the store answers
-- ---------------------------------------------------------------------------

theorem Tracked.declare_refused (ht : past.Tracked) (hd : past.declared i name = some m)
    (b : Binding) :
    past.heap.declare i name b = (.error (.alreadyDeclared name), past.heap) := by
  obtain ⟨old, hold, -⟩ := ht.bound hd
  rw [Heap.declare, hold]
  rfl

theorem Tracked.declare_admitted (ht : past.Tracked) (hd : past.declared i name = none)
    (b : Binding) :
    past.heap.declare i name b = (.ok (), past.heap.withScope i (·.declare name b)) := by
  rw [Heap.declare, ht.binding_none.mpr hd]
  rfl

theorem Tracked.assign_undefined (ht : past.Tracked) {i : Fin n} (ho : past.owner i name = none)
    (v : Value) : past.heap.assign i name v = (.error (.undefined name), past.heap) := by
  rw [Heap.assign, ht.owner i name, ho]

theorem Tracked.assign_fixed (ht : past.Tracked) {i : Fin n} (ho : past.owner i name = some j)
    (hd : past.declared j name = some .fixed) (v : Value) :
    past.heap.assign i name v = (.error (.fixed name), past.heap) := by
  simp only [Heap.assign, ht.owner i name, ho, ht.mutability, hd]

theorem Tracked.assign_admitted (ht : past.Tracked) {i : Fin n} (ho : past.owner i name = some j)
    (hd : past.declared j name = some .mutable) (v : Value) :
    past.heap.assign i name v = (.ok (), past.heap.withScope j (·.assign name v)) := by
  simp only [Heap.assign, ht.owner i name, ho, ht.mutability, hd]
  rfl

theorem Tracked.declare (ht : past.Tracked) (i : Fin n) (name : String) (b : Binding) :
    (past.declare i name b).Tracked := by
  cases hd : past.declared i name with
  | some m =>
    refine ht.refused ?_ rfl ?_ ?_
    · rw [heap, ht.declare_refused hd b]
    · funext j x
      rw [declared]
      by_cases hjx : j = i.val ∧ x = name
      · rw [hjx.1, hjx.2, hd, Option.some_or]
      · rw [if_neg hjx, Option.or_none]
    · rw [writes, if_neg (by rw [hd]; exact nofun)]
  | none =>
    have hrebound : past.heap.Rebound (past.declare i name b).heap i name b := by
      rw [heap, ht.declare_admitted hd b]
      exact Heap.rebound_declare (ht.lt_size i) b
    refine ht.rebound (past.heap.grows_declare i name b) (ht.grounded.declare i name b)
      (past.heap.size_declare i name b) hrebound rfl (fun j x => ?_) (by rw [writes, if_pos hd])
    rw [declared]
    by_cases hjx : j = i.val ∧ x = name
    · rw [if_pos hjx, if_pos hjx, hjx.1, hjx.2, hd, Option.none_or]
    · rw [if_neg hjx, if_neg hjx, Option.or_none]

theorem Tracked.assign (ht : past.Tracked) (i : Fin n) (name : String) (v : Value) :
    (past.assign i name v).Tracked := by
  cases ho : past.owner i name with
  | none =>
    refine ht.refused ?_ rfl rfl (by simp only [writes, ho])
    rw [heap, ht.assign_undefined ho v]
  | some j =>
    obtain ⟨m, hd⟩ := owner_declared ho
    cases m with
    | fixed =>
      refine ht.refused ?_ rfl rfl ?_
      · rw [heap, ht.assign_fixed ho hd v]
      · simp only [writes, ho]
        rw [if_neg (by rw [hd]; exact nofun)]
    | mutable =>
      obtain ⟨b, hb, hm, -⟩ := ht.bound hd
      have hrebound :
        past.heap.Rebound (past.assign i name v).heap j name { b with value := v } := by
        rw [heap, ht.assign_admitted ho hd v]
        exact Heap.rebound_assign hb v
      refine ht.rebound (past.heap.grows_assign i name v) (ht.grounded.assign i name v)
        (past.heap.size_assign i name v) hrebound rfl (fun k x => ?_) ?_
      · by_cases hkx : k = j ∧ x = name
        · rw [if_pos hkx, hkx.1, hkx.2, hm]
          exact hd
        · rw [if_neg hkx]
          rfl
      · simp only [writes, ho]
        rw [if_pos hd]

end

theorem tracked (past : History n) : past.Tracked := by
  induction past with
  | start => exact ⟨rfl, Heap.grounded_empty, nofun, fun _ _ => rfl, fun _ _ => rfl⟩
  | new past ht => exact ht.openScope none nofun rfl (fun _ => rfl) rfl rfl
  | enclosed past outer ht =>
    refine ht.openScope (some outer) ?_ rfl (fun i => ?_) rfl rfl
    · rintro _ ⟨⟩
      exact ht.lt_size outer
    · rw [chain, Option.map_some, Option.getD_some, ht.chain outer outer.isLt]
  | declare past scope name b ht => exact ht.declare scope name b
  | assign past scope name v ht => exact ht.assign scope name v

/-- The store's answers about a name, seen from a scope, as the history tells them. A refusal
leaves the store as it was, and a change is one of a single binding. -/
structure Lexical (past : History n) (i : Fin n) (name : String) : Prop where
  found : ∀ j, past.owner i name = some j →
    ∃ v, past.latest j name = some v ∧ past.heap.lookup i name = some v
  unbound : past.owner i name = none → past.heap.lookup i name = none
  declare_ok : ∀ b, (past.heap.declare i name b).1 = .ok () ↔ past.declared i name = none
  declare_error : ∀ b e, (past.heap.declare i name b).1 = .error e ↔
    (past.declared i name).isSome ∧ e = .alreadyDeclared name
  declare_change : ∀ b, (past.heap.declare i name b).1 = .ok () →
    past.heap.Rebound (past.heap.declare i name b).2 i name b
  declare_refused : ∀ b e, (past.heap.declare i name b).1 = .error e →
    (past.heap.declare i name b).2 = past.heap
  assign_undefined : ∀ v x, (past.heap.assign i name v).1 = .error (.undefined x) ↔
    past.owner i name = none ∧ x = name
  assign_fixed : ∀ v x, (past.heap.assign i name v).1 = .error (.fixed x) ↔
    (∃ j, past.owner i name = some j ∧ past.declared j name = some .fixed) ∧ x = name
  assign_ok : ∀ v, (past.heap.assign i name v).1 = .ok () ↔
    ∃ j, past.owner i name = some j ∧ past.declared j name = some .mutable
  assign_change : ∀ v j, past.owner i name = some j → (past.heap.assign i name v).1 = .ok () →
    past.heap.Rebound (past.heap.assign i name v).2 j name ⟨.mutable, v⟩
  assign_refused : ∀ v e, (past.heap.assign i name v).1 = .error e →
    (past.heap.assign i name v).2 = past.heap

theorem Tracked.lookup {past : History n} (ht : past.Tracked) (i : Fin n) (name : String) :
    past.heap.lookup i name = (past.owner i name).bind (past.latest · name) := by
  rw [Heap.lookup, List.findSome?_eq_bind_find?, ht.owner i name, Option.map_bind]
  exact congrArg _ (funext fun j => ht.value j name)

/-- After any history, a name means what was last written to the innermost scope that declares it,
and the store admits and refuses declarations and assignments by what the scopes declare. -/
theorem lexical (past : History n) (i : Fin n) (name : String) : past.Lexical i name := by
  have ht := past.tracked
  have hlookup := ht.lookup i name
  refine ⟨?found, ?unbound, ?declare_ok, ?declare_error, ?declare_change, ?declare_refused,
    ?assign_undefined, ?assign_fixed, ?assign_ok, ?assign_change, ?assign_refused⟩
  case found =>
    intro j ho
    obtain ⟨m, hd⟩ := owner_declared ho
    obtain ⟨b, -, -, hlatest⟩ := ht.bound hd
    rw [ho, Option.bind_some, hlatest] at hlookup
    exact ⟨b.value, hlatest, hlookup⟩
  case unbound =>
    intro ho
    rw [hlookup, ho, Option.bind_none]
  case declare_ok | declare_error | declare_change | declare_refused =>
    intro b
    cases hd : past.declared i name with
    | some m => simp [ht.declare_refused hd b, eq_comm]
    | none =>
      have hrebound : past.heap.Rebound _ i name b := Heap.rebound_declare (ht.lt_size i) b
      simp [ht.declare_admitted hd b, hrebound]
  case assign_undefined | assign_fixed | assign_ok | assign_change | assign_refused =>
    intro v
    cases ho : past.owner i name with
    | none => simp [ht.assign_undefined ho v, eq_comm]
    | some j =>
      obtain ⟨m, hd⟩ := owner_declared ho
      cases m with
      | fixed => simp [ht.assign_fixed ho hd v, hd, eq_comm]
      | mutable =>
        obtain ⟨b, hb, hm, -⟩ := ht.bound hd
        have hrebound := Heap.rebound_assign hb v
        rw [hm] at hrebound
        simp [ht.assign_admitted ho hd v, hd, hrebound]

end History

end TinyScript
