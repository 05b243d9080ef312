import TinyScript.Proofs.Discipline.Steps
import TinyScript.Session

/-!
# What is stored

A failure and a return are values on their way out and never get into a variable, an array or a
hash, and a return carries none of them. A hash has its entries under the hash keys of their own
keys. Both hold at every moment of a session: in between its programs, and at each step of a program
while it runs (`Session.runs_sound`).
-/

namespace TinyScript

namespace Heap

def Keyed (h : Heap) : Prop :=
  ∀ (id : ObjectId) (o : Object), h.objects[id]? = some o → o.Keyed h

structure Sound (h : Heap) : Prop where
  clean : h.Clean
  keyed : h.Keyed

theorem sound_empty : empty.Sound := ⟨clean_empty, fun _ _ => nofun⟩

variable {h h' : Heap}

theorem Keyed.of_objects (hk : h.Keyed) (hg : h.Grows h') (heq : h'.objects = h.objects) :
    h'.Keyed := fun id o ho => Discipline.Keyed.mono hg (hk id o (heq ▸ ho))

theorem Keyed.alloc (hk : h.Keyed) (ho : o.Keyed h) : (h.alloc o).2.Keyed := by
  intro id o' ho'
  refine Discipline.Keyed.mono (h.grows_alloc o) ?_
  rcases object_of_alloc ho' with rfl | ho'
  · exact ho
  · exact hk id o' ho'

theorem Keyed.modifyItems (hk : h.Keyed) (i : ObjectId) (f : Array Value → Array Value) :
    (h.modifyItems i f).Keyed := by
  intro id o ho
  refine Discipline.Keyed.mono (h.grows_modifyItems i f) ?_
  rcases object_of_modifyItems ho with ⟨items, -, rfl⟩ | ho
  · trivial
  · exact hk id o ho

end Heap

theorem Object.within_plain {o : Object} :
    o.Within (fun v => v.Plain) (fun _ => True) ↔ o.Clean := by
  cases o with
  | array _ | hash _ => exact Iff.rfl
  | _ => exact iff_of_true trivial trivial

/-- No signal is stored, and hashes keep the hash keys of their keys. -/
def soundness : Discipline where
  good := Heap.Sound
  value _ v := v.Plain
  scope _ _ := True
  home _ _ := True
  value_mono _ hv := hv
  scope_mono _ _ := trivial
  home_mono _ _ := trivial
  home_scope _ := trivial
  direct {_ v} hv := by
    cases v with
    | int _ | bool _ | null => rfl
    | _ => exact hv.elim
  unwrap hv := nomatch hv
  outer _ _ _ _ := trivial
  binding hh _ hb := hh.clean.binding? hb
  inside hh _ ho := Object.within_plain.mpr (hh.clean.object? ho)
  signals hh := ⟨hh.clean.signals _, hh.keyed.of_objects (Heap.grows_signals _ _) rfl⟩
  alloc hh ho hk := ⟨⟨hh.clean.alloc (Object.within_plain.mp ho), hh.keyed.alloc hk⟩, rfl⟩
  openScope hh _ :=
    ⟨⟨hh.clean.openScope, hh.keyed.of_objects (Heap.grows_openScope _ _) rfl⟩, trivial⟩
  declare hh _ hb hnew := by
    refine ⟨hh.clean.modifyScope (fun s hs => hs.declare hb) _, ?_⟩
    refine hh.keyed.of_objects (Heap.grows_withScope fun s hs => ?_) rfl
    exact Scope.grows_declare (Heap.binding?_eq_none hnew hs) _
  assign hh _ hv hb hm := by
    refine ⟨hh.clean.modifyScope (fun s hs => hs.assign hv) _, ?_⟩
    refine hh.keyed.of_objects (Heap.grows_withScope fun s hs => ?_) rfl
    exact Scope.grows_assign (Heap.find?_of_binding? hb hs) hm _
  modifyItems hh _ hitems hf := by
    refine ⟨hh.clean.modifyArray fun items hitems' => ?_, hh.keyed.modifyItems _ _⟩
    obtain rfl := Object.array.inj (Option.some.inj (hitems.symm.trans hitems'))
    exact hf

namespace Session

def after (s : Session) (ps : List Program) : Session := ps.foldl (fun s p => (s.run p).2) s

structure Sound (s : Session) : Prop where
  heap : s.heap.Sound
  inside : Machine.Inside s.scope s.heap

theorem sound_start : start.Sound where
  heap := ⟨Heap.clean_empty.openScope,
    Heap.sound_empty.keyed.of_objects (Heap.grows_openScope _ none) rfl⟩
  inside := ⟨Heap.grounded_empty.openScope nofun, Nat.zero_lt_one⟩

theorem Sound.run {s : Session} (hs : s.Sound) (p : Program) : (s.run p).2.Sound :=
  ⟨(Discipline.kept_evalAt (D := soundness) 0 p hs.heap trivial).good,
    Machine.inside_evalAt 0 p hs.inside⟩

theorem Sound.after {s : Session} (hs : s.Sound) (ps : List Program) : (s.after ps).Sound := by
  induction ps generalizing s with
  | nil => exact hs
  | cons p ps ih => exact ih (hs.run p)

theorem Sound.state {s : Session} (hs : s.Sound) (p : Program) (n : Nat) :
    soundness.StateKept (Machine.run n (Machine.start 0 s.scope p s.heap)) :=
  (Discipline.kept_start p hs.heap trivial).run n

theorem Sound.result {s : Session} (hs : s.Sound) (p : Program)
    (hp : (s.run p).1.isError = false) : (s.run p).1.Plain :=
  have hkept := Discipline.kept_block (D := soundness) (Discipline.kept_apply _) p hs.heap trivial
    Discipline.value_null
  Discipline.value_of_unwrap hkept.result hp

/-- Whatever programs have run in a session that started empty, a program comes to its end with a
result that is no return and with nothing stored that is a signal, each hash entry under the hash
key of its own key. The same holds of the heap at each step on the way, and each return that arises
carries a value that is no signal. -/
theorem runs_sound (ps : List Program) (p : Program) :
    let s := start.after ps
    let r := s.run p
    let state := fun n => Machine.run n (Machine.start 0 s.scope p s.heap)
    (r.2.heap.Clean ∧ r.2.heap.Keyed ∧ ∀ n v, r.1 ≠ .returned n v) ∧
    (∃ n, ∀ m ≥ n, state m = Machine.final 0 s.scope (r.1, r.2.heap)) ∧
    ∀ n, (state n).heap.Clean ∧ (state n).heap.Keyed ∧
      ∀ i v, (state n).control = .value (.returned i v) → v.Plain := by
  have hs := sound_start.after ps
  have hrun := hs.run p
  refine ⟨⟨hrun.heap.clean, hrun.heap.keyed, fun n v hreturned => ?_⟩, ?_, fun n => ?_⟩
  · have hplain := hs.result p (by rw [hreturned]; rfl)
    rw [hreturned] at hplain
    exact nomatch hplain
  · exact (Machine.program_reaches 0 p hs.inside).ends (Machine.step_final _ _ _)
  · have hstate := hs.state p n
    refine ⟨hstate.good.clean, hstate.good.keyed, fun i v hv => ?_⟩
    have hcontrol := hstate.control
    rw [hv] at hcontrol
    exact hcontrol

end Session

end TinyScript
