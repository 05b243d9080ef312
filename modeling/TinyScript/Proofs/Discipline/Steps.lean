import TinyScript.Proofs.Discipline
import TinyScript.Proofs.Termination

/-!
# What is kept in the middle of a run

A discipline is kept by an evaluation as a whole, and it is kept on the way: in every state that the
machine comes to the heap is good, what waits on the stack holds allowed values only, and a signal
that is on its way out carries one. One law for each turn of the machine, and then a step and a run
(`Discipline.StateKept`).
-/

namespace TinyScript.Discipline

open Machine

variable {D : Discipline}

-- ---------------------------------------------------------------------------
-- What a state holds
-- ---------------------------------------------------------------------------

def goal (D : Discipline) (h : Heap) : Goal → Prop
  | .call callee => D.value h callee
  | .array => True

/-- Everything that a node has put together while it waits is allowed. -/
def frame (D : Discipline) (h : Heap) : Frame → Prop
  | .right _ left => D.value h left
  | .list goal done _ => D.goal h goal ∧ ∀ v ∈ done, D.value h v
  | .key _ _ table => D.table h table
  | .value hashKey key _ table =>
    D.value h key ∧ h.hashKey? key = some hashKey ∧ D.table h table
  | .position collection => D.value h collection
  | .body caller => D.home h caller
  | _ => True

def move (D : Discipline) (h : Heap) : Move → Prop
  | .done v => D.result h v
  | .sub _ frame => D.frame h frame
  | .tail _ => True
  | .lookup _ i => D.scope h i
  | .assign _ v i => D.value h v ∧ D.scope h i
  | .enter _ new => D.home h new

def control (D : Discipline) (h : Heap) : Control → Prop
  | .eval _ => True
  | .lookup _ _ i => D.scope h i
  | .assign _ _ v i => D.value h v ∧ D.scope h i
  | .value v => D.result h v

structure TurnKept (D : Discipline) (h : Heap) (t : Turn) : Prop where
  grows : h.Grows t.2
  good : D.good t.2
  move : D.move t.2 t.1

structure StateKept (D : Discipline) (s : State) : Prop where
  good : D.good s.heap
  home : D.home s.heap s.scope
  stack : ∀ w ∈ s.stack, D.frame s.heap w.frame
  control : D.control s.heap s.control

section
variable {h h' : Heap} {scope : ScopeId} {depth : Nat} {table : Table}

theorem goal_mono (hg : h.Grows h') (goal : Goal) (hgoal : D.goal h goal) : D.goal h' goal := by
  cases goal with
  | call callee => exact D.value_mono hg hgoal
  | array => trivial

theorem frame_mono (hg : h.Grows h') (frame : Frame) (hf : D.frame h frame) : D.frame h' frame := by
  cases frame with
  | right _ _ | position _ => exact D.value_mono hg hf
  | list goal done _ => exact ⟨goal_mono hg goal hf.1, fun v hv => D.value_mono hg (hf.2 v hv)⟩
  | key _ _ _ => exact table_mono hg hf
  | value _ _ _ _ => exact ⟨D.value_mono hg hf.1, hg.hashKey? hf.2.1, table_mono hg hf.2.2⟩
  | body _ => exact D.home_mono hg hf
  | _ => trivial

-- ---------------------------------------------------------------------------
-- Turns
-- ---------------------------------------------------------------------------

theorem TurnKept.after {t : Turn} (hg : h.Grows h') (ht : D.TurnKept h' t) : D.TurnKept h t :=
  ⟨hg.trans ht.grows, ht.good, ht.move⟩

theorem kept_finish {r : Run} (hr : D.Kept h r) : D.TurnKept h (finish r) :=
  ⟨hr.grows, hr.good, hr.result⟩

theorem kept_turn {m : Move} (hh : D.good h) (hm : D.move h m) : D.TurnKept h (m, h) :=
  ⟨.refl h, hh, hm⟩

theorem kept_done (hh : D.good h) (hv : D.value h v) : D.TurnKept h (.done v, h) :=
  kept_turn hh (result_of_value hv)

theorem kept_enter (hh : D.good h) (hnew : D.home h new) :
    D.TurnKept h (enter depth code new h) := by
  unfold enter
  split
  · exact kept_turn hh hnew
  · exact kept_finish (kept_raise hh _)

theorem kept_invoke (hh : D.good h) (hf : D.value h f) (hargs : ∀ v ∈ args, D.value h v) :
    D.TurnKept h (invoke depth f args h) := by
  cases hobject : h.object? f with
  | none =>
    simp only [invoke, hobject]
    exact kept_finish (kept_raise hh _)
  | some o =>
    cases o with
    | builtin b =>
      simp only [invoke, hobject]
      exact kept_finish (kept_builtin b hh hargs)
    | function params code outer =>
      simp only [invoke, hobject]
      split
      · obtain ⟨hgrows, hgood, hhome⟩ := good_entry hh hf hobject hargs
        generalize Heap.bindParams _ _ _ = r at hgrows hgood hhome ⊢
        obtain ⟨_ | _, h'⟩ := r
        · exact (kept_finish (kept_raise hgood _)).after hgrows
        · exact (kept_enter hgood hhome).after hgrows
      · exact kept_finish (kept_raise hh _)
    | _ =>
      simp only [invoke, hobject]
      exact kept_finish (kept_raise hh _)

theorem kept_collect (goal : Goal) (es : List Expr) (hh : D.good h) (hgoal : D.goal h goal)
    (hdone : ∀ v ∈ done, D.value h v) : D.TurnKept h (collect depth goal done es h) := by
  cases es with
  | nil =>
    cases goal with
    | call f => exact kept_invoke hh hgoal hdone
    | array =>
      exact kept_finish (kept_alloc hh (fun v hv => hdone v (List.mem_toArray.mp hv)) trivial)
  | cons e es => exact kept_turn hh ⟨hgoal, hdone⟩

theorem kept_collectPairs (ps : List (Expr × Expr)) (hh : D.good h) (ht : D.table h table) :
    D.TurnKept h (collectPairs table ps h) := by
  cases ps with
  | nil => exact kept_finish (kept_alloc hh ht.1 ht.2)
  | cons => exact kept_turn hh ht

theorem kept_begin (node : Node) (hh : D.good h) (hhome : D.home h scope) :
    D.TurnKept h (begin depth scope node h) := by
  cases node with
  | expr e =>
    match e with
    | .ident _ => exact kept_turn hh (D.home_scope hhome)
    | .int _ | .bool _ | .null => exact kept_done hh (D.direct trivial)
    | .str _ => exact kept_finish (kept_alloc hh trivial trivial)
    | .func _ _ => exact kept_finish (kept_alloc hh (D.home_scope hhome) trivial)
    | .unary _ _ | .binary _ _ _ | .cond _ _ _ | .call _ _ | .index _ _ =>
      exact kept_turn hh trivial
    | .array items => exact kept_collect .array items hh trivial (List.forall_mem_nil _)
    | .hash pairs => exact kept_collectPairs pairs hh table_nil
  | stmt s => cases s <;> exact kept_turn hh trivial
  | block b =>
    cases b with
    | nil => exact kept_done hh value_null
    | cons => exact kept_turn hh trivial
  | program => exact kept_turn hh trivial

theorem kept_resume (frame : Frame) (hh : D.good h) (hhome : D.home h scope)
    (hf : D.frame h frame) (hv : D.value h v) : D.TurnKept h (resume depth scope v frame h) := by
  cases frame with
  | unary op => exact kept_finish (kept_unary op v hh)
  | left | collection => exact kept_turn hh hv
  | right op l => exact kept_finish (kept_binary op l v hh)
  | cond yes no =>
    cases v with
    | bool b =>
      cases b with
      | true => exact kept_turn hh trivial
      | false =>
        cases no with
        | none => exact kept_done hh value_null
        | some _ => exact kept_turn hh trivial
    | _ => exact kept_done hh value_null
  | callee args => exact kept_collect (.call v) args hh hv (List.forall_mem_nil _)
  | list goal done rest =>
    refine kept_collect goal rest hh hf.1 fun w hw => ?_
    rcases List.mem_append.mp hw with hw | hw
    · exact hf.2 w hw
    · exact List.mem_singleton.mp hw ▸ hv
  | key value rest table =>
    rw [resume]
    split
    · exact kept_finish (kept_raise hh _)
    · rename_i hashKey hhash
      exact kept_turn hh ⟨hv, hhash, hf⟩
  | value hashKey k rest table =>
    obtain ⟨hk, hhash, ht⟩ := hf
    exact kept_collectPairs rest hh (table_insert ht hk hv hhash)
  | position c => exact kept_finish (kept_index c v hh hf)
  | declare m name =>
    exact kept_finish (kept_settle (h.grows_declare _ _ _) (good_declare hh hhome hv))
  | assign name => exact kept_turn hh ⟨hv, D.home_scope hhome⟩
  | ret => exact kept_finish (kept_returning hh hv)
  | seq rest =>
    cases rest with
    | nil => exact kept_done hh hv
    | cons => exact kept_turn hh trivial
  | body | program => exact kept_turn hh (result_unwrap (result_of_value hv))

theorem kept_look (name : String) (hh : D.good h) (hi : D.scope h i) :
    D.TurnKept h (look name i h) := by
  unfold look
  split
  · rename_i b hb
    exact kept_done hh (D.binding hh hi hb)
  · split
    · rename_i o ho
      obtain ⟨s, hs, ho⟩ := Option.bind_eq_some_iff.mp ho
      exact kept_turn hh (D.outer hh hi hs ho)
    · refine kept_finish ?_
      unfold unbound
      split
      · exact kept_alloc hh trivial trivial
      · exact kept_raise hh _

theorem kept_change (name : String) (hh : D.good h) (hi : D.scope h i) (hv : D.value h v) :
    D.TurnKept h (change name v i h) := by
  unfold change
  split
  · rename_i b hb
    split
    · rename_i hm
      refine ⟨Heap.grows_withScope fun s hs => ?_, D.assign hh hi hv hb hm, D.direct trivial⟩
      exact Scope.grows_assign (Heap.find?_of_binding? hb hs) hm v
    · exact kept_finish (kept_raise hh _)
  · split
    · rename_i o ho
      obtain ⟨s, hs, ho⟩ := Option.bind_eq_some_iff.mp ho
      exact kept_turn hh ⟨hv, D.outer hh hi hs ho⟩
    · exact kept_finish (kept_raise hh _)

end

-- ---------------------------------------------------------------------------
-- Steps and runs
-- ---------------------------------------------------------------------------

section
variable {scope : ScopeId} {depth : Nat}

theorem kept_perform {h : Heap} {t : Turn} (ht : D.TurnKept h t) (hhome : D.home h scope)
    (hstack : ∀ w ∈ stack, D.frame h w.frame) :
    D.StateKept (perform node scope depth stack t) := by
  obtain ⟨m, h'⟩ := t
  have hhome := D.home_mono ht.grows hhome
  have hstack : ∀ w ∈ stack, D.frame h' w.frame := fun w hw =>
    frame_mono ht.grows w.frame (hstack w hw)
  have hm : D.move h' m := ht.move
  cases m with
  | done _ | lookup _ _ | assign _ _ _ => exact ⟨ht.good, hhome, hstack, hm⟩
  | tail _ => exact ⟨ht.good, hhome, hstack, trivial⟩
  | sub _ _ => exact ⟨ht.good, hhome, List.forall_mem_cons.mpr ⟨hm, hstack⟩, trivial⟩
  | enter _ _ => exact ⟨ht.good, hm, List.forall_mem_cons.mpr ⟨hhome, hstack⟩, trivial⟩

theorem StateKept.step {s s' : State} (hs : D.StateKept s) (h : step s = some s') :
    D.StateKept s' := by
  obtain ⟨control, scope, depth, stack, heap⟩ := s
  obtain ⟨hh, hhome, hstack, hcontrol⟩ := hs
  cases control with
  | eval node =>
    obtain rfl := Option.some.inj h
    exact kept_perform (kept_begin node hh hhome) hhome hstack
  | lookup node name i =>
    obtain rfl := Option.some.inj h
    exact kept_perform (kept_look name hh hcontrol) hhome hstack
  | assign node name v i =>
    obtain rfl := Option.some.inj h
    exact kept_perform (kept_change name hh hcontrol.2 hcontrol.1) hhome hstack
  | value v =>
    cases stack with
    | nil => exact nomatch h
    | cons w stack =>
      obtain ⟨node, d, frame⟩ := w
      obtain ⟨hf, hstack⟩ := List.forall_mem_cons.mp hstack
      by_cases hp : frame.passes = true
      · rw [step_value hp] at h
        split at h
        · obtain rfl := Option.some.inj h
          exact ⟨hh, hhome, hstack, hcontrol⟩
        · rename_i hv
          obtain rfl := Option.some.inj h
          have hv := value_of_result hcontrol (Bool.eq_false_iff.mpr hv)
          exact kept_perform (kept_resume frame hh hhome hf hv) hhome hstack
      · cases frame with
        | body caller =>
          obtain rfl := Option.some.inj h
          exact ⟨hh, hf, hstack, result_unwrap hcontrol⟩
        | program =>
          obtain rfl := Option.some.inj h
          exact ⟨hh, hhome, hstack, result_unwrap hcontrol⟩
        | _ => exact absurd rfl hp

theorem StateKept.run {s : State} (hs : D.StateKept s) (n : Nat) : D.StateKept (run n s) :=
  run_keeps (fun _ _ hs h => hs.step h) hs n

theorem kept_start {h : Heap} (p : Program) (hh : D.good h) (hhome : D.home h scope) :
    D.StateKept (start depth scope p h) := ⟨hh, hhome, nofun, trivial⟩

end

end TinyScript.Discipline
