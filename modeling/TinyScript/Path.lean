/-!
# Walks that end

A walk that never returns to a place it came through, among finitely many places, ends: each step
leaves fewer unseen places (`unseen_cons_lt`).
-/

namespace TinyScript

variable {α : Type} [DecidableEq α]

def unseen (places path : List α) : Nat := places.countP (· ∉ path)

theorem unseen_cons_le (places path : List α) (x : α) :
    unseen places (x :: path) ≤ unseen places path :=
  List.countP_mono_left fun i _ => by simp

theorem unseen_cons_lt {places path : List α} {x : α} (hx : x ∈ places) (hnew : x ∉ path) :
    unseen places (x :: path) < unseen places path := by
  induction places with
  | nil => simp at hx
  | cons p places ih =>
    simp only [unseen, List.countP_cons] at ih ⊢
    have hle := unseen_cons_le places path x
    simp only [unseen] at hle
    by_cases hp : p = x
    · subst hp
      simp [hnew]
      simpa using Nat.lt_succ_of_le hle
    · have hlt := ih (by simpa [Ne.symm hp] using hx)
      simp only [List.mem_cons, hp, false_or] at hlt ⊢
      exact Nat.add_lt_add_right hlt _

end TinyScript
