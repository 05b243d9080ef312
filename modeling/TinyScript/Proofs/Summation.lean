import TinyScript.Proofs.Activation
import TinyScript.Proofs.CallDepth
import TinyScript.Proofs.Dialogue

/-!
# How deep calls go

The sum of the first numbers, by a function that calls itself once for each of them, uses up one
call for zero and one more for each number. So it gives the sum for as many numbers as calls may be
active, less one, and beyond that the failure of the limit; and a negative number is as good as one
beyond, since counting down from it comes to zero only after all the others (`Session.sum_depth`).
-/

namespace TinyScript

namespace Summation

def source : String :=
  "val sum = func(n) \x7b if (n == 0) \x7b 0 \x7d else \x7b n + sum(n - 1) \x7d \x7d;"

def body : Block :=
  [.expr (.cond (.binary .equal (.ident "n") (.int 0)) [.expr (.int 0)]
    (some [.expr (.binary .add (.ident "n")
      (.call (.ident "sum") [.binary .sub (.ident "n") (.int 1)]))]))]

/-- The function `f` sums, and its name is known where it was made. -/
structure Known (h : Heap) (f : ObjectId) (top : ScopeId) : Prop where
  function : h.object? (.object f) = some (.function ["n"] body top)
  outward : h.Outward top [top]
  name : h.binding? "sum" top = some ⟨.fixed, .object f⟩

/-- What comes of `k` with so many calls: the sum if they are enough. -/
def Comes (calls : Nat) (k : Int64) (v : Value) : Prop :=
  if 0 ≤ k.toInt ∧ k.toInt < calls then
    ∃ n : Int64, v = .int n ∧ 2 * n.toInt = k.toInt * (k.toInt + 1)
  else ∃ i, v = .error i .callDepth

-- ---------------------------------------------------------------------------
-- The body
-- ---------------------------------------------------------------------------

section
variable {h : Heap} {f : ObjectId} {top : ScopeId}

theorem eval_body {call : Caller} {scope : ScopeId} (hn : h.lookup scope "n" = some (.int k))
    (hsum : h.lookup scope "sum" = some (.object f)) :
    Block.eval call scope body .null h =
      if k = 0 then (.int 0, h)
      else andThen (call (.object f) [.int (k - 1)] h) fun v h => h.binary .add (.int k) v := by
  have htest : (Expr.binary .equal (.ident "n") (.int 0)).eval call scope h =
      (.bool (k == 0), h) := by
    rw [Expr.eval, Expr.eval_name hn]
    rfl
  have hless : Expr.evalList call scope [.binary .sub (.ident "n") (.int 1)] h =
      (.ok [.int (k - 1)], h) := by
    rw [Expr.evalList_cons, Expr.eval, Expr.eval_name hn]
    rfl
  have hcall : (Expr.call (.ident "sum") [.binary .sub (.ident "n") (.int 1)]).eval call scope h =
      call (.object f) [.int (k - 1)] h := by
    rw [Expr.eval_call, Expr.eval_name hsum, andThen_value rfl, hless]
    rfl
  rw [body, Block.eval_expr, Expr.eval, htest, andThen_value rfl]
  by_cases hk : k = 0
  · rw [if_pos hk, hk]
    exact Block.eval_expr _ _
  · rw [if_neg hk, beq_false_of_ne hk]
    dsimp only
    rw [Block.eval_expr, Expr.eval, Expr.eval_name hn, andThen_value rfl, hcall]

def started (h : Heap) (top : ScopeId) (k : Int64) : Heap :=
  h.entered top [("n", ⟨.mutable, .int k⟩)]

theorem Known.started (hk : Known h f top) (k : Int64) : Known (started h top k) f top where
  function := hk.function
  outward := hk.outward.older
  name := (hk.outward.binding?_older _).trans hk.name

theorem Known.applyWith {run : Block → ScopeId → Heap → Run} (hk : Known h f top) (k : Int64) :
    applyWith run (.object f) [.int k] h =
      run Summation.body h.scopes.size (Summation.started h top k) :=
  applyWith_entered hk.function rfl (by decide)

theorem Known.body {call : Caller} (hk : Known h f top) (k : Int64) :
    Block.eval call h.scopes.size Summation.body .null (Summation.started h top k) =
      if k = 0 then (.int 0, Summation.started h top k)
      else andThen (call (.object f) [.int (k - 1)] (Summation.started h top k)) fun v h =>
        h.binary .add (.int k) v := by
  have hinner : (Summation.started h top k).Outward h.scopes.size [h.scopes.size, top] :=
    hk.outward.entered
  have hown (name : String) : (Summation.started h top k).binding? name h.scopes.size =
      [("n", Binding.mk .mutable (.int k))].lookup name := by
    rw [Summation.started, Heap.binding?_entered, if_pos rfl]
  have hknown := hk.started k
  refine eval_body ?_ ?_
  · exact Heap.lookup_own hinner (hown "n")
  · rw [Heap.lookup_outer hinner hknown.outward (hown "sum")]
    exact Heap.lookup_own hknown.outward hknown.name

-- ---------------------------------------------------------------------------
-- Numbers
-- ---------------------------------------------------------------------------

theorem comes_zero (calls : Nat) : Comes (calls + 1) 0 (.int 0) := by
  rw [Comes, if_pos (by simp)]
  exact ⟨0, rfl, rfl⟩

/-- A number that the calls do not suffice for does not get one that they do by going down once, not
even where it wraps around: there are far fewer calls than numbers. -/
theorem toInt_less (k : Int64) (hcalls : calls < maxCallDepth) (hk : k ≠ 0) :
    (0 ≤ (k - 1).toInt ∧ (k - 1).toInt < calls ↔ 0 ≤ k.toInt ∧ k.toInt < calls + 1) ∧
    (0 ≤ k.toInt → (k - 1).toInt = k.toInt - 1) := by
  have hne : k.toInt ≠ 0 := fun h => hk (Int64.toInt_inj.mp h)
  have hlow : -2 ^ 63 ≤ k.toInt := Int64.le_toInt k
  have hhigh : k.toInt < 2 ^ 63 := Int64.toInt_lt k
  have hless : (k - 1).toInt = (k.toInt - 1).bmod (2 ^ 64) := Int64.toInt_sub k 1
  have hdepth : maxCallDepth = 20000 := rfl
  by_cases hmin : k.toInt = -2 ^ 63
  · have hmax : (-2 ^ 63 - 1 : Int).bmod (2 ^ 64) = 2 ^ 63 - 1 := by decide
    rw [hless, hmin, hmax]
    omega
  · rw [hless, Int.bmod_eq_of_le (by omega) (by omega)]
    omega

theorem Comes.step (hcalls : calls < maxCallDepth) (hk : k ≠ 0) (hv : Comes calls (k - 1) r.1) :
    Comes (calls + 1) k (andThen r fun v h => h.binary .add (.int k) v).caught.1 := by
  obtain ⟨hiff, hless⟩ := toInt_less k hcalls hk
  obtain ⟨v, h⟩ := r
  by_cases hin : 0 ≤ (k - 1).toInt ∧ (k - 1).toInt < calls
  · obtain ⟨hlow, hhigh⟩ := hiff.mp hin
    rw [Comes, if_pos hin, hless hlow] at hv
    obtain ⟨n, rfl, hn⟩ := hv
    rw [Comes, if_pos ⟨hlow, by omega⟩]
    refine ⟨k + n, rfl, ?_⟩
    have hdepth : maxCallDepth = 20000 := rfl
    have hsquare : (k.toInt - 1) * (k.toInt - 1 + 1) ≤ 20000 * 20000 :=
      Int.mul_le_mul (by omega) (by omega) (by omega) (by omega)
    have hpos : 0 ≤ (k.toInt - 1) * (k.toInt - 1 + 1) := Int.mul_nonneg (by omega) (by omega)
    rw [Int64.toInt_add, Int.bmod_eq_of_le (by omega) (by omega)]
    calc 2 * (k.toInt + n.toInt) = 2 * k.toInt + (k.toInt - 1) * (k.toInt - 1 + 1) := by
          rw [Int.mul_add, hn]
      _ = k.toInt * (k.toInt + 1) := by grind
  · rw [Comes, if_neg hin] at hv
    obtain ⟨i, rfl⟩ := hv
    rw [Comes, if_neg fun h => hin (hiff.mpr ⟨h.1, by omega⟩)]
    exact ⟨i, rfl⟩

-- ---------------------------------------------------------------------------
-- Calls
-- ---------------------------------------------------------------------------

theorem comes_apply (hcalls : calls ≤ maxCallDepth) (hk : Known h f top) (k : Int64) :
    Comes calls k (apply calls (.object f) [.int k] h).1 := by
  induction calls generalizing h k with
  | zero =>
    have hout : ¬(0 ≤ k.toInt ∧ k.toInt < (0 : Nat)) := by omega
    rw [apply, hk.applyWith, Comes, if_neg hout]
    exact ⟨_, rfl⟩
  | succ calls ih =>
    rw [apply, hk.applyWith]
    change Comes (calls + 1) k (Run.caught (Block.eval _ h.scopes.size body .null _)).1
    rw [hk.body]
    split
    case isTrue hzero =>
      rw [hzero]
      exact comes_zero calls
    case isFalse hne => exact (ih (Nat.le_of_succ_le hcalls) (hk.started k) (k - 1)).step hcalls hne

theorem runText_source :
    ∃ h, Session.start.runText source = (.ok .null, ⟨h, 0⟩) ∧ Known h 0 0 := by
  have hparse : Program.parse source = ([.declare .fixed "sum" (.func ["n"] body)], []) := by
    decide +kernel
  exact ⟨_, Session.runText_of_parse hparse, rfl, .last rfl rfl, rfl⟩

theorem eval_call (hknown : Known h f top) {a : Expr}
    (ha : ∀ call scope h, a.eval call scope h = (.int k, h)) :
    (Session.run ⟨h, top⟩ [.expr (.call (.ident "sum") [a])]).1 =
      (apply maxCallDepth (.object f) [.int k] h).1.unwrap := by
  have hargs (call : Caller) : Expr.evalList call top [a] h = (.ok [.int k], h) := by
    rw [Expr.evalList_cons, ha]
    rfl
  rw [Session.run_eq, Block.eval_expr, Expr.eval_call,
    Expr.eval_name (Heap.lookup_own hknown.outward hknown.name), andThen_value rfl, hargs]
  rfl

theorem Comes.worded (hv : Comes maxCallDepth k v) :
    (0 ≤ k ∧ k ≤ 19999 → ∃ n, v.unwrap = .int n ∧ n.toInt = k.toInt * (k.toInt + 1) / 2) ∧
    (¬(0 ≤ k ∧ k ≤ 19999) →
      v.unwrap.failure? = some "maximum call depth exceeded: 20000") := by
  have hiff : 0 ≤ k.toInt ∧ k.toInt < maxCallDepth ↔ 0 ≤ k ∧ k ≤ 19999 := by
    have hlimit : (19999 : Int64).toInt = 19999 := by decide
    have hdepth : maxCallDepth = 20000 := rfl
    rw [Int64.le_iff_toInt_le, Int64.le_iff_toInt_le, Int64.toInt_zero, hlimit]
    omega
  rw [Comes] at hv
  split at hv
  case isTrue hin =>
    obtain ⟨n, rfl, hn⟩ := hv
    exact ⟨fun _ => ⟨n, rfl, by omega⟩, fun hout => absurd (hiff.mp hin) hout⟩
  case isFalse hout =>
    obtain ⟨i, rfl⟩ := hv
    refine ⟨fun hin => absurd (hiff.mpr hin) hout, fun _ => ?_⟩
    exact congrArg some message_callDepth

end

end Summation

/-- The sum of the numbers up to `k`, for every `k` and for every way to write it. It takes one call
more than the number, and so many calls there are and no more. -/
theorem Session.sum_depth (k : Int64) (argument : Expr)
    (hk : ∀ call scope h, argument.eval call scope h = (.int k, h)) :
    let defined := start.runText Summation.source
    let v := (defined.2.run [.expr (.call (.ident "sum") [argument])]).1
    defined.1 = .ok .null ∧
    (0 ≤ k ∧ k ≤ 19999 → ∃ n, v = .int n ∧ n.toInt = k.toInt * (k.toInt + 1) / 2) ∧
    (¬(0 ≤ k ∧ k ≤ 19999) → v.failure? = some "maximum call depth exceeded: 20000") := by
  obtain ⟨h, hsource, hknown⟩ := Summation.runText_source
  have hcomes := Summation.comes_apply (Nat.le_refl _) hknown k
  have hcall := Summation.eval_call hknown hk
  rw [hsource]
  exact ⟨rfl, hcall ▸ hcomes.worded⟩

/-- The last number that there are enough calls for, the next one, and one below zero. -/
theorem Session.sum_depth_sample :
    let s := (start.runText Summation.source).2
    let sum (a : Expr) := (s.run [.expr (.call (.ident "sum") [a])]).1
    (∃ n, sum (.int 19999) = .int n ∧ n.toInt = 199990000) ∧
    (sum (.int 20000)).failure? = some "maximum call depth exceeded: 20000" ∧
    (sum (.unary .negate (.int 1))).failure? = some "maximum call depth exceeded: 20000" := by
  have hint (k : Int64) (call : Caller) (scope : ScopeId) (h : Heap) :
      (Expr.int k).eval call scope h = (.int k, h) := by
    rw [Expr.eval]
  have hnegative (call : Caller) (scope : ScopeId) (h : Heap) :
      (Expr.unary .negate (.int 1)).eval call scope h = (.int (-1), h) := by
    rw [Expr.eval, Expr.eval]
    rfl
  refine ⟨?_, ?_, ?_⟩
  · exact (sum_depth 19999 (.int 19999) (hint 19999)).2.1 (by decide)
  · exact (sum_depth 20000 (.int 20000) (hint 20000)).2.2 (by decide)
  · exact (sum_depth (-1) (.unary .negate (.int 1)) hnegative).2.2 (by decide)

end TinyScript
