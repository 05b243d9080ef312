import Mathlib.Data.Int.ModEq
import TinyScript.Proofs.Activation

/-!
# Arithmetic

A number has 64 bits and stands for all the integers that are congruent to it modulo 2^64, one of
which is its own value (`Represents`). What the operators do with numbers is what is done with those
integers, and a quotient is truncated toward zero. So the law of division needs no exception: the
least number divided by minus one gives a quotient that wraps around, and so does its product with
minus one. A remainder never wraps around.

The operands are any expressions, whatever they do to the heap on the way (`Expr.arithmetic_exact`).
-/

namespace TinyScript

/-- The number is what 64 bits hold of the integer. -/
def Represents (n : Int64) (z : Int) : Prop := n.toInt ≡ z [ZMOD 2 ^ 64]

namespace Represents

variable {m n : Int64} {y z : Int}

theorem self (n : Int64) : Represents n n.toInt := Int.ModEq.refl _

theorem of_bmod (hn : n.toInt = z.bmod (2 ^ 64)) : Represents n z := by
  rw [Represents, hn]
  exact Int.bmod_emod

theorem unique (hm : Represents m z) (hn : Represents n z) : m = n := by
  have hmod : m.toInt % 2 ^ 64 = n.toInt % 2 ^ 64 := hm.trans hn.symm
  have hlow := Int64.le_toInt m
  have hhigh := Int64.toInt_lt m
  have hlow' := Int64.le_toInt n
  have hhigh' := Int64.toInt_lt n
  exact Int64.toInt_inj.mp (by omega)

theorem add (hm : Represents m y) (hn : Represents n z) : Represents (m + n) (y + z) :=
  (of_bmod (Int64.toInt_add m n)).trans (Int.ModEq.add hm hn)

theorem sub (hm : Represents m y) (hn : Represents n z) : Represents (m - n) (y - z) :=
  (of_bmod (Int64.toInt_sub m n)).trans (Int.ModEq.sub hm hn)

theorem mul (hm : Represents m y) (hn : Represents n z) : Represents (m * n) (y * z) :=
  (of_bmod (Int64.toInt_mul m n)).trans (Int.ModEq.mul hm hn)

theorem neg (hn : Represents n z) : Represents (-n) (-z) :=
  (of_bmod (Int64.toInt_neg n)).trans (Int.ModEq.neg hn)

end Represents

-- ---------------------------------------------------------------------------
-- Division
-- ---------------------------------------------------------------------------

section
variable (a b : Int64)

theorem represents_div : Represents (a / b) (a.toInt.tdiv b.toInt) := .of_bmod (Int64.toInt_div a b)

theorem represents_mod : Represents (a % b) (a.toInt.tmod b.toInt) := by
  rw [← Int64.toInt_mod]
  exact .self _

/-- The law of the integers, seen through 64 bits. -/
theorem div_mul_add_mod : a / b * b + a % b = a := by
  have hproduct := (represents_div a b).mul (.self b)
  have hlaw := hproduct.add (represents_mod a b)
  rw [Int.tdiv_mul_add_tmod] at hlaw
  exact hlaw.unique (.self a)

theorem mod_sign : a % b = 0 ∨ (a % b).toInt.sign = a.toInt.sign := by
  rw [← Int64.toInt_inj, Int64.toInt_mod, Int64.toInt_zero, ← Int.sign_eq_zero_iff_zero,
    Int.sign_tmod]
  split
  · exact .inl rfl
  · exact .inr rfl

variable {b} in
theorem natAbs_mod_lt (hb : b ≠ 0) : (a % b).toInt.natAbs < b.toInt.natAbs := by
  have hpos : 0 < b.toInt.natAbs := Int.natAbs_pos.mpr fun hzero => hb (Int64.toInt_inj.mp hzero)
  rw [Int64.toInt_mod, Int.natAbs_tmod]
  exact Nat.mod_lt _ hpos

end

-- ---------------------------------------------------------------------------
-- Operators
-- ---------------------------------------------------------------------------

def Expr.ComesTo (call : Caller) (scope : ScopeId) (h : Heap) (e : Expr) (n : Int64) (h' : Heap) :
    Prop :=
  e.eval call scope h = (.int n, h')

/-- What the operators make of two operands: `l` comes to `a`, and then `r` comes to `b` and leaves
`h₂`. -/
structure Arithmetic (call : Caller) (scope : ScopeId) (l r : Expr) (a b : Int64)
    (h h₁ h₂ : Heap) : Prop where
  add : ∃ n, (Expr.binary .add l r).ComesTo call scope h n h₂ ∧ Represents n (a.toInt + b.toInt)
  sub : ∃ n, (Expr.binary .sub l r).ComesTo call scope h n h₂ ∧ Represents n (a.toInt - b.toInt)
  mul : ∃ n, (Expr.binary .mul l r).ComesTo call scope h n h₂ ∧ Represents n (a.toInt * b.toInt)
  negate : ∃ n, (Expr.unary .negate l).ComesTo call scope h n h₁ ∧ Represents n (-a.toInt)
  fails : ∀ op ∈ [BinaryOp.div, .mod],
    ((Expr.binary op l r).eval call scope h).1.isError = true ↔ b = 0
  failure : b = 0 → ∀ op ∈ [BinaryOp.div, .mod],
    (Expr.binary op l r).eval call scope h = h₂.raise (.divisionByZero op a)
  quotient : b ≠ 0 → ∃ n, (Expr.binary .div l r).ComesTo call scope h n h₂ ∧
    Represents n (a.toInt.tdiv b.toInt)
  remainder : b ≠ 0 → ∃ n, (Expr.binary .mod l r).ComesTo call scope h n h₂ ∧
    (n = 0 ∨ n.toInt.sign = a.toInt.sign) ∧ n.toInt.natAbs < b.toInt.natAbs
  /-- `l / r * divisor + dividend % divisor'`, where the operands come to `a` and `b` again. -/
  division : b ≠ 0 → ∀ {divisor dividend divisor' : Expr} {h₃ h₄ h₅ : Heap},
    divisor.ComesTo call scope h₂ b h₃ → dividend.ComesTo call scope h₃ a h₄ →
    divisor'.ComesTo call scope h₄ b h₅ →
    (Expr.binary .add (.binary .mul (.binary .div l r) divisor)
      (.binary .mod dividend divisor')).ComesTo call scope h a h₅

namespace Expr

section
variable {call : Caller} {scope : ScopeId} {h h₁ h₂ : Heap} {l r : Expr} {a b : Int64}

theorem ComesTo.int (n : Int64) : (Expr.int n).ComesTo call scope h n h := by
  rw [ComesTo, Expr.eval]

theorem ComesTo.negate (hl : l.ComesTo call scope h a h₁) :
    (Expr.unary .negate l).ComesTo call scope h (-a) h₁ := by
  rw [ComesTo, Expr.eval, hl]
  rfl

theorem ComesTo.eval_binary (hl : l.ComesTo call scope h a h₁) (hr : r.ComesTo call scope h₁ b h₂)
    (op : BinaryOp) : (Expr.binary op l r).eval call scope h = h₂.arithmetic op a b := by
  rw [Expr.eval, hl, andThen_value rfl, hr]
  rfl

theorem ComesTo.binary (hl : l.ComesTo call scope h a h₁) (hr : r.ComesTo call scope h₁ b h₂)
    (op : BinaryOp) (hn : h₂.arithmetic op a b = (.int n, h₂)) :
    (Expr.binary op l r).ComesTo call scope h n h₂ :=
  (hl.eval_binary hr op).trans hn

theorem ComesTo.isError_iff (hl : l.ComesTo call scope h a h₁) (hr : r.ComesTo call scope h₁ b h₂)
    (hop : op ∈ [BinaryOp.div, .mod]) :
    ((Expr.binary op l r).eval call scope h).1.isError = true ↔ b = 0 := by
  rw [hl.eval_binary hr op]
  rcases List.mem_pair.mp hop with rfl | rfl
  all_goals
    rw [Heap.arithmetic]
    split
    case isTrue hb => exact iff_of_true rfl hb
    case isFalse hb => exact iff_of_false Bool.false_ne_true hb

/-- Whatever the numbers are: sums, differences, products and opposites are exact modulo 2^64, a
quotient and a remainder fail for the divisor zero alone, and else they obey the law of division and
are what truncation toward zero makes of the integers. -/
theorem arithmetic_exact (hl : l.ComesTo call scope h a h₁) (hr : r.ComesTo call scope h₁ b h₂) :
    Arithmetic call scope l r a b h h₁ h₂ where
  add := ⟨a + b, hl.binary hr .add rfl, .add (.self a) (.self b)⟩
  sub := ⟨a - b, hl.binary hr .sub rfl, .sub (.self a) (.self b)⟩
  mul := ⟨a * b, hl.binary hr .mul rfl, .mul (.self a) (.self b)⟩
  negate := ⟨-a, hl.negate, .neg (.self a)⟩
  fails op hop := hl.isError_iff hr hop
  failure hb op hop := by
    rw [hl.eval_binary hr op]
    rcases List.mem_pair.mp hop with rfl | rfl <;> exact if_pos hb
  quotient hb := ⟨a / b, hl.binary hr .div (if_neg hb), represents_div a b⟩
  remainder hb := ⟨a % b, hl.binary hr .mod (if_neg hb), mod_sign a b, natAbs_mod_lt a hb⟩
  division hb _ _ _ _ _ _ hdivisor hdividend hdivisor' := by
    have hquotient := hl.binary hr .div (if_neg hb)
    have hproduct := hquotient.binary hdivisor .mul rfl
    have hremainder := hdividend.binary hdivisor' .mod (if_neg hb)
    have hsum := hproduct.binary hremainder .add rfl
    rwa [div_mul_add_mod] at hsum

end

/-- The least number and minus one, for which the quotient wraps around. -/
theorem arithmetic_exact_sample :
    let call := apply maxCallDepth
    let h := Heap.empty
    let l : Expr := .int Int64.minValue
    let r : Expr := .unary .negate (.int 1)
    l.ComesTo call 0 h Int64.minValue h ∧ r.ComesTo call 0 h (-1) h ∧
    Arithmetic call 0 l r Int64.minValue (-1) h h h ∧
    (Expr.binary .div l r).ComesTo call 0 h Int64.minValue h ∧
    (Expr.binary .mod l r).ComesTo call 0 h 0 h := by
  intro call h l r
  have hl : l.ComesTo call 0 h Int64.minValue h := .int _
  have hr : r.ComesTo call 0 h (-1) h := .negate (.int 1)
  exact ⟨hl, hr, arithmetic_exact hl hr, hl.binary hr .div rfl, hl.binary hr .mod rfl⟩

end Expr

end TinyScript
