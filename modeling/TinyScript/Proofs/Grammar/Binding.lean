import TinyScript.Proofs.Grammar
import TinyScript.Syntax.Parse

/-!
# Levels and tiers

Reading asks for a level and the grammar for a tier. `Precedence.tier` is the tier of what is read
at a level, and the words that go on with an expression are those with a level above the lowest.
-/

namespace TinyScript

/-- The tier of an expression that is read at a level. -/
def Precedence.tier (p : Precedence) : Nat := min (p.level + 1) 5

theorem BinaryOp.level_symbol (op : BinaryOp) :
    (Precedence.ofKind (.symbol op.symbol)).level = op.tier := by
  cases op <;> rfl

theorem BinaryOp.tier_pos (op : BinaryOp) : 1 ≤ op.tier := by cases op <;> decide

theorem BinaryOp.tier_le (op : BinaryOp) : op.tier ≤ 4 := by cases op <;> decide

theorem BinaryOp.tier_ofKind (op : BinaryOp) :
    (Precedence.ofKind (.symbol op.symbol)).tier = op.tier + 1 := by
  cases op <;> rfl

theorem BinaryOp.eq_symbol {s : Symbol} {op : BinaryOp} (h : ofSymbol? s = some op) :
    s = op.symbol := by
  cases s <;> simp [ofSymbol?] at h <;> subst h <;> rfl

namespace Grammar

theorem kind_of_level_pos {k : Token.Kind} (h : 0 < (Precedence.ofKind k).level) :
    (∃ op : BinaryOp, k = .symbol op.symbol) ∨ k = .symbol .lparen ∨ k = .symbol .lbracket := by
  cases k with
  | symbol s =>
    cases hs : BinaryOp.ofSymbol? s with
    | some op => exact .inl ⟨op, congrArg _ (BinaryOp.eq_symbol hs)⟩
    | none =>
      cases s
      case lparen => exact .inr (.inl rfl)
      case lbracket => exact .inr (.inr rfl)
      all_goals
        first
        | exact absurd h (by decide)
        | exact absurd hs (by decide)
  | _ => exact absurd h (by simp [Precedence.ofKind, Precedence.level])

-- ---------------------------------------------------------------------------
-- What comes next
-- ---------------------------------------------------------------------------

/-- What comes next does not bind to an expression of tier `n`; calls and their parts take all. -/
def Loose (n : Nat) (ts : List Token) : Prop :=
  ∀ t ∈ ts.head?, (Precedence.ofKind t.kind).level ≤ n ∨ 6 ≤ n

def Stops (level : Precedence) (ts : List Token) : Prop :=
  ∀ t ∈ ts.head?, ¬ level < Precedence.ofKind t.kind

theorem Stops.loose (h : Stops level ts) : Loose level.level ts :=
  fun t ht => .inl (Nat.le_of_not_lt (h t ht))

-- ---------------------------------------------------------------------------
-- Terminals of tokens
-- ---------------------------------------------------------------------------

@[simp] theorem terminal_mk_symbol : Token.terminal ⟨.symbol s, l, p⟩ = .symbol s := rfl

@[simp] theorem terminal_mk_keyword : Token.terminal ⟨.keyword k, l, p⟩ = .keyword k := rfl

@[simp] theorem terminal_mk_ident : Token.terminal ⟨.ident, x, p⟩ = .ident x := rfl

section
variable {t : Token}

theorem terminal_symbol : t.terminal = .symbol s ↔ t.kind = .symbol s := by
  unfold Token.terminal
  split <;> simp_all

theorem terminal_keyword : t.terminal = .keyword k ↔ t.kind = .keyword k := by
  unfold Token.terminal
  split <;> simp_all

theorem terminal_ident : t.terminal = .ident x ↔ t.kind = .ident ∧ t.literal = x := by
  unfold Token.terminal
  split <;> simp_all

theorem terminal_integer : t.terminal = .integer x ↔ t.kind = .integer ∧ t.literal = x := by
  unfold Token.terminal
  split <;> simp_all

theorem terminal_string : t.terminal = .string x ↔ t.kind = .string ∧ t.literal = x := by
  unfold Token.terminal
  split <;> simp_all

theorem continues_iff : Continues t.terminal ↔ 0 < (Precedence.ofKind t.kind).level := by
  constructor
  · intro h
    generalize hu : t.terminal = u at h
    cases h with
    | operator op =>
      rw [terminal_symbol.mp hu, op.level_symbol]
      exact op.tier_pos
    | call => rw [terminal_symbol.mp hu]; decide
    | index => rw [terminal_symbol.mp hu]; decide
  · intro h
    rcases kind_of_level_pos h with ⟨op, hk⟩ | hk | hk
    · exact terminal_symbol.mpr hk ▸ .operator op
    · exact terminal_symbol.mpr hk ▸ .call
    · exact terminal_symbol.mpr hk ▸ .index

end

-- ---------------------------------------------------------------------------
-- Tiers
-- ---------------------------------------------------------------------------

theorem Expression.loosen (h : Expression n ts e) (hm : m ≤ n) : Expression m ts e := by
  induction hm with
  | refl => exact h
  | step _ ih => exact ih (.tighter h)

theorem int?_eq_some_iff {digits : String} {n : Int64} :
    Parse.int? digits = some n ↔ n.toInt = decimal digits := by
  have hmax : Int64.maxValue.toInt.toNat = 2 ^ 63 - 1 := by decide
  unfold Parse.int?
  rw [hmax]
  show (if decimal digits ≤ _ then some (Int64.ofNat (decimal digits)) else none) = some n ↔ _
  generalize decimal digits = k
  split
  · rename_i hk
    have hn : (Int64.ofNat k).toInt = k := Int64.toInt_ofNat_of_lt (by omega)
    rw [Option.some.injEq, ← Int64.toInt_inj, hn, eq_comm]
  · rename_i hk
    have hle : n.toInt ≤ 2 ^ 63 - 1 := Int64.toInt_le n
    simp only [reduceCtorEq, false_iff]
    omega

end Grammar

end TinyScript
