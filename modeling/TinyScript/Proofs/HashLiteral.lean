import TinyScript.Proofs.Evaluation
import TinyScript.Proofs.Table

/-!
# Hash literals

The pairs of a literal give entries, one after another, and the hash has the table of these entries:
sorted by hash key, and under each hash key the last pair (`Expr.hash_lastWins`). A key that has no
hash key ends the evaluation before its own value is looked at.
-/

namespace TinyScript

/-- The pairs are evaluated from left to right, each key before its value, to values that are no
signals, and every key has a hash key. They give these entries, in this order. -/
inductive Expr.PairsGive (call : Caller) (scope : ScopeId) :
    List (Expr × Expr) → Heap → List Entry → Heap → Prop
  | nil : PairsGive call scope [] h [] h
  | cons : key.eval call scope h = (k, h₁) → k.Plain → h₁.hashKey? k = some hashKey →
      value.eval call scope h₁ = (v, h₂) → v.Plain → PairsGive call scope ps h₂ es h₃ →
      PairsGive call scope ((key, value) :: ps) h (⟨hashKey, k, v⟩ :: es) h₃

theorem part_plain {next : Value → Heap → Parts α} (hv : v.Plain) : part (v, h) next = next v h :=
  if_neg (Bool.eq_false_iff.mp hv)

namespace Expr

section
variable {call : Caller} {scope : ScopeId} {h h' : Heap} {es : List Entry}

theorem PairsGive.evalPairs (hp : PairsGive call scope before h es h') (rest : List (Expr × Expr))
    (t : Table) : Expr.evalPairs call scope (before ++ rest) t h =
      Expr.evalPairs call scope rest (t.insertAll es) h' := by
  induction hp generalizing t with
  | nil => rfl
  | cons hkey hk hhash hvalue hv _ ih =>
    rw [List.cons_append, Expr.evalPairs_cons, hkey, part_plain hk]
    simp only [hhash]
    rw [hvalue, part_plain hv, ih]
    rfl

theorem PairsGive.hash (hp : PairsGive call scope ps h es h') :
    (Expr.hash ps).eval call scope h = h'.alloc (.hash (.ofList es)) := by
  have heval := hp.evalPairs [] []
  rw [List.append_nil, Expr.evalPairs] at heval
  rw [Expr.eval_hash, heval]
  rfl

theorem PairsGive.unhashable {h₂ : Heap} (hp : PairsGive call scope before h es h')
    (hkey : key.eval call scope h' = (k, h₂)) (hk : k.Plain) (hhash : h₂.hashKey? k = none) :
    (Expr.hash (before ++ (key, value) :: after)).eval call scope h =
      h₂.raise (.unhashable (h₂.tag k)) := by
  rw [Expr.eval_hash, hp.evalPairs, Expr.evalPairs_cons, hkey, part_plain hk]
  simp only [hhash]
  rfl

end

/-- A hash has the pairs of its literal in the order of their hash keys, each hash key once and with
the key and the value of the last pair that has it. Another literal has the same table if its pairs
give the same entries, as long as those of one hash key come in the same order. But if
some key has no hash key, the first such key is reported, and what was done is what the pairs before
it and that key do, and nothing else. -/
theorem hash_lastWins (call : Caller) (scope : ScopeId) (ps : List (Expr × Expr)) (h : Heap) :
    (∀ es h', PairsGive call scope ps h es h' →
      ∃ t : Table, (Expr.hash ps).eval call scope h = h'.alloc (.hash t) ∧ t.LastWins es ∧
        ∀ call' scope' ps' i ds i', PairsGive call' scope' ps' i ds i' → Entry.Rearranged es ds →
          (Expr.hash ps').eval call' scope' i = i'.alloc (.hash t)) ∧
    ∀ before key value after es h' k h'', ps = before ++ (key, value) :: after →
      PairsGive call scope before h es h' → key.eval call scope h' = (k, h'') → k.Plain →
      h''.hashKey? k = none →
      (Expr.hash ps).eval call scope h = h''.raise (.unhashable (h''.tag k)) := by
  constructor
  · intro es h' hp
    refine ⟨.ofList es, hp.hash, Table.lastWins_ofList es, ?_⟩
    intro call' scope' ps' i ds i' hp' hds
    rw [hp'.hash]
    congr 2
    exact ((Table.lastWins_ofList es).eq_of_rearranged (Table.lastWins_ofList ds) hds).symm
  · rintro before key value after es h' k h'' rfl hp hkey hk hhash
    exact hp.unhashable hkey hk hhash

/-- Two pairs for one number and a pair between them, then the same with that pair in front; and a
literal whose second key is null, with a value that would fail and the same pairs behind it. -/
theorem hash_lastWins_sample :
    let ps : List (Expr × Expr) :=
      [(.int 2, .str "b"), (.bool true, .null), (.int 2, .int 7)]
    let h := (Heap.empty.alloc (.string "b")).2
    (∃ t : Table, (Expr.hash ps).eval (apply 0) 0 .empty = h.alloc (.hash t) ∧
      (⟨.ofInt 2, .int 2, .int 7⟩ : Entry) ∈ t ∧
      (Expr.hash [(.bool true, .null), (.int 2, .str "b"), (.int 2, .int 7)]).eval (apply 0) 0
        .empty = h.alloc (.hash t)) ∧
    (Expr.hash ((.str "b", .int 1) :: (.null, .ident "x") :: ps)).eval (apply 0) 0 .empty =
      h.raise (.unhashable .null) := by
  intro ps h
  have hps : PairsGive (apply 0) 0 ps .empty
      [⟨.ofInt 2, .int 2, .object 0⟩, ⟨.bool true, .bool true, .null⟩, ⟨.ofInt 2, .int 2, .int 7⟩]
      h :=
    .cons rfl rfl rfl rfl rfl (.cons rfl rfl rfl rfl rfl (.cons rfl rfl rfl rfl rfl .nil))
  obtain ⟨t, ht, hlast, hother⟩ := (hash_lastWins (apply 0) 0 ps .empty).1 _ _ hps
  refine ⟨⟨t, ht, (hlast.last _).mpr rfl, ?_⟩, ?_⟩
  · refine hother _ 0 _ .empty _ h
      (.cons rfl rfl rfl rfl rfl (.cons rfl rfl rfl rfl rfl (.cons rfl rfl rfl rfl rfl .nil))) ?_
    exact Entry.rearranged_swap nofun
  · have hbefore : PairsGive (apply 0) 0 [(.str "b", .int 1)] .empty _ h :=
      .cons rfl rfl rfl rfl rfl .nil
    exact (hash_lastWins (apply 0) 0 _ .empty).2 _ .null (.ident "x") ps _ h .null h rfl hbefore
      rfl rfl rfl

end Expr

end TinyScript
