import TinyScript.Alike
import TinyScript.Proofs.HashLiteral
import TinyScript.Proofs.Persistence
import TinyScript.Session

/-!
# What a hash key tells

Numbers, truth values and strings that are alike have one hash key, and values of one hash key are
alike, with one exception: a string counts by 64 bits only, so two texts can clash. Then each is
found under the other (`Heap.hashKey?_identifies`).

Clashes exist (`HashKey.strings_clash`), but not among texts that differ in a single byte: mixing in
a byte can be undone.
-/

namespace TinyScript

-- ---------------------------------------------------------------------------
-- Mixing bytes
-- ---------------------------------------------------------------------------

/-- The prime is odd and has an inverse. -/
theorem mix_cancel {a b : UInt64} (h : a * 0x100000001b3 = b * 0x100000001b3) : a = b := by
  have hone : (0x100000001b3 * 0xce965057aff6957b : UInt64) = 1 := by decide
  have hinv := congrArg (· * 0xce965057aff6957b) h
  simpa only [UInt64.mul_assoc, hone, UInt64.mul_one] using hinv

theorem mix_injective {a b : UInt64} (bytes : List UInt8)
    (h : bytes.foldl (fun hash byte => (hash ^^^ byte.toUInt64) * 0x100000001b3) a =
      bytes.foldl (fun hash byte => (hash ^^^ byte.toUInt64) * 0x100000001b3) b) : a = b := by
  induction bytes generalizing a b with
  | nil => exact h
  | cons byte bytes ih => exact (UInt64.xor_left_inj _).mp (mix_cancel (ih h))

theorem fnv1a_one_byte (before after : List UInt8) (x y : UInt8) :
    fnv1a (before ++ x :: after) = fnv1a (before ++ y :: after) ↔ x = y := by
  constructor
  · intro h
    simp only [fnv1a, List.foldl_append, List.foldl_cons] at h
    have hxor := mix_cancel (mix_injective after h)
    exact UInt8.toUInt64_inj.mp ((UInt64.xor_right_inj _).mp hxor)
  · rintro rfl
    rfl

theorem HashKey.ofInt_inj {m n : Int64} : ofInt m = ofInt n ↔ m = n := by
  constructor
  · intro h
    cases m
    cases n
    exact congrArg _ (HashKey.int.inj h)
  · exact congrArg ofInt

-- ---------------------------------------------------------------------------
-- Values that have a hash key
-- ---------------------------------------------------------------------------

namespace Heap

/-- Two texts that differ, with one hash. -/
def clash (h : Heap) (a b : Value) : Bool :=
  match h.string? a, h.string? b with
  | some s, some t => s != t && fnv1a s.toUTF8.data.toList == fnv1a t.toUTF8.data.toList
  | _, _ => false

section
variable {h : Heap} {a b : Value} {i j : ObjectId} {k l : HashKey} {s t : String}

theorem hashKey?_cases (hk : h.hashKey? a = some k) :
    (∃ n, a = .int n ∧ k = .ofInt n) ∨ (∃ x, a = .bool x ∧ k = .bool x) ∨
      ∃ i s, a = .object i ∧ h.objects[i]? = some (.string s) ∧ k = .ofString s := by
  cases a with
  | int n => exact .inl ⟨n, rfl, (Option.some.inj hk).symm⟩
  | bool x => exact .inr (.inl ⟨x, rfl, (Option.some.inj hk).symm⟩)
  | object i =>
    obtain ⟨s, hs, rfl⟩ := Option.map_eq_some_iff.mp hk
    exact .inr (.inr ⟨i, s, rfl, string?_eq_some_iff.mp hs, rfl⟩)
  | _ => exact nomatch hk

@[simp] theorem string?_int (n : Int64) : h.string? (.int n) = none := rfl

@[simp] theorem string?_bool (x : Bool) : h.string? (.bool x) = none := rfl

@[simp] theorem alike_int (n : Int64) (b : Value) : h.alike (.int n) b = (.int n == b) := by
  rw [alike, alikeIn] <;> simp

@[simp] theorem alike_bool (x : Bool) (b : Value) : h.alike (.bool x) b = (.bool x == b) := by
  rw [alike, alikeIn] <;> simp

@[simp] theorem alike_object_int (i : ObjectId) (n : Int64) :
    h.alike (.object i) (.int n) = false := by
  rw [alike, alikeIn] <;> simp

@[simp] theorem alike_object_bool (i : ObjectId) (x : Bool) :
    h.alike (.object i) (.bool x) = false := by
  rw [alike, alikeIn] <;> simp

@[simp] theorem clash_int (n : Int64) (a : Value) : h.clash a (.int n) = false := by
  cases ha : h.string? a <;> simp [clash, ha]

theorem alike_string (hi : h.objects[i]? = some (.string s))
    (hj : h.objects[j]? = some (.string t)) : h.alike (.object i) (.object j) = (s == t) := by
  rw [alike, alikeIn]
  split
  · simp_all [Object.alike]
  · simp_all

theorem hashKey?_eq_iff (ha : h.hashKey? a = some k) (hb : h.hashKey? b = some l) :
    k = l ↔ h.alike a b = true ∨ h.clash a b = true := by
  rcases hashKey?_cases ha with ⟨m, rfl, rfl⟩ | ⟨x, rfl, rfl⟩ | ⟨i, s, rfl, hi, rfl⟩ <;>
    rcases hashKey?_cases hb with ⟨n, rfl, rfl⟩ | ⟨y, rfl, rfl⟩ | ⟨j, t, rfl, hj, rfl⟩
  case inl.inl => simp [clash, HashKey.ofInt_inj]
  case inr.inl.inr.inl => simp [clash]
  case inr.inr.inr.inr =>
    have hs : h.string? (.object i) = some s := string?_eq_some_iff.mpr hi
    have ht : h.string? (.object j) = some t := string?_eq_some_iff.mpr hj
    rw [alike_string hi hj, clash, hs, ht]
    by_cases hst : s = t <;> simp [hst, HashKey.ofString]
  -- values of different types
  all_goals simp [clash, HashKey.ofInt, HashKey.ofString]

end

end Heap

-- ---------------------------------------------------------------------------
-- Looking into a hash
-- ---------------------------------------------------------------------------

section
variable {calls : Nat} {scope : ScopeId} {h h' : Heap} {es : List Entry}

theorem Expr.grows_eval (calls : Nat) (scope : ScopeId) (e : Expr) (h : Heap) :
    h.Grows (e.eval (apply calls) scope h).2 := by
  have hgood : (namesKept .empty scope).good h := ⟨Nat.zero_le _, fun _ _ _ => nofun⟩
  exact (Discipline.kept_expr (Discipline.kept_apply calls) e hgood (.inl rfl)).grows

theorem Expr.PairsGive.keys (hp : PairsGive (apply calls) scope ps h es h') :
    h.Grows h' ∧ ∀ e ∈ es, h'.hashKey? e.key = some e.hashKey := by
  induction hp with
  | nil => exact ⟨.refl _, List.forall_mem_nil _⟩
  | @cons k h₁ hashKey v h₂ ps es h₃ key value h hkey _ hhash hvalue _ _ ih =>
    obtain ⟨hg, hkeys⟩ := ih
    have hg₁ : h.Grows h₁ := by simpa [hkey] using grows_eval calls scope key h
    have hg₂ : h₁.Grows h₂ := by simpa [hvalue] using grows_eval calls scope value h₁
    refine ⟨hg₁.trans (hg₂.trans hg), List.forall_mem_cons.mpr ⟨?_, hkeys⟩⟩
    exact (hg₂.trans hg).hashKey? hhash

theorem Heap.index_hash {t : Table} (hc : h.object? c = some (.hash t))
    (ha : h.hashKey? a = some k) : h.index c a = ((t.find? k).getD .null, h) := by
  simp only [Heap.index, hc, ha]

end

/-- Values that can be hashed have one hash key exactly if they are alike or two texts that clash;
texts that differ in a single byte do not. So what is found in a hash, at any later time, is the
value of the last pair of its literal whose key is alike or clashes with the one that is looked
for. -/
theorem Heap.hashKey?_identifies :
    (∀ (h : Heap) (a b : Value) (k l : HashKey), h.hashKey? a = some k → h.hashKey? b = some l →
      (k = l ↔ h.alike a b = true ∨ h.clash a b = true)) ∧
    (∀ (before after : List UInt8) (x y : UInt8),
      fnv1a (before ++ x :: after) = fnv1a (before ++ y :: after) ↔ x = y) ∧
    ∀ (calls : Nat) (scope : ScopeId) (ps : List (Expr × Expr)) (h : Heap) (es : List Entry)
      (h' : Heap), Expr.PairsGive (apply calls) scope ps h es h' →
      let r := (Expr.hash ps).eval (apply calls) scope h
      ∀ (later : Heap) (a : Value) (k : HashKey), r.2.Grows later → later.hashKey? a = some k →
        later.index r.1 a =
          (((es.findRev? fun e => later.alike e.key a || later.clash e.key a).map
            Entry.value).getD .null, later) := by
  refine ⟨fun h a b k l ha hb => hashKey?_eq_iff ha hb, fnv1a_one_byte, ?_⟩
  intro calls scope ps h es h' hp r later a k hg ha
  have hr : r = h'.alloc (.hash (.ofList es)) := hp.hash
  have hobject : later.object? r.1 = some (.hash (.ofList es)) := by
    refine hg.object? ?_ fun _ => nofun
    rw [hr]
    exact Array.getElem?_push_size
  have hgrows : h'.Grows later := (h'.grows_alloc _).trans (hr ▸ hg)
  have hmeets : es.findRev? (·.hashKey == k) =
      es.findRev? fun e => later.alike e.key a || later.clash e.key a := by
    simp only [List.findRev?_eq_find?_reverse, ← List.getLast?_filter]
    congr 1
    refine List.filter_congr fun e he => ?_
    rw [Bool.eq_iff_iff, beq_iff_eq, Bool.or_eq_true]
    exact hashKey?_eq_iff (hgrows.hashKey? (hp.keys.2 e he)) ha
  rw [index_hash hobject ha, Table.find?_ofList, hmeets]

/-- A literal with two texts that clash, under one of them and under a number that is no key of
it. -/
theorem Heap.hashKey?_identifies_sample :
    let r := (Expr.hash [(.str "8yn0iYCKYHlIj4-BwPqk", .int 1),
      (.str "GReLUrM4wMqfg9yzV3KQ", .int 2)]).eval (apply 0) 0 .empty
    r.2.index r.1 (.object 0) = (.int 2, r.2) ∧ r.2.index r.1 (.int 1) = (.null, r.2) := by
  intro r
  have hp : Expr.PairsGive (apply 0) 0 [(.str "8yn0iYCKYHlIj4-BwPqk", .int 1),
      (.str "GReLUrM4wMqfg9yzV3KQ", .int 2)] .empty
      [⟨.ofString "8yn0iYCKYHlIj4-BwPqk", .object 0, .int 1⟩,
        ⟨.ofString "GReLUrM4wMqfg9yzV3KQ", .object 1, .int 2⟩] _ :=
    .cons rfl rfl rfl rfl rfl (.cons rfl rfl rfl rfl rfl .nil)
  have hfound := hashKey?_identifies.2.2 0 0 _ .empty _ _ hp r.2
  constructor
  · have hclash : r.2.clash (.object 1) (.object 0) = true := by decide
    rw [hfound (.object 0) _ (.refl _) rfl]
    simp [List.findRev?, hclash]
  · rw [hfound (.int 1) _ (.refl _) rfl]
    simp [List.findRev?]

/-- Two texts with one hash. The literal keeps one pair for both, so the first text gives the value
that was written behind the second. -/
theorem HashKey.strings_clash :
    (¬ ∀ (h : Heap) (a b : Value) (k l : HashKey), h.hashKey? a = some k → h.hashKey? b = some l →
      (k = l ↔ h.alike a b = true)) ∧
    (Program.eval 0 [.expr (.index
      (.hash [(.str "8yn0iYCKYHlIj4-BwPqk", .int 1), (.str "GReLUrM4wMqfg9yzV3KQ", .int 2)])
      (.str "8yn0iYCKYHlIj4-BwPqk"))] Session.start.heap).1 = .int 2 := by
  constructor
  · intro hall
    let h : Heap := ⟨#[.string "8yn0iYCKYHlIj4-BwPqk", .string "GReLUrM4wMqfg9yzV3KQ"], #[], 0⟩
    have halike : h.alike (.object 0) (.object 1) =
        ("8yn0iYCKYHlIj4-BwPqk" == "GReLUrM4wMqfg9yzV3KQ") := Heap.alike_string rfl rfl
    have hone := (hall h (.object 0) (.object 1) _ _ rfl rfl).mp (by decide)
    rw [halike] at hone
    exact absurd hone (by decide)
  · decide

end TinyScript
