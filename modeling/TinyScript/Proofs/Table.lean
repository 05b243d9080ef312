import Mathlib.Data.List.Induction
import Mathlib.Data.List.Sort
import TinyScript.Proofs.Clean

/-!
# Tables as maps

Whatever the order in which entries are inserted, a table stands in the order of the hash keys, each
hash key once, and under each there is the entry that was inserted last
(`Table.lastWins_ofList`). This fixes the table, so that inserting the same entries in another
order gives the same table, as long as those of one hash key follow each other as before.
-/

namespace TinyScript

-- ---------------------------------------------------------------------------
-- The order of hash keys
-- ---------------------------------------------------------------------------

namespace HashKey

variable {a b c : HashKey}

theorem lt_def : a < b ↔ a.rank < b.rank ∨ a.rank = b.rank ∧ a.bits.toNat < b.bits.toNat := Iff.rfl

theorem eq_of_rank_bits (hr : a.rank = b.rank) (hb : a.bits = b.bits) : a = b := by
  cases a with
  | int m =>
    cases b with
    | int n => exact congrArg int hb
    | _ => exact nomatch hr
  | bool x =>
    cases b with
    | bool y => cases x <;> cases y <;> simp_all [bits]
    | _ => exact nomatch hr
  | string m =>
    cases b with
    | string n => exact congrArg string hb
    | _ => exact nomatch hr

theorem lt_irrefl (a : HashKey) : ¬ a < a := by
  simp [lt_def]

theorem lt_trans (hab : a < b) (hbc : b < c) : a < c := by
  simp only [lt_def] at *
  omega

theorem lt_of_not_lt (hne : a ≠ b) (hab : ¬ a < b) : b < a := by
  have hbits : ¬ (a.rank = b.rank ∧ a.bits.toNat = b.bits.toNat) := fun ⟨hr, hb⟩ =>
    hne (eq_of_rank_bits hr (UInt64.toNat_inj.mp hb))
  simp only [lt_def] at *
  omega

end HashKey

-- ---------------------------------------------------------------------------
-- One entry
-- ---------------------------------------------------------------------------

namespace Table

def Sorted (t : Table) : Prop := t.Pairwise fun d e => d.hashKey < e.hashKey

def slot? (t : Table) (k : HashKey) : Option Entry := List.find? (·.hashKey == k) t

section
variable {t : Table} {e : Entry}

theorem slot?_cons (d : Entry) (t : Table) (k : HashKey) :
    slot? (d :: t) k = if d.hashKey = k then some d else t.slot? k := by
  rw [slot?, List.find?_cons]
  split <;> simp_all [slot?]

theorem Sorted.insert (ht : t.Sorted) (new : Entry) : (t.insert new).Sorted := by
  induction t with
  | nil => exact List.pairwise_singleton _ _
  | cons d t ih =>
    obtain ⟨hd, ht⟩ := List.pairwise_cons.mp ht
    rw [Table.insert]
    split
    case isTrue heq =>
      refine List.pairwise_cons.mpr ⟨fun e he => ?_, ht⟩
      rw [heq]
      exact hd e he
    case isFalse hne =>
      split
      case isTrue hlt =>
        refine List.pairwise_cons.mpr ⟨List.forall_mem_cons.mpr ⟨hlt, fun e he => ?_⟩, ?_⟩
        · exact HashKey.lt_trans hlt (hd e he)
        · exact List.pairwise_cons.mpr ⟨hd, ht⟩
      case isFalse hlt =>
        refine List.pairwise_cons.mpr ⟨fun e he => ?_, ih ht⟩
        cases Table.mem_insert he with
        | inl heq => exact heq ▸ HashKey.lt_of_not_lt hne hlt
        | inr he => exact hd e he

theorem slot?_insert (t : Table) (new : Entry) (k : HashKey) :
    (t.insert new).slot? k = if new.hashKey = k then some new else t.slot? k := by
  induction t with
  | nil => exact slot?_cons new [] k
  | cons d t ih =>
    rw [Table.insert]
    split
    case isTrue heq =>
      simp only [slot?_cons, ← heq]
      split <;> rfl
    case isFalse hne =>
      split
      case isTrue => simp only [slot?_cons]
      case isFalse =>
        simp only [slot?_cons, ih]
        split
        case isTrue hd => rw [if_neg (hd ▸ hne)]
        case isFalse => rfl

theorem Sorted.mem_iff (ht : t.Sorted) : e ∈ t ↔ t.slot? e.hashKey = some e := by
  constructor
  · intro he
    induction t with
    | nil => exact nomatch he
    | cons d t ih =>
      obtain ⟨hd, ht⟩ := List.pairwise_cons.mp ht
      rcases List.mem_cons.mp he with rfl | he
      · simp [slot?_cons]
      · have hne : d.hashKey ≠ e.hashKey := fun heq => HashKey.lt_irrefl _ (heq ▸ hd e he)
        simpa [slot?_cons, hne] using ih ht he
  · exact List.mem_of_find?_eq_some

end

-- ---------------------------------------------------------------------------
-- Many entries
-- ---------------------------------------------------------------------------

def insertAll (es : List Entry) (t : Table) : Table := es.foldl (fun t e => t.insert e) t

def ofList (es : List Entry) : Table := insertAll es []

end Table

def Entry.LastIn (e : Entry) (es : List Entry) : Prop :=
  es.findRev? (·.hashKey == e.hashKey) = some e

/-- The same entries, those of one hash key in the same order among each other. -/
structure Entry.Rearranged (es ds : List Entry) : Prop where
  perm : es.Perm ds
  order : ∀ k, es.filter (·.hashKey == k) = ds.filter (·.hashKey == k)

theorem Entry.rearranged_swap {d e : Entry} {es : List Entry} (hne : d.hashKey ≠ e.hashKey) :
    Entry.Rearranged (d :: e :: es) (e :: d :: es) := by
  refine ⟨.swap e d es, fun k => ?_⟩
  by_cases hd : d.hashKey = k
  · simp [hd, hd ▸ Ne.symm hne]
  · simp [List.filter_cons, hd]

/-- What a table is to the entries that were inserted, in this order, into an empty one. -/
structure Table.LastWins (t : Table) (es : List Entry) : Prop where
  sorted : t.Sorted
  keys : ∀ k, (∃ e ∈ t, e.hashKey = k) ↔ ∃ e ∈ es, e.hashKey = k
  last : ∀ e, e ∈ t ↔ e.LastIn es

namespace Table

theorem findRev?_concat (p : α → Bool) (xs : List α) (x : α) :
    (xs ++ [x]).findRev? p = if p x then some x else xs.findRev? p := by
  simp only [List.findRev?_eq_find?_reverse, List.reverse_append, List.reverse_singleton,
    List.singleton_append, List.find?_cons]
  split <;> simp_all

section
variable {t u : Table} {es ds : List Entry}

theorem ofList_concat (es : List Entry) (new : Entry) :
    ofList (es ++ [new]) = (ofList es).insert new := by
  rw [ofList, insertAll, List.foldl_append]
  rfl

theorem sorted_ofList (es : List Entry) : (ofList es).Sorted := by
  induction es using List.reverseRecOn with
  | nil => exact List.Pairwise.nil
  | append_singleton es new ih =>
    rw [ofList_concat]
    exact ih.insert new

theorem slot?_ofList (es : List Entry) (k : HashKey) :
    (ofList es).slot? k = es.findRev? (·.hashKey == k) := by
  induction es using List.reverseRecOn with
  | nil => rfl
  | append_singleton es new ih =>
    simp only [ofList_concat, slot?_insert, findRev?_concat, ih, beq_iff_eq]

theorem find?_ofList (es : List Entry) (k : HashKey) :
    (ofList es).find? k = (es.findRev? (·.hashKey == k)).map Entry.value :=
  congrArg (Option.map Entry.value) (slot?_ofList es k)

theorem lastWins_ofList (es : List Entry) : (ofList es).LastWins es where
  sorted := sorted_ofList es
  keys k := by
    have hsome := congrArg Option.isSome (slot?_ofList es k)
    rw [slot?, List.findRev?_eq_find?_reverse, Bool.eq_iff_iff, List.find?_isSome,
      List.find?_isSome] at hsome
    simpa using hsome
  last e := by rw [(sorted_ofList es).mem_iff, slot?_ofList, Entry.LastIn]

theorem LastWins.eq_of_rearranged (ht : t.LastWins es) (hu : u.LastWins ds)
    (h : Entry.Rearranged es ds) : t = u := by
  have : Std.Irrefl fun d e : Entry => d.hashKey < e.hashKey := ⟨fun e => HashKey.lt_irrefl _⟩
  have : Std.Antisymm fun d e : Entry => d.hashKey < e.hashKey :=
    ⟨fun d e hde hed => absurd (HashKey.lt_trans hde hed) (HashKey.lt_irrefl _)⟩
  refine ht.sorted.eq_of_mem_iff hu.sorted fun e => ?_
  rw [ht.last, hu.last]
  simp only [Entry.LastIn, List.findRev?_eq_find?_reverse, ← List.getLast?_filter, h.order]

end

end Table

end TinyScript
