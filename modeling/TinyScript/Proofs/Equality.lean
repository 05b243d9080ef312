import Mathlib.Logic.Relation
import TinyScript.Alike
import TinyScript.Proofs.CreationOrder

/-!
# Two equalities

Hosts compare values by content and programs compare them by identity. `Heap.Matches` is what
comparison by content tells if it comes to an end. On values without cycles it is what `Heap.alike`
gives, whose path is needed for cycles only, and there it is an equivalence that keeps types, hash
keys and texts. The `==` of programs is an equivalence on all values, and values that are equal match
each other for good, whatever becomes of the arrays in them (`Session.equal_refines_alike`).
-/

namespace TinyScript

def Object.isContainer : Object → Bool
  | .array _ | .hash _ => true
  | _ => false

namespace Heap

inductive Contains (h : Heap) : Value → Value → Prop
  | returned : Contains h (.returned n v) v
  | item : h.objects[i]? = some (.array items) → v ∈ items → Contains h (.object i) v
  | key : h.objects[i]? = some (.hash table) → e ∈ table → Contains h (.object i) e.key
  | value : h.objects[i]? = some (.hash table) → e ∈ table → Contains h (.object i) e.value

/-- No value that lies in it, however deep, lies in itself. -/
def Acyclic (h : Heap) (v : Value) : Prop :=
  ∀ w, Relation.ReflTransGen h.Contains v w → ¬ Relation.TransGen h.Contains w w

/-- The values have one content, and a look through both comes to an end. An array is not looked into
for itself. -/
inductive Matches (h : Heap) : Value → Value → Prop
  | int (n : Int64) : Matches h (.int n) (.int n)
  | bool (b : Bool) : Matches h (.bool b) (.bool b)
  | null : Matches h .null .null
  | error : f.message = g.message → Matches h (.error m f) (.error n g)
  | returned : Matches h a b → Matches h (.returned m a) (.returned n b)
  | plain : h.objects[i]? = o → h.objects[j]? = o → o.any Object.isContainer = false →
      Matches h (.object i) (.object j)
  | self : h.objects[i]? = some (.array items) → Matches h (.object i) (.object i)
  | array : h.objects[i]? = some (.array xs) → h.objects[j]? = some (.array ys) →
      xs.size = ys.size →
      (∀ (k : Nat) x y, xs[k]? = some x → ys[k]? = some y → Matches h x y) →
      Matches h (.object i) (.object j)
  | hash : h.objects[i]? = some (.hash t) → h.objects[j]? = some (.hash u) →
      t.map Entry.hashKey = u.map Entry.hashKey →
      (∀ (k : Nat) d e, t[k]? = some d → u[k]? = some e → Matches h d.key e.key) →
      (∀ (k : Nat) d e, t[k]? = some d → u[k]? = some e → Matches h d.value e.value) →
      Matches h (.object i) (.object j)

section
variable {h : Heap} {a b c : Value} {i j : ObjectId}

theorem Matches.symm (hab : h.Matches a b) : h.Matches b a := by
  induction hab with
  | int n => exact .int n
  | bool b => exact .bool b
  | null => exact .null
  | error hfg => exact .error hfg.symm
  | returned _ ih => exact .returned ih
  | plain hi hj ho => exact .plain hj hi ho
  | self hi => exact .self hi
  | array hi hj hsize _ ih => exact .array hj hi hsize.symm fun k x y hx hy => ih k y x hy hx
  | hash hi hj hkeys _ _ ihkey ihvalue =>
    exact .hash hj hi hkeys.symm (fun k d e hd he => ihkey k e d he hd) fun k d e hd he =>
      ihvalue k e d he hd

theorem Matches.of_plain (hab : h.Matches (.object i) b) (hi : h.objects[i]? = o)
    (ho : o.any Object.isContainer = false) : ∃ j, b = .object j ∧ h.objects[j]? = o := by
  cases hab with
  | @plain _ _ j hi' hj _ => exact ⟨j, rfl, hj.trans (hi'.symm.trans hi)⟩
  | self hi' | array hi' | hash hi' =>
    rw [← hi, hi'] at ho
    exact nomatch ho

theorem Matches.of_array (hab : h.Matches (.object i) b) (hi : h.objects[i]? = some (.array xs)) :
    b = .object i ∨ ∃ j ys, b = .object j ∧ h.objects[j]? = some (.array ys) ∧ xs.size = ys.size ∧
      ∀ (k : Nat) x y, xs[k]? = some x → ys[k]? = some y → h.Matches x y := by
  cases hab with
  | plain hi' _ ho =>
    rw [← hi', hi] at ho
    exact nomatch ho
  | self _ => exact .inl rfl
  | @array _ j _ ys hi' hj hsize hitems =>
    obtain rfl := Object.array.inj (Option.some.inj (hi.symm.trans hi'))
    exact .inr ⟨j, ys, rfl, hj, hsize, hitems⟩
  | hash hi' => exact nomatch hi.symm.trans hi'

theorem Matches.of_hash (hab : h.Matches (.object i) b) (hi : h.objects[i]? = some (.hash t)) :
    ∃ j u, b = .object j ∧ h.objects[j]? = some (.hash u) ∧
      t.map Entry.hashKey = u.map Entry.hashKey ∧
      ∀ (k : Nat) d e, t[k]? = some d → u[k]? = some e →
        h.Matches d.key e.key ∧ h.Matches d.value e.value := by
  cases hab with
  | plain hi' _ ho =>
    rw [← hi', hi] at ho
    exact nomatch ho
  | self hi' | array hi' => exact nomatch hi.symm.trans hi'
  | @hash _ j _ u hi' hj hkeys hkey hvalue =>
    obtain rfl := Object.hash.inj (Option.some.inj (hi.symm.trans hi'))
    exact ⟨j, u, rfl, hj, hkeys, fun k d e hd he => ⟨hkey k d e hd he, hvalue k d e hd he⟩⟩

theorem Matches.trans (hab : h.Matches a b) (hbc : h.Matches b c) : h.Matches a c := by
  induction hab generalizing c with
  | int | bool | null | self => exact hbc
  | error hfg =>
    cases hbc with
    | error hgf => exact .error (hfg.trans hgf)
  | returned _ ih =>
    cases hbc with
    | returned hbc => exact .returned (ih hbc)
  | plain hi hj ho =>
    obtain ⟨k, rfl, hk⟩ := hbc.of_plain hj ho
    exact .plain hi hk ho
  | @array i j xs ys hi hj hsize hitems ih =>
    rcases hbc.of_array hj with rfl | ⟨l, zs, rfl, hl, hsize', hitems'⟩
    · exact .array hi hj hsize hitems
    · refine .array hi hl (hsize.trans hsize') fun k x z hx hz => ?_
      have hk : k < ys.size := hsize ▸ (Array.getElem?_eq_some_iff.mp hx).1
      have hy : ys[k]? = some ys[k] := Array.getElem?_eq_getElem hk
      exact ih k x _ hx hy (hitems' k _ z hy hz)
  | @hash i j t u hi hj hkeys _ _ ihkey ihvalue =>
    obtain ⟨l, w, rfl, hl, hkeys', hentries⟩ := hbc.of_hash hj
    have hlen : t.length = u.length := by simpa using congrArg List.length hkeys
    have hmiddle : ∀ {k : Nat} {d : Entry}, t[k]? = some d → ∃ m, u[k]? = some m := fun hd =>
      ⟨_, List.getElem?_eq_getElem (hlen ▸ (List.getElem?_eq_some_iff.mp hd).1)⟩
    refine .hash hi hl (hkeys.trans hkeys') (fun k d e hd he => ?_) fun k d e hd he => ?_
    · obtain ⟨m, hm⟩ := hmiddle hd
      exact ihkey k d m hd hm (hentries k m e hm he).1
    · obtain ⟨m, hm⟩ := hmiddle hd
      exact ihvalue k d m hd hm (hentries k m e hm he).2

theorem Matches.tag (hab : h.Matches a b) : h.tag a = h.tag b := by
  cases hab with
  | plain hi hj _ => simp only [Heap.tag, hi, hj]
  | array hi hj | hash hi hj =>
    simp only [Heap.tag, hi, hj]
    rfl
  | _ => rfl

theorem Matches.hashKey? (hab : h.Matches a b) : h.hashKey? a = h.hashKey? b := by
  cases hab with
  | plain hi hj _ => simp only [Heap.hashKey?, string?, object?, hi, hj]
  | array hi hj | hash hi hj => simp only [Heap.hashKey?, string?, object?, hi, hj]
  | _ => rfl

-- ---------------------------------------------------------------------------
-- The comparison with a path
-- ---------------------------------------------------------------------------

theorem all_zip {α β : Type} {xs : List α} {ys : List β} {p : α × β → Bool} :
    (xs.zip ys).all p = true ↔
      ∀ (k : Nat) x y, xs[k]? = some x → ys[k]? = some y → p (x, y) = true := by
  rw [List.all_eq_true]
  constructor
  · intro hall k x y hx hy
    exact hall (x, y) (List.mem_of_getElem? (List.getElem?_zip_eq_some.mpr ⟨hx, hy⟩))
  · rintro hall ⟨x, y⟩ hmem
    obtain ⟨k, hk⟩ := List.mem_iff_getElem?.mp hmem
    obtain ⟨hx, hy⟩ := List.getElem?_zip_eq_some.mp hk
    exact hall k x y hx hy

theorem map_eq_map_iff {α β : Type} {f g : α → β} {xs ys : List α} :
    xs.map f = ys.map g ↔ xs.length = ys.length ∧
      ∀ (k : Nat) x y, xs[k]? = some x → ys[k]? = some y → f x = g y := by
  constructor
  · intro h
    refine ⟨by simpa using congrArg List.length h, fun k x y hx hy => ?_⟩
    simpa [hx, hy] using congrArg (·[k]?) h
  · rintro ⟨hlen, hall⟩
    refine List.ext_getElem (by simpa using hlen) fun k hx hy => ?_
    rw [List.length_map] at hx hy
    rw [List.getElem_map, List.getElem_map]
    exact hall k _ _ (List.getElem?_eq_getElem hx) (List.getElem?_eq_getElem hy)

theorem alike_plain {same : Bool} {inner : Value → Value → Bool} {o o' : Object}
    (ho : o.isContainer = false) : Object.alike same inner o o' = true ↔ o = o' := by
  cases o with
  | array | hash => exact nomatch ho
  | _ => cases o' <;> simp [Object.alike, and_assoc]

theorem alike_array {same : Bool} {inner : Value → Value → Bool} {xs ys : Array Value} :
    Object.alike same inner (.array xs) (.array ys) = true ↔ same = true ∨ xs.size = ys.size ∧
      ∀ (k : Nat) x y, xs[k]? = some x → ys[k]? = some y → inner x y = true := by
  rw [Object.alike, Bool.or_eq_true, Bool.and_eq_true, beq_iff_eq, all_zip]
  simp only [Array.getElem?_toList]

theorem alike_hash {same : Bool} {inner : Value → Value → Bool} {t u : Table} :
    Object.alike same inner (.hash t) (.hash u) = true ↔
      t.map Entry.hashKey = u.map Entry.hashKey ∧
      ∀ (k : Nat) d e, t[k]? = some d → u[k]? = some e →
        inner d.key e.key = true ∧ inner d.value e.value = true := by
  rw [Object.alike, Bool.and_eq_true, beq_iff_eq, all_zip, map_eq_map_iff, and_assoc]
  simp only [Bool.and_eq_true, beq_iff_eq, and_assoc, forall_and]

theorem alikeIn_object {o o' : Object} {path : List (ObjectId × ObjectId)}
    (hi : h.objects[i]? = some o) (hj : h.objects[j]? = some o') :
    h.alikeIn path (.object i) (.object j) =
      (decide ((i, j) ∈ path) || Object.alike (i == j) (h.alikeIn ((i, j) :: path)) o o') := by
  rw [alikeIn]
  split <;> simp_all

theorem Matches.alikeIn (hab : h.Matches a b) (path : List (ObjectId × ObjectId)) :
    h.alikeIn path a b = true := by
  induction hab generalizing path with
  | int | bool | null => rw [Heap.alikeIn] <;> simp
  | error hfg => rw [Heap.alikeIn, hfg, beq_self_eq_true]
  | returned _ ih => rw [Heap.alikeIn, ih]
  | @plain i o j hi hj ho =>
    cases o with
    | none =>
      rw [Heap.alikeIn]
      split <;> simp_all
    | some o =>
      rw [alikeIn_object hi hj, Bool.or_eq_true]
      exact .inr ((alike_plain ho).mpr rfl)
  | self hi =>
    rw [alikeIn_object hi hi, Bool.or_eq_true, alike_array]
    exact .inr (.inl (beq_self_eq_true _))
  | array hi hj hsize _ ih =>
    rw [alikeIn_object hi hj, Bool.or_eq_true, alike_array]
    exact .inr (.inr ⟨hsize, fun k x y hx hy => ih k x y hx hy _⟩)
  | hash hi hj hkeys _ _ ihkey ihvalue =>
    rw [alikeIn_object hi hj, Bool.or_eq_true, alike_hash]
    exact .inr ⟨hkeys, fun k d e hd he => ⟨ihkey k d e hd he _, ihvalue k d e hd he _⟩⟩

theorem alikeIn_self (a : Value) (path : List (ObjectId × ObjectId)) :
    h.alikeIn path a a = true := by
  suffices ∀ b, a = b → h.alikeIn path a b = true from this a rfl
  intro b hab
  fun_induction h.alikeIn path a b with
  | case1 | case6 =>
    cases hab
    simp
  | case2 _ _ _ _ _ ih =>
    cases hab
    exact ih rfl
  | case3 => rfl
  | case4 path i j o o' hi hj hnew ih =>
    obtain rfl := Value.object.inj hab
    obtain rfl := Option.some.inj (hi.symm.trans hj)
    cases o with
    | array items => exact alike_array.mpr (.inl (beq_self_eq_true i))
    | hash table =>
      refine alike_hash.mpr ⟨rfl, fun k d e hd he => ?_⟩
      obtain rfl := Option.some.inj (hd.symm.trans he)
      exact ⟨ih _ _ rfl, ih _ _ rfl⟩
    | _ => exact (alike_plain rfl).mpr rfl
  | case5 path i j hnone =>
    obtain rfl := Value.object.inj hab
    have hi : h.objects[i]? = none :=
      Option.eq_none_iff_forall_ne_some.mpr fun o hi => hnone o o hi hi
    rw [hi]
    rfl

-- ---------------------------------------------------------------------------
-- Values without cycles
-- ---------------------------------------------------------------------------

/-- A value without cycles that lies in all of these objects. -/
structure Inside (h : Heap) (path : List ObjectId) (v : Value) : Prop where
  acyclic : h.Acyclic v
  below : ∀ i ∈ path, Relation.TransGen h.Contains (.object i) v

section
variable {path : List ObjectId}

theorem Acyclic.inner (ha : h.Acyclic a) (hab : h.Contains a b) : h.Acyclic b :=
  fun w hw => ha w (.head hab hw)

theorem Acyclic.inside (ha : h.Acyclic a) : h.Inside [] a := ⟨ha, List.forall_mem_nil _⟩

theorem Inside.inner (ha : h.Inside path a) (hab : h.Contains a b) : h.Inside path b :=
  ⟨ha.acyclic.inner hab, fun i hi => (ha.below i hi).tail hab⟩

theorem Inside.cons (hi : h.Inside path (.object i)) (hb : h.Contains (.object i) b) :
    h.Inside (i :: path) b :=
  ⟨hi.acyclic.inner hb, List.forall_mem_cons.mpr ⟨.single hb, (hi.inner hb).below⟩⟩

theorem Inside.new (hi : h.Inside path (.object i)) : i ∉ path :=
  fun hmem => hi.acyclic _ .refl (hi.below i hmem)

end

/-- Where no cycle is met, the path does not count. -/
theorem matches_of_alikeIn {path : List (ObjectId × ObjectId)}
    (ha : h.Inside (path.map Prod.fst) a) (hab : h.alikeIn path a b = true) : h.Matches a b := by
  fun_induction h.alikeIn path a b with
  | case1 => exact .error (beq_iff_eq.mp hab)
  | case2 _ _ _ _ _ ih => exact .returned (ih (ha.inner .returned) hab)
  | case3 _ i j _ _ _ _ hmem => exact absurd (List.mem_map_of_mem hmem) ha.new
  | case4 path i j o o' hi hj hnew ih =>
    have hinner : ∀ x y, h.Contains (.object i) x → h.alikeIn ((i, j) :: path) x y = true →
        h.Matches x y := fun x y hx => ih x y (ha.cons hx)
    cases o with
    | array xs =>
      cases o' with
      | array ys =>
        rcases alike_array.mp hab with hsame | ⟨hsize, hitems⟩
        · obtain rfl := beq_iff_eq.mp hsame
          exact .self hi
        · exact .array hi hj hsize fun k x y hx hy =>
            hinner x y (.item hi (Array.mem_of_getElem? hx)) (hitems k x y hx hy)
      | _ => exact nomatch hab
    | hash t =>
      cases o' with
      | hash u =>
        obtain ⟨hkeys, hentries⟩ := alike_hash.mp hab
        refine .hash hi hj hkeys (fun k d e hd he => ?_) fun k d e hd he => ?_
        · exact hinner _ _ (.key hi (List.mem_of_getElem? hd)) (hentries k d e hd he).1
        · exact hinner _ _ (.value hi (List.mem_of_getElem? hd)) (hentries k d e hd he).2
      | _ => exact nomatch hab
    | _ =>
      obtain rfl := (alike_plain rfl).mp hab
      exact .plain hi hj rfl
  | case5 path i j hnone =>
    rw [Bool.and_eq_true, Option.isNone_iff_eq_none, Option.isNone_iff_eq_none] at hab
    exact .plain hab.1 hab.2 rfl
  | case6 _ a b herror hreturned hobject =>
    obtain rfl := beq_iff_eq.mp hab
    cases a with
    | int n => exact .int n
    | bool x => exact .bool x
    | null => exact .null
    | object i => exact (hobject i i rfl rfl).elim
    | error m f => exact (herror m f m f rfl rfl).elim
    | returned m v => exact (hreturned m v m v rfl rfl).elim

theorem alike_iff (ha : h.Acyclic a) : h.alike a b = true ↔ h.Matches a b :=
  ⟨matches_of_alikeIn ha.inside, fun hab => hab.alikeIn []⟩

theorem Matches.refl (ha : h.Acyclic a) : h.Matches a a := (alike_iff ha).mp (alikeIn_self a [])

-- ---------------------------------------------------------------------------
-- One text
-- ---------------------------------------------------------------------------

theorem Matches.items (hab : h.Matches (.object i) b) (ha : h.Acyclic (.object i))
    (hi : h.objects[i]? = some (.array xs)) :
    ∃ j ys, b = .object j ∧ h.objects[j]? = some (.array ys) ∧ xs.size = ys.size ∧
      ∀ (k : Nat) x y, xs[k]? = some x → ys[k]? = some y → h.Matches x y := by
  rcases hab.of_array hi with rfl | hitems
  · refine ⟨i, xs, rfl, hi, rfl, fun k x y hx hy => ?_⟩
    obtain rfl := Option.some.inj (hx.symm.trans hy)
    exact .refl (ha.inner (.item hi (Array.mem_of_getElem? hx)))
  · exact hitems

theorem textIn_array {arrays hashes : List ObjectId} {items : Array Value}
    (hi : h.objects[i]? = some (.array items)) (hnew : i ∉ arrays) :
    h.textIn arrays hashes (.object i) =
      "[" ++ ", ".intercalate (items.toList.map (h.textIn (i :: arrays) [])) ++ "]" := by
  rw [Heap.textIn]
  split <;> simp_all

theorem textIn_hash {arrays hashes : List ObjectId} {table : Table}
    (hi : h.objects[i]? = some (.hash table)) (hnew : i ∉ hashes) :
    h.textIn arrays hashes (.object i) = "\x7b" ++ ", ".intercalate (table.map fun e =>
      h.textIn arrays (i :: hashes) e.key ++ ": " ++ h.textIn arrays (i :: hashes) e.value) ++
        "\x7d" := by
  rw [Heap.textIn]
  split <;> simp_all

theorem Matches.textIn {arrays hashes arrays' hashes' : List ObjectId} (hab : h.Matches a b)
    (harrays : h.Inside arrays a) (hhashes : h.Inside hashes a) (harrays' : h.Inside arrays' b)
    (hhashes' : h.Inside hashes' b) :
    h.textIn arrays hashes a = h.textIn arrays' hashes' b := by
  fun_induction h.textIn arrays hashes a generalizing arrays' hashes' b with
  | case1 | case2 | case3 =>
    cases hab
    rw [Heap.textIn]
  | case4 =>
    cases hab with
    | error hfg => rw [Heap.textIn, hfg]
  | case5 _ _ _ _ ih =>
    cases hab with
    | returned hab =>
      rw [Heap.textIn]
      exact ih hab (harrays.inner .returned) (hhashes.inner .returned) (harrays'.inner .returned)
        (hhashes'.inner .returned)
  | case6 _ _ i hi | case7 _ _ i _ hi | case8 _ _ i _ hi | case9 _ _ i _ _ _ hi =>
    obtain ⟨j, rfl, hj⟩ := hab.of_plain hi rfl
    rw [Heap.textIn]
    split <;> simp_all
  | case10 _ _ _ _ _ hmem => exact absurd hmem harrays.new
  | case11 arrays hashes i xs hi _ ih =>
    obtain ⟨j, ys, rfl, hj, hsize, hitems⟩ := hab.items harrays.acyclic hi
    rw [textIn_array hj harrays'.new]
    refine congrArg (fun texts => "[" ++ ", ".intercalate texts ++ "]") ?_
    refine map_eq_map_iff.mpr ⟨hsize, fun k x y hx hy => ?_⟩
    rw [Array.getElem?_toList] at hx hy
    have hx' : h.Contains (.object i) x := .item hi (Array.mem_of_getElem? hx)
    have hy' : h.Contains (.object j) y := .item hj (Array.mem_of_getElem? hy)
    exact ih x (hitems k x y hx hy) (harrays.cons hx') (harrays.inner hx').acyclic.inside
      (harrays'.cons hy') (harrays'.inner hy').acyclic.inside
  | case12 _ _ _ _ _ hmem => exact absurd hmem hhashes.new
  | case13 arrays hashes i t hi _ ihkey ihvalue =>
    obtain ⟨j, u, rfl, hj, hkeys, hentries⟩ := hab.of_hash hi
    rw [textIn_hash hj hhashes'.new]
    refine congrArg (fun texts => "\x7b" ++ ", ".intercalate texts ++ "\x7d") ?_
    refine map_eq_map_iff.mpr ⟨(map_eq_map_iff.mp hkeys).1, fun k d e hd he => ?_⟩
    obtain ⟨hkey, hvalue⟩ := hentries k d e hd he
    have hd' := List.mem_of_getElem? hd
    have he' := List.mem_of_getElem? he
    rw [ihkey d hkey (harrays.inner (.key hi hd')) (hhashes.cons (.key hi hd'))
        (harrays'.inner (.key hj he')) (hhashes'.cons (.key hj he')),
      ihvalue d hvalue (harrays.inner (.value hi hd')) (hhashes.cons (.value hi hd'))
        (harrays'.inner (.value hj he')) (hhashes'.cons (.value hj he'))]

theorem Matches.display (hab : h.Matches a b) (ha : h.Acyclic a) (hb : h.Acyclic b) :
    h.display a = h.display b :=
  hab.textIn ha.inside ha.inside hb.inside hb.inside

-- ---------------------------------------------------------------------------
-- Values of sessions
-- ---------------------------------------------------------------------------

section
variable {R : Value → Value → Prop} (hcontains : ∀ a b, R a b → h.Contains a b)
  (holder : ∀ i b, R (.object i) b → b.OlderThan i)
include hcontains holder

theorem olderThan_below (hab : Relation.ReflTransGen R a b) (ha : a.OlderThan n) :
    b.OlderThan n := by
  induction hab with
  | refl => exact ha
  | @tail b c _ hbc ih =>
    cases b with
    | object i => exact (holder i c hbc).mono (Nat.le_of_lt ih)
    | returned _ v =>
      cases hcontains _ _ hbc
      exact ih
    | _ => cases hcontains _ _ hbc

/-- Containment has no cycles as far as it leads from objects to older ones. -/
theorem not_transGen_self (v : Value) : ¬ Relation.TransGen R v v := by
  intro hv
  induction v with
  | object i =>
    obtain ⟨u, hu, hrest⟩ := Relation.TransGen.head'_iff.mp hv
    exact Nat.lt_irrefl i (olderThan_below hcontains holder hrest (holder i u hu))
  | returned m v ih =>
    obtain ⟨u, hu, hrest⟩ := Relation.TransGen.head'_iff.mp hv
    cases hcontains _ _ hu
    exact ih (.tail' hrest hu)
  | _ =>
    obtain ⟨u, hu, -⟩ := Relation.TransGen.head'_iff.mp hv
    cases hcontains _ _ hu

end

theorem Backward.older (hh : h.Backward) (hib : h.Contains (.object i) b) :
    (∃ items, h.objects[i]? = some (.array items) ∧ b ∈ items) ∨ b.OlderThan i := by
  cases hib with
  | item hi hb => exact .inl ⟨_, hi, hb⟩
  | key hi he => exact .inr (hh.hashes i _ hi _ he).1
  | value hi he => exact .inr (hh.hashes i _ hi _ he).2

theorem acyclic_of_older (hh : h.Backward) (harrays : ∀ (i : ObjectId) (items : Array Value),
    h.objects[i]? = some (.array items) → ∀ v ∈ items, v.OlderThan i) (v : Value) :
    h.Acyclic v := by
  refine fun w _ => not_transGen_self (fun _ _ => id) (fun i b hib => ?_) w
  rcases hh.older hib with ⟨items, hi, hb⟩ | hb
  · exact harrays i items hi b hb
  · exact hb

theorem exists_olderThan (v : Value) : ∃ n, v.OlderThan n := by
  induction v with
  | object i => exact ⟨i + 1, Nat.lt_succ_self i⟩
  | returned _ _ ih => exact ih
  | _ => exact ⟨0, trivial⟩

/-- Where hashes hold older objects, a value matches itself, whatever cycles it has: an array is not
looked into, and below a hash there are older objects until an array comes. -/
theorem Backward.matches_self (hh : h.Backward) (v : Value) : h.Matches v v := by
  suffices ∀ n (v : Value), v.OlderThan n → h.Matches v v by
    obtain ⟨n, hn⟩ := exists_olderThan v
    exact this n v hn
  intro n
  induction n using Nat.strongRecOn with
  | ind n ih =>
    intro v hv
    induction v with
    | int n => exact .int n
    | bool b => exact .bool b
    | null => exact .null
    | error => exact .error rfl
    | returned _ _ ihv => exact .returned (ihv hv)
    | object i =>
      cases ho : h.objects[i]? with
      | none => exact .plain ho ho rfl
      | some o =>
        cases o with
        | array => exact .self ho
        | hash t =>
          refine .hash ho ho rfl (fun k d e hd he => ?_) fun k d e hd he => ?_
          all_goals
            obtain rfl := Option.some.inj (hd.symm.trans he)
            have hd' := hh.hashes i t ho d (List.mem_of_getElem? hd)
          · exact ih i hv _ hd'.1
          · exact ih i hv _ hd'.2
        | _ => exact .plain ho ho rfl

theorem binary_equal (h : Heap) (a b : Value) : h.binary .equal a b = (.bool (a == b), h) := by
  unfold binary
  split
  · simp [arithmetic]
  · rfl

theorem binary_notEqual (h : Heap) (a b : Value) :
    h.binary .notEqual a b = (.bool !(a == b), h) := by
  unfold binary
  split
  · simp [arithmetic, bne]
  · rfl

theorem binary_equal_true : h.binary .equal a b = (.bool true, h) ↔ a = b := by
  rw [binary_equal, Prod.mk.injEq, Value.bool.injEq, beq_iff_eq, and_iff_left rfl]

end

end Heap

namespace Session

/-- The heap of a session after some programs, in the middle of the next one. -/
def heapAt (ps : List Program) (p : Program) (n : Nat) : Heap :=
  let s := start.after ps
  (Machine.run n (Machine.start 0 s.scope p s.heap)).heap

/-- On values without cycles, comparison by content is an equivalence and tells what a look through
both values tells, and values alike have one type, one hash key and one text. In the middle of any
session, `==` and `!=` give opposite truth values for any two values, `==` is an equivalence, and
values that are equal match each other and are alike, in that heap and in the heaps of all times. -/
theorem equal_refines_alike :
    (∀ h : Heap,
      Equivalence (fun a b : { v // h.Acyclic v } => h.alike a b = true) ∧
      ∀ a b : { v // h.Acyclic v }, (h.alike a b = true ↔ h.Matches a b) ∧
        (h.alike a b = true →
          h.tag a = h.tag b ∧ h.hashKey? a = h.hashKey? b ∧ h.display a = h.display b)) ∧
    ∀ (ps : List Program) (p : Program) (n : Nat),
      let h := heapAt ps p n
      (∀ a b, ∃ x, h.binary .equal a b = (.bool x, h) ∧ h.binary .notEqual a b = (.bool !x, h)) ∧
      Equivalence (fun a b => h.binary .equal a b = (.bool true, h)) ∧
      ∀ a b, h.binary .equal a b = (.bool true, h) →
        ∀ (qs : List Program) (q : Program) (m : Nat),
          (heapAt qs q m).Matches a b ∧ (heapAt qs q m).alike a b = true := by
  constructor
  · intro h
    have hiff : ∀ {a b : { v // h.Acyclic v }}, h.alike a b = true ↔ h.Matches a b :=
      fun {a _} => Heap.alike_iff a.2
    refine ⟨⟨fun a => ?_, fun hab => ?_, fun hab hbc => ?_⟩, fun a b => ⟨hiff, fun hab => ?_⟩⟩
    · exact hiff.mpr (.refl a.2)
    · exact hiff.mpr (hiff.mp hab).symm
    · exact hiff.mpr ((hiff.mp hab).trans (hiff.mp hbc))
    · have hmatch := hiff.mp hab
      exact ⟨hmatch.tag, hmatch.hashKey?, hmatch.display a.2 b.2⟩
  · intro ps p n h
    refine ⟨fun a b => ⟨a == b, h.binary_equal a b, h.binary_notEqual a b⟩, ?_, ?_⟩
    · simp only [Heap.binary_equal_true]
      exact eq_equivalence
    · intro a b hab qs q m
      obtain rfl := Heap.binary_equal_true.mp hab
      have hself := (backward_state qs q m).matches_self a
      exact ⟨hself, hself.alikeIn []⟩

/-- Two arrays of one content, and the first of them after it was made to contain itself. -/
theorem equal_refines_alike_sample :
    let items : Expr := .array [.str "x"]
    let p : Program := [.declare .fixed "a" items, .declare .fixed "b" items]
    let q : Program := [.expr (.call (.ident "push") [.ident "a", .ident "a"])]
    let h := heapAt [] p 100
    let later := heapAt [p] q 100
    let a : Value := .object 1
    let b : Value := .object 3
    h.Acyclic a ∧ h.Acyclic b ∧ h.alike a b = true ∧ h.display a = h.display b ∧
      h.binary .equal a b = (.bool false, h) ∧ h.binary .equal a a = (.bool true, h) ∧
      ¬ later.Acyclic a ∧ later.Matches a a := by
  intro items p q h later a b
  have hobjects : h.objects =
      #[.string "x", .array #[.object 0], .string "x", .array #[.object 2]] := by decide
  have hacyclic : ∀ v, h.Acyclic v := Heap.acyclic_of_older (backward_state [] p 100) <| by
    intro i items hi
    change h.objects[i]? = _ at hi
    rw [hobjects] at hi
    match i, hi with
    | 1, hi | 3, hi =>
      obtain rfl := Object.array.inj (Option.some.inj hi)
      simp [Value.OlderThan]
  have hstring : h.objects[0]? = some (.string "x") := by decide
  have hstrings : h.Matches (.object 0) (.object 2) := .plain hstring (by decide) rfl
  have hfirst : h.objects[1]? = some (.array #[.object 0]) := by decide
  have hsecond : h.objects[3]? = some (.array #[.object 2]) := by decide
  have hmatch : h.Matches a b := by
    refine .array hfirst hsecond rfl fun k x y hx hy => ?_
    match k, hx, hy with
    | 0, rfl, rfl => exact hstrings
  obtain ⟨hcontent, hsession⟩ := equal_refines_alike
  obtain ⟨hiff, hsame⟩ := (hcontent h).2 ⟨a, hacyclic a⟩ ⟨b, hacyclic b⟩
  obtain ⟨-, hequal, hlater⟩ := hsession [] p 100
  refine ⟨hacyclic a, hacyclic b, hiff.mpr hmatch, (hsame (hiff.mpr hmatch)).2.2, by decide,
    hequal.refl a, ?_, (hlater a a (hequal.refl a) [p] q 100).1⟩
  have hitems : later.objects[1]? = some (.array #[.object 0, a]) := by decide
  have hself : later.Contains a a := .item hitems (by simp)
  exact fun hacyclic => hacyclic a .refl (.single hself)

end Session

end TinyScript
