import Mathlib.Data.List.AList
import Mathlib.Data.Nat.Find
import Mathlib.Algebra.BigOperators.Group.List.Basic
import Mathlib.Algebra.Order.Ring.Nat

/-!
# Recency tables

A `Table K V` is a finite map whose entries are listed from the most to the least recently used
key; `AList` carries that no key is listed twice. `store` and `touch` move a key to the front,
`shrink full` drops entries from the old end, the fewest that leave a table that is not `full`.
`full` is a parameter, so the same theory serves exact and machine arithmetic.
-/

namespace Lib.Recency

variable {K : Type u} {V : Type v} [DecidableEq K]

/-- A finite map, most recently used key first. -/
abbrev Table (K : Type u) (V : Type v) := AList fun _ : K => V

/-- The sum of the weights of the values. -/
def weight (w : V → Nat) (m : Table K V) : Nat := (m.entries.map fun e => w e.2).sum

omit [DecidableEq K] in
/-- The weight does not depend on the order of the entries. -/
theorem weight_perm {w : V → Nat} {m n : Table K V} (h : m.entries.Perm n.entries) :
    weight w m = weight w n := (h.map _).sum_eq

/-- The `n` most recently used entries. -/
def newest (n : Nat) (m : Table K V) : Table K V :=
  ⟨m.entries.take n, m.nodupKeys.sublist (List.take_sublist n _)⟩

/-- All entries but the least recently used one. -/
def dropOldest (m : Table K V) : Table K V := newest (m.entries.length - 1) m

/-- Drop entries from the old end, the fewest that end `full`. -/
def shrink (full : Table K V → Bool) (m : Table K V) : Table K V :=
  newest (Nat.findGreatest (fun n => full (newest n m) = false) m.entries.length) m

/-- Overwrite or add `k`: its own old entry goes, room is made, and `k` comes first. -/
def store (full : Table K V → Bool) (k : K) (v : V) (m : Table K V) : Table K V :=
  (shrink full (m.erase k)).insert k v

/-- Move `k` to the front if it is present. -/
def touch (k : K) (m : Table K V) : Table K V :=
  match m.lookup k with
  | some v => m.insert k v
  | none => m

section Weight

variable {w : V → Nat}

theorem erase_of_lookup_none {k : K} {m : Table K V} (h : m.lookup k = none) : m.erase k = m := by
  apply AList.ext
  exact List.kerase_of_notMem_keys (AList.lookup_eq_none.mp h)

/-- An entry that is found stands somewhere among the entries. -/
theorem perm_cons_erase {k : K} {v : V} {m : Table K V} (h : m.lookup k = some v) :
    m.entries.Perm (⟨k, v⟩ :: (m.erase k).entries) := by
  have hk : k ∈ m.entries.keys := AList.mem_keys.mp (AList.lookup_isSome.mp (by simp [h]))
  obtain ⟨v', l₁, l₂, -, hl, he⟩ := List.exists_of_kerase hk
  have hv : v = v' := by
    have hmem : (⟨k, v'⟩ : Sigma fun _ : K => V) ∈ m.entries := by rw [hl]; simp
    have := AList.mem_lookup_iff.mpr hmem
    rw [h] at this
    exact Option.some.inj this
  have herase : (m.erase k).entries = l₁ ++ l₂ := he
  rw [herase, hl, hv]
  exact List.perm_middle

/-- Removing an entry takes its weight away. -/
theorem weight_erase {k : K} {v : V} {m : Table K V} (h : m.lookup k = some v) :
    weight w m = w v + weight w (m.erase k) := by
  have hsum := ((perm_cons_erase h).map fun e => w e.2).sum_eq
  rwa [List.map_cons, List.sum_cons] at hsum

theorem weight_insert (k : K) (v : V) (m : Table K V) :
    weight w (m.insert k v) = w v + weight w (m.erase k) := by
  have herase : (m.erase k).entries = List.kerase k m.entries := rfl
  simp only [weight, AList.entries_insert, herase, List.map_cons, List.sum_cons]

theorem le_weight_of_lookup {k : K} {v : V} {m : Table K V} (h : m.lookup k = some v) :
    w v ≤ weight w m := by
  rw [weight_erase h]
  exact Nat.le_add_right _ _

end Weight

section Newest

omit [DecidableEq K]

@[simp] theorem entries_newest (n : Nat) (m : Table K V) :
    (newest n m).entries = m.entries.take n := rfl

theorem keys_newest (n : Nat) (m : Table K V) : (newest n m).keys = m.keys.take n := by
  rw [AList.keys, AList.keys, entries_newest, List.keys, List.map_take]

theorem newest_of_length_le {n : Nat} {m : Table K V} (h : m.entries.length ≤ n) :
    newest n m = m := AList.ext (List.take_of_length_le h)

theorem newest_newest (i j : Nat) (m : Table K V) :
    newest i (newest j m) = newest (min i j) m := AList.ext List.take_take

theorem newest_zero (m : Table K V) : newest 0 m = ∅ := AList.ext rfl

theorem weight_newest_le {w : V → Nat} (n : Nat) (m : Table K V) :
    weight w (newest n m) ≤ weight w m := by
  have h : m.entries = m.entries.take n ++ m.entries.drop n := (List.take_append_drop n _).symm
  unfold weight
  rw [entries_newest]
  conv_rhs => rw [h]
  rw [List.map_append, List.sum_append]
  exact Nat.le_add_right _ _

end Newest

theorem lookup_newest {n : Nat} {k : K} {v : V} {m : Table K V}
    (h : (newest n m).lookup k = some v) : m.lookup k = some v := by
  have hmem := AList.mem_lookup_iff.mp (Option.mem_def.mpr h)
  exact AList.mem_lookup_iff.mpr (List.mem_of_mem_take hmem)

/-- Removing the last listed key drops the least recently used entry. -/
theorem erase_eq_dropOldest {k : K} {m : Table K V} (h : m.keys.getLast? = some k) :
    m.erase k = dropOldest m := by
  rcases List.eq_nil_or_concat m.entries with hnil | ⟨l, e, hl⟩
  · simp [AList.keys, hnil] at h
  · rw [List.concat_eq_append] at hl
    have hk : e.1 = k := by
      simpa [AList.keys, List.keys, hl] using h
    have hnd : e.1 ∉ List.keys l := by
      have := m.keys_nodup
      rw [AList.keys, hl, List.keys, List.map_append, List.nodup_append] at this
      intro hmem
      exact this.2.2 _ hmem e.1 (by simp) rfl
    apply AList.ext
    show List.kerase k m.entries = m.entries.take (m.entries.length - 1)
    rw [hl, ← hk, List.kerase_append_right hnd, List.kerase_cons_eq rfl]
    simp

section Shrink

omit [DecidableEq K]

variable {full : Table K V → Bool}

private theorem findGreatest_congr {P Q : Nat → Prop} [DecidablePred P] [DecidablePred Q]
    {n : Nat} (h : ∀ i ≤ n, P i ↔ Q i) : Nat.findGreatest P n = Nat.findGreatest Q n := by
  induction n with
  | zero => rfl
  | succ n ih =>
    rw [Nat.findGreatest_succ, Nat.findGreatest_succ, ih fun i hi => h i (by omega)]
    exact if_congr (h _ le_rfl) rfl rfl

/-- A table that is not full loses nothing. -/
theorem shrink_of_not_full {m : Table K V} (h : full m = false) : shrink full m = m := by
  have hlen : full (newest m.entries.length m) = false := by rwa [newest_of_length_le le_rfl]
  have hle := Nat.le_findGreatest (P := fun n => full (newest n m) = false) le_rfl hlen
  exact newest_of_length_le hle

/-- A full table loses its least recently used entry before the question is asked again. -/
theorem shrink_of_full {m : Table K V} (h : full m = true) (hne : m.entries ≠ []) :
    shrink full m = shrink full (dropOldest m) := by
  obtain ⟨n, hn⟩ : ∃ n, m.entries.length = n + 1 :=
    ⟨m.entries.length - 1, by have := List.length_pos_iff.mpr hne; omega⟩
  have hdrop : dropOldest m = newest n m := by simp [dropOldest, hn]
  have hlen : (newest n m).entries.length = n := by simp [hn]
  have hfull : ¬ full (newest (n + 1) m) = false := by
    rw [newest_of_length_le (by omega), h]
    simp
  unfold shrink
  rw [hdrop, hlen, hn, Nat.findGreatest_of_not hfull, newest_newest]
  have hcongr : Nat.findGreatest (fun i => full (newest i m) = false) n =
      Nat.findGreatest (fun i => full (newest i (newest n m)) = false) n :=
    findGreatest_congr fun i hi => by rw [newest_newest, min_eq_left hi]
  rw [← hcongr, min_eq_left (Nat.findGreatest_le n)]

/-- The result is not full, provided that the empty table is not. -/
theorem full_shrink (h : full ∅ = false) (m : Table K V) : full (shrink full m) = false :=
  Nat.findGreatest_spec (P := fun n => full (newest n m) = false) (Nat.zero_le _)
    (by rwa [newest_zero])

/-- What remains is an initial piece, and every longer initial piece is full. -/
theorem shrink_maximal (full : Table K V → Bool) (m : Table K V) :
    ∃ n ≤ m.entries.length, shrink full m = newest n m ∧
      ∀ i ≤ m.entries.length, n < i → full (newest i m) = true := by
  refine ⟨_, Nat.findGreatest_le _, rfl, ?_⟩
  intro i hi hlt
  simpa using Nat.findGreatest_is_greatest hlt hi

theorem newest_eq_empty_iff {n : Nat} {m : Table K V} (hn : n ≤ m.entries.length) :
    newest n m = ∅ ↔ n = 0 := by
  constructor
  · intro h
    have hlen := congrArg (fun t : Table K V => t.entries.length) h
    simpa [List.length_take, Nat.min_eq_left hn] using hlen
  · rintro rfl
    exact newest_zero m

/-- Nothing remains if and only if every initial piece with an entry is full. -/
theorem shrink_eq_empty_iff {m : Table K V} :
    shrink full m = ∅ ↔ ∀ n < m.entries.length, full (newest (n + 1) m) = true := by
  rw [shrink, newest_eq_empty_iff (Nat.findGreatest_le _), Nat.findGreatest_eq_zero_iff]
  constructor
  · intro h n hn
    simpa using h (Nat.succ_pos n) hn
  · intro h n hpos hn
    have hfull := h (n - 1) (by omega)
    rw [Nat.sub_add_cancel hpos] at hfull
    simpa using hfull

theorem shrink_congr {full' : Table K V → Bool} {m : Table K V}
    (h : ∀ n, full (newest n m) = full' (newest n m)) : shrink full m = shrink full' m := by
  unfold shrink
  rw [findGreatest_congr fun n _ => by rw [h n]]

end Shrink

section Lookup

variable {full : Table K V → Bool}

theorem lookup_shrink (full : Table K V → Bool) (k : K) (m : Table K V) :
    (shrink full m).lookup k = m.lookup k ∨ (shrink full m).lookup k = none := by
  cases h : (shrink full m).lookup k with
  | none => exact .inr rfl
  | some v => exact .inl (lookup_newest h).symm

theorem lookup_store_self (k : K) (v : V) (m : Table K V) :
    (store full k v m).lookup k = some v := AList.lookup_insert _

/-- Storing one key keeps the value of any other or evicts it. -/
theorem lookup_store_ne {k k' : K} (hne : k' ≠ k) (v : V) (m : Table K V) :
    (store full k v m).lookup k' = m.lookup k' ∨ (store full k v m).lookup k' = none := by
  unfold store
  rw [AList.lookup_insert_ne hne]
  have h := lookup_shrink full k' (m.erase k)
  rwa [AList.lookup_erase_ne hne] at h

/-- Where nothing has to go, it keeps them all. -/
theorem lookup_store_of_not_full {k k' : K} {m : Table K V} (h : full (m.erase k) = false)
    (hne : k' ≠ k) (v : V) : (store full k v m).lookup k' = m.lookup k' := by
  rw [store, shrink_of_not_full h, AList.lookup_insert_ne hne, AList.lookup_erase_ne hne]

@[simp] theorem lookup_touch (k k' : K) (m : Table K V) :
    (touch k m).lookup k' = m.lookup k' := by
  unfold touch
  split
  · rename_i v h
    by_cases hk : k' = k
    · rw [hk, h, AList.lookup_insert]
    · rw [AList.lookup_insert_ne hk]
  · rfl

/-- A touch reorders the entries. -/
theorem perm_touch (k : K) (m : Table K V) : (touch k m).entries.Perm m.entries :=
  List.lookup_ext (touch k m).nodupKeys m.nodupKeys fun k' v => by
    rw [show List.dlookup k' (touch k m).entries = List.dlookup k' m.entries from
      lookup_touch k k' m]

theorem weight_touch {w : V → Nat} (k : K) (m : Table K V) :
    weight w (touch k m) = weight w m := weight_perm (perm_touch k m)

theorem lookup_erase_self_shrink (full : Table K V → Bool) (k : K) (m : Table K V) :
    (shrink full (m.erase k)).lookup k = none := by
  rcases lookup_shrink full k (m.erase k) with h | h
  · rw [h, AList.lookup_erase]
  · exact h

end Lookup

section Repeat

variable {full : Table K V → Bool}

theorem erase_insert_of_lookup_none {k : K} {m : Table K V} (v : V) (h : m.lookup k = none) :
    (m.insert k v).erase k = m := by
  apply AList.ext
  show List.kerase k (m.insert k v).entries = m.entries
  rw [AList.entries_insert_of_notMem (AList.lookup_eq_none.mp h)]
  exact List.kerase_cons_eq rfl

/-- Storing the same pair again changes nothing: the second time nothing is evicted. -/
theorem store_store (hempty : full ∅ = false) (k : K) (v : V) (m : Table K V) :
    store full k v (store full k v m) = store full k v m := by
  have habsent := lookup_erase_self_shrink full k m
  have hroom : shrink full (shrink full (m.erase k)) = shrink full (m.erase k) :=
    shrink_of_not_full (full_shrink hempty _)
  rw [store, store, erase_insert_of_lookup_none v habsent, hroom]

theorem touch_touch (k : K) (m : Table K V) : touch k (touch k m) = touch k m := by
  cases h : m.lookup k with
  | none => simp [touch, h]
  | some v => simp [touch, h, AList.lookup_insert, AList.insert_insert]

theorem erase_erase_self (k : K) (m : Table K V) : (m.erase k).erase k = m.erase k :=
  erase_of_lookup_none (AList.lookup_erase k m)

end Repeat

section MapVal

variable {W : Type w}

/-- The same keys in the same order, with `f` of their values. -/
def mapVal (f : V → W) (m : Table K V) : Table K W where
  entries := m.entries.map fun e => ⟨e.1, f e.2⟩
  nodupKeys := List.NodupKeys.map₂ (fun _ => f) _ m.nodupKeys

omit [DecidableEq K] in
@[simp] theorem entries_mapVal (f : V → W) (m : Table K V) :
    (mapVal f m).entries = m.entries.map fun e => ⟨e.1, f e.2⟩ := rfl

@[simp] theorem lookup_mapVal (f : V → W) (m : Table K V) (k : K) :
    (mapVal f m).lookup k = (m.lookup k).map f := List.dlookup_map₂ (f := fun _ => f) k

@[simp] theorem mem_mapVal {f : V → W} {m : Table K V} {k : K} : k ∈ mapVal f m ↔ k ∈ m := by
  rw [← AList.lookup_isSome, lookup_mapVal, Option.isSome_map, AList.lookup_isSome]

theorem erase_mapVal (f : V → W) (m : Table K V) (k : K) :
    (mapVal f m).erase k = mapVal f (m.erase k) := AList.ext List.eraseP_map

theorem insert_mapVal (f : V → W) (m : Table K V) (k : K) (v : V) :
    (mapVal f m).insert k (f v) = mapVal f (m.insert k v) := by
  apply AList.ext
  rw [AList.entries_insert, entries_mapVal f (m.insert k v), AList.entries_insert, List.map_cons]
  exact congrArg _ (congrArg AList.entries (erase_mapVal f m k))

end MapVal

end Lib.Recency
