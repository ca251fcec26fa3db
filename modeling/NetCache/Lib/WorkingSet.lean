import NetCache.Lib.Recency
import Mathlib.Algebra.Order.BigOperators.Group.Finset
import Mathlib.Data.Finset.Basic

/-!
# Working sets of recency tables

Which entries a recency table keeps when it makes room: those that fit together with everything
used more recently. `newer k m` lists the entries in front of `k`, and `Guarded` says that `k` is
stored and that what is in front of it stays within a set of keys and a bound on the weight of
each. Every operation on another key preserves `Guarded` while the bounds leave room for `k`.
-/

namespace Lib.Recency

variable {K : Type u} {V : Type v} [DecidableEq K]

/-- The entries used more recently than `k`. -/
def newer (k : K) (m : Table K V) : List (Sigma fun _ : K => V) :=
  m.entries.takeWhile fun e => e.1 ≠ k

theorem newer_sublist (k : K) (m : Table K V) : (newer k m).Sublist m.entries :=
  List.takeWhile_sublist _

private theorem takeWhile_of_dlookup {k : K} {v : V} {l : List (Sigma fun _ : K => V)}
    (h : l.dlookup k = some v) :
    ∃ rest, l = (l.takeWhile fun e => e.1 ≠ k) ++ ⟨k, v⟩ :: rest := by
  induction l with
  | nil => cases h
  | cons e l ih =>
    rcases e with ⟨k', v'⟩
    by_cases hk : k' = k
    · subst hk
      rw [List.dlookup_cons_eq] at h
      cases h
      exact ⟨l, by simp⟩
    · rw [List.dlookup_cons_ne _ _ (Ne.symm hk)] at h
      obtain ⟨rest, hrest⟩ := ih h
      have hpos : decide (k' ≠ k) = true := by simpa using hk
      refine ⟨rest, ?_⟩
      rw [List.takeWhile_cons, if_pos hpos, List.cons_append, ← hrest]

/-- A stored entry stands right behind the entries newer than it. -/
theorem entries_eq_newer {k : K} {v : V} {m : Table K V} (h : m.lookup k = some v) :
    ∃ rest, m.entries = newer k m ++ ⟨k, v⟩ :: rest := takeWhile_of_dlookup h

private theorem takeWhile_kerase_subset {k k' : K} (hne : k' ≠ k)
    (l : List (Sigma fun _ : K => V)) :
    ((l.kerase k').takeWhile fun e => e.1 ≠ k) ⊆ l.takeWhile fun e => e.1 ≠ k := by
  induction l with
  | nil => simp
  | cons e l ih =>
    by_cases hk' : k' = e.1
    · have hpos : decide (e.1 ≠ k) = true := by simpa [← hk'] using hne
      rw [List.kerase_cons_eq hk', List.takeWhile_cons, if_pos hpos]
      exact List.subset_cons_self _ _
    · rw [List.kerase_cons_ne hk']
      by_cases hk : e.1 = k
      · simp [hk]
      · have hpos : decide (e.1 ≠ k) = true := by simpa using hk
        rw [List.takeWhile_cons, List.takeWhile_cons, if_pos hpos, if_pos hpos]
        exact List.cons_subset_cons _ ih

/-- Removing another entry puts nothing in front of `k`. -/
theorem newer_erase_subset {k k' : K} (hne : k' ≠ k) (m : Table K V) :
    newer k (m.erase k') ⊆ newer k m := takeWhile_kerase_subset hne m.entries

theorem newer_insert_self (k : K) (v : V) (m : Table K V) : newer k (m.insert k v) = [] := by
  simp [newer, AList.entries_insert]

theorem newer_insert {k k' : K} (hne : k' ≠ k) (v : V) (m : Table K V) :
    newer k (m.insert k' v) = ⟨k', v⟩ :: newer k (m.erase k') := by
  rw [newer, AList.entries_insert, List.takeWhile_cons_of_pos (by simpa using hne)]
  rfl

theorem newer_newest_subset (k : K) (n : Nat) (m : Table K V) :
    newer k (newest n m) ⊆ newer k m := by
  rw [newer, entries_newest, ← List.take_takeWhile]
  exact List.take_subset _ _

/-- The weight of the entries in front of `k`. -/
def newerWeight (w : V → Nat) (k : K) (m : Table K V) : Nat :=
  ((newer k m).map fun e => w e.2).sum

/-- Making room keeps `k`, if it and the entries in front of it do not weigh enough for the table
of these entries to be full. -/
theorem lookup_shrink_of_fits {w : V → Nat} {full : Table K V → Bool} (cap : Nat) {k : K} {v : V}
    {m : Table K V} (h : m.lookup k = some v) (hfull : ∀ m, full m = true → cap < weight w m)
    (hfits : newerWeight w k m + w v ≤ cap) : (shrink full m).lookup k = some v := by
  obtain ⟨rest, hrest⟩ := entries_eq_newer h
  have hlen : (newer k m).length + 1 ≤ m.entries.length := by
    have := congrArg List.length hrest
    rw [List.length_append, List.length_cons] at this
    omega
  have htake : m.entries.take ((newer k m).length + 1) = newer k m ++ [⟨k, v⟩] := by
    rw [hrest, List.take_length_add_append]
    rfl
  obtain ⟨n, -, hshrink, hmax⟩ := shrink_maximal full m
  have hn : (newer k m).length < n := by
    by_contra hle
    have hweight := hfull _ (hmax _ hlen (Nat.lt_succ_of_le (Nat.le_of_not_lt hle)))
    rw [weight, entries_newest, htake, List.map_append, List.sum_append] at hweight
    simp only [List.map_cons, List.map_nil, List.sum_cons, List.sum_nil, Nat.add_zero] at hweight
    exact absurd hfits (Nat.not_le_of_lt hweight)
  have hmem : (⟨k, v⟩ : Sigma fun _ : K => V) ∈ m.entries.take n := by
    apply (List.take_prefix_take_left hn).subset
    rw [htake]
    exact List.mem_append_right _ (List.mem_singleton.mpr rfl)
  rw [hshrink]
  exact AList.mem_lookup_iff.mpr hmem

/-- Storing under another key keeps `k` too. -/
theorem lookup_store_of_fits {w : V → Nat} {full : Table K V → Bool} (cap : Nat) {k k' : K}
    {v v' : V} {m : Table K V} (h : m.lookup k = some v) (hne : k' ≠ k)
    (hfull : ∀ m, full m = true → cap < weight w m)
    (hfits : newerWeight w k (m.erase k') + w v ≤ cap) :
    (store full k' v' m).lookup k = some v := by
  rw [store, AList.lookup_insert_ne hne.symm]
  apply lookup_shrink_of_fits cap _ hfull hfits
  rw [AList.lookup_erase_ne hne.symm]
  exact h

/-- Entries of distinct keys from `U` weigh no more together than the bounds on their keys. -/
theorem sum_weights_le {w : V → Nat} {U : Finset K} {P : K → Nat}
    {l : List (Sigma fun _ : K => V)} (hl : l.NodupKeys) (hU : ∀ e ∈ l, e.1 ∈ U)
    (hP : ∀ e ∈ l, w e.2 ≤ P e.1) : (l.map fun e => w e.2).sum ≤ U.sum P := by
  have hkeys : l.keys.toFinset ⊆ U := by
    intro k hk
    obtain ⟨e, he, rfl⟩ := List.mem_map.mp (List.mem_toFinset.mp hk)
    exact hU e he
  calc (l.map fun e => w e.2).sum
      ≤ (l.map fun e => P e.1).sum := List.sum_le_sum hP
    _ = (l.keys.map P).sum := by rw [List.keys, List.map_map]; rfl
    _ = l.keys.toFinset.sum P := (List.sum_toFinset P hl).symm
    _ ≤ U.sum P := Finset.sum_le_sum_of_subset hkeys

/-- `k` holds `v`, and each entry in front of it has a key of `U` and at most the weight that `P`
allows this key. -/
structure Guarded (w : V → Nat) (U : Finset K) (P : K → Nat) (k : K) (v : V) (m : Table K V) :
    Prop where
  kept : m.lookup k = some v
  among : ∀ e ∈ newer k m, e.1 ∈ U
  light : ∀ e ∈ newer k m, w e.2 ≤ P e.1

/-- A key that has just been used has nothing in front of it. -/
theorem guarded_insert_self {w : V → Nat} {U : Finset K} {P : K → Nat} (k : K) (v : V)
    (m : Table K V) : Guarded w U P k v (m.insert k v) where
  kept := AList.lookup_insert _
  among := by simp [newer_insert_self]
  light := by simp [newer_insert_self]

namespace Guarded

variable {w : V → Nat} {U : Finset K} {P : K → Nat} {k : K} {v : V} {m : Table K V}

theorem of_newer_subset {m' : Table K V} (h : Guarded w U P k v m)
    (hkept : m'.lookup k = some v) (hsub : newer k m' ⊆ newer k m) : Guarded w U P k v m' where
  kept := hkept
  among e he := h.among e (hsub he)
  light e he := h.light e (hsub he)

theorem erase (h : Guarded w U P k v m) {k' : K} (hne : k' ≠ k) :
    Guarded w U P k v (m.erase k') :=
  h.of_newer_subset (by rw [AList.lookup_erase_ne hne.symm, h.kept]) (newer_erase_subset hne m)

/-- A new front entry within the bounds. -/
theorem insert (h : Guarded w U P k v m) {k' : K} (hne : k' ≠ k) (hk' : k' ∈ U) {v' : V}
    (hv' : w v' ≤ P k') : Guarded w U P k v (m.insert k' v') := by
  have he := h.erase hne
  refine ⟨by rw [AList.lookup_insert_ne hne.symm, h.kept], ?_, ?_⟩
  · rw [newer_insert hne]
    exact List.forall_mem_cons.mpr ⟨hk', he.among⟩
  · rw [newer_insert hne]
    exact List.forall_mem_cons.mpr ⟨hv', he.light⟩

/-- The entries in front of `k`, without that of `k'`, leave room for a new entry of `k'`. -/
theorem newerWeight_erase_le (h : Guarded w U P k v m) {k' : K} (hne : k' ≠ k) (hk' : k' ∈ U) :
    newerWeight w k (m.erase k') + P k' ≤ U.sum P := by
  have he := h.erase hne
  have hnodup : (newer k (m.erase k')).NodupKeys :=
    (m.erase k').nodupKeys.sublist (newer_sublist k _)
  have hsum : newerWeight w k (m.erase k') ≤ (U.erase k').sum P := by
    apply sum_weights_le hnodup _ he.light
    intro e hmem
    refine Finset.mem_erase.mpr ⟨?_, he.among e hmem⟩
    rintro rfl
    exact List.notMem_keys_kerase _ m.nodupKeys
      (List.mem_keys_of_mem ((newer_sublist k _).subset hmem))
  rw [← Finset.sum_erase_add U P hk']
  exact Nat.add_le_add_right hsum _

/-- A store under another key makes room without evicting `k`, if `k` and the whole set fit. -/
theorem store (h : Guarded w U P k v m) {k' : K} (hne : k' ≠ k) (hk' : k' ∈ U) {v' : V}
    (hv' : w v' ≤ P k') {full : Table K V → Bool} {cap : Nat}
    (hfull : ∀ m, full m = true → cap < weight w m + w v') (hfits : w v + U.sum P ≤ cap) :
    Guarded w U P k v (store full k' v' m) := by
  have he := h.erase hne
  have hroom := h.newerWeight_erase_le hne hk'
  have hkept : (shrink full (m.erase k')).lookup k = some v := by
    apply lookup_shrink_of_fits (w := w) (cap - w v') he.kept
    · intro m hm
      have := hfull m hm
      omega
    · omega
  obtain ⟨n, -, hshrink, -⟩ := shrink_maximal full (m.erase k')
  have hguarded : Guarded w U P k v (shrink full (m.erase k')) :=
    he.of_newer_subset hkept (hshrink ▸ newer_newest_subset k n _)
  exact hguarded.insert hne hk' hv'

end Guarded

end Lib.Recency
