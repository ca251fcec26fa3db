import NetCache.Lib.Recency

/-!
# Inclusion of recency tables

Two tables of bounded length that take the same operations. The smaller one is a sublist of the
larger one in recency order, and the larger one is ahead by at most the difference of the two
bounds; `Includes` is preserved by every operation. The second part is what makes the induction
go through: when the larger table is full and drops an entry, the smaller one is full too and
drops its own oldest entry.
-/

namespace Lib.Recency

variable {K : Type u} {V : Type v} [DecidableEq K]

/-- There is no room for one more among at most `n` entries. -/
def atCapacity (n : Nat) (m : Table K V) : Bool := n ≤ m.entries.length

omit [DecidableEq K] in
/-- Making room for one more keeps the `n - 1` most recently used entries. -/
theorem shrink_atCapacity {n : Nat} (hn : 0 < n) (m : Table K V) :
    shrink (atCapacity n) m = newest (n - 1) m := by
  have hempty : atCapacity n (∅ : Table K V) = false := by
    simpa [atCapacity] using Nat.ne_of_gt hn
  obtain ⟨r, hr, hshrink, hmax⟩ := shrink_maximal (atCapacity n) m
  have hroom := full_shrink hempty m
  rw [hshrink] at hroom ⊢
  have hrn : r < n := by
    simpa [atCapacity, hr] using hroom
  rcases Nat.lt_or_eq_of_le hr with hlt | heq
  · have hfull := hmax (r + 1) hlt (Nat.lt_succ_self r)
    have hlen : n ≤ r + 1 := by
      simp only [atCapacity, entries_newest, List.length_take, decide_eq_true_eq] at hfull
      omega
    rw [show r = n - 1 by omega]
  · rw [newest_of_length_le (Nat.le_of_eq heq.symm), newest_of_length_le (by omega)]

/-- Dropping as many elements from the end of a list as from the end of a sublist. -/
theorem sublist_take {α : Type w} {l₁ l₂ : List α} (h : l₁.Sublist l₂) (n : Nat) :
    (l₁.take (l₁.length - n)).Sublist (l₂.take (l₂.length - n)) := by
  have hdrop := (h.reverse.drop n).reverse
  rwa [List.drop_reverse, List.drop_reverse, List.reverse_reverse, List.reverse_reverse] at hdrop

/-- The table `A`, of at most `n₁` entries, lies in the table `B`, of at most `n₂` entries, in the
same order, and `B` is ahead by no more than the bounds are apart. -/
structure Includes (n₁ n₂ : Nat) (A B : Table K V) : Prop where
  sub : A.entries.Sublist B.entries
  small : A.entries.length ≤ n₁
  large : B.entries.length ≤ n₂
  gap : B.entries.length + n₁ ≤ A.entries.length + n₂

omit [DecidableEq K] in
theorem includes_empty {n₁ n₂ : Nat} (h : n₁ ≤ n₂) : Includes n₁ n₂ (∅ : Table K V) ∅ where
  sub := .slnil
  small := Nat.zero_le _
  large := Nat.zero_le _
  gap := Nat.add_le_add_left h _

theorem length_erase_of_some {k : K} {v : V} {m : Table K V} (h : m.lookup k = some v) :
    (m.erase k).entries.length + 1 = m.entries.length := by
  have hk : k ∈ m.entries.keys := AList.mem_keys.mp (AList.lookup_isSome.mp (by simp [h]))
  obtain ⟨v', l₁, l₂, -, hl, he⟩ := List.exists_of_kerase hk
  have herase : (m.erase k).entries = l₁ ++ l₂ := he
  rw [herase, hl]
  simp only [List.length_append, List.length_cons]
  omega

namespace Includes

variable {n₁ n₂ : Nat} {A B : Table K V}

/-- What is found in the smaller table is found in the larger one. -/
theorem lookup (h : Includes n₁ n₂ A B) {k : K} {v : V} (hk : A.lookup k = some v) :
    B.lookup k = some v :=
  AList.mem_lookup_iff.mpr (h.sub.subset (AList.mem_lookup_iff.mp hk))

theorem erase (h : Includes n₁ n₂ A B) (k : K) : Includes n₁ n₂ (A.erase k) (B.erase k) := by
  have hsub : (A.erase k).entries.Sublist (B.erase k).entries := h.sub.eraseP
  cases hA : A.lookup k with
  | some v =>
    have hlenA := length_erase_of_some hA
    have hlenB := length_erase_of_some (h.lookup hA)
    have := h.small
    have := h.large
    have := h.gap
    exact ⟨hsub, by omega, by omega, by omega⟩
  | none =>
    rw [erase_of_lookup_none hA] at hsub ⊢
    cases hB : B.lookup k with
    | some v =>
      have hlenB := length_erase_of_some hB
      have := h.large
      have := h.gap
      exact ⟨hsub, h.small, by omega, by omega⟩
    | none =>
      rw [erase_of_lookup_none hB] at hsub ⊢
      exact ⟨hsub, h.small, h.large, h.gap⟩

/-- A hit in the larger table alone moves an entry that the smaller one does not have. -/
theorem touch (h : Includes n₁ n₂ A B) (k : K) : Includes n₁ n₂ (touch k A) (touch k B) := by
  have hlenA := (perm_touch k A).length_eq
  have hlenB := (perm_touch k B).length_eq
  refine ⟨?_, hlenA ▸ h.small, hlenB ▸ h.large, by rw [hlenA, hlenB]; exact h.gap⟩
  cases hA : A.lookup k with
  | some v =>
    have hB := h.lookup hA
    rw [Recency.touch, hA, Recency.touch, hB]
    exact h.sub.eraseP.cons_cons _
  | none =>
    have hA' : Recency.touch k A = A := by simp [Recency.touch, hA]
    rw [hA']
    cases hB : B.lookup k with
    | some v =>
      have hsub : (A.erase k).entries.Sublist (B.erase k).entries := h.sub.eraseP
      rw [erase_of_lookup_none hA] at hsub
      rw [Recency.touch, hB]
      exact hsub.cons _
    | none =>
      have hB' : Recency.touch k B = B := by simp [Recency.touch, hB]
      rw [hB']
      exact h.sub

/-- Storing under the same key in both tables. -/
theorem store (h : Includes n₁ n₂ A B) (hn : n₁ ≤ n₂) (hpos : 0 < n₁) (k : K) (v : V) :
    Includes n₁ n₂ (store (atCapacity n₁) k v A) (store (atCapacity n₂) k v B) := by
  have he := h.erase k
  have hgap := he.gap
  have hsmall := he.small
  have hlarge := he.large
  have hroomA := shrink_atCapacity hpos (A.erase k)
  have hroomB := shrink_atCapacity (hpos.trans_le hn) (B.erase k)
  have habsentA := lookup_erase_self_shrink (atCapacity n₁) k A
  have habsentB := lookup_erase_self_shrink (atCapacity n₂) k B
  rw [hroomA] at habsentA
  rw [hroomB] at habsentB
  have hA : (Recency.store (atCapacity n₁) k v A).entries =
      ⟨k, v⟩ :: (A.erase k).entries.take (n₁ - 1) := by
    rw [Recency.store, hroomA, AList.entries_insert_of_notMem (AList.lookup_eq_none.mp habsentA)]
    rfl
  have hB : (Recency.store (atCapacity n₂) k v B).entries =
      ⟨k, v⟩ :: (B.erase k).entries.take (n₂ - 1) := by
    rw [Recency.store, hroomB, AList.entries_insert_of_notMem (AList.lookup_eq_none.mp habsentB)]
    rfl
  -- the smaller table drops at least as many entries as the larger one
  have hsub : ((A.erase k).entries.take (n₁ - 1)).Sublist
      ((B.erase k).entries.take (n₂ - 1)) := by
    by_cases hfull : (B.erase k).entries.length ≤ n₂ - 1
    · rw [List.take_of_length_le hfull]
      exact (List.take_sublist _ _).trans he.sub
    · have hdrop := sublist_take he.sub ((B.erase k).entries.length - (n₂ - 1))
      rw [Nat.sub_sub_self (by omega)] at hdrop
      have hprefix : ((A.erase k).entries.take (n₁ - 1)).Sublist ((A.erase k).entries.take
          ((A.erase k).entries.length - ((B.erase k).entries.length - (n₂ - 1)))) :=
        (List.take_prefix_take_left (by omega)).sublist
      exact hprefix.trans hdrop
  refine ⟨?_, ?_, ?_, ?_⟩
  · rw [hA, hB]
    exact hsub.cons_cons _
  · rw [hA, List.length_cons, List.length_take]
    omega
  · rw [hB, List.length_cons, List.length_take]
    omega
  · rw [hA, hB, List.length_cons, List.length_cons, List.length_take, List.length_take]
    omega

/-- Where the smaller table has room for nothing, only the larger one stores. -/
theorem store_right (h : Includes 0 n₂ A B) (hpos : 0 < n₂) (k : K) (v : V) :
    Includes 0 n₂ A (Recency.store (atCapacity n₂) k v B) := by
  have hA : A.entries = [] := List.length_eq_zero_iff.mp (Nat.le_zero.mp h.small)
  have hroom := shrink_atCapacity hpos (B.erase k)
  have habsent := lookup_erase_self_shrink (atCapacity n₂) k B
  have hlen : (Recency.store (atCapacity n₂) k v B).entries.length ≤ n₂ := by
    rw [hroom] at habsent
    rw [Recency.store, hroom, AList.entries_insert_of_notMem (AList.lookup_eq_none.mp habsent),
      List.length_cons, entries_newest, List.length_take]
    omega
  exact ⟨hA ▸ List.nil_sublist _, h.small, hlen, by omega⟩

end Includes

end Lib.Recency
