import NetCache.Cache
import NetCache.Lib.Recency

/-!
# The reference model of an LRU cache

What `Cache::Impl` is for, stated on a recency table of keys and blobs. The model is
parameterised by the arithmetic that decides which item is refused, when the table is too full
for an item and what total is reported: `exact` computes with unbounded numbers, `wrapping` with
the 32-bit sums of `cache.cpp`. Where nothing wraps the two are the same (`lruStep_eq`).
-/

namespace NetCache.Cache

open Lib Lib.Recency

/-- Entries from the most to the least recently used. -/
abbrev Entries := Table Str Blob

/-- The sum of the sizes of all entries, unbounded. -/
def total (m : Entries) : Nat := weight (fun b => b.size.toNat) m

/-- The decisions that depend on how sizes are added up. -/
structure Arithmetic where
  refuses : Blob → Bool
  full : Blob → Entries → Bool
  used : Entries → Nat

/-- Unbounded arithmetic with capacity `maxmem`. -/
def exact (maxmem : Nat) : Arithmetic where
  refuses v := v.size.toNat > maxmem
  full v m := total m + v.size.toNat > maxmem
  used := total

/-- The 32-bit arithmetic of `cache.cpp` with capacity `maxmem`. -/
def wrapping (maxmem : UInt32) : Arithmetic where
  refuses v := v.size > maxmem
  full v m := UInt32.ofNat (total m) + v.size > maxmem
  used m := (UInt32.ofNat (total m)).toNat

/-- What a lookup shows of an entry: its bytes and size, or null and 0. -/
def GetResult.ofEntry : Option Blob → GetResult
  | some b => ⟨some b.bytes, b.size⟩
  | none => ⟨none, 0⟩

/-- One call on the reference model. -/
def lruStep (A : Arithmetic) (m : Entries) : Op → Entries × Ret
  | .set key val =>
      if A.refuses val then (m, .code (-1)) else (store (A.full val) key val m, .code 0)
  | .get key => (touch key m, .value (.ofEntry (m.lookup key)))
  | .del key => (m.erase key, .code 0)
  | .spaceUsed => (m, .used (A.used m))

/-- The entries after a list of calls, from `m`. -/
def lruAfter (A : Arithmetic) (m : Entries) (ops : List Op) : Entries :=
  ops.foldl (fun m op => (lruStep A m op).1) m

/-- The answers of the reference model to a list of calls, from `m`. -/
def lruAnswers (A : Arithmetic) : Entries → List Op → List Ret
  | _, [] => []
  | m, op :: ops => (lruStep A m op).2 :: lruAnswers A (lruStep A m op).1 ops

theorem lruAfter_snoc (A : Arithmetic) (m : Entries) (ops : List Op) (op : Op) :
    lruAfter A m (ops ++ [op]) = (lruStep A (lruAfter A m ops) op).1 := by
  simp [lruAfter, List.foldl_append]

@[simp] theorem total_empty : total (∅ : Entries) = 0 := rfl

theorem total_insert (key : Str) (val : Blob) (m : Entries) :
    total (m.insert key val) = val.size.toNat + total (m.erase key) := weight_insert key val m

theorem total_erase {key : Str} {val : Blob} {m : Entries} (h : m.lookup key = some val) :
    total m = val.size.toNat + total (m.erase key) := weight_erase h

theorem total_erase_le (key : Str) (m : Entries) : total (m.erase key) ≤ total m := by
  cases h : m.lookup key with
  | none => rw [erase_of_lookup_none h]
  | some val =>
    rw [total_erase h]
    exact Nat.le_add_left _ _

theorem total_touch (key : Str) (m : Entries) : total (touch key m) = total m :=
  weight_touch key m

/-- No call makes up an entry: what is stored afterwards was stored before or is what the call
sets. -/
theorem lookup_lruStep {A : Arithmetic} {m : Entries} {op : Op} {k : Str} {b : Blob}
    (h : (lruStep A m op).1.lookup k = some b) : m.lookup k = some b ∨ op = .set k b := by
  cases op with
  | set key val =>
    simp only [lruStep] at h
    split at h
    · exact .inl h
    · by_cases hk : k = key
      · subst hk
        rw [lookup_store_self] at h
        cases h
        exact .inr rfl
      · have hothers : (store (A.full val) key val m).lookup k = m.lookup k ∨
            (store (A.full val) key val m).lookup k = none := lookup_store_ne hk val m
        rcases hothers with hold | hnone
        · exact .inl (hold ▸ h)
        · rw [hnone] at h
          cases h
  | get key => exact .inl (by simpa [lruStep] using h)
  | del key =>
    by_cases hk : k = key
    · subst hk
      simp [lruStep, AList.lookup_erase] at h
    · exact .inl (by simpa [lruStep, AList.lookup_erase_ne hk] using h)
  | spaceUsed => exact .inl h

/-- A call that is repeated at once returns the same and changes nothing more, provided that an
item which is not refused fits into the empty table. -/
theorem lruStep_lruStep {A : Arithmetic}
    (hempty : ∀ val, A.refuses val = false → A.full val ∅ = false) (m : Entries) (op : Op) :
    lruStep A (lruStep A m op).1 op = lruStep A m op := by
  cases op with
  | set key val =>
    cases hval : A.refuses val with
    | true => simp [lruStep, hval]
    | false => simp [lruStep, hval, store_store (hempty val hval)]
  | get key => simp [lruStep, touch_touch]
  | del key => simp [lruStep, erase_erase_self]
  | spaceUsed => rfl

/-- An item that is not refused fits into an empty cache. -/
theorem wrapping_full_empty {maxmem : UInt32} {val : Blob} (h : val.size ≤ maxmem) :
    (wrapping maxmem).full val ∅ = false := by
  have hz : UInt32.ofNat 0 + val.size = val.size := UInt32.zero_add val.size
  simpa [wrapping, hz] using UInt32.not_lt.mpr h

/-- Where the sum of what is stored and what comes in stays below `2 ^ 32`, the two arithmetics
take the same decision. -/
theorem wrapping_full_eq {maxmem : UInt32} {val : Blob} {m : Entries}
    (h : total m + val.size.toNat < 2 ^ 32) :
    (wrapping maxmem).full val m = (exact maxmem.toNat).full val m := by
  have hm : total m < 2 ^ 32 := by omega
  simp only [wrapping, exact, gt_iff_lt, UInt32.lt_iff_toNat_lt,
    UInt32.toNat_add, UInt32.toNat_ofNat_of_lt' hm, Nat.mod_eq_of_lt h]

/-- Nothing has to go where there is room for all. -/
theorem wrapping_full_of_le {maxmem : UInt32} {val : Blob} {m : Entries}
    (h : total m + val.size.toNat ≤ maxmem.toNat) : (wrapping maxmem).full val m = false := by
  rw [wrapping_full_eq (h.trans_lt maxmem.toNat_lt)]
  simpa [exact] using h

end NetCache.Cache
