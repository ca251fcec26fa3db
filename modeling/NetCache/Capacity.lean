import NetCache.CacheRefinement
import Mathlib.Data.List.Induction

/-!
# Capacity and accounting

With a capacity below `2 ^ 31` no sum of sizes wraps, so the cache is an exact LRU cache
(`lru_refinement`). Over all capacities the count of used bytes is right, and the capacity kept,
as long as no stored item brings the bytes of the other entries to `2 ^ 32`
(`accounting_iff`): beyond that the sum in the eviction test wraps and nothing is evicted.
-/

namespace NetCache.Cache

open Lib Lib.Recency

/-- An item that `set` accepts keeps the exact sum of the sizes below `2 ^ 32`: the others'
sizes and its own. -/
def NoOverflow (maxmem : UInt32) (m : Entries) : Op → Prop
  | .set key val => val.size ≤ maxmem → total (m.erase key) + val.size.toNat < 2 ^ 32
  | _ => True

/-- Without overflow the wrapping model does what the exact one does. -/
theorem lruStep_eq {maxmem : UInt32} {m : Entries} {op : Op} (hm : total m ≤ maxmem.toNat)
    (hop : NoOverflow maxmem m op) :
    lruStep (wrapping maxmem) m op = lruStep (exact maxmem.toNat) m op := by
  have hlt : maxmem.toNat < 2 ^ 32 := maxmem.toNat_lt
  cases op with
  | set key val =>
    have hrefuses : (wrapping maxmem).refuses val = (exact maxmem.toNat).refuses val := by
      simp [wrapping, exact, UInt32.lt_iff_toNat_lt]
    simp only [lruStep, hrefuses]
    split
    · rfl
    · rename_i hval
      have hval : val.size ≤ maxmem := by
        simpa [exact, UInt32.le_iff_toNat_le] using hval
      have hshrink : shrink ((wrapping maxmem).full val) (m.erase key) =
          shrink ((exact maxmem.toNat).full val) (m.erase key) := by
        apply shrink_congr
        intro n
        have := weight_newest_le (w := fun b => b.size.toNat) n (m.erase key)
        exact wrapping_full_eq (Nat.lt_of_le_of_lt (Nat.add_le_add_right this _) (hop hval))
      rw [store, hshrink, store]
  | get key => rfl
  | del key => rfl
  | spaceUsed =>
    simp only [lruStep, wrapping, exact, UInt32.toNat_ofNat_of_lt' (Nat.lt_of_le_of_lt hm hlt)]

/-- The exact model never exceeds its capacity. -/
theorem total_lruStep_exact {maxmem : Nat} {m : Entries} (op : Op) (hm : total m ≤ maxmem) :
    total (lruStep (exact maxmem) m op).1 ≤ maxmem := by
  cases op with
  | set key val =>
    simp only [lruStep]
    split
    · exact hm
    · rename_i hval
      have hempty : (exact maxmem).full val ∅ = false := by
        simpa [exact] using hval
      have hroom := full_shrink hempty (m.erase key)
      have habsent := lookup_erase_self_shrink ((exact maxmem).full val) key m
      rw [store, total_insert, erase_of_lookup_none habsent]
      simp only [exact, gt_iff_lt, decide_eq_false_iff_not, not_lt] at hroom
      exact Nat.add_comm _ _ ▸ hroom
  | get key => exact total_touch key m ▸ hm
  | del key => exact (total_erase_le key m).trans hm
  | spaceUsed => exact hm

/-- With overflow the sum in the eviction test wraps below the capacity, nothing is evicted, and
the entries exceed the capacity. -/
theorem total_lruStep_overflow {maxmem : UInt32} {m : Entries} {op : Op}
    (hm : total m ≤ maxmem.toNat) (hop : ¬ NoOverflow maxmem m op) :
    maxmem.toNat < total (lruStep (wrapping maxmem) m op).1 := by
  have hlt : maxmem.toNat < 2 ^ 32 := maxmem.toNat_lt
  cases op with
  | set key val =>
    simp only [NoOverflow, Classical.not_imp, not_lt] at hop
    obtain ⟨hval, hover⟩ := hop
    have hrest := total_erase_le key m
    have hsize : val.size.toNat ≤ maxmem.toNat := UInt32.le_iff_toNat_le.mp hval
    have hnotfull : (wrapping maxmem).full val (m.erase key) = false := by
      simp only [wrapping, gt_iff_lt, decide_eq_false_iff_not, UInt32.lt_iff_toNat_lt,
        UInt32.toNat_add, UInt32.toNat_ofNat']
      omega
    have hrefuses : (wrapping maxmem).refuses val = false := by simpa [wrapping] using hval
    simp only [lruStep, hrefuses, Bool.false_eq_true, if_false]
    rw [store, shrink_of_not_full hnotfull, total_insert, erase_erase_self]
    omega
  | get key => exact absurd trivial hop
  | del key => exact absurd trivial hop
  | spaceUsed => exact absurd trivial hop

/-- Below `2 ^ 31` nothing overflows, since neither the others nor the item exceed the capacity. -/
theorem noOverflow_of_small {maxmem : UInt32} (hsmall : maxmem.toNat < 2 ^ 31) {m : Entries}
    (hm : total m ≤ maxmem.toNat) (op : Op) : NoOverflow maxmem m op := by
  cases op with
  | set key val =>
    intro hval
    have hsize : val.size.toNat ≤ maxmem.toNat := UInt32.le_iff_toNat_le.mp hval
    have hrest := total_erase_le key m
    omega
  | get key => trivial
  | del key => trivial
  | spaceUsed => trivial

/-- A cache of a capacity below `2 ^ 31` that represents `m`, within its capacity. -/
structure Exact (c : Impl) (m : Entries) : Prop extends Refines c m where
  small : c.maxmem.toNat < 2 ^ 31
  within : total m ≤ c.maxmem.toNat

namespace Exact

variable {c : Impl} {m : Entries}

theorem new {maxmem : UInt32} (hsmall : maxmem.toNat < 2 ^ 31) : Exact (Impl.new maxmem) ∅ where
  toRefines := Refines.new maxmem
  small := hsmall
  within := Nat.zero_le _

/-- Every call answers as the exact model does. -/
theorem step (h : Exact c m) (op : Op) :
    ∃ c', c.step op = .ok (c', (lruStep (exact c.maxmem.toNat) m op).2) ∧
      Exact c' (lruStep (exact c.maxmem.toNat) m op).1 ∧ c'.maxmem = c.maxmem := by
  obtain ⟨c', hc, hr, hmax⟩ := h.toRefines.step op
  rw [lruStep_eq h.within (noOverflow_of_small h.small h.within op)] at hc hr
  refine ⟨c', hc, ⟨hr, hmax ▸ h.small, ?_⟩, hmax⟩
  rw [hmax]
  exact total_lruStep_exact op h.within

/-- Every sequence of calls returns, with the answers of the exact model. -/
theorem machine_run (h : Exact c m) (ops : List Op) :
    ∃ c', Machine.run Impl.step c ops = .ok (c', lruAnswers (exact c.maxmem.toNat) m ops) ∧
      Exact c' (lruAfter (exact c.maxmem.toNat) m ops) ∧ c'.maxmem = c.maxmem := by
  induction ops generalizing c m with
  | nil => exact ⟨c, rfl, h, rfl⟩
  | cons op ops ih =>
    obtain ⟨c₁, hc₁, hr₁, hmax₁⟩ := h.step op
    obtain ⟨c₂, hc₂, hr₂, hmax₂⟩ := ih hr₁
    rw [hmax₁] at hc₂ hr₂ hmax₂
    exact ⟨c₂, Machine.run_cons_ok.mpr ⟨c₁, _, _, hc₁, hc₂, rfl⟩, hr₂, hmax₂⟩

/-- The same from a new cache. -/
theorem run {maxmem : UInt32} (hsmall : maxmem.toNat < 2 ^ 31) (ops : List Op) :
    ∃ c, Impl.run maxmem ops = .ok (c, lruAnswers (exact maxmem.toNat) ∅ ops) ∧
      Exact c (lruAfter (exact maxmem.toNat) ∅ ops) ∧ c.maxmem = maxmem :=
  (new hsmall).machine_run ops

theorem of_step (h : Exact c m) {c' : Impl} {op : Op} {ret : Ret}
    (hc : c.step op = .ok (c', ret)) :
    Exact c' (lruStep (exact c.maxmem.toNat) m op).1 ∧
      ret = (lruStep (exact c.maxmem.toNat) m op).2 ∧ c'.maxmem = c.maxmem := by
  obtain ⟨c₁, hc₁, hr, hmax⟩ := h.step op
  rw [hc] at hc₁
  cases hc₁
  exact ⟨hr, rfl, hmax⟩

theorem of_run {maxmem : UInt32} (hsmall : maxmem.toNat < 2 ^ 31) {ops : List Op}
    {rets : List Ret} (hc : Impl.run maxmem ops = .ok (c, rets)) :
    Exact c (lruAfter (exact maxmem.toNat) ∅ ops) ∧
      rets = lruAnswers (exact maxmem.toNat) ∅ ops ∧ c.maxmem = maxmem := by
  obtain ⟨c₁, hc₁, hr, hmax⟩ := Exact.run hsmall ops
  rw [hc] at hc₁
  cases hc₁
  exact ⟨hr, rfl, hmax⟩

end Exact

/-- Below `2 ^ 31`, every sequence of calls on a new cache returns, and the answers are those of
the exact LRU model. -/
theorem lru_refinement (maxmem : UInt32) (hsmall : maxmem.toNat < 2 ^ 31) (ops : List Op) :
    (Impl.run maxmem ops).map Prod.snd = .ok (lruAnswers (exact maxmem.toNat) ∅ ops) := by
  obtain ⟨c, hc, -, -⟩ := Exact.run hsmall ops
  rw [hc, ok_map]

/-- With a capacity of 12 a hit keeps its key and the other one is evicted; an item of 13 bytes
is refused. -/
theorem lru_refinement_twelve :
    (Impl.run 12 [.set (str "a") ⟨[1, 2, 3, 4], 4, rfl⟩, .set (str "b") ⟨[5, 6, 7, 8], 4, rfl⟩,
      .get (str "a"), .set (str "c") ⟨[9, 9, 9, 9, 9, 9], 6, rfl⟩, .get (str "b"),
      .set (str "d") ⟨List.replicate 13 0, 13, rfl⟩, .spaceUsed]).map Prod.snd =
    .ok [.code 0, .code 0, .value ⟨some [1, 2, 3, 4], 4⟩, .code 0, .value ⟨none, 0⟩, .code (-1),
      .used 10] :=
  (lru_refinement 12 (by decide) _).trans (by decide)

section Accounting

/-- `P` holds of every state that the calls `ops` on a new cache go through. -/
def Always (maxmem : UInt32) (P : Impl → Prop) (ops : List Op) : Prop :=
  ∀ pre, pre <+: ops → ∃ c rs, Impl.run maxmem pre = .ok (c, rs) ∧ P c

/-- `P` holds of every call of `ops` on a new cache, in the state it is made in. -/
def AlwaysAt (maxmem : UInt32) (P : Impl → Op → Prop) (ops : List Op) : Prop :=
  ∀ pre op, pre ++ [op] <+: ops → ∃ c rs, Impl.run maxmem pre = .ok (c, rs) ∧ P c op

/-- `space_used` is the exact sum of the stored sizes, which is at most the capacity. -/
structure Accounted (c : Impl) : Prop where
  reported : c.spaceUsed.toNat = total c.cacheMap
  bounded : total c.cacheMap ≤ c.maxmem.toNat

/-- `_usedmem -= being_removed->second` in `del` does not wrap. -/
def DelExact (c : Impl) (key : Str) : Prop :=
  ∀ old, c.cacheMap.lookup key = some old → old.size ≤ c.usedmem

/-- No addition and no subtraction on `_usedmem` that `set` makes wraps: the removal of the old
value, each evaluation of the eviction test with the removal that follows it, and (in the last
state that the test is evaluated in) the final addition. -/
def SetExact (c : Impl) (key : Str) (val : Blob) : Prop :=
  val.size ≤ c.maxmem → DelExact c key ∧
    ∀ c₁ t, c.dropOld key = .ok c₁ →
      Loop.Visits (fun c => .ok (c.overfull val.size)) Impl.evict c₁ t →
      t.usedmem.toNat + val.size.toNat < 2 ^ 32 ∧
        ∀ target, LRUEvictor.getEvictTarget t.evictor = .ok target → DelExact t target

/-- No arithmetic on `_usedmem` that the call makes wraps. -/
def StepExact (c : Impl) : Op → Prop
  | .set key val => SetExact c key val
  | .del key => DelExact c key
  | _ => True

/-- The call is one without overflow on the entries that are stored. -/
def Fits (c : Impl) (op : Op) : Prop := NoOverflow c.maxmem c.cacheMap op

theorem Refines.accounted_iff {c : Impl} {m : Entries} (h : Refines c m) :
    Accounted c ↔ total m ≤ c.maxmem.toNat := by
  have htotal : total c.cacheMap = total m := weight_perm h.stored
  constructor
  · intro ha
    exact htotal ▸ ha.bounded
  · intro hm
    refine ⟨?_, htotal ▸ hm⟩
    rw [Impl.spaceUsed, h.used, htotal,
      UInt32.toNat_ofNat_of_lt' (Nat.lt_of_le_of_lt hm c.maxmem.toNat_lt)]

/-- The condition on the stored entries is the condition on the table they represent. -/
theorem Refines.fits_iff {c : Impl} {m : Entries} (h : Refines c m) (op : Op) :
    Fits c op ↔ NoOverflow c.maxmem m op := by
  cases op with
  | set key val =>
    have htotal : total (c.cacheMap.erase key) = total (m.erase key) :=
      weight_perm (AList.perm_erase h.stored)
    simp only [Fits, NoOverflow, htotal]
  | get key => rfl
  | del key => rfl
  | spaceUsed => rfl

theorem Refines.delExact {c : Impl} {m : Entries} (h : Refines c m) (hm : total m < 2 ^ 32)
    (key : Str) : DelExact c key := by
  intro old hold
  rw [h.lookup key] at hold
  have hle : old.size.toNat ≤ total m := le_weight_of_lookup (w := fun b => b.size.toNat) hold
  rw [UInt32.le_iff_toNat_le, h.used, UInt32.toNat_ofNat_of_lt' hm]
  exact hle

/-- Every eviction that returns has dropped the least recently used entry. -/
theorem Refines.of_evict {c c' : Impl} {m : Entries} (h : Refines c m) (hc : c.evict = .ok c') :
    Refines c' (dropOldest m) := by
  by_cases hne : m.entries = []
  · have hback : c.evictor.keyList.values.getLast? = none := by
      rw [h.order, AList.keys, hne]
      rfl
    have htarget : KeyQueue.getEvictTarget c.evictor = .error .emptyBack := by
      simp [KeyQueue.getEvictTarget, Lib.NodeList.back, hback]
    obtain ⟨key, rc, hkey, -⟩ := Impl.evict_eq_ok.mp hc
    cases htarget.symm.trans hkey
  · obtain ⟨key, c'', -, -, -, hc'', hr, -⟩ := h.evict hne
    rw [hc] at hc''
    cases hc''
    exact hr

theorem Refines.setExact {c : Impl} {m : Entries} (h : Refines c m)
    (hm : total m ≤ c.maxmem.toNat) {key : Str} {val : Blob}
    (hop : NoOverflow c.maxmem m (.set key val)) : SetExact c key val := by
  intro hval
  have hlt : c.maxmem.toNat < 2 ^ 32 := c.maxmem.toNat_lt
  refine ⟨h.delExact (by omega) key, ?_⟩
  intro c₁ t hc₁ ht
  -- wherever the test is evaluated, the entries are some of those without the key
  obtain ⟨m', hr', hm'⟩ : ∃ m', Refines t m' ∧ total m' ≤ total (m.erase key) := by
    refine Loop.Visits.invariant
      (fun t => ∃ m', Refines t m' ∧ total m' ≤ total (m.erase key)) ?_ ht ?_
    · rintro s t ⟨m', hr', hm'⟩ ⟨-, ht⟩
      exact ⟨_, hr'.of_evict ht, (weight_newest_le _ m').trans hm'⟩
    · obtain ⟨c₁', hc₁', hr₁, -⟩ := h.dropOld key
      rw [hc₁] at hc₁'
      cases hc₁'
      exact ⟨_, hr₁, le_rfl⟩
  have hsum := hop hval
  have hm'lt : total m' < 2 ^ 32 := by omega
  refine ⟨?_, fun target _ => hr'.delExact hm'lt target⟩
  rw [hr'.used, UInt32.toNat_ofNat_of_lt' hm'lt]
  omega

theorem Refines.stepExact {c : Impl} {m : Entries} (h : Refines c m)
    (hm : total m ≤ c.maxmem.toNat) {op : Op} (hop : NoOverflow c.maxmem m op) :
    StepExact c op := by
  have hlt : c.maxmem.toNat < 2 ^ 32 := c.maxmem.toNat_lt
  cases op with
  | set key val => exact h.setExact hm hop
  | get key => trivial
  | del key => exact h.delExact (by omega) key
  | spaceUsed => trivial

/-- As long as no call overflows, the entries of the model stay within the capacity. -/
theorem total_lruAfter_le {maxmem : UInt32} {ops : List Op}
    (h : AlwaysAt maxmem Fits ops) {pre : List Op}
    (hpre : pre <+: ops) : total (lruAfter (wrapping maxmem) ∅ pre) ≤ maxmem.toNat := by
  induction pre using List.reverseRecOn with
  | nil => exact Nat.zero_le _
  | append_singleton pre op ih =>
    have hm := ih ((List.prefix_append pre [op]).trans hpre)
    obtain ⟨c, rs, hc, hop⟩ := h pre op hpre
    obtain ⟨hr, hmax⟩ := Refines.of_run hc
    rw [hr.fits_iff op, hmax] at hop
    rw [lruAfter_snoc, lruStep_eq hm hop]
    exact total_lruStep_exact op hm

/-- On every run of a cache of any capacity: the count of used bytes is exact, the capacity is
kept and no arithmetic on the count wraps, if and only if no accepted item ever brings the exact
sum of the other entries' sizes and its own to `2 ^ 32` or more. -/
theorem accounting_iff (maxmem : UInt32) (ops : List Op) :
    (Always maxmem Accounted ops ∧ AlwaysAt maxmem StepExact ops) ↔
      AlwaysAt maxmem Fits ops := by
  constructor
  · rintro ⟨hacc, -⟩ pre op hpre
    have hpre' : pre <+: ops := (List.prefix_append pre [op]).trans hpre
    obtain ⟨c, _, hc, ha⟩ := hacc pre hpre'
    obtain ⟨c₁, _, hc₁, ha₁⟩ := hacc (pre ++ [op]) hpre
    obtain ⟨hr, hmax⟩ := Refines.of_run hc
    obtain ⟨hr₁, hmax₁⟩ := Refines.of_run hc₁
    rw [hr.accounted_iff, hmax] at ha
    rw [hr₁.accounted_iff, hmax₁, lruAfter_snoc] at ha₁
    refine ⟨c, _, hc, ?_⟩
    rw [hr.fits_iff op, hmax]
    by_contra hop
    exact absurd (total_lruStep_overflow ha hop) (by omega)
  · intro h
    constructor
    · intro pre hpre
      obtain ⟨c, hc, hr, hmax⟩ := Refines.run maxmem pre
      exact ⟨c, _, hc, hr.accounted_iff.mpr (hmax ▸ total_lruAfter_le h hpre)⟩
    · intro pre op hpre
      have hm := total_lruAfter_le h ((List.prefix_append pre [op]).trans hpre)
      obtain ⟨c, rs, hc, hop⟩ := h pre op hpre
      obtain ⟨hr, hmax⟩ := Refines.of_run hc
      exact ⟨c, _, hc, hr.stepExact (hmax ▸ hm) ((hr.fits_iff op).mp hop)⟩

/-- An item of half the 32-bit range. -/
def halfRange : Blob :=
  ⟨List.replicate 2147483648 0, 2147483648, by rw [List.length_replicate]; decide⟩

/-- With a capacity of `2 ^ 31`, two items of `2 ^ 31` bytes are stored together: the second sum
in the eviction test is 0, and so is the count of used bytes. -/
theorem accounting_wraps :
    (∃ c rs, Impl.run 2147483648 [.set (str "a") halfRange, .set (str "b") halfRange] =
        .ok (c, rs) ∧ c.spaceUsed = 0 ∧ total c.cacheMap = 2 ^ 32 ∧
        c.maxmem.toNat = 2 ^ 31) ∧
      ¬ Always 2147483648 Accounted [.set (str "a") halfRange, .set (str "b") halfRange] := by
  obtain ⟨c, hc, hr, hmax⟩ :=
    Refines.run 2147483648 [.set (str "a") halfRange, .set (str "b") halfRange]
  have hmodel : total (lruAfter (wrapping 2147483648) ∅
      [.set (str "a") halfRange, .set (str "b") halfRange]) = 2 ^ 32 := by decide
  have htotal : total c.cacheMap = 2 ^ 32 := (weight_perm hr.stored).trans hmodel
  have hmaxNat : c.maxmem.toNat = 2 ^ 31 := by rw [hmax]; rfl
  refine ⟨⟨c, _, hc, ?_, htotal, hmaxNat⟩, ?_⟩
  · rw [Impl.spaceUsed, hr.used, hmodel]
    rfl
  · intro halways
    obtain ⟨c', rs', hc', hacc⟩ := halways _ (List.prefix_refl _)
    rw [hc] at hc'
    cases hc'
    have := hacc.bounded
    omega

end Accounting

end NetCache.Cache
