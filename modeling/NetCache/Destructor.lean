import NetCache.Capacity
import NetCache.Pointers
import NetCache.Progress

/-!
# What the destructor releases

The loop of `~Impl` evicts while the counter of used bytes is positive. The counter is a 32-bit
sum of sizes, so it can be 0 while entries are stored: an empty value adds nothing, and sums
wrap. The loop evicts from the old end and stops at the first such table, so everything is
released if and only if the counter of no table on its way down to the empty one is 0
(`destructor_releases_iff`).
-/

namespace NetCache.Cache

open Lib Lib.Recency Lib.Replay

namespace PtrImpl

/-- The stored size of a key, in the pair behind its pointer. -/
def sizeOf (c : PtrImpl) (key : Str) : Option UInt32 := do
  let p ← c.cacheMap.lookup key
  let (_, second) ← (readPair c.heap p).toOption
  some second

/-- The stored sizes, in the order of the evictor's list: the most recently used value first. -/
def sizes (c : PtrImpl) : List Nat :=
  c.evictor.keyList.values.map fun key => ((c.sizeOf key).getD 0).toNat

/-- However many of the most recently used values one takes, at least one, their sizes do not add
up to a multiple of `2 ^ 32`. -/
def Drains (c : PtrImpl) : Prop :=
  ∀ n < c.sizes.length, (c.sizes.take (n + 1)).sum % 2 ^ 32 ≠ 0

instance (c : PtrImpl) : Decidable c.Drains :=
  inferInstanceAs (Decidable (∀ n < c.sizes.length, (c.sizes.take (n + 1)).sum % 2 ^ 32 ≠ 0))

/-- Nothing is stored, and every allocation made so far was released exactly once. -/
structure Emptied (c : PtrImpl) : Prop where
  cacheMap : c.cacheMap = ∅
  keyList : c.evictor.keyList.values = []
  released : c.heap.released.Perm (List.range c.heap.next)

/-- `c'` is what is left of `c` under `keys`: they are listed and stored with their pointers, what
is alive are their pairs and value copies, as they were, and nothing else. -/
structure LeftOf (keys : List Str) (c c' : PtrImpl) : Prop where
  keyList : c'.evictor.keyList.values = keys
  cacheMap : ∀ key, c'.cacheMap.lookup key = if key ∈ keys then c.cacheMap.lookup key else none
  live : ∀ q, q ∈ c'.heap.live ↔ ∃ key ∈ keys, ∃ p first second,
    c.cacheMap.lookup key = some p ∧ readPair c.heap p = .ok (first, second) ∧ (q = p ∨ q = first)
  read : ∀ q ∈ c'.heap.live, c'.heap.read q = c.heap.read q

end PtrImpl

/-- The test of the destructor, on a represented table. -/
def counted (m : Entries) : Bool := UInt32.ofNat (total m) > 0

theorem counted_iff (m : Entries) : counted m = true ↔ total m % 2 ^ 32 ≠ 0 := by
  rw [counted, decide_eq_true_iff, gt_iff_lt, UInt32.lt_iff_toNat_lt, UInt32.toNat_ofNat',
    UInt32.toNat_zero]
  exact Nat.pos_iff_ne_zero

theorem total_newest (n : Nat) (m : Entries) :
    total (newest n m) = ((m.entries.map fun e => e.2.size.toNat).take n).sum := by
  rw [total, weight, entries_newest, List.map_take]

namespace Mirrors

variable {p : PtrImpl} {c : Impl} {m : Entries} {t : Table Str Owned}

/-- The cache is emptied if and only if it represents the empty table. -/
theorem emptied_iff (h : Mirrors [] p c t) (hr : Refines c m) : p.Emptied ↔ m = ∅ := by
  constructor
  · intro he
    have hkeys : m.keys = [] := by rw [← hr.order, ← h.evictor, he.keyList]
    exact AList.ext (List.map_eq_nil_iff.mp hkeys)
  · rintro rfl
    have hentries : t.entries = [] := by
      have hstored := hr.stored.eq_nil
      rw [h.values] at hstored
      exact List.map_eq_nil_iff.mp hstored
    obtain rfl : t = ∅ := AList.ext hentries
    refine ⟨h.pointers, ?_, ?_⟩
    · rw [h.evictor, hr.order]
      rfl
    · exact Heap.live_eq_empty_iff.mp h.alive.eq_nil

/-- The pairs have the sizes of the represented entries. -/
theorem sizeOf_eq (h : Mirrors [] p c t) (hr : Refines c m) {key : Str} {val : Blob}
    (hval : m.lookup key = some val) : p.sizeOf key = some val.size := by
  have hmap := hr.lookup key
  rw [h.values, lookup_mapVal, hval] at hmap
  obtain ⟨a, ha, rfl⟩ := Option.map_eq_some_iff.mp hmap
  rw [PtrImpl.sizeOf, h.pointers, lookup_mapVal, ha, Option.map_some]
  show ((Cache.readPair p.heap a.toInsert).toOption.bind fun q => some q.2) = some a.val.size
  rw [h.readPair ha]
  rfl

theorem sizes_eq (h : Mirrors [] p c t) (hr : Refines c m) :
    p.sizes = m.entries.map fun e => e.2.size.toNat := by
  rw [PtrImpl.sizes, h.evictor, hr.order, AList.keys, List.keys, List.map_map]
  apply List.map_congr_left
  intro e he
  have hval : m.lookup e.1 = some e.2 := AList.mem_lookup_iff.mpr he
  show ((p.sizeOf e.1).getD 0).toNat = e.2.size.toNat
  rw [h.sizeOf_eq hr hval, Option.getD_some]

/-- Each stored entry has two living allocations. -/
theorem live_length (h : Mirrors [] p c t) (hr : Refines c m) :
    p.heap.live.entries.length = 2 * m.entries.length := by
  have hstored := hr.stored.length_eq
  rw [h.values, entries_mapVal, List.length_map] at hstored
  rw [h.alive.length_eq, List.nil_append, cells, List.length_flatMap, ← hstored]
  simp [Owned.cells, Nat.mul_comm]

theorem mem_keys_iff (h : Mirrors [] p c t) (hr : Refines c m) {key : Str} :
    key ∈ m.keys ↔ ∃ a, t.lookup key = some a := by
  rw [← AList.mem_keys, ← h.mem_iff hr, ← AList.lookup_isSome, Option.isSome_iff_exists]

/-- Where entries have been lost at most, what is left is left of what was there. -/
theorem leftOf {p' : PtrImpl} {c' : Impl} {m' : Entries} {t' : Table Str Owned}
    (h : Mirrors [] p c t) (h' : Mirrors [] p' c' t') (hr' : Refines c' m') (hwithin : Within t' t) :
    PtrImpl.LeftOf m'.keys p p' where
  keyList := by rw [h'.evictor, hr'.order]
  cacheMap key := by
    rw [h'.pointers, h.pointers, lookup_mapVal, lookup_mapVal]
    cases ha : t'.lookup key with
    | none =>
      have hnot : key ∉ m'.keys := by simp [h'.mem_keys_iff hr', ha]
      rw [if_neg hnot]
      rfl
    | some a => rw [if_pos ((h'.mem_keys_iff hr').mpr ⟨a, ha⟩), hwithin key a ha]
  live q := by
    rw [h'.mem_live_iff]
    constructor
    · rintro ⟨key, a, ha, hq⟩
      refine ⟨key, (h'.mem_keys_iff hr').mpr ⟨a, ha⟩, a.toInsert, a.valCopy, a.val.size, ?_,
        h.readPair (hwithin key a ha), hq⟩
      rw [h.pointers, lookup_mapVal, hwithin key a ha]
      rfl
    · rintro ⟨key, hkey, q', first, second, hstored, hpair, hq⟩
      obtain ⟨a, ha⟩ := (h'.mem_keys_iff hr').mp hkey
      rw [h.pointers, lookup_mapVal, hwithin key a ha] at hstored
      cases hstored
      rw [h.readPair (hwithin key a ha)] at hpair
      cases hpair
      exact ⟨key, a, ha, hq⟩
  read q hq := by
    obtain ⟨key, a, ha, hqa⟩ := h'.mem_live_iff.mp hq
    have hbefore := h.alive_cons (hwithin key a ha)
    have hafter := h'.alive_cons ha
    rcases hqa with rfl | rfl
    · rw [Heap.read_of_perm hbefore, Heap.read_of_perm hafter]
    · rw [Heap.read_of_perm (hbefore.trans (List.Perm.swap _ _ _)),
        Heap.read_of_perm (hafter.trans (List.Perm.swap _ _ _))]

/-- The condition, on the represented table: no initial piece with an entry has the counter 0. -/
theorem drains_iff (h : Mirrors [] p c t) (hr : Refines c m) :
    p.Drains ↔ ∀ n < m.entries.length, counted (newest (n + 1) m) = true := by
  rw [PtrImpl.Drains, h.sizes_eq hr, List.length_map]
  refine forall₂_congr fun n _ => ?_
  rw [counted_iff, total_newest]

end Mirrors

/-- The destructor ends and drops the oldest entries while the rest is counted. -/
theorem Mirrors.destroy_shrinks {p : PtrImpl} {c : Impl} {m : Entries} {t : Table Str Owned}
    (h : Mirrors [] p c t) (hr : Refines c m) :
    ∃ p' c' t', p.destroy = .ok p' ∧ Mirrors [] p' c' t' ∧ Refines c' (shrink counted m) ∧
      Within t' t := by
  have hloop : ∃ c', c.destroy = .ok c' ∧ Refines c' (shrink counted m) ∧ c'.maxmem = c.maxmem :=
    hr.evictLoop rfl (fun hr' _ => hr'.inUse_eq) le_rfl
  obtain ⟨c', hc', hr', -⟩ := hloop
  obtain ⟨p', t', hp', h', hwithin⟩ := h.destroy hc'
  exact ⟨p', c', t', hp', h', hr', hwithin⟩

/-- Whatever the capacity and the calls before it, the destructor ends, and it releases every
entry, and every allocation exactly once, if and only if no number of the most recently used
values has sizes that add up to a multiple of `2 ^ 32`. -/
theorem destructor_releases_iff (maxmem : UInt32) (ops : List Op) :
    ∃ c rets c', PtrImpl.run maxmem ops = .ok (c, rets) ∧ c.destroy = .ok c' ∧
      (c'.Emptied ↔ c.Drains) := by
  obtain ⟨c, hc, hr, -⟩ := Refines.run maxmem ops
  obtain ⟨p, t, hp, h⟩ := ptrRun_mirrors hc
  obtain ⟨p', c', t', hp', h', hr', -⟩ := h.destroy_shrinks hr
  refine ⟨p, _, p', hp, hp', ?_⟩
  rw [h'.emptied_iff hr', h.drains_iff hr]
  exact shrink_eq_empty_iff

/-- What the destructor leaves stored and alive: what was stored under the longest initial piece of
the evictor's list whose sizes add up to a multiple of `2 ^ 32`, two allocations for each key. -/
theorem destructor_leaves (maxmem : UInt32) (ops : List Op) :
    ∃ c rets c' n, PtrImpl.run maxmem ops = .ok (c, rets) ∧ c.destroy = .ok c' ∧
      PtrImpl.LeftOf (c.evictor.keyList.values.take n) c c' ∧
      c'.heap.live.entries.length = 2 * n ∧ (c.sizes.take n).sum % 2 ^ 32 = 0 ∧
      ∀ i ≤ c.sizes.length, n < i → (c.sizes.take i).sum % 2 ^ 32 ≠ 0 := by
  obtain ⟨c, hc, hr, -⟩ := Refines.run maxmem ops
  obtain ⟨p, t, hp, h⟩ := ptrRun_mirrors hc
  obtain ⟨p', c', t', hp', h', hr', hwithin⟩ := h.destroy_shrinks hr
  have hstop : counted (shrink counted (lruAfter (wrapping maxmem) ∅ ops)) = false :=
    full_shrink rfl _
  obtain ⟨n, hn, hshrink, hmax⟩ := shrink_maximal counted (lruAfter (wrapping maxmem) ∅ ops)
  rw [hshrink] at hr' hstop
  refine ⟨p, _, p', n, hp, hp', ?_, ?_, ?_, ?_⟩
  · rw [h.evictor, hr.order, ← keys_newest]
    exact h.leftOf h' hr' hwithin
  · rw [h'.live_length hr', entries_newest, List.length_take, Nat.min_eq_left hn]
  · rw [h.sizes_eq hr, ← total_newest]
    by_contra hne
    rw [(counted_iff _).mpr hne] at hstop
    cases hstop
  · intro i hi hlt
    rw [h.sizes_eq hr, List.length_map] at hi
    rw [h.sizes_eq hr, ← total_newest]
    exact (counted_iff _).mp (hmax i hi hlt)

/-- Below capacity `2 ^ 31` no sum wraps, and the destructor releases everything unless the most
recently used value is empty. -/
theorem drains_iff_of_small {maxmem : UInt32} (hsmall : maxmem.toNat < 2 ^ 31) {ops : List Op}
    {c : PtrImpl} {rets : List Ret} (hc : PtrImpl.run maxmem ops = .ok (c, rets)) :
    c.Drains ↔ c.sizes.head? ≠ some 0 := by
  obtain ⟨c₁, hc₁, hx, hmax⟩ := Exact.run hsmall ops
  obtain ⟨p, t, hp, h⟩ := ptrRun_mirrors hc₁
  rw [hc] at hp
  cases hp
  have hsum : c.sizes.sum < 2 ^ 32 := by
    have htotal : c.sizes.sum = total (lruAfter (exact maxmem.toNat) ∅ ops) := by
      rw [h.sizes_eq hx.toRefines]
      rfl
    have hwithin := hx.within
    rw [hmax] at hwithin
    omega
  unfold PtrImpl.Drains
  cases hsizes : c.sizes with
  | nil => simp
  | cons s ss =>
    rw [hsizes, List.sum_cons] at hsum
    constructor
    · intro hall hs
      cases hs
      exact hall 0 (Nat.succ_pos _) rfl
    · intro hs n hn
      have hpos : s ≠ 0 := fun h0 => hs (by rw [h0]; rfl)
      have hsplit := List.sum_take_add_sum_drop ss n
      rw [List.take_succ_cons, List.sum_cons, Nat.mod_eq_of_lt (by omega)]
      omega

/-- Below capacity `2 ^ 31` the destructor ends and releases every allocation exactly once, unless
the most recently used value is empty. -/
theorem destructor_releases_small {maxmem : UInt32} (hsmall : maxmem.toNat < 2 ^ 31)
    (ops : List Op) :
    ∃ c rets c', PtrImpl.run maxmem ops = .ok (c, rets) ∧ c.destroy = .ok c' ∧
      (c'.Emptied ↔ c.sizes.head? ≠ some 0) := by
  obtain ⟨c, hc, hx, -⟩ := Exact.run hsmall ops
  obtain ⟨p, t, hp, h⟩ := ptrRun_mirrors hc
  obtain ⟨p', c', t', hp', h', hr', -⟩ := h.destroy_shrinks hx.toRefines
  refine ⟨p, _, p', hp, hp', ?_⟩
  rw [h'.emptied_iff hr', ← drains_iff_of_small hsmall hp, h.drains_iff hx.toRefines]
  exact shrink_eq_empty_iff

/-- An empty value below one that is not empty. -/
theorem destructor_releases_small_below :
    let ops : List Op := [.set (str "a") ⟨[], 0, rfl⟩, .set (str "b") ⟨[7], 1, rfl⟩]
    ∃ c rets c', PtrImpl.run 12 ops = .ok (c, rets) ∧ c.destroy = .ok c' ∧
      (c'.Emptied ↔ c.sizes.head? ≠ some 0) := by
  intro ops
  have hsmall : (12 : UInt32).toNat < 2 ^ 31 := by decide
  exact destructor_releases_small hsmall ops

/-- A new cache in which an empty value is stored: the destructor releases neither of the two
allocations. -/
theorem destructor_leaks :
    ∃ c c', PtrImpl.run 12 [.set (str "a") ⟨[], 0, rfl⟩] = .ok (c, [.code 0]) ∧
      c.destroy = .ok c' ∧ c'.heap.released = [] ∧ c'.heap.next = 2 ∧ ¬ c'.Emptied := by
  refine ⟨_, _, rfl, rfl, rfl, rfl, ?_⟩
  intro h
  cases h.keyList

end NetCache.Cache
