import NetCache.Lru

/-!
# The cache refines the reference model

`Refines c m` relates the three containers and the byte counter of the cache to one recency
table: the evictor's list and map agree, the listed order is the table's order, the hash map
holds the table's entries, and the counter is the table's total modulo `2 ^ 32`. Every operation
of `Cache::Impl` returns and follows the model with wrapping arithmetic, whatever the capacity.
-/

namespace NetCache.Cache

open Lib Lib.Recency

/-- The containers and the counter of `c` represent the table `m`. -/
structure Refines (c : Impl) (m : Entries) : Prop where
  linked : c.evictor.Linked
  order : c.evictor.keyList.values = m.keys
  stored : c.cacheMap.entries.Perm m.entries
  used : c.usedmem = UInt32.ofNat (total m)

/-- What `set` does to the stored entries: nothing where the item is larger than the capacity,
and else the pair is stored and every other entry stays or is evicted. None is evicted where there
is room for all of them. -/
inductive SetEffect (key : Str) (val : Blob) (c : Impl) : Impl → Int → Prop
  | refused (hval : ¬ val.size ≤ c.maxmem) : SetEffect key val c c (-1)
  | stored {c' : Impl} (hval : val.size ≤ c.maxmem) (hkey : c'.cacheMap.lookup key = some val)
      (hothers : ∀ k, k ≠ key → c'.cacheMap.lookup k = c.cacheMap.lookup k ∨
        c'.cacheMap.lookup k = none)
      (hkept : total (c.cacheMap.erase key) + val.size.toNat ≤ c.maxmem.toNat →
        ∀ k, k ≠ key → c'.cacheMap.lookup k = c.cacheMap.lookup k) : SetEffect key val c c' 0

/-- The keys after `erase`, with the equality test that `List UInt8` has as a list. -/
theorem keys_erase_str (m : Entries) (key : Str) :
    (m.erase key).keys = m.keys.erase key := by
  rw [AList.keys_erase]
  induction m.keys with
  | nil => rfl
  | cons k ks ih =>
    by_cases hk : k = key
    · simp [hk]
    · simp [hk, ih]

namespace Refines

variable {c : Impl} {m : Entries}

theorem new (maxmem : UInt32) : Refines (Impl.new maxmem) ∅ where
  linked := KeyQueue.linked_empty
  order := rfl
  stored := List.Perm.refl _
  used := rfl

theorem lookup (h : Refines c m) (key : Str) : c.cacheMap.lookup key = m.lookup key :=
  AList.perm_lookup h.stored

/-- `del` returns 0 and removes the entry, if there is one. -/
theorem del (h : Refines c m) (key : Str) :
    ∃ c', c.del key = .ok (c', 0) ∧ Refines c' (m.erase key) ∧ c'.maxmem = c.maxmem := by
  unfold Impl.del
  rw [h.lookup key]
  cases hk : m.lookup key with
  | none =>
    refine ⟨c, rfl, ?_, rfl⟩
    rwa [erase_of_lookup_none hk]
  | some old =>
    obtain ⟨e, he, hl, hv, -⟩ := h.linked.deletedItem key
    have hsize : total m = old.size.toNat + total (m.erase key) := total_erase hk
    refine ⟨⟨c.cacheMap.erase key, c.maxmem, c.usedmem - old.size, e⟩, by simp [he],
      ⟨hl, ?_, ?_, ?_⟩, rfl⟩
    · rw [hv, h.order, keys_erase_str]
    · exact AList.perm_erase h.stored
    · show c.usedmem - old.size = _
      rw [h.used, hsize, UInt32.ofNat_add, UInt32.ofNat_toNat, UInt32.add_comm,
        UInt32.add_sub_cancel]

/-- Removing an old value first leaves the table without the key, whether or not it was there. -/
theorem dropOld (h : Refines c m) (key : Str) :
    ∃ c', c.dropOld key = .ok c' ∧ Refines c' (m.erase key) ∧ c'.maxmem = c.maxmem := by
  obtain ⟨c', hc, hr, hm⟩ := h.del key
  exact ⟨c', Impl.dropOld_eq_ok.mpr ⟨0, hc⟩, hr, hm⟩

theorem listed_eq (h : Refines c m) : c.listed = m.entries.length := by
  rw [Impl.listed, h.order, AList.keys, List.keys, List.length_map]

/-- On a non-empty cache `evict` finds a target, which is the least recently used key, and
removes exactly its entry. -/
theorem evict (h : Refines c m) (hne : m.entries ≠ []) :
    ∃ key c', key ∈ m ∧ m.erase key = dropOldest m ∧ c.del key = .ok (c', 0) ∧
      c.evict = .ok c' ∧ Refines c' (dropOldest m) ∧ c'.maxmem = c.maxmem := by
  obtain ⟨key, hkey⟩ : ∃ key, m.keys.getLast? = some key := by
    have hk : m.keys ≠ [] := by simpa [AList.keys, List.keys] using hne
    exact ⟨m.keys.getLast hk, List.getLast?_eq_some_getLast hk⟩
  have htarget : KeyQueue.getEvictTarget c.evictor = .ok key :=
    KeyQueue.getEvictTarget_eq_ok.mpr (by rw [h.order, hkey])
  have hold := erase_eq_dropOldest hkey
  obtain ⟨c', hc, hr, hm⟩ := h.del key
  have hevict : c.evict = .ok c' := Impl.evict_eq_ok.mpr ⟨key, 0, htarget, hc⟩
  exact ⟨key, c', AList.mem_keys.mpr (List.mem_of_getLast? hkey), hold, hc, hevict, hold ▸ hr, hm⟩

theorem overfull_eq (h : Refines c m) (val : Blob) :
    c.overfull val.size = (wrapping c.maxmem).full val m := by
  simp [Impl.overfull, Impl.spaceUsed, wrapping, h.used]

/-- One iteration of an eviction loop whose test is `full`, a test that fails on the empty
table: there is a key to evict, and the loop has as much to do with what remains. -/
theorem evictStep {full : Entries → Bool} (hempty : full ∅ = false) (h : Refines c m)
    (hfull : full m = true) :
    m.entries ≠ [] ∧ ∃ c', c.evict = .ok c' ∧ Refines c' (dropOldest m) ∧
      shrink full (dropOldest m) = shrink full m ∧ c'.listed < c.listed ∧
      c'.maxmem = c.maxmem := by
  have hne : m.entries ≠ [] := fun hnil => by
    rw [show m = ∅ from AList.ext hnil, hempty] at hfull
    cases hfull
  obtain ⟨key, c', -, -, -, hc, hr, hm⟩ := h.evict hne
  refine ⟨hne, c', hc, hr, (shrink_of_full hfull hne).symm, ?_, hm⟩
  have hpos := List.length_pos_iff.mpr hne
  rw [hr.listed_eq, h.listed_eq, dropOldest, entries_newest, List.length_take]
  omega

/-- An eviction loop whose test agrees with `full` ends and computes `shrink full`: it keeps the
cache at a table from which `shrink full` still leads to the same result. -/
theorem evictLoop {full : Entries → Bool} {guard : Impl → Bool} (hempty : full ∅ = false)
    (h : Refines c m)
    (hguard : ∀ {c' m'}, Refines c' m' → c'.maxmem = c.maxmem → guard c' = full m')
    {fuel : Nat} (hfuel : c.listed ≤ fuel) :
    ∃ c', Loop.run .outOfFuel (fun c => .ok (guard c)) Impl.evict fuel c = .ok c' ∧
      Refines c' (shrink full m) ∧ c'.maxmem = c.maxmem := by
  let Inv : Impl → Prop := fun c' =>
    ∃ m', Refines c' m' ∧ shrink full m' = shrink full m ∧ c'.maxmem = c.maxmem
  have hbody : ∀ c₁, Inv c₁ → (Except.ok (guard c₁) : Except Fault Bool) = .ok true →
      ∃ c₂, c₁.evict = .ok c₂ ∧ Inv c₂ ∧ c₂.listed < c₁.listed := by
    rintro c₁ ⟨m₁, hr₁, hs₁, hm₁⟩ hg
    have hfull : full m₁ = true := by
      rw [← hguard hr₁ hm₁]
      exact Except.ok.inj hg
    obtain ⟨-, c₂, hc₂, hr₂, hs₂, hlt, hm₂⟩ := evictStep hempty hr₁ hfull
    exact ⟨c₂, hc₂, ⟨dropOldest m₁, hr₂, hs₂.trans hs₁, hm₂.trans hm₁⟩, hlt⟩
  obtain ⟨c', hrun, ⟨m', hr, hs, hm⟩, hdone⟩ := Loop.run_total Fault.outOfFuel Inv Impl.listed
    (fun c' _ => ⟨guard c', rfl⟩) hbody ⟨m, h, rfl, rfl⟩ hfuel
  have hfull : full m' = false := by
    rw [← hguard hr hm]
    exact Except.ok.inj hdone
  rw [shrink_of_not_full hfull] at hs
  exact ⟨c', hrun, hs ▸ hr, hm⟩

/-- The eviction loop of `set` ends, for an item that is not larger than the capacity. -/
theorem makeRoom (h : Refines c m) {val : Blob} (hval : val.size ≤ c.maxmem) :
    ∃ c', c.makeRoom val.size = .ok c' ∧
      Refines c' (shrink ((wrapping c.maxmem).full val) m) ∧ c'.maxmem = c.maxmem :=
  evictLoop (wrapping_full_empty hval) h
    (fun hr hm => hm ▸ hr.overfull_eq val) le_rfl

/-- The table once `set` has dropped the old value and made room. -/
theorem of_makeRoom (h : Refines c m) {key : Str} {val : Blob} {c₁ c₂ : Impl}
    (hval : val.size ≤ c.maxmem) (hc₁ : c.dropOld key = .ok c₁)
    (hc₂ : c₁.makeRoom val.size = .ok c₂) :
    Refines c₂ (shrink ((wrapping c.maxmem).full val) (m.erase key)) := by
  obtain ⟨c₁', hc₁', hr₁, hm₁⟩ := h.dropOld key
  cases hc₁.symm.trans hc₁'
  obtain ⟨c₂', hc₂', hr₂, -⟩ := hr₁.makeRoom (hm₁ ▸ hval)
  cases hc₂.symm.trans hc₂'
  exact hm₁ ▸ hr₂

/-- `set` with an item larger than the capacity changes nothing. -/
theorem set_refused (key : Str) {val : Blob} (hval : ¬ val.size ≤ c.maxmem) :
    c.set key val = .ok (c, -1) := by
  unfold Impl.set
  rw [if_neg hval]

/-- Any other `set` returns 0 and stores the pair. -/
theorem set (h : Refines c m) (key : Str) {val : Blob} (hval : val.size ≤ c.maxmem) :
    ∃ c', c.set key val = .ok (c', 0) ∧
      Refines c' (store ((wrapping c.maxmem).full val) key val m) ∧ c'.maxmem = c.maxmem := by
  obtain ⟨c₁, hc₁, hr₁, hm₁⟩ := h.dropOld key
  obtain ⟨c₂, hc₂, hr₂, hm₂⟩ := hr₁.makeRoom (hm₁ ▸ hval)
  rw [hm₁] at hr₂ hm₂
  have habsent := lookup_erase_self_shrink ((wrapping c.maxmem).full val) key m
  have herase := erase_of_lookup_none habsent
  refine ⟨_, (Impl.set_eq_ok hval).mpr ⟨c₁, c₂, hc₁, hc₂, rfl, rfl⟩,
    ⟨hr₂.linked.addedItem ?_, ?_, ?_, ?_⟩, hm₂⟩
  · rw [hr₂.order]
    exact fun hmem => AList.lookup_eq_none.mp habsent (AList.mem_keys.mpr hmem)
  · rw [store, KeyQueue.values_addedItem, hr₂.order, AList.keys, AList.keys,
      AList.entries_insert_of_notMem (AList.lookup_eq_none.mp habsent)]
    rfl
  · exact AList.perm_insert hr₂.stored
  · show c₂.usedmem + val.size = _
    rw [store, total_insert, herase, UInt32.ofNat_add, UInt32.ofNat_toNat, UInt32.add_comm,
      hr₂.used]

/-- Every `set` returns, with its effect on the stored entries. -/
theorem set_effect (h : Refines c m) (key : Str) (val : Blob) :
    ∃ c' rc, c.set key val = .ok (c', rc) ∧ SetEffect key val c c' rc := by
  by_cases hval : val.size ≤ c.maxmem
  · obtain ⟨c', hc, hr, -⟩ := h.set key hval
    refine ⟨c', 0, hc, .stored hval ?_ ?_ ?_⟩
    · rw [hr.lookup, lookup_store_self]
    · intro k hk
      rw [hr.lookup, h.lookup]
      exact lookup_store_ne hk val m
    · intro hroom k hk
      rw [total, weight_perm (AList.perm_erase h.stored)] at hroom
      rw [hr.lookup, h.lookup, lookup_store_of_not_full (wrapping_full_of_le hroom) hk val]
  · exact ⟨c, -1, set_refused key hval, .refused hval⟩

/-- `get` returns what is stored and moves a present key to the front. -/
theorem get (h : Refines c m) (key : Str) :
    ∃ c', c.get key = .ok (c', .ofEntry (m.lookup key)) ∧ Refines c' (touch key m) ∧
      c'.maxmem = c.maxmem := by
  unfold Impl.get
  rw [h.lookup key]
  cases hk : m.lookup key with
  | none =>
    have htouch : touch key m = m := by simp [touch, hk]
    exact ⟨c, rfl, htouch.symm ▸ h, rfl⟩
  | some val =>
    obtain ⟨e, he, hl, hv⟩ := LRUEvictor.accessedItem_linked h.linked key
    have htouch : touch key m = m.insert key val := by simp [touch, hk]
    refine ⟨⟨c.cacheMap, c.maxmem, c.usedmem, e⟩, by simp [he, GetResult.ofEntry],
      ⟨hl, ?_, h.stored.trans (perm_touch key m).symm, ?_⟩, rfl⟩
    · rw [htouch, hv, h.order, ← keys_erase_str]
      rfl
    · rw [h.used, total_touch]

/-- Every call answers as the model does. -/
theorem step (h : Refines c m) (op : Op) :
    ∃ c', c.step op = .ok (c', (lruStep (wrapping c.maxmem) m op).2) ∧
      Refines c' (lruStep (wrapping c.maxmem) m op).1 ∧ c'.maxmem = c.maxmem := by
  cases op with
  | set key val =>
    by_cases hval : val.size ≤ c.maxmem
    · obtain ⟨c', hc, hr, hm⟩ := h.set key hval
      have hfit : (wrapping c.maxmem).refuses val = false := by simpa [wrapping] using hval
      rw [lruStep, hfit]
      exact ⟨c', Impl.step_eq_ok.mpr (.set hc), hr, hm⟩
    · have hfit : (wrapping c.maxmem).refuses val = true := by simpa [wrapping] using hval
      rw [lruStep, hfit]
      exact ⟨c, Impl.step_eq_ok.mpr (.set (set_refused key hval)), h, rfl⟩
  | get key =>
    obtain ⟨c', hc, hr, hm⟩ := h.get key
    exact ⟨c', Impl.step_eq_ok.mpr (.get hc), hr, hm⟩
  | del key =>
    obtain ⟨c', hc, hr, hm⟩ := h.del key
    exact ⟨c', Impl.step_eq_ok.mpr (.del hc), hr, hm⟩
  | spaceUsed =>
    exact ⟨c, by simp [Impl.step, Impl.spaceUsed, h.used, lruStep, wrapping], h, rfl⟩

/-- A call that is repeated at once returns the same, and the cache represents the same table. -/
theorem step_step (h : Refines c m) (op : Op) :
    ∃ c₁ c₂ m₁ ret, c.step op = .ok (c₁, ret) ∧ c₁.step op = .ok (c₂, ret) ∧ Refines c₁ m₁ ∧
      Refines c₂ m₁ ∧ c₁.maxmem = c.maxmem ∧ c₂.maxmem = c.maxmem := by
  have hempty : ∀ val, (wrapping c.maxmem).refuses val = false →
      (wrapping c.maxmem).full val ∅ = false := fun val hval =>
    wrapping_full_empty (by simpa [wrapping] using hval)
  obtain ⟨c₁, hc₁, hr₁, hm₁⟩ := h.step op
  obtain ⟨c₂, hc₂, hr₂, hm₂⟩ := hr₁.step op
  rw [hm₁, lruStep_lruStep hempty] at hc₂ hr₂
  exact ⟨c₁, c₂, _, _, hc₁, hc₂, hr₁, hr₂, hm₁, hm₂.trans hm₁⟩

/-- Every sequence of calls returns, with the answers of the model. -/
theorem machine_run (h : Refines c m) (ops : List Op) :
    ∃ c', Machine.run Impl.step c ops = .ok (c', lruAnswers (wrapping c.maxmem) m ops) ∧
      Refines c' (lruAfter (wrapping c.maxmem) m ops) ∧ c'.maxmem = c.maxmem := by
  induction ops generalizing c m with
  | nil => exact ⟨c, rfl, h, rfl⟩
  | cons op ops ih =>
    obtain ⟨c₁, hc₁, hr₁, hm₁⟩ := h.step op
    obtain ⟨c₂, hc₂, hr₂, hm₂⟩ := ih hr₁
    rw [hm₁] at hc₂ hr₂ hm₂
    exact ⟨c₂, Machine.run_cons_ok.mpr ⟨c₁, _, _, hc₁, hc₂, rfl⟩, hr₂, hm₂⟩

/-- The same from a new cache. -/
theorem run (maxmem : UInt32) (ops : List Op) :
    ∃ c, Impl.run maxmem ops = .ok (c, lruAnswers (wrapping maxmem) ∅ ops) ∧
      Refines c (lruAfter (wrapping maxmem) ∅ ops) ∧ c.maxmem = maxmem :=
  (Refines.new maxmem).machine_run ops

theorem of_run {maxmem : UInt32} {ops : List Op} {rets : List Ret}
    (hc : Impl.run maxmem ops = .ok (c, rets)) :
    Refines c (lruAfter (wrapping maxmem) ∅ ops) ∧ c.maxmem = maxmem := by
  obtain ⟨c', hc', hr, hmax⟩ := Refines.run maxmem ops
  rw [hc] at hc'
  cases hc'
  exact ⟨hr, hmax⟩

end Refines

/-- The cache represents `m`, and all entries satisfy `P`. -/
structure Holds (P : Str → Blob → Prop) (c : Impl) (m : Entries) : Prop extends Refines c m where
  entries : ∀ k b, m.lookup k = some b → P k b

theorem Holds.new (P : Str → Blob → Prop) (maxmem : UInt32) : Holds P (Impl.new maxmem) ∅ where
  toRefines := Refines.new maxmem
  entries k b h := by simp at h

/-- A call keeps a property of all entries, if what it sets has the property. -/
theorem Holds.step {P : Str → Blob → Prop} {c : Impl} {m : Entries} (h : Holds P c m) (op : Op)
    (hop : ∀ k b, op = .set k b → P k b) :
    ∃ c', c.step op = .ok (c', (lruStep (wrapping c.maxmem) m op).2) ∧
      Holds P c' (lruStep (wrapping c.maxmem) m op).1 := by
  obtain ⟨c', hc, hr, -⟩ := h.toRefines.step op
  refine ⟨c', hc, hr, ?_⟩
  intro k b hkb
  rcases lookup_lruStep hkb with hold | hset
  · exact h.entries k b hold
  · exact hop k b hset

theorem Holds.of_step {P : Str → Blob → Prop} {c c' : Impl} {m : Entries} (h : Holds P c m)
    {op : Op} {ret : Ret} (hc : c.step op = .ok (c', ret))
    (hop : ∀ k b, op = .set k b → P k b) : Holds P c' (lruStep (wrapping c.maxmem) m op).1 := by
  obtain ⟨c₁, hc₁, hm⟩ := h.step op hop
  rw [hc] at hc₁
  cases hc₁
  exact hm

end NetCache.Cache
