import NetCache.CacheRefinement

/-!
# Store and evictor agree, and eviction makes progress

In every reachable state of a cache of any capacity, also where sums wrap, the hash map, the
evictor's map and the evictor's list have the same keys. So an evict target always exists and is
stored, each eviction removes one entry from all three containers, and the loops of `set` and of
the destructor end.
-/

namespace NetCache.Cache

open Lib Lib.Recency

/-- The three containers have the same keys, each listed once, and the iterator of a key points
at the node that holds this key. -/
structure Agrees (c : Impl) : Prop where
  nodup : c.evictor.keyList.values.Nodup
  stored : ∀ key, key ∈ c.cacheMap ↔ key ∈ c.evictor.keyList.values
  mapped : ∀ key, key ∈ c.evictor.keyMap ↔ key ∈ c.evictor.keyList.values
  points : ∀ key it, c.evictor.keyMap.lookup key = some it →
    c.evictor.keyList.deref it = some key

/-- From `c` to `c'` the entry of `key` goes, in all three containers. -/
structure RemovesOne (c c' : Impl) (key : Str) : Prop where
  wasStored : key ∈ c.cacheMap
  wasMapped : key ∈ c.evictor.keyMap
  wasListed : key ∈ c.evictor.keyList.values
  cacheMap : c'.cacheMap = c.cacheMap.erase key
  keyMap : c'.evictor.keyMap = c.evictor.keyMap.erase key
  keyList : c'.evictor.keyList.values = c.evictor.keyList.values.erase key

/-- The loop `while (guard) evict();` entered in `c`: wherever it evicts the list of keys is not
empty and one entry goes, and it ends. -/
structure Progresses (guard : Impl → Bool) (c : Impl) : Prop where
  evicts : ∀ t, Loop.Visits (fun c => .ok (guard c)) Impl.evict c t → guard t = true →
    t.evictor.keyList.values ≠ [] ∧ ∃ t' key, t.evict = .ok t' ∧ RemovesOne t t' key
  ends : ∃ t, Loop.run .outOfFuel (fun c => .ok (guard c)) Impl.evict c.listed c = .ok t ∧
    guard t = false

/-- The loop entered in `c` comes to `t`, and its test fails there. -/
def StopsAt (guard : Impl → Bool) (c t : Impl) : Prop :=
  Loop.Visits (fun c => .ok (guard c)) Impl.evict c t ∧ guard t = false

theorem stopsAt_of_run {guard : Impl → Bool} {fuel : Nat} {c t : Impl}
    (h : Loop.run .outOfFuel (fun c => .ok (guard c)) Impl.evict fuel c = .ok t) :
    StopsAt guard c t := ⟨(Loop.run_ok h).1, Except.ok.inj (Loop.run_ok h).2⟩

namespace Refines

variable {c : Impl} {m : Entries}

theorem agrees (h : Refines c m) : Agrees c where
  nodup := h.linked.nodup
  stored := fun key => by
    rw [AList.mem_of_perm h.stored, AList.mem_keys, h.order]
  mapped := h.linked.tracked
  points := h.linked.points

theorem del_removes (h : Refines c m) {c' : Impl} {key : Str} (hkey : key ∈ m)
    (hc : c.del key = .ok (c', 0)) : RemovesOne c c' key := by
  have hlisted : key ∈ c.evictor.keyList.values := h.order ▸ AList.mem_keys.mp hkey
  have hstored : key ∈ c.cacheMap := (h.agrees.stored key).mpr hlisted
  obtain ⟨old, hold⟩ := Option.isSome_iff_exists.mp (AList.lookup_isSome.mpr hstored)
  obtain ⟨e, he, -, hvalues, hmap⟩ := h.linked.deletedItem key
  simp only [Impl.del, hold, he, ok_bind, Except.ok.injEq, Prod.mk.injEq, and_true] at hc
  subst hc
  exact ⟨hstored, (h.linked.tracked key).mpr hlisted, hlisted, rfl, hmap, hvalues⟩

theorem evict_removes (h : Refines c m) (hne : m.entries ≠ []) :
    c.evictor.keyList.values ≠ [] ∧ ∃ c' key, c.evict = .ok c' ∧ RemovesOne c c' key := by
  obtain ⟨key, c', hkey, -, hdel, hevict, -, -⟩ := h.evict hne
  refine ⟨?_, c', key, hevict, h.del_removes hkey hdel⟩
  rw [h.order]
  simpa [AList.keys, List.keys] using hne

/-- A loop whose test is a test `full` of the represented table, which fails on the empty table,
makes progress. -/
theorem progresses (full : Entries → Bool) {guard : Impl → Bool} (hempty : full ∅ = false)
    (h : Refines c m)
    (hguard : ∀ {c' m'}, Refines c' m' → c'.maxmem = c.maxmem → guard c' = full m') :
    Progresses guard c where
  evicts := by
    intro t ht hg
    obtain ⟨m', hr, hmax⟩ : ∃ m', Refines t m' ∧ t.maxmem = c.maxmem := by
      refine Loop.Visits.invariant
        (fun t => ∃ m', Refines t m' ∧ t.maxmem = c.maxmem) ?_ ht ⟨m, h, rfl⟩
      rintro s t ⟨m', hr, hmax⟩ ⟨hs, ht⟩
      have hfull : full m' = true := hguard hr hmax ▸ Except.ok.inj hs
      obtain ⟨-, t', ht', hr', -, -, hmax'⟩ := evictStep hempty hr hfull
      rw [ht] at ht'
      cases ht'
      exact ⟨_, hr', hmax'.trans hmax⟩
    exact hr.evict_removes (evictStep hempty hr (hguard hr hmax ▸ hg)).1
  ends := by
    obtain ⟨t, ht, -, -⟩ := h.evictLoop hempty hguard le_rfl
    exact ⟨t, ht, Except.ok.inj (Loop.run_ok ht).2⟩

/-- The test of the destructor, on the represented table. -/
theorem inUse_eq (h : Refines c m) : c.inUse = decide (UInt32.ofNat (total m) > 0) := by
  rw [Impl.inUse, h.used]

/-- The eviction loop of `set`, for an item that is not larger than the capacity. -/
theorem makeRoom_progresses (h : Refines c m) {val : Blob} (hval : val.size ≤ c.maxmem) :
    Progresses (Impl.overfull val.size) c :=
  h.progresses ((wrapping c.maxmem).full val) (wrapping_full_empty hval)
    fun hr hmax => hmax ▸ hr.overfull_eq val

/-- The loop of the destructor. -/
theorem destroy_progresses (h : Refines c m) : Progresses Impl.inUse c :=
  h.progresses (fun m => decide (UInt32.ofNat (total m) > 0)) rfl fun hr _ => hr.inUse_eq

end Refines

/-- Every sequence of calls on a new cache of any capacity returns, and leaves the store and the
evictor in agreement; the eviction loops of `set`, for every item that is accepted, and of the
destructor progress from there and end where their tests fail. -/
theorem store_evictor_agree (maxmem : UInt32) (ops : List Op) :
    ∃ c rs, Impl.run maxmem ops = .ok (c, rs) ∧ Agrees c ∧
      (∀ (key : Str) (val : Blob), val.size ≤ c.maxmem →
        ∃ c₁ c₂, c.dropOld key = .ok c₁ ∧ Progresses (Impl.overfull val.size) c₁ ∧
          c₁.makeRoom val.size = .ok c₂ ∧ StopsAt (Impl.overfull val.size) c₁ c₂) ∧
      Progresses Impl.inUse c ∧ ∃ c', c.destroy = .ok c' ∧ StopsAt Impl.inUse c c' := by
  obtain ⟨c, hc, hr, hmax⟩ := Refines.run maxmem ops
  refine ⟨c, _, hc, hr.agrees, ?_, ?_⟩
  · intro key val hval
    obtain ⟨c₁, hc₁, hr₁, hmax₁⟩ := hr.dropOld key
    have hloop := hr₁.makeRoom_progresses (hmax₁ ▸ hval)
    obtain ⟨c₂, hc₂, -⟩ := hloop.ends
    exact ⟨c₁, c₂, hc₁, hloop, hc₂, stopsAt_of_run hc₂⟩
  · obtain ⟨c', hc', -⟩ := hr.destroy_progresses.ends
    exact ⟨hr.destroy_progresses, c', hc', stopsAt_of_run hc'⟩

end NetCache.Cache
