import NetCache.Memory
import Mathlib.Data.List.Induction
import Mathlib.Data.List.Infix

/-!
# How long a pointer from `get` is good

`get` returns the address of the stored copy (`cache.cpp:65`), and the interface does not say how
long its caller may follow it. `pointer_valid_iff` does: until the key is set again, deleted or
evicted, whatever other calls are made in between. The argument follows one entry along a run. The
addresses of an entry are its own as long as it is stored, and never used again.
-/

namespace NetCache.Cache

open Lib Lib.Recency Lib.Replay

namespace PtrImpl

/-- `get`, with the pointer that it returns and the size (`cache.cpp:59-71`). -/
def getPointer (c : PtrImpl) (key : Str) :
    Except MemoryFault (PtrImpl × Option Nat × UInt32) :=
  match c.cacheMap.lookup key with
  | some foundAt => do
      let evictor ← (LRUEvictor.accessedItem c.evictor key).mapError .call
      let (first, second) ← readPair c.heap foundAt
      .ok ({ c with evictor }, some first, second)
  | none => .ok (c, none, 0)

/-- `get` is `getPointer` with the bytes behind the pointer. -/
theorem get_eq (c : PtrImpl) (key : Str) : c.get key = (do
    let (c', ptr, size) ← c.getPointer key
    match ptr with
    | some p => do
        let bytes ← readValue c'.heap p
        .ok (c', ⟨some bytes, size⟩)
    | none => .ok (c', ⟨none, size⟩)) := by
  unfold get getPointer
  cases c.cacheMap.lookup key with
  | none => rfl
  | some foundAt =>
    simp only [bind_assoc]
    cases (LRUEvictor.accessedItem c.evictor key).mapError MemoryFault.call with
    | error e => rfl
    | ok evictor => simp only [ok_bind]

end PtrImpl

/-! ## Addresses are handed out in order -/

theorem release_next {heap heap' : Heap Cell} {q : Nat} (h : release heap q = .ok heap') :
    heap'.next = heap.next := by
  unfold release Heap.release at h
  by_cases hq : q ∈ heap.live
  · rw [dif_pos hq] at h
    cases h
    rfl
  · rw [dif_neg hq] at h
    cases h

namespace PtrImpl

variable {c c' : PtrImpl}

theorem del_next {key : Str} {rc : Int} (h : c.del key = .ok (c', rc)) :
    c'.heap.next = c.heap.next := by
  unfold del at h
  cases hmap : c.cacheMap.lookup key with
  | none =>
    rw [hmap] at h
    cases h
    rfl
  | some p =>
    simp only [hmap, bind_eq_ok] at h
    obtain ⟨⟨first, second⟩, -, heap₁, h₁, heap₂, h₂, evictor, -, h⟩ := h
    cases h
    exact (release_next h₂).trans (release_next h₁)

theorem evict_next (h : c.evict = .ok c') : c'.heap.next = c.heap.next := by
  simp only [evict, bind_eq_ok] at h
  obtain ⟨key, -, ⟨c₁, rc⟩, hdel, h⟩ := h
  cases h
  exact del_next hdel

theorem makeRoom_next {size : UInt32} (h : c.makeRoom size = .ok c') :
    c'.heap.next = c.heap.next :=
  (Loop.run_ok h).1.invariant (fun s => s.heap.next = c.heap.next)
    (fun _ _ hs hiter => (evict_next hiter.2).trans hs) rfl

theorem set_next {key : Str} {val : Blob} {rc : Int} (h : c.set key val = .ok (c', rc)) :
    c.heap.next ≤ c'.heap.next := by
  unfold set at h
  split at h
  · simp only [bind_eq_ok] at h
    obtain ⟨c₁, h₁, c₂, h₂, h⟩ := h
    obtain ⟨rc, hdel⟩ := dropOld_eq_ok.mp h₁
    cases h
    have hnext : c₂.heap.next = c.heap.next + 1 + 1 := (makeRoom_next h₂).trans (del_next hdel)
    exact hnext ▸ Nat.le_add_right _ 2
  · cases h
    exact le_rfl

theorem get_next {key : Str} {r : GetResult} (h : c.get key = .ok (c', r)) : c'.heap = c.heap := by
  unfold get at h
  cases hmap : c.cacheMap.lookup key with
  | none =>
    rw [hmap] at h
    cases h
    rfl
  | some p =>
    simp only [hmap, bind_eq_ok] at h
    obtain ⟨evictor, -, ⟨first, second⟩, -, bytes, -, h⟩ := h
    cases h
    rfl

theorem step_next {op : Op} {ret : Ret} (h : c.step op = .ok (c', ret)) :
    c.heap.next ≤ c'.heap.next := by
  cases op with
  | set key val =>
    obtain ⟨⟨c₁, rc⟩, hset, h⟩ := bind_eq_ok.mp h
    cases h
    exact set_next hset
  | get key =>
    obtain ⟨⟨c₁, r⟩, hget, h⟩ := bind_eq_ok.mp h
    cases h
    exact (get_next hget) ▸ le_rfl
  | del key =>
    obtain ⟨⟨c₁, rc⟩, hdel, h⟩ := bind_eq_ok.mp h
    cases h
    exact (del_next hdel).ge
  | spaceUsed =>
    cases h
    exact le_rfl

end PtrImpl

/-! ## One entry along a run -/

namespace Mirrors

variable {p p' : PtrImpl} {c c' : Impl} {t t' : Table Str Owned}

/-- What is alive is a pair or a value copy of some entry. -/
theorem mem_live_iff (h : Mirrors [] p c t) {q : Nat} : q ∈ p.heap.live ↔
    ∃ key a, t.lookup key = some a ∧ (q = a.toInsert ∨ q = a.valCopy) := by
  have hkeys : q ∈ p.heap.live ↔ q ∈ (cells t).keys := by
    have hperm : p.heap.live.entries.keys.Perm (cells t).keys := h.alive.map Sigma.fst
    exact hperm.mem_iff
  rw [hkeys, List.keys, cells, List.map_flatMap, List.mem_flatMap]
  constructor
  · rintro ⟨⟨key, a⟩, he, hq⟩
    refine ⟨key, a, AList.mem_lookup_iff.mpr he, ?_⟩
    simpa [Owned.cells] using hq
  · rintro ⟨key, a, ha, hq⟩
    refine ⟨⟨key, a⟩, AList.mem_lookup_iff.mp ha, ?_⟩
    simpa [Owned.cells] using hq

theorem valCopy_live (h : Mirrors [] p c t) {key : Str} {a : Owned} (ha : t.lookup key = some a) :
    a.valCopy ∈ p.heap.live := h.mem_live_iff.mpr ⟨key, a, ha, .inr rfl⟩

/-- Another entry has other addresses. -/
theorem valCopy_ne (h : Mirrors [] p c t) {key key' : Str} {a b : Owned}
    (ha : t.lookup key = some a) (hb : t.lookup key' = some b) (hne : key' ≠ key) :
    a.valCopy ≠ b.toInsert ∧ a.valCopy ≠ b.valCopy := by
  have hfront := (h.alive_cons ha).trans (List.Perm.swap _ _ _)
  have hnodup := (List.perm_nodupKeys hfront).mp p.heap.live.nodupKeys
  rw [List.nodupKeys_cons, List.nil_append] at hnodup
  have hnot : a.valCopy ∉ (cells (t.erase key)).keys := by
    intro hmem
    exact hnodup.1 (List.mem_cons_of_mem _ hmem)
  have hmem : ⟨key', b⟩ ∈ (t.erase key).entries := by
    apply AList.mem_lookup_iff.mp
    rw [AList.lookup_erase_ne hne]
    exact hb
  have hcells : ∀ q, q = b.toInsert ∨ q = b.valCopy → q ∈ (cells (t.erase key)).keys := by
    intro q hq
    rw [List.keys, cells, List.map_flatMap, List.mem_flatMap]
    refine ⟨_, hmem, ?_⟩
    simpa [Owned.cells] using hq
  exact ⟨fun heq => hnot (hcells _ (.inl heq)), fun heq => hnot (hcells _ (.inr heq))⟩

/-- What a call stores is new. -/
theorem lookup_owns {op : Op} {key : Str} {a : Owned}
    (ha : ((p.owns op).apply t).lookup key = some a) :
    t.lookup key = some a ∨ p.heap.next ≤ a.valCopy ∧ p.heap.next ≤ a.toInsert := by
  cases op with
  | set key' val =>
    rw [PtrImpl.owns] at ha
    split at ha
    · by_cases hk : key = key'
      · subst hk
        rw [Update.apply, AList.lookup_insert] at ha
        cases ha
        exact .inr ⟨le_rfl, Nat.le_succ _⟩
      · rw [Update.apply, AList.lookup_insert_ne hk] at ha
        exact .inl ha
    · exact .inl ha
  | get key' => exact .inl ha
  | del key' => exact .inl (Within.erase key' t key a ha)
  | spaceUsed => exact .inl ha

/-- An address that is not alive any more stays so. -/
theorem dead_step (h : Mirrors [] p c t) (h' : Mirrors [] p' c' t') {op : Op}
    (hwithin : Within t' ((p.owns op).apply t)) {q : Nat} (hlt : q < p.heap.next)
    (hdead : q ∉ p.heap.live) : q ∉ p'.heap.live := by
  intro hq
  obtain ⟨key, a, ha, hqa⟩ := h'.mem_live_iff.mp hq
  rcases lookup_owns (hwithin key a ha) with hold | ⟨hval, hins⟩
  · exact hdead (h.mem_live_iff.mpr ⟨key, a, hold, hqa⟩)
  · rcases hqa with rfl | rfl <;> omega

/-- The value copy of an entry that is not there any more is not alive. -/
theorem dead_of_lookup_ne (h : Mirrors [] p c t) (h' : Mirrors [] p' c' t') {op : Op}
    (hwithin : Within t' ((p.owns op).apply t)) {key : Str} {a : Owned}
    (ha : t.lookup key = some a) (hne : t'.lookup key ≠ some a) : a.valCopy ∉ p'.heap.live := by
  intro hq
  have hlt := Heap.lt_next (h.valCopy_live ha)
  obtain ⟨key', b, hb, hqb⟩ := h'.mem_live_iff.mp hq
  rcases lookup_owns (hwithin key' b hb) with hold | ⟨hval, hins⟩
  · by_cases hk : key' = key
    · subst hk
      cases ha.symm.trans hold
      exact hne hb
    · obtain ⟨hins, hval⟩ := h.valCopy_ne ha hold hk
      exact hqb.elim hins hval
  · rcases hqb with hqb | hqb <;> omega

end Mirrors

/-- `get` returns the address of the value copy. -/
theorem Mirrors.getPointer {p : PtrImpl} {c c' : Impl} {t : Table Str Owned}
    {pending : List (Sigma fun _ : Nat => Cell)} (h : Mirrors pending p c t) {key : Str}
    {r : GetResult} (hc : c.get key = .ok (c', r)) :
    ∃ p', p.getPointer key = .ok (p', (t.lookup key).map Owned.valCopy, r.size) ∧
      Mirrors pending p' c' t := by
  rw [Impl.get, h.values, lookup_mapVal] at hc
  rw [PtrImpl.getPointer, h.pointers, lookup_mapVal]
  cases ha : t.lookup key with
  | none =>
    simp only [ha, Option.map_none, Except.ok.injEq, Prod.mk.injEq] at hc
    obtain ⟨rfl, rfl⟩ := hc
    exact ⟨p, rfl, h⟩
  | some a =>
    simp only [ha, Option.map_some, bind_eq_ok, Except.ok.injEq, Prod.mk.injEq] at hc
    obtain ⟨e, he, rfl, rfl⟩ := hc
    refine ⟨{ p with evictor := e }, ?_, ⟨h.pointers, rfl, h.alive, h.maxmem, h.usedmem, rfl⟩⟩
    simp [h.evictor, he, Except.mapError, h.readPair ha, h.pointers]

/-- After the calls `before`, `key` is stored and stays so through the calls `after`, and none of
them sets it again. -/
def Keeps (maxmem : UInt32) (before : List Op) (key : Str) (after : List Op) : Prop :=
  (∀ pre, pre <+: after → key ∈ lruAfter (wrapping maxmem) ∅ (before ++ pre)) ∧
    ∀ val, Op.set key val ∈ after → maxmem < val.size

theorem keeps_snoc {maxmem : UInt32} {before after : List Op} {key : Str} {op : Op} :
    Keeps maxmem before key (after ++ [op]) ↔ Keeps maxmem before key after ∧
      key ∈ lruAfter (wrapping maxmem) ∅ (before ++ (after ++ [op])) ∧
      ∀ val, op = .set key val → maxmem < val.size := by
  constructor
  · rintro ⟨hkeys, hsets⟩
    refine ⟨⟨fun pre hpre => hkeys pre (hpre.trans (List.prefix_append _ _)), fun val hval => ?_⟩,
      hkeys _ List.prefix_rfl, fun val hval => ?_⟩
    · exact hsets val (List.mem_append_left _ hval)
    · exact hsets val (hval ▸ List.mem_append_right _ List.mem_cons_self)
  · rintro ⟨⟨hkeys, hsets⟩, hlast, hop⟩
    refine ⟨fun pre hpre => ?_, fun val hval => ?_⟩
    · rcases List.prefix_concat_iff.mp hpre with rfl | hpre
      · exact hlast
      · exact hkeys pre hpre
    · rcases List.mem_append.mp hval with hold | hnew
      · exact hsets val hold
      · exact hop val (List.mem_singleton.mp hnew).symm

/-- A call that leaves the key stored and does not set it leaves its entry in place. -/
theorem Mirrors.lookup_kept {p : PtrImpl} {t t' : Table Str Owned} {op : Op} {key : Str} {a : Owned}
    (hwithin : Within t' ((p.owns op).apply t)) (ha : t.lookup key = some a) (hkey : key ∈ t')
    (hop : ∀ val, op = .set key val → p.maxmem < val.size) : t'.lookup key = some a := by
  obtain ⟨b, hb⟩ := Option.isSome_iff_exists.mp (AList.lookup_isSome.mpr hkey)
  have hb' := hwithin key b hb
  rw [hb, ← ha]
  cases op with
  | set key' val =>
    rw [PtrImpl.owns] at hb'
    split at hb'
    · rename_i hval
      by_cases hk : key = key'
      · subst hk
        exact absurd hval (UInt32.not_le.mpr (hop val rfl))
      · rw [Update.apply, AList.lookup_insert_ne hk] at hb'
        exact hb'.symm
    · exact hb'.symm
  | get key' => exact hb'.symm
  | del key' => exact (Within.erase key' t key b hb').symm
  | spaceUsed => exact hb'.symm

/-- A `set` of the key that is not refused puts another entry in its place. -/
theorem Mirrors.lookup_set_ne {p : PtrImpl} {c : Impl} {t t' : Table Str Owned} {key : Str}
    {a : Owned} {val : Blob} (h : Mirrors [] p c t)
    (hwithin : Within t' ((p.owns (.set key val)).apply t)) (ha : t.lookup key = some a)
    (hval : val.size ≤ p.maxmem) : t'.lookup key ≠ some a := by
  intro hsame
  have hlt := Heap.lt_next (h.valCopy_live ha)
  have hnew := hwithin key a hsame
  rw [PtrImpl.owns, if_pos hval, Update.apply, AList.lookup_insert] at hnew
  cases hnew
  exact absurd hlt (Nat.lt_irrefl _)

/-- A run after a `get` that found `a`: either the key was kept and `a` still stands there, or the
key was not kept and the value copy of `a` is not alive. -/
theorem Mirrors.follow {maxmem : UInt32} {before : List Op} {key : Str} {p : PtrImpl} {c : Impl}
    {t : Table Str Owned} {a : Owned} (h : Mirrors [] p c t)
    (hr : Refines c (lruAfter (wrapping maxmem) ∅ before)) (hmax : c.maxmem = maxmem)
    (ha : t.lookup key = some a) (after : List Op) :
    ∃ p' c' t' rets, Machine.run PtrImpl.step p after = .ok (p', rets) ∧ Mirrors [] p' c' t' ∧
      Refines c' (lruAfter (wrapping maxmem) ∅ (before ++ after)) ∧ c'.maxmem = maxmem ∧
      a.valCopy < p'.heap.next ∧ (Keeps maxmem before key after ∧ t'.lookup key = some a ∨
        ¬ Keeps maxmem before key after ∧ a.valCopy ∉ p'.heap.live) := by
  induction after using List.reverseRecOn with
  | nil =>
    have hkey : key ∈ t := AList.lookup_isSome.mp (Option.isSome_of_eq_some ha)
    refine ⟨p, c, t, [], rfl, h, by rwa [List.append_nil], hmax, Heap.lt_next (h.valCopy_live ha),
      .inl ⟨⟨fun pre hpre => ?_, nofun⟩, ha⟩⟩
    rw [List.prefix_nil.mp hpre, List.append_nil]
    exact (h.mem_iff hr).mp hkey
  | append_singleton after op ih =>
    obtain ⟨p₁, c₁, t₁, rets, hrun, h₁, hr₁, hmax₁, hlt, hcase⟩ := ih
    obtain ⟨c₂, hc₂, hr₂, hmax₂⟩ := hr₁.step op
    obtain ⟨p₂, t₂, hp₂, h₂, hwithin⟩ := h₁.step hr₁ hc₂
    have hpmax : p₁.maxmem = maxmem := h₁.maxmem.trans hmax₁
    rw [hmax₁, ← lruAfter_snoc, List.append_assoc] at hr₂
    refine ⟨p₂, c₂, t₂, _, Machine.run_append_ok hrun
      (Machine.run_cons_ok.mpr ⟨p₂, _, [], hp₂, rfl, rfl⟩), h₂, hr₂, hmax₂.trans hmax₁,
      hlt.trans_le (PtrImpl.step_next hp₂), ?_⟩
    rw [keeps_snoc]
    rcases hcase with ⟨hkeeps, ha₁⟩ | ⟨hnot, hdead⟩
    · by_cases hstays : key ∈ t₂ ∧ ∀ val, op = .set key val → maxmem < val.size
      · refine .inl ⟨⟨hkeeps, (h₂.mem_iff hr₂).mp hstays.1, hstays.2⟩, ?_⟩
        exact lookup_kept hwithin ha₁ hstays.1 (hpmax ▸ hstays.2)
      · refine .inr ⟨fun hk => hstays ⟨(h₂.mem_iff hr₂).mpr hk.2.1, hk.2.2⟩, ?_⟩
        apply h₁.dead_of_lookup_ne h₂ hwithin ha₁
        -- the key is not stored, or it was set again
        intro hsame
        have hkey : key ∈ t₂ := AList.lookup_isSome.mp (Option.isSome_of_eq_some hsame)
        apply hstays
        refine ⟨hkey, fun val hop => UInt32.not_le.mp fun hval => ?_⟩
        subst hop
        exact h₁.lookup_set_ne hwithin ha₁ (hpmax ▸ hval) hsame
    · exact .inr ⟨fun hk => hnot hk.1, h₁.dead_step h₂ hwithin hlt hdead⟩

/-- Whatever the capacity and the calls before it, a `get` returns a pointer exactly if its key is
stored, and this pointer leads to the value that is stored and comes with its size. After any
further calls it leads to the same bytes as long as the key was kept. The allocation has been
released exactly if the key was not kept: it has been evicted, deleted or set again. -/
theorem pointer_valid_iff (maxmem : UInt32) (before : List Op) (key : Str) (after : List Op) :
    ∃ p rets p₁ found size, PtrImpl.run maxmem before = .ok (p, rets) ∧
      p.getPointer key = .ok (p₁, found, size) ∧ (found.isSome ↔ key ∈ p.cacheMap) ∧
      ∀ q, found = some q → ∃ b p₂ rets',
        (lruAfter (wrapping maxmem) ∅ before).lookup key = some b ∧
        readValue p₁.heap q = .ok b.bytes ∧ size = b.size ∧
        Machine.run PtrImpl.step p₁ after = .ok (p₂, rets') ∧
        (Keeps maxmem (before ++ [.get key]) key after → readValue p₂.heap q = .ok b.bytes) ∧
        (q ∈ p₂.heap.released ↔ ¬ Keeps maxmem (before ++ [.get key]) key after) := by
  obtain ⟨c, hc, hr, hmax⟩ := Refines.run maxmem before
  obtain ⟨p, t, hp, h⟩ := ptrRun_mirrors hc
  obtain ⟨c₁, hc₁, hr₁, hmax₁⟩ := hr.get key
  obtain ⟨p₁, hp₁, h₁⟩ := h.getPointer hc₁
  have hr₁ : Refines c₁ (lruAfter (wrapping maxmem) ∅ (before ++ [.get key])) := by
    rw [lruAfter_snoc]
    exact hr₁
  refine ⟨p, _, p₁, _, _, hp, hp₁, ?_, ?_⟩
  · rw [h.pointers, mem_mapVal, Option.isSome_map, AList.lookup_isSome]
  intro q hq
  obtain ⟨a, ha, rfl⟩ := Option.map_eq_some_iff.mp hq
  have hfound := hr.lookup key
  rw [h.values, lookup_mapVal, ha, Option.map_some] at hfound
  obtain ⟨p₂, c₂, t₂, rets', hrun, h₂, -, -, hlt, hcase⟩ :=
    h₁.follow hr₁ (hmax₁.trans hmax) ha after
  refine ⟨a.val, p₂, rets', hfound.symm, h₁.readValue ha, ?_, hrun, ?_⟩
  · rw [← hfound]
    rfl
  rw [Heap.mem_released_iff hlt]
  rcases hcase with ⟨hkeeps, ha₂⟩ | ⟨hnot, hdead⟩
  · exact ⟨fun _ => h₂.readValue ha₂, fun hdead => absurd (h₂.valCopy_live ha₂) hdead,
      fun hnot => absurd hkeeps hnot⟩
  · exact ⟨fun hkeeps => absurd hkeeps hnot, fun _ => hnot, fun _ => hdead⟩

/-- A pointer to a value that the second `set` after it evicts. -/
theorem pointer_valid_iff_evicted : ∃ p rets p₁ q p₂ rets',
    PtrImpl.run 4 [.set (str "a") ⟨str "xyz", 3, rfl⟩] = .ok (p, rets) ∧
      p.getPointer (str "a") = .ok (p₁, some q, 3) ∧ readValue p₁.heap q = .ok (str "xyz") ∧
      Machine.run PtrImpl.step p₁ [.set (str "b") ⟨str "z", 1, rfl⟩,
        .set (str "c") ⟨str "yz", 2, rfl⟩] = .ok (p₂, rets') ∧ q ∈ p₂.heap.released := by
  obtain ⟨p, rets, p₁, found, size, hrun, hget, hfound, hafter⟩ :=
    pointer_valid_iff 4 [.set (str "a") ⟨str "xyz", 3, rfl⟩] (str "a")
      [.set (str "b") ⟨str "z", 1, rfl⟩, .set (str "c") ⟨str "yz", 2, rfl⟩]
  have hpointer : (PtrImpl.run 4 [.set (str "a") ⟨str "xyz", 3, rfl⟩] >>= fun r =>
      (r.1.getPointer (str "a")).map Prod.snd) = .ok (some 0, 3) := by decide
  rw [hrun, ok_bind, hget] at hpointer
  cases hpointer
  obtain ⟨b, p₂, rets', hstored, hread, -, hrun', -, hreleased⟩ := hafter 0 rfl
  have hvalue : (lruAfter (wrapping 4) ∅ [.set (str "a") ⟨str "xyz", 3, rfl⟩]).lookup
      (str "a") = some ⟨str "xyz", 3, rfl⟩ := by decide
  cases hvalue.symm.trans hstored
  refine ⟨p, rets, p₁, 0, p₂, rets', hrun, hget, hread, hrun', hreleased.mpr ?_⟩
  rintro ⟨hkeys, -⟩
  exact absurd (AList.lookup_isSome.mpr (hkeys _ List.prefix_rfl)) (by decide)

end NetCache.Cache
