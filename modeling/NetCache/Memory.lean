import NetCache.CacheRefinement
import NetCache.Lib.Heap
import NetCache.Lib.Replay

/-!
# The cache and what it allocates

`Impl` has the stored bytes in its hash map. In `cache.cpp` the map holds pointers: `set`
allocates a copy of the value and a pair of a pointer to it and its size, and only `del` releases
them. `PtrImpl` is the cache with these pointers, over a heap that logs every release.
`Mirrors` ties it to `Impl`: behind each stored pointer is its own pair with its own value copy,
and nothing else is alive. So a `PtrImpl` follows every run of an `Impl` with the same answers,
and it never reads or releases what is not alive.
-/

namespace NetCache.Cache

open Lib Lib.Recency Lib.Replay

/-- What `set` allocates (`cache.cpp:33-35`). -/
inductive Cell where
  /-- `operator new(size_copy)`, with what `memcpy` writes there. -/
  | value (bytes : List UInt8)
  /-- `new std::pair<void*, Cache::index_type>`. -/
  | pair (first : Nat) (second : UInt32)
  deriving DecidableEq

/-- The ways in which a call can fail to return, where stored pointers are followed. -/
inductive MemoryFault where
  /-- A pointer to nothing that is alive, or to an object of another type. -/
  | invalidPointer
  | call (fault : Fault)
  deriving DecidableEq

/-- The `std::pair` behind a `void*` of `_cache_map`. -/
def readPair (heap : Heap Cell) (p : Nat) : Except MemoryFault (Nat × UInt32) :=
  match heap.read p with
  | some (.pair first second) => .ok (first, second)
  | _ => .error .invalidPointer

/-- The bytes behind the first member of a pair. -/
def readValue (heap : Heap Cell) (p : Nat) : Except MemoryFault (List UInt8) :=
  match heap.read p with
  | some (.value bytes) => .ok bytes
  | _ => .error .invalidPointer

/-- `operator delete` and `delete`. -/
def release (heap : Heap Cell) (p : Nat) : Except MemoryFault (Heap Cell) :=
  match heap.release p with
  | some heap => .ok heap
  | none => .error .invalidPointer

/-- The members of `Cache::Impl` (`cache.cpp:97-101`), with the heap. -/
structure PtrImpl where
  cacheMap : AList fun _ : Str => Nat
  maxmem : UInt32
  usedmem : UInt32
  evictor : LRUEvictor
  heap : Heap Cell

namespace PtrImpl

/-- The constructor (`cache.cpp:10-17`). -/
def new (maxmem : UInt32) : PtrImpl := ⟨∅, maxmem, 0, .empty, .empty⟩

/-- `del` (`cache.cpp:74-85`). -/
def del (c : PtrImpl) (key : Str) : Except MemoryFault (PtrImpl × Int) :=
  match c.cacheMap.lookup key with
  | some beingRemoved => do
      let (first, second) ← readPair c.heap beingRemoved
      let heap ← release c.heap first
      let heap ← release heap beingRemoved
      let evictor ← (LRUEvictor.deletedItem c.evictor key).mapError .call
      .ok ({ c with
        usedmem := c.usedmem - second
        evictor
        cacheMap := c.cacheMap.erase key
        heap }, 0)
  | none => .ok (c, 0)

/-- `evict` (`cache.cpp:92-95`). -/
def evict (c : PtrImpl) : Except MemoryFault PtrImpl := do
  let toEvict ← (LRUEvictor.getEvictTarget c.evictor).mapError .call
  let (c, _) ← c.del toEvict
  .ok c

/-- The number of listed keys, which bounds the iterations of both eviction loops. -/
def listed (c : PtrImpl) : Nat := c.evictor.keyList.values.length

/-- The part of `set` that removes an old value of the key (`cache.cpp:38-41`). -/
def dropOld (c : PtrImpl) (key : Str) : Except MemoryFault PtrImpl :=
  match c.cacheMap.lookup key with
  | some _ => do
      let (c, _) ← c.del key
      .ok c
  | none => .ok c

/-- The test of the eviction loop in `set` (`cache.cpp:44`). -/
def overfull (size : UInt32) (c : PtrImpl) : Bool := c.usedmem + size > c.maxmem

/-- The eviction loop of `set` (`cache.cpp:44-46`). -/
def makeRoom (c : PtrImpl) (size : UInt32) : Except MemoryFault PtrImpl :=
  Loop.run (.call .outOfFuel) (fun c => .ok (c.overfull size)) evict c.listed c

/-- `set` (`cache.cpp:28-54`). The copies are made before anything is removed. -/
def set (c : PtrImpl) (key : Str) (val : Blob) : Except MemoryFault (PtrImpl × Int) :=
  if val.size ≤ c.maxmem then do
    let valCopy := c.heap.next
    let heap := c.heap.alloc (.value val.bytes)
    let toInsert := heap.next
    let heap := heap.alloc (.pair valCopy val.size)
    let c ← dropOld { c with heap } key
    let c ← c.makeRoom val.size
    .ok ({ c with
      evictor := LRUEvictor.addedItem c.evictor key
      usedmem := c.usedmem + val.size
      cacheMap := c.cacheMap.insert key toInsert }, 0)
  else .ok (c, -1)

/-- `get` (`cache.cpp:59-71`), with the bytes behind the pointer that it returns. -/
def get (c : PtrImpl) (key : Str) : Except MemoryFault (PtrImpl × GetResult) :=
  match c.cacheMap.lookup key with
  | some foundAt => do
      let evictor ← (LRUEvictor.accessedItem c.evictor key).mapError .call
      let (first, second) ← readPair c.heap foundAt
      let bytes ← readValue c.heap first
      .ok ({ c with evictor }, ⟨some bytes, second⟩)
  | none => .ok (c, ⟨none, 0⟩)

/-- The test of the loop in the destructor. -/
def inUse (c : PtrImpl) : Bool := c.usedmem > 0

/-- The destructor `~Impl` (`cache.cpp:18-22`). -/
def destroy (c : PtrImpl) : Except MemoryFault PtrImpl :=
  Loop.run (.call .outOfFuel) (fun c => .ok c.inUse) evict c.listed c

/-- One call. -/
def step (c : PtrImpl) : Op → Except MemoryFault (PtrImpl × Ret)
  | .set key val => do
      let (c, rc) ← c.set key val
      .ok (c, .code rc)
  | .get key => do
      let (c, r) ← c.get key
      .ok (c, .value r)
  | .del key => do
      let (c, rc) ← c.del key
      .ok (c, .code rc)
  | .spaceUsed => .ok (c, .used c.usedmem.toNat)

/-- The calls `ops`, one after the other, on a new cache of capacity `maxmem`. -/
def run (maxmem : UInt32) (ops : List Op) : Except MemoryFault (PtrImpl × List Ret) :=
  Machine.run step (new maxmem) ops

/-- `set` removes an old value by `del`, which does nothing where there is none. -/
theorem dropOld_eq_ok {c c' : PtrImpl} {key : Str} :
    c.dropOld key = .ok c' ↔ ∃ rc, c.del key = .ok (c', rc) := by
  cases h : c.cacheMap.lookup key with
  | none => simp [dropOld, del, h]
  | some p => simp [dropOld, h, bind_eq_ok]

end PtrImpl

/-- What a stored entry owns: the address of its pair, the address of its value copy, and what
these stand for. -/
structure Owned where
  toInsert : Nat
  valCopy : Nat
  val : Blob

/-- The two allocations of an entry. -/
def Owned.cells (a : Owned) : List (Sigma fun _ : Nat => Cell) :=
  [⟨a.toInsert, .pair a.valCopy a.val.size⟩, ⟨a.valCopy, .value a.val.bytes⟩]

/-- The allocations of all entries. -/
def cells (t : Table Str Owned) : List (Sigma fun _ : Nat => Cell) :=
  t.entries.flatMap fun e => e.2.cells

/-- What a call does to what the entries own, evictions apart: a `set` that is not refused stores
the two allocations that it makes first. -/
def PtrImpl.owns (p : PtrImpl) : Op → Update Str Owned
  | .set key val =>
      if val.size ≤ p.maxmem then .put key ⟨p.heap.next + 1, p.heap.next, val⟩ else .keep
  | .del key => .drop key
  | .get _ => .keep
  | .spaceUsed => .keep

/-- `p` is `c` with pointers: the entries of `t` say which pair and which value copy stand for
each stored blob, and these are alive, apart from each other, and nothing else but `pending`. -/
structure Mirrors (pending : List (Sigma fun _ : Nat => Cell)) (p : PtrImpl) (c : Impl)
    (t : Table Str Owned) : Prop where
  pointers : p.cacheMap = mapVal Owned.toInsert t
  values : c.cacheMap = mapVal Owned.val t
  alive : p.heap.live.entries.Perm (pending ++ cells t)
  maxmem : p.maxmem = c.maxmem
  usedmem : p.usedmem = c.usedmem
  evictor : p.evictor = c.evictor

namespace Mirrors

variable {pending : List (Sigma fun _ : Nat => Cell)} {p : PtrImpl} {c c' : Impl}
  {t : Table Str Owned}

theorem new (maxmem : UInt32) : Mirrors [] (.new maxmem) (.new maxmem) ∅ where
  pointers := rfl
  values := rfl
  alive := List.Perm.refl _
  maxmem := rfl
  usedmem := rfl
  evictor := rfl

/-- The allocations of a stored entry, in front of all others that are alive. -/
theorem alive_cons (h : Mirrors pending p c t) {key : Str} {a : Owned}
    (ha : t.lookup key = some a) : p.heap.live.entries.Perm
      (⟨a.toInsert, .pair a.valCopy a.val.size⟩ :: ⟨a.valCopy, .value a.val.bytes⟩ ::
        (pending ++ cells (t.erase key))) := by
  have hcells : (cells t).Perm (a.cells ++ cells (t.erase key)) :=
    (perm_cons_erase ha).flatMap_right fun e : Sigma fun _ : Str => Owned => e.2.cells
  refine h.alive.trans ((hcells.append_left pending).trans ?_)
  exact (List.perm_append_comm_assoc pending a.cells _)

/-- What is stored is what the table has. -/
theorem mem_iff {m : Entries} (h : Mirrors pending p c t) (hr : Refines c m) {key : Str} :
    key ∈ t ↔ key ∈ m := by
  rw [← AList.lookup_isSome, ← AList.lookup_isSome, ← hr.lookup, h.values, lookup_mapVal,
    Option.isSome_map]

/-- The pair behind a stored pointer. -/
theorem readPair (h : Mirrors pending p c t) {key : Str} {a : Owned}
    (ha : t.lookup key = some a) :
    Cache.readPair p.heap a.toInsert = .ok (a.valCopy, a.val.size) := by
  rw [Cache.readPair, Heap.read_of_perm (h.alive_cons ha)]

/-- The value copy behind that pair. -/
theorem readValue (h : Mirrors pending p c t) {key : Str} {a : Owned}
    (ha : t.lookup key = some a) : Cache.readValue p.heap a.valCopy = .ok a.val.bytes := by
  have hfront := (h.alive_cons ha).trans (List.Perm.swap _ _ _)
  rw [Cache.readValue, Heap.read_of_perm hfront]

/-- Both can be released, and then only the other allocations are alive. -/
theorem release (h : Mirrors pending p c t) {key : Str} {a : Owned}
    (ha : t.lookup key = some a) :
    ∃ heap₁ heap₂, Cache.release p.heap a.valCopy = .ok heap₁ ∧
      Cache.release heap₁ a.toInsert = .ok heap₂ ∧
      heap₂.live.entries.Perm (pending ++ cells (t.erase key)) := by
  have hfront := (h.alive_cons ha).trans (List.Perm.swap _ _ _)
  obtain ⟨heap₁, h₁, hlive₁⟩ := Heap.release_of_perm hfront
  obtain ⟨heap₂, h₂, hlive₂⟩ := Heap.release_of_perm hlive₁
  exact ⟨heap₁, heap₂, by rw [Cache.release, h₁], by rw [Cache.release, h₂], hlive₂⟩

/-- `del` releases the two allocations of the entry that it removes. -/
theorem del (h : Mirrors pending p c t) {key : Str} {rc : Int}
    (hc : c.del key = .ok (c', rc)) :
    ∃ p', p.del key = .ok (p', rc) ∧ Mirrors pending p' c' (t.erase key) := by
  rw [Impl.del, h.values, lookup_mapVal] at hc
  rw [PtrImpl.del, h.pointers, lookup_mapVal]
  cases ha : t.lookup key with
  | none =>
    simp only [ha, Option.map_none, Except.ok.injEq, Prod.mk.injEq] at hc
    obtain ⟨rfl, rfl⟩ := hc
    rw [erase_of_lookup_none ha]
    exact ⟨p, rfl, h⟩
  | some a =>
    simp only [ha, Option.map_some, bind_eq_ok, Except.ok.injEq, Prod.mk.injEq] at hc
    obtain ⟨e, he, rfl, rfl⟩ := hc
    obtain ⟨heap₁, heap₂, h₁, h₂, hlive⟩ := h.release ha
    refine ⟨⟨(mapVal Owned.toInsert t).erase key, p.maxmem, p.usedmem - a.val.size, e, heap₂⟩,
      ?_, ⟨?_, ?_, hlive, h.maxmem, ?_, rfl⟩⟩
    · simp [h.readPair ha, h₁, h₂, h.evictor, he, Except.mapError]
    · exact erase_mapVal _ t key
    · exact erase_mapVal _ t key
    · rw [h.usedmem]

theorem evict (h : Mirrors pending p c t) (hc : c.evict = .ok c') :
    ∃ p' key, p.evict = .ok p' ∧ Mirrors pending p' c' (t.erase key) := by
  obtain ⟨key, rc, hkey, hdel⟩ := Impl.evict_eq_ok.mp hc
  obtain ⟨p', hp, hm⟩ := h.del hdel
  refine ⟨p', key, ?_, hm⟩
  simp [PtrImpl.evict, h.evictor, hkey, hp, Except.mapError]

theorem dropOld (h : Mirrors pending p c t) {key : Str} (hc : c.dropOld key = .ok c') :
    ∃ p', p.dropOld key = .ok p' ∧ Mirrors pending p' c' (t.erase key) := by
  obtain ⟨rc, hdel⟩ := Impl.dropOld_eq_ok.mp hc
  obtain ⟨p', hp, hm⟩ := h.del hdel
  exact ⟨p', PtrImpl.dropOld_eq_ok.mpr ⟨rc, hp⟩, hm⟩

/-- A loop of evictions with pointers follows the loop without. -/
theorem evictLoop {guard : Impl → Bool} {guard' : PtrImpl → Bool}
    (hguard : ∀ {p c t}, Mirrors pending p c t → guard' p = guard c)
    (h : Mirrors pending p c t) {fuel : Nat}
    (hc : Loop.run .outOfFuel (fun c => .ok (guard c)) Impl.evict fuel c = .ok c') :
    ∃ p' t', Loop.run (.call .outOfFuel) (fun p => .ok (guard' p)) PtrImpl.evict fuel p = .ok p' ∧
      Mirrors pending p' c' t' ∧ Within t' t := by
  let R : Impl → PtrImpl → Prop := fun c p => ∃ t', Mirrors pending p c t' ∧ Within t' t
  have hbody : ∀ c₁ c₂ p₁, R c₁ p₁ → (Except.ok (guard c₁) : Except Fault Bool) = .ok true →
      c₁.evict = .ok c₂ → ∃ p₂, p₁.evict = .ok p₂ ∧ R c₂ p₂ := by
    rintro c₁ c₂ p₁ ⟨t₁, h₁, ht₁⟩ - he
    obtain ⟨p₂, key, hp, h₂⟩ := h₁.evict he
    exact ⟨p₂, hp, _, h₂, (Within.erase key t₁).trans ht₁⟩
  have htest : ∀ c₁ p₁ b, R c₁ p₁ → (Except.ok (guard c₁) : Except Fault Bool) = .ok b →
      (Except.ok (guard' p₁) : Except MemoryFault Bool) = .ok b := by
    rintro c₁ p₁ b ⟨t₁, h₁, -⟩ hb
    rw [hguard h₁, Except.ok.inj hb]
  obtain ⟨p', hp, t', h', ht'⟩ := Loop.run_follows R htest hbody ⟨t, h, .refl t⟩ hc
  exact ⟨p', t', hp, h', ht'⟩

theorem makeRoom (h : Mirrors pending p c t) {size : UInt32} (hc : c.makeRoom size = .ok c') :
    ∃ p' t', p.makeRoom size = .ok p' ∧ Mirrors pending p' c' t' ∧ Within t' t := by
  rw [PtrImpl.makeRoom, PtrImpl.listed, h.evictor]
  refine h.evictLoop (fun h => ?_) hc
  rw [PtrImpl.overfull, Impl.overfull, Impl.spaceUsed, h.usedmem, h.maxmem]

/-- The destructor with pointers does what the destructor without does. -/
theorem destroy (h : Mirrors pending p c t) (hc : c.destroy = .ok c') :
    ∃ p' t', p.destroy = .ok p' ∧ Mirrors pending p' c' t' ∧ Within t' t := by
  rw [PtrImpl.destroy, PtrImpl.listed, h.evictor]
  refine h.evictLoop (fun h => ?_) hc
  rw [PtrImpl.inUse, Impl.inUse, h.usedmem]

/-- The two copies that `set` makes first are alive and not stored yet. -/
theorem alloc (h : Mirrors pending p c t) (val : Blob) :
    Mirrors (Owned.cells ⟨p.heap.next + 1, p.heap.next, val⟩ ++ pending)
      { p with heap := (p.heap.alloc (.value val.bytes)).alloc (.pair p.heap.next val.size) }
      c t where
  pointers := h.pointers
  values := h.values
  alive := by
    simp only [Heap.entries_alloc]
    exact (h.alive.cons _).cons _
  maxmem := h.maxmem
  usedmem := h.usedmem
  evictor := h.evictor

/-- `set` stores what it has allocated, under a key that is not stored by then. -/
theorem set {m : Entries} (hr : Refines c m) (h : Mirrors pending p c t) {key : Str} {val : Blob}
    {rc : Int} (hc : c.set key val = .ok (c', rc)) :
    ∃ p' t', p.set key val = .ok (p', rc) ∧ Mirrors pending p' c' t' ∧
      Within t' ((p.owns (.set key val)).apply t) := by
  by_cases hval : val.size ≤ c.maxmem
  · obtain ⟨c₁, c₂, hc₁, hc₂, rfl, rfl⟩ := (Impl.set_eq_ok hval).mp hc
    obtain ⟨p₁, hp₁, h₁⟩ := (h.alloc val).dropOld hc₁
    obtain ⟨p₂, t₂, hp₂, h₂, ht₂⟩ := h₁.makeRoom hc₂
    have hkey : key ∉ t₂ := by
      have hnone := ((hr.of_makeRoom hval hc₁ hc₂).lookup key).trans
        (lookup_erase_self_shrink _ key m)
      rwa [AList.lookup_eq_none, h₂.values, mem_mapVal] at hnone
    refine ⟨⟨p₂.cacheMap.insert key (p.heap.next + 1), p₂.maxmem, p₂.usedmem + val.size,
      LRUEvictor.addedItem p₂.evictor key, p₂.heap⟩,
      t₂.insert key ⟨p.heap.next + 1, p.heap.next, val⟩, ?_, ⟨?_, ?_, ?_, h₂.maxmem, ?_, ?_⟩, ?_⟩
    · rw [PtrImpl.set, if_pos (h.maxmem ▸ hval)]
      exact bind_eq_ok.mpr ⟨p₁, hp₁, bind_eq_ok.mpr ⟨p₂, hp₂, rfl⟩⟩
    · rw [← insert_mapVal, ← h₂.pointers]
    · rw [← insert_mapVal, ← h₂.values]
    · rw [cells, AList.entries_insert_of_notMem hkey]
      refine h₂.alive.trans ?_
      rw [List.append_assoc]
      exact (List.perm_append_comm_assoc _ pending _)
    · rw [h₂.usedmem]
    · rw [h₂.evictor]
    · rw [PtrImpl.owns, if_pos (h.maxmem ▸ hval)]
      exact (ht₂.trans (.erase key t)).insert key _
  · rw [Refines.set_refused key hval] at hc
    cases hc
    refine ⟨p, t, ?_, h, ?_⟩
    · rw [PtrImpl.set, if_neg (h.maxmem ▸ hval)]
    · rw [PtrImpl.owns, if_neg (h.maxmem ▸ hval)]
      exact .refl t

/-- `get` finds the stored bytes and the stored size. -/
theorem get (h : Mirrors pending p c t) {key : Str} {r : GetResult}
    (hc : c.get key = .ok (c', r)) :
    ∃ p', p.get key = .ok (p', r) ∧ Mirrors pending p' c' t := by
  rw [Impl.get, h.values, lookup_mapVal] at hc
  rw [PtrImpl.get, h.pointers, lookup_mapVal]
  cases ha : t.lookup key with
  | none =>
    simp only [ha, Option.map_none, Except.ok.injEq, Prod.mk.injEq] at hc
    obtain ⟨rfl, rfl⟩ := hc
    exact ⟨p, rfl, h⟩
  | some a =>
    simp only [ha, Option.map_some, bind_eq_ok, Except.ok.injEq, Prod.mk.injEq] at hc
    obtain ⟨e, he, rfl, rfl⟩ := hc
    refine ⟨{ p with evictor := e }, ?_, ⟨h.pointers, rfl, h.alive, h.maxmem, h.usedmem, rfl⟩⟩
    simp [h.evictor, he, Except.mapError, h.readPair ha, h.readValue ha, h.pointers]

/-- Every call answers as without pointers, and reads and releases only what is alive. -/
theorem step {m : Entries} (hr : Refines c m) (h : Mirrors pending p c t) {op : Op} {ret : Ret}
    (hc : c.step op = .ok (c', ret)) :
    ∃ p' t', p.step op = .ok (p', ret) ∧ Mirrors pending p' c' t' ∧
      Within t' ((p.owns op).apply t) := by
  rcases Impl.step_eq_ok.mp hc with hset | hget | hdel | rfl
  · obtain ⟨p', t', hp, h', ht'⟩ := h.set hr hset
    exact ⟨p', t', by simp [PtrImpl.step, hp], h', ht'⟩
  · obtain ⟨p', hp, h'⟩ := h.get hget
    exact ⟨p', t, by simp [PtrImpl.step, hp], h', .refl t⟩
  · obtain ⟨p', hp, h'⟩ := h.del hdel
    exact ⟨p', _, by simp [PtrImpl.step, hp], h', .refl _⟩
  · exact ⟨p, t, by rw [PtrImpl.step, h.usedmem, Impl.spaceUsed], h, .refl t⟩

end Mirrors

/-- Every sequence of calls on a new cache follows the pointers without a fault, answers as the
cache without pointers does, and leaves alive what the stored entries own and nothing else. -/
theorem ptrRun_mirrors {maxmem : UInt32} {ops : List Op} {c : Impl} {rets : List Ret}
    (hc : Impl.run maxmem ops = .ok (c, rets)) :
    ∃ p t, PtrImpl.run maxmem ops = .ok (p, rets) ∧ Mirrors [] p c t := by
  let R : Impl → PtrImpl → Prop := fun c p => (∃ m, Refines c m) ∧ ∃ t, Mirrors [] p c t
  have hstep : ∀ c₁ p₁ op c₂ ret, R c₁ p₁ → c₁.step op = .ok (c₂, ret) →
      ∃ p₂, p₁.step op = .ok (p₂, ret) ∧ R c₂ p₂ := by
    rintro c₁ p₁ op c₂ ret ⟨⟨m, hr⟩, t, h⟩ hs
    obtain ⟨p₂, t₂, hp, h₂, -⟩ := h.step hr hs
    obtain ⟨c₂', hs', hr₂, -⟩ := hr.step op
    rw [hs] at hs'
    cases hs'
    exact ⟨p₂, hp, ⟨_, hr₂⟩, t₂, h₂⟩
  obtain ⟨p, hp, -, t, h⟩ := Machine.run_follows R hstep
    ⟨⟨∅, Refines.new maxmem⟩, ∅, Mirrors.new maxmem⟩ hc
  exact ⟨p, t, hp, h⟩

end NetCache.Cache
