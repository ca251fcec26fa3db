import NetCache.Evictors
import NetCache.Lib.Machine

/-!
# The cache

`Cache::Impl` of `cache.cpp`: a hash map from keys to stored blobs, the capacity, a 32-bit count
of the bytes in use and an LRU evictor. The order in which a hash map iterates is never
observed here, so the hasher is left out. `Impl.step` is one call of the public interface of
`cache.hh`. The lemmas `step_eq_ok`, `evict_eq_ok`, `dropOld_eq_ok` and `set_eq_ok` take a call
that returns apart.
-/

namespace NetCache

open Lib

namespace Cache

/-- The members of `Cache::Impl` (`cache.cpp:97-101`). A stored pair of a value copy and its size
is a `Blob`. -/
structure Impl where
  cacheMap : AList fun _ : Str => Blob
  maxmem : UInt32
  usedmem : UInt32
  evictor : LRUEvictor

/-- What `get` returns: the bytes behind the pointer (`none` for `nullptr`) and the value that the
reference parameter `size` is left with. -/
structure GetResult where
  val : Option (List UInt8)
  size : UInt32
  deriving DecidableEq

namespace Impl

/-- The constructor (`cache.cpp:10-17`). -/
def new (maxmem : UInt32) : Impl := ⟨∅, maxmem, 0, .empty⟩

/-- `space_used` (`cache.cpp:87-89`). -/
def spaceUsed (c : Impl) : UInt32 := c.usedmem

/-- `del` (`cache.cpp:74-85`). -/
def del (c : Impl) (key : Str) : Except Fault (Impl × Int) :=
  match c.cacheMap.lookup key with
  | some beingRemoved => do
      let evictor ← LRUEvictor.deletedItem c.evictor key
      .ok ({ c with
        usedmem := c.usedmem - beingRemoved.size
        evictor
        cacheMap := c.cacheMap.erase key }, 0)
  | none => .ok (c, 0)

/-- `evict` (`cache.cpp:92-95`). -/
def evict (c : Impl) : Except Fault Impl := do
  let toEvict ← LRUEvictor.getEvictTarget c.evictor
  let (c, _) ← c.del toEvict
  .ok c

/-- The number of listed keys, which bounds the iterations of both eviction loops. -/
def listed (c : Impl) : Nat := c.evictor.keyList.values.length

/-- The part of `set` that removes an old value of the key (`cache.cpp:38-41`). -/
def dropOld (c : Impl) (key : Str) : Except Fault Impl :=
  match c.cacheMap.lookup key with
  | some _ => do
      let (c, _) ← c.del key
      .ok c
  | none => .ok c

/-- The test of the eviction loop in `set`, a 32-bit sum (`cache.cpp:44`). -/
def overfull (size : UInt32) (c : Impl) : Bool := c.spaceUsed + size > c.maxmem

/-- The eviction loop of `set` (`cache.cpp:44-46`). -/
def makeRoom (c : Impl) (size : UInt32) : Except Fault Impl :=
  Loop.run .outOfFuel (fun c => .ok (c.overfull size)) evict c.listed c

/-- `set` (`cache.cpp:28-54`). -/
def set (c : Impl) (key : Str) (val : Blob) : Except Fault (Impl × Int) :=
  if val.size ≤ c.maxmem then do
    let c ← c.dropOld key
    let c ← c.makeRoom val.size
    .ok ({ c with
      evictor := LRUEvictor.addedItem c.evictor key
      usedmem := c.usedmem + val.size
      cacheMap := c.cacheMap.insert key val }, 0)
  else .ok (c, -1)

/-- `get` (`cache.cpp:59-71`). -/
def get (c : Impl) (key : Str) : Except Fault (Impl × GetResult) :=
  match c.cacheMap.lookup key with
  | some retrieved => do
      let evictor ← LRUEvictor.accessedItem c.evictor key
      .ok ({ c with evictor }, ⟨some retrieved.bytes, retrieved.size⟩)
  | none => .ok (c, ⟨none, 0⟩)

/-- The test of the loop in the destructor. -/
def inUse (c : Impl) : Bool := c.usedmem > 0

/-- The destructor `~Impl` (`cache.cpp:18-22`). -/
def destroy (c : Impl) : Except Fault Impl :=
  Loop.run .outOfFuel (fun c => .ok c.inUse) evict c.listed c

end Impl

/-- A call of the public interface (`cache.hh:42-55`). -/
inductive Op where
  | set (key : Str) (val : Blob)
  | get (key : Str)
  | del (key : Str)
  | spaceUsed
  deriving DecidableEq

/-- What a call returns. -/
inductive Ret where
  | code (rc : Int)
  | value (r : GetResult)
  | used (n : Nat)
  deriving DecidableEq

/-- One call. -/
def Impl.step (c : Impl) : Op → Except Fault (Impl × Ret)
  | .set key val => do
      let (c, rc) ← c.set key val
      .ok (c, .code rc)
  | .get key => do
      let (c, r) ← c.get key
      .ok (c, .value r)
  | .del key => do
      let (c, rc) ← c.del key
      .ok (c, .code rc)
  | .spaceUsed => .ok (c, .used c.spaceUsed.toNat)

/-- The calls `ops`, one after the other, on a new cache of capacity `maxmem`. -/
def Impl.run (maxmem : UInt32) (ops : List Op) : Except Fault (Impl × List Ret) :=
  Machine.run Impl.step (Impl.new maxmem) ops

namespace Impl

/-- A call that returns: which operation it was, and how that returned. -/
inductive Called (c c' : Impl) : Op → Ret → Prop
  | set {key : Str} {val : Blob} {rc : Int} (h : c.set key val = .ok (c', rc)) :
      Called c c' (.set key val) (.code rc)
  | get {key : Str} {r : GetResult} (h : c.get key = .ok (c', r)) :
      Called c c' (.get key) (.value r)
  | del {key : Str} {rc : Int} (h : c.del key = .ok (c', rc)) : Called c c' (.del key) (.code rc)
  | spaceUsed (h : c' = c) : Called c c' .spaceUsed (.used c.spaceUsed.toNat)

variable {c c' : Impl}

theorem step_eq_ok {op : Op} {ret : Ret} :
    c.step op = .ok (c', ret) ↔ Called c c' op ret := by
  constructor
  · intro h
    cases op with
    | set key val =>
      obtain ⟨⟨c₁, rc⟩, hset, h⟩ := bind_eq_ok.mp h
      cases h
      exact .set hset
    | get key =>
      obtain ⟨⟨c₁, r⟩, hget, h⟩ := bind_eq_ok.mp h
      cases h
      exact .get hget
    | del key =>
      obtain ⟨⟨c₁, rc⟩, hdel, h⟩ := bind_eq_ok.mp h
      cases h
      exact .del hdel
    | spaceUsed =>
      cases h
      exact .spaceUsed rfl
  · rintro (h | h | h | rfl)
    · exact bind_eq_ok.mpr ⟨_, h, rfl⟩
    · exact bind_eq_ok.mpr ⟨_, h, rfl⟩
    · exact bind_eq_ok.mpr ⟨_, h, rfl⟩
    · rfl

/-- `evict` is a `del` of the evict target. -/
theorem evict_eq_ok : c.evict = .ok c' ↔
    ∃ key rc, LRUEvictor.getEvictTarget c.evictor = .ok key ∧ c.del key = .ok (c', rc) := by
  simp [evict, bind_eq_ok]

/-- `set` removes an old value by `del`, which does nothing where there is none. -/
theorem dropOld_eq_ok {key : Str} : c.dropOld key = .ok c' ↔ ∃ rc, c.del key = .ok (c', rc) := by
  cases h : c.cacheMap.lookup key with
  | none => simp [dropOld, del, h]
  | some old => simp [dropOld, h, bind_eq_ok]

/-- `set` with an item that is not larger than the capacity. -/
theorem set_eq_ok {key : Str} {val : Blob} {rc : Int} (hval : val.size ≤ c.maxmem) :
    c.set key val = .ok (c', rc) ↔
      ∃ c₁ c₂, c.dropOld key = .ok c₁ ∧ c₁.makeRoom val.size = .ok c₂ ∧ rc = 0 ∧
        c' = { c₂ with
          evictor := LRUEvictor.addedItem c₂.evictor key
          usedmem := c₂.usedmem + val.size
          cacheMap := c₂.cacheMap.insert key val } := by
  rw [set, if_pos hval]
  constructor
  · intro h
    obtain ⟨c₁, h₁, h⟩ := bind_eq_ok.mp h
    obtain ⟨c₂, h₂, h⟩ := bind_eq_ok.mp h
    cases h
    exact ⟨c₁, c₂, h₁, h₂, rfl, rfl⟩
  · rintro ⟨c₁, c₂, h₁, h₂, rfl, rfl⟩
    exact bind_eq_ok.mpr ⟨c₁, h₁, bind_eq_ok.mpr ⟨c₂, h₂, rfl⟩⟩

end Impl

end Cache

end NetCache
