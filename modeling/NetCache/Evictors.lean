import NetCache.Basic
import NetCache.Lib.Loop
import NetCache.Lib.NodeList
import Mathlib.Data.List.AList

/-!
# The evictors

`FIFO_Evictor` and `LRU_Evictor` (`evictors.hh`, `evictors.cpp`) declare the same two members, a
list of keys and a map from each key to the list node that holds it, and share three of their
four operations word for word. `KeyQueue` has the members and the shared operations;
the two evictors differ in `accessed_item` only.
-/

namespace NetCache

open Lib

/-- `_key_list` and `_key_map` (`evictors.hh:28-31`, `evictors.hh:45-46`). -/
structure KeyQueue where
  keyList : NodeList Str
  keyMap : AList fun _ : Str => Nat

namespace KeyQueue

def empty : KeyQueue := ⟨.empty, ∅⟩

/-- `added_item` (`evictors.cpp:8-12`, `evictors.cpp:40-44`). -/
def addedItem (e : KeyQueue) (key : Str) : KeyQueue :=
  let keyList := e.keyList.pushFront key
  { keyList, keyMap := e.keyMap.insert key keyList.begin }

/-- `deleted_item` (`evictors.cpp:21-27`, `evictors.cpp:54-60`). -/
def deletedItem (e : KeyQueue) (key : Str) : Except Fault KeyQueue :=
  match e.keyMap.lookup key with
  | some foundAt =>
      match e.keyList.erase foundAt with
      | some keyList => .ok { keyList, keyMap := e.keyMap.erase key }
      | none => .error .danglingIterator
  | none => .ok e

/-- `get_evict_target` (`evictors.cpp:30-32`, `evictors.cpp:63-65`). -/
def getEvictTarget (e : KeyQueue) : Except Fault Str :=
  match e.keyList.back with
  | some key => .ok key
  | none => .error .emptyBack

/-- List and map agree: every key is listed once, the map has the listed keys, and the iterator
of a key points at the node that holds this key. -/
structure Linked (e : KeyQueue) : Prop where
  nodup : e.keyList.values.Nodup
  tracked : ∀ k, k ∈ e.keyMap ↔ k ∈ e.keyList.values
  points : ∀ k it, e.keyMap.lookup k = some it → e.keyList.deref it = some k

theorem linked_empty : Linked empty where
  nodup := List.nodup_nil
  tracked := fun k => by simp [empty, AList.notMem_empty]
  points := fun k it h => by simp [empty, AList.lookup_empty] at h

@[simp] theorem values_addedItem (e : KeyQueue) (key : Str) :
    (e.addedItem key).keyList.values = key :: e.keyList.values := rfl

/-- Adding a key that is not tracked keeps list and map in agreement. -/
theorem Linked.addedItem {e : KeyQueue} (h : e.Linked) {key : Str}
    (hkey : key ∉ e.keyList.values) : (e.addedItem key).Linked where
  nodup := List.nodup_cons.mpr ⟨hkey, h.nodup⟩
  tracked := fun k => by
    show k ∈ e.keyMap.insert key _ ↔ k ∈ key :: e.keyList.values
    rw [AList.mem_insert, List.mem_cons, h.tracked]
  points := fun k it hk => by
    by_cases hkk : k = key
    · subst hkk
      have hit : e.keyList.next = it := by
        simpa [KeyQueue.addedItem, AList.lookup_insert] using hk
      rw [← hit]
      exact NodeList.deref_pushFront_next k e.keyList
    · have hk' : e.keyMap.lookup k = some it := by
        simpa [KeyQueue.addedItem, AList.lookup_insert_ne hkk] using hk
      exact NodeList.deref_pushFront key (h.points k it hk')

/-- `deleted_item` never meets a dangling iterator, and removes its key from list and map. -/
theorem Linked.deletedItem {e : KeyQueue} (h : e.Linked) (key : Str) :
    ∃ e', e.deletedItem key = .ok e' ∧ e'.Linked ∧
      e'.keyList.values = e.keyList.values.erase key ∧ e'.keyMap = e.keyMap.erase key := by
  cases hk : e.keyMap.lookup key with
  | none =>
    have hmem : key ∉ e.keyMap := AList.lookup_eq_none.mp hk
    refine ⟨e, by simp [KeyQueue.deletedItem, hk], h, ?_, ?_⟩
    · rw [List.erase_of_not_mem fun hv => hmem ((h.tracked key).mpr hv)]
    · exact (AList.ext (List.kerase_of_notMem_keys hmem)).symm
  | some it =>
    have hit := h.points key it hk
    obtain ⟨l, hl⟩ := NodeList.erase_isSome hit
    have hvals := NodeList.values_erase h.nodup hit hl
    refine ⟨⟨l, e.keyMap.erase key⟩, by simp [KeyQueue.deletedItem, hk, hl], ⟨?_, ?_, ?_⟩,
      hvals, rfl⟩
    · show l.values.Nodup
      rw [hvals]
      exact h.nodup.erase key
    · intro k
      show k ∈ e.keyMap.erase key ↔ k ∈ l.values
      rw [AList.mem_erase, hvals, h.nodup.mem_erase_iff, h.tracked]
    · intro k it' hk'
      show l.deref it' = some k
      have hne : k ≠ key := by
        rintro rfl
        simp [AList.lookup_erase] at hk'
      have hold : e.keyMap.lookup k = some it' := by
        simpa [AList.lookup_erase_ne hne] using hk'
      have hpt := h.points k it' hold
      -- the erased node holds `key`, so the iterator of `k` is another one
      have hother : it' ≠ it := by
        rintro rfl
        rw [hit] at hpt
        exact hne (Option.some.inj hpt).symm
      exact NodeList.deref_erase hl hother hpt

theorem getEvictTarget_eq_ok {e : KeyQueue} {key : Str} :
    e.getEvictTarget = .ok key ↔ e.keyList.values.getLast? = some key := by
  unfold getEvictTarget NodeList.back
  cases e.keyList.values.getLast? <;> simp

end KeyQueue

/-- `FIFO_Evictor`. -/
abbrev FIFOEvictor := KeyQueue

namespace FIFOEvictor

abbrev addedItem : FIFOEvictor → Str → FIFOEvictor := KeyQueue.addedItem

/-- `FIFO_Evictor::accessed_item` does nothing (`evictors.cpp:15-18`). -/
def accessedItem (e : FIFOEvictor) (_ : Str) : Except Fault FIFOEvictor := .ok e

abbrev deletedItem : FIFOEvictor → Str → Except Fault FIFOEvictor := KeyQueue.deletedItem

abbrev getEvictTarget : FIFOEvictor → Except Fault Str := KeyQueue.getEvictTarget

end FIFOEvictor

/-- `LRU_Evictor`. -/
abbrev LRUEvictor := KeyQueue

namespace LRUEvictor

abbrev addedItem : LRUEvictor → Str → LRUEvictor := KeyQueue.addedItem

abbrev deletedItem : LRUEvictor → Str → Except Fault LRUEvictor := KeyQueue.deletedItem

/-- `LRU_Evictor::accessed_item` moves the key to the front (`evictors.cpp:48-51`). -/
def accessedItem (e : LRUEvictor) (key : Str) : Except Fault LRUEvictor := do
  let e ← deletedItem e key
  .ok (addedItem e key)

abbrev getEvictTarget : LRUEvictor → Except Fault Str := KeyQueue.getEvictTarget

/-- An access to a tracked key keeps list and map in agreement and puts the key first. -/
theorem accessedItem_linked {e : LRUEvictor} (h : e.Linked) (key : Str) :
    ∃ e', accessedItem e key = .ok e' ∧ e'.Linked ∧
      e'.keyList.values = key :: e.keyList.values.erase key := by
  obtain ⟨e₁, hd, hl, hv, -⟩ := h.deletedItem key
  refine ⟨addedItem e₁ key, by simp [accessedItem, hd], hl.addedItem ?_, by rw [← hv]; rfl⟩
  rw [hv]
  exact h.nodup.not_mem_erase

end LRUEvictor

end NetCache
