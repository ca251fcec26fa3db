import Mathlib.Data.List.AList
import Mathlib.Data.List.Range

/-!
# A heap with a ledger

Allocations are numbered in their order, so an address is never used twice. A heap holds the
allocations that are alive and logs the addresses that were released. The field `ledger` says that
each address handed out so far is either alive or was released, and this exactly once: releasing
an address that is not alive is not possible (`release` then yields `none`).
-/

namespace Lib

/-- The living allocations by address, the next address, and what was released, latest first. -/
structure Heap (α : Type u) where
  live : AList fun _ : Nat => α
  next : Nat
  released : List Nat
  ledger : (released ++ live.keys).Perm (List.range next)

namespace Heap

variable {α : Type u}

def empty : Heap α := ⟨∅, 0, [], List.Perm.refl _⟩

theorem lt_next {h : Heap α} {p : Nat} (hp : p ∈ h.live) : p < h.next :=
  List.mem_range.mp (h.ledger.mem_iff.mp (List.mem_append_right _ (AList.mem_keys.mp hp)))

theorem next_notMem (h : Heap α) : h.next ∉ h.live := fun hp => Nat.lt_irrefl _ (lt_next hp)

/-- An address that was handed out is either alive or released, and not both. -/
theorem mem_released_iff {h : Heap α} {p : Nat} (hp : p < h.next) :
    p ∈ h.released ↔ p ∉ h.live := by
  have hnodup : (h.released ++ h.live.keys).Nodup := h.ledger.nodup_iff.mpr List.nodup_range
  have hmem : p ∈ h.released ++ h.live.keys := h.ledger.mem_iff.mpr (List.mem_range.mpr hp)
  rw [AList.mem_keys]
  constructor
  · intro hreleased hlive
    exact (List.nodup_append.mp hnodup).2.2 p hreleased p hlive rfl
  · intro hlive
    exact (List.mem_append.mp hmem).resolve_right hlive

/-- A new allocation, at the address `h.next`. -/
def alloc (x : α) (h : Heap α) : Heap α where
  live := h.live.insert h.next x
  next := h.next + 1
  released := h.released
  ledger := by
    rw [AList.keys_insert, List.erase_of_not_mem fun hp => h.next_notMem (AList.mem_keys.mpr hp),
      List.range_succ]
    exact List.perm_middle.trans ((h.ledger.cons h.next).trans
      (List.perm_append_singleton h.next _).symm)

/-- What stands at an address; `none` where nothing is alive. -/
def read (h : Heap α) (p : Nat) : Option α := h.live.lookup p

/-- Release an address; `none` where nothing is alive. -/
def release (h : Heap α) (p : Nat) : Option (Heap α) :=
  if hp : p ∈ h.live then
    some {
      live := h.live.erase p
      next := h.next
      released := p :: h.released
      ledger := by
        rw [AList.keys_erase, List.cons_append]
        have hkeys := List.perm_cons_erase (AList.mem_keys.mp hp)
        exact List.perm_middle.symm.trans ((hkeys.symm.append_left _).trans h.ledger) }
  else none

@[simp] theorem entries_alloc (x : α) (h : Heap α) :
    (h.alloc x).live.entries = ⟨h.next, x⟩ :: h.live.entries :=
  AList.entries_insert_of_notMem h.next_notMem

/-- An allocation that is listed can be read. -/
theorem read_of_perm {h : Heap α} {p : Nat} {x : α} {l : List (Sigma fun _ : Nat => α)}
    (hl : h.live.entries.Perm (⟨p, x⟩ :: l)) : h.read p = some x :=
  AList.mem_lookup_iff.mpr (hl.mem_iff.mpr List.mem_cons_self)

/-- An allocation that is listed can be released, and then the others are alive. -/
theorem release_of_perm {h : Heap α} {p : Nat} {x : α} {l : List (Sigma fun _ : Nat => α)}
    (hl : h.live.entries.Perm (⟨p, x⟩ :: l)) :
    ∃ h', h.release p = some h' ∧ h'.live.entries.Perm l := by
  have hp : p ∈ h.live := AList.lookup_isSome.mp (Option.isSome_of_eq_some (read_of_perm hl))
  refine ⟨_, dif_pos hp, ?_⟩
  have herase := List.Perm.kerase (a := p) h.live.nodupKeys hl
  have hhead : List.kerase p (⟨p, x⟩ :: l) = l := List.kerase_cons_eq rfl
  rwa [hhead] at herase

/-- Nothing is alive if and only if every allocation was released exactly once. -/
theorem live_eq_empty_iff {h : Heap α} :
    h.live.entries = [] ↔ h.released.Perm (List.range h.next) := by
  constructor
  · intro hnil
    have hledger := h.ledger
    rwa [AList.keys, hnil, List.keys_nil, List.append_nil] at hledger
  · intro hall
    have hlen := h.ledger.length_eq.trans hall.length_eq.symm
    rw [List.length_append, AList.keys, List.keys, List.length_map] at hlen
    exact List.length_eq_zero_iff.mp (by omega)

end Heap

end Lib
