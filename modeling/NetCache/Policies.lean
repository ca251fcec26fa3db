import NetCache.Evictors
import NetCache.Lib.History
import Mathlib.Data.List.Induction

/-!
# The policies that the evictors implement

What `FIFO_Evictor` and `LRU_Evictor` are for, stated on the calls so far and not on the list and
the map: the key to evict is, of the tracked keys, the one that was added, or for LRU added or
accessed, the longest ago. `Represents` ties the linked representation to the history. Each call
that the cache may make preserves it, so it holds after every permitted sequence of calls.
-/

namespace NetCache

open Lib Lib.History

/-- The two evictors of `evictors.hh`. -/
inductive Policy where
  | fifo
  | lru
  deriving DecidableEq

/-- A call that may change an evictor. -/
inductive EvictorCall where
  | addedItem (key : Str)
  | accessedItem (key : Str)
  | deletedItem (key : Str)
  deriving DecidableEq

namespace EvictorCall

/-- The call says whether `key` is in the cache. -/
def decides (key : Str) : EvictorCall → Bool
  | .addedItem k => k = key
  | .accessedItem _ => false
  | .deletedItem k => k = key

end EvictorCall

/-- `key` was added, and not deleted since. -/
def Tracked (calls : List EvictorCall) (key : Str) : Prop :=
  latest (EvictorCall.decides key) calls = some (.addedItem key)

instance (calls : List EvictorCall) (key : Str) : Decidable (Tracked calls key) :=
  inferInstanceAs (Decidable (_ = _))

namespace Policy

/-- The member functions of the evictor; the two classes differ in `accessed_item` only. -/
def call (P : Policy) (e : KeyQueue) : EvictorCall → Except Fault KeyQueue
  | .addedItem key => .ok (e.addedItem key)
  | .accessedItem key =>
      match P with
      | .fifo => FIFOEvictor.accessedItem e key
      | .lru => LRUEvictor.accessedItem e key
  | .deletedItem key => e.deletedItem key

/-- The evictor after a sequence of calls. -/
def run (P : Policy) (calls : List EvictorCall) : Except Fault KeyQueue :=
  calls.foldlM P.call .empty

/-- The calls that put `key` last in the order of eviction. -/
def renews (P : Policy) (key : Str) : EvictorCall → Bool
  | .addedItem k => k = key
  | .accessedItem k => P = .lru ∧ k = key
  | .deletedItem _ => false

/-- The number of calls since `key` was added or, for LRU, accessed. -/
def age (P : Policy) (calls : List EvictorCall) (key : Str) : Nat := since (P.renews key) calls

/-- The calls that `Cache::Impl` makes: it adds a key that is not tracked, and accesses a key
that is. -/
def admits : Policy → List EvictorCall → EvictorCall → Prop
  | _, calls, .addedItem key => ¬ Tracked calls key
  | .fifo, _, .accessedItem _ => True
  | .lru, calls, .accessedItem key => Tracked calls key
  | _, _, .deletedItem _ => True

instance : (P : Policy) → (calls : List EvictorCall) → (c : EvictorCall) →
    Decidable (P.admits calls c)
  | .fifo, _, .addedItem _ => instDecidableNot
  | .lru, _, .addedItem _ => instDecidableNot
  | .fifo, _, .accessedItem _ => .isTrue trivial
  | .lru, calls, .accessedItem key => inferInstanceAs (Decidable (Tracked calls key))
  | .fifo, _, .deletedItem _ => .isTrue trivial
  | .lru, _, .deletedItem _ => .isTrue trivial

/-- The list and the map of `e` agree, hold the tracked keys, and list them by age. -/
structure Represents (P : Policy) (calls : List EvictorCall) (e : KeyQueue) : Prop where
  linked : e.Linked
  tracked : ∀ key, key ∈ e.keyList.values ↔ Tracked calls key
  ageing : Ageing (P.age calls) e.keyList.values

section Snoc

variable {P : Policy} {calls : List EvictorCall}

theorem tracked_added (calls : List EvictorCall) (key k : Str) :
    Tracked (calls ++ [.addedItem key]) k ↔ k = key ∨ Tracked calls k := by
  by_cases hk : key = k
  · subst hk
    simp [Tracked, latest_snoc_of_pos (p := EvictorCall.decides key), EvictorCall.decides]
  · simp [Tracked, latest_snoc_of_neg (p := EvictorCall.decides k), EvictorCall.decides, hk,
      Ne.symm hk]

theorem tracked_deleted (calls : List EvictorCall) (key k : Str) :
    Tracked (calls ++ [.deletedItem key]) k ↔ k ≠ key ∧ Tracked calls k := by
  by_cases hk : key = k
  · subst hk
    simp [Tracked, latest_snoc_of_pos (p := EvictorCall.decides key), EvictorCall.decides]
  · simp [Tracked, latest_snoc_of_neg (p := EvictorCall.decides k), EvictorCall.decides, hk,
      Ne.symm hk]

theorem tracked_accessed (calls : List EvictorCall) (key k : Str) :
    Tracked (calls ++ [.accessedItem key]) k ↔ Tracked calls k := by
  rw [Tracked, latest_snoc_of_neg rfl, Tracked]

theorem age_of_renews {c : EvictorCall} {key : Str} (h : P.renews key c = true) :
    P.age (calls ++ [c]) key = 0 := since_snoc_of_pos h calls

theorem age_of_not_renews {c : EvictorCall} {key : Str} (h : P.renews key c = false) :
    P.age (calls ++ [c]) key = P.age calls key + 1 := since_snoc_of_neg h calls

theorem run_snoc {e : KeyQueue} (h : P.run calls = .ok e) (c : EvictorCall) :
    P.run (calls ++ [c]) = P.call e c := by
  unfold run at h ⊢
  rw [List.foldlM_append, h, ok_bind, List.foldlM_cons]
  cases P.call e c <;> rfl

end Snoc

namespace Represents

variable {P : Policy} {calls : List EvictorCall} {e : KeyQueue}

theorem new (P : Policy) : Represents P [] .empty where
  linked := KeyQueue.linked_empty
  tracked := fun key => by simp [KeyQueue.empty, Tracked]
  ageing := List.Pairwise.nil

/-- A new key comes first, and every other key ages. -/
theorem addedItem (h : Represents P calls e) {key : Str} (hkey : ¬ Tracked calls key) :
    Represents P (calls ++ [.addedItem key]) (e.addedItem key) where
  linked := h.linked.addedItem fun hmem => hkey ((h.tracked key).mp hmem)
  tracked := fun k => by
    rw [tracked_added, KeyQueue.values_addedItem, List.mem_cons, h.tracked]
  ageing := by
    refine h.ageing.cons (age_of_renews (by simp [renews])) ?_
    intro k hk
    have hne : key ≠ k := fun heq => hkey ((h.tracked key).mp (heq ▸ hk))
    exact age_of_not_renews (by simp [renews, hne])

/-- A deleted key leaves, and every other key ages. -/
theorem deletedItem (h : Represents P calls e) (key : Str) :
    ∃ e', e.deletedItem key = .ok e' ∧ Represents P (calls ++ [.deletedItem key]) e' := by
  obtain ⟨e', he, hl, hv, -⟩ := h.linked.deletedItem key
  refine ⟨e', he, hl, ?_, ?_⟩
  · intro k
    rw [tracked_deleted, hv, h.linked.nodup.mem_erase_iff, h.tracked]
  · rw [hv]
    exact (h.ageing.sublist List.erase_sublist).older fun k _ => age_of_not_renews rfl

/-- An access to a FIFO evictor changes nothing but the ages. -/
theorem accessedItem_fifo (h : Represents .fifo calls e) (key : Str) :
    Represents .fifo (calls ++ [.accessedItem key]) e where
  linked := h.linked
  tracked := fun k => by rw [tracked_accessed, h.tracked]
  ageing := h.ageing.older fun k _ => age_of_not_renews (by simp [renews])

/-- An access to an LRU evictor brings the key to the front. -/
theorem accessedItem_lru (h : Represents .lru calls e) {key : Str} (hkey : Tracked calls key) :
    ∃ e', LRUEvictor.accessedItem e key = .ok e' ∧
      Represents .lru (calls ++ [.accessedItem key]) e' := by
  obtain ⟨e', he, hl, hv⟩ := LRUEvictor.accessedItem_linked h.linked key
  refine ⟨e', he, hl, ?_, ?_⟩
  · intro k
    rw [tracked_accessed, hv, List.mem_cons, h.linked.nodup.mem_erase_iff, h.tracked]
    by_cases hk : k = key
    · simp [hk, hkey]
    · simp [hk]
  · rw [hv]
    refine (h.ageing.sublist List.erase_sublist).cons (age_of_renews (by simp [renews])) ?_
    intro k hk
    have hne : key ≠ k := fun heq => h.linked.nodup.not_mem_erase (heq ▸ hk)
    exact age_of_not_renews (by simp [renews, hne])

/-- A permitted call succeeds, and list and map represent the longer history. -/
theorem call (h : Represents P calls e) {c : EvictorCall} (hc : P.admits calls c) :
    ∃ e', P.call e c = .ok e' ∧ Represents P (calls ++ [c]) e' := by
  cases c with
  | addedItem key => exact ⟨e.addedItem key, rfl, h.addedItem (by cases P <;> exact hc)⟩
  | accessedItem key =>
    cases P with
    | fifo => exact ⟨e, rfl, h.accessedItem_fifo key⟩
    | lru => exact h.accessedItem_lru hc
  | deletedItem key => exact h.deletedItem key

/-- Every permitted sequence of calls succeeds, and list and map represent it. -/
theorem run (P : Policy) {calls : List EvictorCall} (h : Admitted P.admits calls) :
    ∃ e, P.run calls = .ok e ∧ Represents P calls e := by
  induction calls using List.reverseRecOn with
  | nil => exact ⟨.empty, rfl, Represents.new P⟩
  | append_singleton calls c ih =>
    obtain ⟨hcalls, hc⟩ := admitted_snoc.mp h
    obtain ⟨e, he, hr⟩ := ih hcalls
    obtain ⟨e', he', hr'⟩ := hr.call hc
    exact ⟨e', (run_snoc he c).trans he', hr'⟩

/-- Where a key is tracked there is an evict target: it is tracked, and any other tracked key is
younger. -/
theorem getEvictTarget (h : Represents P calls e) {key : Str} (hkey : Tracked calls key) :
    ∃ target, e.getEvictTarget = .ok target ∧ Tracked calls target ∧
      ∀ k, Tracked calls k → k ≠ target → P.age calls k < P.age calls target := by
  have hne : e.keyList.values ≠ [] := List.ne_nil_of_mem ((h.tracked key).mpr hkey)
  have hlast := List.getLast?_eq_some_getLast hne
  refine ⟨_, KeyQueue.getEvictTarget_eq_ok.mpr hlast,
    (h.tracked _).mp (List.getLast_mem hne), ?_⟩
  intro k hk hkt
  exact h.ageing.oldest hlast k ((h.tracked k).mpr hk) hkt

end Represents

/-- After every sequence of calls in which only untracked keys are added and, for LRU, only
tracked keys are accessed, the list and the map agree, so that no stored iterator dangles, they
hold the tracked keys, and the evict target is the tracked key of the greatest age: for FIFO it
was added the longest ago, for LRU added or accessed the longest ago. -/
theorem evictors_implement_policies (P : Policy) {calls : List EvictorCall}
    (h : Admitted P.admits calls) :
    ∃ e, P.run calls = .ok e ∧ e.Linked ∧ (∀ key, key ∈ e.keyMap ↔ Tracked calls key) ∧
      ∀ key, Tracked calls key → ∃ target, e.getEvictTarget = .ok target ∧
        Tracked calls target ∧
        ∀ k, Tracked calls k → k ≠ target → P.age calls k < P.age calls target := by
  obtain ⟨e, he, hr⟩ := Represents.run P h
  refine ⟨e, he, hr.linked, ?_, fun key hkey => hr.getEvictTarget hkey⟩
  intro key
  rw [hr.linked.tracked, hr.tracked]

/-- Three keys are added, the middle one is erased and added again, and the oldest is accessed. -/
def reinsertion : List EvictorCall :=
  [.addedItem (str "a"), .addedItem (str "b"), .addedItem (str "c"), .deletedItem (str "b"),
    .addedItem (str "b"), .accessedItem (str "a")]

theorem evictors_implement_policies_reinsertion :
    ∃ e, Policy.lru.run reinsertion = .ok e ∧ e.Linked ∧
      (∀ key, key ∈ e.keyMap ↔ Tracked reinsertion key) ∧
      ∀ key, Tracked reinsertion key → ∃ target, e.getEvictTarget = .ok target ∧
        Tracked reinsertion target ∧ ∀ k, Tracked reinsertion k → k ≠ target →
          Policy.lru.age reinsertion k < Policy.lru.age reinsertion target :=
  evictors_implement_policies .lru (by decide)

-- the access counts for LRU only
example : (Policy.fifo.run reinsertion >>= KeyQueue.getEvictTarget) = .ok (str "a") ∧
    (Policy.lru.run reinsertion >>= KeyQueue.getEvictTarget) = .ok (str "c") := ⟨rfl, rfl⟩

end Policy

end NetCache
