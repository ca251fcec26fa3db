import NetCache.Lib.Recency
import Mathlib.Data.List.Induction

/-!
# Stores that forget

A store of bounded size may lose an entry at any time, but the entries that it still has should be
what was last put there. `Update` is what one call does to a map without a bound, and `replay` is
the map that a history of updates leads to. Updates are monotone (`Within.apply`), so a store that
with every step loses entries at most stays within the replay of its history.
-/

namespace Lib.Replay

open Recency

variable {K : Type u} {V : Type v} [DecidableEq K]

/-- What a call does to a map. -/
inductive Update (K : Type u) (V : Type v) where
  | put (k : K) (v : V)
  | drop (k : K)
  | keep
  deriving DecidableEq

/-- Neither puts a value under `k` nor drops it. -/
def Update.Leaves (k : K) : Update K V → Prop
  | .put k' _ => k' ≠ k
  | .drop k' => k' ≠ k
  | .keep => True

instance (k : K) : DecidablePred (Update.Leaves (V := V) k)
  | .put .. => inferInstanceAs (Decidable (_ ≠ _))
  | .drop _ => inferInstanceAs (Decidable (_ ≠ _))
  | .keep => inferInstanceAs (Decidable True)

/-- The map after an update. -/
def Update.apply : Update K V → Table K V → Table K V
  | .put k v, m => m.insert k v
  | .drop k, m => m.erase k
  | .keep, m => m

/-- The map that a list of updates leads to, from the empty map on. -/
def replay (us : List (Update K V)) : Table K V := us.foldl (fun m u => u.apply m) ∅

theorem replay_snoc (us : List (Update K V)) (u : Update K V) :
    replay (us ++ [u]) = u.apply (replay us) := by
  simp [replay, List.foldl_append]

theorem Update.lookup_apply_of_leaves {k : K} {u : Update K V} (h : u.Leaves k) (m : Table K V) :
    (u.apply m).lookup k = m.lookup k := by
  cases u with
  | put k' v => exact AList.lookup_insert_ne (Ne.symm h)
  | drop k' => exact AList.lookup_erase_ne (Ne.symm h)
  | keep => rfl

/-- An entry of the replay is what was last put under its key, and was not dropped since. -/
theorem lookup_replay {us : List (Update K V)} {k : K} {v : V} (h : (replay us).lookup k = some v) :
    ∃ before after, us = before ++ .put k v :: after ∧ ∀ u ∈ after, u.Leaves k := by
  induction us using List.reverseRecOn with
  | nil => cases h
  | append_singleton us u ih =>
    rw [replay_snoc] at h
    by_cases hleaves : u.Leaves k
    · rw [Update.lookup_apply_of_leaves hleaves] at h
      rcases ih h with ⟨before, after, rfl, hafter⟩
      refine ⟨before, after ++ [u], by simp, ?_⟩
      intro u' hu'
      rcases List.mem_append.mp hu' with hold | hnew
      · exact hafter u' hold
      · rwa [List.mem_singleton.mp hnew]
    · cases u with
      | keep => exact absurd trivial hleaves
      | put k' v' =>
        obtain rfl : k' = k := not_not.mp hleaves
        rw [Update.apply, AList.lookup_insert] at h
        cases h
        exact ⟨us, [], rfl, nofun⟩
      | drop k' =>
        obtain rfl : k' = k := not_not.mp hleaves
        rw [Update.apply, AList.lookup_erase] at h
        cases h

/-- Every entry of `m` is an entry of `n`. -/
def Within (m n : Table K V) : Prop := ∀ k v, m.lookup k = some v → n.lookup k = some v

namespace Within

variable {l m n : Table K V}

theorem refl (m : Table K V) : Within m m := fun _ _ h => h

theorem trans (h : Within l m) (h' : Within m n) : Within l n := fun k v hk => h' k v (h k v hk)

theorem erase (k : K) (m : Table K V) : Within (m.erase k) m := by
  intro k' v hv
  by_cases hk : k' = k
  · subst hk
    rw [AList.lookup_erase] at hv
    cases hv
  · rwa [AList.lookup_erase_ne hk] at hv

theorem shrink (full : Table K V → Bool) (m : Table K V) : Within (shrink full m) m :=
  fun _ _ => lookup_newest

theorem insert (h : Within m n) (k : K) (v : V) : Within (m.insert k v) (n.insert k v) := by
  intro k' v' hv
  by_cases hk : k' = k
  · subst hk
    rwa [AList.lookup_insert] at hv ⊢
  · rw [AList.lookup_insert_ne hk] at hv ⊢
    exact h k' v' hv

theorem erase_erase (h : Within m n) (k : K) : Within (m.erase k) (n.erase k) := by
  intro k' v hv
  by_cases hk : k' = k
  · subst hk
    rw [AList.lookup_erase] at hv
    cases hv
  · rw [AList.lookup_erase_ne hk] at hv ⊢
    exact h k' v hv

/-- What is within a map before an update is within it after the same update. -/
theorem apply (h : Within m n) (u : Update K V) : Within (u.apply m) (u.apply n) := by
  cases u with
  | put k v => exact h.insert k v
  | drop k => exact h.erase_erase k
  | keep => exact h

/-- A step that loses entries at most stays within the history. -/
theorem snoc {us : List (Update K V)} {u : Update K V} (h : Within m (replay us))
    (hstep : Within l (u.apply m)) : Within l (replay (us ++ [u])) := by
  rw [replay_snoc]
  exact hstep.trans (h.apply u)

/-- Storing an entry loses others at most. -/
theorem store (full : Table K V → Bool) (k : K) (v : V) (m : Table K V) :
    Within (store full k v m) (m.insert k v) :=
  ((Within.shrink full (m.erase k)).trans (.erase k m)).insert k v

end Within

/-- The same entries, in whatever order. -/
def Same (m n : Table K V) : Prop := ∀ k, m.lookup k = n.lookup k

namespace Same

variable {m n : Table K V}

theorem perm (h : Same m n) : m.entries.Perm n.entries :=
  List.lookup_ext m.nodupKeys n.nodupKeys fun k v => by
    rw [show List.dlookup k m.entries = List.dlookup k n.entries from h k]

theorem apply (h : Same m n) (u : Update K V) : Same (u.apply m) (u.apply n) := by
  intro k
  cases u with
  | put k' v => exact AList.perm_lookup (AList.perm_insert h.perm)
  | drop k' => exact AList.perm_lookup (AList.perm_erase h.perm)
  | keep => exact h k

theorem weight (h : Same m n) (w : V → Nat) : weight w m = Recency.weight w n :=
  weight_perm h.perm

/-- Where nothing has to go, storing an entry loses none. -/
theorem store {full : Table K V → Bool} {k : K} {m : Table K V} (v : V)
    (h : full (m.erase k) = false) : Same (store full k v m) (m.insert k v) := by
  intro k'
  rw [Recency.store, shrink_of_not_full h]
  by_cases hk : k' = k
  · subst hk
    rw [AList.lookup_insert, AList.lookup_insert]
  · rw [AList.lookup_insert_ne hk, AList.lookup_erase_ne hk, AList.lookup_insert_ne hk]

end Same

end Lib.Replay
