import Mathlib.Data.List.Nodup

/-!
# Histories and ages

A history is the list of the events so far, the latest one last. `since p h` counts the events
after the last one with `p`, so of two kinds of events the one with the larger count happened
longer ago. `Ageing` lists keys from the youngest to the oldest; it survives what a queue does in
one event: everything ages by one, keys leave, and a key of age 0 comes first.
-/

namespace Lib.History

variable {ε : Type u} {K : Type v}

/-- The number of events after the last one with `p`; all of them where there is none. -/
def since (p : ε → Bool) (h : List ε) : Nat := h.reverse.findIdx p

/-- The last event with `p`. -/
def latest (p : ε → Bool) (h : List ε) : Option ε := h.reverse.find? p

theorem since_snoc_of_pos {p : ε → Bool} {a : ε} (ha : p a = true) (h : List ε) :
    since p (h ++ [a]) = 0 := by
  simp [since, List.findIdx_cons, ha]

theorem since_snoc_of_neg {p : ε → Bool} {a : ε} (ha : p a = false) (h : List ε) :
    since p (h ++ [a]) = since p h + 1 := by
  simp [since, List.findIdx_cons, ha]

@[simp] theorem latest_nil (p : ε → Bool) : latest p [] = none := rfl

theorem latest_snoc_of_pos {p : ε → Bool} {a : ε} (ha : p a = true) (h : List ε) :
    latest p (h ++ [a]) = some a := by
  simp [latest, ha]

theorem latest_snoc_of_neg {p : ε → Bool} {a : ε} (ha : p a = false) (h : List ε) :
    latest p (h ++ [a]) = latest p h := by
  simp [latest, ha]

/-- Every event is one that `admits` allows after those before it. -/
def Admitted (admits : List ε → ε → Prop) (h : List ε) : Prop :=
  ∀ n (hn : n < h.length), admits (h.take n) h[n]

instance (admits : List ε → ε → Prop) [∀ h a, Decidable (admits h a)] (h : List ε) :
    Decidable (Admitted admits h) :=
  inferInstanceAs (Decidable (∀ n (hn : n < h.length), admits (h.take n) h[n]))

theorem admitted_snoc {admits : List ε → ε → Prop} {h : List ε} {a : ε} :
    Admitted admits (h ++ [a]) ↔ Admitted admits h ∧ admits h a := by
  constructor
  · intro hall
    refine ⟨?_, ?_⟩
    · intro n hn
      have hlen : n < (h ++ [a]).length := by simp only [List.length_append]; omega
      have hnth := hall n hlen
      rwa [List.take_append_of_le_length (Nat.le_of_lt hn), List.getElem_append_left hn] at hnth
    · have hlast := hall h.length (by simp)
      simpa using hlast
  · rintro ⟨hall, hlast⟩ n hn
    rcases Nat.lt_or_ge n h.length with hlt | hge
    · rw [List.take_append_of_le_length (Nat.le_of_lt hlt), List.getElem_append_left hlt]
      exact hall n hlt
    · obtain rfl : n = h.length := by simp at hn; omega
      simpa using hlast

/-- The keys stand from the youngest to the oldest, all of different age. -/
def Ageing (age : K → Nat) (l : List K) : Prop := l.Pairwise (age · < age ·)

namespace Ageing

variable {age age' : K → Nat} {l : List K}

theorem sublist (h : Ageing age l) {l' : List K} (hl : l'.Sublist l) : Ageing age l' :=
  List.Pairwise.sublist hl h

/-- One event later every listed key is older by one. -/
theorem older (h : Ageing age l) (hage : ∀ k ∈ l, age' k = age k + 1) : Ageing age' l := by
  refine List.Pairwise.imp_of_mem ?_ h
  intro a b ha hb hlt
  rw [hage a ha, hage b hb]
  exact Nat.succ_lt_succ hlt

/-- A key of age 0 goes in front of keys that are older by one. -/
theorem cons (h : Ageing age l) {key : K} (hkey : age' key = 0)
    (hage : ∀ k ∈ l, age' k = age k + 1) : Ageing age' (key :: l) := by
  refine List.pairwise_cons.mpr ⟨?_, h.older hage⟩
  intro k hk
  rw [hkey, hage k hk]
  exact Nat.succ_pos _

/-- The last key is the oldest. -/
theorem oldest (h : Ageing age l) {key : K} (hkey : l.getLast? = some key) :
    ∀ k ∈ l, k ≠ key → age k < age key := by
  obtain ⟨pre, rfl⟩ := List.getLast?_eq_some_iff.mp hkey
  intro k hk hne
  have hpre : k ∈ pre := by simpa [hne] using hk
  exact (List.pairwise_append.mp h).2.2 k hpre key List.mem_cons_self

/-- What is not among the first keys is older than each of them. -/
theorem of_take (h : Ageing age l) {n : Nat} {k k' : K} (hk' : k' ∈ l.take n) (hk : k ∈ l)
    (hgone : k ∉ l.take n) : age k' < age k := by
  have hdrop : k ∈ l.drop n := by
    rw [← List.take_append_drop n l] at hk
    exact (List.mem_append.mp hk).resolve_left hgone
  rw [Ageing, ← List.take_append_drop n l] at h
  exact (List.pairwise_append.mp h).2.2 k' hk' k hdrop

end Ageing

end Lib.History
