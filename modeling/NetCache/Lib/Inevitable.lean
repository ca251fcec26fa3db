import Mathlib.Logic.Relation

/-!
# What cannot be avoided

`Inevitable r P s` says that from `s`, whichever steps of `r` are taken, a state with `P` comes:
as long as there is none, some step is possible, and each possible step leads closer. It needs no
fairness, and a variant that every step lowers proves it (`Inevitable.of_variant`).
-/

namespace Lib

variable {σ : Type u}

/-- Every way of going on from a state meets `P`. -/
inductive Inevitable (r : σ → σ → Prop) (P : σ → Prop) : σ → Prop
  | now {s : σ} (h : P s) : Inevitable r P s
  | later {s : σ} (hstep : ∃ t, r s t) (h : ∀ t, r s t → Inevitable r P t) : Inevitable r P s

namespace Inevitable

variable {r : σ → σ → Prop} {P Q : σ → Prop} {s : σ}

theorem mono (h : Inevitable r P s) (hPQ : ∀ s, P s → Q s) : Inevitable r Q s := by
  induction h with
  | now hP => exact .now (hPQ _ hP)
  | later hstep _ ih => exact .later hstep ih

/-- It is met along some steps. -/
theorem exists_reach (h : Inevitable r P s) : ∃ t, Relation.ReflTransGen r s t ∧ P t := by
  induction h with
  | now hP => exact ⟨_, .refl, hP⟩
  | later hstep _ ih =>
    obtain ⟨t, hst⟩ := hstep
    obtain ⟨u, htu, hu⟩ := ih t hst
    exact ⟨u, .head hst htu, hu⟩

/-- If, where `P` does not hold, some step is possible and every step keeps the invariant and
lowers the variant, then `P` cannot be avoided. -/
theorem of_variant (Inv : σ → Prop) (variant : σ → Nat)
    (hprogress : ∀ s, Inv s → ¬ P s → (∃ t, r s t) ∧ ∀ t, r s t → Inv t ∧ variant t < variant s)
    (hs : Inv s) : Inevitable r P s := by
  induction hn : variant s using Nat.strongRecOn generalizing s with
  | ind n ih =>
    by_cases hP : P s
    · exact .now hP
    · obtain ⟨hstep, hall⟩ := hprogress s hs hP
      refine .later hstep ?_
      intro t hst
      obtain ⟨ht, hlt⟩ := hall t hst
      exact ih (variant t) (hn ▸ hlt) ht rfl

end Inevitable

end Lib
