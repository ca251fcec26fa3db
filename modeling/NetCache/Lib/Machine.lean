import NetCache.Lib.Loop

/-!
# Runs of a fallible machine

A machine is a step function from a state and an input to a new state and an output, which may
fail. `Machine.run` feeds it a list of inputs and collects the outputs. `run_cons_ok` takes a run
apart at its first step, and `run_invariant` lifts what every step preserves to runs.
-/

namespace Lib.Machine

variable {σ ι ο : Type u} {ε : Type v}

/-- The final state and the outputs of `step` on a list of inputs, from `s`. -/
def run (step : σ → ι → Except ε (σ × ο)) : σ → List ι → Except ε (σ × List ο)
  | s, [] => .ok (s, [])
  | s, i :: is => do
      let (s, o) ← step s i
      let (s, os) ← run step s is
      .ok (s, o :: os)

variable {step : σ → ι → Except ε (σ × ο)}

theorem run_cons_ok {s t : σ} {i : ι} {is : List ι} {os : List ο} :
    run step s (i :: is) = .ok (t, os) ↔
      ∃ s' o os', step s i = .ok (s', o) ∧ run step s' is = .ok (t, os') ∧ os = o :: os' := by
  simp only [run, bind_eq_ok, Prod.exists, Except.ok.injEq, Prod.mk.injEq]
  constructor
  · rintro ⟨s', o, hs, t', os', hr, rfl, rfl⟩
    exact ⟨s', o, os', hs, hr, rfl⟩
  · rintro ⟨s', o, os', hs, hr, rfl⟩
    exact ⟨s', o, hs, t, os', hr, rfl, rfl⟩

/-- A run may be continued. -/
theorem run_append_ok {s t u : σ} {is js : List ι} {os ps : List ο}
    (h₁ : run step s is = .ok (t, os)) (h₂ : run step t js = .ok (u, ps)) :
    run step s (is ++ js) = .ok (u, os ++ ps) := by
  induction is generalizing s os with
  | nil => cases h₁; exact h₂
  | cons i is ih =>
    obtain ⟨s', o, os', hs, hr, rfl⟩ := run_cons_ok.mp h₁
    exact run_cons_ok.mpr ⟨s', o, _, hs, ih hr, rfl⟩

/-- A run has gone through its first part. -/
theorem run_of_append {s u : σ} {is js : List ι} {rs : List ο}
    (h : run step s (is ++ js) = .ok (u, rs)) :
    ∃ t os ps, run step s is = .ok (t, os) ∧ run step t js = .ok (u, ps) ∧ rs = os ++ ps := by
  induction is generalizing s rs with
  | nil => exact ⟨s, [], rs, rfl, h, rfl⟩
  | cons i is ih =>
    obtain ⟨s', o, os', hs, hr, rfl⟩ := run_cons_ok.mp h
    obtain ⟨t, os, ps, his, hjs, rfl⟩ := ih hr
    exact ⟨t, o :: os, ps, run_cons_ok.mpr ⟨s', o, os, hs, his, rfl⟩, hjs, rfl⟩

/-- What every step preserves, every run preserves. -/
theorem run_invariant {Inv : σ → Prop}
    (hstep : ∀ s i s' o, Inv s → step s i = .ok (s', o) → Inv s') {s t : σ} {is : List ι}
    {os : List ο} (hs : Inv s) (h : run step s is = .ok (t, os)) : Inv t := by
  induction is generalizing s os with
  | nil => cases h; exact hs
  | cons i is ih =>
    obtain ⟨s', o, os', h₁, h₂, -⟩ := run_cons_ok.mp h
    exact ih (hstep s i s' o hs h₁) h₂

/-- Two machines in step: where related states answer alike and stay related, the second machine
follows every run of the first, with the same outputs. -/
theorem run_follows {τ : Type u} {ζ : Type w} {step' : τ → ι → Except ζ (τ × ο)}
    (R : σ → τ → Prop)
    (hstep : ∀ s u i s' o, R s u → step s i = .ok (s', o) →
      ∃ u', step' u i = .ok (u', o) ∧ R s' u')
    {s t : σ} {u : τ} {is : List ι} {os : List ο} (hsu : R s u) (h : run step s is = .ok (t, os)) :
    ∃ v, run step' u is = .ok (v, os) ∧ R t v := by
  induction is generalizing s u os with
  | nil => cases h; exact ⟨u, rfl, hsu⟩
  | cons i is ih =>
    obtain ⟨s', o, os', hs, hr, rfl⟩ := run_cons_ok.mp h
    obtain ⟨u', hu, hsu'⟩ := hstep s u i s' o hsu hs
    obtain ⟨v, hv, htv⟩ := ih hsu' hr
    exact ⟨v, run_cons_ok.mpr ⟨u', o, os', hu, hv, rfl⟩, htv⟩

/-- A machine whose states have a part that its steps act on as another machine does. -/
theorem run_map {τ : Type u} {step' : τ → ι → Except ε (τ × ο)} (f : σ → τ)
    (hstep : ∀ s i, (step s i).map (Prod.map f id) = step' (f s) i) (s : σ) (is : List ι) :
    (run step s is).map (Prod.map f id) = run step' (f s) is := by
  induction is generalizing s with
  | nil => rfl
  | cons i is ih =>
    unfold run
    rw [← hstep]
    cases step s i with
    | error e => rfl
    | ok r =>
      simp only [ok_bind, ok_map, Prod.map_fst, ← ih]
      cases run step r.1 is <;> rfl

end Lib.Machine
