import NetCache.Lib.Machine

/-!
# Fallible computations in lockstep

Two computations that may fail, each of which leads to a state and a result. `LockstepBy f R Q x y`
says that `y` does what `x` does: it fails with the fault of `x`, which `f` translates, or it ends
in a state that `R` relates to the one of `x`, with a result that `Q` relates to that of `x`. So `y`
has no faults of its own. It is kept by sequencing (`LockstepBy.bind`, `LockstepBy.lift`).
`Lockstep` asks for the same result, and is kept by the runs of two machines (`Lockstep.run`).
-/

namespace Lib

universe u v w

variable {ε : Type v} {ζ : Type w} {σ τ σ' τ' α β α' β' ι : Type u}

/-- `y` fails as `x` does or ends as `x` does. -/
inductive LockstepBy (f : ε → ζ) (R : σ → τ → Prop) (Q : α → β → Prop) :
    Except ε (σ × α) → Except ζ (τ × β) → Prop
  | error (e : ε) : LockstepBy f R Q (.error e) (.error (f e))
  | ok {s : σ} {t : τ} {a : α} {b : β} (h : R s t) (hab : Q a b) :
      LockstepBy f R Q (.ok (s, a)) (.ok (t, b))

namespace LockstepBy

variable {f : ε → ζ} {R : σ → τ → Prop} {R' : σ' → τ' → Prop} {Q : α → β → Prop}
  {Q' : α' → β' → Prop}

/-- One after the other. -/
theorem bind {x : Except ε (σ × α)} {y : Except ζ (τ × β)} {g : σ × α → Except ε (σ' × α')}
    {g' : τ × β → Except ζ (τ' × β')} (h : LockstepBy f R Q x y)
    (hg : ∀ s t a b, R s t → Q a b → LockstepBy f R' Q' (g (s, a)) (g' (t, b))) :
    LockstepBy f R' Q' (x >>= g) (y >>= g') := by
  cases h with
  | error e => exact .error e
  | ok hst hab => exact hg _ _ _ _ hst hab

/-- After a computation that touches neither state. -/
theorem lift {γ : Type u} (x : Except ε γ) {g : γ → Except ε (σ × α)} {g' : γ → Except ζ (τ × β)}
    (hg : ∀ c, LockstepBy f R Q (g c) (g' c)) :
    LockstepBy f R Q (x >>= g) (x.mapError f >>= g') := by
  cases x with
  | error e => exact .error e
  | ok c => exact hg c

/-- Where the second computation ends. -/
theorem of_ok {x : Except ε (σ × α)} {t : τ} {b : β} (h : LockstepBy f R Q x (.ok (t, b))) :
    ∃ s a, x = .ok (s, a) ∧ R s t ∧ Q a b := by
  cases h with
  | ok hst hab => exact ⟨_, _, rfl, hst, hab⟩

/-- Where it fails. -/
theorem of_error {x : Except ε (σ × α)} {z : ζ} (h : LockstepBy f R Q x (.error z)) :
    ∃ e, x = .error e ∧ z = f e := by
  cases h with
  | error e => exact ⟨e, rfl, rfl⟩

end LockstepBy

/-- `y` fails as `x` does or ends with the same result. -/
def Lockstep (f : ε → ζ) (R : σ → τ → Prop) (x : Except ε (σ × α)) (y : Except ζ (τ × α)) : Prop :=
  LockstepBy f R Eq x y

namespace Lockstep

variable {f : ε → ζ} {R : σ → τ → Prop} {R' : σ' → τ' → Prop}

theorem error (e : ε) :
    Lockstep f R (.error e : Except ε (σ × α)) (.error (f e)) := LockstepBy.error e

theorem ok {s : σ} {t : τ} (a : α) (h : R s t) : Lockstep f R (.ok (s, a)) (.ok (t, a)) :=
  LockstepBy.ok h rfl

/-- One after the other, where only the first has the same result. -/
theorem bindBy {Q : α' → β' → Prop} {x : Except ε (σ × α)} {y : Except ζ (τ × α)}
    {g : σ × α → Except ε (σ' × α')} {g' : τ × α → Except ζ (τ' × β')} (h : Lockstep f R x y)
    (hg : ∀ s t a, R s t → LockstepBy f R' Q (g (s, a)) (g' (t, a))) :
    LockstepBy f R' Q (x >>= g) (y >>= g') :=
  LockstepBy.bind h fun s t a _ hst hab => hab ▸ hg s t a hst

theorem bind {x : Except ε (σ × α)} {y : Except ζ (τ × α)} {g : σ × α → Except ε (σ' × β)}
    {g' : τ × α → Except ζ (τ' × β)} (h : Lockstep f R x y)
    (hg : ∀ s t a, R s t → Lockstep f R' (g (s, a)) (g' (t, a))) :
    Lockstep f R' (x >>= g) (y >>= g') :=
  h.bindBy hg

theorem lift (x : Except ε α) {g : α → Except ε (σ × β)} {g' : α → Except ζ (τ × β)}
    (hg : ∀ a, Lockstep f R (g a) (g' a)) : Lockstep f R (x >>= g) (x.mapError f >>= g') :=
  LockstepBy.lift x hg

/-- The runs of two machines whose steps are in lockstep. -/
theorem run {step : σ → ι → Except ε (σ × α)} {step' : τ → ι → Except ζ (τ × α)}
    (hstep : ∀ s t i, R s t → Lockstep f R (step s i) (step' t i)) {s : σ} {t : τ} (hst : R s t)
    (is : List ι) : Lockstep f R (Machine.run step s is) (Machine.run step' t is) := by
  induction is generalizing s t with
  | nil => exact .ok [] hst
  | cons i is ih =>
    refine (hstep s t i hst).bind fun s' t' o hst' => ?_
    exact (ih hst').bind fun s'' t'' os hst'' => .ok (o :: os) hst''

theorem of_ok {x : Except ε (σ × α)} {t : τ} {a : α} (h : Lockstep f R x (.ok (t, a))) :
    ∃ s, x = .ok (s, a) ∧ R s t := by
  obtain ⟨s, _, hx, hst, rfl⟩ := LockstepBy.of_ok h
  exact ⟨s, hx, hst⟩

theorem of_error {x : Except ε (σ × α)} {z : ζ} (h : Lockstep f R x (.error z)) :
    ∃ e, x = .error e ∧ z = f e := LockstepBy.of_error h

end Lockstep

end Lib
