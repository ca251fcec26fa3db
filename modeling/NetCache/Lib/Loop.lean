import Mathlib.Logic.Relation

/-!
# Fallible `while` loops

A loop over a state `σ` whose test and body may fail with an error in `ε`. `Loop.run` executes
it with a bound on the number of iterations and reports `stuck` when the bound is used up while
the test still holds, so that "the loop ends" is a statement about the result. `Loop.Visits` is
the relation between the entry state and the states in which the test is evaluated.
`Loop.run_total` is the total-correctness rule: an invariant under which test and body succeed,
and a variant that every iteration lowers.
-/

namespace Lib

section Results

variable {ε : Type*} {α β : Type u}

@[simp] theorem ok_bind (a : α) (f : α → Except ε β) : (Except.ok a >>= f) = f a := rfl

@[simp] theorem error_bind (e : ε) (f : α → Except ε β) :
    ((Except.error e : Except ε α) >>= f) = .error e := rfl

@[simp] theorem ok_map (a : α) (f : α → β) : (Except.ok a : Except ε α).map f = .ok (f a) := rfl

@[simp] theorem error_map (e : ε) (f : α → β) :
    (Except.error e : Except ε α).map f = .error e := rfl

/-- A sequence that succeeds is a first part that succeeds and a second that does. -/
theorem bind_eq_ok {x : Except ε α} {f : α → Except ε β} {b : β} :
    (x >>= f) = .ok b ↔ ∃ a, x = .ok a ∧ f a = .ok b := by
  cases x with
  | error e => simp
  | ok a => simp

/-- A sequence fails in its first part, or in its second after a first that succeeds. -/
theorem bind_eq_error {x : Except ε α} {f : α → Except ε β} {e : ε} :
    (x >>= f) = .error e ↔ x = .error e ∨ ∃ a, x = .ok a ∧ f a = .error e := by
  cases x with
  | error e' => simp
  | ok a => simp

theorem map_eq_ok {x : Except ε α} {f : α → β} {b : β} :
    x.map f = .ok b ↔ ∃ a, x = .ok a ∧ f a = b := by
  cases x with
  | error e => simp
  | ok a => simp

theorem map_eq_error {x : Except ε α} {f : α → β} {e : ε} :
    x.map f = .error e ↔ x = .error e := by
  cases x with
  | error e' => simp
  | ok a => simp

end Results

namespace Loop

variable {σ : Type u} {ε : Type v}

/-- `while (guard s) s = body s;` with at most `fuel` iterations. -/
def run (stuck : ε) (guard : σ → Except ε Bool) (body : σ → Except ε σ) : Nat → σ → Except ε σ
  | 0, s =>
      match guard s with
      | .error e => .error e
      | .ok true => .error stuck
      | .ok false => .ok s
  | fuel + 1, s =>
      match guard s with
      | .error e => .error e
      | .ok true =>
          match body s with
          | .error e => .error e
          | .ok s' => run stuck guard body fuel s'
      | .ok false => .ok s

/-- One iteration leads from `s` to `t`. -/
def Iterates (guard : σ → Except ε Bool) (body : σ → Except ε σ) (s t : σ) : Prop :=
  guard s = .ok true ∧ body s = .ok t

/-- The test is evaluated in `t` by the loop entered in `s`. -/
def Visits (guard : σ → Except ε Bool) (body : σ → Except ε σ) : σ → σ → Prop :=
  Relation.ReflTransGen (Iterates guard body)

variable {stuck : ε} {guard : σ → Except ε Bool} {body : σ → Except ε σ}

theorem run_done {s : σ} (h : guard s = .ok false) (fuel : Nat) :
    run stuck guard body fuel s = .ok s := by
  cases fuel <;> simp [run, h]

theorem run_step {s t : σ} (h : Iterates guard body s t) (fuel : Nat) :
    run stuck guard body (fuel + 1) s = run stuck guard body fuel t := by
  simp [run, h.1, h.2]

/-- An invariant of the body holds wherever the test is evaluated. -/
theorem Visits.invariant (Inv : σ → Prop)
    (hbody : ∀ s t, Inv s → Iterates guard body s t → Inv t) {s t : σ}
    (hst : Visits guard body s t) (hs : Inv s) : Inv t := by
  induction hst with
  | refl => exact hs
  | tail _ hbc ih => exact hbody _ _ ih hbc

/-- A loop that returns has stopped in a visited state where the test fails. -/
theorem run_ok {fuel : Nat} {s t : σ} (h : run stuck guard body fuel s = .ok t) :
    Visits guard body s t ∧ guard t = .ok false := by
  induction fuel generalizing s with
  | zero =>
    unfold run at h
    split at h
    · cases h
    · cases h
    · rename_i hg
      cases h
      exact ⟨.refl, hg⟩
  | succ fuel ih =>
    unfold run at h
    split at h
    · cases h
    · rename_i hg
      split at h
      · cases h
      · rename_i s' hb
        obtain ⟨hv, hd⟩ := ih h
        exact ⟨.head ⟨hg, hb⟩ hv, hd⟩
    · rename_i hg
      cases h
      exact ⟨.refl, hg⟩

/-- Total correctness: under an invariant that makes test and body succeed and a variant that
every iteration lowers, any fuel from the variant on gives a result. -/
theorem run_total (stuck : ε) (Inv : σ → Prop) (variant : σ → Nat)
    (hguard : ∀ s, Inv s → ∃ b, guard s = .ok b)
    (hbody : ∀ s, Inv s → guard s = .ok true →
      ∃ t, body s = .ok t ∧ Inv t ∧ variant t < variant s)
    {fuel : Nat} {s : σ} (hs : Inv s) (hfuel : variant s ≤ fuel) :
    ∃ t, run stuck guard body fuel s = .ok t ∧ Inv t ∧ guard t = .ok false := by
  induction fuel generalizing s with
  | zero =>
    obtain ⟨b, hb⟩ := hguard s hs
    cases b with
    | false => exact ⟨s, run_done hb 0, hs, hb⟩
    | true =>
      obtain ⟨t, -, -, hlt⟩ := hbody s hs hb
      omega
  | succ fuel ih =>
    obtain ⟨b, hb⟩ := hguard s hs
    cases b with
    | false => exact ⟨s, run_done hb _, hs, hb⟩
    | true =>
      obtain ⟨t, ht, hinv, hlt⟩ := hbody s hs hb
      rw [run_step ⟨hb, ht⟩]
      exact ih hinv (by omega)

/-- Two loops in step: where related states pass the same test and related bodies lead to related
states, the second loop follows the first to its end. -/
theorem run_follows {τ : Type w} {ζ : Type x} {stuck' : ζ} {guard' : τ → Except ζ Bool}
    {body' : τ → Except ζ τ} (R : σ → τ → Prop)
    (hguard : ∀ s u b, R s u → guard s = .ok b → guard' u = .ok b)
    (hbody : ∀ s s' u, R s u → guard s = .ok true → body s = .ok s' →
      ∃ u', body' u = .ok u' ∧ R s' u')
    {fuel : Nat} {s t : σ} {u : τ} (hsu : R s u) (h : run stuck guard body fuel s = .ok t) :
    ∃ v, run stuck' guard' body' fuel u = .ok v ∧ R t v := by
  induction fuel generalizing s u with
  | zero =>
    unfold run at h
    split at h
    · cases h
    · cases h
    · rename_i hdone
      cases h
      exact ⟨u, run_done (hguard _ u _ hsu hdone) 0, hsu⟩
  | succ fuel ih =>
    unfold run at h
    split at h
    · cases h
    · rename_i hg
      split at h
      · cases h
      · rename_i s' hb
        obtain ⟨u', hu', hsu'⟩ := hbody _ _ u hsu hg hb
        rw [run_step ⟨hguard _ u _ hsu hg, hu'⟩]
        exact ih hsu' h
    · rename_i hdone
      cases h
      exact ⟨u, run_done (hguard _ u _ hsu hdone) _, hsu⟩

/-- A loop whose states have a part that its test and its body act on as another loop does. -/
theorem run_map {τ : Type u} {guard' : τ → Except ε Bool} {body' : τ → Except ε τ} (f : σ → τ)
    (hguard : ∀ s, guard s = guard' (f s)) (hbody : ∀ s, (body s).map f = body' (f s)) (fuel : Nat)
    (s : σ) : (run stuck guard body fuel s).map f = run stuck guard' body' fuel (f s) := by
  induction fuel generalizing s with
  | zero =>
    unfold run
    rw [← hguard]
    rcases guard s with e | b
    · rfl
    · cases b <;> rfl
  | succ fuel ih =>
    unfold run
    rw [← hguard, ← hbody]
    rcases guard s with e | b
    · rfl
    · cases b with
      | false => rfl
      | true =>
        cases body s with
        | error e => rfl
        | ok t => exact ih t

/-- And the states that it visits are, in this part, those that the other loop visits. -/
theorem Visits.map {τ : Type w} {guard' : τ → Except ε Bool} {body' : τ → Except ε τ} (f : σ → τ)
    (hiter : ∀ s t, Iterates guard body s t → Iterates guard' body' (f s) (f t)) {s t : σ}
    (h : Visits guard body s t) : Visits guard' body' (f s) (f t) :=
  Relation.ReflTransGen.lift f hiter s t h

end Loop

end Lib
