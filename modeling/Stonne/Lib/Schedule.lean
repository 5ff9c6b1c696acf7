import Mathlib.Tactic

/-!
# Runs under a schedule

A machine that works with an environment takes an input in every step.  What every step keeps
holds in the whole run, whatever the inputs are.  And a run is over some time when a measure
falls: in a step of the machine, or in the step in which it gets the input it waits for.
-/

namespace Dataflow

variable {σ α : Type*}

/-- The states of a run with an input for every step. -/
def scheduled (step : σ → α → σ) (inputs : Nat → α) (init : σ) : Nat → σ
  | 0 => init
  | t + 1 => step (scheduled step inputs init t) (inputs t)

section

variable {step : σ → α → σ} {inputs : Nat → α} {init : σ} {measure : σ → Nat}

theorem scheduled_invariant {I : σ → Prop} (hInit : I init)
    (hStep : ∀ s a, I s → I (step s a)) (t : Nat) : I (scheduled step inputs init t) := by
  induction t with
  | zero => exact hInit
  | succ t ih => exact hStep _ _ ih

/-- A measure that falls again and again until the goal is reached. -/
theorem exists_of_descent {Q : σ → Prop}
    (h : ∀ t, ¬Q (scheduled step inputs init t) → ∃ t' ≥ t,
      measure (scheduled step inputs init t') < measure (scheduled step inputs init t)) :
    ∃ t, Q (scheduled step inputs init t) := by
  have hAll : ∀ k t, measure (scheduled step inputs init t) = k →
      ∃ t, Q (scheduled step inputs init t) := by
    intro k
    induction k using Nat.strong_induction_on with
    | _ k ih =>
        rintro t rfl
        by_cases hQ : Q (scheduled step inputs init t)
        · exact ⟨t, hQ⟩
        · obtain ⟨t', -, hLess⟩ := h t hQ
          exact ih _ hLess t' rfl
  exact hAll _ 0 rfl

/-- A state that waits for an input keeps its measure until the input comes. -/
theorem exists_descent_of_fair {waits : σ → Prop} {wakes : α → Prop}
    (hStays : ∀ s a, waits s → measure (step s a) < measure s ∨
      waits (step s a) ∧ measure (step s a) = measure s)
    (hWakes : ∀ s a, waits s → wakes a → measure (step s a) < measure s) {t : Nat}
    (hWaits : waits (scheduled step inputs init t)) (hFair : ∃ t' ≥ t, wakes (inputs t')) :
    ∃ t' ≥ t, measure (scheduled step inputs init t') < measure (scheduled step inputs init t) := by
  obtain ⟨t', hLater, hWake⟩ := hFair
  obtain ⟨d, rfl⟩ := Nat.exists_eq_add_of_le hLater
  clear hLater
  induction d generalizing t with
  | zero => exact ⟨t + 1, Nat.le_succ t, hWakes _ _ hWaits hWake⟩
  | succ d ih =>
      rcases hStays _ (inputs t) hWaits with hLess | ⟨hStill, hSame⟩
      · exact ⟨t + 1, Nat.le_succ t, hLess⟩
      · have hNext : waits (scheduled step inputs init (t + 1)) := hStill
        obtain ⟨t', hAfter, hLess⟩ := ih hNext (by rwa [Nat.add_right_comm])
        refine ⟨t', by omega, ?_⟩
        rwa [← hSame]

end

end Dataflow
