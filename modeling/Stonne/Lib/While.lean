import Mathlib.Tactic

/-!
# While loops

`whileLoop` repeats a step as long as a test holds, with a bound on the number of rounds.
An invariant of the step holds after the loop, where the test fails, and a measure that
falls gives a bound with which the loop ends.
-/

namespace Dataflow

variable {σ : Type*} {continues : σ → Bool} {step : σ → σ} {I : σ → Prop}

/-- The state after the loop, if `fuel` rounds are enough. -/
def whileLoop (continues : σ → Bool) (step : σ → σ) : Nat → σ → Option σ
  | 0, s => if continues s then none else some s
  | fuel + 1, s => if continues s then whileLoop continues step fuel (step s) else some s

/-- The invariant rule. -/
theorem whileLoop_invariant (hStep : ∀ s, continues s = true → I s → I (step s)) {fuel : Nat}
    {s s' : σ} (hInit : I s) (h : whileLoop continues step fuel s = some s') :
    I s' ∧ continues s' = false := by
  induction fuel generalizing s with
  | zero =>
      rw [whileLoop] at h
      split at h
      · cases h
      · rename_i hEnd
        obtain rfl := Option.some.inj h
        exact ⟨hInit, Bool.eq_false_iff.mpr hEnd⟩
  | succ fuel ih =>
      rw [whileLoop] at h
      split at h
      · rename_i hAgain
        exact ih (hStep s hAgain hInit) h
      · rename_i hEnd
        obtain rfl := Option.some.inj h
        exact ⟨hInit, Bool.eq_false_iff.mpr hEnd⟩

/-- A measure that falls in every round bounds the rounds. -/
theorem exists_whileLoop (measure : σ → Nat) (hStep : ∀ s, continues s = true → I s → I (step s))
    (hFalls : ∀ s, continues s = true → I s → measure (step s) < measure s) {fuel : Nat} {s : σ}
    (hInit : I s) (hFuel : measure s ≤ fuel) :
    ∃ s', whileLoop continues step fuel s = some s' := by
  induction fuel generalizing s with
  | zero =>
      rw [whileLoop]
      split
      · rename_i hAgain
        have hLess := hFalls s hAgain hInit
        omega
      · exact ⟨s, rfl⟩
  | succ fuel ih =>
      rw [whileLoop]
      split
      · rename_i hAgain
        have hLess := hFalls s hAgain hInit
        exact ih (hStep s hAgain hInit) (by omega)
      · exact ⟨s, rfl⟩

end Dataflow
