import Stonne.Maeri.Vnat

/-!
# The phases of the weights

The memory sends the weights of all folds, then the activations of all windows that use
them, and so on for each filter, group and batch of the tile.  A phase is one such round;
the count of the weight iterations tells how far the loops have come.
-/

namespace Stonne

open Dataflow

namespace Iterations

/-- The input iterations of one phase. -/
def phaseLength (it : Iterations) : Nat :=
  it.folds * it.iterY * it.iterX

/-- The phases of a run. -/
def phases (it : Iterations) : Nat :=
  it.iterN * it.iterG * it.iterK

theorem steps_eq_phases (it : Iterations) : it.steps = it.phases * it.phaseLength := by
  rw [steps, positions, phases, phaseLength]
  ring

theorem Positive.phaseLength {it : Iterations} (hIt : it.Positive) : 0 < it.phaseLength :=
  Nat.mul_pos (Nat.mul_pos hIt.folds hIt.iterY) hIt.iterX

theorem Positive.phases {it : Iterations} (hIt : it.Positive) : 0 < it.phases :=
  Nat.mul_pos (Nat.mul_pos hIt.iterN hIt.iterG) hIt.iterK

end Iterations

namespace Counters

/-- The number of the phase of an iteration. -/
def phase (it : Iterations) (cnt : Counters) : Nat :=
  (cnt.currentN * it.iterG + cnt.currentG) * it.iterK + cnt.currentK

/-- The number of the fold of an iteration. -/
def fold (it : Iterations) (cnt : Counters) : Nat :=
  (cnt.currentC * it.iterR + cnt.currentR) * it.iterS + cnt.currentS

private theorem div_join (q b : Nat) : q / b * b + q % b = q := by
  rw [Nat.mul_comm]
  exact Nat.div_add_mod q b

theorem phase_digits (it : Iterations) (j : Nat) :
    (digits it j).phase it = j / it.phaseLength := by
  simp only [phase, digits, div_join]
  rw [Iterations.phaseLength, Iterations.folds, ← Nat.div_div_eq_div_mul,
    ← Nat.div_div_eq_div_mul, ← Nat.div_div_eq_div_mul, ← Nat.div_div_eq_div_mul]

/-- The odometer at the begin of a phase. -/
theorem digits_phase_start {it : Iterations} {j : Nat} (hS : (digits it j).currentS = 0)
    (hR : (digits it j).currentR = 0) (hC : (digits it j).currentC = 0)
    (hY : (digits it j).currentY = 0) (hX : (digits it j).currentX = 0) :
    j = j / it.phaseLength * it.phaseLength := by
  have hStep : ∀ {q b : Nat}, q % b = 0 → q = q / b * b := by
    intro q b h
    have hJoin := div_join q b
    omega
  simp only [digits] at hS hR hC hY hX
  have hAll : j = j / it.iterS / it.iterR / it.iterC / it.iterY / it.iterX *
      it.iterX * it.iterY * it.iterC * it.iterR * it.iterS := by
    rw [← hStep hX, ← hStep hY, ← hStep hC, ← hStep hR, ← hStep hS]
  have hQuotient : j / it.iterS / it.iterR / it.iterC / it.iterY / it.iterX =
      j / it.phaseLength := by
    rw [Iterations.phaseLength, Iterations.folds, ← Nat.div_div_eq_div_mul,
      ← Nat.div_div_eq_div_mul, ← Nat.div_div_eq_div_mul, ← Nat.div_div_eq_div_mul]
  rw [hQuotient] at hAll
  calc j = j / it.phaseLength * it.iterX * it.iterY * it.iterC * it.iterR * it.iterS := hAll
    _ = j / it.phaseLength * it.phaseLength := by
      rw [Iterations.phaseLength, Iterations.folds]
      ring

end Counters

namespace DistributionLoop

/-- The loops after `weights` weight iterations. -/
structure Phased (it : Iterations) (st : DistributionLoop) (weights : Nat) : Prop where
  inStep : InStep it st
  ended : st.inputFinished = true → weights = it.phases * it.folds
  activations : st.inputFinished = false → st.weightsDistributed = true →
    weights = (st.log.length / it.phaseLength + 1) * it.folds
  filling : st.inputFinished = false → st.weightsDistributed = false →
    st.log.length = st.log.length / it.phaseLength * it.phaseLength ∧
      weights = st.log.length / it.phaseLength * it.folds + st.counters.fold it ∧
      st.counters.currentS < it.iterS ∧ st.counters.currentR < it.iterR ∧
      st.counters.currentC < it.iterC

variable {it : Iterations} {st : DistributionLoop} {weights : Nat}

theorem Phased.weightsStep (h : Phased it st weights) (hRunning : st.inputFinished = false)
    (hWeights : st.weightsDistributed = false) :
    Phased it (st.weightsStep it) (weights + 1) := by
  obtain ⟨hStart, hCount, hS, hR, hC⟩ := h.filling hRunning hWeights
  have hInStep := h.inStep.weightsStep hWeights
  unfold DistributionLoop.weightsStep at hInStep ⊢
  simp only at hInStep ⊢
  rw [Counters.fold] at hCount
  split
  · rename_i hLastS
    rw [if_pos hLastS] at hInStep
    split
    · rename_i hLastR
      rw [if_pos hLastR] at hInStep
      split
      · rename_i hLastC
        rw [if_pos hLastC] at hInStep
        refine ⟨hInStep, fun hEnd => ?_, fun _ _ => ?_, fun _ hFalse => by cases hFalse⟩
        · rw [hRunning] at hEnd
          cases hEnd
        · have hFolds : it.folds =
              (st.counters.currentC * it.iterR + st.counters.currentR) * it.iterS +
                st.counters.currentS + 1 := by
            rw [Iterations.folds, ← hLastC, ← hLastR, ← hLastS]
            ring
          rw [Nat.succ_mul]
          simp only
          omega
      · rename_i hMoreC
        rw [if_neg hMoreC] at hInStep
        refine ⟨hInStep, fun hEnd => ?_, fun _ hTrue => ?_, fun _ _ => ⟨hStart, ?_, ?_, ?_, ?_⟩⟩
        · rw [hRunning] at hEnd
          cases hEnd
        · rw [hWeights] at hTrue
          cases hTrue
        · rw [hCount, Counters.fold]
          simp only
          rw [← hLastR, ← hLastS]
          ring
        · simp only
          omega
        · simp only
          omega
        · simp only
          omega
    · rename_i hMoreR
      rw [if_neg hMoreR] at hInStep
      refine ⟨hInStep, fun hEnd => ?_, fun _ hTrue => ?_, fun _ _ => ⟨hStart, ?_, ?_, ?_, hC⟩⟩
      · rw [hRunning] at hEnd
        cases hEnd
      · rw [hWeights] at hTrue
        cases hTrue
      · rw [hCount, Counters.fold]
        simp only
        rw [← hLastS]
        ring
      · simp only
        omega
      · simp only
        omega
  · rename_i hMoreS
    rw [if_neg hMoreS] at hInStep
    refine ⟨hInStep, fun hEnd => ?_, fun _ hTrue => ?_, fun _ _ => ⟨hStart, ?_, ?_, hR, hC⟩⟩
    · rw [hRunning] at hEnd
      cases hEnd
    · rw [hWeights] at hTrue
      cases hTrue
    · rw [hCount, Counters.fold]
      simp only
      omega
    · simp only
      omega

theorem weightsStep_log (it : Iterations) (st : DistributionLoop) :
    (st.weightsStep it).log = st.log := by
  unfold DistributionLoop.weightsStep
  simp only
  split_ifs <;> rfl

/-- An input iteration stays in its phase, begins the next one or ends the run. -/
private theorem inputsStep_cases (it : Iterations) (st : DistributionLoop) :
    let next := st.counters.advance it
    (st.inputsStep it).log.length = st.log.length + 1 ∧
      ((st.inputsStep it).inputFinished = true ∨
        (st.inputsStep it).inputFinished = st.inputFinished ∧
          (st.inputsStep it).counters = next ∧
          ((st.inputsStep it).weightsDistributed = st.weightsDistributed ∧
              next.phase it = st.counters.phase it ∨
            (st.inputsStep it).weightsDistributed = false ∧ next.currentS = 0 ∧
              next.currentR = 0 ∧ next.currentC = 0 ∧ next.currentY = 0 ∧
              next.currentX = 0)) := by
  unfold DistributionLoop.inputsStep Counters.advance Counters.phase
  simp only
  split_ifs <;> simp_all

theorem inputsStep_log (it : Iterations) (st : DistributionLoop) :
    (st.inputsStep it).log.length = st.log.length + 1 :=
  (inputsStep_cases it st).1

private theorem div_of_succ_eq {n q b : Nat} (hb : 0 < b) (h : n + 1 = q * b) :
    n / b + 1 = q := by
  cases q with
  | zero => omega
  | succ q =>
      rw [Nat.succ_mul] at h
      have hSplit : n = q * b + (b - 1) := by omega
      rw [hSplit, radix_div (by omega)]

theorem Phased.inputsStep (hIt : it.Positive) (h : Phased it st weights)
    (hRunning : st.inputFinished = false) (hInputs : st.weightsDistributed = true) :
    Phased it (st.inputsStep it) weights := by
  have hInStep := h.inStep.inputsStep hIt hRunning hInputs
  have hCount := h.activations hRunning hInputs
  obtain ⟨hLength, hNext⟩ := inputsStep_cases it st
  rcases hNext with hEnd | ⟨hKept, hCounters, hSame⟩
  · have hSteps := hInStep.finished hEnd
    rw [hLength, it.steps_eq_phases] at hSteps
    refine ⟨hInStep, fun _ => ?_, fun hNot => ?_, fun hNot => ?_⟩
    · rw [hCount, div_of_succ_eq hIt.phaseLength hSteps]
    · rw [hEnd] at hNot
      cases hNot
    · rw [hEnd] at hNot
      cases hNot
  · have hBefore := h.inStep.inputs hRunning hInputs
    rw [hBefore, Counters.advance_digits hIt] at hCounters hSame
    rcases hSame with ⟨hFlag, hPhase⟩ | ⟨hFlag, hS, hR, hC, hY, hX⟩
    · rw [Counters.phase_digits, Counters.phase_digits] at hPhase
      refine ⟨hInStep, fun hEnd => ?_, fun _ _ => ?_, fun _ hFalse => ?_⟩
      · rw [hKept, hRunning] at hEnd
        cases hEnd
      · rw [hCount, hLength, hPhase]
      · rw [hFlag, hInputs] at hFalse
        cases hFalse
    · have hStart := Counters.digits_phase_start hS hR hC hY hX
      refine ⟨hInStep, fun hEnd => ?_, fun _ hTrue => ?_, fun _ _ => ?_⟩
      · rw [hKept, hRunning] at hEnd
        cases hEnd
      · rw [hFlag] at hTrue
        cases hTrue
      · rw [hLength, hCounters, Counters.fold, hS, hR, hC]
        refine ⟨hStart, ?_, hIt.iterS, hIt.iterR, hIt.iterC⟩
        rw [hCount, div_of_succ_eq hIt.phaseLength hStart]
        simp

/-- Before the first cycle. -/
theorem phased_init (hIt : it.Positive) : Phased it {} 0 := by
  refine ⟨run_inStep hIt [], fun hEnd => (by cases hEnd), fun _ hTrue => (by cases hTrue),
    fun _ _ => ⟨?_, ?_, hIt.iterS, hIt.iterR, hIt.iterC⟩⟩
  · simp
  · simp [Counters.fold]

/-- While the weights of a phase are sent, only the phases before have had activations. -/
theorem Phased.filling_bounds (h : Phased it st weights) (hRunning : st.inputFinished = false)
    (hWeights : st.weightsDistributed = false) :
    ∃ p, st.log.length = p * it.phaseLength ∧ p * it.folds ≤ weights ∧
      weights < (p + 1) * it.folds := by
  obtain ⟨hStart, hCount, hS, hR, hC⟩ := h.filling hRunning hWeights
  have hFold : st.counters.fold it < it.folds := by
    calc st.counters.fold it < it.iterC * it.iterR * it.iterS := radix_lt (radix_lt hC hR) hS
      _ = it.folds := by
        rw [Iterations.folds]
        ring
  refine ⟨_, hStart, ?_, ?_⟩
  · omega
  · rw [Nat.succ_mul]
    omega

/-- A tap gets its weights once in every phase. -/
theorem Phased.weights_le (h : Phased it st weights) :
    weights ≤ it.phases * it.folds := by
  cases hFinished : st.inputFinished with
  | true => exact (h.ended hFinished).le
  | false =>
      have hLength := h.inStep.running hFinished
      rw [it.steps_eq_phases] at hLength
      cases hDistributed : st.weightsDistributed with
      | true =>
          rw [h.activations hFinished hDistributed]
          exact Nat.mul_le_mul_right _ (Nat.div_lt_of_lt_mul (by rwa [Nat.mul_comm]))
      | false =>
          obtain ⟨p, hStart, -, hHigh⟩ := h.filling_bounds hFinished hDistributed
          rw [hStart] at hLength
          exact hHigh.le.trans (Nat.mul_le_mul_right _ (Nat.lt_of_mul_lt_mul_right hLength))

end DistributionLoop

end Stonne
