import Stonne.Maeri.Forwarding

/-!
# The order of the operands

Each tap gets the weights of a phase, one for every fold, then the activations of the
phase, and so on.  So how many of one kind lie behind a multiplier bounds how many of the
other do, in every prefix of what the memory has sent.
-/

namespace Stonne

open Dataflow

namespace Maeri

variable (mach : Maeri)

/-- The activations that an iteration sends to a multiplier from column `yInit` on. -/
def windowFrom (yInit : Nat) (cnt : Counters) (m : Nat) : List Int :=
  (SDMemory.operandsFor mach.ports
    (SDMemory.distributeInputsFrom mach.ports mach.numMs mach.layer mach.tile mach.inputAddress
      yInit cnt fun _ => {}) m).map Prod.fst

/-- The activations that the memory sends to a multiplier in the first `n` iterations. -/
def sentActivations (sig : Signals) (m n : Nat) : List Int :=
  (List.range n).flatMap fun j =>
    mach.windowFrom (sig.yInit (Counters.digits mach.iterations j))
      (Counters.digits mach.iterations j) m

/-- A part of the operands of a tap in the order of the memory. -/
structure Ordered (sig : Signals) (m : Nat) (operands : List (Int × Operand)) : Prop where
  /-- The weights of a phase come before its activations... -/
  weightsFirst : ∀ p, (mach.sentActivations sig m (p * mach.iterations.phaseLength)).length <
    (activationsOf operands).length → (p + 1) * mach.iterations.folds ≤ weightsOf operands
  /-- ...and after the activations of the phases before. -/
  weightsLast : ∀ p, p * mach.iterations.folds < weightsOf operands →
    (mach.sentActivations sig m (p * mach.iterations.phaseLength)).length ≤
      (activationsOf operands).length
  /-- An activation comes behind all weights of a phase. -/
  whole : ∀ operand, operands.getLast? = some operand → operand.2 = .iactivation →
    ∃ phases, 0 < phases ∧ weightsOf operands = phases * mach.iterations.folds

/-- What the memory has sent to a multiplier so far. -/
structure State.Sent (sig : Signals) (st : State) (m : Nat) : Prop where
  phased : st.loop.Phased mach.iterations (weightsOf (st.operands mach m))
  activations : activationsOf (st.operands mach m) =
    mach.sentActivations sig m st.loop.log.length
  ordered : ∀ operands, operands <+: st.operands mach m → mach.Ordered sig m operands

section

variable {mach : Maeri} {sig : Signals} {m : Nat}

theorem sentActivations_succ (sig : Signals) (m n : Nat) :
    mach.sentActivations sig m (n + 1) = mach.sentActivations sig m n ++
      mach.windowFrom (sig.yInit (Counters.digits mach.iterations n))
        (Counters.digits mach.iterations n) m := by
  rw [sentActivations, List.range_succ, List.flatMap_append, List.flatMap_singleton]
  rfl

theorem sentActivations_mono (sig : Signals) (m : Nat) {n n' : Nat} (h : n ≤ n') :
    (mach.sentActivations sig m n).length ≤ (mach.sentActivations sig m n').length := by
  induction n', h using Nat.le_induction with
  | base => exact le_rfl
  | succ n' _ ih =>
      rw [sentActivations_succ, List.length_append]
      exact ih.trans (Nat.le_add_right _ _)

theorem le_of_sentActivations_lt {n n' : Nat}
    (h : (mach.sentActivations sig m n).length < (mach.sentActivations sig m n').length) :
    n < n' := by
  by_contra hMore
  exact absurd (sentActivations_mono sig m (Nat.le_of_not_lt hMore)) (Nat.not_le_of_lt h)

/-- An iteration adds the activations of its window. -/
theorem operandsFor_windowFrom (hPorts : mach.P ≤ mach.L) (hm : m < mach.numMs)
    (readPorts : Nat → ReadPort) (yInit : Nat) (cnt : Counters) :
    SDMemory.operandsFor mach.ports
        (SDMemory.distributeInputsFrom mach.ports mach.numMs mach.layer mach.tile
          mach.inputAddress yInit cnt readPorts) m =
      SDMemory.operandsFor mach.ports readPorts m ++
        (mach.windowFrom yInit cnt m).map fun data => (data, .iactivation) := by
  have hAdded : ∀ readPorts, SDMemory.operandsFor (.powers mach.L mach.P)
      (SDMemory.distributeInputsFrom (.powers mach.L mach.P) (2 ^ mach.L) mach.layer mach.tile
        mach.inputAddress yInit cnt readPorts) m =
      SDMemory.operandsFor (.powers mach.L mach.P) readPorts m ++ List.map _ _ := fun readPorts =>
    SDMemory.operandsFor_distributeInputsFrom hPorts mach.inputAddress yInit readPorts hm
  have hNone : SDMemory.operandsFor mach.ports (fun _ => {}) m = [] := rfl
  rw [windowFrom, ports, numMs, hAdded, hAdded]
  change _ = _ ++ List.map _ (List.map _ (SDMemory.operandsFor mach.ports (fun _ => {}) m ++ _))
  rw [hNone, List.nil_append, List.map_map, List.map_map]
  congr 1
  apply List.map_congr_left
  intro pck hMem
  obtain ⟨x, y, n, -, g, -, c, -, rfl⟩ :=
    SDMemory.mem_forEachInputFrom (List.mem_filter.mp hMem).1
  rfl

theorem activationsOf_window (window : List Int) :
    activationsOf (window.map fun data => (data, .iactivation)) = window := by
  simp [activationsOf, List.filter_map, Function.comp_def]

theorem weightsOf_window (window : List Int) :
    weightsOf (window.map fun data => (data, .iactivation)) = 0 := by
  simp [weightsOf, List.filter_map, Function.comp_def]

/-- A prefix of two lists one after the other ends in one of them. -/
theorem prefix_append_cases {α : Type*} {l l₁ l₂ : List α} (h : l <+: l₁ ++ l₂) :
    l <+: l₁ ∨ ∃ l', l = l₁ ++ l' ∧ l' <+: l₂ ∧ l' ≠ [] := by
  rcases List.prefix_or_prefix_of_prefix h (List.prefix_append l₁ l₂) with hFirst | ⟨l', rfl⟩
  · exact Or.inl hFirst
  · have hSecond := (List.prefix_append_right_inj l₁).mp h
    cases l' with
    | nil => exact Or.inl (by simp)
    | cons a l' => exact Or.inr ⟨a :: l', rfl, hSecond, by simp⟩

/-- The first weights of a phase. -/
private theorem ordered_weight {p : Nat} {operands : List (Int × Operand)} (data : Int)
    (hActivations : activationsOf operands =
      mach.sentActivations sig m (p * mach.iterations.phaseLength))
    (hLow : p * mach.iterations.folds ≤ weightsOf operands)
    (hHigh : weightsOf operands < (p + 1) * mach.iterations.folds) :
    mach.Ordered sig m (operands ++ [(data, .weight)]) := by
  have hCount : weightsOf (operands ++ [(data, .weight)]) = weightsOf operands + 1 :=
    weightsOf_append _ _
  have hSame : activationsOf (operands ++ [(data, .weight)]) =
      mach.sentActivations sig m (p * mach.iterations.phaseLength) := by
    rw [activationsOf_append, ← hActivations]
    exact List.append_nil _
  have hMul := fun {a b : Nat} (h : a ≤ b) => Nat.mul_le_mul_right mach.iterations.folds h
  refine ⟨fun p' hLess => ?_, fun p' hLess => ?_, fun operand hLast hType => ?_⟩
  · rw [hSame] at hLess
    have hBefore : p' < p := Nat.lt_of_mul_lt_mul_right (le_of_sentActivations_lt hLess)
    rw [hCount]
    exact (hMul hBefore).trans (hLow.trans (Nat.le_succ _))
  · rw [hCount] at hLess
    have hBefore : p' < p + 1 :=
      Nat.lt_of_mul_lt_mul_right (lt_of_lt_of_le hLess (Nat.succ_le_of_lt hHigh))
    rw [hSame]
    exact sentActivations_mono sig m (Nat.mul_le_mul_right _ (Nat.le_of_lt_succ hBefore))
  · rw [List.getLast?_append_of_ne_nil _ (by simp)] at hLast
    simp only [List.getLast?_singleton, Option.some.injEq] at hLast
    rw [← hLast] at hType
    cases hType

/-- A part of the window of an iteration. -/
private theorem ordered_window {n : Nat} (hIt : mach.iterations.Positive)
    {operands : List (Int × Operand)} {window rest : List Int}
    (hActivations : activationsOf operands = mach.sentActivations sig m n)
    (hNext : mach.sentActivations sig m n ++ (window ++ rest) =
      mach.sentActivations sig m (n + 1))
    (hWeights : weightsOf operands =
      (n / mach.iterations.phaseLength + 1) * mach.iterations.folds) :
    mach.Ordered sig m (operands ++ window.map fun data => (data, .iactivation)) := by
  have hCount : weightsOf (operands ++ window.map fun data => (data, Operand.iactivation)) =
      (n / mach.iterations.phaseLength + 1) * mach.iterations.folds := by
    rw [weightsOf_append, weightsOf_window, Nat.add_zero, hWeights]
  have hSame : activationsOf (operands ++ window.map fun data => (data, Operand.iactivation)) =
      mach.sentActivations sig m n ++ window := by
    rw [activationsOf_append, activationsOf_window, hActivations]
  refine ⟨fun p hLess => ?_, fun p hLess => ?_, fun operand _ _ => ?_⟩
  · have hMore : (mach.sentActivations sig m n ++ window).length ≤
        (mach.sentActivations sig m (n + 1)).length := by
      rw [← hNext, ← List.append_assoc]
      exact (List.prefix_append _ _).length_le
    rw [hSame] at hLess
    have hBefore : p * mach.iterations.phaseLength < n + 1 :=
      le_of_sentActivations_lt (lt_of_lt_of_le hLess hMore)
    rw [hCount]
    apply Nat.mul_le_mul_right
    exact Nat.succ_le_succ
      ((Nat.le_div_iff_mul_le hIt.phaseLength).mpr (Nat.le_of_lt_succ hBefore))
  · rw [hCount] at hLess
    have hBefore : p ≤ n / mach.iterations.phaseLength :=
      Nat.le_of_lt_succ (Nat.lt_of_mul_lt_mul_right hLess)
    rw [hSame, List.length_append]
    exact (sentActivations_mono sig m
      ((Nat.le_div_iff_mul_le hIt.phaseLength).mp hBefore)).trans (Nat.le_add_right _ _)
  · exact ⟨_, Nat.succ_pos _, hCount⟩

theorem State.Sent.cycle (hPorts : mach.P ≤ mach.L) (hIt : mach.iterations.Positive)
    (hTile : mach.tile.Accepted mach.numMs) {st : State} {v : Neuron} (hv : v.InTile mach.tile)
    {t : Tap} (ht : t.InTile mach.tile) (h : st.Sent mach sig (mach.tile.multiplier v t))
    (event : Bool × (Nat → Delivery)) :
    (mach.cycle sig st event).Sent mach sig (mach.tile.multiplier v t) := by
  obtain ⟨hLoop, hReadPorts⟩ := cycle_memory sig st event
  have hOperands : (mach.cycle sig st event).operands mach (mach.tile.multiplier v t) =
      (mach.distribute sig st event.1).operands mach (mach.tile.multiplier v t) := by
    rw [State.operands, State.operands, hReadPorts]
  obtain ⟨hPhased, hActivations, hOrdered⟩ := h
  cases hRunning : !st.loop.inputFinished && event.1 with
  | false =>
      have hSame : (mach.distribute sig st event.1).operands mach (mach.tile.multiplier v t) =
          st.operands mach (mach.tile.multiplier v t) := by
        simp only [State.operands, distribute, hRunning]
        rfl
      have hKept : st.loop.cycle mach.iterations event.1 = st.loop := by
        simp only [DistributionLoop.cycle, hRunning]
        rfl
      rw [hKept] at hLoop
      rw [hSame] at hOperands
      exact ⟨by rwa [hLoop, hOperands], by rwa [hLoop, hOperands], by rwa [hOperands]⟩
  | true =>
      have hMore : st.loop.inputFinished = false := by
        rw [Bool.and_eq_true, Bool.not_eq_true'] at hRunning
        exact hRunning.1
      cases hWeights : st.loop.weightsDistributed with
      | false =>
          have hNext : (mach.distribute sig st event.1).operands mach (mach.tile.multiplier v t) =
              st.operands mach (mach.tile.multiplier v t) ++
                [(SDMemory.expectedWeight mach.layer mach.tile mach.filterAddress
                  st.loop.counters v t, .weight)] := by
            simp only [State.operands, distribute, hRunning, hWeights, Bool.not_false, if_true]
            exact SDMemory.operandsFor_weights hPorts hTile _ _ _ _ hv ht
          have hStep : st.loop.cycle mach.iterations event.1 =
              st.loop.weightsStep mach.iterations := by
            simp [DistributionLoop.cycle, hRunning, hWeights]
          rw [hStep] at hLoop
          obtain ⟨p, hLength, hLow, hHigh⟩ := hPhased.filling_bounds hMore hWeights
          have hAll := ordered_weight (SDMemory.expectedWeight mach.layer mach.tile
            mach.filterAddress st.loop.counters v t) (hLength ▸ hActivations) hLow hHigh
          refine ⟨?_, ?_, fun operands hPrefix => ?_⟩
          · rw [hLoop, hOperands, hNext, weightsOf_append]
            exact hPhased.weightsStep hMore hWeights
          · rw [hLoop, hOperands, hNext, activationsOf_append, DistributionLoop.weightsStep_log,
              ← hActivations]
            simp [activationsOf]
          · rw [hOperands, hNext, List.prefix_concat_iff] at hPrefix
            rcases hPrefix with rfl | hBefore
            · exact hAll
            · exact hOrdered operands hBefore
      | true =>
          have hCounters := hPhased.inStep.inputs hMore hWeights
          have hCount := hPhased.activations hMore hWeights
          have hm : mach.tile.multiplier v t < mach.numMs := hTile.multiplier_lt hv ht
          have hNext : (mach.distribute sig st event.1).operands mach (mach.tile.multiplier v t) =
              st.operands mach (mach.tile.multiplier v t) ++
                (mach.windowFrom
                  (sig.yInit (Counters.digits mach.iterations st.loop.log.length))
                  (Counters.digits mach.iterations st.loop.log.length)
                  (mach.tile.multiplier v t)).map fun data => (data, .iactivation) := by
            simp only [State.operands, distribute, hRunning, hWeights, Bool.not_true, if_true]
            rw [hCounters]
            exact operandsFor_windowFrom hPorts hm _ _ _
          have hStep : st.loop.cycle mach.iterations event.1 =
              st.loop.inputsStep mach.iterations := by
            simp [DistributionLoop.cycle, hRunning, hWeights]
          rw [hStep] at hLoop
          refine ⟨?_, ?_, fun operands hPrefix => ?_⟩
          · rw [hLoop, hOperands, hNext, weightsOf_append, weightsOf_window]
            exact hPhased.inputsStep hIt hMore hWeights
          · rw [hLoop, hOperands, hNext, activationsOf_append, activationsOf_window,
              DistributionLoop.inputsStep_log, sentActivations_succ, hActivations]
          · rw [hOperands, hNext] at hPrefix
            rcases prefix_append_cases hPrefix with hBefore | ⟨added, rfl, hAdded, -⟩
            · exact hOrdered operands hBefore
            · obtain ⟨rest, hRest⟩ := hAdded
              obtain ⟨window, others, hWindow, rfl, -⟩ := List.map_eq_append_iff.mp hRest.symm
              apply ordered_window hIt hActivations _ hCount
              · exact others
              · rw [sentActivations_succ, hWindow]

/-- In every run the memory sends the operands of a tap in order. -/
theorem run_sent (hPorts : mach.P ≤ mach.L) (hIt : mach.iterations.Positive)
    (hTile : mach.tile.Accepted mach.numMs) (sig : Signals)
    (events : List (Bool × (Nat → Delivery))) {v : Neuron} (hv : v.InTile mach.tile) {t : Tap}
    (ht : t.InTile mach.tile) : (mach.run sig events).Sent mach sig (mach.tile.multiplier v t) := by
  induction events using List.reverseRecOn with
  | nil =>
      refine ⟨DistributionLoop.phased_init hIt, rfl, fun operands hPrefix => ?_⟩
      rw [List.prefix_nil.mp hPrefix]
      refine ⟨fun p hLess => ?_, fun p hLess => ?_, fun operand hLast _ => ?_⟩
      · exact absurd hLess (Nat.not_lt_zero _)
      · exact absurd hLess (Nat.not_lt_zero _)
      · cases hLast
  | append_singleton events event ih =>
      rw [run_append]
      exact ih.cycle hPorts hIt hTile hv ht event

theorem State.Sent.log_le {st : State} (h : st.Sent mach sig m) :
    st.loop.log.length ≤ mach.iterations.steps := by
  cases hFinished : st.loop.inputFinished with
  | true => exact (h.phased.inStep.finished hFinished).le
  | false => exact (h.phased.inStep.running hFinished).le

end

end Maeri

end Stonne
