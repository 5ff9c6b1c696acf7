import Stonne.Lib.Binary32
import Stonne.Maeri.Weights

/-!
# The output addresses

Each virtual neuron has a `VNAT_Register` that holds the address of its next result.
`update` moves the register like an odometer over the folds, the columns, the rows, the
filters, the groups and the batches.  The input loop of `SDMemory::cycle` runs through
the same positions with an odometer of its own.

The numbers of iterations are quotients in single precision, which are exact up to
`2 ^ 24`.  When such a quotient is too small, the last outputs are never written.  The number
of results that the memory waits for is a product of 32 bits, which is wrong when it wraps.
-/

namespace Stonne

open Dataflow

/-- The numbers of iterations of `SDMemory::setTile`. -/
structure Iterations where
  iterN : Nat
  iterG : Nat
  iterK : Nat
  iterX : Nat
  iterY : Nat
  iterC : Nat
  iterR : Nat
  iterS : Nat
  deriving DecidableEq

namespace Iterations

def ofTile (layer : DNNLayer) (tile : Tile) : Iterations where
  iterN := Binary32.ceilDiv layer.N tile.tN
  iterG := Binary32.ceilDiv layer.G tile.tG
  iterK := Binary32.ceilDiv layer.K tile.tK
  iterX := Binary32.ceilDiv layer.outX tile.tX
  iterY := Binary32.ceilDiv layer.outY tile.tY
  iterC := Binary32.ceilDiv layer.C tile.tC
  iterR := Binary32.ceilDiv layer.R tile.tR
  iterS := Binary32.ceilDiv layer.S tile.tS

/-- The iterations of a register: `VNAT_iter_R`, `VNAT_iter_S` and `VNAT_iter_C` are 1
unless the tile folds. -/
def vnat (tile : Tile) (it : Iterations) : Iterations :=
  if tile.folding then it else { it with iterC := 1, iterR := 1, iterS := 1 }

/-- The folds of one position. -/
def folds (it : Iterations) : Nat :=
  it.iterS * it.iterR * it.iterC

/-- The positions of a run. -/
def positions (it : Iterations) : Nat :=
  it.iterN * it.iterG * it.iterK * it.iterX * it.iterY

end Iterations

namespace Counters

/-- The odometer of `VNAT_Register::update`. -/
def advance (it : Iterations) (cnt : Counters) : Counters :=
  if cnt.currentS + 1 = it.iterS then
    if cnt.currentR + 1 = it.iterR then
      if cnt.currentC + 1 = it.iterC then
        if cnt.currentY + 1 = it.iterY then
          if cnt.currentX + 1 = it.iterX then
            if cnt.currentK + 1 = it.iterK then
              if cnt.currentG + 1 = it.iterG then
                { cnt with
                  currentS := 0
                  currentR := 0
                  currentC := 0
                  currentY := 0
                  currentX := 0
                  currentK := 0
                  currentG := 0
                  currentN := cnt.currentN + 1 }
              else
                { cnt with
                  currentS := 0
                  currentR := 0
                  currentC := 0
                  currentY := 0
                  currentX := 0
                  currentK := 0
                  currentG := cnt.currentG + 1 }
            else
              { cnt with
                currentS := 0
                currentR := 0
                currentC := 0
                currentY := 0
                currentX := 0
                currentK := cnt.currentK + 1 }
          else
            { cnt with
              currentS := 0
              currentR := 0
              currentC := 0
              currentY := 0
              currentX := cnt.currentX + 1 }
        else
          { cnt with
            currentS := 0
            currentR := 0
            currentC := 0
            currentY := cnt.currentY + 1 }
      else { cnt with currentS := 0, currentR := 0, currentC := cnt.currentC + 1 }
    else { cnt with currentS := 0, currentR := cnt.currentR + 1 }
  else { cnt with currentS := cnt.currentS + 1 }

end Counters

structure VNATRegister where
  base : Neuron
  baseAddr : Nat
  addr : Nat
  validValue : Bool
  counters : Counters
  deriving DecidableEq

namespace VNATRegister

/-- The address that `SDMemory::setTile` gives to a neuron. -/
def addrOffset (layer : DNNLayer) (v : Neuron) : Nat :=
  v.n * layer.G * layer.K * layer.outX * layer.outY + v.x * layer.outY * layer.G * layer.K +
    v.y * layer.G * layer.K + v.g * layer.K + v.k

def init (layer : DNNLayer) (v : Neuron) : VNATRegister where
  base := v
  baseAddr := addrOffset layer v
  addr := addrOffset layer v
  validValue := decide (v.k < layer.K) && decide (v.n < layer.N) && decide (v.g < layer.G) &&
    decide (v.x < layer.outX) && decide (v.y < layer.outY)
  counters := {}

def update (layer : DNNLayer) (tile : Tile) (it : Iterations) (reg : VNATRegister) :
    VNATRegister :=
  let counters := reg.counters.advance it
  let indexN := counters.currentN * tile.tN
  let indexX := counters.currentX * tile.tX
  let indexY := counters.currentY * tile.tY
  let indexK := counters.currentK * tile.tK
  let indexG := counters.currentG * tile.tG
  { reg with
    counters := counters
    addr := reg.baseAddr + indexN * layer.outX * layer.outY * layer.K * layer.G +
      indexX * layer.outY * layer.K * layer.G + indexY * layer.K * layer.G + indexG * layer.K +
      indexK
    validValue := decide (reg.base.k + indexK < layer.K) &&
      decide (reg.base.n + indexN < layer.N) && decide (reg.base.g + indexG < layer.G) &&
      decide (reg.base.x + indexX < layer.outX) && decide (reg.base.y + indexY < layer.outY) }

end VNATRegister

/-- The input and the weight loop of `SDMemory::cycle`, with a log of the counters of
the input iterations. -/
structure DistributionLoop where
  counters : Counters := {}
  weightsDistributed : Bool := false
  inputFinished : Bool := false
  log : List Counters := []

namespace DistributionLoop

/-- The counters behind a weight iteration. -/
def weightsStep (it : Iterations) (st : DistributionLoop) : DistributionLoop :=
  let cnt := st.counters
  if cnt.currentS + 1 = it.iterS then
    if cnt.currentR + 1 = it.iterR then
      if cnt.currentC + 1 = it.iterC then
        { st with
          counters := { cnt with currentS := 0, currentR := 0, currentC := 0 }
          weightsDistributed := true }
      else
        { st with
          counters := { cnt with currentS := 0, currentR := 0, currentC := cnt.currentC + 1 } }
    else { st with counters := { cnt with currentS := 0, currentR := cnt.currentR + 1 } }
  else { st with counters := { cnt with currentS := cnt.currentS + 1 } }

/-- The counters behind an input iteration. -/
def inputsStep (it : Iterations) (st : DistributionLoop) : DistributionLoop :=
  let cnt := st.counters
  let st := { st with log := st.log ++ [cnt] }
  if cnt.currentS + 1 = it.iterS then
    let cnt := { cnt with currentS := 0 }
    if cnt.currentR + 1 = it.iterR then
      let cnt := { cnt with currentR := 0 }
      if cnt.currentC + 1 = it.iterC then
        let cnt := { cnt with currentC := 0 }
        if cnt.currentY + 1 = it.iterY then
          let cnt := { cnt with currentY := 0 }
          if cnt.currentX + 1 = it.iterX then
            let cnt := { cnt with currentX := 0 }
            if cnt.currentK + 1 = it.iterK then
              let cnt := { cnt with currentK := 0 }
              if cnt.currentG + 1 = it.iterG then
                let cnt := { cnt with currentG := 0 }
                if cnt.currentN + 1 = it.iterN then
                  { st with
                    counters := { cnt with currentN := 0 }
                    weightsDistributed := true
                    inputFinished := true }
                else
                  { st with
                    counters := { cnt with currentN := cnt.currentN + 1 }
                    weightsDistributed := false }
              else
                { st with
                  counters := { cnt with currentG := cnt.currentG + 1 }
                  weightsDistributed := false }
            else
              { st with
                counters := { cnt with currentK := cnt.currentK + 1 }
                weightsDistributed := false }
          else { st with counters := { cnt with currentX := cnt.currentX + 1 } }
        else { st with counters := { cnt with currentY := cnt.currentY + 1 } }
      else { st with counters := { cnt with currentC := cnt.currentC + 1 } }
    else { st with counters := { cnt with currentR := cnt.currentR + 1 } }
  else { st with counters := { cnt with currentS := cnt.currentS + 1 } }

/-- One cycle of the loops.  `isOpen` tells whether the iteration may start. -/
def cycle (it : Iterations) (st : DistributionLoop) (isOpen : Bool) : DistributionLoop :=
  if !st.inputFinished && isOpen then
    if !st.weightsDistributed then st.weightsStep it else st.inputsStep it
  else st

/-- The loops after cycles in which the iteration could start or not. -/
def run (it : Iterations) (gates : List Bool) : DistributionLoop :=
  gates.foldl (cycle it) {}

end DistributionLoop

/-! ## The odometer -/

namespace Counters

/-- The odometer after `j` steps. -/
def digits (it : Iterations) (j : Nat) : Counters where
  currentS := j % it.iterS
  currentR := j / it.iterS % it.iterR
  currentC := j / it.iterS / it.iterR % it.iterC
  currentY := j / it.iterS / it.iterR / it.iterC % it.iterY
  currentX := j / it.iterS / it.iterR / it.iterC / it.iterY % it.iterX
  currentK := j / it.iterS / it.iterR / it.iterC / it.iterY / it.iterX % it.iterK
  currentG := j / it.iterS / it.iterR / it.iterC / it.iterY / it.iterX / it.iterK % it.iterG
  currentN := j / it.iterS / it.iterR / it.iterC / it.iterY / it.iterX / it.iterK / it.iterG

end Counters

/-- All numbers of iterations are positive. -/
structure Iterations.Positive (it : Iterations) : Prop where
  iterN : 0 < it.iterN
  iterG : 0 < it.iterG
  iterK : 0 < it.iterK
  iterX : 0 < it.iterX
  iterY : 0 < it.iterY
  iterC : 0 < it.iterC
  iterR : 0 < it.iterR
  iterS : 0 < it.iterS

namespace Counters

theorem advance_digits {it : Iterations} (hIt : it.Positive) (j : Nat) :
    (digits it j).advance it = digits it (j + 1) := by
  have hStep : ∀ {b : Nat} (q : Nat), 0 < b →
      (q % b + 1 = b ∧ (q + 1) % b = 0 ∧ (q + 1) / b = q / b + 1) ∨
        (q % b + 1 ≠ b ∧ (q + 1) % b = q % b + 1 ∧ (q + 1) / b = q / b) := by
    intro b q hb
    have hLess := Nat.mod_lt q hb
    rcases Nat.lt_or_ge (q % b + 1) b with hMore | hLast
    · exact Or.inr ⟨by omega, succ_of_lt hMore⟩
    · exact Or.inl ⟨by omega, succ_of_eq (by omega)⟩
  rcases hStep j hIt.iterS with ⟨hS, hModS, hDivS⟩ | ⟨hS, hModS, hDivS⟩
  · rcases hStep (j / it.iterS) hIt.iterR with ⟨hR, hModR, hDivR⟩ | ⟨hR, hModR, hDivR⟩
    · rcases hStep (j / it.iterS / it.iterR) hIt.iterC with
        ⟨hC, hModC, hDivC⟩ | ⟨hC, hModC, hDivC⟩
      · rcases hStep (j / it.iterS / it.iterR / it.iterC) hIt.iterY with
          ⟨hY, hModY, hDivY⟩ | ⟨hY, hModY, hDivY⟩
        · rcases hStep (j / it.iterS / it.iterR / it.iterC / it.iterY) hIt.iterX with
            ⟨hX, hModX, hDivX⟩ | ⟨hX, hModX, hDivX⟩
          · rcases hStep (j / it.iterS / it.iterR / it.iterC / it.iterY / it.iterX)
              hIt.iterK with ⟨hK, hModK, hDivK⟩ | ⟨hK, hModK, hDivK⟩
            · rcases hStep (j / it.iterS / it.iterR / it.iterC / it.iterY / it.iterX / it.iterK)
                hIt.iterG with ⟨hG, hModG, hDivG⟩ | ⟨hG, hModG, hDivG⟩
              · simp [digits, advance, *]
              · simp [digits, advance, *]
            · simp [digits, advance, *]
          · simp [digits, advance, *]
        · simp [digits, advance, *]
      · simp [digits, advance, *]
    · simp [digits, advance, *]
  · simp [digits, advance, *]

end Counters

/-! ## The input loop -/

namespace Iterations

/-- The steps of the odometer in a whole run. -/
def steps (it : Iterations) : Nat :=
  it.positions * it.folds

end Iterations

namespace Counters

theorem digits_currentN_lt {it : Iterations} (hIt : it.Positive) (j : Nat) :
    (digits it j).currentN < it.iterN ↔ j < it.steps := by
  have hProduct : it.steps = it.iterN *
      (it.iterS * it.iterR * it.iterC * it.iterY * it.iterX * it.iterK * it.iterG) := by
    rw [Iterations.steps, Iterations.positions, Iterations.folds]
    ring
  have hPos : 0 < it.iterS * it.iterR * it.iterC * it.iterY * it.iterX * it.iterK * it.iterG := by
    have := hIt.iterS
    have := hIt.iterR
    have := hIt.iterC
    have := hIt.iterY
    have := hIt.iterX
    have := hIt.iterK
    have := hIt.iterG
    positivity
  simp only [digits, Nat.div_div_eq_div_mul]
  rw [hProduct, Nat.div_lt_iff_lt_mul hPos]

end Counters

namespace DistributionLoop

/-- The loops in step with the odometer. -/
structure InStep (it : Iterations) (st : DistributionLoop) : Prop where
  log : st.log = (List.range st.log.length).map (Counters.digits it)
  finished : st.inputFinished = true → st.log.length = it.steps
  running : st.inputFinished = false → st.log.length < it.steps
  inputs : st.inputFinished = false → st.weightsDistributed = true →
    st.counters = Counters.digits it st.log.length
  weights : st.inputFinished = false → st.weightsDistributed = false →
    { st.counters with currentS := 0, currentR := 0, currentC := 0 } =
      Counters.digits it st.log.length

theorem InStep.weightsStep {it : Iterations} {st : DistributionLoop} (h : InStep it st)
    (hWeights : st.weightsDistributed = false) : InStep it (st.weightsStep it) := by
  obtain ⟨hLog, hFinished, hRunning, -, hCounters⟩ := h
  unfold DistributionLoop.weightsStep
  simp only
  split
  · split
    · split
      · exact ⟨hLog, hFinished, hRunning, fun hNot _ => hCounters hNot hWeights,
          fun _ hFalse => by cases hFalse⟩
      · exact ⟨hLog, hFinished, hRunning, fun _ hTrue => by simp [hWeights] at hTrue,
          fun hNot _ => hCounters hNot hWeights⟩
    · exact ⟨hLog, hFinished, hRunning, fun _ hTrue => by simp [hWeights] at hTrue,
        fun hNot _ => hCounters hNot hWeights⟩
  · exact ⟨hLog, hFinished, hRunning, fun _ hTrue => by simp [hWeights] at hTrue,
      fun hNot _ => hCounters hNot hWeights⟩

/-- What an input iteration does to the counters and the flags, in terms of the odometer. -/
private theorem inputsStep_eq (it : Iterations) (st : DistributionLoop) :
    let next := st.counters.advance it
    (st.inputsStep it).log = st.log ++ [st.counters] ∧
      (next.currentN = st.counters.currentN + 1 ∧ next.currentN = it.iterN ∧
          (st.inputsStep it).inputFinished = true ∨
        (next.currentN = st.counters.currentN ∨
            next.currentN = st.counters.currentN + 1 ∧ next.currentN ≠ it.iterN) ∧
          (st.inputsStep it).inputFinished = st.inputFinished ∧
          (st.inputsStep it).counters = next ∧
          ((st.inputsStep it).weightsDistributed = st.weightsDistributed ∨
            (st.inputsStep it).weightsDistributed = false ∧ next.currentS = 0 ∧
              next.currentR = 0 ∧ next.currentC = 0)) := by
  unfold inputsStep Counters.advance
  simp only
  split_ifs <;> simp_all

theorem atFirstFold {cnt : Counters} (hS : cnt.currentS = 0) (hR : cnt.currentR = 0)
    (hC : cnt.currentC = 0) : { cnt with currentS := 0, currentR := 0, currentC := 0 } = cnt := by
  cases cnt
  simp_all

theorem InStep.inputsStep {it : Iterations} (hIt : it.Positive) {st : DistributionLoop}
    (h : InStep it st) (hRunning : st.inputFinished = false)
    (hInputs : st.weightsDistributed = true) : InStep it (st.inputsStep it) := by
  have hCounters := h.inputs hRunning hInputs
  have hLess := h.running hRunning
  obtain ⟨hLog, hNext⟩ := inputsStep_eq it st
  rw [hCounters, Counters.advance_digits hIt] at hNext
  have hBefore := (Counters.digits_currentN_lt hIt st.log.length).mpr hLess
  have hAfter := Counters.digits_currentN_lt hIt (st.log.length + 1)
  have hLength : (st.inputsStep it).log.length = st.log.length + 1 := by simp [hLog]
  have hWholeLog : (st.inputsStep it).log =
      (List.range (st.inputsStep it).log.length).map (Counters.digits it) := by
    rw [hLength, List.range_succ, List.map_append, ← h.log, hLog, hCounters]
    rfl
  rcases hNext with ⟨hN, hLast, hDone⟩ | ⟨hN, hKept, hNextCounters, hFlag⟩
  · have hAll : st.log.length + 1 = it.steps := by omega
    refine ⟨hWholeLog, fun _ => hLength.trans hAll, ?_, ?_, ?_⟩
    · intro hNot
      rw [hDone] at hNot
      cases hNot
    · intro hNot
      rw [hDone] at hNot
      cases hNot
    · intro hNot
      rw [hDone] at hNot
      cases hNot
  · have hMore : st.log.length + 1 < it.steps := by omega
    refine ⟨hWholeLog, ?_, fun _ => hLength ▸ hMore, ?_, ?_⟩
    · intro hDone
      rw [hKept, hRunning] at hDone
      cases hDone
    · intro _ _
      rw [hLength, hNextCounters]
    · intro _ hWeights
      rcases hFlag with hSame | ⟨-, hS, hR, hC⟩
      · rw [hSame, hInputs] at hWeights
        cases hWeights
      · rw [hLength, hNextCounters]
        exact atFirstFold hS hR hC

private theorem init_inStep {it : Iterations} (hIt : it.Positive) :
    InStep it ({} : DistributionLoop) where
  log := rfl
  finished h := by cases h
  running _ := by
    have hPositions : 0 < it.positions :=
      Nat.mul_pos (Nat.mul_pos (Nat.mul_pos (Nat.mul_pos hIt.iterN hIt.iterG) hIt.iterK)
        hIt.iterX) hIt.iterY
    exact Nat.mul_pos hPositions (Nat.mul_pos (Nat.mul_pos hIt.iterS hIt.iterR) hIt.iterC)
  inputs _ h := by cases h
  weights _ _ := by simp [Counters.digits]

/-- In every run the input iterations follow the odometer. -/
theorem run_inStep {it : Iterations} (hIt : it.Positive) (gates : List Bool) :
    InStep it (run it gates) := by
  have hFold : ∀ st, InStep it st → InStep it (gates.foldl (cycle it) st) := by
    induction gates with
    | nil => exact fun st h => h
    | cons isOpen gates ih =>
        intro st h
        apply ih
        unfold cycle
        split
        · rename_i hOpen
          have hRunning : st.inputFinished = false := by
            simp only [Bool.and_eq_true, Bool.not_eq_true'] at hOpen
            exact hOpen.1
          split
          · rename_i hWeights
            exact h.weightsStep (by simpa using hWeights)
          · rename_i hInputs
            exact h.inputsStep hIt hRunning (by simpa using hInputs)
        · exact h
  exact hFold {} (init_inStep hIt)

end DistributionLoop

/-! ## The positions of a register -/

/-- The neuron is inside the output of the layer. -/
structure Neuron.InOfmap (o : Neuron) (layer : DNNLayer) : Prop where
  n : o.n < layer.N
  g : o.g < layer.G
  k : o.k < layer.K
  x : o.x < layer.outX
  y : o.y < layer.outY

namespace DNNLayer

/-- The address of an output. -/
def address (layer : DNNLayer) (o : Neuron) : Nat :=
  layer.outputIndex o.n o.x o.y o.g o.k

private theorem address_horner (layer : DNNLayer) (o : Neuron) :
    layer.address o =
      (((o.n * layer.outX + o.x) * layer.outY + o.y) * layer.G + o.g) * layer.K + o.k := by
  rw [address, outputIndex]
  ring

theorem address_inj {layer : DNNLayer} {o o' : Neuron} (ho : o.InOfmap layer)
    (ho' : o'.InOfmap layer) (h : layer.address o = layer.address o') : o = o' := by
  rw [address_horner, address_horner] at h
  obtain ⟨h, hk⟩ := radix_inj ho.k ho'.k h
  obtain ⟨h, hg⟩ := radix_inj ho.g ho'.g h
  obtain ⟨h, hy⟩ := radix_inj ho.y ho'.y h
  obtain ⟨hn, hx⟩ := radix_inj ho.x ho'.x h
  cases o
  cases o'
  simp_all

theorem address_lt {layer : DNNLayer} {o : Neuron} (ho : o.InOfmap layer) :
    layer.address o < layer.N * (layer.G * layer.K * layer.outX * layer.outY) := by
  have hLess := radix_lt (radix_lt (radix_lt (radix_lt ho.n ho.x) ho.y) ho.g) ho.k
  rw [address_horner]
  calc _ < _ := hLess
    _ = layer.N * (layer.G * layer.K * layer.outX * layer.outY) := by ring

end DNNLayer

/-- The output that neuron `v` of the tile computes in an iteration. -/
def Counters.output (tile : Tile) (v : Neuron) (cnt : Counters) : Neuron where
  n := cnt.currentN * tile.tN + v.n
  g := cnt.currentG * tile.tG + v.g
  k := cnt.currentK * tile.tK + v.k
  x := cnt.currentX * tile.tX + v.x
  y := cnt.currentY * tile.tY + v.y

namespace VNATRegister

/-- The register of neuron `v` after `j` updates. -/
def after (layer : DNNLayer) (tile : Tile) (it : Iterations) (v : Neuron) (j : Nat) :
    VNATRegister :=
  (update layer tile it)^[j] (init layer v)

private theorem decide_inOfmap (layer : DNNLayer) (o : Neuron) :
    (decide (o.k < layer.K) && decide (o.n < layer.N) && decide (o.g < layer.G) &&
      decide (o.x < layer.outX) && decide (o.y < layer.outY)) = true ↔ o.InOfmap layer := by
  simp only [Bool.and_eq_true, decide_eq_true_eq]
  constructor
  · rintro ⟨⟨⟨⟨hk, hn⟩, hg⟩, hx⟩, hy⟩
    exact ⟨hn, hg, hk, hx, hy⟩
  · intro h
    exact ⟨⟨⟨⟨h.k, h.n⟩, h.g⟩, h.x⟩, h.y⟩

/-- The register of neuron `v` at step `j` of the odometer. -/
structure At (layer : DNNLayer) (tile : Tile) (it : Iterations) (v : Neuron) (j : Nat)
    (reg : VNATRegister) : Prop where
  base : reg.base = v
  baseAddr : reg.baseAddr = layer.address v
  counters : reg.counters = Counters.digits it j
  addr : reg.addr = layer.address ((Counters.digits it j).output tile v)
  valid : reg.validValue = true ↔ ((Counters.digits it j).output tile v).InOfmap layer

theorem after_at {it : Iterations} (hIt : it.Positive) (layer : DNNLayer) (tile : Tile)
    (v : Neuron) (j : Nat) : At layer tile it v j (after layer tile it v j) := by
  induction j with
  | zero =>
      have hZero : (Counters.digits it 0).output tile v = v := by
        simp [Counters.digits, Counters.output]
      have hAddr : addrOffset layer v = layer.address v := by
        rw [addrOffset, DNNLayer.address, DNNLayer.outputIndex]
        ring
      refine ⟨rfl, hAddr, by simp [Counters.digits, after, init], ?_, ?_⟩
      · rw [hZero]
        exact hAddr
      · rw [hZero, ← decide_inOfmap]
        rfl
  | succ j ih =>
      have hNext : after layer tile it v (j + 1) = (after layer tile it v j).update layer tile it :=
        Function.iterate_succ_apply' _ j _
      have hCounters : (after layer tile it v j).counters.advance it =
          Counters.digits it (j + 1) := by
        rw [ih.counters, Counters.advance_digits hIt]
      rw [hNext]
      refine ⟨ih.base, ih.baseAddr, hCounters, ?_, ?_⟩
      · simp only [update, hCounters, ih.baseAddr]
        rw [DNNLayer.address, DNNLayer.address, DNNLayer.outputIndex, DNNLayer.outputIndex,
          Counters.output]
        ring
      · rw [← decide_inOfmap]
        simp only [update, hCounters, ih.base, Counters.output, Nat.add_comm]

end VNATRegister

/-! ## The walk over the outputs -/

namespace Counters

/-- The position of an iteration among all of them. -/
def index (it : Iterations) (cnt : Counters) : Nat :=
  (((cnt.currentN * it.iterG + cnt.currentG) * it.iterK + cnt.currentK) * it.iterX +
    cnt.currentX) * it.iterY + cnt.currentY

/-- Both counters are in the same (N,G,K,X,Y) iteration. -/
def SamePosition (cnt cnt' : Counters) : Prop :=
  cnt.currentN = cnt'.currentN ∧ cnt.currentG = cnt'.currentG ∧ cnt.currentK = cnt'.currentK ∧
    cnt.currentX = cnt'.currentX ∧ cnt.currentY = cnt'.currentY

/-- An iteration of the loops, in any batch. -/
structure InRange (it : Iterations) (cnt : Counters) : Prop where
  g : cnt.currentG < it.iterG
  k : cnt.currentK < it.iterK
  x : cnt.currentX < it.iterX
  y : cnt.currentY < it.iterY

theorem digits_inRange {it : Iterations} (hIt : it.Positive) (j : Nat) :
    (digits it j).InRange it where
  g := Nat.mod_lt _ hIt.iterG
  k := Nat.mod_lt _ hIt.iterK
  x := Nat.mod_lt _ hIt.iterX
  y := Nat.mod_lt _ hIt.iterY

theorem index_inj {it : Iterations} {cnt cnt' : Counters} (h : cnt.InRange it)
    (h' : cnt'.InRange it) : cnt.index it = cnt'.index it ↔ cnt.SamePosition cnt' := by
  constructor
  · intro hIndex
    obtain ⟨hIndex, hY⟩ := radix_inj h.y h'.y hIndex
    obtain ⟨hIndex, hX⟩ := radix_inj h.x h'.x hIndex
    obtain ⟨hIndex, hK⟩ := radix_inj h.k h'.k hIndex
    obtain ⟨hN, hG⟩ := radix_inj h.g h'.g hIndex
    exact ⟨hN, hG, hK, hX, hY⟩
  · rintro ⟨hN, hG, hK, hX, hY⟩
    simp only [index, hN, hG, hK, hX, hY]

/-- The odometer stays in a position for all its folds. -/
theorem index_digits (it : Iterations) (j : Nat) : (digits it j).index it = j / it.folds := by
  have hJoin : ∀ q b : Nat, q / b * b + q % b = q := by
    intro q b
    rw [Nat.mul_comm]
    exact Nat.div_add_mod q b
  simp only [index, digits, hJoin]
  rw [Iterations.folds, Nat.div_div_eq_div_mul, Nat.div_div_eq_div_mul, Nat.mul_assoc]

theorem index_lt {it : Iterations} {cnt : Counters} (h : cnt.InRange it)
    (hN : cnt.currentN < it.iterN) : cnt.index it < it.positions :=
  radix_lt (radix_lt (radix_lt (radix_lt hN h.g) h.k) h.x) h.y

/-- The iteration that computes an output. -/
def ofOutput (tile : Tile) (o : Neuron) : Counters where
  currentN := o.n / tile.tN
  currentG := o.g / tile.tG
  currentK := o.k / tile.tK
  currentX := o.x / tile.tX
  currentY := o.y / tile.tY

end Counters

/-- The neuron of the tile that computes an output. -/
def Neuron.ofOutput (tile : Tile) (o : Neuron) : Neuron where
  n := o.n % tile.tN
  g := o.g % tile.tG
  k := o.k % tile.tK
  x := o.x % tile.tX
  y := o.y % tile.tY

/-- Every output belongs to one neuron in one iteration. -/
theorem Counters.output_eq_iff {tile : Tile} {v : Neuron} (hv : v.InTile tile) (o : Neuron)
    (cnt : Counters) :
    cnt.output tile v = o ↔ v = Neuron.ofOutput tile o ∧ cnt.SamePosition (ofOutput tile o) := by
  obtain ⟨n, g, k, x, y⟩ := o
  obtain ⟨vn, vg, vk, vx, vy⟩ := v
  simp only [output, Neuron.ofOutput, ofOutput, SamePosition, Neuron.mk.injEq, radix_eq_iff hv.n,
    radix_eq_iff hv.g, radix_eq_iff hv.k, radix_eq_iff hv.x, radix_eq_iff hv.y]
  tauto

/-- The register shows an address to write to, and it is the one of output `o`. -/
def VNATRegister.Shows (layer : DNNLayer) (o : Neuron) (reg : VNATRegister) : Prop :=
  reg.validValue = true ∧ reg.addr = layer.address o

/-- `output_pixels_to_compute` of `SDMemory::setTile`, a product of `unsigned int`. -/
def outputPixelsToCompute (layer : DNNLayer) (tile : Tile) : Nat :=
  let it := Iterations.ofTile layer tile
  let vnat := it.vnat tile
  (it.iterN * it.iterG * it.iterK * it.iterX * it.iterY * vnat.iterR * vnat.iterS * vnat.iterC *
    tile.numVNs) % 2 ^ 32

/-- The walk of the registers over the outputs.  `it` are the iterations of the loops and
`vnat` those of the registers. -/
structure OutputWalk (layer : DNNLayer) (tile : Tile) (it vnat : Iterations) : Prop where
  /-- Every output is shown for as many consecutive results as it has folds, by one
  register. -/
  written : ∀ o : Neuron, o.InOfmap layer → ∃ v : Neuron, v.InTile tile ∧
    ∃ start, start + vnat.folds ≤ vnat.steps ∧
      ∀ v' : Neuron, v'.InTile tile → ∀ j < vnat.steps,
        ((VNATRegister.after layer tile vnat v' j).Shows layer o ↔
          v' = v ∧ start ≤ j ∧ j < start + vnat.folds)
  /-- Nothing else is shown. -/
  inside : ∀ v : Neuron, v.InTile tile → ∀ j < vnat.steps,
    (VNATRegister.after layer tile vnat v j).validValue = true →
      (VNATRegister.after layer tile vnat v j).addr <
        layer.N * (layer.G * layer.K * layer.outX * layer.outY)
  /-- A register is in the iteration that the input loop uses for the same window group. -/
  lockstep : ∀ gates i cnt, (DistributionLoop.run it gates).log[i]? = some cnt →
    ∀ v : Neuron, ∀ l < vnat.folds,
      (VNATRegister.after layer tile vnat v
        (i / it.folds * vnat.folds + l)).counters.SamePosition cnt
  /-- The input loop ends after the last position. -/
  groups : ∀ gates, (DistributionLoop.run it gates).inputFinished = true →
    (DistributionLoop.run it gates).log.length = vnat.positions * it.folds
  /-- The last position is exhausted after the expected number of updates. -/
  exhausted : ∀ v : Neuron, ∀ j,
    (VNATRegister.after layer tile vnat v j).counters.currentN < vnat.iterN ↔ j < vnat.steps
  total : tile.numVNs * vnat.steps = outputPixelsToCompute layer tile

/-- The iterations of a tile reach the end of every dimension of the output. -/
structure Iterations.Cover (it : Iterations) (layer : DNNLayer) (tile : Tile) : Prop where
  n : layer.N ≤ it.iterN * tile.tN
  g : layer.G ≤ it.iterG * tile.tG
  k : layer.K ≤ it.iterK * tile.tK
  x : layer.outX ≤ it.iterX * tile.tX
  y : layer.outY ≤ it.iterY * tile.tY

/-- The quotients of `SDMemory::setTile`, in single precision, are not too small. -/
structure QuotientsReach (layer : DNNLayer) (tile : Tile) : Prop where
  n : layer.N ≤ Binary32.ceilDiv layer.N tile.tN * tile.tN
  g : layer.G ≤ Binary32.ceilDiv layer.G tile.tG * tile.tG
  k : layer.K ≤ Binary32.ceilDiv layer.K tile.tK * tile.tK
  x : layer.outX ≤ Binary32.ceilDiv layer.outX tile.tX * tile.tX
  y : layer.outY ≤ Binary32.ceilDiv layer.outY tile.tY * tile.tY

/-- The number of results of a run fits into 32 bits. -/
def ResultsFit (layer : DNNLayer) (tile : Tile) : Prop :=
  tile.numVNs * ((Iterations.ofTile layer tile).vnat tile).steps < 2 ^ 32

/-- The sizes of a layer. -/
structure DNNLayer.Positive (layer : DNNLayer) : Prop where
  R : 0 < layer.R
  S : 0 < layer.S
  C : 0 < layer.C
  K : 0 < layer.K
  G : 0 < layer.G
  N : 0 < layer.N
  strides : 0 < layer.strides

namespace DNNLayer.Positive

variable {layer : DNNLayer}

theorem outX (h : layer.Positive) : 0 < layer.outX :=
  Nat.div_pos (Nat.le_add_left _ _) h.strides

theorem outY (h : layer.Positive) : 0 < layer.outY :=
  Nat.div_pos (Nat.le_add_left _ _) h.strides

end DNNLayer.Positive

namespace Iterations

theorem ofTile_positive {layer : DNNLayer} {tile : Tile} {msSize : Nat}
    (hLayer : layer.Positive) (hTile : tile.Accepted msSize) :
    (ofTile layer tile).Positive where
  iterN := Binary32.ceilDiv_pos hLayer.N hTile.tN
  iterG := Binary32.ceilDiv_pos hLayer.G hTile.tG
  iterK := Binary32.ceilDiv_pos hLayer.K hTile.tK
  iterX := Binary32.ceilDiv_pos hLayer.outX hTile.tX
  iterY := Binary32.ceilDiv_pos hLayer.outY hTile.tY
  iterC := Binary32.ceilDiv_pos hLayer.C hTile.tC
  iterR := Binary32.ceilDiv_pos hLayer.R hTile.tR
  iterS := Binary32.ceilDiv_pos hLayer.S hTile.tS

theorem cover_ofTile_iff {layer : DNNLayer} {tile : Tile} :
    (ofTile layer tile).Cover layer tile ↔ QuotientsReach layer tile :=
  ⟨fun h => ⟨h.n, h.g, h.k, h.x, h.y⟩, fun h => ⟨h.n, h.g, h.k, h.x, h.y⟩⟩

/-- A register has the same positions as the loops. -/
structure SamePositions (it it' : Iterations) : Prop where
  iterN : it.iterN = it'.iterN
  iterG : it.iterG = it'.iterG
  iterK : it.iterK = it'.iterK
  iterX : it.iterX = it'.iterX
  iterY : it.iterY = it'.iterY

theorem vnat_samePositions (it : Iterations) (tile : Tile) :
    (it.vnat tile).SamePositions it := by
  unfold vnat
  split
  · exact ⟨rfl, rfl, rfl, rfl, rfl⟩
  · exact ⟨rfl, rfl, rfl, rfl, rfl⟩

theorem vnat_positive {it : Iterations} (hIt : it.Positive) (tile : Tile) :
    (it.vnat tile).Positive := by
  unfold vnat
  split
  · exact hIt
  · exact { hIt with iterC := Nat.one_pos, iterR := Nat.one_pos, iterS := Nat.one_pos }

theorem Positive.folds {it : Iterations} (hIt : it.Positive) : 0 < it.folds :=
  Nat.mul_pos (Nat.mul_pos hIt.iterS hIt.iterR) hIt.iterC

variable {it it' : Iterations}

theorem SamePositions.symm (h : it.SamePositions it') : it'.SamePositions it :=
  ⟨h.iterN.symm, h.iterG.symm, h.iterK.symm, h.iterX.symm, h.iterY.symm⟩

theorem SamePositions.positions (h : it.SamePositions it') : it.positions = it'.positions := by
  simp only [Iterations.positions, h.iterN, h.iterG, h.iterK, h.iterX, h.iterY]

theorem SamePositions.index (h : it.SamePositions it') (cnt : Counters) :
    cnt.index it = cnt.index it' := by
  simp only [Counters.index, h.iterG, h.iterK, h.iterX, h.iterY]

theorem SamePositions.inRange (h : it.SamePositions it') {cnt : Counters}
    (hCnt : cnt.InRange it) : cnt.InRange it' :=
  ⟨h.iterG ▸ hCnt.g, h.iterK ▸ hCnt.k, h.iterX ▸ hCnt.x, h.iterY ▸ hCnt.y⟩

theorem SamePositions.cover (h : it.SamePositions it') {layer : DNNLayer} {tile : Tile}
    (hCover : it.Cover layer tile) : it'.Cover layer tile :=
  ⟨h.iterN ▸ hCover.n, h.iterG ▸ hCover.g, h.iterK ▸ hCover.k, h.iterX ▸ hCover.x,
    h.iterY ▸ hCover.y⟩

end Iterations

section

variable {layer : DNNLayer} {tile : Tile} {it vnat : Iterations} {v o : Neuron} {j : Nat}

/-- A register shows an output in the iteration that computes it. -/
theorem shows_iff (hIt : it.Positive) (ho : o.InOfmap layer) :
    (VNATRegister.after layer tile it v j).Shows layer o ↔
      (Counters.digits it j).output tile v = o := by
  have hAt := VNATRegister.after_at hIt layer tile v j
  constructor
  · rintro ⟨hValid, hAddr⟩
    exact DNNLayer.address_inj (hAt.valid.mp hValid) ho (hAt.addr.symm.trans hAddr)
  · intro hOutput
    refine ⟨hAt.valid.mpr ?_, ?_⟩
    · rw [hOutput]
      exact ho
    · rw [hAt.addr, hOutput]

private theorem ofOutput_inRange (hCover : it.Cover layer tile) (ho : o.InOfmap layer)
    {msSize : Nat} (hTile : tile.Accepted msSize) :
    (Counters.ofOutput tile o).currentN < it.iterN ∧ (Counters.ofOutput tile o).InRange it := by
  refine ⟨?_, ?_, ?_, ?_, ?_⟩
  · exact (Nat.div_lt_iff_lt_mul hTile.tN).mpr (ho.n.trans_le hCover.n)
  · exact (Nat.div_lt_iff_lt_mul hTile.tG).mpr (ho.g.trans_le hCover.g)
  · exact (Nat.div_lt_iff_lt_mul hTile.tK).mpr (ho.k.trans_le hCover.k)
  · exact (Nat.div_lt_iff_lt_mul hTile.tX).mpr (ho.x.trans_le hCover.x)
  · exact (Nat.div_lt_iff_lt_mul hTile.tY).mpr (ho.y.trans_le hCover.y)

/-- Each output is shown for all folds of its position, and by its own register only. -/
private theorem written_of_cover (hIt : it.Positive) (hCover : it.Cover layer tile)
    {msSize : Nat} (hTile : tile.Accepted msSize) (ho : o.InOfmap layer) :
    ∃ v : Neuron, v.InTile tile ∧ ∃ start, start + it.folds ≤ it.steps ∧
      ∀ v' : Neuron, v'.InTile tile → ∀ j < it.steps,
        ((VNATRegister.after layer tile it v' j).Shows layer o ↔
          v' = v ∧ start ≤ j ∧ j < start + it.folds) := by
  obtain ⟨hN, hRange⟩ := ofOutput_inRange hCover ho hTile
  have hInTile : (Neuron.ofOutput tile o).InTile tile :=
    ⟨Nat.mod_lt _ hTile.tN, Nat.mod_lt _ hTile.tG, Nat.mod_lt _ hTile.tK,
      Nat.mod_lt _ hTile.tX, Nat.mod_lt _ hTile.tY⟩
  refine ⟨Neuron.ofOutput tile o, hInTile, (Counters.ofOutput tile o).index it * it.folds,
    ?_, ?_⟩
  · rw [← Nat.succ_mul]
    exact Nat.mul_le_mul_right _ (Counters.index_lt hRange hN)
  · intro v' hv' j _
    rw [shows_iff hIt ho, Counters.output_eq_iff hv',
      ← Counters.index_inj (Counters.digits_inRange hIt j) hRange, Counters.index_digits,
      Nat.div_eq_iff hIt.folds]
    have := hIt.folds
    constructor
    · rintro ⟨hv, hLow, hHigh⟩
      exact ⟨hv, hLow, by omega⟩
    · rintro ⟨hv, hLow, hHigh⟩
      exact ⟨hv, hLow, by omega⟩

private theorem getElem?_log {gates : List Bool} {i : Nat} {cnt : Counters} (hIt : it.Positive)
    (h : (DistributionLoop.run it gates).log[i]? = some cnt) : cnt = Counters.digits it i := by
  rw [(DistributionLoop.run_inStep hIt gates).log, List.getElem?_map] at h
  obtain ⟨i', hRange, rfl⟩ := Option.map_eq_some_iff.mp h
  obtain ⟨hLess, hSame⟩ := List.getElem?_eq_some_iff.mp hRange
  rw [← hSame, List.getElem_range]

/-- The memory waits for the results of all updates, up to 32 bits. -/
private theorem outputPixelsToCompute_eq (layer : DNNLayer) (tile : Tile) :
    outputPixelsToCompute layer tile =
      tile.numVNs * ((Iterations.ofTile layer tile).vnat tile).steps % 2 ^ 32 := by
  have hSame := Iterations.vnat_samePositions (.ofTile layer tile) tile
  have hProduct : tile.numVNs * ((Iterations.ofTile layer tile).vnat tile).steps =
      (Iterations.ofTile layer tile).positions *
        ((Iterations.ofTile layer tile).vnat tile).iterR *
        ((Iterations.ofTile layer tile).vnat tile).iterS *
        ((Iterations.ofTile layer tile).vnat tile).iterC * tile.numVNs := by
    rw [Iterations.steps, Iterations.folds, hSame.positions]
    ring
  rw [hProduct]
  rfl

private theorem outputWalk_of_cover {msSize : Nat} (hLayer : layer.Positive)
    (hTile : tile.Accepted msSize) (hCover : (Iterations.ofTile layer tile).Cover layer tile)
    (hResults : ResultsFit layer tile) :
    OutputWalk layer tile (.ofTile layer tile) ((Iterations.ofTile layer tile).vnat tile) := by
  have hIt := Iterations.ofTile_positive hLayer hTile
  have hVnat := Iterations.vnat_positive hIt tile
  have hSame := Iterations.vnat_samePositions (.ofTile layer tile) tile
  refine ⟨?_, ?_, ?_, ?_, ?_, ?_⟩
  · intro o ho
    exact written_of_cover hVnat (hSame.symm.cover hCover) hTile ho
  · intro v _ j _ hValid
    have hAt := VNATRegister.after_at hVnat layer tile v j
    rw [hAt.addr]
    exact DNNLayer.address_lt (hAt.valid.mp hValid)
  · intro gates i cnt hLog v l hl
    have hAt := VNATRegister.after_at hVnat layer tile v
      (i / (Iterations.ofTile layer tile).folds *
        ((Iterations.ofTile layer tile).vnat tile).folds + l)
    rw [hAt.counters, getElem?_log hIt hLog,
      ← Counters.index_inj (hSame.inRange (Counters.digits_inRange hVnat _))
        (Counters.digits_inRange hIt i), ← hSame.index, Counters.index_digits,
      Counters.index_digits, radix_div hl]
  · intro gates hFinished
    rw [(DistributionLoop.run_inStep hIt gates).finished hFinished, hSame.positions,
      Iterations.steps]
  · intro v j
    rw [(VNATRegister.after_at hVnat layer tile v j).counters]
    exact Counters.digits_currentN_lt hVnat j
  · rw [outputPixelsToCompute_eq]
    exact (Nat.mod_eq_of_lt hResults).symm

/-- The last output is shown only if the iterations reach it. -/
private theorem cover_of_written (hLayer : layer.Positive)
    (h : OutputWalk layer tile it vnat) (hSame : vnat.SamePositions it) (hVnat : vnat.Positive) :
    it.Cover layer tile := by
  have hLast : Neuron.InOfmap
      ⟨layer.N - 1, layer.G - 1, layer.K - 1, layer.outX - 1, layer.outY - 1⟩ layer :=
    ⟨Nat.sub_one_lt hLayer.N.ne', Nat.sub_one_lt hLayer.G.ne', Nat.sub_one_lt hLayer.K.ne',
      Nat.sub_one_lt hLayer.outX.ne', Nat.sub_one_lt hLayer.outY.ne'⟩
  obtain ⟨v, hv, start, hEnd, hShown⟩ := h.written _ hLast
  have hFolds := hVnat.folds
  have hStart : start < vnat.steps := by omega
  have hOutput := (shows_iff hVnat hLast).mp
    ((hShown v hv start hStart).mpr ⟨rfl, le_rfl, by omega⟩)
  have hN := (Counters.digits_currentN_lt hVnat start).mpr hStart
  have hRange := Counters.digits_inRange hVnat start
  rw [Counters.output, Neuron.mk.injEq] at hOutput
  obtain ⟨hn, hg, hk, hx, hy⟩ := hOutput
  apply hSame.cover
  refine ⟨?_, ?_, ?_, ?_, ?_⟩
  · have := radix_lt hN hv.n
    omega
  · have := radix_lt hRange.g hv.g
    omega
  · have := radix_lt hRange.k hv.k
    omega
  · have := radix_lt hRange.x hv.x
    omega
  · have := radix_lt hRange.y hv.y
    omega

/-- The addresses of the output then fit into 32 bits as well. -/
theorem outputs_lt {msSize : Nat} (hLayer : layer.Positive) (hTile : tile.Accepted msSize)
    (hCover : (Iterations.ofTile layer tile).Cover layer tile)
    (hResults : ResultsFit layer tile) :
    layer.N * (layer.G * layer.K * layer.outX * layer.outY) < 2 ^ 32 := by
  have hIt := Iterations.ofTile_positive hLayer hTile
  have hSame := Iterations.vnat_samePositions (.ofTile layer tile) tile
  have hFolds := (Iterations.vnat_positive hIt tile).folds
  calc layer.N * (layer.G * layer.K * layer.outX * layer.outY)
      ≤ (Iterations.ofTile layer tile).iterN * tile.tN *
          ((Iterations.ofTile layer tile).iterG * tile.tG *
            ((Iterations.ofTile layer tile).iterK * tile.tK) *
            ((Iterations.ofTile layer tile).iterX * tile.tX) *
            ((Iterations.ofTile layer tile).iterY * tile.tY)) := by
        gcongr
        · exact hCover.n
        · exact hCover.g
        · exact hCover.k
        · exact hCover.x
        · exact hCover.y
    _ = tile.numVNs * (Iterations.ofTile layer tile).positions := by
        rw [Tile.numVNs, Iterations.positions]
        ring
    _ ≤ tile.numVNs * ((Iterations.ofTile layer tile).vnat tile).steps := by
        apply Nat.mul_le_mul_left
        rw [Iterations.steps, hSame.positions]
        exact Nat.le_mul_of_pos_right _ hFolds
    _ < 2 ^ 32 := hResults

/-- Up to `2 ^ 24` the quotients are exact. -/
theorem quotientsReach_of_le {msSize : Nat} (hLayer : layer.Positive)
    (hTile : tile.Accepted msSize) (hN : layer.N ≤ 2 ^ 24) (hG : layer.G ≤ 2 ^ 24)
    (hK : layer.K ≤ 2 ^ 24) (hX : layer.outX ≤ 2 ^ 24) (hY : layer.outY ≤ 2 ^ 24) :
    QuotientsReach layer tile where
  n := Binary32.le_ceilDiv_mul hLayer.N hTile.tN hN
  g := Binary32.le_ceilDiv_mul hLayer.G hTile.tG hG
  k := Binary32.le_ceilDiv_mul hLayer.K hTile.tK hK
  x := Binary32.le_ceilDiv_mul hLayer.outX hTile.tX hX
  y := Binary32.le_ceilDiv_mul hLayer.outY hTile.tY hY

/-- The registers walk over all outputs, and the memory waits for their results, if and only if
the quotients reach the end of every dimension and the number of results fits. -/
theorem outputWalk_iff {msSize : Nat} (hLayer : layer.Positive) (hTile : tile.Accepted msSize) :
    OutputWalk layer tile (.ofTile layer tile) ((Iterations.ofTile layer tile).vnat tile) ↔
      QuotientsReach layer tile ∧ ResultsFit layer tile := by
  rw [← Iterations.cover_ofTile_iff]
  constructor
  · intro hWalk
    constructor
    · exact cover_of_written hLayer hWalk (Iterations.vnat_samePositions _ tile)
        (Iterations.vnat_positive (Iterations.ofTile_positive hLayer hTile) tile)
    · have hTotal := hWalk.total
      rw [outputPixelsToCompute_eq] at hTotal
      exact hTotal.trans_lt (Nat.mod_lt _ (by decide))
  · rintro ⟨hCover, hResults⟩
    exact outputWalk_of_cover hLayer hTile hCover hResults

/-- A folding tile with a remainder in every dimension of the output. -/
theorem outputWalk_iff_remainders :
    let layer : DNNLayer :=
      { R := 3, S := 3, C := 2, K := 3, G := 3, N := 3, X := 5, Y := 7, strides := 1 }
    let tile : Tile :=
      { tR := 1, tS := 2, tC := 1, tK := 2, tG := 2, tN := 2, tX := 2, tY := 2, folding := true }
    OutputWalk layer tile (.ofTile layer tile) ((Iterations.ofTile layer tile).vnat tile) := by
  intro layer tile
  have hLayer : layer.Positive :=
    ⟨by decide, by decide, by decide, by decide, by decide, by decide, by decide⟩
  have hTile : tile.Accepted 128 :=
    ⟨by decide, by decide, by decide, by decide, by decide, by decide, by decide, by decide,
      by decide⟩
  have hReach : QuotientsReach layer tile := quotientsReach_of_le hLayer hTile (by decide)
    (by decide) (by decide) (by decide) (by decide)
  have hResults : ResultsFit layer tile := by
    unfold ResultsFit
    decide +kernel
  exact (outputWalk_iff hLayer hTile).mpr ⟨hReach, hResults⟩

/-- A window of 64 rows and columns in `2 ^ 20` places, one multiplier that folds: the number of
results wraps to none. -/
example : outputPixelsToCompute
    { R := 64, S := 64, C := 1, K := 1, G := 1, N := 1, X := 1087, Y := 1087, strides := 1 }
    { tR := 1, tS := 1, tC := 1, tK := 1, tG := 1, tN := 1, tX := 1, tY := 1, folding := true } =
      0 := by
  decide +kernel

/-- The batch size `2 ^ 24 + 1` is rounded to an even number. -/
theorem not_outputWalk_large_batch :
    let layer : DNNLayer :=
      { R := 1, S := 1, C := 1, K := 1, G := 1, N := 2 ^ 24 + 1, X := 1, Y := 1, strides := 1 }
    let tile : Tile :=
      { tR := 1, tS := 1, tC := 1, tK := 1, tG := 1, tN := 1, tX := 1, tY := 1, folding := false }
    ¬OutputWalk layer tile (.ofTile layer tile) ((Iterations.ofTile layer tile).vnat tile) := by
  intro layer tile hWalk
  have hLayer : layer.Positive :=
    ⟨by decide, by decide, by decide, by decide, by decide, by decide, by decide⟩
  have hTile : tile.Accepted 4 :=
    ⟨by decide, by decide, by decide, by decide, by decide, by decide, by decide, by decide,
      by decide⟩
  have hCover := cover_of_written hLayer hWalk (Iterations.vnat_samePositions _ tile)
    (Iterations.vnat_positive (Iterations.ofTile_positive hLayer hTile) tile)
  have hN : 2 ^ 24 + 1 ≤ Binary32.ceilDiv (2 ^ 24 + 1) 1 * 1 := hCover.n
  rw [Binary32.ceilDiv_two_pow_succ] at hN
  omega

end

end Stonne
