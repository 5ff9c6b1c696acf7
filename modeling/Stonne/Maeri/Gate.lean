import Stonne.Lib.Streams
import Stonne.Maeri.OnArrival

/-!
# The gate between the phases

`SDMemory::send` holds an operand back until the memory has received the outputs of the
filters before: `pck_iteration <= current_output_pixel / output_psums_per_channel`.  So the
weights of the next phase should only reach a multiplier when all multipliers have
finished the phase, also the ones whose activations come over the links.

The gate knows the group and the filter of an operand, but not its batch, and the size of
the output, but not how many outputs the neurons of the tile compute for it.  When the two
counts agree, an operand that passes shows that nothing of its own phase has been
multiplied yet and that all outputs of the earlier ones are there.

The number of outputs for a filter and the count of the outputs are words of 32 bits.  When the
product wraps, the gate waits for too few outputs.
-/

namespace Stonne

open Dataflow

namespace Maeri

variable (mach : Maeri)

/-- The outputs of all windows of a filter. -/
def psumsPerFilter : Nat :=
  let vnat := mach.iterations.vnat mach.tile
  mach.layer.outX * mach.layer.outY * vnat.iterR * vnat.iterS * vnat.iterC

/-- `output_psums_per_channel`, a product of `unsigned int`. -/
def outputPsumsPerChannel : Nat :=
  mach.psumsPerFilter % 2 ^ 32

/-- 4299161600 partial sums for each filter. -/
example :
    outputPsumsPerChannel
      { L := 2
        P := 0
        layer :=
          { R := 64, S := 128, C := 1, K := 2, G := 1, N := 1, X := 1087, Y := 1152, strides := 1 }
        tile :=
          { tR := 1, tS := 2, tC := 1, tK := 1, tG := 1, tN := 1, tX := 1, tY := 1,
            folding := true }
        filterAddress := fun i => i
        inputAddress := fun i => i } = 4194304 := by
  decide +kernel

/-- `current_output_pixel / output_psums_per_channel` -/
def currentIteration (currentOutputPixel : Nat) : Nat :=
  currentOutputPixel / mach.outputPsumsPerChannel

/-- How many waves of products the reduction network adds up for a package: the folds of a
window, unless the memory brings back the partial sums. -/
def wavesPerOutput : Nat :=
  if mach.tile.folding then 1 else mach.nFolding

/-- The machine with the gate of the memory. -/
structure Gated where
  machine : State
  /-- How many packages of its input fifo each port has sent. -/
  sent : Nat → Nat
  /-- How many packages the memory has received of each neuron. -/
  returned : Nat → Nat
  currentOutputPixel : Nat

/-- What the other components do in a cycle. -/
structure GateEvent where
  /-- The neurons whose packages arrive at the memory. -/
  outputs : List Nat
  /-- The ports that have no partial sum to send. -/
  free : Nat → Bool
  /-- What the distribution network brings. -/
  deliveries : Nat → Delivery

def gatedInit : Gated where
  machine := mach.init mach.signals
  sent _ := 0
  returned _ := 0
  currentOutputPixel := 0

/-- All taps of a neuron have multiplied the waves of its next package. -/
def outputReady (st : Gated) (vn : Nat) : Bool :=
  decide (vn < mach.tile.numVNs) && (List.range mach.tile.vnSize).all fun j =>
    decide (j < mach.tile.foldingShift) ||
      decide ((st.returned vn + 1) * mach.wavesPerOutput ≤
        (st.machine.msnet.1 (vn * mach.tile.vnSize + j)).log.popped.length)

/-- The memory receives a package of the reduction network.  Its count is an `unsigned int`. -/
def receive (st : Gated) (vn : Nat) : Gated :=
  if mach.outputReady st vn then
    { st with
      returned := Function.update st.returned vn (st.returned vn + 1)
      currentOutputPixel := (st.currentOutputPixel + 1) % 2 ^ 32 }
  else st

/-- The loop of `SDMemory::send` over the ports. -/
def send (readPorts : Nat → ReadPort) (free : Nat → Bool) (st : Gated) : Gated :=
  { st with
    sent := fun i =>
      if decide (i < mach.ports.nReadPorts) && free i then
        match (readPorts i).inputFifo[st.sent i]? with
        | some pck =>
            if pck.iterationK ≤ mach.currentIteration st.currentOutputPixel then st.sent i + 1
            else st.sent i
        | none => st.sent i
      else st.sent i }

/-- What a port has sent to a multiplier. -/
def sentOperands (readPorts : Nat → ReadPort) (sent : Nat → Nat) (m : Nat) : List DataPackage :=
  let port := m / mach.ports.msSizePerInputPort
  ((readPorts port).inputFifo.take (sent port)).filter
    (·.addresses (m % mach.ports.msSizePerInputPort))

/-- The distribution network only brings what has been sent. -/
def arrivals (readPorts : Nat → ReadPort) (sent delivered : Nat → Nat)
    (deliveries : Nat → Delivery) (m : Nat) : Delivery :=
  if deliveries m = .operand ∧ (mach.sentOperands readPorts sent m).length ≤ delivered m then
    .nothing
  else deliveries m

/-- A cycle of the memory, of the multipliers and of the distribution network. -/
def gatedCycle (st : Gated) (event : GateEvent) : Gated :=
  let isOpen := decide (st.machine.loop.counters.pckIteration mach.layer mach.tile ≤
    mach.currentIteration st.currentOutputPixel)
  let readPorts := (mach.distribute mach.signals st.machine isOpen).readPorts
  let st := event.outputs.foldl mach.receive st
  let st := mach.send readPorts event.free st
  { st with
    machine := mach.cycle mach.signals st.machine (isOpen,
      mach.arrivals readPorts st.sent st.machine.delivered event.deliveries) }

def gatedRun (events : List GateEvent) : Gated :=
  events.foldl mach.gatedCycle mach.gatedInit

/-- The number of activations of the first phases that a multiplier has to multiply. -/
def due (phases m : Nat) : Nat :=
  ((List.range (phases * mach.iterations.phaseLength)).flatMap fun j =>
    mach.wholeWindow (Counters.digits mach.iterations j) m).length

/-- The phases do not overlap: when a weight flushes a fifo, the activations of all phases
before that of the weight have been multiplied.  Flush `i` is the one of weight
`(i + 1) * nFolding`, counted from 0. -/
def PhasesApart : Prop :=
  ∀ events, ∀ v : Neuron, v.InTile mach.tile → ∀ t : Tap, t.InTile mach.tile →
    ∀ i multiplied : Nat,
      ((mach.gatedRun events).machine.msnet.1 (mach.tile.multiplier v t)).log.flushes[i]? =
        some multiplied →
      mach.due ((i + 1) * mach.nFolding / mach.iterations.folds) (mach.tile.multiplier v t) ≤
        multiplied

/-- The tiles whose gate waits for all outputs of the earlier phases: up to each phase the
neurons of the tile compute no more outputs than the gate counts for its iteration, and nothing
that the gate computes with wraps. -/
structure GateFits : Prop where
  groups : mach.tile.tN = 1 ∨ mach.tile.tG = 1
  windows : Binary32.ceilDiv mach.layer.outY mach.tile.tY = mach.layer.outY
  divisor : mach.psumsPerFilter < 2 ^ 32
  numbers : ∀ p < mach.iterations.phases,
    (Counters.digits mach.iterations (p * mach.iterations.phaseLength)).pckIteration mach.layer
      mach.tile < 2 ^ 32
  outputs : ∀ p < mach.iterations.phases,
    p * (mach.tile.numVNs * (mach.iterations.iterX * mach.iterations.iterY)) ≤
      (Counters.digits mach.iterations (p * mach.iterations.phaseLength)).pckIteration mach.layer
        mach.tile * (mach.layer.outX * mach.layer.outY)

/-! ## The iterations of the weights -/

/-- The weights that the memory has sent to a multiplier so far. -/
def State.weightPackages (st : State) (m : Nat) : List DataPackage :=
  ((st.readPorts (m / mach.ports.msSizePerInputPort)).inputFifo.filter
    (·.addresses (m % mach.ports.msSizePerInputPort))).filter fun pck => pck.dataType = .weight

/-- The weights of a tap carry the iteration of their phase. -/
def State.Tagged (st : State) (m : Nat) : Prop :=
  ∀ (n : Nat) (pck : DataPackage), (st.weightPackages mach m)[n]? = some pck →
    pck.iterationK = (Counters.digits mach.iterations
      (n / mach.iterations.folds * mach.iterations.phaseLength)).pckIteration mach.layer mach.tile

section

variable {mach : Maeri} {sig : Signals}

theorem length_weightPackages (st : State) (m : Nat) :
    (st.weightPackages mach m).length = weightsOf (st.operands mach m) := by
  rw [State.weightPackages, weightsOf, State.operands, SDMemory.operandsFor, List.filter_map,
    List.length_map]
  rfl

theorem iterationK_of_mem_portPackages {cfg : ReadPorts} {pck copy : DataPackage} {i : Nat}
    (hType : pck.dataType ≠ .psum) (h : copy ∈ SDMemory.portPackages cfg pck i) :
    copy.iterationK = pck.iterationK := by
  cases hTraffic : pck.traffic with
  | broadcast =>
      simp only [SDMemory.portPackages, hTraffic, List.mem_singleton] at h
      rw [h]
      simp [SDMemory.replica, hType]
  | unicast dest =>
      simp only [SDMemory.portPackages, hTraffic, List.mem_ite_nil_right, List.mem_singleton] at h
      rw [h.2]
      simp [SDMemory.replica, hType]
  | multicast dest =>
      simp only [SDMemory.portPackages, hTraffic, List.mem_ite_nil_right, List.mem_singleton] at h
      rw [h.2]
      simp [SDMemory.replica, hType]

/-- The packages of a loop iteration carry its counters. -/
theorem foldl_packages {cfg : ReadPorts} {pcks : List DataPackage} {iteration i : Nat}
    (hType : ∀ pck ∈ pcks, pck.dataType ≠ .psum ∧ pck.iterationK = iteration)
    (readPorts : Nat → ReadPort) (hi : i < cfg.nReadPorts) :
    ∃ added, (pcks.foldl (SDMemory.sendPackageToInputFifos cfg) readPorts i).inputFifo =
        (readPorts i).inputFifo ++ added ∧ ∀ pck ∈ added, pck.iterationK = iteration := by
  rw [SDMemory.foldl_sendPackageToInputFifos cfg pcks readPorts hi]
  refine ⟨_, rfl, fun copy hMem => ?_⟩
  obtain ⟨pck, hPck, hCopy⟩ := List.mem_flatMap.mp (List.mem_filter.mp hMem).1
  obtain ⟨hNoPsum, hIteration⟩ := hType pck hPck
  rw [iterationK_of_mem_portPackages hNoPsum hCopy, hIteration]

theorem inputFifo_distribute (sig : Signals) (st : State) (isOpen : Bool) {i : Nat}
    (hi : i < mach.ports.nReadPorts) :
    ∃ added, ((mach.distribute sig st isOpen).readPorts i).inputFifo =
        (st.readPorts i).inputFifo ++ added ∧
      ∀ pck ∈ added, pck.iterationK = st.loop.counters.pckIteration mach.layer mach.tile := by
  unfold distribute
  simp only
  split
  · split
    · apply foldl_packages _ _ hi
      intro pck hMem
      obtain ⟨g, -, k, -, t, -, rfl⟩ := SDMemory.mem_forEachWeight.mp hMem
      exact ⟨by simp [SDMemory.weightPackage], rfl⟩
    · apply foldl_packages _ _ hi
      intro pck hMem
      obtain ⟨x, y, n, -, g, -, c, -, rfl⟩ := SDMemory.mem_forEachInputFrom hMem
      exact ⟨by simp [SDMemory.inputPackage], rfl⟩
  · exact ⟨[], (List.append_nil _).symm, fun pck hMem => by cases hMem⟩

theorem port_lt (hPorts : mach.P ≤ mach.L) {m : Nat} (hm : m < mach.numMs) :
    m / mach.ports.msSizePerInputPort < mach.ports.nReadPorts := by
  have hSize : mach.ports.nReadPorts * mach.ports.msSizePerInputPort = mach.numMs :=
    Nat.mul_div_cancel' (pow_dvd_pow 2 hPorts)
  rw [← hSize] at hm
  apply (Nat.div_lt_iff_lt_mul _).mpr hm
  apply Nat.pos_of_ne_zero
  intro hZero
  rw [hZero, Nat.mul_zero] at hm
  omega

/-- Only a weight iteration sends a weight to a tap. -/
theorem weightsOf_distribute (hPorts : mach.P ≤ mach.L) (hTile : mach.tile.Accepted mach.numMs)
    (st : State) (isOpen : Bool) {v : Neuron} (hv : v.InTile mach.tile) {t : Tap}
    (ht : t.InTile mach.tile) :
    weightsOf ((mach.distribute sig st isOpen).operands mach (mach.tile.multiplier v t)) =
        weightsOf (st.operands mach (mach.tile.multiplier v t)) ∨
      st.loop.inputFinished = false ∧ st.loop.weightsDistributed = false ∧
        weightsOf ((mach.distribute sig st isOpen).operands mach (mach.tile.multiplier v t)) =
          weightsOf (st.operands mach (mach.tile.multiplier v t)) + 1 := by
  have hm : mach.tile.multiplier v t < mach.numMs := hTile.multiplier_lt hv ht
  unfold distribute State.operands
  simp only
  split
  · rename_i hRunning
    split
    · rename_i hWeights
      right
      rw [Bool.and_eq_true, Bool.not_eq_true'] at hRunning
      rw [Bool.not_eq_true'] at hWeights
      refine ⟨hRunning.1, hWeights, ?_⟩
      have hNext := SDMemory.operandsFor_weights hPorts hTile mach.layer mach.filterAddress
        st.loop.counters st.readPorts hv ht
      rw [ports, numMs, hNext, weightsOf_append]
      rfl
    · left
      rw [operandsFor_windowFrom hPorts hm, weightsOf_append, weightsOf_window, Nat.add_zero]
  · exact Or.inl rfl

theorem pckIteration_of_zeroed {layer : DNNLayer} {tile : Tile} {cnt cnt' : Counters}
    (h : { cnt with currentS := 0, currentR := 0, currentC := 0 } = cnt') :
    cnt.pckIteration layer tile = cnt'.pckIteration layer tile := by
  rw [← h]
  rfl

theorem State.Tagged.cycle (hPorts : mach.P ≤ mach.L)
    (hTile : mach.tile.Accepted mach.numMs) {st : State} {v : Neuron} (hv : v.InTile mach.tile)
    {t : Tap} (ht : t.InTile mach.tile) (hSent : st.Sent mach sig (mach.tile.multiplier v t))
    (h : st.Tagged mach (mach.tile.multiplier v t)) (event : Bool × (Nat → Delivery)) :
    (mach.cycle sig st event).Tagged mach (mach.tile.multiplier v t) := by
  have hm : mach.tile.multiplier v t < mach.numMs := hTile.multiplier_lt hv ht
  obtain ⟨added, hAdded, hIteration⟩ :=
    inputFifo_distribute sig st event.1 (port_lt hPorts hm)
  intro n pck hGet
  have hLength := @length_weightPackages mach (mach.distribute sig st event.1)
    (mach.tile.multiplier v t)
  rw [State.weightPackages, (cycle_memory sig st event).2] at hGet
  rw [State.weightPackages] at hLength
  rw [hAdded, List.filter_append, List.filter_append] at hGet hLength
  have hOldLength := @length_weightPackages mach st (mach.tile.multiplier v t)
  rw [State.weightPackages] at hOldLength
  rcases Nat.lt_or_ge n (weightsOf (st.operands mach (mach.tile.multiplier v t))) with hOld | hNew
  · rw [List.getElem?_append_left (by omega)] at hGet
    exact h n pck hGet
  · rw [List.getElem?_append_right (by omega)] at hGet
    have hLess := (List.getElem?_eq_some_iff.mp hGet).1
    rw [List.length_append] at hLength
    have hTag : pck.iterationK = st.loop.counters.pckIteration mach.layer mach.tile := by
      apply hIteration
      exact (List.mem_filter.mp (List.mem_filter.mp (List.mem_of_getElem? hGet)).1).1
    rcases @weightsOf_distribute mach sig hPorts hTile st event.1 v hv t ht with
      hSame | ⟨hRunning, hWeights, hOne⟩
    · omega
    · obtain ⟨p, hStart, hLow, hHigh⟩ := hSent.phased.filling_bounds hRunning hWeights
      have hn : n = weightsOf (st.operands mach (mach.tile.multiplier v t)) := by omega
      have hPhase : n / mach.iterations.folds = p := by
        rw [hn]
        exact Nat.div_eq_of_lt_le hLow hHigh
      rw [hTag, hPhase, ← hStart]
      exact pckIteration_of_zeroed (hSent.phased.inStep.weights hRunning hWeights)

theorem run_tagged (hPorts : mach.P ≤ mach.L) (hIt : mach.iterations.Positive)
    (hTile : mach.tile.Accepted mach.numMs) (sig : Signals)
    (events : List (Bool × (Nat → Delivery))) {v : Neuron} (hv : v.InTile mach.tile) {t : Tap}
    (ht : t.InTile mach.tile) :
    (mach.run sig events).Tagged mach (mach.tile.multiplier v t) := by
  induction events using List.reverseRecOn with
  | nil =>
      intro n pck hGet
      have hNone : ((mach.run sig []).weightPackages mach (mach.tile.multiplier v t)) = [] := rfl
      rw [hNone] at hGet
      cases hGet
  | append_singleton events event ih =>
      rw [run_append]
      exact ih.cycle hPorts hTile hv ht (run_sent hPorts hIt hTile sig events hv ht) event

/-! ## What passes the gate -/

theorem send_cases (readPorts : Nat → ReadPort) (free : Nat → Bool) (st : Gated) (i : Nat) :
    (mach.send readPorts free st).sent i = st.sent i ∨
      ∃ pck, (readPorts i).inputFifo[st.sent i]? = some pck ∧
        pck.iterationK ≤ mach.currentIteration st.currentOutputPixel ∧
        (mach.send readPorts free st).sent i = st.sent i + 1 := by
  simp only [send]
  split
  · cases hNext : (readPorts i).inputFifo[st.sent i]? with
    | none => exact Or.inl rfl
    | some pck =>
        simp only
        split
        · rename_i hPasses
          exact Or.inr ⟨pck, rfl, hPasses, rfl⟩
        · exact Or.inl rfl
  · exact Or.inl rfl

/-- The weights that a port has sent to a multiplier. -/
def sentWeights (mach : Maeri) (readPorts : Nat → ReadPort) (sent : Nat → Nat) (m : Nat) : Nat :=
  ((mach.sentOperands readPorts sent m).filter fun pck => pck.dataType = .weight).length

/-- A port that sends a weight has found it behind those it has sent before. -/
theorem sentWeights_send (readPorts : Nat → ReadPort) (free : Nat → Bool) (st : Gated) (m : Nat) :
    mach.sentWeights readPorts (mach.send readPorts free st).sent m =
        mach.sentWeights readPorts st.sent m ∨
      mach.sentWeights readPorts (mach.send readPorts free st).sent m =
          mach.sentWeights readPorts st.sent m + 1 ∧
        ∃ pck, ((((readPorts (m / mach.ports.msSizePerInputPort)).inputFifo.filter
            (·.addresses (m % mach.ports.msSizePerInputPort))).filter fun pck =>
              pck.dataType = .weight)[mach.sentWeights readPorts st.sent m]? = some pck) ∧
          pck.iterationK ≤ mach.currentIteration st.currentOutputPixel := by
  rcases send_cases readPorts free st (m / mach.ports.msSizePerInputPort) with
    hSame | ⟨pck, hNext, hPasses, hOne⟩
  · left
    rw [sentWeights, sentWeights, sentOperands, sentOperands, hSame]
  · simp only [sentWeights, sentOperands, hOne, List.take_add_one, hNext, Option.toList_some,
      List.filter_append, List.filter_filter]
    cases hWeight : decide (pck.dataType = .weight) &&
        pck.addresses (m % mach.ports.msSizePerInputPort) with
    | false =>
        left
        rw [List.filter_cons_of_neg (by simpa using hWeight), List.filter_nil, List.append_nil]
    | true =>
        right
        rw [List.filter_cons_of_pos (by simpa using hWeight), List.filter_nil, List.length_append,
          List.length_singleton]
        exact ⟨rfl, pck, getElem?_filter_take hNext hWeight, hPasses⟩

theorem sentOperands_prefix_operands (st : State) (sent : Nat → Nat) (m : Nat) :
    (mach.sentOperands st.readPorts sent m).map (fun pck => (pck.data, pck.dataType)) <+:
      st.operands mach m :=
  ((List.take_prefix _ _).filter _).map _

/-- The weights among the operands that have arrived have been sent. -/
theorem weightsOf_le_sentWeights {st : State} {sent : Nat → Nat} {m : Nat}
    (h : st.delivered m ≤ (mach.sentOperands st.readPorts sent m).length) :
    weightsOf ((st.operands mach m).take (st.delivered m)) ≤
      mach.sentWeights st.readPorts sent m := by
  have hSent : (st.operands mach m).take (st.delivered m) <+:
      (mach.sentOperands st.readPorts sent m).map fun pck => (pck.data, pck.dataType) := by
    apply List.prefix_of_prefix_length_le (List.take_prefix _ _)
      (sentOperands_prefix_operands st sent m)
    rw [List.length_map]
    exact (List.length_take_le _ _).trans h
  have hCount : mach.sentWeights st.readPorts sent m = weightsOf
      ((mach.sentOperands st.readPorts sent m).map fun pck => (pck.data, pck.dataType)) := by
    rw [sentWeights, weightsOf, List.filter_map, List.length_map]
    rfl
  rw [hCount]
  exact (hSent.filter _).length_le

private theorem deliver_delivered (deliveries : Nat → Delivery) (st : State) (k m : Nat) :
    (mach.deliver deliveries st k).delivered m = st.delivered m ∨
      m = k ∧ deliveries k = .operand ∧
        (mach.deliver deliveries st k).delivered m = st.delivered m + 1 := by
  unfold Maeri.deliver
  cases hDelivery : deliveries k with
  | nothing => exact Or.inl rfl
  | operand =>
      simp only
      split
      · exact Or.inl rfl
      · rcases eq_or_ne m k with rfl | hOther
        · exact Or.inr ⟨rfl, trivial, Function.update_self _ _ _⟩
        · exact Or.inl (Function.update_of_ne hOther _ _)
  | psum data =>
      simp only
      split
      · exact Or.inl rfl
      · exact Or.inl rfl

/-- A multiplier gets at most one operand in a cycle, and only if the network brings one. -/
theorem cycle_delivered (sig : Signals) (st : State) (event : Bool × (Nat → Delivery)) (m : Nat) :
    (mach.cycle sig st event).delivered m = st.delivered m ∨
      event.2 m = .operand ∧ (mach.cycle sig st event).delivered m = st.delivered m + 1 := by
  have hLoop : ∀ (now : State) (k : Nat),
      ((List.range k).foldl (mach.deliver event.2) now).delivered m = now.delivered m ∨
        m < k ∧ event.2 m = .operand ∧
          ((List.range k).foldl (mach.deliver event.2) now).delivered m =
            now.delivered m + 1 := by
    intro now k
    induction k with
    | zero => exact Or.inl rfl
    | succ k ih =>
        rw [List.range_succ, List.foldl_append, List.foldl_cons, List.foldl_nil]
        rcases @deliver_delivered mach event.2
            ((List.range k).foldl (mach.deliver event.2) now) k m with
          hSame | ⟨rfl, hOperand, hOne⟩
        · rw [hSame]
          rcases ih with hBefore | ⟨hLess, hOperand, hOne⟩
          · exact Or.inl hBefore
          · exact Or.inr ⟨by omega, hOperand, hOne⟩
        · rcases ih with hBefore | ⟨hLess, -⟩
          · exact Or.inr ⟨Nat.lt_succ_self m, hOperand, by rw [hOne, hBefore]⟩
          · omega
  rcases hLoop _ mach.numMs with hSame | ⟨-, hOperand, hOne⟩
  · exact Or.inl hSame
  · exact Or.inr ⟨hOperand, hOne⟩

/-- The count of the outputs. -/
structure Counted (mach : Maeri) (st : Gated) : Prop where
  returned : ∀ v : Neuron, v.InTile mach.tile → ∀ t : Tap, t.InTile mach.tile →
    st.returned (mach.tile.currentVn v) * mach.wavesPerOutput ≤
      (st.machine.msnet.1 (mach.tile.multiplier v t)).log.popped.length
  count : st.currentOutputPixel ≤ ∑ vn ∈ Finset.range mach.tile.numVNs, st.returned vn

private theorem Counted.receive {st : Gated} (h : mach.Counted st) (vn : Nat) :
    mach.Counted (mach.receive st vn) ∧
      (mach.receive st vn).machine = st.machine ∧ (mach.receive st vn).sent = st.sent := by
  unfold Maeri.receive
  split
  · rename_i hReady
    rw [outputReady, Bool.and_eq_true, decide_eq_true_eq, List.all_eq_true] at hReady
    obtain ⟨hVn, hTaps⟩ := hReady
    refine ⟨⟨fun v hv t ht => ?_, ?_⟩, rfl, rfl⟩
    · simp only
      rcases eq_or_ne (mach.tile.currentVn v) vn with rfl | hOther
      · rw [Function.update_self]
        have hTap := hTaps _ (List.mem_range.mpr (Tile.tapIndex_lt ht))
        rw [Bool.or_eq_true, decide_eq_true_eq, decide_eq_true_eq] at hTap
        rcases hTap with hPsum | hMultiplied
        · omega
        · exact hMultiplied
      · rw [Function.update_of_ne hOther]
        exact h.returned v hv t ht
    · simp only
      refine (Nat.mod_le _ _).trans ((Nat.add_le_add_right h.count 1).trans (Nat.le_of_eq ?_))
      rw [Finset.sum_update_of_mem (Finset.mem_range.mpr hVn),
        ← Finset.add_sum_erase _ _ (Finset.mem_range.mpr hVn), Finset.sdiff_singleton_eq_erase]
      omega
  · exact ⟨h, rfl, rfl⟩

private theorem Counted.foldl_receive {st : Gated} (h : mach.Counted st)
    (outputs : List Nat) :
    mach.Counted (outputs.foldl mach.receive st) ∧
      (outputs.foldl mach.receive st).machine = st.machine ∧
      (outputs.foldl mach.receive st).sent = st.sent := by
  induction outputs generalizing st with
  | nil => exact ⟨h, rfl, rfl⟩
  | cons vn outputs ih =>
      obtain ⟨hNext, hMachine, hSent⟩ := h.receive vn
      obtain ⟨hAll, hMachineAll, hSentAll⟩ := ih hNext
      exact ⟨hAll, hMachineAll.trans hMachine, hSentAll.trans hSent⟩

/-! ## The phases stay apart -/

/-- The products of a neuron for its part of the outputs of the gate. -/
private theorem waves_of_outputs (hFolds : mach.nFolding = mach.iterations.folds) :
    ∃ psums, mach.psumsPerFilter = mach.layer.outX * mach.layer.outY * psums ∧
      psums * mach.wavesPerOutput = mach.iterations.folds := by
  unfold psumsPerFilter wavesPerOutput Iterations.vnat
  cases mach.tile.folding with
  | true =>
      refine ⟨mach.iterations.folds, ?_, Nat.mul_one _⟩
      simp only [if_true, Iterations.folds]
      ring
  | false =>
      refine ⟨1, ?_, ?_⟩
      · simp
      · simp [hFolds]

/-- All neurons have returned their part when the sum of the parts is there and none has
returned more. -/
private theorem all_returned {n part : Nat} {returned : Nat → Nat}
    (hSum : n * part ≤ ∑ vn ∈ Finset.range n, returned vn)
    (hMost : ∀ vn < n, returned vn ≤ part) : ∀ vn < n, part ≤ returned vn := by
  by_contra hLess
  push Not at hLess
  obtain ⟨vn, hVn, hMissing⟩ := hLess
  have hStrict : ∑ vn ∈ Finset.range n, returned vn < ∑ _vn ∈ Finset.range n, part :=
    Finset.sum_lt_sum (fun vn hMem => hMost vn (Finset.mem_range.mp hMem))
      ⟨vn, Finset.mem_range.mpr hVn, hMissing⟩
  rw [Finset.sum_const, Finset.card_range, smul_eq_mul] at hStrict
  omega

/-- A tap only multiplies for a phase whose weights have come. -/
private theorem weights_of_popped (hPorts : mach.P ≤ mach.L) (hLayer : mach.layer.Positive)
    (hTile : mach.tile.Accepted mach.numMs) (hFit : mach.LinksFit)
    (hAgrees : Agrees mach mach.signals) (events : List (Bool × (Nat → Delivery))) {v : Neuron}
    (hv : v.InTile mach.tile) {t : Tap} (ht : t.InTile mach.tile) {p : Nat}
    (hPopped : p * mach.iterations.phaseLength <
      ((mach.run mach.signals events).msnet.1 (mach.tile.multiplier v t)).log.popped.length) :
    (p + 1) * mach.iterations.folds ≤
      weightsOf (((mach.run mach.signals events).operands mach (mach.tile.multiplier v t)).take
        ((mach.run mach.signals events).delivered (mach.tile.multiplier v t))) := by
  have hIt : mach.iterations.Positive := Iterations.ofTile_positive hLayer hTile
  have hRun := run_streams hPorts hLayer hTile hFit.groups hAgrees events
  obtain ⟨got, _, _, hFollows, hGot, -⟩ :=
    (hRun.streams.taps _ (taps_multiplier hAgrees hv ht)).2.follows
  have hSent := run_sent hPorts hIt hTile mach.signals events hv ht
  apply (hSent.ordered _ (List.take_prefix _ _)).weightsFirst
  -- the first activation of a phase comes from the memory
  have hMemory : (mach.plan mach.signals).fromMemory (mach.tile.multiplier v t)
      (p * mach.iterations.phaseLength) = true := by
    have hFirst : p * mach.iterations.phaseLength / mach.iterations.folds % mach.iterations.iterY =
        0 := by
      have hSplit : p * mach.iterations.phaseLength =
          p * mach.iterations.iterX * mach.iterations.iterY * mach.iterations.folds := by
        rw [Iterations.phaseLength]
        ring
      rw [hSplit, Nat.mul_div_cancel _ hIt.folds, Nat.mul_mod_left]
    change (!(_ && decide (0 < p * mach.iterations.phaseLength / mach.iterations.folds %
      mach.iterations.iterY))) = true
    rw [hFirst]
    simp
  have hTaken := (picked_mono ((mach.plan mach.signals).fromMemory (mach.tile.multiplier v t))
    ((mach.plan mach.signals).value (mach.tile.multiplier v t))
    (Nat.succ_le_of_lt hPopped)).length_le
  rw [Nat.succ_eq_add_one, picked_succ_of_true _ hMemory, List.length_append,
    List.length_singleton] at hTaken
  have hArrived := congrArg List.length (congrArg (· ++ MSwitch.activations
    ((mach.run mach.signals events).msnet.2.store.recv (.input (mach.tile.multiplier v t))))
      hFollows.activations)
  simp only [hGot, List.length_append] at hArrived
  rw [sentActivations_eq_picked hPorts hTile hLayer.strides hFit.groups hAgrees hv ht]
  omega

/-- A gated machine whose phases have not overlapped. -/
structure Apart (mach : Maeri) (st : Gated) : Prop where
  run : ∃ events, st.machine = mach.run mach.signals events
  counted : mach.Counted st
  bounded : ∀ i < mach.ports.nReadPorts,
    st.sent i ≤ (st.machine.readPorts i).inputFifo.length
  delivered : ∀ m < mach.numMs, st.machine.delivered m ≤
    (mach.sentOperands st.machine.readPorts st.sent m).length
  /-- When the weights of a phase have begun to leave, the phases before have been multiplied. -/
  multiplied : ∀ v : Neuron, v.InTile mach.tile → ∀ t : Tap, t.InTile mach.tile → ∀ p,
    p * mach.iterations.folds <
        mach.sentWeights st.machine.readPorts st.sent (mach.tile.multiplier v t) →
      ∀ v' : Neuron, v'.InTile mach.tile → ∀ t' : Tap, t'.InTile mach.tile →
        p * mach.iterations.phaseLength ≤
          (st.machine.msnet.1 (mach.tile.multiplier v' t')).log.popped.length
  flushes : ∀ v : Neuron, v.InTile mach.tile → ∀ t : Tap, t.InTile mach.tile →
    ∀ i multiplied : Nat,
      (st.machine.msnet.1 (mach.tile.multiplier v t)).log.flushes[i]? = some multiplied →
        (i + 1) * mach.iterations.phaseLength ≤ multiplied

/-- A weight that passes the gate shows that all phases before its own are done. -/
private theorem Apart.passes (hPorts : mach.P ≤ mach.L) (hLayer : mach.layer.Positive)
    (hTile : mach.tile.Accepted mach.numMs) (hFit : mach.LinksFit)
    (hAgrees : Agrees mach mach.signals) (hGate : mach.GateFits) {st : Gated}
    (h : mach.Apart st) {currentOutputPixel : Nat} {returned : Nat → Nat}
    (hCounted : mach.Counted { st with
      returned := returned
      currentOutputPixel := currentOutputPixel })
    {p : Nat} (hp : p < mach.iterations.phases)
    (hPasses : (Counters.digits mach.iterations (p * mach.iterations.phaseLength)).pckIteration
      mach.layer mach.tile ≤ mach.currentIteration currentOutputPixel) {v' : Neuron}
    (hv' : v'.InTile mach.tile) {t' : Tap} (ht' : t'.InTile mach.tile) :
    p * mach.iterations.phaseLength ≤
      (st.machine.msnet.1 (mach.tile.multiplier v' t')).log.popped.length := by
  have hIt : mach.iterations.Positive := Iterations.ofTile_positive hLayer hTile
  obtain ⟨events, hRun⟩ := h.run
  obtain ⟨psums, hFilter, hWaves⟩ := waves_of_outputs hFit.folds
  have hChannel : mach.outputPsumsPerChannel = mach.layer.outX * mach.layer.outY * psums :=
    (Nat.mod_eq_of_lt hGate.divisor).trans hFilter
  have hPsums : 0 < psums := by
    apply Nat.pos_of_ne_zero
    rintro rfl
    have := hIt.folds
    omega
  have hOne : 0 < mach.wavesPerOutput := by
    apply Nat.pos_of_ne_zero
    intro hZero
    have := hIt.folds
    rw [hZero, Nat.mul_zero] at hWaves
    omega
  have hPart : p * (mach.iterations.iterX * mach.iterations.iterY) * psums * mach.wavesPerOutput =
      p * mach.iterations.phaseLength := by
    rw [Nat.mul_assoc _ psums, hWaves, Iterations.phaseLength]
    ring
  by_cases hMore : ∃ vn < mach.tile.numVNs,
      p * (mach.iterations.iterX * mach.iterations.iterY) * psums < returned vn
  · -- a neuron works on the phase already, so its weights have left before
    obtain ⟨vn, hVn, hMore⟩ := hMore
    obtain ⟨v, hv, rfl⟩ := Tile.exists_currentVn hVn
    have ht : Tap.InTile ⟨0, 0, 0⟩ mach.tile := ⟨hTile.tC, hTile.tR, hTile.tS⟩
    have hPopped : p * mach.iterations.phaseLength <
        (st.machine.msnet.1 (mach.tile.multiplier v ⟨0, 0, 0⟩)).log.popped.length := by
      rw [← hPart]
      exact lt_of_lt_of_le (Nat.mul_lt_mul_of_pos_right hMore hOne)
        (hCounted.returned v hv _ ht)
    have hCame := weights_of_popped hPorts hLayer hTile hFit hAgrees events hv ht
      (hRun ▸ hPopped)
    rw [← hRun] at hCame
    have hLeft := weightsOf_le_sentWeights
      (h.delivered _ (hTile.multiplier_lt hv ht))
    apply h.multiplied v hv _ ht p _ v' hv' t' ht'
    have hNext := Nat.succ_mul p mach.iterations.folds
    have hPos := hIt.folds
    rw [Nat.succ_eq_add_one] at hNext
    omega
  · push Not at hMore
    have hChannelPos : 0 < mach.outputPsumsPerChannel := by
      rw [hChannel]
      exact Nat.mul_pos (Nat.mul_pos hLayer.outX hLayer.outY) hPsums
    have hSum : mach.tile.numVNs * (p * (mach.iterations.iterX * mach.iterations.iterY) * psums) ≤
        ∑ vn ∈ Finset.range mach.tile.numVNs, returned vn := by
      have hCount : currentOutputPixel ≤ ∑ vn ∈ Finset.range mach.tile.numVNs, returned vn :=
        hCounted.count
      have hEnough := (Nat.le_div_iff_mul_le hChannelPos).mp hPasses
      have hOutputs := Nat.mul_le_mul_right psums (hGate.outputs p hp)
      refine le_trans ?_ hCount
      calc mach.tile.numVNs * (p * (mach.iterations.iterX * mach.iterations.iterY) * psums) =
          p * (mach.tile.numVNs * (mach.iterations.iterX * mach.iterations.iterY)) * psums := by
            ring
        _ ≤ _ := hOutputs
        _ = (Counters.digits mach.iterations (p * mach.iterations.phaseLength)).pckIteration
            mach.layer mach.tile * mach.outputPsumsPerChannel := by
          rw [hChannel]
          ring
        _ ≤ currentOutputPixel := hEnough
    have hReturned := all_returned hSum hMore _ (Tile.currentVn_lt hv')
    rw [← hPart]
    exact (Nat.mul_le_mul_right _ hReturned).trans (hCounted.returned v' hv' t' ht')

/-- What a port has sent does not change when more is added to its fifo. -/
private theorem sentOperands_of_added {readPorts readPorts' : Nat → ReadPort} {sent : Nat → Nat}
    {m : Nat} {added : List DataPackage}
    (hAdded : (readPorts' (m / mach.ports.msSizePerInputPort)).inputFifo =
      (readPorts (m / mach.ports.msSizePerInputPort)).inputFifo ++ added)
    (hSent : sent (m / mach.ports.msSizePerInputPort) ≤
      (readPorts (m / mach.ports.msSizePerInputPort)).inputFifo.length) :
    mach.sentOperands readPorts' sent m = mach.sentOperands readPorts sent m := by
  simp only [sentOperands, hAdded, List.take_append_of_le_length hSent]

/-- A port only sends more. -/
private theorem sentOperands_mono {readPorts : Nat → ReadPort} {sent sent' : Nat → Nat} {m : Nat}
    (h : sent (m / mach.ports.msSizePerInputPort) ≤ sent' (m / mach.ports.msSizePerInputPort)) :
    (mach.sentOperands readPorts sent m).length ≤ (mach.sentOperands readPorts sent' m).length :=
  ((List.take_prefix_take_left h).filter _).length_le

/-- What the multipliers do in a cycle of a run. -/
private theorem run_swept (hPorts : mach.P ≤ mach.L) (hLayer : mach.layer.Positive)
    (hTile : mach.tile.Accepted mach.numMs) (hGroups : mach.tile.tN = 1 ∨ mach.tile.tG = 1)
    {sig : Signals} (hAgrees : Agrees mach sig) (events : List (Bool × (Nat → Delivery))) :
    let st := mach.run sig events
    MSNetwork.Swept (mach.plan sig) mach.numMs
      (fun m => activationsOf ((st.operands mach m).take (st.delivered m)))
      (fun m => weightsOf ((st.operands mach m).take (st.delivered m))) st.msnet
      (MSNetwork.cycle mach.numMs st.msnet) mach.numMs := by
  apply (run_streams hPorts hLayer hTile hGroups hAgrees events).streams.swept hAgrees.linked
  intro m hm
  exact (activationsOf_mono (List.take_prefix _ _)).trans
    (run_fed hPorts hLayer hTile hGroups hAgrees events m hm)

/-- A cycle keeps the phases apart. -/
private theorem Apart.step (hPorts : mach.P ≤ mach.L) (hLayer : mach.layer.Positive)
    (hTile : mach.tile.Accepted mach.numMs) (hFit : mach.LinksFit)
    (hAgrees : Agrees mach mach.signals) (hGate : mach.GateFits) {st now : Gated}
    (h : mach.Apart st) (hCounted : mach.Counted now) (hMachine : now.machine = st.machine)
    (hSent : now.sent = st.sent) (isOpen : Bool) (free : Nat → Bool)
    (deliveries : Nat → Delivery) :
    let readPorts := (mach.distribute mach.signals st.machine isOpen).readPorts
    let sent := mach.send readPorts free now
    mach.Apart { sent with
      machine := mach.cycle mach.signals st.machine (isOpen,
        mach.arrivals readPorts sent.sent st.machine.delivered deliveries) } := by
  intro readPorts sent
  have hIt : mach.iterations.Positive := Iterations.ofTile_positive hLayer hTile
  obtain ⟨events, hRun⟩ := h.run
  generalize hEvent : (isOpen, mach.arrivals readPorts sent.sent st.machine.delivered deliveries) =
    event
  have hReadPorts : (mach.cycle mach.signals st.machine event).readPorts = readPorts := by
    rw [(cycle_memory _ _ _).2, ← hEvent]
  have hNext : mach.cycle mach.signals st.machine event =
      mach.run mach.signals (events ++ [event]) := by
    rw [run_append, hRun]
  have hSwept := run_swept hPorts hLayer hTile hFit.groups hAgrees events
  rw [← hRun] at hSwept
  have hGrown : ∀ v : Neuron, v.InTile mach.tile → ∀ t : Tap, t.InTile mach.tile →
      (st.machine.msnet.1 (mach.tile.multiplier v t)).log.popped.length ≤
        ((mach.cycle mach.signals st.machine event).msnet.1
          (mach.tile.multiplier v t)).log.popped.length := by
    intro v hv t ht
    rw [cycle_multipliers]
    exact hSwept.grown _ (taps_multiplier hAgrees hv ht)
  -- what was sent before is still the same
  have hBefore : ∀ m < mach.numMs, mach.sentOperands readPorts st.sent m =
      mach.sentOperands st.machine.readPorts st.sent m := by
    intro m hm
    obtain ⟨added, hAdded, -⟩ :=
      inputFifo_distribute mach.signals st.machine isOpen (port_lt hPorts hm)
    exact sentOperands_of_added hAdded (h.bounded _ (port_lt hPorts hm))
  have hMore : ∀ i, st.sent i ≤ sent.sent i := by
    intro i
    rw [← hSent]
    rcases send_cases readPorts free now i with hSame | ⟨_, -, -, hOne⟩
    · exact hSame.ge
    · exact (Nat.le_succ _).trans hOne.ge
  refine ⟨⟨_, hNext⟩, ⟨fun v hv t ht => ?_, hCounted.count⟩, fun i hi => ?_, fun m hm => ?_,
    fun v hv t ht p hp v' hv' t' ht' => ?_, fun v hv t ht i multiplied hFlush => ?_⟩
  · refine (hCounted.returned v hv t ht).trans ?_
    rw [hMachine]
    exact hGrown v hv t ht
  · simp only
    rw [hReadPorts]
    rcases send_cases readPorts free now i with hSame | ⟨pck, hGet, -, hOne⟩
    · obtain ⟨added, hAdded, -⟩ := inputFifo_distribute mach.signals st.machine isOpen hi
      rw [hSame, hSent, hAdded, List.length_append]
      exact (h.bounded i hi).trans (Nat.le_add_right _ _)
    · rw [hOne]
      exact (List.getElem?_eq_some_iff.mp hGet).1
  · simp only
    rw [hReadPorts]
    rcases cycle_delivered mach.signals st.machine event m with hSame | ⟨hOperand, hOne⟩
    · rw [hSame]
      refine (h.delivered m hm).trans ?_
      rw [← hBefore m hm]
      exact sentOperands_mono (hMore _)
    · rw [← hEvent] at hOperand
      simp only [arrivals] at hOperand
      split at hOperand
      · cases hOperand
      · rename_i hArrives
        rw [hOne]
        by_contra hNone
        exact hArrives ⟨hOperand, by omega⟩
  · refine le_trans ?_ (hGrown v' hv' t' ht')
    have hOld : mach.sentWeights readPorts now.sent (mach.tile.multiplier v t) =
        mach.sentWeights st.machine.readPorts st.sent (mach.tile.multiplier v t) := by
      rw [sentWeights, sentWeights, hSent, hBefore _ (hTile.multiplier_lt hv ht)]
    simp only at hp
    rw [hReadPorts] at hp
    rcases sentWeights_send readPorts free now (mach.tile.multiplier v t) with
      hSame | ⟨hOne, pck, hGet, hPasses⟩
    · apply h.multiplied v hv t ht p _ v' hv' t' ht'
      rw [← hOld, ← hSame]
      exact hp
    · rcases Nat.lt_or_ge (p * mach.iterations.folds)
        (mach.sentWeights readPorts now.sent (mach.tile.multiplier v t)) with hLess | hFirst
      · exact h.multiplied v hv t ht p (hOld ▸ hLess) v' hv' t' ht'
      · -- the first weight of phase `p` has just passed
        have hIndex : mach.sentWeights readPorts now.sent (mach.tile.multiplier v t) =
            p * mach.iterations.folds := by
          have hStep := hp.trans_eq hOne
          omega
        rw [hIndex, ← hReadPorts] at hGet
        have hTag := run_tagged hPorts hIt hTile mach.signals (events ++ [event]) hv ht
        rw [← hNext] at hTag
        have hIteration := hTag _ pck hGet
        have hWeights :=
          (run_sent hPorts hIt hTile mach.signals (events ++ [event]) hv ht).phased.weights_le
        rw [← hNext, ← length_weightPackages] at hWeights
        have hp : p < mach.iterations.phases := by
          apply Nat.lt_of_mul_lt_mul_right
          exact (List.getElem?_eq_some_iff.mp hGet).1.trans_le hWeights
        rw [Nat.mul_div_cancel _ hIt.folds] at hIteration
        rw [hIteration] at hPasses
        apply Apart.passes hPorts hLayer hTile hFit hAgrees hGate h _ hp hPasses hv' ht'
        · exact now.returned
        · refine ⟨fun v hv t ht => ?_, hCounted.count⟩
          simp only
          rw [← hMachine]
          exact hCounted.returned v hv t ht
  · simp only at hFlush
    rw [cycle_multipliers] at hFlush
    rcases flushes_cycle hSwept (taps_multiplier hAgrees hv ht) hFlush with
      hOld | ⟨rfl, -, hNew⟩
    · exact h.flushes v hv t ht i multiplied hOld
    · apply h.multiplied v hv t ht (i + 1) _ v hv t ht
      exact (lt_of_lt_pred_div hIt.folds hNew).trans_le
        (weightsOf_le_sentWeights (h.delivered _ (hTile.multiplier_lt hv ht)))

theorem gatedRun_append (events : List GateEvent) (event : GateEvent) :
    mach.gatedRun (events ++ [event]) = mach.gatedCycle (mach.gatedRun events) event := by
  rw [gatedRun, List.foldl_append]
  rfl

theorem gatedRun_apart (hPorts : mach.P ≤ mach.L) (hLayer : mach.layer.Positive)
    (hTile : mach.tile.Accepted mach.numMs) (hFit : mach.LinksFit)
    (hAgrees : Agrees mach mach.signals) (hGate : mach.GateFits) (events : List GateEvent) :
    mach.Apart (mach.gatedRun events) := by
  induction events using List.reverseRecOn with
  | nil =>
      have hNone : ∀ m, mach.sentWeights (mach.gatedRun []).machine.readPorts
          (mach.gatedRun []).sent m = 0 := fun m => rfl
      refine ⟨⟨[], rfl⟩, ⟨fun v hv t ht => ?_, Nat.zero_le _⟩, fun i _ => le_rfl,
        fun m _ => le_rfl, fun v hv t ht p hp => ?_, fun v hv t ht i multiplied hFlush => ?_⟩
      · exact (Nat.zero_mul _).le
      · rw [hNone] at hp
        exact absurd hp (Nat.not_lt_zero _)
      · cases hFlush
  | append_singleton events event ih =>
      rw [gatedRun_append]
      obtain ⟨hCounted, hMachine, hSent⟩ := ih.counted.foldl_receive event.outputs
      have hStep := ih.step hPorts hLayer hTile hFit hAgrees hGate hCounted hMachine hSent
      unfold gatedCycle
      simp only
      have hKept : ∀ readPorts, (mach.send readPorts event.free
          (event.outputs.foldl mach.receive (mach.gatedRun events))).machine =
            (mach.gatedRun events).machine := fun _ => hMachine
      rw [hKept]
      exact hStep _ event.free event.deliveries

private theorem foldl_receive_machine (st : Gated) (outputs : List Nat) :
    (outputs.foldl mach.receive st).machine = st.machine := by
  induction outputs generalizing st with
  | nil => rfl
  | cons vn outputs ih =>
      rw [List.foldl_cons, ih, receive]
      split
      · rfl
      · rfl

/-- Behind the gate the machine runs as it does with some gate and some network. -/
theorem gatedRun_machine (events : List GateEvent) :
    ∃ events', (mach.gatedRun events).machine = mach.run mach.signals events' := by
  induction events using List.reverseRecOn with
  | nil => exact ⟨[], rfl⟩
  | append_singleton events event ih =>
      obtain ⟨events', hRun⟩ := ih
      rw [gatedRun_append]
      unfold gatedCycle
      simp only
      have hKept : ∀ readPorts, (mach.send readPorts event.free
          (event.outputs.foldl mach.receive (mach.gatedRun events))).machine =
            mach.run mach.signals events' := fun _ => (foldl_receive_machine _ _).trans hRun
      rw [hKept, ← run_append]
      exact ⟨_, rfl⟩

/-- The activations of whole windows, while the memory leaves nothing out. -/
private theorem length_sentActivations (m : Nat) {phases : Nat}
    (hWhole : ∀ j, mach.signals.yInit (Counters.digits mach.iterations j) = 0) :
    mach.due phases m =
      (mach.sentActivations mach.signals m (phases * mach.iterations.phaseLength)).length := by
  rw [due, sentActivations]
  simp only [hWhole]
  rfl

private theorem yInit_digits_of_outY {layer : DNNLayer} {tile : Tile} (hOne : layer.outY = 1)
    (hY : 0 < tile.tY) (j : Nat) :
    SDMemory.yInit layer tile (Counters.digits (.ofTile layer tile) j) = 0 := by
  have hWindows : (Iterations.ofTile layer tile).iterY = 1 := by
    have hUpper : Binary32.ceilDiv layer.outY tile.tY ≤ 1 := by
      rw [hOne]
      exact Binary32.ceilDiv_le Nat.one_pos hY (by decide) (by omega)
    have hLower : 0 < Binary32.ceilDiv layer.outY tile.tY := by
      rw [hOne]
      exact Binary32.ceilDiv_pos Nat.one_pos hY
    exact Nat.le_antisymm hUpper hLower
  rw [SDMemory.yInit, currentY_digits, hWindows, Nat.mod_one]
  simp

private theorem length_due (hPorts : mach.P ≤ mach.L) (hTile : mach.tile.Accepted mach.numMs)
    (hStrides : 1 ≤ mach.layer.strides) (hGroups : mach.tile.tN = 1 ∨ mach.tile.tG = 1)
    (phases : Nat) {v : Neuron} (hv : v.InTile mach.tile) {t : Tap} (ht : t.InTile mach.tile) :
    mach.due phases (mach.tile.multiplier v t) = phases * mach.iterations.phaseLength := by
  rw [due]
  simp only [wholeWindow_multiplier hPorts hTile hStrides hGroups _ hv ht]
  simp

/-- The gate keeps the phases apart if no link is in use, or no window follows another in its
row, or there is only one phase, or the gate counts as the neurons do. -/
theorem phasesApart_of_gate (hPorts : mach.P ≤ mach.L) (hLayer : mach.layer.Positive)
    (hTile : mach.tile.Accepted mach.numMs) (hFolds : mach.nFolding = mach.iterations.folds)
    (h : SDMemory.linksEnabled mach.layer mach.tile = false ∨ mach.layer.outY = 1 ∨
      mach.iterations.phases = 1 ∨ mach.GateFits) :
    mach.PhasesApart := by
  intro events v hv t ht i multiplied hFlush
  have hIt : mach.iterations.Positive := Iterations.ofTile_positive hLayer hTile
  have hWired := wired_signals hTile hLayer.strides
  rw [hFolds, Nat.mul_div_cancel _ hIt.folds]
  -- where no link is read, all of a phase is multiplied when it arrives
  have hUnread : (∀ j, mach.signals.yInit (Counters.digits mach.iterations j) = 0) →
      ((∀ m, mach.signals.fwReceive m = false) ∨ mach.layer.outY = 1) →
      mach.due (i + 1) (mach.tile.multiplier v t) ≤ multiplied := by
    intro hWhole hNone
    obtain ⟨events', hRun⟩ := @gatedRun_machine mach events
    rw [hRun] at hFlush
    rw [length_sentActivations _ hWhole]
    exact (run_onArrival hPorts hLayer hTile hWired hFolds hNone events' hv ht).flushes i _ hFlush
  cases hLinks : SDMemory.linksEnabled mach.layer mach.tile with
  | false =>
      apply hUnread
      · intro j
        simp [signals, SDMemory.yInit, hLinks]
      · exact Or.inl fun m => (not_fwReceive hTile hLayer.strides hLinks m).1
  | true =>
      rcases h with hNone | hOne | hPhases | hGate
      · rw [hNone] at hLinks
        cases hLinks
      · exact hUnread (yInit_digits_of_outY hOne hTile.tY) (Or.inr hOne)
      · obtain ⟨events', hRun⟩ := @gatedRun_machine mach events
        rw [hRun, flushes_of_phases_eq_one hPorts hLayer hTile hWired hFolds hPhases events' hv ht]
          at hFlush
        cases hFlush
      · have hFit : mach.LinksFit := ⟨hGate.groups, hGate.windows, hFolds⟩
        have hAgrees := agrees_signals hPorts hLayer hTile hLinks hFit
        have hApart := gatedRun_apart hPorts hLayer hTile hFit hAgrees hGate events
        rw [length_due hPorts hTile hLayer.strides hGate.groups _ hv ht]
        exact hApart.flushes v hv t ht i multiplied hFlush

/-- The iteration of the weights of a phase. -/
private theorem digits_phase {it : Iterations} (hIt : it.Positive) (p : Nat) :
    (Counters.digits it (p * it.phaseLength)).currentK = p % it.iterK ∧
      (Counters.digits it (p * it.phaseLength)).currentG = p / it.iterK % it.iterG := by
  have hPhase : p * it.phaseLength / it.iterS / it.iterR / it.iterC / it.iterY / it.iterX = p := by
    have hLength : it.iterS * (it.iterR * (it.iterC * (it.iterY * it.iterX))) =
        it.phaseLength := by
      rw [Iterations.phaseLength, Iterations.folds]
      ring
    rw [Nat.div_div_eq_div_mul, Nat.div_div_eq_div_mul, Nat.div_div_eq_div_mul,
      Nat.div_div_eq_div_mul, hLength]
    exact Nat.mul_div_cancel _ hIt.phaseLength
  simp only [Counters.digits, hPhase, true_and]

/-- For a single batch the gate counts as the neurons do if the tile covers the output exactly,
and also the filters of a group unless there is only one iteration over the groups. -/
theorem gateFits_of_exact (hIt : mach.iterations.Positive) (hN : mach.tile.tN = 1)
    (hBatch : mach.iterations.iterN = 1) (hX : mach.iterations.iterX * mach.tile.tX =
      mach.layer.outX) (hY : mach.tile.tY = 1) (hWindows : mach.iterations.iterY = mach.layer.outY)
    (hK : mach.iterations.iterG = 1 ∨ mach.iterations.iterK * mach.tile.tK = mach.layer.K)
    (hDivisor : mach.psumsPerFilter < 2 ^ 32) (hNumbers : ∀ p < mach.iterations.phases,
      (Counters.digits mach.iterations (p * mach.iterations.phaseLength)).pckIteration mach.layer
        mach.tile < 2 ^ 32) :
    mach.GateFits := by
  refine ⟨Or.inl hN, hWindows, hDivisor, hNumbers, fun p hp => ?_⟩
  obtain ⟨hFilter, hGroup⟩ := digits_phase hIt p
  rw [Iterations.phases, hBatch, Nat.one_mul] at hp
  rw [Nat.mod_eq_of_lt ((Nat.div_lt_iff_lt_mul hIt.iterK).mpr hp)] at hGroup
  rw [Counters.pckIteration, hFilter, hGroup]
  have hOutputs : mach.tile.numVNs * (mach.iterations.iterX * mach.iterations.iterY) =
      mach.tile.tK * mach.tile.tG * (mach.layer.outX * mach.layer.outY) := by
    rw [Tile.numVNs, hN, hY, hWindows, ← hX]
    ring
  have hFilters : p * (mach.tile.tK * mach.tile.tG) ≤
      p / mach.iterations.iterK * mach.tile.tG * mach.layer.K +
        p % mach.iterations.iterK * mach.tile.tK * mach.tile.tG := by
    rcases hK with hOne | hExact
    · rw [hOne, Nat.one_mul] at hp
      rw [Nat.div_eq_of_lt hp, Nat.mod_eq_of_lt hp]
      exact (show _ = _ by ring).le
    · have hSplit := Nat.div_add_mod p mach.iterations.iterK
      rw [← hExact]
      nth_rewrite 1 [← hSplit]
      exact (show _ = _ by ring).le
  rw [hOutputs, ← Nat.mul_assoc]
  exact Nat.mul_le_mul_right _ hFilters

/-- Two filters over three windows, on two multipliers with a port each. -/
theorem phasesApart_of_gate_two_filters :
    let mach : Maeri :=
      { L := 1
        P := 1
        layer := { R := 1, S := 2, C := 1, K := 2, G := 1, N := 1, X := 1, Y := 4, strides := 1 }
        tile :=
          { tR := 1, tS := 2, tC := 1, tK := 1, tG := 1, tN := 1, tX := 1, tY := 1,
            folding := false }
        filterAddress := fun i => i
        inputAddress := fun i => i }
    mach.PhasesApart := by
  intro mach
  have hLayer : mach.layer.Positive :=
    ⟨by decide, by decide, by decide, by decide, by decide, by decide, by decide⟩
  have hTile : mach.tile.Accepted mach.numMs :=
    ⟨by decide, by decide, by decide, by decide, by decide, by decide, by decide, by decide,
      by decide⟩
  have hIt : mach.iterations.Positive := Iterations.ofTile_positive hLayer hTile
  have hFit : mach.LinksFit := linksFit_of_lt hLayer (Or.inl rfl) rfl (by decide +kernel)
    (by decide +kernel) hIt.iterC
  have hGate : mach.GateFits := gateFits_of_exact hIt rfl (by decide +kernel) (by decide +kernel)
    rfl hFit.windows (Or.inl (by decide +kernel)) (by decide +kernel) (by decide +kernel)
  exact phasesApart_of_gate (by decide) hLayer hTile hFit.folds (Or.inr (Or.inr (Or.inr hGate)))

/-- Two batches: the gate is open for the weights of the second one from the beginning, and
the first multiplier flushes its fifo while two of its activations are still on the way over
the link from the other port. -/
theorem not_phasesApart_two_batches :
    let mach : Maeri :=
      { L := 2
        P := 1
        layer := { R := 1, S := 3, C := 1, K := 1, G := 1, N := 2, X := 1, Y := 5, strides := 1 }
        tile :=
          { tR := 1, tS := 3, tC := 1, tK := 1, tG := 1, tN := 1, tX := 1, tY := 1,
            folding := false }
        filterAddress := fun i => i
        inputAddress := fun i => i }
    ¬mach.PhasesApart := by
  intro mach hApart
  have hTap : mach.tile.multiplier ⟨0, 0, 0, 0, 0⟩ ⟨0, 0, 0⟩ = 0 := by decide
  have hFlush : ((mach.gatedRun (List.replicate 6
      { outputs := [0], free := fun _ => true, deliveries := fun _ => .operand })).machine.msnet.1
        0).log.flushes[0]? = some 1 := by
    decide +kernel
  have hDue : mach.due (1 * mach.nFolding / mach.iterations.folds) 0 = 3 := by decide +kernel
  have hMultiplied := hApart _ ⟨0, 0, 0, 0, 0⟩
    ⟨by decide, by decide, by decide, by decide, by decide⟩ ⟨0, 0, 0⟩
    ⟨by decide, by decide, by decide⟩ 0 1 hFlush
  rw [hTap] at hMultiplied
  have hNone : (3 : Nat) ≤ 1 := hDue ▸ hMultiplied
  omega

end

end Maeri

end Stonne
