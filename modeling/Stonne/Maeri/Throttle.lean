import Stonne.Maeri.Gate

/-!
# The throttle of the memory

`SDMemory::cycle` starts an iteration, and `SDMemory::send` sends a package, only when enough
outputs have come back: the number of the package must not exceed
`current_output_pixel / output_psums_per_channel`.  The number counts groups and filters, the
pixels count the packages of all neurons of the tile, also of those beyond the layer, and the
quotient is rounded down.  It never holds back an iteration when everything before it is done.

The numbers of iterations are exact here.
-/

namespace Stonne

open Dataflow

/-- The numbers of iterations of `SDMemory::setTile`, without rounding. -/
def Iterations.exact (layer : DNNLayer) (tile : Tile) : Iterations where
  iterN := ⌈(layer.N / tile.tN : ℚ)⌉₊
  iterG := ⌈(layer.G / tile.tG : ℚ)⌉₊
  iterK := ⌈(layer.K / tile.tK : ℚ)⌉₊
  iterX := ⌈(layer.outX / tile.tX : ℚ)⌉₊
  iterY := ⌈(layer.outY / tile.tY : ℚ)⌉₊
  iterC := ⌈(layer.C / tile.tC : ℚ)⌉₊
  iterR := ⌈(layer.R / tile.tR : ℚ)⌉₊
  iterS := ⌈(layer.S / tile.tS : ℚ)⌉₊

/-- The memory controller and what it is connected to. -/
structure MemoryController where
  layer : DNNLayer
  tile : Tile
  ports : ReadPorts
  numMs : Nat
  filterAddress : Nat → Int
  inputAddress : Nat → Int

/-- The memory between two cycles. -/
structure Throttled where
  loop : DistributionLoop := {}
  readPorts : Nat → ReadPort := fun _ => {}
  /-- For each package that waits in a port, the (N,G,K) iteration that it belongs to. -/
  origin : Nat → List Nat := fun _ => []
  /-- How many packages have come back from each neuron. -/
  returned : Nat → Nat := fun _ => 0
  currentOutputPixel : Nat := 0

/-- What the other components do in a cycle. -/
structure ThrottleEvent where
  /-- The neurons whose packages arrive. -/
  outputs : List Nat
  /-- The ports that have no partial sum to send. -/
  free : Nat → Bool

namespace MemoryController

variable (mc : MemoryController)

def iterations : Iterations :=
  .exact mc.layer mc.tile

/-- The packages of a neuron for one (N,G,K) iteration. -/
def packagesPerIteration : Nat :=
  let vnat := mc.iterations.vnat mc.tile
  mc.iterations.iterX * mc.iterations.iterY * (vnat.iterR * vnat.iterS * vnat.iterC)

/-- `output_psums_per_channel` -/
def outputPsumsPerChannel : Nat :=
  let vnat := mc.iterations.vnat mc.tile
  mc.layer.outX * mc.layer.outY * vnat.iterR * vnat.iterS * vnat.iterC

/-- `current_iteration`, as both gates compute it. -/
def currentIteration (st : Throttled) : Nat :=
  st.currentOutputPixel / mc.outputPsumsPerChannel

/-- The gate of `SDMemory::cycle`. -/
def isOpen (st : Throttled) : Bool :=
  decide (st.loop.counters.pckIteration mc.layer mc.tile ≤ mc.currentIteration st)

/-- The gate of `SDMemory::send` for the next package of a port. -/
def passes (st : Throttled) (i : Nat) : Bool :=
  match (st.readPorts i).inputFifo.head? with
  | some pck => decide (pck.iterationK ≤ mc.currentIteration st)
  | none => false

/-- The (N,G,K) iterations that have begun before. -/
def phase (st : Throttled) : Nat :=
  st.loop.log.length / mc.iterations.phaseLength

/-- The generation step of `SDMemory::cycle`. -/
def generate (st : Throttled) : Throttled :=
  if !st.loop.inputFinished && mc.isOpen st then
    let readPorts :=
      if !st.loop.weightsDistributed then
        SDMemory.distributeWeights mc.ports mc.numMs mc.layer mc.tile mc.filterAddress
          st.loop.counters st.readPorts
      else
        SDMemory.distributeInputs mc.ports mc.numMs mc.layer mc.tile mc.inputAddress
          st.loop.counters st.readPorts
    { st with
      loop := st.loop.cycle mc.iterations true
      readPorts := readPorts
      origin := fun i => st.origin i ++ List.replicate
        ((readPorts i).inputFifo.length - (st.readPorts i).inputFifo.length) (mc.phase st) }
  else st

/-- A package of a neuron arrives. -/
def receive (st : Throttled) (vn : Nat) : Throttled :=
  if vn < mc.tile.numVNs then
    { st with
      returned := Function.update st.returned vn (st.returned vn + 1)
      currentOutputPixel := st.currentOutputPixel + 1 }
  else st

/-- The loop of `SDMemory::send` over the ports. -/
def send (free : Nat → Bool) (st : Throttled) : Throttled :=
  { st with
    readPorts := fun i =>
      if decide (i < mc.ports.nReadPorts) && free i && mc.passes st i then
        { st.readPorts i with inputFifo := (st.readPorts i).inputFifo.tail }
      else st.readPorts i
    origin := fun i =>
      if decide (i < mc.ports.nReadPorts) && free i && mc.passes st i then (st.origin i).tail
      else st.origin i }

def cycle (st : Throttled) (event : ThrottleEvent) : Throttled :=
  mc.send event.free (event.outputs.foldl mc.receive (mc.generate st))

def run (events : List ThrottleEvent) : Throttled :=
  events.foldl mc.cycle {}

/-- Every package of the iterations before `p` has been sent. -/
structure SentBefore (st : Throttled) (p : Nat) : Prop where
  generated : p ≤ mc.phase st
  sent : ∀ i < mc.ports.nReadPorts, ∀ q ∈ st.origin i, p ≤ q

/-- Every neuron has returned its packages for the iterations before `p`. -/
def ReturnedBefore (st : Throttled) (p : Nat) : Prop :=
  ∀ vn < mc.tile.numVNs, p * mc.packagesPerIteration ≤ st.returned vn

/-- The current iteration, the last one when the loops have ended. -/
def current (st : Throttled) : Nat :=
  min (mc.phase st) (mc.iterations.phases - 1)

/-- Both gates are open when everything before is done. -/
structure Unblocked (st : Throttled) : Prop where
  generation : st.loop.inputFinished = false → mc.SentBefore st (mc.current st) →
    mc.ReturnedBefore st (mc.current st) → mc.isOpen st = true
  ports : mc.SentBefore st (mc.current st) → mc.ReturnedBefore st (mc.current st) →
    ∀ i < mc.ports.nReadPorts, (st.readPorts i).inputFifo ≠ [] → mc.passes st i = true
  /-- With work left and nothing in flight, one of the gates is open for it. -/
  live : (∀ p, mc.SentBefore st p → mc.ReturnedBefore st p) →
    st.loop.inputFinished = false ∨
        (∃ i < mc.ports.nReadPorts, (st.readPorts i).inputFifo ≠ []) →
      st.loop.inputFinished = false ∧ mc.isOpen st = true ∨
        ∃ i < mc.ports.nReadPorts, mc.passes st i = true
  /-- The next cycle then takes a step of the loops, or sends the first package of a port, unless
  the ports have partial sums to send. -/
  moves : (∀ p, mc.SentBefore st p → mc.ReturnedBefore st p) →
    st.loop.inputFinished = false ∨
        (∃ i < mc.ports.nReadPorts, (st.readPorts i).inputFifo ≠ []) →
      ∀ event : ThrottleEvent, (∀ i < mc.ports.nReadPorts, event.free i = true) →
        (mc.cycle st event).loop ≠ st.loop ∨
          ∃ i < mc.ports.nReadPorts, (st.readPorts i).inputFifo ≠ [] ∧
            ((mc.cycle st event).readPorts i).inputFifo =
              ((mc.generate st).readPorts i).inputFifo.tail

/-- What holds in every reachable state. -/
structure Numbered (st : Throttled) : Prop where
  inStep : st.loop.InStep mc.iterations
  packages : ∀ i < mc.ports.nReadPorts,
    List.Forall₂ (fun pck p => pck.iterationK ≤ p * (mc.tile.tK * mc.tile.tG))
      (st.readPorts i).inputFifo (st.origin i)
  ordered : ∀ i < mc.ports.nReadPorts, (st.origin i).Pairwise (· ≤ ·)
  begun : ∀ i < mc.ports.nReadPorts, ∀ p ∈ st.origin i,
    p ≤ mc.phase st ∧ p < mc.iterations.phases
  counted : st.currentOutputPixel = ∑ vn ∈ Finset.range mc.tile.numVNs, st.returned vn

end MemoryController

/-! ## The count of a finished iteration -/

theorem exact_mul_le {a b : Nat} (hb : 0 < b) : a ≤ ⌈(a / b : ℚ)⌉₊ * b := by
  have hBound := (div_le_iff₀ (Nat.cast_pos.mpr hb)).mp (Nat.le_ceil (a / b : ℚ))
  exact_mod_cast hBound

theorem exact_pos {a b : Nat} (ha : 0 < a) (hb : 0 < b) : 0 < ⌈(a / b : ℚ)⌉₊ := by
  apply Nat.pos_of_ne_zero
  intro hZero
  have hBound := @exact_mul_le a b hb
  rw [hZero, Nat.zero_mul] at hBound
  omega

theorem Iterations.exact_positive {layer : DNNLayer} {tile : Tile} {msSize : Nat}
    (hLayer : layer.Positive) (hTile : tile.Accepted msSize) : (exact layer tile).Positive where
  iterN := exact_pos hLayer.N hTile.tN
  iterG := exact_pos hLayer.G hTile.tG
  iterK := exact_pos hLayer.K hTile.tK
  iterX := exact_pos hLayer.outX hTile.tX
  iterY := exact_pos hLayer.outY hTile.tY
  iterC := exact_pos hLayer.C hTile.tC
  iterR := exact_pos hLayer.R hTile.tR
  iterS := exact_pos hLayer.S hTile.tS

theorem Iterations.exact_cover {layer : DNNLayer} {tile : Tile} {msSize : Nat}
    (hTile : tile.Accepted msSize) : (exact layer tile).Cover layer tile where
  n := exact_mul_le hTile.tN
  g := exact_mul_le hTile.tG
  k := exact_mul_le hTile.tK
  x := exact_mul_le hTile.tX
  y := exact_mul_le hTile.tY

/-- The number of a package is at most the number of its iteration, times the filters and the
groups of the tile. -/
theorem pckIteration_le_phase {it : Iterations} {layer : DNNLayer} {tile : Tile}
    (hCover : it.Cover layer tile) (cnt : Counters) :
    cnt.pckIteration layer tile ≤ cnt.phase it * (tile.tK * tile.tG) :=
  calc cnt.pckIteration layer tile
      = cnt.currentG * layer.K * tile.tG + cnt.currentK * (tile.tK * tile.tG) := by
        rw [Counters.pckIteration]
        ring
    _ ≤ cnt.currentG * (it.iterK * tile.tK) * tile.tG + cnt.currentK * (tile.tK * tile.tG) := by
        gcongr
        exact hCover.k
    _ = (cnt.currentG * it.iterK + cnt.currentK) * (tile.tK * tile.tG) := by ring
    _ ≤ cnt.phase it * (tile.tK * tile.tG) := by
        apply Nat.mul_le_mul_right
        rw [Counters.phase, Nat.add_mul (cnt.currentN * it.iterG)]
        omega

namespace MemoryController

section

variable {mc : MemoryController}

/-- When the neurons have returned everything before `p`, the numbers up to `p` pass. -/
theorem le_currentIteration (hLayer : mc.layer.Positive) (hTile : mc.tile.Accepted mc.numMs)
    {st : Throttled} (hCounted : st.currentOutputPixel =
      ∑ vn ∈ Finset.range mc.tile.numVNs, st.returned vn)
    {p number : Nat} (hReturned : mc.ReturnedBefore st p)
    (hNumber : number ≤ p * (mc.tile.tK * mc.tile.tG)) :
    number ≤ mc.currentIteration st := by
  have hIt : mc.iterations.Positive := Iterations.exact_positive hLayer hTile
  have hCover : mc.iterations.Cover mc.layer mc.tile := Iterations.exact_cover hTile
  have hVnat := Iterations.vnat_positive hIt mc.tile
  have hFolds : 0 < (mc.iterations.vnat mc.tile).iterR * (mc.iterations.vnat mc.tile).iterS *
      (mc.iterations.vnat mc.tile).iterC :=
    Nat.mul_pos (Nat.mul_pos hVnat.iterR hVnat.iterS) hVnat.iterC
  have hChannel : mc.outputPsumsPerChannel = mc.layer.outX * mc.layer.outY *
      ((mc.iterations.vnat mc.tile).iterR * (mc.iterations.vnat mc.tile).iterS *
        (mc.iterations.vnat mc.tile).iterC) := by
    simp only [outputPsumsPerChannel]
    ring
  have hPixels : mc.tile.numVNs * (p * mc.packagesPerIteration) ≤ st.currentOutputPixel := by
    rw [hCounted]
    calc mc.tile.numVNs * (p * mc.packagesPerIteration)
        = ∑ vn ∈ Finset.range mc.tile.numVNs, p * mc.packagesPerIteration := by simp
      _ ≤ _ := Finset.sum_le_sum fun vn hvn => hReturned vn (Finset.mem_range.mp hvn)
  rw [currentIteration, Nat.le_div_iff_mul_le (by
    rw [hChannel]
    exact Nat.mul_pos (Nat.mul_pos hLayer.outX hLayer.outY) hFolds), hChannel]
  apply le_trans ?_ hPixels
  generalize hF : (mc.iterations.vnat mc.tile).iterR * (mc.iterations.vnat mc.tile).iterS *
    (mc.iterations.vnat mc.tile).iterC = folds
  calc number * (mc.layer.outX * mc.layer.outY * folds)
      ≤ p * (mc.tile.tK * mc.tile.tG) * (mc.iterations.iterX * mc.tile.tX *
          (mc.iterations.iterY * mc.tile.tY) * folds) := by
        gcongr
        · exact hCover.x
        · exact hCover.y
    _ = mc.tile.tK * mc.tile.tG * 1 * mc.tile.tX * mc.tile.tY *
          (p * (mc.iterations.iterX * mc.iterations.iterY * folds)) := by ring
    _ ≤ mc.tile.numVNs * (p * mc.packagesPerIteration) := by
        rw [Tile.numVNs, packagesPerIteration, hF]
        gcongr
        exact hTile.tN

/-! ## Every reachable state -/

theorem phase_lt_phases {st : Throttled} (h : st.loop.InStep mc.iterations)
    (hRunning : st.loop.inputFinished = false) : mc.phase st < mc.iterations.phases := by
  have hLess := h.running hRunning
  rw [mc.iterations.steps_eq_phases, Nat.mul_comm] at hLess
  exact Nat.div_lt_of_lt_mul hLess

/-- The number of the packages that are generated next. -/
theorem pckIteration_le (hTile : mc.tile.Accepted mc.numMs) {st : Throttled}
    (h : st.loop.InStep mc.iterations) (hRunning : st.loop.inputFinished = false) :
    st.loop.counters.pckIteration mc.layer mc.tile ≤ mc.phase st * (mc.tile.tK * mc.tile.tG) := by
  have hDigits : st.loop.counters.pckIteration mc.layer mc.tile =
      (Counters.digits mc.iterations st.loop.log.length).pckIteration mc.layer mc.tile := by
    cases hDistributed : st.loop.weightsDistributed with
    | true => rw [h.inputs hRunning hDistributed]
    | false => exact Maeri.pckIteration_of_zeroed (h.weights hRunning hDistributed)
  rw [hDigits, phase, ← Counters.phase_digits]
  exact pckIteration_le_phase (Iterations.exact_cover hTile) _

/-- What a generation step adds to a port. -/
theorem exists_generated (st : Throttled) {i : Nat} (hi : i < mc.ports.nReadPorts) :
    ∃ added, ((mc.generate st).readPorts i).inputFifo = (st.readPorts i).inputFifo ++ added ∧
      (mc.generate st).origin i = st.origin i ++ List.replicate added.length (mc.phase st) ∧
      ∀ pck ∈ added, st.loop.inputFinished = false ∧
        pck.iterationK = st.loop.counters.pckIteration mc.layer mc.tile := by
  unfold generate
  split
  · rename_i hOpen
    rw [Bool.and_eq_true, Bool.not_eq_true'] at hOpen
    have hFifo : ∃ added, ((if !st.loop.weightsDistributed then
          SDMemory.distributeWeights mc.ports mc.numMs mc.layer mc.tile mc.filterAddress
            st.loop.counters st.readPorts
        else
          SDMemory.distributeInputs mc.ports mc.numMs mc.layer mc.tile mc.inputAddress
            st.loop.counters st.readPorts) i).inputFifo = (st.readPorts i).inputFifo ++ added ∧
        ∀ pck ∈ added, pck.iterationK = st.loop.counters.pckIteration mc.layer mc.tile := by
      split
      · apply Maeri.foldl_packages _ _ hi
        intro pck hMem
        obtain ⟨g, -, k, -, t, -, rfl⟩ := SDMemory.mem_forEachWeight.mp hMem
        exact ⟨by simp [SDMemory.weightPackage], rfl⟩
      · apply Maeri.foldl_packages _ _ hi
        intro pck hMem
        obtain ⟨x, y, n, -, g, -, c, -, rfl⟩ := SDMemory.mem_forEachInputFrom hMem
        exact ⟨by simp [SDMemory.inputPackage], rfl⟩
    obtain ⟨added, hAdded, hNumber⟩ := hFifo
    refine ⟨added, hAdded, ?_, fun pck hMem => ⟨hOpen.1, hNumber pck hMem⟩⟩
    simp only [hAdded, List.length_append, Nat.add_sub_cancel_left]
  · exact ⟨[], (List.append_nil _).symm, (List.append_nil _).symm, fun pck hMem => by cases hMem⟩

private theorem forall₂_replicate {α β : Type*} {R : α → β → Prop} {b : β} {added : List α}
    (h : ∀ a ∈ added, R a b) : List.Forall₂ R added (List.replicate added.length b) := by
  induction added with
  | nil => exact List.Forall₂.nil
  | cons a added ih =>
      exact List.Forall₂.cons (h a List.mem_cons_self)
        (ih fun c hc => h c (List.mem_cons_of_mem _ hc))

/-- The loops take one step, and only while they are running. -/
theorem generate_loop (hIt : mc.iterations.Positive) {st : Throttled}
    (h : st.loop.InStep mc.iterations) :
    (mc.generate st).loop.InStep mc.iterations ∧ mc.phase st ≤ mc.phase (mc.generate st) := by
  have hGrows : st.loop.log.length ≤ (mc.generate st).loop.log.length →
      mc.phase st ≤ mc.phase (mc.generate st) := fun hLength =>
    Nat.div_le_div_right hLength
  unfold generate at hGrows ⊢
  split
  · rename_i hOpen
    rw [if_pos hOpen] at hGrows
    rw [Bool.and_eq_true, Bool.not_eq_true'] at hOpen
    simp only [DistributionLoop.cycle, hOpen.1, Bool.not_false, Bool.and_true, if_true] at hGrows ⊢
    cases hDistributed : st.loop.weightsDistributed with
    | true =>
        simp only [hDistributed, Bool.not_true, Bool.false_eq_true, if_false] at hGrows ⊢
        refine ⟨h.inputsStep hIt hOpen.1 hDistributed, hGrows ?_⟩
        rw [DistributionLoop.inputsStep_log]
        exact Nat.le_succ _
    | false =>
        simp only [hDistributed, Bool.not_false, if_true] at hGrows ⊢
        refine ⟨h.weightsStep hDistributed, hGrows ?_⟩
        rw [DistributionLoop.weightsStep_log]
  · exact ⟨h, le_rfl⟩

theorem Numbered.generate (hLayer : mc.layer.Positive) (hTile : mc.tile.Accepted mc.numMs)
    {st : Throttled} (h : mc.Numbered st) : mc.Numbered (mc.generate st) := by
  obtain ⟨hInStep, hPhase⟩ := generate_loop (Iterations.exact_positive hLayer hTile) h.inStep
  refine ⟨hInStep, fun i hi => ?_, fun i hi => ?_, fun i hi p hp => ?_, ?_⟩
  · obtain ⟨added, hFifo, hOrigin, hNew⟩ := exists_generated st hi
    rw [hFifo, hOrigin]
    apply List.rel_append (h.packages i hi)
    apply forall₂_replicate
    intro pck hMem
    obtain ⟨hRunning, hNumber⟩ := hNew pck hMem
    rw [hNumber]
    exact pckIteration_le hTile h.inStep hRunning
  · obtain ⟨added, hFifo, hOrigin, hNew⟩ := exists_generated st hi
    rw [hOrigin, List.pairwise_append]
    refine ⟨h.ordered i hi, List.pairwise_replicate.mpr (Or.inr le_rfl), fun p hp q hq => ?_⟩
    rw [List.eq_of_mem_replicate hq]
    exact (h.begun i hi p hp).1
  · obtain ⟨added, hFifo, hOrigin, hNew⟩ := exists_generated st hi
    rw [hOrigin, List.mem_append] at hp
    rcases hp with hOld | hAdded
    · exact ⟨(h.begun i hi p hOld).1.trans hPhase, (h.begun i hi p hOld).2⟩
    · obtain ⟨hSome, rfl⟩ := List.mem_replicate.mp hAdded
      obtain ⟨pck, hMem⟩ := List.exists_mem_of_length_pos (Nat.pos_of_ne_zero hSome)
      exact ⟨hPhase, phase_lt_phases h.inStep (hNew pck hMem).1⟩
  · unfold MemoryController.generate
    split
    · exact h.counted
    · exact h.counted

theorem Numbered.receive {st : Throttled} (h : mc.Numbered st) (vn : Nat) :
    mc.Numbered (mc.receive st vn) := by
  unfold MemoryController.receive
  split
  · rename_i hNeuron
    refine ⟨h.inStep, h.packages, h.ordered, h.begun, ?_⟩
    simp only
    rw [Finset.sum_update_of_mem (Finset.mem_range.mpr hNeuron), h.counted,
      ← Finset.add_sum_erase _ _ (Finset.mem_range.mpr hNeuron), Finset.sdiff_singleton_eq_erase]
    ring
  · exact h

theorem Numbered.foldl_receive {st : Throttled} (h : mc.Numbered st) (outputs : List Nat) :
    mc.Numbered (outputs.foldl mc.receive st) := by
  induction outputs generalizing st with
  | nil => exact h
  | cons vn outputs ih => exact ih (h.receive vn)

theorem Numbered.send {st : Throttled} (h : mc.Numbered st) (free : Nat → Bool) :
    mc.Numbered (mc.send free st) := by
  refine ⟨h.inStep, fun i hi => ?_, fun i hi => ?_, fun i hi p hp => ?_, h.counted⟩
  · simp only [MemoryController.send]
    split
    · have hPackages := h.packages i hi
      cases hFifo : (st.readPorts i).inputFifo with
      | nil =>
          rw [hFifo, List.forall₂_nil_left_iff] at hPackages
          rw [hPackages]
          exact List.Forall₂.nil
      | cons pck rest =>
          rw [hFifo, List.forall₂_cons_left_iff] at hPackages
          obtain ⟨p, others, -, hRest, hOrigin⟩ := hPackages
          rw [hOrigin]
          exact hRest
    · exact h.packages i hi
  · simp only [MemoryController.send]
    split
    · exact (h.ordered i hi).tail
    · exact h.ordered i hi
  · apply h.begun i hi p
    simp only [MemoryController.send] at hp
    split at hp
    · exact List.mem_of_mem_tail hp
    · exact hp

theorem run_numbered (hLayer : mc.layer.Positive) (hTile : mc.tile.Accepted mc.numMs)
    (events : List ThrottleEvent) : mc.Numbered (mc.run events) := by
  have hInit : mc.Numbered {} :=
    ⟨DistributionLoop.run_inStep (Iterations.exact_positive hLayer hTile) [],
      fun _ _ => List.Forall₂.nil, fun _ _ => List.Pairwise.nil, fun _ _ _ hp => (by cases hp),
      by simp⟩
  have hRun : ∀ st, mc.Numbered st → mc.Numbered (events.foldl mc.cycle st) := by
    induction events with
    | nil => exact fun st h => h
    | cons event events ih =>
        intro st h
        exact ih _ (((h.generate hLayer hTile).foldl_receive event.outputs).send event.free)
  exact hRun {} hInit

/-! ## The gates -/

theorem Numbered.origin_ne_nil {st : Throttled} (h : mc.Numbered st) {i : Nat}
    (hi : i < mc.ports.nReadPorts) (hWaiting : (st.readPorts i).inputFifo ≠ []) :
    st.origin i ≠ [] := by
  intro hNone
  apply hWaiting
  have hPackages := h.packages i hi
  rwa [hNone, List.forall₂_nil_right_iff] at hPackages

/-- The next package of a port passes when everything before its iteration is done. -/
theorem Numbered.passes (hLayer : mc.layer.Positive) (hTile : mc.tile.Accepted mc.numMs)
    {st : Throttled} (h : mc.Numbered st) {i : Nat} (hi : i < mc.ports.nReadPorts) {p : Nat}
    {others : List Nat} (hOrigin : st.origin i = p :: others) (hReturned : mc.ReturnedBefore st p) :
    mc.passes st i = true := by
  have hPackages := h.packages i hi
  rw [hOrigin, List.forall₂_cons_right_iff] at hPackages
  obtain ⟨pck, rest, hNumber, -, hFifo⟩ := hPackages
  rw [MemoryController.passes, hFifo]
  exact decide_eq_true (le_currentIteration hLayer hTile h.counted hReturned hNumber)

theorem Numbered.isOpen (hLayer : mc.layer.Positive) (hTile : mc.tile.Accepted mc.numMs)
    {st : Throttled} (h : mc.Numbered st) (hRunning : st.loop.inputFinished = false)
    (hReturned : mc.ReturnedBefore st (mc.phase st)) : mc.isOpen st = true :=
  decide_eq_true (le_currentIteration hLayer hTile h.counted hReturned
    (pckIteration_le hTile h.inStep hRunning))

/-- With work left and nothing in flight one of the gates is open for it: the one of the loops, or
that of the oldest iteration with packages left. -/
theorem Numbered.live (hLayer : mc.layer.Positive) (hTile : mc.tile.Accepted mc.numMs)
    {st : Throttled} (h : mc.Numbered st)
    (hQuiet : ∀ p, mc.SentBefore st p → mc.ReturnedBefore st p)
    (hWork : st.loop.inputFinished = false ∨
      ∃ i < mc.ports.nReadPorts, (st.readPorts i).inputFifo ≠ []) :
    st.loop.inputFinished = false ∧ mc.isOpen st = true ∨
      ∃ i < mc.ports.nReadPorts, mc.passes st i = true := by
  classical
  by_cases hAny : ∃ p, ∃ i < mc.ports.nReadPorts, p ∈ st.origin i
  · -- the oldest iteration with packages left
    right
    obtain ⟨i, hi, hMem⟩ := Nat.find_spec hAny
    have hLeast : ∀ j < mc.ports.nReadPorts, ∀ q ∈ st.origin j, Nat.find hAny ≤ q :=
      fun j hj q hq => Nat.find_min' hAny ⟨j, hj, hq⟩
    have hReturned := hQuiet (Nat.find hAny) ⟨(h.begun i hi _ hMem).1, hLeast⟩
    obtain ⟨p, others, hOrigin⟩ := List.exists_cons_of_ne_nil (List.ne_nil_of_mem hMem)
    have hFirst : p = Nat.find hAny := by
      apply le_antisymm
      · have hOrdered := h.ordered i hi
        rw [hOrigin] at hOrdered hMem
        rcases List.mem_cons.mp hMem with hSame | hLater
        · exact hSame.ge
        · exact List.rel_of_pairwise_cons hOrdered hLater
      · exact hLeast i hi p (hOrigin ▸ List.mem_cons_self)
    exact ⟨i, hi, h.passes hLayer hTile hi hOrigin (hFirst ▸ hReturned)⟩
  · left
    have hRunning : st.loop.inputFinished = false := by
      rcases hWork with hRunning | ⟨i, hi, hWaiting⟩
      · exact hRunning
      · obtain ⟨p, hMem⟩ := List.exists_mem_of_ne_nil _ (h.origin_ne_nil hi hWaiting)
        exact absurd ⟨p, i, hi, hMem⟩ hAny
    refine ⟨hRunning, h.isOpen hLayer hTile hRunning (hQuiet _ ⟨le_rfl, fun i hi q hq => ?_⟩)⟩
    exact absurd ⟨q, i, hi, hq⟩ hAny

/-! ## What a cycle then does -/

/-- The loops do not stand still when they run. -/
theorem loop_cycle_ne (it : Iterations) {loop : DistributionLoop}
    (hRunning : loop.inputFinished = false) : loop.cycle it true ≠ loop := by
  intro hSame
  rw [DistributionLoop.cycle, hRunning, Bool.not_false, Bool.and_true, if_pos rfl] at hSame
  cases hDistributed : loop.weightsDistributed with
  | true =>
      rw [hDistributed, if_neg (by decide)] at hSame
      have hLog := congrArg (fun loop => loop.log.length) hSame
      rw [DistributionLoop.inputsStep_log] at hLog
      omega
  | false =>
      rw [hDistributed, if_pos (by decide)] at hSame
      have hS := congrArg (fun loop => loop.counters.currentS) hSame
      have hR := congrArg (fun loop => loop.counters.currentR) hSame
      have hC := congrArg (fun loop => loop.counters.currentC) hSame
      have hWeights := congrArg DistributionLoop.weightsDistributed hSame
      unfold DistributionLoop.weightsStep at hS hR hC hWeights
      simp only at hS hR hC hWeights
      split_ifs at hS hR hC hWeights
      · rw [hDistributed] at hWeights
        cases hWeights
      · simp only at hC
        omega
      · simp only at hR
        omega
      · simp only at hS
        omega

/-- Arrivals change the counts only, and let more packages pass. -/
theorem foldl_receive_frame (st : Throttled) (outputs : List Nat) :
    (outputs.foldl mc.receive st).loop = st.loop ∧
      (outputs.foldl mc.receive st).readPorts = st.readPorts ∧
      st.currentOutputPixel ≤ (outputs.foldl mc.receive st).currentOutputPixel := by
  induction outputs generalizing st with
  | nil => exact ⟨rfl, rfl, le_rfl⟩
  | cons vn outputs ih =>
      obtain ⟨hLoop, hPorts, hCount⟩ := ih (mc.receive st vn)
      rw [List.foldl_cons]
      unfold receive at hLoop hPorts hCount ⊢
      split at hLoop
      · rename_i hNeuron
        rw [if_pos hNeuron] at hPorts hCount ⊢
        exact ⟨hLoop, hPorts, (Nat.le_succ _).trans hCount⟩
      · rename_i hNeuron
        rw [if_neg hNeuron] at hPorts hCount ⊢
        exact ⟨hLoop, hPorts, hCount⟩

/-- A running loop whose gate is open takes a step. -/
theorem cycle_loop_ne {st : Throttled} (hRunning : st.loop.inputFinished = false)
    (hOpen : mc.isOpen st = true) (event : ThrottleEvent) :
    (mc.cycle st event).loop ≠ st.loop := by
  have hLoop : (mc.cycle st event).loop = (mc.generate st).loop :=
    (foldl_receive_frame (mc.generate st) event.outputs).1
  have hStep : (mc.generate st).loop = st.loop.cycle mc.iterations true := by
    rw [generate, hRunning, hOpen]
    rfl
  rw [hLoop, hStep]
  exact loop_cycle_ne mc.iterations hRunning

/-- A free port whose first package passes sends it. -/
theorem cycle_sends {st : Throttled} {i : Nat} (hi : i < mc.ports.nReadPorts)
    (hPasses : mc.passes st i = true) {event : ThrottleEvent} (hFree : event.free i = true) :
    (st.readPorts i).inputFifo ≠ [] ∧ ((mc.cycle st event).readPorts i).inputFifo =
      ((mc.generate st).readPorts i).inputFifo.tail := by
  obtain ⟨-, hPorts, hCount⟩ := foldl_receive_frame (mc.generate st) event.outputs
  obtain ⟨added, hFifo, -⟩ := exists_generated st hi
  have hPixel : (mc.generate st).currentOutputPixel = st.currentOutputPixel := by
    unfold generate
    split
    · rfl
    · rfl
  rw [hPixel] at hCount
  cases hHead : (st.readPorts i).inputFifo with
  | nil =>
      rw [passes, hHead] at hPasses
      cases hPasses
  | cons pck rest =>
      refine ⟨List.cons_ne_nil _ _, ?_⟩
      have hStill : mc.passes (event.outputs.foldl mc.receive (mc.generate st)) i = true := by
        rw [passes, hHead] at hPasses
        rw [passes, hPorts, hFifo, hHead]
        exact decide_eq_true ((of_decide_eq_true hPasses).trans (Nat.div_le_div_right hCount))
      simp only [cycle, send, decide_eq_true hi, hFree, hStill, Bool.and_self, if_true, hPorts]

/-- The throttle never holds back the current iteration when everything before it is done, so
the memory is never stuck. -/
theorem throttle_unblocked (hLayer : mc.layer.Positive) (hTile : mc.tile.Accepted mc.numMs)
    (events : List ThrottleEvent) : mc.Unblocked (mc.run events) := by
  have h := run_numbered hLayer hTile events
  generalize mc.run events = st at h
  have hLive := fun hQuiet hWork => h.live hLayer hTile hQuiet hWork
  refine ⟨fun hRunning _ hReturned => ?_, fun hSent hReturned i hi hWaiting => ?_, hLive,
    fun hQuiet hWork event hFree => ?_⟩
  · have hPhase := phase_lt_phases h.inStep hRunning
    rw [current, Nat.min_eq_left (Nat.le_sub_one_of_lt hPhase)] at hReturned
    exact h.isOpen hLayer hTile hRunning hReturned
  · obtain ⟨p, others, hOrigin⟩ := List.exists_cons_of_ne_nil (h.origin_ne_nil hi hWaiting)
    have hMem : p ∈ st.origin i := hOrigin ▸ List.mem_cons_self
    obtain ⟨hBegun, hLast⟩ := h.begun i hi p hMem
    have hCurrent : p = mc.current st :=
      le_antisymm (le_min hBegun (Nat.le_sub_one_of_lt hLast)) (hSent.sent i hi p hMem)
    exact h.passes hLayer hTile hi hOrigin (hCurrent ▸ hReturned)
  · rcases hLive hQuiet hWork with ⟨hRunning, hOpen⟩ | ⟨i, hi, hPasses⟩
    · exact .inl (cycle_loop_ne hRunning hOpen event)
    · exact .inr ⟨i, hi, cycle_sends hi hPasses (hFree i hi)⟩

/-- A tile that divides none of the dimensions. -/
theorem throttle_unblocked_remainders :
    let layer : DNNLayer :=
      { R := 3, S := 3, C := 3, K := 3, G := 3, N := 3, X := 5, Y := 7, strides := 1 }
    let tile : Tile :=
      { tR := 2, tS := 2, tC := 2, tK := 2, tG := 2, tN := 2, tX := 2, tY := 2, folding := true }
    let mc : MemoryController :=
      { layer := layer
        tile := tile
        ports := .powers 9 2
        numMs := 2 ^ 9
        filterAddress := fun _ => 0
        inputAddress := fun _ => 0 }
    ∀ events, mc.Unblocked (mc.run events) := by
  intro layer tile mc events
  have hLayer : layer.Positive :=
    ⟨by decide, by decide, by decide, by decide, by decide, by decide, by decide⟩
  have hTile : tile.Accepted (2 ^ 9) :=
    ⟨by decide, by decide, by decide, by decide, by decide, by decide, by decide, by decide,
      by decide⟩
  exact @throttle_unblocked mc hLayer hTile events

end

end MemoryController

end Stonne
