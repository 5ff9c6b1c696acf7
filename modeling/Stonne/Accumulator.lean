import Stonne.Connection
import Stonne.Lib.Segment

/-!
# The counting accumulator

`Accumulator::cycle` takes the packages of its input connection into a fifo,
accumulates at most one of them and sends the finished sums.  A sum is finished
after `n_psums` packages.

`Accumulator.Holds` is the state after some prefix of a stream of partial sums:
every step lemma below moves that prefix by one package.
-/

namespace Stonne

open Dataflow

/-- The package of a partial sum, as every component that computes builds it. -/
def psumPackage (vn : Nat) (data : Int) : DataPackage where
  data := data
  dataType := .psum
  vn := vn

structure Accumulator where
  inputFifo : Fifo := []
  outputFifo : Fifo := []
  /-- Written before it is first read. -/
  temporalRegister : DataPackage := psumPackage 0 0
  currentPsum : Nat := 0
  nPsums : Nat := 0
  /-- The `vn` assertion of the addition has failed. -/
  failed : Bool := false

namespace Accumulator

def setNPSums (a : Accumulator) (nPsums : Nat) : Accumulator :=
  { a with nPsums := nPsums }

def resetSignals (a : Accumulator) : Accumulator :=
  { a with currentPsum := 0, nPsums := 0 }

def performOperation2Operands (left right : DataPackage) : DataPackage :=
  psumPackage left.vn (left.data + right.data)

/-- The register after one more package. -/
def accumulate (a : Accumulator) (pck : DataPackage) : Accumulator :=
  if a.currentPsum = 0 then { a with temporalRegister := pck }
  else
    { a with
      temporalRegister := performOperation2Operands a.temporalRegister pck
      failed := a.failed || a.temporalRegister.vn != pck.vn }

/-- The comparison with `n_psums - 1` decides whether the sum is finished. -/
def finishOrCount (a : Accumulator) : Accumulator :=
  if a.currentPsum + 1 = a.nPsums then
    { a with outputFifo := a.outputFifo ++ [a.temporalRegister], currentPsum := 0 }
  else { a with currentPsum := a.currentPsum + 1 }

def route (a : Accumulator) : Accumulator :=
  match a.inputFifo with
  | [] => a
  | pck :: rest => ({ a with inputFifo := rest }.accumulate pck).finishOrCount

section

variable {ω : Type*} [DecidableEq ω]

def receive (a : Accumulator) (inputConnection : ω) (conns : Connections ω) :
    Accumulator × Connections ω :=
  ({ a with inputFifo := a.inputFifo ++ (conns.receive inputConnection).1 },
    (conns.receive inputConnection).2)

def send (a : Accumulator) (outputConnection : ω) (conns : Connections ω) :
    Accumulator × Connections ω :=
  ({ a with outputFifo := [] }, conns.sendAll outputConnection a.outputFifo)

def cycle (a : Accumulator) (inputConnection outputConnection : ω)
    (conns : Connections ω) : Accumulator × Connections ω :=
  let received := a.receive inputConnection conns
  received.1.route.send outputConnection received.2

end

/-- The cycle without its connections: what arrived, and what is sent. -/
def fire (a : Accumulator) (arrived : List DataPackage) :
    Accumulator × List DataPackage :=
  let routed := { a with inputFifo := a.inputFifo ++ arrived }.route
  ({ routed with outputFifo := [] }, routed.outputFifo)

/-- The sum of the packages of the block that contains position `q`, up to `q`. -/
def partialSum (n : Nat) (x : Nat → Int) (q : Nat) : Int :=
  ∑ i ∈ Finset.range (q % n), x (q / n * n + i)

/-- The sum of block `b` of `n` consecutive packages. -/
def blockSum (n : Nat) (x : Nat → Int) (b : Nat) : Int :=
  ∑ i ∈ Finset.range n, x (b * n + i)

/-- The accumulator has consumed the first `q` partial sums of the stream `x` of
neuron `vn`, in blocks of `n`. -/
structure Holds (n vn : Nat) (x : Nat → Int) (q : Nat) (a : Accumulator) : Prop where
  nPsums : a.nPsums = n
  currentPsum : a.currentPsum = q % n
  register : q % n ≠ 0 → a.temporalRegister = psumPackage vn (partialSum n x q)
  failed : a.failed = false

theorem Holds.zero {n vn : Nat} {x : Nat → Int} {a : Accumulator}
    (hN : a.nPsums = n) (hCurrent : a.currentPsum = 0) (hFailed : a.failed = false) :
    Holds n vn x 0 a where
  nPsums := hN
  currentPsum := by simp [hCurrent]
  register := by simp
  failed := hFailed

private theorem succ_mod_of_eq {n q : Nat} (h : q % n + 1 = n) :
    (q + 1) % n = 0 := by
  have hSplit := Nat.div_add_mod q n
  have hNext : q + 1 = n * (q / n) + n := by omega
  rw [hNext, Nat.mul_add_mod, Nat.mod_self]

private theorem succ_mod_of_ne {n q : Nat} (h : q % n + 1 ≠ n) :
    (q + 1) % n = q % n + 1 := by
  rcases Nat.eq_zero_or_pos n with rfl | hn
  · simp
  have hLess := Nat.mod_lt q hn
  have hSplit := Nat.div_add_mod q n
  have hNext : q + 1 = n * (q / n) + (q % n + 1) := by omega
  rw [hNext, Nat.mul_add_mod, Nat.mod_eq_of_lt (by omega)]

private theorem partialSum_succ {n q : Nat} (x : Nat → Int)
    (h : q % n + 1 ≠ n) :
    partialSum n x (q + 1) = partialSum n x q + x q := by
  rcases Nat.eq_zero_or_pos n with rfl | hn
  · simp [partialSum, Finset.sum_range_succ]
  have hLess := Nat.mod_lt q hn
  have hSplit := Nat.div_add_mod q n
  have hNext : q + 1 = n * (q / n) + (q % n + 1) := by omega
  have hMod := succ_mod_of_ne h
  have hDiv : (q + 1) / n = q / n := by
    rw [hNext, Nat.mul_add_div hn, Nat.div_eq_of_lt (by omega : q % n + 1 < n),
      Nat.add_zero]
  have hLast : q / n * n + q % n = q := Nat.div_add_mod' q n
  rw [partialSum, hMod, hDiv, Finset.sum_range_succ, hLast, partialSum]

private theorem blockSum_eq {n q : Nat} (x : Nat → Int) (h : q % n + 1 = n) :
    blockSum n x (q / n) = partialSum n x q + x q := by
  have hLast : q / n * n + q % n = q := Nat.div_add_mod' q n
  have hSum : blockSum n x (q / n) =
      ∑ i ∈ Finset.range (q % n + 1), x (q / n * n + i) := by
    rw [h, blockSum]
  rw [hSum, Finset.sum_range_succ, hLast, partialSum]

/-- What one accumulated package leaves in the output fifo. -/
def finished (n vn : Nat) (x : Nat → Int) (q : Nat) : List DataPackage :=
  if q % n + 1 = n then [psumPackage vn (blockSum n x (q / n))] else []

@[simp]
theorem accumulate_currentPsum (a : Accumulator) (pck : DataPackage) :
    (a.accumulate pck).currentPsum = a.currentPsum := by
  unfold accumulate
  split <;> rfl

@[simp]
theorem accumulate_nPsums (a : Accumulator) (pck : DataPackage) :
    (a.accumulate pck).nPsums = a.nPsums := by
  unfold accumulate
  split <;> rfl

@[simp]
theorem accumulate_inputFifo (a : Accumulator) (pck : DataPackage) :
    (a.accumulate pck).inputFifo = a.inputFifo := by
  unfold accumulate
  split <;> rfl

@[simp]
theorem accumulate_outputFifo (a : Accumulator) (pck : DataPackage) :
    (a.accumulate pck).outputFifo = a.outputFifo := by
  unfold accumulate
  split <;> rfl

private theorem Holds.accumulate {n vn q : Nat} {x : Nat → Int} {a : Accumulator}
    (h : Holds n vn x q a) :
    (a.accumulate (psumPackage vn (x q))).temporalRegister =
        psumPackage vn (partialSum n x q + x q) ∧
      (a.accumulate (psumPackage vn (x q))).failed = false := by
  by_cases hZero : a.currentPsum = 0
  · have hMod : q % n = 0 := h.currentPsum ▸ hZero
    simp [Accumulator.accumulate, hZero, partialSum, hMod, h.failed]
  · have hMod : q % n ≠ 0 := h.currentPsum ▸ hZero
    have hRegister := h.register hMod
    simp [Accumulator.accumulate, hZero, hRegister, performOperation2Operands,
      psumPackage, h.failed]

/-- One package of the stream is accumulated; the sum leaves when its block is
complete. -/
theorem Holds.route {n vn q : Nat} {x : Nat → Int} {a : Accumulator}
    {rest : List DataPackage} (h : Holds n vn x q a)
    (hFifo : a.inputFifo = psumPackage vn (x q) :: rest) :
    Holds n vn x (q + 1) a.route ∧
      a.route.inputFifo = rest ∧
      a.route.outputFifo = a.outputFifo ++ finished n vn x q := by
  have hPopped : Holds n vn x q { a with inputFifo := rest } :=
    { nPsums := h.nPsums
      currentPsum := h.currentPsum
      register := h.register
      failed := h.failed }
  obtain ⟨hRegister, hFailed⟩ := hPopped.accumulate
  have hRoute : a.route =
      (({ a with inputFifo := rest } : Accumulator).accumulate
        (psumPackage vn (x q))).finishOrCount := by
    simp [Accumulator.route, hFifo]
  rw [hRoute]
  by_cases hLast : q % n + 1 = n
  · have hCount : a.currentPsum + 1 = a.nPsums := by
      rw [h.currentPsum, h.nPsums, hLast]
    have hMod := succ_mod_of_eq hLast
    refine ⟨⟨?_, ?_, ?_, ?_⟩, ?_, ?_⟩
    · simp [finishOrCount, hCount, h.nPsums]
    · simp [finishOrCount, hCount, hMod]
    · intro hNonzero
      exact absurd hMod hNonzero
    · simp [finishOrCount, hCount, hFailed]
    · simp [finishOrCount, hCount]
    · simp [finishOrCount, hCount, hRegister, finished, hLast, blockSum_eq x hLast]
  · have hCount : a.currentPsum + 1 ≠ a.nPsums := by
      rw [h.currentPsum, h.nPsums]
      exact hLast
    refine ⟨⟨?_, ?_, ?_, ?_⟩, ?_, ?_⟩
    · simpa [finishOrCount, hCount] using h.nPsums
    · simpa [finishOrCount, hCount, succ_mod_of_ne hLast] using h.currentPsum
    · intro _
      simp [finishOrCount, hCount, hRegister, partialSum_succ x hLast]
    · simp [finishOrCount, hCount, hFailed]
    · simp [finishOrCount, hCount]
    · simp [finishOrCount, hCount, finished, hLast]

/-- A cycle in which the next package of the stream arrives at an empty input
fifo. -/
theorem Holds.fire_package {n vn q : Nat} {x : Nat → Int} {a : Accumulator}
    (h : Holds n vn x q a) (hInput : a.inputFifo = []) (hOutput : a.outputFifo = []) :
    Holds n vn x (q + 1) (a.fire [psumPackage vn (x q)]).1 ∧
      (a.fire [psumPackage vn (x q)]).1.inputFifo = [] ∧
      (a.fire [psumPackage vn (x q)]).1.outputFifo = [] ∧
      (a.fire [psumPackage vn (x q)]).2 = finished n vn x q := by
  have hArrived :
      Holds n vn x q { a with inputFifo := a.inputFifo ++ [psumPackage vn (x q)] } :=
    { nPsums := h.nPsums
      currentPsum := h.currentPsum
      register := h.register
      failed := h.failed }
  obtain ⟨hRouted, hFifo, hSent⟩ := hArrived.route (by rw [hInput]; rfl)
  refine ⟨⟨?_, ?_, ?_, ?_⟩, ?_, rfl, ?_⟩
  · exact hRouted.nPsums
  · exact hRouted.currentPsum
  · exact hRouted.register
  · exact hRouted.failed
  · exact hFifo
  · simpa [fire, hOutput] using hSent

/-- A cycle without an arrival changes nothing. -/
theorem fire_nil {a : Accumulator} (hInput : a.inputFifo = [])
    (hOutput : a.outputFifo = []) :
    a.fire [] = (a, []) := by
  cases a
  simp_all [fire, route]

section

variable {ω : Type*} [DecidableEq ω]

theorem cycle_fst (a : Accumulator) (inputConnection outputConnection : ω)
    (conns : Connections ω) :
    (a.cycle inputConnection outputConnection conns).1 =
      (a.fire (conns.store.recv inputConnection)).1 := by
  simp [cycle, fire, receive, send, Connections.receive_fst]

theorem cycle_snd (a : Accumulator) (inputConnection outputConnection : ω)
    (conns : Connections ω) :
    (a.cycle inputConnection outputConnection conns).2 =
      (conns.receive inputConnection).2.sendAll outputConnection
        (a.fire (conns.store.recv inputConnection)).2 := by
  simp [cycle, fire, receive, send, Connections.receive_fst]

end

end Accumulator

/-- The wiring of an `AccumulationBuffer`: one accumulator per index. -/
structure AccumulationBuffer (ω : Type*) where
  nAccumulators : Nat
  inputConnection : Nat → ω
  outputConnection : Nat → ω

namespace AccumulationBuffer

/-- `NPSumsConfiguration`: every accumulator gets the same count. -/
def configureSignals (nFolding : Nat) (accumulatortable : Nat → Accumulator) :
    Nat → Accumulator :=
  fun i => (accumulatortable i).setNPSums nFolding

def resetSignals (accumulatortable : Nat → Accumulator) : Nat → Accumulator :=
  fun i => (accumulatortable i).resetSignals

section

variable {ω : Type*} [DecidableEq ω] (B : AccumulationBuffer ω)

def cycleAccumulator (st : (Nat → Accumulator) × Connections ω) (i : Nat) :
    (Nat → Accumulator) × Connections ω :=
  let r := (st.1 i).cycle (B.inputConnection i) (B.outputConnection i) st.2
  (Function.update st.1 i r.1, r.2)

def cycle (st : (Nat → Accumulator) × Connections ω) :
    (Nat → Accumulator) × Connections ω :=
  (List.range B.nAccumulators).foldl B.cycleAccumulator st

def wiring : Wiring Nat ω where
  ins i := [B.inputConnection i]
  outs i := [B.outputConnection i]

def program : Program Nat ω Accumulator DataPackage :=
  fun i a arrived =>
    ((a.fire (arrived (B.inputConnection i))).1,
      fun _ => (a.fire (arrived (B.inputConnection i))).2)

/-- No two accumulators share a connection, and none feeds another. -/
structure Separate : Prop where
  input : ∀ i j, B.inputConnection i = B.inputConnection j → i = j
  output : ∀ i j, B.outputConnection i = B.outputConnection j → i = j
  apart : ∀ i j, B.outputConnection i ≠ B.inputConnection j

private theorem cycleAccumulator_eq_visit
    (st : (Nat → Accumulator) × Connections ω) (i : Nat) :
    toNet (B.cycleAccumulator st i) = visit B.wiring B.program (toNet st) i := by
  obtain ⟨tab, conns⟩ := st
  have hFound : inbox B.wiring conns.store i (B.inputConnection i) =
      conns.store.recv (B.inputConnection i) := by
    simp [inbox, wiring]
  have hSent : ∀ w, outbox B.wiring B.program (toNet (tab, conns)) i w =
      ((tab i).fire (conns.store.recv (B.inputConnection i))).2 := by
    intro w
    simp [outbox, program, toNet, hFound]
  apply toNet_eq_visit
  · simp [program, hFound, Accumulator.cycle_fst]
  · intro w
    rw [hSent, Accumulator.cycle_snd, Connections.content_sendAll,
      Connections.content_receive]
    simp [wiring]
  · intro w
    rw [hSent, Accumulator.cycle_snd, Connections.overwritten_sendAll,
      Connections.content_receive, Connections.overwritten_receive]
    by_cases hw : w = B.inputConnection i
    · simp [wiring, hw]
    · simp [wiring, hw]

omit [DecidableEq ω] in
private theorem readersFirst (hSeparate : B.Separate) :
    B.wiring.ReadersFirst (List.range B.nAccumulators) := by
  refine List.pairwise_lt_range.imp ?_
  intro a b hab
  have hne : a ≠ b := Nat.ne_of_lt hab
  refine ⟨hne, ?_, ?_, ?_⟩
  · simpa [wiring] using fun h => hne (hSeparate.input b a h).symm
  · simpa [wiring] using fun h => hne (hSeparate.output b a h).symm
  · simpa [wiring] using (hSeparate.apart a b).symm

/-- The accumulators of the buffer step simultaneously. -/
theorem cycle_eq_step (hSeparate : B.Separate)
    (st : (Nat → Accumulator) × Connections ω) :
    toNet (B.cycle st) =
      step B.wiring B.program (List.range B.nAccumulators) (toNet st) := by
  rw [← sweep_eq_step (readersFirst B hSeparate)]
  exact (List.foldl_hom toNet fun st i => (cycleAccumulator_eq_visit B st i).symm).symm

/-- Accumulator `i` in a cycle of the buffer: its next state and what it sends. -/
def fireAccumulator (st : (Nat → Accumulator) × Connections ω) (i : Nat) :
    Accumulator × List DataPackage :=
  (st.1 i).fire (st.2.store.recv (B.inputConnection i))

private theorem program_eq (st : (Nat → Accumulator) × Connections ω) (i : Nat) :
    B.program i (st.1 i) (inbox B.wiring st.2.store i) =
      ((B.fireAccumulator st i).1, fun _ => (B.fireAccumulator st i).2) := by
  simp [program, fireAccumulator, inbox, wiring]

variable {B} {st : (Nat → Accumulator) × Connections ω}

theorem cycle_accumulator (hSeparate : B.Separate) {i : Nat} (hi : i < B.nAccumulators) :
    (B.cycle st).1 i = (B.fireAccumulator st i).1 := by
  have hStep := congrArg (fun n => n.node i) (cycle_eq_step B hSeparate st)
  rw [step_node _ (List.mem_range.mpr hi)] at hStep
  exact hStep.trans (congrArg Prod.fst (program_eq B st i))

theorem cycle_content_output (hSeparate : B.Separate) {i : Nat}
    (hi : i < B.nAccumulators)
    (hEmpty : st.2.store.content (B.outputConnection i) = none) :
    (B.cycle st).2.store.content (B.outputConnection i) =
      filled (B.fireAccumulator st i).2 := by
  have hStep := congrArg (fun n => n.store.content (B.outputConnection i))
    (cycle_eq_step B hSeparate st)
  have hOutbox : outbox B.wiring B.program (toNet st) i (B.outputConnection i) =
      (B.fireAccumulator st i).2 :=
    congrFun (congrArg Prod.snd (program_eq B st i)) _
  rw [step_content_of_writer (readersFirst B hSeparate) (List.mem_range.mpr hi)
    (by simp [wiring]) (Or.inr hEmpty), hOutbox] at hStep
  exact hStep

theorem cycle_content_input (hSeparate : B.Separate) {i : Nat}
    (hi : i < B.nAccumulators) :
    (B.cycle st).2.store.content (B.inputConnection i) = none := by
  have hStep := congrArg (fun n => n.store.content (B.inputConnection i))
    (cycle_eq_step B hSeparate st)
  have hNoWriter : ∀ j ∈ List.range B.nAccumulators,
      B.inputConnection i ∉ B.wiring.outs j := by
    intro j _
    simpa [wiring] using (hSeparate.apart j i).symm
  have hDrained : Drained B.wiring (List.range B.nAccumulators) (B.inputConnection i) :=
    ⟨i, List.mem_range.mpr hi, by simp [wiring]⟩
  rw [step_content_of_no_writer hNoWriter, if_pos hDrained] at hStep
  exact hStep

theorem cycle_content_of_ne (hSeparate : B.Separate) {w : ω}
    (hIn : ∀ i, w ≠ B.inputConnection i)
    (hOut : ∀ i < B.nAccumulators, w ≠ B.outputConnection i) :
    (B.cycle st).2.store.content w = st.2.store.content w := by
  have hStep := congrArg (fun n => n.store.content w) (cycle_eq_step B hSeparate st)
  have hNoWriter : ∀ i ∈ List.range B.nAccumulators, w ∉ B.wiring.outs i := by
    intro i hi
    simpa [wiring] using hOut i (List.mem_range.mp hi)
  have hNotDrained : ¬Drained B.wiring (List.range B.nAccumulators) w := by
    rintro ⟨i, -, hMem⟩
    exact hIn i (by simpa [wiring] using hMem)
  rw [step_content_of_no_writer hNoWriter, if_neg hNotDrained] at hStep
  exact hStep

theorem cycle_clobbered (hSeparate : B.Separate)
    (hEmpty : ∀ i < B.nAccumulators, st.2.store.content (B.outputConnection i) = none)
    (w : ω) :
    (B.cycle st).2.store.clobbered w = st.2.store.clobbered w := by
  have hStep := congrArg (fun n => n.store.clobbered w) (cycle_eq_step B hSeparate st)
  rw [step_clobbered (readersFirst B hSeparate)] at hStep
  · exact hStep
  · intro i hi hw _
    have hEq : w = B.outputConnection i := by simpa [wiring] using hw
    exact Or.inr (hEq ▸ hEmpty i (List.mem_range.mp hi))

end

end AccumulationBuffer

end Stonne
