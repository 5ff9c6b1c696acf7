import Mathlib.Data.List.ReduceOption
import Stonne.Accumulator
import Stonne.Lib.Feed

/-!
# Block sums

An accumulator and an adder in the configuration `FOLD` count the packages that they add and
emit the sum of every `n_psums` of them.  Here both are called over and over with at most one
package, and what they emit is read off the packages that arrived.

Neither looks at more of a package than its `vn` and its data, so the stream of the invariant
`Accumulator.Holds` stands for every stream.
-/

namespace Stonne

open Dataflow

/-- What the adders read of a package. -/
def DataPackage.strip (pck : DataPackage) : DataPackage :=
  psumPackage pck.vn pck.data

@[simp]
theorem DataPackage.strip_data (pck : DataPackage) : pck.strip.data = pck.data := rfl

@[simp]
theorem DataPackage.strip_vn (pck : DataPackage) : pck.strip.vn = pck.vn := rfl

/-- The data of package `i` of a stream. -/
def dataAt (inputs : List DataPackage) (i : Nat) : Int :=
  ((inputs[i]?).map DataPackage.data).getD 0

/-- The packages that arrived in some calls. -/
abbrev arrivals (calls : List (Option DataPackage)) : List DataPackage :=
  calls.reduceOption

namespace Accumulator

/-- A call with at most one package. -/
def call (a : Accumulator) (arrived : Option DataPackage) :
    Accumulator × List DataPackage :=
  a.fire arrived.toList

/-- Nothing waits in the accumulator and no sum is open. -/
structure AtRest (a : Accumulator) : Prop where
  inputFifo : a.inputFifo = []
  outputFifo : a.outputFifo = []
  currentPsum : a.currentPsum = 0
  failed : a.failed = false

/-- The state in which the accumulator sees what it reads and no more. -/
def strip (a : Accumulator) : Accumulator :=
  { a with
    inputFifo := a.inputFifo.map DataPackage.strip
    outputFifo := a.outputFifo.map DataPackage.strip
    temporalRegister := a.temporalRegister.strip }

theorem accumulate_strip (a : Accumulator) (pck : DataPackage) :
    a.strip.accumulate pck.strip = (a.accumulate pck).strip := by
  unfold accumulate
  by_cases h : a.currentPsum = 0
  · simp [strip, h]
  · simp [strip, h, performOperation2Operands, DataPackage.strip, psumPackage]

theorem finishOrCount_strip (a : Accumulator) :
    a.strip.finishOrCount = a.finishOrCount.strip := by
  unfold finishOrCount
  by_cases h : a.currentPsum + 1 = a.nPsums
  · simp [strip, h]
  · simp [strip, h]

theorem route_strip (a : Accumulator) : a.strip.route = a.route.strip := by
  unfold route
  cases hFifo : a.inputFifo with
  | nil => simp [strip, hFifo]
  | cons pck rest =>
      have hPopped : ({ a.strip with inputFifo := rest.map DataPackage.strip } : Accumulator) =
          ({ a with inputFifo := rest } : Accumulator).strip := rfl
      have hStrip : a.strip.inputFifo = pck.strip :: rest.map DataPackage.strip := by
        simp [strip, hFifo]
      rw [hStrip]
      simp only [hPopped]
      rw [accumulate_strip, finishOrCount_strip]

theorem call_strip (a : Accumulator) (arrived : Option DataPackage) :
    a.strip.call (arrived.map DataPackage.strip) =
      ((a.call arrived).1.strip, (a.call arrived).2.map DataPackage.strip) := by
  have hArrived : ({ a.strip with
      inputFifo := a.strip.inputFifo ++ (arrived.map DataPackage.strip).toList } : Accumulator) =
      ({ a with inputFifo := a.inputFifo ++ arrived.toList } : Accumulator).strip := by
    cases arrived <;> simp [strip]
  simp only [call, fire, hArrived, route_strip]
  simp [strip]

variable {n vn : Nat} {x : Nat → Int}

private theorem flatMap_finished_succ (q k : Nat) :
    (List.range (k + 1)).flatMap (fun i => finished n vn x (q + i)) =
      finished n vn x q ++ (List.range k).flatMap fun i => finished n vn x (q + 1 + i) := by
  have hShift : (fun i => finished n vn x (q + (i + 1))) =
      fun i => finished n vn x (q + 1 + i) := by
    funext i
    rw [show q + (i + 1) = q + 1 + i by omega]
  rw [List.range_succ_eq_map, List.flatMap_cons, List.flatMap_map, hShift, Nat.add_zero]

/-- The calls move the invariant by the packages that arrive and emit the sums that they
finish. -/
theorem Holds.feed {calls : List (Option DataPackage)} {q : Nat} {a : Accumulator}
    (h : Holds n vn x q a) (hInput : a.inputFifo = []) (hOutput : a.outputFifo = [])
    (hStream : ∀ i pck, (arrivals calls)[i]? = some pck → pck = psumPackage vn (x (q + i))) :
    Holds n vn x (q + (arrivals calls).length) (feed call a calls).1 ∧
      (Dataflow.feed call a calls).2 =
        (List.range (arrivals calls).length).flatMap fun i => finished n vn x (q + i) := by
  induction calls generalizing q a with
  | nil => exact ⟨h, rfl⟩
  | cons arrived calls ih =>
      cases arrived with
      | none =>
          have hIdle : a.call none = (a, []) := fire_nil hInput hOutput
          rw [feed_cons, hIdle]
          exact ih h hInput hOutput hStream
      | some pck =>
          have hFirst : pck = psumPackage vn (x q) := hStream 0 pck rfl
          obtain ⟨hNext, hInput', hOutput', hEmitted⟩ := h.fire_package hInput hOutput
          have hRest := ih hNext hInput' hOutput' fun i pck' hAt => by
            have hLater := hStream (i + 1) pck' hAt
            rwa [show q + (i + 1) = q + 1 + i by omega] at hLater
          have hCall : a.call (some pck) = a.fire [psumPackage vn (x q)] := by
            rw [hFirst]
            rfl
          have hCount : (arrivals (some pck :: calls)).length = (arrivals calls).length + 1 := rfl
          rw [feed_cons, hCall, hCount, hEmitted, hRest.2, flatMap_finished_succ]
          refine ⟨?_, rfl⟩
          rw [show q + ((arrivals calls).length + 1) = q + 1 + (arrivals calls).length by omega]
          exact hRest.1

/-- The sums that are finished on the way are those of the complete blocks. -/
theorem flatMap_finished (hn : 1 ≤ n) (q : Nat) :
    (List.range q).flatMap (finished n vn x) =
      (List.range (q / n)).map fun b => psumPackage vn (blockSum n x b) := by
  induction q with
  | zero => simp
  | succ q ih =>
      have hSplit := Nat.div_add_mod q n
      have hLess := Nat.mod_lt q hn
      rw [List.range_succ, List.flatMap_append, ih, List.flatMap_singleton, finished]
      rcases eq_or_ne (q % n + 1) n with hLast | hOpen
      · have hNext : (q + 1) / n = q / n + 1 := by
          rw [show q + 1 = n * (q / n + 1) by rw [Nat.mul_add]; omega]
          exact Nat.mul_div_cancel_left _ hn
        rw [if_pos hLast, hNext, List.range_succ, List.map_append]
        rfl
      · have hSame : (q + 1) / n = q / n := by
          rw [show q + 1 = n * (q / n) + (q % n + 1) by omega, Nat.mul_add_div hn,
            Nat.div_eq_of_lt (show q % n + 1 < n by omega), Nat.add_zero]
        rw [if_neg hOpen, hSame, List.append_nil]

end Accumulator

/-- What a counting adder makes of a stream of packages of neuron `vn`, with blocks of `n`:
the sums of the complete blocks are emitted in their order, the counter is the length of the
open block, and the register is its sum as long as the block has a package. -/
structure CountsBlocks (n vn : Nat) (inputs emitted : List DataPackage)
    (register : DataPackage) (currentPsum : Nat) : Prop where
  sums : emitted.map DataPackage.data =
    (List.range (inputs.length / n)).map (Accumulator.blockSum n (dataAt inputs))
  neuron : ∀ pck ∈ emitted, pck.vn = vn
  currentPsum : currentPsum = inputs.length % n
  register : inputs.length % n ≠ 0 →
    register.data = Accumulator.partialSum n (dataAt inputs) inputs.length ∧ register.vn = vn

namespace Accumulator

/-- The accumulator after `setNPSums`, called with packages of one neuron. -/
theorem AtRest.countsBlocks {n vn : Nat} {a : Accumulator} (hRest : a.AtRest) (hn : 1 ≤ n)
    {calls : List (Option DataPackage)} (hVn : ∀ pck ∈ arrivals calls, pck.vn = vn) :
    let r := feed call (a.setNPSums n) calls
    CountsBlocks n vn (arrivals calls) r.2 r.1.temporalRegister r.1.currentPsum ∧
      r.1.failed = false := by
  intro r
  have hHolds : Holds n vn (dataAt (arrivals calls)) 0 (a.setNPSums n).strip :=
    Holds.zero rfl hRest.currentPsum hRest.failed
  have hStripped : arrivals (calls.map (Option.map DataPackage.strip)) =
      (arrivals calls).map DataPackage.strip := by
    simp [arrivals, List.reduceOption_map]
  have hStream : ∀ i pck,
      (arrivals (calls.map (Option.map DataPackage.strip)))[i]? = some pck →
        pck = psumPackage vn (dataAt (arrivals calls) (0 + i)) := by
    intro i pck hAt
    rw [hStripped, List.getElem?_map, Option.map_eq_some_iff] at hAt
    obtain ⟨arrived, hArrived, rfl⟩ := hAt
    have hMem := hVn arrived (List.mem_of_getElem? hArrived)
    simp [DataPackage.strip, dataAt, hArrived, hMem]
  obtain ⟨hLast, hEmitted⟩ := hHolds.feed (by simp [strip, setNPSums, hRest.inputFifo])
    (by simp [strip, setNPSums, hRest.outputFifo]) hStream
  have hSame := feed_simulates (fun _ : Accumulator => True) (fun _ _ _ => trivial)
    (fun a arrived _ => a.call_strip arrived) (s := a.setNPSums n) trivial calls
  rw [hSame, hStripped, List.length_map, Nat.zero_add] at hLast
  rw [hSame, hStripped, List.length_map] at hEmitted
  simp only [Nat.zero_add] at hEmitted
  rw [flatMap_finished hn] at hEmitted
  have hData := congrArg (List.map DataPackage.data) hEmitted
  have hNeuron := congrArg (List.map DataPackage.vn) hEmitted
  refine ⟨⟨?_, ?_, hLast.currentPsum, ?_⟩, hLast.failed⟩
  · simpa [Function.comp_def, psumPackage] using hData
  · intro pck hMem
    have hIn : pck.vn ∈ r.2.map DataPackage.vn := List.mem_map_of_mem hMem
    have hAll : r.2.map DataPackage.vn =
        List.replicate ((arrivals calls).length / n) vn := by
      simpa [Function.comp_def, psumPackage] using hNeuron
    rw [hAll] at hIn
    exact List.eq_of_mem_replicate hIn
  · intro hOpen
    have hRegister := hLast.register hOpen
    exact ⟨congrArg DataPackage.data hRegister, congrArg DataPackage.vn hRegister⟩

@[simp]
theorem finishOrCount_inputFifo (a : Accumulator) :
    a.finishOrCount.inputFifo = a.inputFifo := by
  unfold finishOrCount
  split <;> rfl

/-- A call takes the package that it is given. -/
theorem call_inputFifo {a : Accumulator} (h : a.inputFifo = []) (arrived : Option DataPackage) :
    (a.call arrived).1.inputFifo = [] := by
  cases arrived <;> simp [call, fire, route, h]

theorem atRest_default : ({} : Accumulator).AtRest :=
  ⟨rfl, rfl, rfl, rfl⟩

theorem AtRest.resetSignals {a : Accumulator} (h : a.AtRest) : a.resetSignals.AtRest :=
  ⟨h.inputFifo, h.outputFifo, rfl, h.failed⟩

end Accumulator

/-! ## Configuring again -/

/-- A configuration of the accumulator and the calls under it. -/
structure FoldConfiguration where
  nPsums : Nat
  vn : Nat
  calls : List (Option DataPackage)

namespace FoldConfiguration

/-- The sums that the calls finish. -/
def blockSums (c : FoldConfiguration) : List Int :=
  (List.range ((arrivals c.calls).length / c.nPsums)).map
    (Accumulator.blockSum c.nPsums (dataAt (arrivals c.calls)))

/-- The calls bring packages of one neuron and end with a block. -/
structure Complete (c : FoldConfiguration) : Prop where
  positive : 1 ≤ c.nPsums
  neuron : ∀ pck ∈ arrivals c.calls, pck.vn = c.vn
  whole : c.nPsums ∣ (arrivals c.calls).length

end FoldConfiguration

namespace Accumulator

/-- `resetSignals`, `setNPSums` and the calls of a configuration. -/
def configured (a : Accumulator) (c : FoldConfiguration) : Accumulator × List DataPackage :=
  feed call (a.resetSignals.setNPSums c.nPsums) c.calls

theorem AtRest.configured {a : Accumulator} (h : a.AtRest) {c : FoldConfiguration}
    (hc : c.Complete) :
    (a.configured c).1.AtRest ∧ (a.configured c).2.map DataPackage.data = c.blockSums := by
  obtain ⟨hCounts, hFailed⟩ := h.resetSignals.countsBlocks hc.positive hc.neuron
  have hTaken : (a.configured c).1.inputFifo = [] ∧ (a.configured c).1.outputFifo = [] := by
    refine feed_invariant (I := fun _ (b : Accumulator) _ => b.inputFifo = [] ∧ b.outputFifo = [])
      ?_ ?_ c.calls
    · exact ⟨h.inputFifo, h.outputFifo⟩
    · rintro _ b _ arrived ⟨hInput, -⟩
      exact ⟨call_inputFifo hInput arrived, rfl⟩
  have hClosed : (a.configured c).1.currentPsum = 0 :=
    hCounts.currentPsum.trans (Nat.mod_eq_zero_of_dvd hc.whole)
  exact ⟨⟨hTaken.1, hTaken.2, hClosed, hFailed⟩, hCounts.sums⟩

/-- A sequence of configurations that each end with a block. -/
theorem feed_configured {before : List FoldConfiguration} (hComplete : ∀ c ∈ before, c.Complete) :
    (feed Accumulator.configured {} before).1.AtRest ∧
      (feed Accumulator.configured {} before).2.map DataPackage.data =
        before.flatMap FoldConfiguration.blockSums := by
  induction before using List.reverseRecOn with
  | nil => exact ⟨atRest_default, rfl⟩
  | append_singleton before c ih =>
      obtain ⟨hRest, hSums⟩ := ih fun c' hMem => hComplete c' (List.mem_append_left _ hMem)
      obtain ⟨hNext, hLast⟩ := hRest.configured (hComplete c (by simp))
      rw [feed_concat]
      refine ⟨hNext, ?_⟩
      rw [List.map_append, hSums, hLast, List.flatMap_append, List.flatMap_singleton]

end Accumulator

/-! ## The adder -/

inductive AdderOperation where
  | adder
  | comparator
  deriving DecidableEq, Repr

/-- The fields of an adder that the configuration `FOLD` uses. -/
structure FEASwitch where
  inputFwBelowNodesFifo : Fifo := []
  outputPsumFifo : Fifo := []
  operationMode : AdderOperation := .adder
  forwardToMemory : Bool := false
  /-- Written before it is first read. -/
  temporalRegister : DataPackage := psumPackage 0 0
  currentPsum : Nat := 0
  /-- Written by `setNPSums` before it is first read. -/
  nPsums : Nat := 0
  /-- An assertion has failed. -/
  failed : Bool := false

namespace FEASwitch

def setNPSums (s : FEASwitch) (nPsums : Nat) : FEASwitch :=
  { s with nPsums := nPsums }

def performOperation2Operands (s : FEASwitch) (left right : DataPackage) : DataPackage :=
  match s.operationMode with
  | .adder => psumPackage left.vn (left.data + right.data)
  | .comparator =>
    psumPackage left.vn (if left.data > right.data then left.data else right.data)

/-- The register after one more package. -/
def accumulate (s : FEASwitch) (pckReceived : DataPackage) : FEASwitch :=
  if s.currentPsum = 0 then { s with temporalRegister := pckReceived }
  else
    { s with
      temporalRegister := s.performOperation2Operands s.temporalRegister pckReceived
      failed := s.failed || s.temporalRegister.vn != pckReceived.vn }

/-- The subtraction is that of `unsigned int`. -/
def finishOrCount (s : FEASwitch) : FEASwitch :=
  if s.currentPsum = (s.nPsums + (2 ^ 32 - 1)) % 2 ^ 32 then
    { s with outputPsumFifo := s.outputPsumFifo ++ [s.temporalRegister], currentPsum := 0 }
  else { s with currentPsum := (s.currentPsum + 1) % 2 ^ 32 }

def routeFoldConfig (s : FEASwitch) : FEASwitch :=
  match s.inputFwBelowNodesFifo with
  | [] => { s with failed := s.failed || !s.forwardToMemory }
  | pckReceived :: rest =>
    ({ s with
      inputFwBelowNodesFifo := rest
      failed := s.failed || !s.forwardToMemory }.accumulate pckReceived).finishOrCount

/-- A call with at most one package, and what `send` takes from the output fifo. -/
def call (s : FEASwitch) (arrived : Option DataPackage) : FEASwitch × List DataPackage :=
  let routed := { s with
    inputFwBelowNodesFifo := s.inputFwBelowNodesFifo ++ arrived.toList }.routeFoldConfig
  ({ routed with outputPsumFifo := [] }, routed.outputPsumFifo)

/-- The accumulator inside an adder. -/
def toAccumulator (s : FEASwitch) : Accumulator where
  inputFifo := s.inputFwBelowNodesFifo
  outputFifo := s.outputPsumFifo
  temporalRegister := s.temporalRegister
  currentPsum := s.currentPsum
  nPsums := s.nPsums
  failed := s.failed

/-- An adder that sums and forwards to memory, with a count that an `unsigned int` holds and
that the counter has not reached. -/
structure Folds (s : FEASwitch) : Prop where
  adder : s.operationMode = .adder
  forwardToMemory : s.forwardToMemory = true
  positive : 1 ≤ s.nPsums
  bounded : s.nPsums < 2 ^ 32
  below : s.currentPsum < s.nPsums

theorem Folds.accumulate {s : FEASwitch} (h : s.Folds) (pck : DataPackage) :
    (s.accumulate pck).Folds ∧
      (s.accumulate pck).toAccumulator = s.toAccumulator.accumulate pck := by
  have hSum : s.performOperation2Operands s.temporalRegister pck =
      Accumulator.performOperation2Operands s.temporalRegister pck := by
    rw [performOperation2Operands, h.adder]
    rfl
  unfold FEASwitch.accumulate Accumulator.accumulate
  rcases eq_or_ne s.currentPsum 0 with hZero | hZero
  · rw [if_pos hZero, if_pos (show s.toAccumulator.currentPsum = 0 from hZero)]
    exact ⟨⟨h.adder, h.forwardToMemory, h.positive, h.bounded, h.below⟩, rfl⟩
  · rw [if_neg hZero, if_neg (show s.toAccumulator.currentPsum ≠ 0 from hZero), hSum]
    exact ⟨⟨h.adder, h.forwardToMemory, h.positive, h.bounded, h.below⟩, rfl⟩

theorem Folds.finishOrCount {s : FEASwitch} (h : s.Folds) :
    s.finishOrCount.Folds ∧ s.finishOrCount.toAccumulator = s.toAccumulator.finishOrCount := by
  have hPositive := h.positive
  have hBounded := h.bounded
  have hBelow := h.below
  have hLast : (s.nPsums + (2 ^ 32 - 1)) % 2 ^ 32 = s.nPsums - 1 := by omega
  have hNext : (s.currentPsum + 1) % 2 ^ 32 = s.currentPsum + 1 := by omega
  unfold FEASwitch.finishOrCount Accumulator.finishOrCount
  rw [hLast, hNext]
  rcases eq_or_ne (s.currentPsum + 1) s.nPsums with hEnd | hOpen
  · rw [if_pos (by omega),
      if_pos (show s.toAccumulator.currentPsum + 1 = s.toAccumulator.nPsums from hEnd)]
    exact ⟨⟨h.adder, h.forwardToMemory, h.positive, h.bounded, h.positive⟩, rfl⟩
  · rw [if_neg (by omega),
      if_neg (show s.toAccumulator.currentPsum + 1 ≠ s.toAccumulator.nPsums from hOpen)]
    exact ⟨⟨h.adder, h.forwardToMemory, h.positive, h.bounded, by simp only; omega⟩, rfl⟩

theorem Folds.routeFoldConfig {s : FEASwitch} (h : s.Folds) :
    s.routeFoldConfig.Folds ∧ s.routeFoldConfig.toAccumulator = s.toAccumulator.route := by
  have hAsserted : (s.failed || !s.forwardToMemory) = s.failed := by
    rw [h.forwardToMemory, Bool.not_true, Bool.or_false]
  have hShared : s.toAccumulator.inputFifo = s.inputFwBelowNodesFifo := rfl
  cases hFifo : s.inputFwBelowNodesFifo with
  | nil =>
      have hRoute : s.routeFoldConfig = s := by
        simp only [FEASwitch.routeFoldConfig, hFifo, hAsserted]
        rw [← hFifo]
      have hIdle : s.toAccumulator.route = s.toAccumulator := by
        simp only [Accumulator.route, hShared, hFifo]
      rw [hRoute, hIdle]
      exact ⟨h, rfl⟩
  | cons pck rest =>
      have hPopped : ({ s with inputFwBelowNodesFifo := rest } : FEASwitch).Folds :=
        ⟨h.adder, h.forwardToMemory, h.positive, h.bounded, h.below⟩
      obtain ⟨hSummed, hEq⟩ := hPopped.accumulate pck
      obtain ⟨hFolds, hFinished⟩ := hSummed.finishOrCount
      have hRoute : s.routeFoldConfig =
          (({ s with inputFwBelowNodesFifo := rest } : FEASwitch).accumulate
            pck).finishOrCount := by
        simp only [FEASwitch.routeFoldConfig, hFifo, hAsserted]
      rw [hRoute]
      refine ⟨hFolds, ?_⟩
      rw [hFinished, hEq]
      simp only [Accumulator.route, hShared, hFifo]
      rfl

theorem Folds.call {s : FEASwitch} (h : s.Folds) (arrived : Option DataPackage) :
    (s.call arrived).1.Folds ∧
      s.toAccumulator.call arrived =
        ((s.call arrived).1.toAccumulator, (s.call arrived).2) := by
  have hArrived : ({ s with
      inputFwBelowNodesFifo := s.inputFwBelowNodesFifo ++ arrived.toList } : FEASwitch).Folds :=
    ⟨h.adder, h.forwardToMemory, h.positive, h.bounded, h.below⟩
  obtain ⟨hRouted, hEq⟩ := hArrived.routeFoldConfig
  refine ⟨⟨hRouted.adder, hRouted.forwardToMemory, hRouted.positive, hRouted.bounded,
    hRouted.below⟩, ?_⟩
  have hFire : ({ s.toAccumulator with
      inputFifo := s.toAccumulator.inputFifo ++ arrived.toList } : Accumulator) =
      ({ s with
        inputFwBelowNodesFifo := s.inputFwBelowNodesFifo ++ arrived.toList } :
          FEASwitch).toAccumulator := rfl
  rw [Accumulator.call, Accumulator.fire, hFire, ← hEq]
  rfl

/-- The adder emits what the accumulator emits, in every sequence of calls. -/
theorem Folds.feed {s : FEASwitch} (h : s.Folds) (calls : List (Option DataPackage)) :
    Dataflow.feed Accumulator.call s.toAccumulator calls =
      ((Dataflow.feed FEASwitch.call s calls).1.toAccumulator,
        (Dataflow.feed FEASwitch.call s calls).2) := by
  have hCall : ∀ s arrived, s.Folds →
      s.toAccumulator.call (id arrived) =
        ((FEASwitch.call s arrived).1.toAccumulator, (FEASwitch.call s arrived).2.map id) := by
    intro s arrived hFolds
    rw [List.map_id]
    exact (hFolds.call arrived).2
  have hSame := feed_simulates Folds (fun s arrived hFolds => (hFolds.call arrived).1) hCall h
    calls
  rwa [List.map_id, List.map_id] at hSame

end FEASwitch

/-- Accumulator and adder make the same block sums of every stream of one neuron.  An
accumulator that is configured again whenever no block is open starts with a fresh block every
time, and no package is lost or counted twice. -/
theorem blockSums_counted {n vn : Nat} (hn : 1 ≤ n) (hBounded : n < 2 ^ 32)
    {calls : List (Option DataPackage)} (hVn : ∀ pck ∈ arrivals calls, pck.vn = vn) :
    let acc := feed Accumulator.call (({} : Accumulator).setNPSums n) calls
    let switch := feed FEASwitch.call
      (({ forwardToMemory := true } : FEASwitch).setNPSums n) calls
    (CountsBlocks n vn (arrivals calls) acc.2 acc.1.temporalRegister acc.1.currentPsum ∧
        acc.1.failed = false) ∧
      (CountsBlocks n vn (arrivals calls) switch.2 switch.1.temporalRegister
          switch.1.currentPsum ∧
        switch.1.failed = false) ∧
      switch.2 = acc.2 ∧
      ∀ before : List FoldConfiguration, (∀ c ∈ before, c.Complete) →
        let earlier := feed Accumulator.configured {} before
        let again := earlier.1.configured ⟨n, vn, calls⟩
        earlier.2.map DataPackage.data = before.flatMap FoldConfiguration.blockSums ∧
          CountsBlocks n vn (arrivals calls) again.2 again.1.temporalRegister
            again.1.currentPsum ∧
          again.1.failed = false := by
  intro acc switch
  have hAcc := Accumulator.AtRest.countsBlocks Accumulator.atRest_default hn hVn
  have hFolds : (({ forwardToMemory := true } : FEASwitch).setNPSums n).Folds :=
    ⟨rfl, rfl, hn, hBounded, hn⟩
  have hSame := hFolds.feed calls
  have hEmitted : acc.2 = switch.2 := congrArg Prod.snd hSame
  have hState : acc.1 = switch.1.toAccumulator := congrArg Prod.fst hSame
  have hSwitch : CountsBlocks n vn (arrivals calls) switch.2 switch.1.temporalRegister
      switch.1.currentPsum ∧ switch.1.failed = false := by
    have hRegister : acc.1.temporalRegister = switch.1.temporalRegister :=
      congrArg Accumulator.temporalRegister hState
    have hCounter : acc.1.currentPsum = switch.1.currentPsum :=
      congrArg Accumulator.currentPsum hState
    have hFailed : acc.1.failed = switch.1.failed := congrArg Accumulator.failed hState
    rw [← hEmitted, ← hRegister, ← hCounter, ← hFailed]
    exact hAcc
  refine ⟨hAcc, hSwitch, hEmitted.symm, ?_⟩
  intro before hComplete earlier again
  obtain ⟨hRest, hSums⟩ := Accumulator.feed_configured hComplete
  exact ⟨hSums, hRest.resetSignals.countsBlocks hn hVn⟩

/-- Three packages and an idle call, in blocks of two at first and then in a block of three. -/
theorem blockSums_counted_three :
    let calls := [some (psumPackage 4 1), none, some (psumPackage 4 2), some (psumPackage 4 3)]
    let before : List FoldConfiguration :=
      [⟨2, 7, [some (psumPackage 7 5), some (psumPackage 7 6)]⟩]
    let acc := feed Accumulator.call (({} : Accumulator).setNPSums 2) calls
    let again := (feed Accumulator.configured {} before).1.configured ⟨3, 4, calls⟩
    CountsBlocks 2 4 (arrivals calls) acc.2 acc.1.temporalRegister acc.1.currentPsum ∧
      CountsBlocks 3 4 (arrivals calls) again.2 again.1.temporalRegister again.1.currentPsum := by
  intro calls before acc again
  have hVn : ∀ pck ∈ arrivals calls, pck.vn = 4 := by decide
  have hComplete : ∀ c ∈ before, c.Complete := by
    intro c hMem
    obtain rfl := List.mem_singleton.mp hMem
    exact ⟨by decide, by decide, by decide⟩
  exact ⟨(blockSums_counted (by decide) (by decide) hVn).1.1,
    ((blockSums_counted (by decide) (by decide) hVn).2.2.2 before hComplete).2.1⟩

/-- Behind a finished block the register still holds its sum. -/
theorem register_after_block :
    ¬∀ (n vn : Nat) (calls : List (Option DataPackage)), 1 ≤ n →
      (∀ pck ∈ arrivals calls, pck.vn = vn) →
      (feed Accumulator.call (({} : Accumulator).setNPSums n) calls).1.temporalRegister.data =
        Accumulator.partialSum n (dataAt (arrivals calls)) (arrivals calls).length := by
  intro h
  have hOne := h 1 0 [some (psumPackage 0 5)] (by decide) (by decide)
  revert hOne
  decide

end Stonne
