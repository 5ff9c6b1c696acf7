import Stonne.Lib.Schedule
import Stonne.Testbench
import Stonne.WriteLoops

/-!
# The sparse-dense memory controller

`SparseDenseSDMemory::cycle` takes the rows of a compressed matrix one after the other.  It sends
the entries of a row to the multipliers, `T_K` in every fold.  Then it sends, for `T_N` columns at
a time, the elements of the dense matrix that these entries select, and waits for the outputs of
the row.  The multipliers turn their weights around.

The networks are ideal ones: every neuron has its own sum and its own accumulator.  The tree is
such a network where the neurons have different places in it, that is for `T_K` from two on and for
a single neuron; in the other tiles two neurons share an adder, which has one accumulator.
-/

namespace Stonne

open Dataflow

/-- A layer that `SparseDenseSDMemory` has loaded, with its tile. -/
structure SparseDenseMemory where
  numMs : Nat
  M : Nat
  N : Nat
  tN : Nat
  tK : Nat
  mkAddress : Nat → Int
  mkColId : Nat → Nat
  mkRowPointer : Nat → Nat
  knAddress : Nat → Int

/-- The controller between two cycles. -/
structure SparseDenseSDMemory extends SparseDenseSDMemoryWriter where
  currentState : SparsityControllerState := .configuring
  kNnz : Nat := 0
  staBase : Nat := 0
  iterK : Nat := 0
  currentM : Nat := 0
  currentN : Nat := 0
  currentKNnz : Nat := 0

/-- The weights of the multipliers, and what the accumulator of every neuron has added up. -/
structure SparseDenseNetworks where
  weightFifos : Nat → List Int := fun _ => []
  psums : Nat → Int := fun _ => 0
  currentPsum : Nat := 0

/-- The controller, the networks, and for every neuron the results that are on their way to
`write_fifo`. -/
structure SparseDenseGemm where
  memory : SparseDenseSDMemory
  networks : SparseDenseNetworks := {}
  results : Nat → List Int := fun _ => []
  writeFifo : Fifo := []

namespace SparseDenseNetworks

def receiveWeights (networks : SparseDenseNetworks) (pcks : List DataPackage) :
    SparseDenseNetworks :=
  { networks with
    weightFifos := fun m =>
      networks.weightFifos m ++ (pcks.filter (·.addresses m)).map (·.data) }

/-- The products of the multipliers of a neuron, each with its first weight. -/
def products (networks : SparseDenseNetworks) (tK : Nat) (pcks : List DataPackage) (vn : Nat) :
    Int :=
  ((List.range tK).map fun j =>
    ((pcks.filter (·.addresses (vn * tK + j))).map fun pck =>
      (networks.weightFifos (vn * tK + j)).headD 0 * pck.data).sum).sum

/-- A wave of activations, and the outputs of the accumulators after the last fold. -/
def receiveWave (networks : SparseDenseNetworks) (tN tK iterK : Nat) (pcks : List DataPackage) :
    SparseDenseNetworks × (Nat → List Int) :=
  let psums := fun vn => networks.psums vn + networks.products tK pcks vn
  let weightFifos := fun m => (networks.weightFifos m).rotate 1
  if networks.currentPsum + 1 = iterK then
    ({ weightFifos := weightFifos }, fun vn => if vn < tN then [psums vn] else [])
  else
    ({ weightFifos := weightFifos, psums := psums, currentPsum := networks.currentPsum + 1 },
      fun _ => [])

end SparseDenseNetworks

namespace SparseDenseMemory

variable (layer : SparseDenseMemory)

/-- `iter_N` -/
def iterN : Nat :=
  Binary32.ceilDiv layer.N layer.tN

/-- `K_nnz`, of a row. -/
def nnz (m : Nat) : Nat :=
  layer.mkRowPointer (m + 1) - layer.mkRowPointer m

/-- `iter_K`, of a row. -/
def folds (m : Nat) : Nat :=
  layer.nnz m / layer.tK + if layer.nnz m % layer.tK ≠ 0 then 1 else 0

/-- `CONFIGURING` -/
def configure (memory : SparseDenseSDMemory) : SparseDenseSDMemory :=
  { memory with
    kNnz := layer.nnz memory.currentM
    staBase := layer.mkRowPointer memory.currentM
    iterK := layer.folds memory.currentM
    currentKNnz := 0
    staComplete := false }

/-- The packages of `DIST_STA_MATRIX`; the indices are of 32 bits. -/
def weightPackages (memory : SparseDenseSDMemory) : List DataPackage :=
  (List.range layer.tK).map fun j =>
    let indexK := (memory.currentKNnz * layer.tK + j) % 2 ^ 32
    { data :=
        if indexK < memory.kNnz then layer.mkAddress ((memory.staBase + indexK) % 2 ^ 32) else 0
      dataType := .weight
      traffic := .multicast (destinationVector layer.numMs
        ((List.range layer.tN).map fun i => i * layer.tK + j)) }

/-- The packages of `DIST_STR_MATRIX`; `dest` counts them, and the indices are of 32 bits. -/
def activationPackages (memory : SparseDenseSDMemory) : List DataPackage :=
  (cells layer.tN layer.tK).map fun cell =>
    let indexN := (memory.currentN * layer.tN + cell.1) % 2 ^ 32
    let indexK := (memory.currentKNnz * layer.tK + cell.2) % 2 ^ 32
    { data :=
        if indexK < memory.kNnz then
          if indexN < layer.N then
            layer.knAddress
              ((layer.mkColId ((memory.staBase + indexK) % 2 ^ 32) * layer.N + indexN) % 2 ^ 32)
          else 0
        else 0
      dataType := .iactivation
      traffic := .unicast (cell.1 * layer.tK + cell.2) }

/-- The cursor of `DIST_STA_MATRIX`. -/
def nextStationary (memory : SparseDenseSDMemory) : SparseDenseSDMemory :=
  if memory.currentKNnz + 1 = memory.iterK then
    { memory with currentKNnz := 0, staComplete := true }
  else { memory with currentKNnz := memory.currentKNnz + 1 }

/-- The cursors of `DIST_STR_MATRIX`. -/
def nextWave (memory : SparseDenseSDMemory) : SparseDenseSDMemory :=
  if memory.currentKNnz + 1 = memory.iterK then
    if memory.currentN + 1 = layer.iterN then
      { memory with
        currentKNnz := 0
        currentN := 0
        currentM := memory.currentM + 1
        staComplete := true }
    else { memory with currentKNnz := 0, currentN := memory.currentN + 1 }
  else { memory with currentKNnz := memory.currentKNnz + 1 }

/-- The part of a cycle before the outputs are received. -/
def generate (memory : SparseDenseSDMemory) : SparseDenseSDMemory :=
  match memory.currentState with
  | .configuring => layer.configure memory
  | .distStaMatrix => nextStationary memory
  | .distStrMatrix => layer.nextWave memory
  | .waitingForNextStaIter => memory
  | .allDataSent => memory

/-- What the networks do with the packages of a cycle, and the results. -/
def feedNetworks (st : SparseDenseGemm) : SparseDenseNetworks × (Nat → List Int) :=
  match st.memory.currentState with
  | .configuring => ({}, fun _ => [])
  | .distStaMatrix =>
      (st.networks.receiveWeights (layer.weightPackages st.memory), fun _ => [])
  | .distStrMatrix =>
      st.networks.receiveWave layer.tN layer.tK st.memory.iterK
        (layer.activationPackages st.memory)
  | .waitingForNextStaIter => (st.networks, fun _ => [])
  | .allDataSent => (st.networks, fun _ => [])

/-- The transitions at the end of a cycle. -/
def transition (memory : SparseDenseSDMemory) : SparseDenseSDMemory :=
  match memory.currentState with
  | .configuring => { memory with currentState := .distStaMatrix }
  | .distStaMatrix =>
      if memory.staComplete then
        { memory with currentState := .distStrMatrix, staComplete := false }
      else memory
  | .distStrMatrix =>
      if layer.M ≤ memory.currentM then { memory with currentState := .allDataSent }
      else if memory.staComplete then
        { memory with currentState := .waitingForNextStaIter, staComplete := false }
      else memory
  | .waitingForNextStaIter =>
      if memory.staComplete then { memory with currentState := .configuring } else memory
  | .allDataSent => memory

/-- The next package of neuron `vn` gets to `write_fifo`, when there is one. -/
def deliver (arrived : Fifo × (Nat → List Int)) (vn : Nat) : Fifo × (Nat → List Int) :=
  match arrived.2 vn with
  | [] => arrived
  | data :: rest => (arrived.1 ++ [psumPackage vn data], Function.update arrived.2 vn rest)

/-- What the write loop reads. -/
def writerLayer (currentState : SparsityControllerState) : SparseDenseLayer where
  M := layer.M
  N := layer.N
  tN := layer.tN
  iterN := layer.iterN
  currentState := currentState

/-- A cycle in which the neurons of `arrivals` return a package each. -/
def cycle (st : SparseDenseGemm) (arrivals : List Nat) : SparseDenseGemm :=
  let arrived := arrivals.foldl deliver (st.writeFifo, st.results)
  let generated := layer.generate st.memory
  let written := (SparseDenseSDMemoryWriter.writeLoop (layer.writerLayer st.memory.currentState)
    arrived.1 generated.toSparseDenseSDMemoryWriter).getD
      (arrived.1, generated.toSparseDenseSDMemoryWriter)
  let fed := layer.feedNetworks st
  { memory := layer.transition { generated with toSparseDenseSDMemoryWriter := written.2 }
    networks := fed.1
    results := fun vn => arrived.2 vn ++ fed.2 vn
    writeFifo := written.1 }

/-- The controller before the first cycle. -/
def start (outputAddress : Nat → Int) : SparseDenseGemm :=
  { memory := { outputAddress } }

end SparseDenseMemory

end Stonne
