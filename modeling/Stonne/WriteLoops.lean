import Stonne.Lib.PopLoop
import Stonne.Maeri.Vnat
import Stonne.Sigma.SparseSDMemory
import Stonne.Tpu.OSMeshSDMemory

/-!
# The write loops of the memory controllers

Behind `receive` every controller writes the packages of its write fifo.  The four loops pop
a package in every round and differ in their bound: `OSMeshSDMemory::cycle` reads the size of
the fifo before the loop, the others read it in every round.

Each structure here holds the fields of a controller that its loop uses.
-/

namespace Stonne

open Dataflow

/-! ## SDMemory -/

/-- An entry of `VNAT`, with the two counters that forward partial sums. -/
structure VNATEntry where
  VN : Nat
  register : VNATRegister
  nPsums : Nat
  currentPsum : Nat := 0

/-- What the write loop of `SDMemory` reads and never writes. -/
structure SDMemoryLayer where
  layer : DNNLayer
  tile : Tile
  /-- The iterations of the registers. -/
  iterations : Iterations
  ports : ReadPorts
  numMs : Nat
  outputPixelsToCompute : Nat

structure SDMemoryWriter where
  vnat : Nat → VNATEntry
  outputAddress : Nat → Int
  currentOutputPixel : Nat := 0
  executionFinished : Bool := false
  readPorts : Nat → ReadPort := fun _ => {}
  /-- The assertion on the `VN` of an entry has failed. -/
  failed : Bool := false

namespace SDMemoryWriter

/-- The partial sum goes back to the first multiplier of its neuron. -/
def forwardedPsum (L : SDMemoryLayer) (vn : Nat) (data : Int) : DataPackage where
  data := data
  dataType := .psum
  traffic := .multicast (destinationVector L.numMs [vn * L.tile.vnSize])

/-- The counting of one package at its entry, and what comes of it. -/
def countPsum (L : SDMemoryLayer) (mem : SDMemoryWriter) (vn : Nat) (data : Int) :
    SDMemoryWriter :=
  let entry := mem.vnat vn
  if entry.currentPsum + 1 < entry.nPsums then
    { mem with
      vnat := Function.update mem.vnat vn { entry with currentPsum := entry.currentPsum + 1 }
      readPorts :=
        SDMemory.sendPackageToInputFifos L.ports mem.readPorts (forwardedPsum L vn data) }
  else { mem with vnat := Function.update mem.vnat vn { entry with currentPsum := 0 } }

/-- `VNAT[vn]->update()` -/
def updateEntry (L : SDMemoryLayer) (mem : SDMemoryWriter) (vn : Nat) : SDMemoryWriter :=
  let entry := mem.vnat vn
  { mem with
    vnat := Function.update mem.vnat vn
      { entry with register := entry.register.update L.layer L.tile L.iterations } }

/-- One round of the write loop. -/
def writePackage (L : SDMemoryLayer) (mem : SDMemoryWriter) (pck : DataPackage) :
    SDMemoryWriter :=
  let entry := mem.vnat pck.vn
  let counted := countPsum L { mem with
    failed := mem.failed || pck.vn != entry.VN
    outputAddress :=
      if entry.register.validValue then
        Function.update mem.outputAddress entry.register.addr pck.data
      else mem.outputAddress
    currentOutputPixel := mem.currentOutputPixel + 1 } pck.vn pck.data
  updateEntry L { counted with
    executionFinished := counted.executionFinished ||
      decide (counted.currentOutputPixel = L.outputPixelsToCompute) } pck.vn

/-- The write loop: its bound is the size of the fifo in every round. -/
def writeLoop (L : SDMemoryLayer) (writeFifo : Fifo) (mem : SDMemoryWriter) :
    Option (Fifo × SDMemoryWriter) :=
  popBelow (writePackage L) 0 writeFifo mem

end SDMemoryWriter

/-! ## SparseSDMemory -/

/-- What the write loop of `SparseSDMemory` reads and never writes. -/
structure SparseOutputLayout where
  staCurrentIndexMetadata : Nat
  outDistVN : Nat
  outDistVNIteration : Nat
  outputSizeIteration : Nat

structure SparseSDMemoryWriter where
  vnatTable : Nat → Nat := fun _ => 0
  outputAddress : Nat → Int
  currentOutput : Nat := 0
  currentOutputIteration : Nat := 0
  staIterCompleted : Bool := false

namespace SparseSDMemoryWriter

def addrOffset (L : SparseOutputLayout) (mem : SparseSDMemoryWriter) (vn : Nat) : Nat :=
  (L.staCurrentIndexMetadata + vn) * L.outDistVN + mem.vnatTable vn * L.outDistVNIteration

/-- One round of the write loop. -/
def writePackage (L : SparseOutputLayout) (mem : SparseSDMemoryWriter) (pck : DataPackage) :
    SparseSDMemoryWriter :=
  let last := decide (mem.currentOutputIteration + 1 = L.outputSizeIteration)
  { vnatTable := Function.update mem.vnatTable pck.vn (mem.vnatTable pck.vn + 1)
    outputAddress := Function.update mem.outputAddress (addrOffset L mem pck.vn) pck.data
    currentOutput := mem.currentOutput + 1
    currentOutputIteration := if last then 0 else mem.currentOutputIteration + 1
    staIterCompleted := mem.staIterCompleted || last }

/-- The write loop: its bound is the size of the fifo in every round. -/
def writeLoop (L : SparseOutputLayout) (writeFifo : Fifo) (mem : SparseSDMemoryWriter) :
    Option (Fifo × SparseSDMemoryWriter) :=
  popBelow (writePackage L) 0 writeFifo mem

end SparseSDMemoryWriter

/-! ## SparseDenseSDMemory -/

/-- What the write loop of `SparseDenseSDMemory` reads and never writes. -/
structure SparseDenseLayer where
  M : Nat
  N : Nat
  tN : Nat
  iterN : Nat
  currentState : SparsityControllerState

/-- `N_and_pad`, a product of 32 bits -/
def SparseDenseLayer.nAndPad (L : SparseDenseLayer) : Nat :=
  L.iterN * L.tN % 2 ^ 32

structure SparseDenseSDMemoryWriter where
  vnatTableIterM : Nat → Nat := fun _ => 0
  vnatTableIterN : Nat → Nat := fun _ => 0
  outputAddress : Nat → Int
  currentOutput : Nat := 0
  currentOutputIteration : Nat := 0
  staComplete : Bool := false
  executionFinished : Bool := false

namespace SparseDenseSDMemoryWriter

/-- The store of one result, unless its column is padding; its column and its address wrap at
2^32. -/
def store (L : SparseDenseLayer) (mem : SparseDenseSDMemoryWriter) (pck : DataPackage) :
    SparseDenseSDMemoryWriter :=
  let column := mem.vnatTableIterN pck.vn * L.tN + pck.vn
  if column % 2 ^ 32 < L.N then
    { mem with
      outputAddress := Function.update mem.outputAddress
        ((mem.vnatTableIterM pck.vn * L.N + column) % 2 ^ 32) pck.data }
  else mem

/-- The odometer of one neuron. -/
def advance (L : SparseDenseLayer) (mem : SparseDenseSDMemoryWriter) (vn : Nat) :
    SparseDenseSDMemoryWriter :=
  if mem.vnatTableIterN vn + 1 = L.iterN then
    { mem with
      vnatTableIterN := Function.update mem.vnatTableIterN vn 0
      vnatTableIterM := Function.update mem.vnatTableIterM vn (mem.vnatTableIterM vn + 1) }
  else
    { mem with
      vnatTableIterN := Function.update mem.vnatTableIterN vn (mem.vnatTableIterN vn + 1) }

/-- The counting of one result in 32 bits, which may end the row and the execution. -/
def count (L : SparseDenseLayer) (mem : SparseDenseSDMemoryWriter) :
    SparseDenseSDMemoryWriter :=
  let mem :=
    { mem with
      currentOutput := (mem.currentOutput + 1) % 2 ^ 32
      executionFinished := mem.executionFinished ||
        decide ((mem.currentOutput + 1) % 2 ^ 32 = L.M * L.nAndPad % 2 ^ 32) }
  if (mem.currentOutputIteration + 1) % 2 ^ 32 = L.nAndPad then
    { mem with
      currentOutputIteration := 0
      staComplete := mem.staComplete || decide (L.currentState = .waitingForNextStaIter) }
  else { mem with currentOutputIteration := (mem.currentOutputIteration + 1) % 2 ^ 32 }

/-- One round of the write loop. -/
def writePackage (L : SparseDenseLayer) (mem : SparseDenseSDMemoryWriter)
    (pck : DataPackage) : SparseDenseSDMemoryWriter :=
  count L (advance L (store L mem pck) pck.vn)

/-- The write loop: its bound is the size of the fifo in every round. -/
def writeLoop (L : SparseDenseLayer) (writeFifo : Fifo) (mem : SparseDenseSDMemoryWriter) :
    Option (Fifo × SparseDenseSDMemoryWriter) :=
  popBelow (writePackage L) 0 writeFifo mem

end SparseDenseSDMemoryWriter

/-! ## OSMeshSDMemory -/

namespace OSMeshSDMemory

/-- The write loop, with the fifo apart: its bound is `write_fifo_size`. -/
def writeLoop (layer : GemmLayer) (writeFifo : Fifo) (mem : OSMeshSDMemory) :
    Option (Fifo × OSMeshSDMemory) :=
  popAll (writePackage layer) writeFifo mem

/-- `writeAll` is what the loop leaves. -/
theorem writeLoop_eq_writeAll (layer : GemmLayer) (mem : OSMeshSDMemory) :
    writeLoop layer mem.writeFifo { mem with writeFifo := [] } =
      some ([], mem.writeAll layer) := by
  rw [writeLoop, popAll_eq]
  rfl

end OSMeshSDMemory

/-! ## The four loops -/

/-- The controllers of a comparison. -/
structure Controllers where
  sdMemoryLayer : SDMemoryLayer
  sdMemory : SDMemoryWriter
  sparseLayout : SparseOutputLayout
  sparse : SparseSDMemoryWriter
  sparseDenseLayer : SparseDenseLayer
  sparseDense : SparseDenseSDMemoryWriter
  gemmLayer : GemmLayer
  osMesh : OSMeshSDMemory

namespace Controllers

variable (C : Controllers)

/-- Every controller pops and applies the packages of the fifo in their order and leaves the
fifo empty. -/
structure AllDrain (writeFifo : Fifo) : Prop where
  sdMemory : Drains (SDMemoryWriter.writeLoop C.sdMemoryLayer)
    (SDMemoryWriter.writePackage C.sdMemoryLayer) writeFifo C.sdMemory
  sparse : Drains (SparseSDMemoryWriter.writeLoop C.sparseLayout)
    (SparseSDMemoryWriter.writePackage C.sparseLayout) writeFifo C.sparse
  sparseDense : Drains (SparseDenseSDMemoryWriter.writeLoop C.sparseDenseLayer)
    (SparseDenseSDMemoryWriter.writePackage C.sparseDenseLayer) writeFifo C.sparseDense
  osMesh : Drains (OSMeshSDMemory.writeLoop C.gemmLayer)
    (OSMeshSDMemory.writePackage C.gemmLayer) writeFifo C.osMesh

/-- In every cycle of a trace of arrivals every controller writes what arrives in it, so none
of them needs another cycle than the others. -/
structure AllKeepUp (trace : List Fifo) : Prop where
  sdMemory : KeepsUp (SDMemoryWriter.writeLoop C.sdMemoryLayer)
    (SDMemoryWriter.writePackage C.sdMemoryLayer) trace C.sdMemory
  sparse : KeepsUp (SparseSDMemoryWriter.writeLoop C.sparseLayout)
    (SparseSDMemoryWriter.writePackage C.sparseLayout) trace C.sparse
  sparseDense : KeepsUp (SparseDenseSDMemoryWriter.writeLoop C.sparseDenseLayer)
    (SparseDenseSDMemoryWriter.writePackage C.sparseDenseLayer) trace C.sparseDense
  osMesh : KeepsUp (OSMeshSDMemory.writeLoop C.gemmLayer)
    (OSMeshSDMemory.writePackage C.gemmLayer) trace C.osMesh

/-- Without further arrivals the controllers need the same number of cycles to write the
packages of the fifo. -/
structure SameCycles (writeFifo : Fifo) : Prop where
  sdMemory : ∀ n, EmptyAfter (SDMemoryWriter.writeLoop C.sdMemoryLayer) n writeFifo C.sdMemory ↔
    EmptyAfter (OSMeshSDMemory.writeLoop C.gemmLayer) n writeFifo C.osMesh
  sparse : ∀ n, EmptyAfter (SparseSDMemoryWriter.writeLoop C.sparseLayout) n writeFifo C.sparse ↔
    EmptyAfter (OSMeshSDMemory.writeLoop C.gemmLayer) n writeFifo C.osMesh
  sparseDense : ∀ n,
    EmptyAfter (SparseDenseSDMemoryWriter.writeLoop C.sparseDenseLayer) n writeFifo
      C.sparseDense ↔
    EmptyAfter (OSMeshSDMemory.writeLoop C.gemmLayer) n writeFifo C.osMesh

theorem allDrain_iff (writeFifo : Fifo) : C.AllDrain writeFifo ↔ writeFifo.length ≤ 1 := by
  constructor
  · intro h
    exact (drains_popBelow_iff writeFifo C.sdMemory).mp h.sdMemory
  · intro hFew
    exact {
      sdMemory := (drains_popBelow_iff writeFifo C.sdMemory).mpr hFew
      sparse := (drains_popBelow_iff writeFifo C.sparse).mpr hFew
      sparseDense := (drains_popBelow_iff writeFifo C.sparseDense).mpr hFew
      osMesh := drains_popAll writeFifo C.osMesh }

theorem allKeepUp_iff (trace : List Fifo) :
    C.AllKeepUp trace ↔ ∀ arrived ∈ trace, arrived.length ≤ 1 := by
  constructor
  · intro h
    exact (keepsUp_popBelow_iff trace C.sdMemory).mp h.sdMemory
  · intro hFew
    exact {
      sdMemory := (keepsUp_popBelow_iff trace C.sdMemory).mpr hFew
      sparse := (keepsUp_popBelow_iff trace C.sparse).mpr hFew
      sparseDense := (keepsUp_popBelow_iff trace C.sparseDense).mpr hFew
      osMesh := keepsUp_popAll trace C.osMesh }

theorem sameCycles_iff (writeFifo : Fifo) :
    C.SameCycles writeFifo ↔ writeFifo.length ≤ 1 := by
  constructor
  · intro h
    exact (emptyAfter_agree_iff writeFifo C.sdMemory C.osMesh).mp h.sdMemory
  · intro hFew
    exact {
      sdMemory := (emptyAfter_agree_iff writeFifo C.sdMemory C.osMesh).mpr hFew
      sparse := (emptyAfter_agree_iff writeFifo C.sparse C.osMesh).mpr hFew
      sparseDense := (emptyAfter_agree_iff writeFifo C.sparseDense C.osMesh).mpr hFew }

/-- The write phases drain the fifo, and count the same number of cycles, exactly when at most
one package is in it; over a trace they keep up exactly when at most one package arrives in
every cycle. -/
theorem writePhase_drains_iff :
    (∀ writeFifo : Fifo,
        (C.AllDrain writeFifo ↔ writeFifo.length ≤ 1) ∧
          (C.SameCycles writeFifo ↔ writeFifo.length ≤ 1)) ∧
      ∀ trace : List Fifo, C.AllKeepUp trace ↔ ∀ arrived ∈ trace, arrived.length ≤ 1 := by
  constructor
  · intro writeFifo
    exact ⟨C.allDrain_iff writeFifo, C.sameCycles_iff writeFifo⟩
  · exact C.allKeepUp_iff

/-- Two packages that arrive in one cycle: the second one waits in all controllers but the
last. -/
theorem second_package_waits :
    let C : Controllers := {
      sdMemoryLayer := {
        layer := ⟨1, 1, 1, 2, 1, 1, 1, 1, 1⟩
        tile := ⟨1, 1, 1, 2, 1, 1, 1, 1, false⟩
        iterations := ⟨1, 1, 1, 1, 1, 1, 1, 1⟩
        ports := ⟨1, 2⟩
        numMs := 2
        outputPixelsToCompute := 2 }
      sdMemory := {
        vnat := fun vn =>
          ⟨vn, VNATRegister.init ⟨1, 1, 1, 2, 1, 1, 1, 1, 1⟩ ⟨0, 0, vn, 0, 0⟩, 1, 0⟩
        outputAddress := fun _ => 0 }
      sparseLayout := ⟨0, 1, 1, 2⟩
      sparse := { outputAddress := fun _ => 0 }
      sparseDenseLayer := ⟨1, 2, 2, 1, .waitingForNextStaIter⟩
      sparseDense := { outputAddress := fun _ => 0 }
      gemmLayer := ⟨1, 2, 1, fun _ => 1, fun _ => 1, 1, 2⟩
      osMesh := { rowsUsed := 1, colsUsed := 2 } }
    let writeFifo := [psumPackage 0 5, psumPackage 1 6]
    (SDMemoryWriter.writeLoop C.sdMemoryLayer writeFifo C.sdMemory).map Prod.fst =
        some [psumPackage 1 6] ∧
      (SparseSDMemoryWriter.writeLoop C.sparseLayout writeFifo C.sparse).map Prod.fst =
        some [psumPackage 1 6] ∧
      (SparseDenseSDMemoryWriter.writeLoop C.sparseDenseLayer writeFifo C.sparseDense).map
        Prod.fst = some [psumPackage 1 6] ∧
      (OSMeshSDMemory.writeLoop C.gemmLayer writeFifo C.osMesh).map Prod.fst = some [] ∧
      ¬C.AllDrain writeFifo := by
  intro C writeFifo
  refine ⟨rfl, rfl, rfl, rfl, ?_⟩
  rw [C.allDrain_iff]
  decide

end Controllers

end Stonne
