import Mathlib.Data.List.ReduceOption
import Stonne.Maeri.Inputs
import Stonne.Maeri.Phases

/-!
# The reads of the memory

`SDMemory::cycle` reads a weight or an activation at an index made of the counters of its
loops and of the position in the tile.  Guards keep the filter, the channel and the position
in the window inside the layer.  Nothing keeps the group and the batch inside, nor the
windows of outputs that the layer does not have, so whether a read leaves the operand is a
matter of the last iteration.
-/

namespace Stonne

open Dataflow

namespace SDMemory

/-- The index of `filter_address` that a weight is read from, if it is read. -/
def weightRead (layer : DNNLayer) (tile : Tile) (cnt : Counters) (g k : Nat) (t : Tap) :
    Option Nat :=
  let indexG := cnt.currentG * tile.tG
  let indexK := cnt.currentK * tile.tK
  let indexC := cnt.currentC * tile.tC
  let indexR := cnt.currentR * tile.tR
  let indexS := cnt.currentS * tile.tS
  if indexR + t.r < layer.R ∧ indexS + t.s < layer.S ∧ indexC + t.c < layer.C ∧
      indexK + k < layer.K then
    some ((indexG + g) * layer.groupSize + (indexK + k) * layer.filterSize +
      (indexR + t.r) * layer.rowFilterSize + (indexS + t.s) * layer.C + (indexC + t.c))
  else none

/-- The index of `input_address` that an activation is read from. -/
def inputRead (layer : DNNLayer) (tile : Tile) (cnt : Counters) (x y n g c : Nat) : Option Nat :=
  let indexN := cnt.currentN * tile.tN
  let indexG := cnt.currentG * tile.tG
  let indexX := cnt.currentX * tile.tX
  let indexY := cnt.currentY * tile.tY
  let indexC := cnt.currentC * tile.tC
  let indexR := cnt.currentR * tile.tR
  let indexS := cnt.currentS * tile.tS
  if indexR + x < outputXInputs layer tile ∧ indexS + y < outputYInputs layer tile ∧
      indexC + c < layer.C then
    some ((indexN + n) * layer.inputSize +
      (indexX * layer.strides + x + indexR) * layer.Y * layer.C * layer.G +
      (indexY * layer.strides + y + indexS) * layer.C * layer.G + (indexG + g) * layer.C +
      (indexC + c))
  else none

/-- A package carries what is read there, or zero. -/
theorem weightData_eq_elim (layer : DNNLayer) (tile : Tile) (filterAddress : Nat → Int)
    (cnt : Counters) (g k : Nat) (t : Tap) :
    weightData layer tile filterAddress cnt g k t =
      (weightRead layer tile cnt g k t).elim 0 filterAddress := by
  simp only [weightData, weightRead]
  split
  · rfl
  · rfl

theorem inputData_eq_elim (layer : DNNLayer) (tile : Tile) (inputAddress : Nat → Int)
    (cnt : Counters) (x y n g c : Nat) :
    inputData layer tile inputAddress cnt x y n g c =
      (inputRead layer tile cnt x y n g c).elim 0 inputAddress := by
  simp only [inputData, inputRead]
  split
  · rfl
  · rfl

/-- The last offset below `limit` that `iter` tiles of `size` positions reach, when each goes
`more` positions on. -/
def lastOffset (limit iter size more : Nat) : Nat :=
  min (limit - 1) (iter * size - 1 + more)

/-- The last row that is read. -/
def lastRow (layer : DNNLayer) (tile : Tile) (it : Iterations) : Nat :=
  (it.iterX - 1) * tile.tX * layer.strides +
    lastOffset (outputXInputs layer tile) it.iterR tile.tR ((tile.tX - 1) * layer.strides)

/-- The last column that is read. -/
def lastColumn (layer : DNNLayer) (tile : Tile) (it : Iterations) : Nat :=
  (it.iterY - 1) * tile.tY * layer.strides +
    lastOffset (outputYInputs layer tile) it.iterS tile.tS ((tile.tY - 1) * layer.strides)

/-- The last index of `input_address`. -/
def lastInput (layer : DNNLayer) (tile : Tile) (it : Iterations) : Nat :=
  layer.inputIndex (it.iterN * tile.tN - 1) (lastRow layer tile it) (lastColumn layer tile it)
    (it.iterG * tile.tG - 1) (lastOffset layer.C it.iterC tile.tC 0)

/-- The tiles do not go over the groups of the layer, and the last activation is one of the
input. -/
structure ReadsFit (layer : DNNLayer) (tile : Tile) (it : Iterations) : Prop where
  weights : it.iterG * tile.tG ≤ layer.G
  inputs : lastInput layer tile it < layer.N * layer.X * layer.Y * layer.G * layer.C

end SDMemory

/-! ## Every iteration is reached -/

namespace Counters

end Counters

namespace DistributionLoop

variable {it : Iterations}

theorem run_append (gates : List Bool) (isOpen : Bool) :
    run it (gates ++ [isOpen]) = cycle it (run it gates) isOpen := by
  rw [run, List.foldl_append]
  rfl

end DistributionLoop

/-! ## The last reads -/

namespace SDMemory

section

variable {layer : DNNLayer} {tile : Tile} {cnt : Counters} {a : Nat}

end

section

variable {layer : DNNLayer} {tile : Tile} {it : Iterations} {msSize : Nat}

theorem inputIndex_lt {n x y g c : Nat} (hn : n < layer.N) (hx : x < layer.X) (hy : y < layer.Y)
    (hg : g < layer.G) (hc : c < layer.C) :
    layer.inputIndex n x y g c < layer.N * layer.X * layer.Y * layer.G * layer.C := by
  have hHorner : layer.inputIndex n x y g c =
      (((n * layer.X + x) * layer.Y + y) * layer.G + g) * layer.C + c := by
    rw [DNNLayer.inputIndex]
    ring
  rw [hHorner]
  exact radix_lt (radix_lt (radix_lt (radix_lt hn hx) hy) hg) hc

/-- The last position of the last window, when the tiles divide the outputs. -/
private theorem lastPosition_lt {size kernel strides iter tile positions more : Nat}
    (hTile : 0 < tile) (hStrides : 0 < strides) (hKernel : 0 < kernel) (hFits : kernel ≤ size)
    (hWhole : iter * tile = (size - kernel + strides) / strides) (hIter : 0 < iter) :
    (iter - 1) * tile * strides + lastOffset (tile + (kernel - 1)) positions more
      ((tile - 1) * strides) < size := by
  have hAll := radix_last hIter tile
  have hLast : ((iter - 1) * tile + (tile - 1)) * strides ≤ size - kernel := by
    have hOutputs := Nat.div_mul_le_self (size - kernel + strides) strides
    have hSplit : (iter - 1) * tile + (tile - 1) + 1 = iter * tile := by omega
    rw [← hWhole, ← hSplit, Nat.succ_mul] at hOutputs
    omega
  have hStep : tile - 1 ≤ (tile - 1) * strides := Nat.le_mul_of_pos_right _ hStrides
  rw [Nat.add_mul] at hLast
  rw [lastOffset]
  omega

/-- Tiles that divide the outputs of the layer stay inside, whatever they leave of its
windows. -/
theorem readsFit_of_divides (hLayer : layer.Positive) (hTile : tile.Accepted msSize)
    (hIt : it.Positive) (hX : layer.R ≤ layer.X) (hY : layer.S ≤ layer.Y)
    (hN : it.iterN * tile.tN = layer.N) (hG : it.iterG * tile.tG = layer.G)
    (hOutX : it.iterX * tile.tX = layer.outX) (hOutY : it.iterY * tile.tY = layer.outY) :
    ReadsFit layer tile it := by
  refine ⟨hG.le, inputIndex_lt ?_ ?_ ?_ ?_ ?_⟩
  · rw [hN]
    exact Nat.sub_one_lt hLayer.N.ne'
  · exact lastPosition_lt hTile.tX hLayer.strides hLayer.R hX hOutX hIt.iterX
  · exact lastPosition_lt hTile.tY hLayer.strides hLayer.S hY hOutY hIt.iterY
  · rw [hG]
    exact Nat.sub_one_lt hLayer.G.ne'
  · have := hLayer.C
    rw [lastOffset]
    omega

end

end SDMemory

end Stonne
