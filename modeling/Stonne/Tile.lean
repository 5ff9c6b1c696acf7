import Mathlib.Tactic

/-!
# Tiles

A `Tile` fixes how many multipliers one virtual neuron takes and how many virtual
neurons are mapped at a time.  A `SparseVN` is one cluster of a sparse mapping.
-/

namespace Stonne

structure Tile where
  tR : Nat
  tS : Nat
  tC : Nat
  tK : Nat
  tG : Nat
  tN : Nat
  tX : Nat
  tY : Nat
  folding : Bool
  deriving DecidableEq, Repr

namespace Tile

/-- One multiplier more when the tile folds, to bring back the partial sum. -/
def vnSize (tile : Tile) : Nat :=
  tile.tR * tile.tS * tile.tC + if tile.folding then 1 else 0

def numVNs (tile : Tile) : Nat :=
  tile.tK * tile.tG * tile.tN * tile.tX * tile.tY

end Tile

structure SparseVN where
  size : Nat
  folding : Bool
  deriving DecidableEq, Repr

/-- One multiplier more when the cluster folds, to forward the partial sum. -/
def SparseVN.vnSize (vn : SparseVN) : Nat :=
  if vn.folding then vn.size + 1 else vn.size

end Stonne
