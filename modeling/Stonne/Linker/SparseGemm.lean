import Stonne.Linker.Pruning
import Stonne.Utility.Bitmap

/-!
# Sparse matrix products of the linker

The linker computes a grouped product with one run of the accelerator for each group.  It
hands over pointers into the arrays of all groups: for dense operands a group begins after
the elements of the groups before it.  The entry point for given bitmaps uses the same
offsets for streams of compressed values, where a group begins after the marked elements of
the groups before it.
-/

namespace Stonne

open Dataflow

/-- The matrix that a bitmap and the stream at `address` describe. -/
def decodeMatrix (gen : GenerationType) (rows cols : Nat) (bitmap : Nat → Nat)
    (address : Nat → Int) (a : Nat) : Int :=
  match gen with
  | .genByRows => decodeElement gen rows cols bitmap address (a / cols) (a % cols)
  | .genByCols => decodeElement gen rows cols bitmap address (a % cols) (a / cols)

/-- An exact run after `Stonne::loadGEMM`: the product of the matrices that are described. -/
def exactSparseRun (N K M : Nat) (mkMatrix knMatrix : Nat → Int) (mkMetadata knMetadata : Nat → Nat)
    (output : Nat → Int) : Nat → Int :=
  cpuGemm (decodeMatrix .genByRows M K mkMetadata mkMatrix)
    (decodeMatrix .genByCols K N knMetadata knMatrix) output M N K

section

variable {size : Nat}

/-- A run that fills the first `size` words. -/
def Fills (size : Nat) (value : Nat → Int) (run : (Nat → Int) → Nat → Int) : Prop :=
  ∀ memory a, run memory a = if a < size then value a else memory a

/-- What a run leaves does not depend on how it gets there. -/
theorem Fills.unique {value : Nat → Int} {run run' : (Nat → Int) → Nat → Int}
    (h : Fills size value run) (h' : Fills size value run') : run = run' := by
  funext memory a
  rw [h, h']

theorem Fills.congr {value value' : Nat → Int} {run : (Nat → Int) → Nat → Int}
    (h : Fills size value run) (hValue : ∀ a < size, value a = value' a) :
    Fills size value' run := by
  intro memory a
  rw [h]
  split
  · rename_i hLess
    exact hValue a hLess
  · rfl

end

/-- A product fills the array of its entries. -/
theorem cpuGemm_fills (mk kn : Nat → Int) (M N K : Nat) :
    Fills (M * N) (fun a => ∑ k ∈ Finset.range K, mk (a / N * K + k) * kn (k * N + a % N))
      fun output => cpuGemm mk kn output M N K := by
  intro output a
  split
  · rename_i hLess
    obtain ⟨i, hi, j, hj, rfl⟩ := exists_radix hLess
    simp only
    rw [cpuGemm_apply _ _ _ _ hi hj, radix_div hj, radix_mod hj]
  · rename_i hMore
    exact cpuGemm_of_ge _ _ _ _ (Nat.le_of_not_lt hMore)

/-- An element of a decoded matrix. -/
theorem decodeMatrix_index {gen : GenerationType} {rows cols i j : Nat}
    (hi : i < gen.vectors rows cols) (hj : j < gen.vectorSize rows cols) (bitmap : Nat → Nat)
    (address : Nat → Int) :
    decodeMatrix gen rows cols bitmap address (gen.index cols i j) =
      decodeElement gen rows cols bitmap address i j := by
  cases gen with
  | genByRows =>
      have hj : j < cols := hj
      simp only [decodeMatrix, GenerationType.index, radix_div hj, radix_mod hj]
  | genByCols =>
      have hi : i < cols := hi
      simp only [decodeMatrix, GenerationType.index, radix_div hi, radix_mod hi]

end Stonne
