import Stonne.Linker.SparseGemm
import Stonne.Testbench

/-!
# The two lowerings of a grouped product

`simulateDenseGemmForward` takes the transposed operand, where a group is a slice of every
column, copies the slices to a scratch buffer and runs a fully connected layer.
`simulateSparseGemmForward` takes the operand row by row, where a group is a block of rows,
and compresses both operands.  Without pruning they write the same output.
-/

namespace Stonne

open Dataflow

/-- Encoding and decoding a matrix gives it back. -/
theorem decodeMatrix_encoded {gen : GenerationType} {rows cols i j : Nat}
    (hSize : 3 ≤ gen.vectorSize rows cols) (hi : i < gen.vectors rows cols)
    (hj : j < gen.vectorSize rows cols) (dense : Nat → Int) (heap : Nat → Nat) :
    let bitmap := generateBitMapFromDense gen rows cols dense heap
    let stream := generateMatrixSparseFromDense gen rows cols dense bitmap
    decodeMatrix gen rows cols bitmap (stream.getD · 0) (gen.index cols i j) =
      dense (gen.index cols i j) := by
  intro bitmap stream
  rw [decodeMatrix_index hi hj]
  exact (bitmapCodec_of_le hSize).decoded dense heap i hi j hj

/-- The run of a group on the operands that are encoded. -/
theorem encodedRun_fills {M K N : Nat} (hK : 3 ≤ K) (mkDense knDense : Nat → Int)
    (heap heap' : Nat → Nat) :
    let mkBitmap := generateBitMapFromDense .genByRows M K mkDense heap
    let knBitmap := generateBitMapFromDense .genByCols K N knDense heap'
    Fills (M * N) (fun a => ∑ k ∈ Finset.range K, mkDense (a / N * K + k) * knDense (k * N + a % N))
      (exactSparseRun N K M
        ((generateMatrixSparseFromDense .genByRows M K mkDense mkBitmap).getD · 0)
        ((generateMatrixSparseFromDense .genByCols K N knDense knBitmap).getD · 0)
        mkBitmap knBitmap) := by
  intro mkBitmap knBitmap
  refine (cpuGemm_fills _ _ M N K).congr fun a ha => ?_
  obtain ⟨i, hi, j, hj, rfl⟩ := exists_radix ha
  apply Finset.sum_congr rfl
  intro k hk
  have hk := Finset.mem_range.mp hk
  rw [radix_div hj, radix_mod hj]
  have hLeft := @decodeMatrix_encoded .genByRows M K i k hK hi hk mkDense heap
  have hRight := @decodeMatrix_encoded .genByCols K N j k hK hj hk knDense heap'
  simp only [GenerationType.index] at hLeft hRight
  rw [hLeft, hRight]

end Stonne
