import Stonne.Lib.RangeSum
import Stonne.Lib.Table
import Stonne.Maeri.Vnat

/-!
# The reference implementations

`testbench.cpp` computes on the host what the accelerator is to compute: a matrix product
and a grouped convolution over channel-last arrays.  An array in memory is a function of
the address, with its former content as an argument.
-/

namespace Stonne

open Dataflow

/-- The cells of a table row by row, as two nested loops visit them. -/
def cells (rows cols : Nat) : List (Nat × Nat) :=
  List.range rows ×ˢ List.range cols

theorem mem_cells {rows cols : Nat} {cell : Nat × Nat} :
    cell ∈ cells rows cols ↔ cell.1 < rows ∧ cell.2 < cols := by
  rw [cells, List.mem_product, List.mem_range, List.mem_range]

/-- `cpu_gemm` -/
def cpuGemm (mkDenseMatrix knDenseMatrix output : Nat → Int) (M N K : Nat) : Nat → Int :=
  (cells M N).foldl (fun output cell => Function.update output (cell.1 * N + cell.2)
    ((List.range K).foldl (fun suma k =>
      suma + mkDenseMatrix (cell.1 * K + k) * knDenseMatrix (k * N + cell.2)) 0)) output

/-- A running sum. -/
theorem foldl_add_range (f : Nat → Int) (n : Nat) (a : Int) :
    (List.range n).foldl (fun sum k => sum + f k) a = a + ∑ k ∈ Finset.range n, f k := by
  induction n with
  | zero => simp
  | succ n ih =>
      rw [List.range_succ, List.foldl_append, ih, List.foldl_cons, List.foldl_nil,
        Finset.sum_range_succ, add_assoc]

/-- An entry of the product. -/
theorem cpuGemm_apply (mk kn output : Nat → Int) {M N : Nat} (K : Nat) {i j : Nat} (hi : i < M)
    (hj : j < N) :
    cpuGemm mk kn output M N K (i * N + j) =
      ∑ k ∈ Finset.range K, mk (i * K + k) * kn (k * N + j) := by
  apply foldl_update_of_exists (fun cell : Nat × Nat => cell.1 * N + cell.2)
  · exact ⟨(i, j), mem_cells.mpr ⟨hi, hj⟩, rfl⟩
  · rintro ⟨i', j'⟩ hCell hSame
    obtain ⟨rfl, rfl⟩ := radix_inj (mem_cells.mp hCell).2 hj hSame
    rw [foldl_add_range, zero_add]

theorem cpuGemm_of_ge (mk kn output : Nat → Int) {M N : Nat} (K : Nat) {a : Nat}
    (ha : M * N ≤ a) : cpuGemm mk kn output M N K a = output a := by
  apply foldl_update_of_forall_ne (fun cell : Nat × Nat => cell.1 * N + cell.2)
  intro cell hCell hSame
  have hLess := radix_lt (mem_cells.mp hCell).1 (mem_cells.mp hCell).2
  omega

/-- The loops of `sequential_layer` over the outputs. -/
def DNNLayer.outputs (layer : DNNLayer) : List Neuron :=
  (List.range layer.N).flatMap fun n =>
    (List.range layer.G).flatMap fun g =>
      (List.range layer.K).flatMap fun k =>
        (List.range layer.outX).flatMap fun ox =>
          (List.range layer.outY).map fun oy => ⟨n, g, k, ox, oy⟩

/-- Its loops over a window. -/
def DNNLayer.taps (layer : DNNLayer) : List Tap :=
  (List.range layer.C).flatMap fun c =>
    (List.range layer.R).flatMap fun r =>
      (List.range layer.S).map fun s => ⟨c, r, s⟩

/-- A product of `sequential_layer`. -/
def DNNLayer.product (layer : DNNLayer) (input filters : Nat → Int) (o : Neuron) (t : Tap) : Int :=
  input (layer.inputIndex o.n (o.x * layer.strides + t.r) (o.y * layer.strides + t.s) o.g t.c) *
    filters (layer.filterIndex o.g o.k t.r t.s t.c)

section

variable {layer : DNNLayer}

end

end Stonne
