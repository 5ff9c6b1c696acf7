import Stonne.SparseDense.SparseDenseRun
import Stonne.Utility.Csr

/-!
# Sparse-dense matrix products

A run of the sparse-dense controller ends when all results come back at some time, and the output
memory then holds the products of the rows and the columns that the tiles reach.  Up to 2^24
columns these are all columns.  With the compressed rows of a dense matrix the output is its
product.
-/

namespace Stonne

open Dataflow

namespace SparseDenseMemory

/-- The output memory after a run. -/
def finalOutput (layer : SparseDenseMemory) (outputs : Nat → Int) (a : Nat) : Int :=
  if a < layer.M * layer.N ∧ a % layer.N < layer.iterN * layer.tN then
    layer.product (a / layer.N) (a % layer.N)
  else outputs a

section

variable {layer : SparseDenseMemory} {outputs : Nat → Int} {st : SparseDenseGemm}

/-- When all outputs are written, all neurons have returned all of theirs. -/
theorem Computes.written_eq {b : Nat} (h : layer.Computes outputs st)
    (hSent : layer.sent st.memory ≤ b) (hOutput : st.memory.currentOutput = b * layer.tN) :
    ∀ v < layer.tN, layer.written st.memory.toSparseDenseSDMemoryWriter v = b := by
  have hSum : ∑ v ∈ Finset.range layer.tN, layer.written st.memory.toSparseDenseSDMemoryWriter v =
      ∑ _v ∈ Finset.range layer.tN, b := by
    rw [← h.writes.output, hOutput, Finset.sum_const, Finset.card_range, smul_eq_mul, Nat.mul_comm]
  have hEach := (Finset.sum_eq_sum_iff_of_le fun v hv =>
    (h.writes.counts v (Finset.mem_range.mp hv)).trans hSent).mp hSum
  intro v hv
  exact hEach v (Finset.mem_range.mpr hv)

/-- The output of a controller that is done. -/
theorem Computes.finalOutput (hReady : layer.Ready) (h : layer.Computes outputs st)
    (hDone : st.memory.executionFinished = true) :
    st.memory.outputAddress = layer.finalOutput outputs := by
  have hCount : st.memory.currentOutput = layer.M * (layer.iterN * layer.tN) :=
    of_decide_eq_true (h.writes.finished ▸ hDone)
  rw [← Nat.mul_assoc] at hCount
  have hWritten := h.written_eq h.phase.sent_le hCount
  funext a
  rw [SparseDenseMemory.finalOutput]
  split
  · rename_i hInside
    obtain ⟨m, hm, n, hn, rfl⟩ := exists_radix hInside.1
    rw [radix_mod hn] at hInside ⊢
    have hQuotient : n / layer.tN < layer.iterN :=
      (Nat.div_lt_iff_lt_mul hReady.tN).mpr hInside.2
    rw [h.writes.stored m hm n hn hInside.2, hWritten _ (Nat.mod_lt n hReady.tN),
      if_pos (radix_lt hm hQuotient), radix_div hn]
  · rename_i hOutside
    apply h.writes.others
    rintro m hm n hn hInside rfl
    rw [radix_mod hn] at hOutside
    exact hOutside ⟨radix_lt hm hn, hInside⟩

/-- The results of every neuron come back at some time. -/
def Fair (arrivals : Nat → List Nat) (run : Nat → SparseDenseGemm) : Prop :=
  ∀ t v, (run t).results v ≠ [] → ∃ t' ≥ t, v ∈ arrivals t'

theorem computes_run (hReady : layer.Ready) (outputs : Nat → Int) (arrivals : Nat → List Nat)
    (t : Nat) : layer.Computes outputs (scheduled layer.cycle arrivals (start outputs) t) :=
  scheduled_invariant (computes_start hReady outputs)
    (fun _ arrivals h => (h.cycle hReady arrivals).computes) t

/-- A controller that waits for nothing is done. -/
theorem Computes.finished_of_idle (h : layer.Computes outputs st)
    (hState : st.memory.currentState = .waitingForNextStaIter ∨
      st.memory.currentState = .allDataSent)
    (hResults : ∀ v, st.results v = []) (hFifo : st.writeFifo = []) :
    st.memory.executionFinished = true := by
  have hWritten : ∀ v < layer.tN, layer.written st.memory.toSparseDenseSDMemoryWriter v =
      layer.sent st.memory := by
    intro v hv
    have hLength := congrArg List.length (h.writes.pending v hv)
    rw [pending, hFifo, hResults, List.length_map, List.length_range'] at hLength
    have hCount := h.writes.counts v hv
    simp only [List.filter_nil, List.map_nil, List.append_nil, List.length_nil] at hLength
    omega
  have hOutput : st.memory.currentOutput = layer.sent st.memory * layer.tN := by
    rw [h.writes.output, Finset.sum_congr rfl fun v hv => hWritten v (Finset.mem_range.mp hv),
      Finset.sum_const, Finset.card_range, smul_eq_mul, Nat.mul_comm]
  rw [sent] at hOutput
  cases h.phase with
  | configuring state => simp [state] at hState
  | distStaMatrix state => simp [state] at hState
  | distStrMatrix state => simp [state] at hState
  | waiting m state row last column output more =>
      rw [last, column, Nat.add_zero, Nat.mul_assoc] at hOutput
      omega
  | allDataSent state row column =>
      rw [row, column, Nat.add_zero, Nat.mul_assoc] at hOutput
      rw [h.writes.finished, decide_eq_true hOutput]

/-- When the results come back the controller is done at some time. -/
theorem exists_finished (hReady : layer.Ready) {arrivals : Nat → List Nat}
    (hFair : Fair arrivals (scheduled layer.cycle arrivals (start outputs))) :
    ∃ t, (scheduled layer.cycle arrivals (start outputs) t).memory.executionFinished = true := by
  apply @exists_of_descent _ _ layer.cycle arrivals _ layer.remaining fun st =>
    st.memory.executionFinished = true
  intro t hNotDone
  have hRun := computes_run hReady outputs arrivals
  by_cases hSome : ∃ v, (scheduled layer.cycle arrivals (start outputs) t).results v ≠ []
  · obtain ⟨v, hResults⟩ := hSome
    apply @exists_descent_of_fair _ _ layer.cycle arrivals _ layer.remaining
      (fun st => layer.Computes outputs st ∧ st.results v ≠ []) fun arrivals => v ∈ arrivals
    · rintro st arrivals ⟨hComputes, hResults⟩
      obtain ⟨hNext, hLess | ⟨hSame, -⟩⟩ := hComputes.cycle hReady arrivals
      · exact Or.inl hLess
      · rw [hSame]
        exact Or.inr ⟨⟨hComputes, hResults⟩, rfl⟩
    · rintro st arrivals ⟨hComputes, hResults⟩ hArrives
      obtain ⟨-, hLess | ⟨-, hNone, -⟩⟩ := hComputes.cycle hReady arrivals
      · exact hLess
      · exact absurd hNone (deliver_ne_nil hArrives hResults)
    · exact ⟨hRun t, hResults⟩
    · exact hFair t v hResults
  · push Not at hSome
    obtain ⟨-, hLess | ⟨-, hNone, hState⟩⟩ := (hRun t).cycle hReady (arrivals t)
    · exact ⟨t + 1, Nat.le_succ t, hLess⟩
    · rw [deliver_eq_of_nil hNone] at hNone
      exact absurd ((hRun t).finished_of_idle hState hSome hNone) hNotDone

/-- Up to 2^24 columns the tiles reach all of them. -/
theorem finalOutput_of_le (hReady : layer.Ready) (hN : layer.N ≤ 2 ^ 24) (outputs : Nat → Int)
    (a : Nat) : layer.finalOutput outputs a =
      if a < layer.M * layer.N then layer.product (a / layer.N) (a % layer.N) else outputs a := by
  have hAll : layer.N ≤ layer.iterN * layer.tN :=
    Binary32.le_ceilDiv_mul hReady.N hReady.tN hN
  have hColumn : a % layer.N < layer.iterN * layer.tN := (Nat.mod_lt a hReady.N).trans_le hAll
  rw [finalOutput]
  simp only [hColumn, and_true]

end

/-- The products of the entries of a vector. -/
theorem sum_entries (size : Nat) (vector f : Nat → Int) :
    ((entries size vector).map fun entry => entry.2 * f entry.1).sum =
      ∑ j ∈ Finset.range size, vector j * f j := by
  have hPositions : ((positions size vector).map fun j => vector j * f j).sum =
      ∑ j ∈ Finset.range size, vector j * f j := by
    induction size with
    | zero => rfl
    | succ size ih =>
        rw [Finset.sum_range_succ, ← ih, positions, List.range_succ, List.filter_append,
          List.map_append, List.sum_append]
        congr 1
        rcases eq_or_ne (vector size) 0 with hValue | hValue
        · simp [hValue]
        · simp [hValue]
  rw [entries]
  split
  · rename_i hNone
    rw [← hPositions, hNone]
    simp
  · rw [List.map_map, ← hPositions]
    rfl

/-- The compressed rows of a dense matrix as `runSparseDenseCommand` loads them. -/
def ofDense (numMs M N K tN tK : Nat) (mk kn : Nat → Int) : SparseDenseMemory where
  numMs := numMs
  M := M
  N := N
  tN := tN
  tK := tK
  mkAddress := ((generateMatrixSparseFromDenseNoBitmap .genByRows M K mk).getD · 0)
  mkColId := ((generateMinorIDFromDense .genByRows M K mk).1.getD · 0)
  mkRowPointer := ((generateMajorPointerFromDense .genByRows M K mk).getD · 0)
  knAddress := kn

/-- The tile fits the multipliers and the tree, and the sizes of a product fit 32 bits. -/
structure Fits (numMs M N K tN tK : Nat) : Prop where
  multipliers : tN * tK ≤ numMs
  places : 2 ≤ tK ∨ tN = 1
  rows : 0 < M
  columns : 0 < N
  columns_le : N ≤ 2 ^ 24
  neurons : 0 < tN
  size : 0 < tK
  fold : K + tK < 2 ^ 32
  stationary : M * K < 2 ^ 32
  streaming : K * N ≤ 2 ^ 32
  padded : M * (Binary32.ceilDiv N tN * tN) < 2 ^ 32

section

variable {numMs M N K tN tK : Nat} {mk kn : Nat → Int} {m : Nat}

theorem Fits.le_padded (h : Fits numMs M N K tN tK) : N ≤ Binary32.ceilDiv N tN * tN :=
  Binary32.le_ceilDiv_mul h.columns h.neurons h.columns_le

theorem Fits.rows_lt (h : Fits numMs M N K tN tK) : M < 2 ^ 32 :=
  (Nat.le_mul_of_pos_right _ (h.columns.trans_le h.le_padded)).trans_lt h.padded

theorem rowPointer_ofDense (hm : m ≤ M) : (ofDense numMs M N K tN tK mk kn).mkRowPointer m =
    offset (entriesOf .genByRows M K mk) m := by
  have hm : m < GenerationType.vectors .genByRows M K + 1 := Nat.lt_succ_of_le hm
  rw [ofDense]
  simp only [majorPointer_eq, getD_map_range hm]

theorem nnz_ofDense (hm : m < M) : (ofDense numMs M N K tN tK mk kn).nnz m =
    (entriesOf .genByRows M K mk m).length := by
  rw [nnz, rowPointer_ofDense hm, rowPointer_ofDense hm.le, offset_succ, Nat.add_sub_cancel_left]

/-- The value and the column that are stored for an entry of a row. -/
theorem entry_ofDense (hm : m < M) {p : Nat} (hp : p < (entriesOf .genByRows M K mk m).length) :
    (ofDense numMs M N K tN tK mk kn).mkAddress (offset (entriesOf .genByRows M K mk) m + p) =
        (entriesOf .genByRows M K mk m)[p].2 ∧
      (ofDense numMs M N K tN tK mk kn).mkColId (offset (entriesOf .genByRows M K mk) m + p) =
        (entriesOf .genByRows M K mk m)[p].1 := by
  have hHere : ((List.range (GenerationType.vectors .genByRows M K)).flatMap
      (entriesOf .genByRows M K mk))[offset (entriesOf .genByRows M K mk) m + p]? =
        (entriesOf .genByRows M K mk m)[p]? := getElem?_flatMap_range _ hm hp
  rw [List.getElem?_eq_getElem hp] at hHere
  rw [ofDense]
  simp only [sparseNoBitmap_eq, minorID_eq, List.getD_eq_getElem?_getD, List.getElem?_map, hHere,
    Option.map_some, Option.getD_some, and_self]

/-- The product of a compressed row is the product of the row. -/
theorem product_ofDense (hm : m < M) (n : Nat) :
    (ofDense numMs M N K tN tK mk kn).product m n =
      ∑ k ∈ Finset.range K, mk (m * K + k) * kn (k * N + n) := by
  have hList : (List.range (entriesOf .genByRows M K mk m).length).map (fun p =>
      (ofDense numMs M N K tN tK mk kn).mkAddress
          (offset (entriesOf .genByRows M K mk) m + p) *
        kn ((ofDense numMs M N K tN tK mk kn).mkColId
          (offset (entriesOf .genByRows M K mk) m + p) * N + n)) =
      (entriesOf .genByRows M K mk m).map fun entry => entry.2 * kn (entry.1 * N + n) := by
    refine List.ext_getElem (by simp) fun p hp hp' => ?_
    rw [List.length_map] at hp'
    rw [List.getElem_map, List.getElem_map, List.getElem_range, (entry_ofDense hm hp').1,
      (entry_ofDense hm hp').2]
  have hSum : (ofDense numMs M N K tN tK mk kn).product m n =
      ((entriesOf .genByRows M K mk m).map fun entry => entry.2 * kn (entry.1 * N + n)).sum := by
    rw [product, nnz_ofDense hm, rowPointer_ofDense hm.le, ← hList]
    rfl
  rw [hSum]
  exact sum_entries K (fun k => mk (m * K + k)) fun k => kn (k * N + n)

theorem ready_ofDense (h : Fits numMs M N K tN tK) (mk kn : Nat → Int) :
    (ofDense numMs M N K tN tK mk kn).Ready where
  numMs := h.multipliers
  places := h.places
  M := h.rows
  N := h.columns
  tN := h.neurons
  tK := h.size
  rows m hm := by
    have hm : m < M := hm
    rw [rowPointer_ofDense hm, rowPointer_ofDense hm.le, offset_succ]
    exact Nat.lt_add_of_pos_right (List.length_pos_of_ne_nil entries_ne_nil)
  pointers m hm := by
    have hm : m ≤ M := hm
    rw [rowPointer_ofDense hm]
    calc offset (entriesOf .genByRows M K mk) m ≤ m * max K 1 :=
          offset_le_mul _ (fun _ => entries_length_le) m
      _ ≤ M * max K 1 := Nat.mul_le_mul_right _ hm
      _ = max (M * K) (M * 1) := (Nat.mul_max_mul_left _ _ _).symm
      _ < 2 ^ 32 := max_lt h.stationary (by have hRows := h.rows_lt; omega)
  entries m hm := by
    have hm : m < M := hm
    have hLength : (entriesOf .genByRows M K mk m).length ≤ max K 1 := entries_length_le
    have hFits := h.fold
    rw [nnz_ofDense hm]
    change _ + tK ≤ _
    omega
  inputs m hm p hp := by
    have hm : m < M := hm
    rw [nnz_ofDense hm] at hp
    rw [rowPointer_ofDense hm.le, (entry_ofDense hm hp).2]
    calc ((entriesOf .genByRows M K mk m)[p].1 + 1) * N ≤ max K 1 * N :=
          Nat.mul_le_mul_right _ (entries_fst_lt (List.getElem_mem hp))
      _ = max (K * N) (1 * N) := (Nat.mul_max_mul_right _ _ _).symm
      _ ≤ 2 ^ 32 := max_le h.streaming (by have hColumns := h.columns_le; omega)
  outputs := (Nat.mul_le_mul_left M h.le_padded).trans h.padded.le
  padded := h.padded

end

/-- `runSparseDenseCommand` compares the output with `cpu_gemm`.  With networks that add up the
waves of every neuron the controller leaves the same, for every tile and product that fit and
whenever the results come back. -/
theorem sparseDense_gemm {numMs M N K tN tK : Nat} (hFits : Fits numMs M N K tN tK)
    (mk kn outputs : Nat → Int) (arrivals : Nat → List Nat) :
    let run := scheduled (ofDense numMs M N K tN tK mk kn).cycle arrivals (start outputs)
    (∀ t, (run t).memory.executionFinished = true →
        (run t).memory.outputAddress = cpuGemm mk kn outputs M N K) ∧
      (Fair arrivals run → ∃ t, (run t).memory.executionFinished = true) := by
  intro run
  have hReady := ready_ofDense hFits mk kn
  refine ⟨fun t hDone => ?_, exists_finished hReady⟩
  rw [(computes_run hReady outputs arrivals t).finalOutput hReady hDone]
  funext a
  rw [finalOutput_of_le hReady hFits.columns_le]
  change (if a < M * N then (ofDense numMs M N K tN tK mk kn).product (a / N) (a % N)
    else outputs a) = _
  split
  · rename_i hInside
    obtain ⟨m, hm, n, hn, rfl⟩ := exists_radix hInside
    rw [cpuGemm_apply _ _ _ _ hm hn, radix_div hn, radix_mod hn]
    exact product_ofDense hm n
  · rename_i hOutside
    exact (cpuGemm_of_ge _ _ _ _ (Nat.le_of_not_lt hOutside)).symm

/-- A matrix with an empty row. -/
theorem sparseDense_gemm_empty_row :
    let mk := fun a : Nat => if a < 3 then (a : Int) + 1 else 0
    (scheduled (ofDense 4 2 3 3 2 2 mk fun a => a).cycle (fun _ => [0, 1])
      (start fun _ => -1) 15).memory.outputAddress =
        cpuGemm mk (fun a => a) (fun _ => -1) 2 3 3 := by
  have hFits : Fits 4 2 3 3 2 2 :=
    ⟨by decide, by decide, by decide, by decide, by decide, by decide, by decide, by decide,
      by decide, by decide, by decide +kernel⟩
  apply (sparseDense_gemm hFits _ _ _ _).1 15
  decide +kernel

end SparseDenseMemory

end Stonne
