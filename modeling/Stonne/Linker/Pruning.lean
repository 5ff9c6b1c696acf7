import Stonne.Lib.Binary32
import Stonne.Lib.Buffer
import Stonne.Lib.Streams

/-!
# Pruning by magnitude

`generatePrunnedMatrix` copies the magnitudes into the output, lets `std::nth_element` put the
`n`-th smallest of them at position `n`, and writes zero over every element that is smaller.
The two arrays are buffers with bounds, and `nthElement` is any function that permutes its range
as the standard asks.  The linker works on pointers, so its function goes on with what the memory
holds behind an array.
-/

namespace Stonne

open Dataflow

/-- What the standard says of `std::nth_element`, as far as the source relies on it. -/
structure NthElement (nthElement : List Int → Nat → List Int) : Prop where
  perm : ∀ range n, (nthElement range n).Perm range
  nth : ∀ range n, (nthElement range n)[n]? = range.mergeSort[n]?

/-- A sorted range is one of the results. -/
theorem nthElement_mergeSort : NthElement fun range _ => range.mergeSort where
  perm range _ := List.mergeSort_perm range _
  nth _ _ := rfl

/-- The matrix, with the positions that were overwritten by zero. -/
structure PrunedMatrix where
  dstMatrix : List Int
  zeroed : List Nat := []
  deriving DecidableEq, Repr

/-- A round of the loop that takes the magnitudes. -/
def copyMagnitude (srcMatrix dstMatrix : List Int) (i : Nat) : Option (List Int) := do
  let value ← srcMatrix[i]?
  writeCell dstMatrix i |value|

/-- A round of the loop that copies and prunes. -/
def copyOrPrune (srcMatrix : List Int) (pivot : Int) (st : PrunedMatrix) (i : Nat) :
    Option PrunedMatrix := do
  let value ← srcMatrix[i]?
  if |value| < pivot then
    let dstMatrix ← writeCell st.dstMatrix i 0
    return { dstMatrix := dstMatrix, zeroed := st.zeroed ++ [i] }
  else
    let dstMatrix ← writeCell st.dstMatrix i value
    return { st with dstMatrix := dstMatrix }

/-- `generatePrunnedMatrix` behind the computation of `n`, in memory that held `heap`.  No
result means an access outside of the arrays. -/
def pruneBelowNth (nthElement : List Int → Nat → List Int) (srcMatrix : List Int) (n : Nat)
    (heap : List Int) : Option PrunedMatrix := do
  let magnitudes ← rangeLoop (copyMagnitude srcMatrix) srcMatrix.length heap
  let dstMatrix := nthElement magnitudes n
  let pivot ← dstMatrix[n]?
  rangeLoop (copyOrPrune srcMatrix pivot) srcMatrix.length { dstMatrix := dstMatrix }

/-- Only the smallest magnitudes are pruned, at most `n` of them, and the other elements are
those of the source. -/
structure PrunesSmallest (srcMatrix : List Int) (n : Nat) (result : PrunedMatrix) : Prop where
  length : result.dstMatrix.length = srcMatrix.length
  nodup : result.zeroed.Nodup
  few : result.zeroed.length ≤ n
  zero : ∀ i ∈ result.zeroed, result.dstMatrix[i]? = some 0
  kept : ∀ i ∉ result.zeroed, result.dstMatrix[i]? = srcMatrix[i]?
  smallest : ∀ i ∈ result.zeroed, ∀ j ∉ result.zeroed, ∀ x y,
    srcMatrix[i]? = some x → srcMatrix[j]? = some y → |x| ≤ |y|

/-! ## The magnitudes and the pivot -/

/-- The magnitude at a position of the source. -/
def magnitudeAt (srcMatrix : List Int) (i : Nat) : Int :=
  |srcMatrix.getD i 0|

private theorem getElem?_src {srcMatrix : List Int} {i : Nat} (hi : i < srcMatrix.length) :
    srcMatrix[i]? = some (srcMatrix.getD i 0) := by
  simp [List.getD_eq_getElem?_getD, hi]

theorem copyMagnitudes_eq {srcMatrix heap : List Int} (hHeap : heap.length = srcMatrix.length) :
    rangeLoop (copyMagnitude srcMatrix) srcMatrix.length heap =
      some ((List.range srcMatrix.length).map (magnitudeAt srcMatrix)) := by
  have hRound : ∀ i < srcMatrix.length, ∀ dst,
      FilledTo srcMatrix.length (magnitudeAt srcMatrix) i dst →
        ∃ dst', copyMagnitude srcMatrix dst i = some dst' ∧
          FilledTo srcMatrix.length (magnitudeAt srcMatrix) (i + 1) dst' := by
    intro i hi dst hFilled
    obtain ⟨hWrite, hNext⟩ := hFilled.write hi
    refine ⟨_, ?_, hNext⟩
    rw [copyMagnitude, getElem?_src hi]
    exact hWrite
  obtain ⟨dst, hRun, hFilled⟩ := rangeLoop_invariant _ (FilledTo.zero hHeap) hRound
  rw [hRun, hFilled.eq_map]

/-- At most `n` elements are smaller than the one at position `n` of the sorted range. -/
theorem countP_lt_nth_le {range : List Int} {n : Nat} {pivot : Int}
    (hPivot : range.mergeSort[n]? = some pivot) :
    range.countP (fun x => decide (x < pivot)) ≤ n := by
  have hSorted : range.mergeSort.Pairwise (· ≤ ·) := List.pairwise_mergeSort' (· ≤ ·) range
  obtain ⟨hn, hAt⟩ := List.getElem?_eq_some_iff.mp hPivot
  have hDrop : range.mergeSort.drop n = pivot :: range.mergeSort.drop (n + 1) := by
    rw [List.drop_eq_getElem_cons hn, hAt]
  have hLater : (range.mergeSort.drop n).countP (fun x => decide (x < pivot)) = 0 := by
    rw [List.countP_eq_zero]
    intro x hx
    have hTail := hSorted.sublist (List.drop_sublist n range.mergeSort)
    rw [hDrop] at hx hTail
    rcases List.mem_cons.mp hx with rfl | hRest
    · simp
    · simpa using List.rel_of_pairwise_cons hTail hRest
  have hSplit : range.mergeSort.countP (fun x => decide (x < pivot)) =
      (range.mergeSort.take n).countP (fun x => decide (x < pivot)) + 0 := by
    rw [← hLater, ← List.countP_append, List.take_append_drop]
  calc range.countP (fun x => decide (x < pivot)) =
        range.mergeSort.countP (fun x => decide (x < pivot)) :=
          ((List.mergeSort_perm range _).countP_eq _).symm
    _ = (range.mergeSort.take n).countP (fun x => decide (x < pivot)) := hSplit
    _ ≤ (range.mergeSort.take n).length := List.countP_le_length
    _ ≤ n := List.length_take_le n _

/-! ## The pruned matrix -/

/-- What the second loop writes at a position. -/
def prunedAt (srcMatrix : List Int) (pivot : Int) (i : Nat) : Int :=
  if magnitudeAt srcMatrix i < pivot then 0 else srcMatrix.getD i 0

/-- The positions that are pruned. -/
def zeroedBelow (srcMatrix : List Int) (pivot : Int) (i : Nat) : List Nat :=
  (List.range i).filter fun j => decide (magnitudeAt srcMatrix j < pivot)

/-- The state of the second loop in front of round `i`. -/
structure PrunedTo (srcMatrix : List Int) (pivot : Int) (i : Nat) (st : PrunedMatrix) : Prop where
  filled : FilledTo srcMatrix.length (prunedAt srcMatrix pivot) i st.dstMatrix
  zeroed : st.zeroed = zeroedBelow srcMatrix pivot i

theorem PrunedTo.copyOrPrune {srcMatrix : List Int} {pivot : Int} {i : Nat} {st : PrunedMatrix}
    (h : PrunedTo srcMatrix pivot i st) (hi : i < srcMatrix.length) :
    ∃ st', Stonne.copyOrPrune srcMatrix pivot st i = some st' ∧
      PrunedTo srcMatrix pivot (i + 1) st' := by
  obtain ⟨hWrite, hNext⟩ := h.filled.write hi
  have hMagnitude : |srcMatrix.getD i 0| = magnitudeAt srcMatrix i := rfl
  have hStep : zeroedBelow srcMatrix pivot (i + 1) = zeroedBelow srcMatrix pivot i ++
      [i].filter fun j => decide (magnitudeAt srcMatrix j < pivot) := by
    rw [zeroedBelow, List.range_succ, List.filter_append, zeroedBelow]
  rcases lt_or_ge (magnitudeAt srcMatrix i) pivot with hSmall | hLarge
  · have hValue : prunedAt srcMatrix pivot i = 0 := if_pos hSmall
    rw [hValue] at hWrite hNext
    refine ⟨{ dstMatrix := st.dstMatrix.set i 0, zeroed := st.zeroed ++ [i] }, ?_, hNext, ?_⟩
    · simp only [Stonne.copyOrPrune, getElem?_src hi, Option.bind_eq_bind, Option.bind_some,
        hMagnitude, if_pos hSmall, hWrite, pure]
    · simp [hStep, h.zeroed, hSmall]
  · have hValue : prunedAt srcMatrix pivot i = srcMatrix.getD i 0 := if_neg hLarge.not_gt
    rw [hValue] at hWrite hNext
    refine ⟨{ st with dstMatrix := st.dstMatrix.set i (srcMatrix.getD i 0) }, ?_, hNext, ?_⟩
    · simp only [Stonne.copyOrPrune, getElem?_src hi, Option.bind_eq_bind, Option.bind_some,
        hMagnitude, if_neg hLarge.not_gt, hWrite, pure]
    · simp [hStep, h.zeroed, hLarge]

theorem copyOrPrune_loop {srcMatrix dstMatrix : List Int}
    (hLength : dstMatrix.length = srcMatrix.length) (pivot : Int) :
    rangeLoop (copyOrPrune srcMatrix pivot) srcMatrix.length { dstMatrix := dstMatrix } =
      some {
        dstMatrix := (List.range srcMatrix.length).map (prunedAt srcMatrix pivot)
        zeroed := zeroedBelow srcMatrix pivot srcMatrix.length } := by
  have hInit : PrunedTo srcMatrix pivot 0 { dstMatrix := dstMatrix } :=
    ⟨FilledTo.zero hLength, rfl⟩
  obtain ⟨st, hRun, hEnd⟩ := rangeLoop_invariant _ hInit fun i hi st h => h.copyOrPrune hi
  rw [hRun, ← hEnd.filled.eq_map, ← hEnd.zeroed]

theorem mem_zeroedBelow {srcMatrix : List Int} {pivot : Int} {n i : Nat} :
    i ∈ zeroedBelow srcMatrix pivot n ↔ i < n ∧ magnitudeAt srcMatrix i < pivot := by
  rw [zeroedBelow, List.mem_filter, List.mem_range, decide_eq_true_iff]

section

variable {nthElement : List Int → Nat → List Int}

/-- With a pivot inside of the array the loops stay inside as well. -/
theorem pruneBelowNth_eq (hNth : NthElement nthElement) {srcMatrix heap : List Int}
    (hHeap : heap.length = srcMatrix.length) {n : Nat} (hn : n < srcMatrix.length) :
    ∃ pivot,
      ((List.range srcMatrix.length).map (magnitudeAt srcMatrix)).mergeSort[n]? = some pivot ∧
      pruneBelowNth nthElement srcMatrix n heap =
        some {
          dstMatrix := (List.range srcMatrix.length).map (prunedAt srcMatrix pivot)
          zeroed := zeroedBelow srcMatrix pivot srcMatrix.length } := by
  generalize hMagnitudes : (List.range srcMatrix.length).map (magnitudeAt srcMatrix) = magnitudes
  have hCount : magnitudes.length = srcMatrix.length := by
    rw [← hMagnitudes, List.length_map, List.length_range]
  have hInside : n < magnitudes.mergeSort.length := by
    rwa [List.length_mergeSort, hCount]
  refine ⟨magnitudes.mergeSort[n], List.getElem?_eq_getElem hInside, ?_⟩
  have hPivot := (hNth.nth magnitudes n).trans (List.getElem?_eq_getElem hInside)
  have hLength : (nthElement magnitudes n).length = srcMatrix.length :=
    (hNth.perm magnitudes n).length_eq.trans hCount
  rw [pruneBelowNth, copyMagnitudes_eq hHeap, hMagnitudes, ← copyOrPrune_loop hLength]
  simp only [Option.bind_eq_bind, Option.bind_some, hPivot]

theorem prunesSmallest_of_pivot {srcMatrix : List Int} {n : Nat} {pivot : Int}
    (hPivot : ((List.range srcMatrix.length).map (magnitudeAt srcMatrix)).mergeSort[n]? =
      some pivot) :
    PrunesSmallest srcMatrix n {
      dstMatrix := (List.range srcMatrix.length).map (prunedAt srcMatrix pivot)
      zeroed := zeroedBelow srcMatrix pivot srcMatrix.length } := by
  have hMagnitude : ∀ {i x}, srcMatrix[i]? = some x → magnitudeAt srcMatrix i = |x| := by
    intro i x hx
    rw [magnitudeAt, List.getD_eq_getElem?_getD, hx, Option.getD_some]
  refine ⟨by simp, List.nodup_range.filter _, ?_, ?_, ?_, ?_⟩
  · have hFew := countP_lt_nth_le hPivot
    rw [List.countP_map, List.countP_eq_length_filter] at hFew
    exact hFew
  · intro i hi
    obtain ⟨hInside, hSmall⟩ := mem_zeroedBelow.mp hi
    rw [List.getElem?_map, List.getElem?_range hInside, Option.map_some, prunedAt, if_pos hSmall]
  · intro i hi
    rcases Nat.lt_or_ge i srcMatrix.length with hInside | hOutside
    · have hLarge : ¬magnitudeAt srcMatrix i < pivot := fun hSmall =>
        hi (mem_zeroedBelow.mpr ⟨hInside, hSmall⟩)
      rw [List.getElem?_map, List.getElem?_range hInside, Option.map_some, prunedAt,
        if_neg hLarge, getElem?_src hInside]
    · rw [List.getElem?_eq_none (by simpa), List.getElem?_eq_none hOutside]
  · intro i hi j hj x y hx hy
    obtain ⟨-, hSmall⟩ := mem_zeroedBelow.mp hi
    have hInside := (List.getElem?_eq_some_iff.mp hy).1
    have hLarge : ¬magnitudeAt srcMatrix j < pivot := fun hLess =>
      hj (mem_zeroedBelow.mpr ⟨hInside, hLess⟩)
    rw [hMagnitude hx] at hSmall
    rw [hMagnitude hy] at hLarge
    exact hSmall.le.trans (not_lt.mp hLarge)

/-- A pivot behind the array is read outside of it. -/
theorem pruneBelowNth_of_le (hNth : NthElement nthElement) {srcMatrix heap : List Int}
    (hHeap : heap.length = srcMatrix.length) {n : Nat} (hn : srcMatrix.length ≤ n) :
    pruneBelowNth nthElement srcMatrix n heap = none := by
  rw [pruneBelowNth, copyMagnitudes_eq hHeap]
  simp only [Option.bind_eq_bind, Option.bind_some]
  rw [hNth.nth, List.getElem?_eq_none (by simpa)]
  rfl

/-- The pruning stays inside of its arrays and zeroes at most `n` of the smallest magnitudes
exactly when `n` is less than the size. -/
theorem prunesSmallest_iff (hNth : NthElement nthElement) {srcMatrix heap : List Int}
    (hHeap : heap.length = srcMatrix.length) {n : Nat} (hn : n ≤ srcMatrix.length) :
    (∃ result, pruneBelowNth nthElement srcMatrix n heap = some result ∧
        PrunesSmallest srcMatrix n result) ↔ n < srcMatrix.length := by
  constructor
  · rintro ⟨result, hResult, -⟩
    apply lt_of_le_of_ne hn
    rintro rfl
    rw [pruneBelowNth_of_le hNth hHeap le_rfl] at hResult
    cases hResult
  · intro hLess
    obtain ⟨pivot, hPivot, hResult⟩ := pruneBelowNth_eq hNth hHeap hLess
    exact ⟨_, hResult, prunesSmallest_of_pivot hPivot⟩

end

/-- The smaller magnitude of two is pruned. -/
theorem prunesSmallest_two :
    ∃ result, pruneBelowNth (fun range _ => range.mergeSort) [3, -1] 1 [0, 0] = some result ∧
      PrunesSmallest [3, -1] 1 result :=
  (prunesSmallest_iff nthElement_mergeSort (by decide) (by decide)).mpr (by decide)

/-- The ratio 1 on a single element: the pivot is behind the array. -/
theorem pivot_behind_array :
    ¬∀ (nthElement : List Int → Nat → List Int) (srcMatrix heap : List Int) (n : Nat),
      NthElement nthElement → 1 ≤ srcMatrix.length → heap.length = srcMatrix.length →
        n ≤ srcMatrix.length →
          ∃ result, pruneBelowNth nthElement srcMatrix n heap = some result ∧
            PrunesSmallest srcMatrix n result := by
  intro h
  obtain ⟨result, hResult, -⟩ := h _ [5] [0] 1 nthElement_mergeSort (by decide) rfl (by decide)
  have hNone : pruneBelowNth (fun range _ => range.mergeSort) [5] 1 [0] = none :=
    @pruneBelowNth_of_le _ nthElement_mergeSort [5] [0] rfl 1 le_rfl
  rw [hNone] at hResult
  cases hResult

/-! ## The function of the linker -/

end Stonne
