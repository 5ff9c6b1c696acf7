import Stonne.Lib.Streams
import Stonne.Utility.Matrix

/-!
# Bitmaps of sparse matrices

`generateBitMapFromDense` marks the nonzero elements of every vector and then sets bits at
the first three positions until the vector has three.  The second loop does not look at the
length of the vector: with three elements or more it stays inside, and then the bitmap and
the stream of the marked elements describe the matrix.
-/

namespace Stonne

open Dataflow

section

variable (gen : GenerationType) (rows cols : Nat)

/-- The loop of `generateBitMapFromDense` over the elements of a vector, and `non_zeros`. -/
def scanVector (denseMatrix : Nat → Int) (bitMap : Nat → Nat) (i n : Nat) : (Nat → Nat) × Nat :=
  (List.range n).foldl (fun st j =>
    if denseMatrix (gen.index cols i j) ≠ 0 then
      (Function.update st.1 (gen.index cols i j) 1, st.2 + 1)
    else (Function.update st.1 (gen.index cols i j) 0, st.2)) (bitMap, 0)

/-- A round of the loop that makes sure of three bits. -/
def padElement (i : Nat) (st : (Nat → Nat) × Nat) (j : Nat) : (Nat → Nat) × Nat :=
  if st.2 < 3 then
    if st.1 (gen.index cols i j) = 0 then
      (Function.update st.1 (gen.index cols i j) 1, st.2 + 1)
    else st
  else st

def bitMapVector (denseMatrix : Nat → Int) (bitMap : Nat → Nat) (i : Nat) : Nat → Nat :=
  let scanned := scanVector gen cols denseMatrix bitMap i (gen.vectorSize rows cols)
  if scanned.2 < 3 then ((List.range 3).foldl (padElement gen cols i) scanned).1
  else scanned.1

/-- `generateBitMapFromDense`, in memory that held `heap`. -/
def generateBitMapFromDense (denseMatrix : Nat → Int) (heap : Nat → Nat) : Nat → Nat :=
  (List.range (gen.vectors rows cols)).foldl (bitMapVector gen rows cols denseMatrix) heap

/-- `generateMatrixSparseFromDense` -/
def generateMatrixSparseFromDense (denseMatrix : Nat → Int) (bitmap : Nat → Nat) : List Int :=
  ((gen.elements rows cols).filter fun element =>
    bitmap (gen.index cols element.1 element.2) ≠ 0).map fun element =>
      denseMatrix (gen.index cols element.1 element.2)

/-- `source_id` of `SparseSDMemory::cycle`: how many bits are set before an element. -/
def sourceId (bitmap : Nat → Nat) (i j : Nat) : Nat :=
  (((gen.elements rows cols).take (i * gen.vectorSize rows cols + j)).filter fun element =>
    bitmap (gen.index cols element.1 element.2) ≠ 0).length

/-- The element that the bitmap and the stream at `address` describe. -/
def decodeElement (bitmap : Nat → Nat) (address : Nat → Int) (i j : Nat) : Int :=
  if bitmap (gen.index cols i j) ≠ 0 then address (sourceId gen rows cols bitmap i j) else 0

/-- The nonzero elements among the first `n` of a vector. -/
def nonZeros (vector : Nat → Int) (n : Nat) : Nat :=
  (List.range n).countP fun j => vector j ≠ 0

/-- The codec of the bitmaps, for every matrix and whatever was in memory before. -/
structure BitmapCodec : Prop where
  inside : ∀ (dense : Nat → Int) (heap : Nat → Nat) (a : Nat), rows * cols ≤ a →
    generateBitMapFromDense gen rows cols dense heap a = heap a
  nonZero : ∀ (dense : Nat → Int) (heap : Nat → Nat), ∀ i < gen.vectors rows cols,
    ∀ j < gen.vectorSize rows cols, dense (gen.index cols i j) ≠ 0 →
      generateBitMapFromDense gen rows cols dense heap (gen.index cols i j) = 1
  /-- A vector with three nonzero elements has their bits... -/
  exactBits : ∀ (dense : Nat → Int) (heap : Nat → Nat), ∀ i < gen.vectors rows cols,
    3 ≤ nonZeros (fun j => dense (gen.index cols i j)) (gen.vectorSize rows cols) →
      ∀ j < gen.vectorSize rows cols,
        generateBitMapFromDense gen rows cols dense heap (gen.index cols i j) =
          if dense (gen.index cols i j) ≠ 0 then 1 else 0
  /-- ...and every other one has three bits, or as many as it has elements. -/
  paddedBits : ∀ (dense : Nat → Int) (heap : Nat → Nat), ∀ i < gen.vectors rows cols,
    nonZeros (fun j => dense (gen.index cols i j)) (gen.vectorSize rows cols) < 3 →
      ((List.range (gen.vectorSize rows cols)).countP fun j =>
        generateBitMapFromDense gen rows cols dense heap (gen.index cols i j) ≠ 0) =
          min 3 (gen.vectorSize rows cols)
  /-- Equal vectors have equal bits, whatever the others are. -/
  onlyVector : ∀ (dense dense' : Nat → Int) (heap heap' : Nat → Nat),
    ∀ i < gen.vectors rows cols, ∀ i' < gen.vectors rows cols,
      (∀ j < gen.vectorSize rows cols,
        dense (gen.index cols i j) = dense' (gen.index cols i' j)) →
      ∀ j < gen.vectorSize rows cols,
        generateBitMapFromDense gen rows cols dense heap (gen.index cols i j) =
          generateBitMapFromDense gen rows cols dense' heap' (gen.index cols i' j)
  /-- Expanding the stream gives back the matrix. -/
  decoded : ∀ (dense : Nat → Int) (heap : Nat → Nat), ∀ i < gen.vectors rows cols,
    ∀ j < gen.vectorSize rows cols,
      let bitmap := generateBitMapFromDense gen rows cols dense heap
      let stream := generateMatrixSparseFromDense gen rows cols dense bitmap
      decodeElement gen rows cols bitmap (stream.getD · 0) i j = dense (gen.index cols i j)

end

/-! ## The stream of the marked elements -/

/-- The cells in the order of their numbers. -/
theorem cells_eq_map (a b : Nat) :
    cells a b = (List.range (a * b)).map fun q => (q / b, q % b) := by
  induction a with
  | zero => simp [cells]
  | succ a ih =>
      have hRow : cells (a + 1) b = cells a b ++ (List.range b).map fun j => (a, j) := by
        simp only [cells, SProd.sprod, List.product, List.range_succ, List.flatMap_append,
          List.flatMap_singleton]
      rw [hRow, ih, Nat.succ_mul, List.range_add, List.map_append, List.map_map]
      congr 1
      apply List.map_congr_left
      intro j hj
      have hj := List.mem_range.mp hj
      simp only [Function.comp_apply, radix_div hj, radix_mod hj]

theorem getElem?_cells {a b i j : Nat} (hi : i < a) (hj : j < b) :
    (cells a b)[i * b + j]? = some (i, j) := by
  rw [cells_eq_map, List.getElem?_map, List.getElem?_range (radix_lt hi hj), Option.map_some,
    radix_div hj, radix_mod hj]

section

variable {gen : GenerationType} {rows cols : Nat} {i j : Nat}

/-- A marked element is where the memory looks for it. -/
theorem getElem?_sparseFromDense (dense : Nat → Int) (bitmap : Nat → Nat)
    (hi : i < gen.vectors rows cols) (hj : j < gen.vectorSize rows cols)
    (hBit : bitmap (gen.index cols i j) ≠ 0) :
    (generateMatrixSparseFromDense gen rows cols dense bitmap)[sourceId gen rows cols bitmap i j]? =
      some (dense (gen.index cols i j)) := by
  have hPlace : (gen.elements rows cols)[i * gen.vectorSize rows cols + j]? = some (i, j) :=
    getElem?_cells hi hj
  rw [generateMatrixSparseFromDense, sourceId, List.getElem?_map,
    getElem?_filter_take hPlace (by simpa using hBit)]
  rfl

/-- The stream gives back the elements that the bitmap marks. -/
theorem decodeElement_sparseFromDense (dense : Nat → Int) (bitmap : Nat → Nat)
    (hi : i < gen.vectors rows cols) (hj : j < gen.vectorSize rows cols) :
    decodeElement gen rows cols bitmap
        ((generateMatrixSparseFromDense gen rows cols dense bitmap).getD · 0) i j =
      if bitmap (gen.index cols i j) ≠ 0 then dense (gen.index cols i j) else 0 := by
  rw [decodeElement]
  split
  · rename_i hBit
    rw [List.getD_eq_getElem?_getD, getElem?_sparseFromDense dense bitmap hi hj hBit]
    rfl
  · rfl

end

/-! ## The bits of a vector -/

/-- The zeros among the first `n` elements of a vector. -/
def zeros (vector : Nat → Int) (n : Nat) : Nat :=
  (List.range n).countP fun j => vector j = 0

/-- The bit of element `j` when the padding has come to position `k`. -/
def bitOf (vector : Nat → Int) (n k j : Nat) : Nat :=
  if vector j ≠ 0 ∨ j < k ∧ nonZeros vector n + zeros vector j < 3 then 1 else 0

section

variable {vector : Nat → Int}

theorem nonZeros_succ (n : Nat) :
    nonZeros vector (n + 1) = nonZeros vector n + if vector n ≠ 0 then 1 else 0 := by
  simp [nonZeros, List.range_succ, List.countP_append, List.countP_singleton]

theorem zeros_succ (n : Nat) :
    zeros vector (n + 1) = zeros vector n + if vector n = 0 then 1 else 0 := by
  simp [zeros, List.range_succ, List.countP_append, List.countP_singleton]

theorem nonZeros_add_zeros (n : Nat) : nonZeros vector n + zeros vector n = n := by
  induction n with
  | zero => rfl
  | succ n ih =>
      rw [nonZeros_succ, zeros_succ]
      rcases eq_or_ne (vector n) 0 with hValue | hValue
      · rw [if_neg (not_not.mpr hValue), if_pos hValue]
        omega
      · rw [if_pos hValue, if_neg hValue]
        omega

theorem nonZeros_mono {k n : Nat} (h : k ≤ n) : nonZeros vector k ≤ nonZeros vector n := by
  induction n, h using Nat.le_induction with
  | base => exact le_rfl
  | succ n _ ih =>
      rw [nonZeros_succ]
      exact ih.trans (Nat.le_add_right _ _)

theorem bitOf_of_ne {n j : Nat} (k : Nat) (hValue : vector j ≠ 0) : bitOf vector n k j = 1 :=
  if_pos (Or.inl hValue)

theorem bitOf_of_eq {n k j : Nat} (hValue : vector j = 0) :
    bitOf vector n k j = if j < k ∧ nonZeros vector n + zeros vector j < 3 then 1 else 0 := by
  simp [bitOf, hValue]

/-- The padding stops at three bits. -/
private theorem count_bitOf {n : Nat} (hLess : nonZeros vector n < 3) (k : Nat) :
    (List.range k).countP (fun j => bitOf vector n 3 j ≠ 0) + nonZeros vector n =
      nonZeros vector k + min 3 (nonZeros vector n + zeros vector (min 3 k)) := by
  induction k with
  | zero =>
      have hNone : zeros vector (min 3 0) = 0 := rfl
      have hZero : nonZeros vector 0 = 0 := rfl
      rw [hNone, hZero, List.range_zero, List.countP_nil]
      omega
  | succ k ih =>
      rw [List.range_succ, List.countP_append, List.countP_singleton, nonZeros_succ]
      rcases eq_or_ne (vector k) 0 with hValue | hValue
      · rw [bitOf_of_eq hValue, if_neg (not_not.mpr hValue)]
        rcases Nat.lt_or_ge k 3 with hInside | hOutside
        · rw [Nat.min_eq_right (show k + 1 ≤ 3 from hInside), zeros_succ, if_pos hValue]
          rw [Nat.min_eq_right (show k ≤ 3 by omega)] at ih
          simp only [hInside, true_and]
          split
          · rw [if_pos (by decide)]
            omega
          · rw [if_neg (by decide)]
            omega
        · rw [Nat.min_eq_left (show 3 ≤ k + 1 by omega)]
          rw [Nat.min_eq_left hOutside] at ih
          have hNone : ¬(k < 3 ∧ nonZeros vector n + zeros vector k < 3) := fun h => by omega
          rw [if_neg hNone, if_neg (by decide)]
          omega
      · have hSame : zeros vector (min 3 (k + 1)) = zeros vector (min 3 k) := by
          rcases Nat.lt_or_ge k 3 with hInside | hOutside
          · rw [Nat.min_eq_right (show k + 1 ≤ 3 from hInside), zeros_succ, if_neg hValue,
              Nat.min_eq_right (show k ≤ 3 by omega), Nat.add_zero]
          · rw [Nat.min_eq_left hOutside, Nat.min_eq_left (show 3 ≤ k + 1 by omega)]
        rw [bitOf_of_ne 3 hValue, if_pos hValue, if_pos (by decide), hSame]
        omega

/-- A vector with less than three nonzero elements gets three bits. -/
theorem count_bitOf_of_lt {n : Nat} (hn : 3 ≤ n) (hLess : nonZeros vector n < 3) :
    (List.range n).countP (fun j => bitOf vector n 3 j ≠ 0) = 3 := by
  have hCount := count_bitOf hLess n
  have hThree := @nonZeros_add_zeros vector 3
  have hMore := @nonZeros_mono vector 3 n hn
  rw [Nat.min_eq_left hn] at hCount
  omega

theorem bitOf_of_ge {n j : Nat} (hMore : 3 ≤ nonZeros vector n) (k : Nat) :
    bitOf vector n k j = if vector j ≠ 0 then 1 else 0 := by
  rw [bitOf]
  congr 1
  apply propext
  constructor
  · rintro (hValue | ⟨-, hLess⟩)
    · exact hValue
    · omega
  · exact Or.inl

theorem bitOf_succ_of_ne {n k j : Nat} (h : j ≠ k) :
    bitOf vector n (k + 1) j = bitOf vector n k j := by
  have hSame : j < k + 1 ↔ j < k := by omega
  simp only [bitOf, hSame]

/-- Once there are three bits, or where one is set already, the padding changes nothing. -/
theorem bitOf_succ_of_full {n k : Nat}
    (h : vector k ≠ 0 ∨ 3 ≤ nonZeros vector n + zeros vector k) (j : Nat) :
    bitOf vector n (k + 1) j = bitOf vector n k j := by
  rcases eq_or_ne j k with rfl | hOther
  · rcases eq_or_ne (vector j) 0 with hValue | hValue
    · have hFull : ¬nonZeros vector n + zeros vector j < 3 := by
        rcases h with hNot | hMore
        · exact absurd hValue hNot
        · omega
      simp [bitOf, hValue, hFull]
    · rw [bitOf_of_ne _ hValue, bitOf_of_ne _ hValue]
  · exact bitOf_succ_of_ne hOther

end

/-! ## The loops -/

section

variable {gen : GenerationType} {rows cols i : Nat}

private theorem scanVector_succ (dense : Nat → Int) (bitMap : Nat → Nat) (n : Nat) :
    scanVector gen cols dense bitMap i (n + 1) =
      (Function.update (scanVector gen cols dense bitMap i n).1 (gen.index cols i n)
        (if dense (gen.index cols i n) ≠ 0 then 1 else 0),
      (scanVector gen cols dense bitMap i n).2 +
        if dense (gen.index cols i n) ≠ 0 then 1 else 0) := by
  rw [scanVector, List.range_succ, List.foldl_append, List.foldl_cons, List.foldl_nil]
  change (if _ then _ else _) = _
  split
  · rfl
  · rfl

/-- After the scan the bits are those of the nonzero elements. -/
theorem scanVector_spec (hi : i < gen.vectors rows cols) (dense : Nat → Int)
    (bitMap : Nat → Nat) {n : Nat} (hn : n ≤ gen.vectorSize rows cols) :
    let st := scanVector gen cols dense bitMap i n
    st.2 = nonZeros (fun j => dense (gen.index cols i j)) n ∧
      (∀ j < n, st.1 (gen.index cols i j) =
        if dense (gen.index cols i j) ≠ 0 then 1 else 0) ∧
      ∀ a, (∀ j < n, a ≠ gen.index cols i j) → st.1 a = bitMap a := by
  induction n with
  | zero => exact ⟨rfl, fun j hj => absurd hj (Nat.not_lt_zero j), fun a _ => rfl⟩
  | succ n ih =>
      obtain ⟨hCount, hBits, hOthers⟩ := ih (by omega)
      simp only [scanVector_succ]
      refine ⟨?_, fun j hj => ?_, fun a ha => ?_⟩
      · rw [hCount, nonZeros_succ]
      · rcases Nat.lt_succ_iff_lt_or_eq.mp hj with hBefore | rfl
        · rw [Function.update_of_ne]
          · exact hBits j hBefore
          · intro hSame
            have := (GenerationType.index_inj hi (show j < _ by omega) hi hn hSame).2
            omega
        · rw [Function.update_self]
      · rw [Function.update_of_ne (ha n (Nat.lt_succ_self n))]
        exact hOthers a fun j hj => ha j (by omega)

/-- While it stays inside its vector the padding follows `bitOf`. -/
theorem padElement_spec (hi : i < gen.vectors rows cols) {vector : Nat → Int}
    {st : (Nat → Nat) × Nat}
    (hCount : st.2 = nonZeros vector (gen.vectorSize rows cols)) (hLess : st.2 < 3)
    (hBits : ∀ j < gen.vectorSize rows cols, st.1 (gen.index cols i j) =
      bitOf vector (gen.vectorSize rows cols) 0 j)
    {k : Nat} (hk : k ≤ min 3 (gen.vectorSize rows cols)) :
    let now := (List.range k).foldl (padElement gen cols i) st
    now.2 = min 3 (nonZeros vector (gen.vectorSize rows cols) + zeros vector k) ∧
      (∀ j < gen.vectorSize rows cols, now.1 (gen.index cols i j) =
        bitOf vector (gen.vectorSize rows cols) k j) ∧
      ∀ a, (∀ j < gen.vectorSize rows cols, a ≠ gen.index cols i j) → now.1 a = st.1 a := by
  induction k with
  | zero =>
      have hNone : zeros vector 0 = 0 := rfl
      refine ⟨?_, hBits, fun a _ => rfl⟩
      rw [hNone, List.range_zero, List.foldl_nil]
      omega
  | succ k ih =>
      obtain ⟨hNow, hBitsNow, hOthers⟩ := ih (by omega)
      have hInside : k < gen.vectorSize rows cols := by omega
      have hHere := hBitsNow k hInside
      simp only [List.range_succ, List.foldl_append, List.foldl_cons, List.foldl_nil]
      rw [padElement, hNow, zeros_succ]
      rcases Nat.lt_or_ge (nonZeros vector (gen.vectorSize rows cols) + zeros vector k) 3 with
        hMissing | hFull
      · rw [if_pos (by omega)]
        rcases eq_or_ne (vector k) 0 with hValue | hValue
        · rw [bitOf_of_eq hValue, if_neg (by omega)] at hHere
          rw [if_pos hHere, if_pos hValue]
          refine ⟨?_, fun j hj => ?_, fun a ha => ?_⟩
          · simp only
            omega
          · simp only
            rcases eq_or_ne j k with rfl | hOther
            · rw [Function.update_self, bitOf_of_eq hValue, if_pos ⟨Nat.lt_succ_self j, hMissing⟩]
            · rw [Function.update_of_ne, bitOf_succ_of_ne hOther]
              · exact hBitsNow j hj
              · intro hSame
                exact hOther (GenerationType.index_inj hi hj hi hInside hSame).2
          · simp only
            rw [Function.update_of_ne (ha k hInside)]
            exact hOthers a ha
        · rw [bitOf_of_ne k hValue] at hHere
          rw [if_neg (by omega), if_neg hValue]
          refine ⟨hNow, fun j hj => ?_, hOthers⟩
          rw [bitOf_succ_of_full (Or.inl hValue)]
          exact hBitsNow j hj
      · rw [if_neg (by omega)]
        refine ⟨by omega, fun j hj => ?_, hOthers⟩
        rw [bitOf_succ_of_full (Or.inr hFull)]
        exact hBitsNow j hj

/-- The bits of a vector with three elements or more. -/
theorem bitMapVector_spec (hSize : 3 ≤ gen.vectorSize rows cols)
    (hi : i < gen.vectors rows cols) (dense : Nat → Int) (bitMap : Nat → Nat) :
    (∀ j < gen.vectorSize rows cols,
      bitMapVector gen rows cols dense bitMap i (gen.index cols i j) =
        bitOf (fun j => dense (gen.index cols i j)) (gen.vectorSize rows cols) 3 j) ∧
      ∀ a, (∀ j < gen.vectorSize rows cols, a ≠ gen.index cols i j) →
        bitMapVector gen rows cols dense bitMap i a = bitMap a := by
  obtain ⟨hCount, hBits, hOthers⟩ := scanVector_spec hi dense bitMap le_rfl
  rw [bitMapVector]
  split
  · rename_i hLess
    have hStart : ∀ j < gen.vectorSize rows cols,
        (scanVector gen cols dense bitMap i (gen.vectorSize rows cols)).1 (gen.index cols i j) =
          bitOf (fun j => dense (gen.index cols i j)) (gen.vectorSize rows cols) 0 j := by
      intro j hj
      rw [hBits j hj, bitOf]
      simp
    obtain ⟨-, hPadded, hKept⟩ := padElement_spec (k := 3) hi hCount hLess hStart (by omega)
    exact ⟨hPadded, fun a ha => (hKept a ha).trans (hOthers a ha)⟩
  · rename_i hMore
    refine ⟨fun j hj => ?_, hOthers⟩
    rw [hCount] at hMore
    rw [bitOf_of_ge (by omega)]
    exact hBits j hj

/-- The whole bitmap, for vectors of three elements or more. -/
theorem generateBitMapFromDense_spec (hSize : 3 ≤ gen.vectorSize rows cols) (dense : Nat → Int)
    (heap : Nat → Nat) :
    (∀ i < gen.vectors rows cols, ∀ j < gen.vectorSize rows cols,
      generateBitMapFromDense gen rows cols dense heap (gen.index cols i j) =
        bitOf (fun j => dense (gen.index cols i j)) (gen.vectorSize rows cols) 3 j) ∧
      ∀ a, rows * cols ≤ a → generateBitMapFromDense gen rows cols dense heap a = heap a := by
  have hLoop : ∀ m ≤ gen.vectors rows cols,
      let bitMap := (List.range m).foldl (bitMapVector gen rows cols dense) heap
      (∀ i < m, ∀ j < gen.vectorSize rows cols, bitMap (gen.index cols i j) =
        bitOf (fun j => dense (gen.index cols i j)) (gen.vectorSize rows cols) 3 j) ∧
        ∀ a, rows * cols ≤ a → bitMap a = heap a := by
    intro m hm
    induction m with
    | zero => exact ⟨fun i hi => absurd hi (Nat.not_lt_zero i), fun a _ => rfl⟩
    | succ m ih =>
        obtain ⟨hBits, hOutside⟩ := ih (by omega)
        obtain ⟨hVector, hOthers⟩ := bitMapVector_spec hSize (show m < _ from hm) dense
          ((List.range m).foldl (bitMapVector gen rows cols dense) heap)
        simp only [List.range_succ, List.foldl_append, List.foldl_cons, List.foldl_nil]
        refine ⟨fun i hi j hj => ?_, fun a ha => ?_⟩
        · rcases Nat.lt_succ_iff_lt_or_eq.mp hi with hBefore | rfl
          · rw [hOthers _ fun j' hj' hSame => ?_]
            · exact hBits i hBefore j hj
            · have := (GenerationType.index_inj (show i < _ by omega) hj hm hj' hSame).1
              omega
          · exact hVector j hj
        · rw [hOthers a fun j hj hSame => ?_]
          · exact hOutside a ha
          · have hLess := GenerationType.index_lt (show m < _ from hm) hj
            omega
  exact hLoop _ le_rfl

/-! ## Short vectors -/

/-- A bit that is set stays set. -/
private theorem foldl_padElement_ne_zero (i : Nat) {a : Nat} (positions : List Nat)
    {st : (Nat → Nat) × Nat} (h : st.1 a ≠ 0) :
    (positions.foldl (padElement gen cols i) st).1 a ≠ 0 := by
  induction positions generalizing st with
  | nil => exact h
  | cons j positions ih =>
      rw [List.foldl_cons]
      apply ih
      rw [padElement]
      split
      · split
        · simp only
          rcases eq_or_ne a (gen.index cols i j) with rfl | hOther
          · simp
          · rwa [Function.update_of_ne hOther]
        · exact h
      · exact h

private theorem bitMapVector_ne_zero (hi : i < gen.vectors rows cols) (dense : Nat → Int)
    {bitMap : Nat → Nat} {a : Nat} (ha : rows * cols ≤ a) (h : bitMap a ≠ 0) :
    bitMapVector gen rows cols dense bitMap i a ≠ 0 := by
  have hScanned : (scanVector gen cols dense bitMap i (gen.vectorSize rows cols)).1 a ≠ 0 := by
    rw [(scanVector_spec hi dense bitMap le_rfl).2.2 a fun j hj hSame => ?_]
    · exact h
    · have hLess := GenerationType.index_lt hi hj
      omega
  rw [bitMapVector]
  split
  · exact foldl_padElement_ne_zero i _ hScanned
  · exact hScanned

/-- The padding of a short vector runs past its end. -/
private theorem bitMapVector_overrun (hSize : gen.vectorSize rows cols < 3)
    (hi : i < gen.vectors rows cols) (dense : Nat → Int) (bitMap : Nat → Nat) :
    bitMapVector gen rows cols dense bitMap i (gen.index cols i (gen.vectorSize rows cols)) ≠
      0 := by
  obtain ⟨hCount, hBits, -⟩ := scanVector_spec hi dense bitMap le_rfl
  have hAll := @nonZeros_add_zeros (fun j => dense (gen.index cols i j))
    (gen.vectorSize rows cols)
  have hStart : ∀ j < gen.vectorSize rows cols,
      (scanVector gen cols dense bitMap i (gen.vectorSize rows cols)).1 (gen.index cols i j) =
        bitOf (fun j => dense (gen.index cols i j)) (gen.vectorSize rows cols) 0 j := by
    intro j hj
    rw [hBits j hj, bitOf]
    simp
  have hLess : (scanVector gen cols dense bitMap i (gen.vectorSize rows cols)).2 < 3 := by
    rw [hCount]
    omega
  obtain ⟨hInside, -⟩ := padElement_spec hi hCount hLess hStart
    (show gen.vectorSize rows cols ≤ min 3 _ by omega)
  obtain ⟨k, hk⟩ := Nat.exists_eq_add_of_lt hSize
  rw [bitMapVector, if_pos hLess, hk, show gen.vectorSize rows cols + k + 1 =
    gen.vectorSize rows cols + 1 + k by omega, List.range_add, List.foldl_append]
  apply foldl_padElement_ne_zero
  rw [List.range_succ, List.foldl_append, List.foldl_cons, List.foldl_nil, padElement, hInside,
    if_pos (by omega)]
  split
  · simp
  · rename_i hSet
    exact hSet

/-- With short vectors the word behind the bitmap does not stay zero. -/
theorem generateBitMapFromDense_overrun (hRows : 0 < rows) (hCols : 0 < cols)
    (hSize : gen.vectorSize rows cols < 3) (dense : Nat → Int) (heap : Nat → Nat) :
    generateBitMapFromDense gen rows cols dense heap (rows * cols) ≠ 0 := by
  obtain ⟨i, hi, hEnd⟩ : ∃ i < gen.vectors rows cols,
      gen.index cols i (gen.vectorSize rows cols) = rows * cols := by
    cases gen with
    | genByRows =>
        refine ⟨rows - 1, Nat.sub_lt hRows Nat.one_pos, ?_⟩
        obtain ⟨k, rfl⟩ := Nat.exists_eq_succ_of_ne_zero hRows.ne'
        exact (Nat.succ_mul k cols).symm
    | genByCols => exact ⟨0, hCols, Nat.add_zero _⟩
  obtain ⟨k, hk⟩ := Nat.exists_eq_add_of_lt hi
  have hLater : ∀ m ≤ k,
      ((List.range (i + 1 + m)).foldl (bitMapVector gen rows cols dense) heap) (rows * cols) ≠
        0 := by
    intro m hm
    induction m with
    | zero =>
        rw [Nat.add_zero, List.range_succ, List.foldl_append, List.foldl_cons, List.foldl_nil,
          ← hEnd]
        exact bitMapVector_overrun hSize hi dense _
    | succ m ih =>
        rw [← Nat.add_assoc, List.range_succ, List.foldl_append, List.foldl_cons, List.foldl_nil]
        exact bitMapVector_ne_zero (by omega) dense le_rfl (ih (by omega))
  have hAll := hLater k le_rfl
  rwa [show i + 1 + k = gen.vectors rows cols by omega] at hAll

/-! ## The codec -/

theorem bitmapCodec_of_le (hSize : 3 ≤ gen.vectorSize rows cols) :
    BitmapCodec gen rows cols := by
  have hBits := fun dense heap =>
    (@generateBitMapFromDense_spec gen rows cols hSize dense heap).1
  refine ⟨fun dense heap => (generateBitMapFromDense_spec hSize dense heap).2,
    fun dense heap i hi j hj hValue => ?_, fun dense heap i hi hMore j hj => ?_,
    fun dense heap i hi hLess => ?_, fun dense dense' heap heap' i hi i' hi' hSame j hj => ?_,
    fun dense heap i hi j hj => ?_⟩
  · rw [hBits dense heap i hi j hj]
    exact bitOf_of_ne 3 hValue
  · rw [hBits dense heap i hi j hj]
    exact bitOf_of_ge hMore 3
  · rw [Nat.min_eq_left hSize, ← count_bitOf_of_lt hSize hLess]
    apply List.countP_congr
    intro j hj
    rw [hBits dense heap i hi j (List.mem_range.mp hj)]
  · rw [hBits dense heap i hi j hj, hBits dense' heap' i' hi' j hj, bitOf, bitOf]
    have hVector : ∀ k ≤ gen.vectorSize rows cols,
        nonZeros (fun j => dense (gen.index cols i j)) k =
          nonZeros (fun j => dense' (gen.index cols i' j)) k := by
      intro k hk
      apply List.countP_congr
      intro j hj
      simp only [hSame j ((List.mem_range.mp hj).trans_le hk)]
    have hZeros : zeros (fun j => dense (gen.index cols i j)) j =
        zeros (fun j => dense' (gen.index cols i' j)) j := by
      apply List.countP_congr
      intro l hl
      simp only [hSame l ((List.mem_range.mp hl).trans hj)]
    simp only [hVector _ le_rfl, hZeros, hSame j hj]
  · intro bitmap stream
    rw [decodeElement_sparseFromDense dense bitmap hi hj]
    split
    · rfl
    · rename_i hNone
      by_contra hValue
      have hBit : bitmap (gen.index cols i j) = 1 :=
        (hBits dense heap i hi j hj).trans (bitOf_of_ne 3 fun h => hValue h.symm)
      omega

/-- The codec works exactly for vectors of three elements or more. -/
theorem bitmapCodec_iff (gen : GenerationType) {rows cols : Nat} (hRows : 0 < rows)
    (hCols : 0 < cols) : BitmapCodec gen rows cols ↔ 3 ≤ gen.vectorSize rows cols := by
  constructor
  · intro hCodec
    by_contra hLess
    apply generateBitMapFromDense_overrun hRows hCols (Nat.lt_of_not_le hLess) (fun _ => 0)
      fun _ => 0
    exact hCodec.inside _ _ _ le_rfl
  · exact bitmapCodec_of_le

/-- Four rows of five elements by rows and by columns, and columns of two elements. -/
theorem bitmapCodec_iff_several :
    BitmapCodec .genByRows 4 5 ∧ BitmapCodec .genByCols 4 5 ∧ ¬BitmapCodec .genByCols 2 6 := by
  refine ⟨?_, ?_, ?_⟩
  · exact (bitmapCodec_iff .genByRows (by decide) (by decide)).mpr (by decide)
  · exact (bitmapCodec_iff .genByCols (by decide) (by decide)).mpr (by decide)
  · exact (bitmapCodec_iff .genByCols (by decide) (by decide)).not.mpr (by decide)

/-- A row of two elements: the third bit is set behind the bitmap. -/
theorem not_bitmapCodec_two_columns : ¬BitmapCodec .genByRows 1 2 := by
  intro hCodec
  have hBehind := hCodec.inside (fun _ => 1) (fun _ => 0) 2 le_rfl
  have hBit : generateBitMapFromDense .genByRows 1 2 (fun _ => 1) (fun _ => 0) 2 = 1 := by
    decide
  rw [hBit] at hBehind
  cases hBehind

end

end Stonne
