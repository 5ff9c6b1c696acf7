import Stonne.Lib.Streams
import Stonne.Utility.Matrix

/-!
# Compressed rows and columns

Three passes over a dense matrix build the values, the minor indices and the pointers to the
major vectors.  Each treats a vector without nonzero elements as one that holds a zero at its
first position, so that no major vector is empty.  The three streams are those of the same
entries, and the pointers are where the entries of each vector begin.
-/

namespace Stonne

open Dataflow

section

variable (gen : GenerationType) (rows cols : Nat)

/-- The loop over a vector that pushes something for each nonzero element, and something else
when there is none. -/
def pushVector {β : Type*} (denseMatrix : Nat → Int) (value : Nat → Nat → β) (empty : β)
    (elements : List β) (i : Nat) : List β :=
  let st := (List.range (gen.vectorSize rows cols)).foldl (fun st j =>
    if denseMatrix (gen.index cols i j) ≠ 0 then (st.1 ++ [value i j], st.2 + 1) else st)
    (elements, 0)
  if st.2 = 0 then st.1 ++ [empty] else st.1

/-- `generateMatrixSparseFromDenseNoBitmap` -/
def generateMatrixSparseFromDenseNoBitmap (denseMatrix : Nat → Int) : List Int :=
  (List.range (gen.vectors rows cols)).foldl
    (pushVector gen rows cols denseMatrix (fun i j => denseMatrix (gen.index cols i j)) 0) []

/-- `generateMinorIDFromDense`, and `nnz`. -/
def generateMinorIDFromDense (denseMatrix : Nat → Int) : List Nat × Nat :=
  let elements := (List.range (gen.vectors rows cols)).foldl
    (pushVector gen rows cols denseMatrix (fun _ j => j) 0) []
  (elements, elements.length)

/-- The pointers so far, and `nnzp`. -/
structure Pointers where
  elements : List Nat
  nnzp : Nat

/-- The loop of `generateMajorPointerFromDense` over a vector, with `flag`. -/
def pointElement (denseMatrix : Nat → Int) (i : Nat) (st : Pointers × Bool) (j : Nat) :
    Pointers × Bool :=
  if denseMatrix (gen.index cols i j) ≠ 0 then
    if !st.2 then (⟨st.1.elements ++ [st.1.nnzp], st.1.nnzp + 1⟩, true)
    else (⟨st.1.elements, st.1.nnzp + 1⟩, st.2)
  else st

def pointVector (denseMatrix : Nat → Int) (st : Pointers) (i : Nat) : Pointers :=
  let now := (List.range (gen.vectorSize rows cols)).foldl (pointElement gen cols denseMatrix i)
    (st, false)
  if !now.2 then ⟨now.1.elements ++ [now.1.nnzp], now.1.nnzp + 1⟩ else now.1

/-- `generateMajorPointerFromDense` -/
def generateMajorPointerFromDense (denseMatrix : Nat → Int) : List Nat :=
  let st := (List.range (gen.vectors rows cols)).foldl (pointVector gen rows cols denseMatrix)
    ⟨[], 0⟩
  st.elements ++ [st.nnzp]

end

/-- The value at a major and a minor index, zero where there is none. -/
def decodeCompressed (values : List Int) (minorID majorPointer : List Nat) (i j : Nat) : Int :=
  let first := majorPointer.getD i 0
  let last := majorPointer.getD (i + 1) 0
  match (List.range' first (last - first)).find? fun p => minorID.getD p 0 = j with
  | some p => values.getD p 0
  | none => 0

/-- The three arrays describe a matrix of `vectors` vectors of `size` elements. -/
structure Compressed (vectors size : Nat) (element : Nat → Nat → Int) (values : List Int)
    (minorID : List Nat) (nnz : Nat) (majorPointer : List Nat) : Prop where
  valuesLength : values.length = nnz
  minorLength : minorID.length = nnz
  pointersLength : majorPointer.length = vectors + 1
  first : majorPointer[0]? = some 0
  last : majorPointer[vectors]? = some nnz
  increasing : ∀ i < vectors, majorPointer.getD i 0 < majorPointer.getD (i + 1) 0
  minorBound : ∀ minor ∈ minorID, minor < size
  minorIncreasing : ∀ i < vectors, ∀ p, majorPointer.getD i 0 ≤ p →
    p + 1 < majorPointer.getD (i + 1) 0 → minorID.getD p 0 < minorID.getD (p + 1) 0
  decoded : ∀ i < vectors, ∀ j < size,
    decodeCompressed values minorID majorPointer i j = element i j

/-! ## The entries of a vector -/

section

variable (size : Nat) (vector : Nat → Int)

/-- The positions of the nonzero elements. -/
def positions : List Nat :=
  (List.range size).filter fun j => vector j ≠ 0

/-- The minor indices and values of a vector. -/
def entries : List (Nat × Int) :=
  if positions size vector = [] then [(0, 0)]
  else (positions size vector).map fun j => (j, vector j)

variable {size : Nat} {vector : Nat → Int}

theorem mem_positions {j : Nat} : j ∈ positions size vector ↔ j < size ∧ vector j ≠ 0 := by
  rw [positions, List.mem_filter, List.mem_range, decide_eq_true_eq]

theorem entries_ne_nil : entries size vector ≠ [] := by
  rw [entries]
  split
  · exact List.cons_ne_nil _ _
  · rename_i hSome
    rwa [Ne, List.map_eq_nil_iff]

theorem entries_length_le : (entries size vector).length ≤ max size 1 := by
  rw [entries]
  split
  · exact Nat.le_max_right _ _
  · rw [List.length_map]
    calc (positions size vector).length ≤ (List.range size).length := List.length_filter_le _ _
      _ = size := List.length_range
      _ ≤ max size 1 := Nat.le_max_left _ _

/-- An entry tells the truth. -/
theorem entries_value (hSize : 0 < size) {entry : Nat × Int} (h : entry ∈ entries size vector) :
    entry.1 < size ∧ entry.2 = vector entry.1 := by
  rw [entries] at h
  split at h
  · rename_i hNone
    rw [List.mem_singleton] at h
    subst h
    refine ⟨hSize, ?_⟩
    by_contra hValue
    have hMem : 0 ∈ positions size vector := mem_positions.mpr ⟨hSize, fun h => hValue h.symm⟩
    rw [hNone] at hMem
    cases hMem
  · obtain ⟨j, hj, rfl⟩ := List.mem_map.mp h
    exact ⟨(mem_positions.mp hj).1, rfl⟩

theorem entries_fst_lt {entry : Nat × Int} (h : entry ∈ entries size vector) :
    entry.1 < max size 1 := by
  rw [entries] at h
  split at h
  · rw [List.mem_singleton.mp h]
    exact Nat.le_max_right _ _
  · obtain ⟨j, hj, rfl⟩ := List.mem_map.mp h
    exact (mem_positions.mp hj).1.trans_le (Nat.le_max_left _ _)

/-- Every nonzero element has its entry. -/
theorem mem_entries {j : Nat} (hj : j < size) (hValue : vector j ≠ 0) :
    (j, vector j) ∈ entries size vector := by
  have hMem := mem_positions.mpr ⟨hj, hValue⟩
  rw [entries, if_neg (List.ne_nil_of_mem hMem)]
  exact List.mem_map_of_mem hMem

theorem entries_sorted : ((entries size vector).map Prod.fst).Pairwise (· < ·) := by
  rw [entries]
  split
  · exact List.pairwise_singleton _ _
  · rw [List.map_map]
    have hId : (Prod.fst ∘ fun j => (j, vector j)) = id := rfl
    rw [hId, List.map_id]
    exact List.pairwise_lt_range.filter _

end

/-! ## The three passes -/

section

variable {gen : GenerationType} {rows cols : Nat}

/-- The entries of vector `i` of a dense matrix. -/
def entriesOf (gen : GenerationType) (rows cols : Nat) (dense : Nat → Int) (i : Nat) :
    List (Nat × Int) :=
  entries (gen.vectorSize rows cols) fun j => dense (gen.index cols i j)

theorem pushVector_eq {β : Type*} (dense : Nat → Int) (value : Nat → Nat → β) (empty : β)
    (elements : List β) (i : Nat) :
    pushVector gen rows cols dense value empty elements i =
      elements ++ if positions (gen.vectorSize rows cols) (fun j => dense (gen.index cols i j)) = []
        then [empty]
        else (positions (gen.vectorSize rows cols) fun j => dense (gen.index cols i j)).map
          (value i) := by
  have hLoop : ∀ n, (List.range n).foldl (fun (st : List β × Nat) j =>
      if dense (gen.index cols i j) ≠ 0 then (st.1 ++ [value i j], st.2 + 1) else st)
        (elements, 0) =
      (elements ++ (positions n fun j => dense (gen.index cols i j)).map (value i),
        (positions n fun j => dense (gen.index cols i j)).length) := by
    intro n
    induction n with
    | zero => simp [positions]
    | succ n ih =>
        rw [List.range_succ, List.foldl_append, ih, List.foldl_cons, List.foldl_nil]
        rcases eq_or_ne (dense (gen.index cols i n)) 0 with hValue | hValue
        · simp [positions, List.range_succ, hValue]
        · simp [positions, List.range_succ, hValue]
  rw [pushVector, hLoop]
  simp only [List.length_eq_zero_iff]
  split
  · rename_i hNone
    simp [hNone]
  · rfl

/-- A pass is the stream of all vectors. -/
private theorem foldl_append_range {β : Type*} (part : Nat → List β)
    {push : List β → Nat → List β} (hPush : ∀ elements i, push elements i = elements ++ part i)
    (n : Nat) : (List.range n).foldl push [] = (List.range n).flatMap part := by
  induction n with
  | zero => rfl
  | succ n ih =>
      rw [List.range_succ, List.foldl_append, ih, List.foldl_cons, List.foldl_nil, hPush,
        List.flatMap_append, List.flatMap_singleton]

theorem sparseNoBitmap_eq (dense : Nat → Int) :
    generateMatrixSparseFromDenseNoBitmap gen rows cols dense =
      ((List.range (gen.vectors rows cols)).flatMap (entriesOf gen rows cols dense)).map
        Prod.snd := by
  rw [List.map_flatMap]
  apply foldl_append_range
  intro elements i
  rw [pushVector_eq, entriesOf, entries]
  split
  · rfl
  · simp [Function.comp_def]

theorem minorID_eq (dense : Nat → Int) :
    (generateMinorIDFromDense gen rows cols dense).1 =
      ((List.range (gen.vectors rows cols)).flatMap (entriesOf gen rows cols dense)).map
        Prod.fst := by
  rw [List.map_flatMap]
  apply foldl_append_range
  intro elements i
  rw [pushVector_eq, entriesOf, entries]
  split
  · rfl
  · simp [Function.comp_def]

theorem pointVector_eq (dense : Nat → Int) (st : Pointers) (i : Nat) :
    pointVector gen rows cols dense st i =
      ⟨st.elements ++ [st.nnzp], st.nnzp + (entriesOf gen rows cols dense i).length⟩ := by
  have hLoop : ∀ n, (List.range n).foldl (pointElement gen cols dense i) (st, false) =
      if positions n (fun j => dense (gen.index cols i j)) = [] then (st, false)
      else (⟨st.elements ++ [st.nnzp],
        st.nnzp + (positions n fun j => dense (gen.index cols i j)).length⟩, true) := by
    intro n
    induction n with
    | zero => rfl
    | succ n ih =>
        rw [List.range_succ, List.foldl_append, ih, List.foldl_cons, List.foldl_nil, pointElement]
        have hNext : positions (n + 1) (fun j => dense (gen.index cols i j)) =
            positions n (fun j => dense (gen.index cols i j)) ++
              if dense (gen.index cols i n) ≠ 0 then [n] else [] := by
          rcases eq_or_ne (dense (gen.index cols i n)) 0 with hValue | hValue
          · simp [positions, List.range_succ, hValue]
          · simp [positions, List.range_succ, hValue]
        rw [hNext]
        rcases eq_or_ne (dense (gen.index cols i n)) 0 with hValue | hValue
        · simp [hValue]
        · rcases eq_or_ne (positions n fun j => dense (gen.index cols i j)) [] with hNone | hSome
          · simp [hValue, hNone]
          · simp [hValue, hSome, Nat.add_assoc]
  rw [pointVector, hLoop, entriesOf, entries]
  rcases eq_or_ne (positions (gen.vectorSize rows cols) fun j => dense (gen.index cols i j)) []
    with hNone | hSome
  · simp [hNone]
  · simp [hSome]

/-- The pointers are where the vectors begin in the stream. -/
theorem majorPointer_eq (dense : Nat → Int) :
    generateMajorPointerFromDense gen rows cols dense =
      (List.range (gen.vectors rows cols + 1)).map (offset (entriesOf gen rows cols dense)) := by
  have hLoop : ∀ n, (List.range n).foldl (pointVector gen rows cols dense) ⟨[], 0⟩ =
      ⟨(List.range n).map (offset (entriesOf gen rows cols dense)),
        offset (entriesOf gen rows cols dense) n⟩ := by
    intro n
    induction n with
    | zero => rfl
    | succ n ih =>
        rw [List.range_succ, List.foldl_append, ih, List.foldl_cons, List.foldl_nil,
          pointVector_eq, offset_succ, List.map_append, List.map_singleton]
  rw [generateMajorPointerFromDense, hLoop, List.range_succ, List.map_append, List.map_singleton]

end

/-! ## The format -/

section

variable {vectors size : Nat} {element : Nat → Nat → Int}

/-- The entries of all vectors, with the pointers to their beginnings. -/
theorem compressed_entries (hSize : 0 < size) :
    let part := fun i => entries size (element i)
    let stream := (List.range vectors).flatMap part
    Compressed vectors size element (stream.map Prod.snd) (stream.map Prod.fst) stream.length
      ((List.range (vectors + 1)).map (offset part)) := by
  intro part stream
  have hPointer : ∀ i ≤ vectors, ((List.range (vectors + 1)).map (offset part)).getD i 0 =
      offset part i := by
    intro i hi
    exact getD_map_range (Nat.lt_succ_of_le hi) (offset part) 0
  have hLength : ∀ i, 0 < (part i).length := fun i =>
    List.length_pos_of_ne_nil entries_ne_nil
  -- an entry of a vector in the two streams
  have hGet : ∀ i < vectors, ∀ r < (part i).length, ∃ entry,
      (part i)[r]? = some entry ∧ (stream.map Prod.fst).getD (offset part i + r) 0 = entry.1 ∧
        (stream.map Prod.snd).getD (offset part i + r) 0 = entry.2 := by
    intro i hi r hr
    have hPlace := getElem?_flatMap_range part hi hr
    refine ⟨(part i)[r], List.getElem?_eq_getElem hr, ?_, ?_⟩
    · rw [List.getD_eq_getElem?_getD, List.getElem?_map, hPlace, List.getElem?_eq_getElem hr]
      rfl
    · rw [List.getD_eq_getElem?_getD, List.getElem?_map, hPlace, List.getElem?_eq_getElem hr]
      rfl
  refine ⟨List.length_map _, List.length_map _, by simp, by simp, ?_, fun i hi => ?_,
    fun minor hMinor => ?_, fun i hi p hFirst hLast => ?_, fun i hi j hj => ?_⟩
  · simp [stream, offset]
  · rw [hPointer i hi.le, hPointer (i + 1) hi, offset_succ]
    exact Nat.lt_add_of_pos_right (hLength i)
  · obtain ⟨entry, hEntry, rfl⟩ := List.mem_map.mp hMinor
    obtain ⟨i, -, hPart⟩ := List.mem_flatMap.mp hEntry
    exact (entries_value hSize hPart).1
  · rw [hPointer i hi.le] at hFirst
    rw [hPointer (i + 1) hi, offset_succ] at hLast
    obtain ⟨r, rfl⟩ := Nat.exists_eq_add_of_le hFirst
    obtain ⟨entry, hEntry, hMinor, -⟩ := hGet i hi r (by omega)
    obtain ⟨entry', hEntry', hMinor', -⟩ := hGet i hi (r + 1) (by omega)
    rw [hMinor, Nat.add_assoc, hMinor']
    obtain ⟨hr, rfl⟩ := List.getElem?_eq_some_iff.mp hEntry
    obtain ⟨hr', rfl⟩ := List.getElem?_eq_some_iff.mp hEntry'
    have hSorted := List.pairwise_iff_getElem.mp (@entries_sorted size (element i)) r (r + 1)
      (by simpa using hr) (by simpa using hr') (Nat.lt_succ_self r)
    simpa using hSorted
  · rw [decodeCompressed]
    simp only [hPointer i hi.le, hPointer (i + 1) hi, offset_succ, Nat.add_sub_cancel_left]
    split
    · rename_i p hFound
      have hMinor := List.find?_some hFound
      have hMem := List.mem_of_find?_eq_some hFound
      obtain ⟨r, hr, rfl⟩ := List.mem_range'.mp hMem
      obtain ⟨entry, hEntry, hFst, hSnd⟩ := hGet i hi r (by omega)
      rw [Nat.one_mul] at *
      rw [hSnd, (entries_value hSize (List.mem_of_getElem? hEntry)).2]
      rw [decide_eq_true_eq, hFst] at hMinor
      rw [hMinor]
    · rename_i hNone
      by_contra hValue
      have hMem := mem_entries hj (fun h => hValue h.symm)
      obtain ⟨r, hr, hEntry⟩ := List.mem_iff_getElem.mp hMem
      obtain ⟨entry, hPart, hFst, -⟩ := hGet i hi r hr
      have hHere := List.find?_eq_none.mp hNone (offset part i + r)
        (List.mem_range'.mpr ⟨r, hr, by omega⟩)
      rw [List.getElem?_eq_getElem hr, Option.some.injEq] at hPart
      apply hHere
      rw [decide_eq_true_eq, hFst, ← hPart, hEntry]

end

/-- The three passes build the streams of the same entries. -/
theorem compressed_fromDense (gen : GenerationType) {rows cols : Nat} (hRows : 0 < rows)
    (hCols : 0 < cols) (dense : Nat → Int) :
    Compressed (gen.vectors rows cols) (gen.vectorSize rows cols)
      (fun i j => dense (gen.index cols i j))
      (generateMatrixSparseFromDenseNoBitmap gen rows cols dense)
      (generateMinorIDFromDense gen rows cols dense).1
      (generateMinorIDFromDense gen rows cols dense).2
      (generateMajorPointerFromDense gen rows cols dense) := by
  have hSize : 0 < gen.vectorSize rows cols := by
    cases gen with
    | genByRows => exact hCols
    | genByCols => exact hRows
  have hNnz : (generateMinorIDFromDense gen rows cols dense).2 =
      ((List.range (gen.vectors rows cols)).flatMap (entriesOf gen rows cols dense)).length := by
    have hLength := congrArg List.length (@minorID_eq gen rows cols dense)
    rw [List.length_map] at hLength
    exact hLength
  rw [sparseNoBitmap_eq, minorID_eq, majorPointer_eq, hNnz]
  exact compressed_entries hSize

/-- A matrix with an empty row. -/
theorem compressed_fromDense_empty_row :
    let dense : Nat → Int := fun a => if a = 4 then 7 else 0
    Compressed 2 3 (fun i j => dense (i * 3 + j))
      (generateMatrixSparseFromDenseNoBitmap .genByRows 2 3 dense)
      (generateMinorIDFromDense .genByRows 2 3 dense).1
      (generateMinorIDFromDense .genByRows 2 3 dense).2
      (generateMajorPointerFromDense .genByRows 2 3 dense) := by
  intro dense
  exact compressed_fromDense .genByRows (show 0 < 2 by decide) (show 0 < 3 by decide) dense

end Stonne
