import Stonne.Testbench

/-!
# Generation orders and reordered matrices

The functions of `utility.cpp` walk over the stationary vectors of a matrix: its rows or
its columns.  `organizeMatrix` gathers the vectors through a table, `organizeMatrixBack`
scatters them through the same table.  So the one undoes the other for every permutation,
and as a product takes each of its rows from one row of the left matrix and each of its
columns from one column of the right one, it can be reordered back after the run.
-/

namespace Stonne

open Dataflow

/-- `GENERATION_TYPE` -/
inductive GenerationType where
  | genByRows
  | genByCols
  deriving DecidableEq, Repr

namespace GenerationType

/-- The number of stationary vectors. -/
def vectors : GenerationType → Nat → Nat → Nat
  | genByRows, rows, _ => rows
  | genByCols, _, cols => cols

/-- The length of a stationary vector. -/
def vectorSize : GenerationType → Nat → Nat → Nat
  | genByRows, _, cols => cols
  | genByCols, rows, _ => rows

/-- Where element `j` of vector `i` is. -/
def index : GenerationType → Nat → Nat → Nat → Nat
  | genByRows, cols, i, j => i * cols + j
  | genByCols, cols, i, j => j * cols + i

variable {gen : GenerationType} {rows cols i j i' j' : Nat}

theorem index_lt (hi : i < gen.vectors rows cols) (hj : j < gen.vectorSize rows cols) :
    gen.index cols i j < rows * cols := by
  cases gen with
  | genByRows => exact radix_lt hi hj
  | genByCols => exact radix_lt hj hi

theorem index_inj (hi : i < gen.vectors rows cols) (hj : j < gen.vectorSize rows cols)
    (hi' : i' < gen.vectors rows cols) (hj' : j' < gen.vectorSize rows cols)
    (h : gen.index cols i j = gen.index cols i' j') : i = i' ∧ j = j' := by
  cases gen with
  | genByRows => exact radix_inj hj hj' h
  | genByCols => exact (radix_inj hi hi' h).symm

theorem exists_index (gen : GenerationType) {a : Nat} (ha : a < rows * cols) :
    ∃ i < gen.vectors rows cols, ∃ j < gen.vectorSize rows cols, a = gen.index cols i j := by
  obtain ⟨x, hx, y, hy, rfl⟩ := exists_radix ha
  cases gen with
  | genByRows => exact ⟨x, hx, y, hy, rfl⟩
  | genByCols => exact ⟨y, hy, x, hx, rfl⟩

/-- The elements of all vectors, one vector after the other. -/
def elements (gen : GenerationType) (rows cols : Nat) : List (Nat × Nat) :=
  cells (gen.vectors rows cols) (gen.vectorSize rows cols)

end GenerationType

section

variable {α : Type*}

/-- `matrix_copy`, in memory that held `heap`. -/
def matrixCopy (rows cols : Nat) (matrix heap : Nat → α) : Nat → α :=
  (List.range (rows * cols)).foldl (fun copy i => Function.update copy i (matrix i)) heap

/-- `organizeMatrix` -/
def organizeMatrix (gen : GenerationType) (rows cols : Nat) (pointerTable : Nat → Nat)
    (heap matrix : Nat → α) : Nat → α :=
  let copy := matrixCopy rows cols matrix heap
  (gen.elements rows cols).foldl (fun matrix element =>
    let clusterSrc := pointerTable element.1
    Function.update matrix (gen.index cols element.1 element.2)
      (copy (gen.index cols clusterSrc element.2))) matrix

/-- `organizeMatrixBack` -/
def organizeMatrixBack (gen : GenerationType) (rows cols : Nat) (pointerTable : Nat → Nat)
    (heap matrix : Nat → α) : Nat → α :=
  let copy := matrixCopy rows cols matrix heap
  (gen.elements rows cols).foldl (fun matrix element =>
    let clusterDst := pointerTable element.1
    Function.update matrix (gen.index cols clusterDst element.2)
      (copy (gen.index cols element.1 element.2))) matrix

end

/-- The table is a permutation of the first `n` numbers. -/
def IsPermutation (n : Nat) (pointerTable : Nat → Nat) : Prop :=
  ((List.range n).map pointerTable).Perm (List.range n)

instance (n : Nat) (pointerTable : Nat → Nat) : Decidable (IsPermutation n pointerTable) :=
  inferInstanceAs (Decidable (List.Perm _ _))

example : IsPermutation 3 fun i => (i + 1) % 3 := by decide

/-- What the reordering promises. -/
structure ReorderingExact (α : Type*) : Prop where
  backOfOrganize : ∀ (gen : GenerationType) (rows cols : Nat) (table : Nat → Nat),
    IsPermutation (gen.vectors rows cols) table → ∀ heap heap' matrix : Nat → α,
      organizeMatrixBack gen rows cols table heap'
        (organizeMatrix gen rows cols table heap matrix) = matrix
  organizeOfBack : ∀ (gen : GenerationType) (rows cols : Nat) (table : Nat → Nat),
    IsPermutation (gen.vectors rows cols) table → ∀ heap heap' matrix : Nat → α,
      organizeMatrix gen rows cols table heap'
        (organizeMatrixBack gen rows cols table heap matrix) = matrix
  /-- The rows of the left matrix are reordered before the product, those of the product
  after it. -/
  rowsOfProduct : ∀ (M N K : Nat) (table : Nat → Nat), IsPermutation M table →
    ∀ mk kn output heap heap' : Nat → Int,
      organizeMatrixBack .genByRows M N table heap'
        (cpuGemm (organizeMatrix .genByRows M K table heap mk) kn output M N K) =
          cpuGemm mk kn output M N K
  /-- The same for the columns of the right matrix. -/
  colsOfProduct : ∀ (M N K : Nat) (table : Nat → Nat), IsPermutation N table →
    ∀ mk kn output heap heap' : Nat → Int,
      organizeMatrixBack .genByCols M N table heap'
        (cpuGemm mk (organizeMatrix .genByCols K N table heap kn) output M N K) =
          cpuGemm mk kn output M N K

namespace IsPermutation

variable {n : Nat} {table : Nat → Nat}

theorem lt (h : IsPermutation n table) {i : Nat} (hi : i < n) : table i < n := by
  apply List.mem_range.mp
  apply h.mem_iff.mp
  exact List.mem_map_of_mem (List.mem_range.mpr hi)

theorem inj (h : IsPermutation n table) {i i' : Nat} (hi : i < n) (hi' : i' < n)
    (hSame : table i = table i') : i = i' := by
  have hNodup : ((List.range n).map table).Nodup := h.nodup_iff.mpr List.nodup_range
  exact List.inj_on_of_nodup_map hNodup (List.mem_range.mpr hi) (List.mem_range.mpr hi') hSame

theorem exists_eq (h : IsPermutation n table) {k : Nat} (hk : k < n) : ∃ i < n, table i = k := by
  obtain ⟨i, hi, hSame⟩ := List.mem_map.mp (h.mem_iff.mpr (List.mem_range.mpr hk))
  exact ⟨i, List.mem_range.mp hi, hSame⟩

end IsPermutation

section

variable {α : Type*} {gen : GenerationType} {rows cols : Nat} {table : Nat → Nat}

theorem mem_elements {element : Nat × Nat} : element ∈ gen.elements rows cols ↔
    element.1 < gen.vectors rows cols ∧ element.2 < gen.vectorSize rows cols :=
  mem_cells

theorem matrixCopy_of_lt (matrix heap : Nat → α) {a : Nat} (ha : a < rows * cols) :
    matrixCopy rows cols matrix heap a = matrix a := by
  apply foldl_update_of_exists id
  · exact ⟨a, List.mem_range.mpr ha, rfl⟩
  · rintro _ - rfl
    rfl

theorem organizeMatrix_index (h : IsPermutation (gen.vectors rows cols) table)
    (heap matrix : Nat → α) {i j : Nat} (hi : i < gen.vectors rows cols)
    (hj : j < gen.vectorSize rows cols) :
    organizeMatrix gen rows cols table heap matrix (gen.index cols i j) =
      matrix (gen.index cols (table i) j) := by
  apply foldl_update_of_exists fun element : Nat × Nat => gen.index cols element.1 element.2
  · exact ⟨(i, j), mem_elements.mpr ⟨hi, hj⟩, rfl⟩
  · rintro ⟨i', j'⟩ hElement hSame
    obtain ⟨hi', hj'⟩ := mem_elements.mp hElement
    obtain ⟨rfl, rfl⟩ := GenerationType.index_inj hi' hj' hi hj hSame
    exact matrixCopy_of_lt _ _ (GenerationType.index_lt (h.lt hi) hj)

theorem organizeMatrix_of_ge (heap matrix : Nat → α) {a : Nat} (ha : rows * cols ≤ a) :
    organizeMatrix gen rows cols table heap matrix a = matrix a := by
  apply foldl_update_of_forall_ne fun element : Nat × Nat => gen.index cols element.1 element.2
  intro element hElement hSame
  have hLess := GenerationType.index_lt (mem_elements.mp hElement).1 (mem_elements.mp hElement).2
  omega

theorem organizeMatrixBack_index (h : IsPermutation (gen.vectors rows cols) table)
    (heap matrix : Nat → α) {i j : Nat} (hi : i < gen.vectors rows cols)
    (hj : j < gen.vectorSize rows cols) :
    organizeMatrixBack gen rows cols table heap matrix (gen.index cols (table i) j) =
      matrix (gen.index cols i j) := by
  apply foldl_update_of_exists fun element : Nat × Nat =>
    gen.index cols (table element.1) element.2
  · exact ⟨(i, j), mem_elements.mpr ⟨hi, hj⟩, rfl⟩
  · rintro ⟨i', j'⟩ hElement hSame
    obtain ⟨hi', hj'⟩ := mem_elements.mp hElement
    obtain ⟨hTable, rfl⟩ := GenerationType.index_inj (h.lt hi') hj' (h.lt hi) hj hSame
    obtain rfl := h.inj hi' hi hTable
    exact matrixCopy_of_lt _ _ (GenerationType.index_lt hi hj)

theorem organizeMatrixBack_of_ge (h : IsPermutation (gen.vectors rows cols) table)
    (heap matrix : Nat → α) {a : Nat} (ha : rows * cols ≤ a) :
    organizeMatrixBack gen rows cols table heap matrix a = matrix a := by
  apply foldl_update_of_forall_ne fun element : Nat × Nat =>
    gen.index cols (table element.1) element.2
  intro element hElement hSame
  obtain ⟨hi, hj⟩ := mem_elements.mp hElement
  have hLess := GenerationType.index_lt (h.lt hi) hj
  omega

/-- Two arrays that agree on the elements of a matrix and behind it are equal. -/
theorem ext_index (gen : GenerationType) {matrix matrix' : Nat → α}
    (hInside : ∀ i < gen.vectors rows cols, ∀ j < gen.vectorSize rows cols,
      matrix (gen.index cols i j) = matrix' (gen.index cols i j))
    (hOutside : ∀ a, rows * cols ≤ a → matrix a = matrix' a) : matrix = matrix' := by
  funext a
  rcases Nat.lt_or_ge a (rows * cols) with hLess | hMore
  · obtain ⟨i, hi, j, hj, rfl⟩ := gen.exists_index hLess
    exact hInside i hi j hj
  · exact hOutside a hMore

/-- The same where the table names the vectors. -/
theorem ext_table (h : IsPermutation (gen.vectors rows cols) table) {matrix matrix' : Nat → α}
    (hInside : ∀ i < gen.vectors rows cols, ∀ j < gen.vectorSize rows cols,
      matrix (gen.index cols (table i) j) = matrix' (gen.index cols (table i) j))
    (hOutside : ∀ a, rows * cols ≤ a → matrix a = matrix' a) : matrix = matrix' := by
  apply ext_index gen _ hOutside
  intro k hk j hj
  obtain ⟨i, hi, rfl⟩ := h.exists_eq hk
  exact hInside i hi j hj

end

/-- Reordering changes no product. -/
theorem reordering_exact (α : Type*) : ReorderingExact α where
  backOfOrganize gen rows cols table h heap heap' matrix := by
    apply ext_table h
    · intro i hi j hj
      rw [organizeMatrixBack_index h _ _ hi hj, organizeMatrix_index h _ _ hi hj]
    · intro a ha
      rw [organizeMatrixBack_of_ge h _ _ ha, organizeMatrix_of_ge _ _ ha]
  organizeOfBack gen rows cols table h heap heap' matrix := by
    apply ext_index gen
    · intro i hi j hj
      rw [organizeMatrix_index h _ _ hi hj, organizeMatrixBack_index h _ _ hi hj]
    · intro a ha
      rw [organizeMatrix_of_ge _ _ ha, organizeMatrixBack_of_ge h _ _ ha]
  rowsOfProduct M N K table h mk kn output heap heap' := by
    have hOut : IsPermutation (GenerationType.genByRows.vectors M N) table := h
    have hLeft : IsPermutation (GenerationType.genByRows.vectors M K) table := h
    apply ext_table hOut
    · intro i hi j hj
      rw [organizeMatrixBack_index hOut _ _ hi hj]
      have hi : i < M := hi
      have hj : j < N := hj
      simp only [GenerationType.index]
      rw [cpuGemm_apply _ _ _ _ hi hj, cpuGemm_apply _ _ _ _ (h.lt hi) hj]
      apply Finset.sum_congr rfl
      intro k hk
      have hRow : organizeMatrix .genByRows M K table heap mk (i * K + k) = mk (table i * K + k) :=
        organizeMatrix_index hLeft heap mk hi (Finset.mem_range.mp hk)
      rw [hRow]
    · intro a ha
      rw [organizeMatrixBack_of_ge hOut _ _ ha, cpuGemm_of_ge _ _ _ _ ha, cpuGemm_of_ge _ _ _ _ ha]
  colsOfProduct M N K table h mk kn output heap heap' := by
    have hOut : IsPermutation (GenerationType.genByCols.vectors M N) table := h
    have hRight : IsPermutation (GenerationType.genByCols.vectors K N) table := h
    apply ext_table hOut
    · intro j hj i hi
      rw [organizeMatrixBack_index hOut _ _ hj hi]
      have hi : i < M := hi
      have hj : j < N := hj
      simp only [GenerationType.index]
      rw [cpuGemm_apply _ _ _ _ hi hj, cpuGemm_apply _ _ _ _ hi (h.lt hj)]
      apply Finset.sum_congr rfl
      intro k hk
      have hColumn : organizeMatrix .genByCols K N table heap kn (k * N + j) =
          kn (k * N + table j) :=
        organizeMatrix_index hRight heap kn hj (Finset.mem_range.mp hk)
      rw [hColumn]
    · intro a ha
      rw [organizeMatrixBack_of_ge hOut _ _ ha, cpuGemm_of_ge _ _ _ _ ha, cpuGemm_of_ge _ _ _ _ ha]

/-- Three rows that move in a circle: their two elements are moved and come back, and the product
with a matrix of two columns comes out in the old order. -/
theorem reordering_exact_circle :
    let table : Nat → Nat := fun i => (i + 1) % 3
    let mk : Nat → Int := fun a => a
    let kn : Nat → Int := fun a => 2 * a + 1
    let moved := organizeMatrix .genByRows 3 2 table (fun _ => 7) mk
    moved 0 = 2 ∧ moved 5 = 1 ∧
      organizeMatrixBack .genByRows 3 2 table (fun _ => 9) moved = mk ∧
      organizeMatrixBack .genByRows 3 2 table (fun _ => 9) (cpuGemm moved kn mk 3 2 2) =
        cpuGemm mk kn mk 3 2 2 ∧
      cpuGemm mk kn mk 3 2 2 4 = 29 := by
  intro table mk kn moved
  have hTable : IsPermutation 3 table := by decide
  refine ⟨by decide, by decide, ?_, ?_, by decide⟩
  · exact (reordering_exact Int).backOfOrganize .genByRows 3 2 table hTable _ _ mk
  · exact (reordering_exact Int).rowsOfProduct 3 2 2 table hTable mk kn mk _ _

end Stonne
