import Stonne.Lib.Packing
import Stonne.Lib.While
import Stonne.Utility.Bitmap

/-!
# The order of the stationary vectors

`calculateOrdering` swaps the vectors that do not fit into the multipliers to the front and
then chooses, again and again, the greatest vector that still fits.  When none does it starts
with an empty array again: every other vector fits into that, so the loop ends, and the
vectors between two such resets are a maximal run of the new order.
-/

namespace Stonne

open Dataflow

section

variable (gen : GenerationType) (rows cols : Nat)

/-- `size_rows` of a vector, the minimum cluster size is three. -/
def clusterSize (matrix : Nat → Int) (i : Nat) : Nat :=
  let size := nonZeros (fun j => matrix (gen.index cols i j)) (gen.vectorSize rows cols)
  if size < 3 then 3 else size

end

/-- The exchange of two entries through `temp`. -/
def swapEntries {α : Type*} (table : Nat → α) (i n : Nat) : Nat → α :=
  Function.update (Function.update table i (table n)) n (table i)

/-- The tables of `calculateOrdering` and its counters. -/
structure OrderTable where
  sizeRows : Nat → Nat
  pointerTable : Nat → Nat := id
  nRowsSelected : Nat := 0
  nMsUsed : Nat := 0
  /-- The vectors chosen since the last reset of `nMsUsed`. -/
  chosen : List Nat := []
  /-- Those chosen before, a list for each reset. -/
  closed : List (List Nat) := []

namespace OrderTable

/-- The vector at position `i` is the next one. -/
def select (t : OrderTable) (i : Nat) : OrderTable :=
  { t with
    sizeRows := swapEntries t.sizeRows i t.nRowsSelected
    pointerTable := swapEntries t.pointerTable i t.nRowsSelected
    nRowsSelected := t.nRowsSelected + 1 }

variable (numMs dim : Nat)

/-- The loop over the vectors that do not fit. -/
def selectOversize (t : OrderTable) (n : Nat) : OrderTable :=
  (List.range n).foldl (fun t i => if numMs < t.sizeRows i then t.select i else t) t

/-- A round of the search for `greater_row`. -/
def compareRow (t : OrderTable) (greaterRow : Option Nat) (i : Nat) : Option Nat :=
  if t.sizeRows i + t.nMsUsed ≤ numMs then
    match greaterRow with
    | none => some i
    | some g => if t.sizeRows g < t.sizeRows i then some i else some g
  else greaterRow

def greaterRow (t : OrderTable) : Option Nat :=
  (List.range' t.nRowsSelected (dim - t.nRowsSelected)).foldl (t.compareRow numMs) none

/-- A round of the while loop. -/
def chooseRow (t : OrderTable) : OrderTable :=
  match t.greaterRow numMs dim with
  | some g =>
      { t.select g with
        nMsUsed := t.nMsUsed + t.sizeRows g
        chosen := t.chosen ++ [t.pointerTable g] }
  | none => { t with nMsUsed := 0, chosen := [], closed := t.closed ++ [t.chosen] }

/-- The groups of vectors between two resets. -/
def groups (t : OrderTable) : List (List Nat) :=
  t.closed ++ if t.chosen = [] then [] else [t.chosen]

end OrderTable

/-- `calculateOrdering`, with at most `fuel` rounds of its while loop. -/
def calculateOrdering (gen : GenerationType) (rows cols numMs : Nat) (matrix : Nat → Int)
    (fuel : Nat) : Option OrderTable :=
  let dim := gen.vectors rows cols
  let t : OrderTable := { sizeRows := clusterSize gen rows cols matrix }
  whileLoop (fun t => t.nRowsSelected < dim) (OrderTable.chooseRow numMs dim) fuel
    (t.selectOversize numMs dim)

/-- The order of the vectors, of which the first `b` do not fit. -/
structure Ordered (gen : GenerationType) (rows cols numMs : Nat) (matrix : Nat → Int) (b : Nat)
    (t : OrderTable) : Prop where
  permutation : IsPermutation (gen.vectors rows cols) t.pointerTable
  sizes : t.sizeRows = clusterSize gen rows cols matrix ∘ t.pointerTable
  inside : b ≤ gen.vectors rows cols
  oversize : ∀ i < b, numMs < t.sizeRows i
  small : ∀ i, b ≤ i → i < gen.vectors rows cols → t.sizeRows i ≤ numMs
  /-- The groups are the maximal runs of the other vectors. -/
  groups : Cuts (fun a m => 0 < m ∧ IsMaximalRun numMs t.sizeRows (gen.vectors rows cols) a m)
    t.pointerTable b t.groups (gen.vectors rows cols)

/-! ## Exchanges -/

section

variable {α β : Type*} {table : Nat → α} {i k n dim : Nat}

theorem swapEntries_right : swapEntries table i n n = table i :=
  Function.update_self ..

theorem swapEntries_left : swapEntries table i n i = table n := by
  rcases eq_or_ne i n with rfl | hOther
  · exact swapEntries_right
  · rw [swapEntries, Function.update_of_ne hOther, Function.update_self]

theorem swapEntries_of_ne (hi : k ≠ i) (hn : k ≠ n) : swapEntries table i n k = table k := by
  rw [swapEntries, Function.update_of_ne hn, Function.update_of_ne hi]

theorem swapEntries_eq_comp (table : Nat → α) (i n : Nat) :
    swapEntries table i n = table ∘ Equiv.swap i n := by
  funext k
  rw [Function.comp_apply]
  rcases eq_or_ne k i with rfl | hi
  · rw [swapEntries_left, Equiv.swap_apply_left]
  · rcases eq_or_ne k n with rfl | hn
    · rw [swapEntries_right, Equiv.swap_apply_right]
    · rw [swapEntries_of_ne hi hn, Equiv.swap_apply_of_ne_of_ne hi hn]

theorem swapEntries_comp (size : β → α) (table : Nat → β) (i n : Nat) :
    swapEntries (size ∘ table) i n = size ∘ swapEntries table i n := by
  rw [swapEntries_eq_comp, swapEntries_eq_comp, Function.comp_assoc]

theorem isPermutation_swap (hi : i < dim) (hn : n < dim) :
    IsPermutation dim (Equiv.swap i n) := by
  have hInside : ∀ k < dim, Equiv.swap i n k < dim := by
    intro k hk
    rw [Equiv.swap_apply_def]
    split
    · exact hn
    · split
      · exact hi
      · exact hk
  apply (List.perm_ext_iff_of_nodup (List.nodup_range.map (Equiv.injective _)) List.nodup_range).mpr
  intro k
  rw [List.mem_map, List.mem_range]
  constructor
  · rintro ⟨l, hl, rfl⟩
    exact hInside l (List.mem_range.mp hl)
  · intro hk
    exact ⟨Equiv.swap i n k, List.mem_range.mpr (hInside k hk), Equiv.swap_apply_self i n k⟩

theorem IsPermutation.swapEntries {table : Nat → Nat} (h : IsPermutation dim table) (hi : i < dim)
    (hn : n < dim) : IsPermutation dim (swapEntries table i n) := by
  have hSwapped : ((List.range dim).map (Equiv.swap i n)).Perm (List.range dim) :=
    isPermutation_swap hi hn
  rw [IsPermutation, swapEntries_eq_comp, ← List.map_map]
  exact (hSwapped.map table).trans h

end

namespace OrderTable

section

variable {numMs dim b : Nat} {size : Nat → Nat} {t : OrderTable}

/-- The two tables belong together. -/
structure Tables (dim : Nat) (size : Nat → Nat) (t : OrderTable) : Prop where
  permutation : IsPermutation dim t.pointerTable
  sizes : t.sizeRows = size ∘ t.pointerTable

theorem Tables.select (h : Tables dim size t) {i : Nat} (hi : i < dim)
    (hSelected : t.nRowsSelected < dim) : Tables dim size (t.select i) where
  permutation := h.permutation.swapEntries hi hSelected
  sizes := by
    simp only [OrderTable.select, h.sizes]
    exact swapEntries_comp size t.pointerTable i t.nRowsSelected

/-! ## The vectors that do not fit -/

/-- The first rounds of the loop over the vectors that do not fit. -/
structure Oversize (numMs dim : Nat) (size : Nat → Nat) (m : Nat) (t : OrderTable) : Prop where
  tables : Tables dim size t
  selected : t.nRowsSelected ≤ m
  oversize : ∀ i < t.nRowsSelected, numMs < t.sizeRows i
  small : ∀ i, t.nRowsSelected ≤ i → i < m → t.sizeRows i ≤ numMs
  unused : t.nMsUsed = 0 ∧ t.chosen = [] ∧ t.closed = []

theorem Oversize.next {m : Nat} (h : Oversize numMs dim size m t) (hm : m < dim) :
    Oversize numMs dim size (m + 1) (if numMs < t.sizeRows m then t.select m else t) := by
  have hSelected := h.selected
  split
  · rename_i hMore
    refine ⟨h.tables.select hm (by omega), ?_, fun i hi => ?_, fun i hi hm => ?_, h.unused⟩
    · simp only [OrderTable.select]
      omega
    · simp only [OrderTable.select] at hi ⊢
      rcases Nat.lt_succ_iff_lt_or_eq.mp hi with hBefore | rfl
      · rw [swapEntries_of_ne (by omega) (by omega)]
        exact h.oversize i hBefore
      · rw [swapEntries_right]
        exact hMore
    · simp only [OrderTable.select] at hi ⊢
      rcases eq_or_ne i m with rfl | hOther
      · rw [swapEntries_left]
        exact h.small _ le_rfl (by omega)
      · rw [swapEntries_of_ne hOther (by omega)]
        exact h.small i (by omega) (by omega)
  · rename_i hLess
    refine ⟨h.tables, by omega, h.oversize, fun i hi hm => ?_, h.unused⟩
    rcases Nat.lt_succ_iff_lt_or_eq.mp hm with hBefore | rfl
    · exact h.small i hi hBefore
    · exact Nat.le_of_not_lt hLess

theorem oversize_selectOversize (h : Oversize numMs dim size 0 t) {m : Nat} (hm : m ≤ dim) :
    Oversize numMs dim size m (t.selectOversize numMs m) := by
  induction m with
  | zero => exact h
  | succ m ih =>
      rw [selectOversize, List.range_succ, List.foldl_append, List.foldl_cons, List.foldl_nil]
      exact (ih (by omega)).next hm

/-! ## The search -/

/-- The best position among `positions`. -/
structure Best (numMs : Nat) (t : OrderTable) (positions : List Nat) (found : Option Nat) :
    Prop where
  fits : ∀ g, found = some g → g ∈ positions ∧ t.sizeRows g + t.nMsUsed ≤ numMs
  none : found = none → ∀ i ∈ positions, numMs < t.sizeRows i + t.nMsUsed

theorem Best.next {positions : List Nat} {found : Option Nat} (h : Best numMs t positions found)
    (i : Nat) : Best numMs t (positions ++ [i]) (t.compareRow numMs found i) := by
  have hMore : ∀ g ∈ positions, g ∈ positions ++ [i] := fun g hg =>
    List.mem_append_left [i] hg
  have hLast : i ∈ positions ++ [i] := List.mem_append_right positions List.mem_cons_self
  unfold compareRow
  split
  · rename_i hFits
    cases found with
    | none =>
        refine ⟨fun g hg => ?_, fun hNone => by cases hNone⟩
        obtain rfl := Option.some.inj hg
        exact ⟨hLast, hFits⟩
    | some k =>
        obtain ⟨hMem, hOld⟩ := h.fits k rfl
        refine ⟨fun g hg => ?_, fun hNone => ?_⟩
        · simp only at hg
          split at hg
          · obtain rfl := Option.some.inj hg
            exact ⟨hLast, hFits⟩
          · obtain rfl := Option.some.inj hg
            exact ⟨hMore _ hMem, hOld⟩
        · simp only at hNone
          split at hNone
          · cases hNone
          · cases hNone
  · rename_i hLess
    refine ⟨fun g hg => ?_, fun hNone k hk => ?_⟩
    · obtain ⟨hMem, hFits⟩ := h.fits g hg
      exact ⟨hMore g hMem, hFits⟩
    · rcases List.mem_append.mp hk with hBefore | hHere
      · exact h.none hNone k hBefore
      · rw [List.mem_singleton.mp hHere]
        exact Nat.lt_of_not_le hLess

theorem best_greaterRow (t : OrderTable) :
    Best numMs t (List.range' t.nRowsSelected (dim - t.nRowsSelected))
      (t.greaterRow numMs dim) := by
  rw [greaterRow]
  induction List.range' t.nRowsSelected (dim - t.nRowsSelected) using List.reverseRecOn with
  | nil => exact ⟨fun g hg => (by cases hg), fun _ i hi => (by cases hi)⟩
  | append_singleton positions i ih =>
      rw [List.foldl_append, List.foldl_cons, List.foldl_nil]
      exact ih.next i

/-- What a round of the while loop does. -/
theorem chooseRow_cases (numMs dim : Nat) (t : OrderTable) :
    (∃ g, t.nRowsSelected ≤ g ∧ g < dim ∧ t.sizeRows g + t.nMsUsed ≤ numMs ∧
      t.chooseRow numMs dim =
        { t.select g with
          nMsUsed := t.nMsUsed + t.sizeRows g
          chosen := t.chosen ++ [t.pointerTable g] }) ∨
    ((∀ i, t.nRowsSelected ≤ i → i < dim → numMs < t.sizeRows i + t.nMsUsed) ∧
      t.chooseRow numMs dim =
        { t with nMsUsed := 0, chosen := [], closed := t.closed ++ [t.chosen] }) := by
  have hBest := @best_greaterRow numMs dim t
  unfold chooseRow
  cases hFound : t.greaterRow numMs dim with
  | some g =>
      obtain ⟨hMem, hFits⟩ := hBest.fits g hFound
      have hMem := List.mem_range'_1.mp hMem
      exact Or.inl ⟨g, hMem.1, by omega, hFits, rfl⟩
  | none =>
      refine Or.inr ⟨fun i hi hDim => ?_, rfl⟩
      exact hBest.none hFound i (List.mem_range'_1.mpr ⟨hi, by omega⟩)

/-! ## The groups -/

/-- The run of `m` vectors at `a` fits, and with no later vector. -/
structure Closed (numMs dim : Nat) (sizeRows : Nat → Nat) (a m : Nat) : Prop where
  pos : 0 < m
  fits : load sizeRows a m ≤ numMs
  full : ∀ i, a + m ≤ i → i < dim → numMs < load sizeRows a m + sizeRows i

/-- What holds in every round of the while loop. -/
structure Planned (numMs dim : Nat) (size : Nat → Nat) (b : Nat) (t : OrderTable) : Prop where
  tables : Tables dim size t
  selected : t.nRowsSelected ≤ dim
  oversize : ∀ i < b, numMs < t.sizeRows i
  small : ∀ i, b ≤ i → i < dim → t.sizeRows i ≤ numMs
  fits : t.nMsUsed ≤ numMs
  /-- The closed groups, and the open one behind them. -/
  runs : ∃ c ≤ t.nRowsSelected, Cuts (Closed numMs dim t.sizeRows) t.pointerTable b t.closed c ∧
    t.chosen = seg t.pointerTable c t.nRowsSelected ∧
    t.nMsUsed = load t.sizeRows c (t.nRowsSelected - c)

theorem Oversize.planned (h : Oversize numMs dim size dim t) :
    Planned numMs dim size t.nRowsSelected t := by
  obtain ⟨hUsed, hChosen, hClosed⟩ := h.unused
  refine ⟨h.tables, h.selected, h.oversize, h.small, by omega, t.nRowsSelected, le_rfl, ?_, ?_, ?_⟩
  · rw [hClosed]
    exact Cuts.nil _
  · rw [hChosen, seg_self]
  · rw [hUsed, Nat.sub_self, load_zero]

/-- The next vector of the open group. -/
theorem Planned.select (h : Planned numMs dim size b t) {g : Nat} (hg : t.nRowsSelected ≤ g)
    (hDim : g < dim) (hFits : t.sizeRows g + t.nMsUsed ≤ numMs) :
    Planned numMs dim size b { t.select g with
      nMsUsed := t.nMsUsed + t.sizeRows g
      chosen := t.chosen ++ [t.pointerTable g] } := by
  obtain ⟨c, hc, hClosed, hChosen, hUsed⟩ := h.runs
  have hb := hClosed.le
  have hBefore : ∀ {α : Type} (table : Nat → α), ∀ k < t.nRowsSelected,
      table k = swapEntries table g t.nRowsSelected k := by
    intro α table k hk
    exact (swapEntries_of_ne (by omega) (by omega)).symm
  have hTables := h.tables.select hDim (show t.nRowsSelected < dim by omega)
  refine ⟨⟨hTables.permutation, hTables.sizes⟩, by simp only [OrderTable.select]; omega,
    fun i hi => ?_, fun i hi hLess => ?_, by simp only; omega, c, ?_, ?_, ?_, ?_⟩
  · simp only [OrderTable.select]
    rw [← hBefore _ i (by omega)]
    exact h.oversize i hi
  · simp only [OrderTable.select]
    rcases eq_or_ne i t.nRowsSelected with rfl | hOther
    · rw [swapEntries_right]
      exact h.small g (by omega) hDim
    · rcases eq_or_ne i g with rfl | hFound
      · rw [swapEntries_left]
        exact h.small _ (by omega) (by omega)
      · rw [swapEntries_of_ne hFound hOther]
        exact h.small i hi hLess
  · simp only [OrderTable.select]
    omega
  · simp only [OrderTable.select]
    apply hClosed.imp fun k hk => hBefore _ k (by omega)
    intro a m hEnd hRun
    have hLoad : load (swapEntries t.sizeRows g t.nRowsSelected) a m = load t.sizeRows a m :=
      load_congr fun k _ hk => (hBefore _ k (by omega)).symm
    refine ⟨hRun.pos, hLoad ▸ hRun.fits, fun i hi hLess => ?_⟩
    rw [hLoad]
    rcases eq_or_ne i t.nRowsSelected with rfl | hOther
    · rw [swapEntries_right]
      exact hRun.full g (by omega) hDim
    · rcases eq_or_ne i g with rfl | hFound
      · rw [swapEntries_left]
        exact hRun.full _ (by omega) (by omega)
      · rw [swapEntries_of_ne hFound hOther]
        exact hRun.full i hi hLess
  · simp only [OrderTable.select]
    rw [seg_succ _ hc, swapEntries_right, hChosen]
    congr 1
    apply List.map_congr_left
    intro k hk
    have hk := List.mem_range'_1.mp hk
    exact hBefore _ k (by omega)
  · simp only [OrderTable.select]
    rw [show t.nRowsSelected + 1 - c = t.nRowsSelected - c + 1 by omega, load_succ,
      show c + (t.nRowsSelected - c) = t.nRowsSelected by omega, swapEntries_right, hUsed]
    congr 1
    exact load_congr fun k _ hk => hBefore _ k (by omega)

/-- A reset closes the open group: it is not empty, because every vector fits alone. -/
theorem Planned.reset (h : Planned numMs dim size b t) (hDim : t.nRowsSelected < dim)
    (hNone : ∀ i, t.nRowsSelected ≤ i → i < dim → numMs < t.sizeRows i + t.nMsUsed) :
    0 < t.nMsUsed ∧ Planned numMs dim size b
      { t with nMsUsed := 0, chosen := [], closed := t.closed ++ [t.chosen] } := by
  obtain ⟨c, hc, hClosed, hChosen, hUsed⟩ := h.runs
  have hb := hClosed.le
  have hNext := hNone t.nRowsSelected le_rfl hDim
  have hSmall := h.small t.nRowsSelected (by omega) hDim
  have hEnd : c + (t.nRowsSelected - c) = t.nRowsSelected := by omega
  refine ⟨by omega, ⟨h.tables.permutation, h.tables.sizes⟩, h.selected, h.oversize, h.small,
    Nat.zero_le _, t.nRowsSelected,
    le_rfl, ?_, (seg_self _ _).symm, ?_⟩
  · have hRun : Closed numMs dim t.sizeRows c (t.nRowsSelected - c) := by
      refine ⟨?_, hUsed ▸ h.fits, fun i hi hLess => ?_⟩
      · apply Nat.pos_of_ne_zero
        intro hEmpty
        rw [hEmpty, load_zero] at hUsed
        omega
      · rw [← hUsed, Nat.add_comm]
        exact hNone i (by omega) hLess
    have hCut := hClosed.snoc hRun
    rw [hEnd, ← hChosen] at hCut
    exact hCut
  · simp only [Nat.sub_self, load_zero]

theorem Planned.chooseRow (h : Planned numMs dim size b t) (hDim : t.nRowsSelected < dim) :
    Planned numMs dim size b (t.chooseRow numMs dim) := by
  rcases chooseRow_cases numMs dim t with ⟨g, hg, hLess, hFits, hRound⟩ | ⟨hNone, hRound⟩
  · rw [hRound]
    exact h.select hg hLess hFits
  · rw [hRound]
    exact (h.reset hDim hNone).2

/-- A round chooses a vector, or it is a reset and the next one chooses a vector. -/
def roundsLeft (dim : Nat) (t : OrderTable) : Nat :=
  2 * (dim - t.nRowsSelected) + if t.nMsUsed = 0 then 0 else 1

theorem Planned.roundsLeft_lt (h : Planned numMs dim size b t) (hDim : t.nRowsSelected < dim) :
    (t.chooseRow numMs dim).roundsLeft dim < t.roundsLeft dim := by
  rcases chooseRow_cases numMs dim t with ⟨g, hg, hLess, hFits, hRound⟩ | ⟨hNone, hRound⟩
  · rw [hRound, roundsLeft, roundsLeft]
    simp only [OrderTable.select]
    split
    · omega
    · omega
  · have hUsed := (h.reset hDim hNone).1
    rw [hRound, roundsLeft, roundsLeft, if_pos rfl, if_neg (by omega)]
    exact Nat.lt_succ_self _

/-- When all vectors are chosen the groups are the maximal runs behind the first `b`. -/
theorem Planned.cuts (h : Planned numMs dim size b t) (hEnd : dim ≤ t.nRowsSelected) :
    Cuts (fun a m => 0 < m ∧ IsMaximalRun numMs t.sizeRows dim a m) t.pointerTable b t.groups
      dim := by
  obtain ⟨c, hc, hClosed, hChosen, hUsed⟩ := h.runs
  have hAll : t.nRowsSelected = dim := Nat.le_antisymm h.selected hEnd
  rw [hAll] at hc hChosen hUsed
  have hBefore : Cuts (fun a m => 0 < m ∧ IsMaximalRun numMs t.sizeRows dim a m) t.pointerTable b
      t.closed c := by
    apply hClosed.imp fun k _ => rfl
    intro a m hInside hRun
    refine ⟨hRun.pos, by omega, hRun.fits, fun hMore => ?_⟩
    rw [load_succ]
    exact hRun.full _ le_rfl hMore
  rw [OrderTable.groups]
  split
  · rename_i hEmpty
    rw [hChosen, seg_eq_nil_iff] at hEmpty
    obtain rfl := Nat.le_antisymm hc hEmpty
    rw [List.append_nil]
    exact hBefore
  · rename_i hSome
    rw [hChosen, seg_eq_nil_iff] at hSome
    have hCut := hBefore.snoc (m := dim - c) ⟨by omega, by omega, hUsed ▸ h.fits, by omega⟩
    rw [show c + (dim - c) = dim by omega, ← hChosen] at hCut
    exact hCut

end

end OrderTable

/-! ## The order -/

section

variable {gen : GenerationType} {rows cols numMs : Nat} {matrix : Nat → Int}

theorem planned_selectOversize (gen : GenerationType) (rows cols numMs : Nat)
    (matrix : Nat → Int) : ∃ b,
      OrderTable.Planned numMs (gen.vectors rows cols) (clusterSize gen rows cols matrix) b
        (OrderTable.selectOversize numMs { sizeRows := clusterSize gen rows cols matrix }
          (gen.vectors rows cols)) ∧
      (OrderTable.selectOversize numMs { sizeRows := clusterSize gen rows cols matrix }
        (gen.vectors rows cols)).nMsUsed = 0 := by
  have hStart : OrderTable.Oversize numMs (gen.vectors rows cols)
      (clusterSize gen rows cols matrix) 0 { sizeRows := clusterSize gen rows cols matrix } := by
    refine ⟨⟨?_, rfl⟩, le_rfl, fun i hi => (by cases hi), fun i _ hi => (by cases hi), rfl, rfl,
      rfl⟩
    rw [IsPermutation, List.map_id]
  have hSelected := OrderTable.oversize_selectOversize hStart le_rfl
  exact ⟨_, hSelected.planned, hSelected.unused.1⟩

/-- The loop of `calculateOrdering` ends. -/
theorem exists_calculateOrdering (gen : GenerationType) (rows cols numMs : Nat)
    (matrix : Nat → Int) {fuel : Nat} (hFuel : 2 * gen.vectors rows cols ≤ fuel) :
    ∃ t, calculateOrdering gen rows cols numMs matrix fuel = some t := by
  obtain ⟨b, hPlanned, hUsed⟩ := planned_selectOversize gen rows cols numMs matrix
  apply exists_whileLoop (OrderTable.roundsLeft (gen.vectors rows cols))
    (fun t hMore (hPlanned : OrderTable.Planned _ _ _ b t) =>
      hPlanned.chooseRow (of_decide_eq_true hMore))
    (fun t hMore hPlanned => hPlanned.roundsLeft_lt (of_decide_eq_true hMore)) hPlanned
  rw [OrderTable.roundsLeft, if_pos hUsed]
  omega

/-- What `calculateOrdering` returns. -/
theorem ordered_of_calculateOrdering {fuel : Nat} {t : OrderTable}
    (h : calculateOrdering gen rows cols numMs matrix fuel = some t) :
    ∃ b, Ordered gen rows cols numMs matrix b t := by
  obtain ⟨b, hPlanned, -⟩ := planned_selectOversize gen rows cols numMs matrix
  obtain ⟨hEnd, hDone⟩ := whileLoop_invariant
    (fun t hMore (hPlanned : OrderTable.Planned _ _ _ b t) =>
      hPlanned.chooseRow (of_decide_eq_true hMore)) hPlanned h
  have hDone := Nat.le_of_not_lt (of_decide_eq_false hDone)
  refine ⟨b, hEnd.tables.permutation, hEnd.tables.sizes, ?_, hEnd.oversize, hEnd.small,
    hEnd.cuts hDone⟩
  exact (hEnd.cuts hDone).le

/-- The second of five rows does not fit, the others make two groups. -/
example : (calculateOrdering .genByRows 5 9 8
      (fun a => if a % 9 < [3, 9, 4, 3, 5].getD (a / 9) 0 then 1 else 0) 10).map
      (fun t => (t.groups, (List.range 5).map t.pointerTable)) =
    some ([[4, 3], [2, 0]], [1, 4, 3, 2, 0]) := by
  decide +kernel

end

end Stonne
