import Stonne.Sigma.SparseSDMemory
import Stonne.Utility.Ordering

/-!
# The planned rounds

`runSparseGEMMCommand` orders the stationary vectors, builds their bitmap and their values,
and the controller walks over these.  The ordering and the walk both fill the multipliers with
a maximal run of vectors, one with the sizes in a table and the other with the bits of a
bitmap.  A bitmap sets as many bits as the table says, so the runs are the same.
-/

namespace Stonne

open Dataflow

/-- The dataflows of `SparseSDMemory`. -/
inductive SparseDataflow where
  | mkStaKnStr
  | mkStrKnSta
  deriving DecidableEq, Repr

namespace SparseDataflow

/-- The stationary vectors are the rows of the left or the columns of the right matrix. -/
def generationType : SparseDataflow → GenerationType
  | mkStaKnStr => .genByRows
  | mkStrKnSta => .genByCols

/-- The rows of the stationary matrix. -/
def staRows (M K : Nat) : SparseDataflow → Nat
  | mkStaKnStr => M
  | mkStrKnSta => K

/-- The columns of the stationary matrix. -/
def staCols (N K : Nat) : SparseDataflow → Nat
  | mkStaKnStr => K
  | mkStrKnSta => N

/-- `SparseSDMemory::setLayer` and `setSparseMetadata`. -/
def setLayer (numMs M N K : Nat) (staMetadata : Nat → Nat) (staAddress : Nat → Int) :
    SparseDataflow → SparseMemory
  | mkStaKnStr =>
      { numMs, K, dimSta := M, dimStr := N, staDistElem := 1, staDistVector := K, staMetadata,
        staAddress }
  | mkStrKnSta =>
      { numMs, K, dimSta := N, dimStr := M, staDistElem := N, staDistVector := 1, staMetadata,
        staAddress }

theorem staIndex_setLayer (dataflow : SparseDataflow) (numMs M N K : Nat) (staMetadata : Nat → Nat)
    (staAddress : Nat → Int) (i j : Nat) :
    (dataflow.setLayer numMs M N K staMetadata staAddress).staIndex i j =
      dataflow.generationType.index (dataflow.staCols N K) i j := by
  cases dataflow with
  | mkStaKnStr => exact congrArg _ (Nat.mul_one j)
  | mkStrKnSta =>
      rw [SparseMemory.staIndex, setLayer, Nat.mul_one, Nat.add_comm]
      rfl

theorem vectorSize_eq (dataflow : SparseDataflow) (M N K : Nat) :
    dataflow.generationType.vectorSize (dataflow.staRows M K) (dataflow.staCols N K) = K := by
  cases dataflow with
  | mkStaKnStr => rfl
  | mkStrKnSta => rfl

end SparseDataflow

/-- The memory of `runSparseGEMMCommand` after the reordering; `copyHeap`, `bitHeap` and
`behind` are what was in memory. -/
def organizedMemory (dataflow : SparseDataflow) (numMs M N K : Nat) (pointerTable : Nat → Nat)
    (dense copyHeap : Nat → Int) (bitHeap : Nat → Nat) (behind : Nat → Int) : SparseMemory :=
  let gen := dataflow.generationType
  let rows := dataflow.staRows M K
  let cols := dataflow.staCols N K
  let organized := organizeMatrix gen rows cols pointerTable copyHeap dense
  let bitmap := generateBitMapFromDense gen rows cols organized bitHeap
  let sparse := generateMatrixSparseFromDense gen rows cols organized bitmap
  dataflow.setLayer numMs M N K bitmap fun a => sparse.getD a (behind a)

/-! ## The plan -/

/-- Values and their multipliers, the first of which is `dest`. -/
def placed (dest : Nat) (values : List Int) : List (Nat × Int) :=
  (values.zipIdx dest).map Prod.swap

/-- A later round of a vector that does not fit: one multiplier is in charge of the psum. -/
def foldRound (v : Nat) (chunk : List Int) : Round where
  vectors := [v]
  configurationVNs := [⟨chunk.length, true⟩]
  packages := placed 1 chunk

/-- The rounds of a vector that does not fit: the first one takes all multipliers. -/
def foldRounds (numMs v : Nat) (values : List Int) : List Round :=
  { vectors := [v]
    configurationVNs := [⟨numMs, false⟩]
    packages := placed 0 (values.take numMs) } ::
  (chunks (numMs - 1) (values.drop numMs)).map (foldRound v)

section

variable (gen : GenerationType) (rows cols : Nat) (dense : Nat → Int)

/-- The values of a vector that its bitmap marks. -/
def markedValues (v : Nat) : List Int :=
  ((List.range (gen.vectorSize rows cols)).filter fun j =>
    generateBitMapFromDense gen rows cols dense (fun _ => 0) (gen.index cols v j) ≠ 0).map fun j =>
      dense (gen.index cols v j)

/-- The round of a group of vectors. -/
def groupRound (group : List Nat) : Round where
  vectors := group
  configurationVNs := group.map fun v => ⟨clusterSize gen rows cols dense v, false⟩
  packages := placed 0 (group.flatMap (markedValues gen rows cols dense))

/-- The vectors that do not fit, in their order, and then the groups of the planner. -/
def plannedRounds (numMs : Nat) (t : OrderTable) : List Round :=
  ((((List.range (gen.vectors rows cols)).map t.pointerTable).filter fun v =>
    numMs < clusterSize gen rows cols dense v).flatMap fun v =>
      foldRounds numMs v (markedValues gen rows cols dense v)) ++
    t.groups.map (groupRound gen rows cols dense)

end

/-- The vectors of a round under their numbers before the reordering. -/
def Round.original (pointerTable : Nat → Nat) (r : Round) : Round :=
  { r with vectors := r.vectors.map pointerTable }

/-- The planner orders all vectors, and the controller executes the plan. -/
structure PlanExecuted (gen : GenerationType) (rows cols numMs : Nat) (dense : Nat → Int)
    (memory : (Nat → Nat) → SparseMemory) : Prop where
  terminates : ∀ fuel, 2 * gen.vectors rows cols ≤ fuel →
    ∃ t, calculateOrdering gen rows cols numMs dense fuel = some t
  permutation : ∀ fuel t, calculateOrdering gen rows cols numMs dense fuel = some t →
    IsPermutation (gen.vectors rows cols) t.pointerTable
  oversizeFirst : ∀ fuel t, calculateOrdering gen rows cols numMs dense fuel = some t →
    ∀ i < gen.vectors rows cols, ∀ k < gen.vectors rows cols,
      numMs < clusterSize gen rows cols dense (t.pointerTable i) →
      clusterSize gen rows cols dense (t.pointerTable k) ≤ numMs → i < k
  /-- Whenever the outputs come back, the rounds are those of the plan. -/
  rounds : ∀ fuel t, calculateOrdering gen rows cols numMs dense fuel = some t →
    0 < gen.vectors rows cols → ∀ outputs : List Nat,
      let st := (memory t.pointerTable).run outputs
      st.log.map (Round.original t.pointerTable) <+: plannedRounds gen rows cols dense numMs t ∧
        (st.executionFinished = true →
          st.log.map (Round.original t.pointerTable) = plannedRounds gen rows cols dense numMs t)
  finishes : ∀ fuel t, calculateOrdering gen rows cols numMs dense fuel = some t →
    0 < gen.vectors rows cols → 0 < (memory t.pointerTable).dimStr →
      ∃ outputs, ((memory t.pointerTable).run outputs).executionFinished = true

/-! ## The values of a round -/

theorem map_range_eq_placed {values : List Int} {address : Nat → Int} (dest : Nat)
    (h : ∀ k v, values[k]? = some v → address k = v) :
    (List.range values.length).map (fun k => (dest + k, address k)) = placed dest values := by
  apply List.ext_getElem
  · simp [placed]
  · intro k hk hk'
    simp only [List.length_map, List.length_range] at hk
    simp [placed, h k _ (List.getElem?_eq_getElem hk)]

namespace SparseMemory

variable {mem : SparseMemory} {part : Nat → List Int} {a i j m : Nat}

theorem foldl_sendCluster (matrix a m : Nat) :
    (mem.clusters a (a + m)).foldl (mem.sendCluster matrix) {} =
      { dest := load mem.size a m
        subAddress := load mem.size a m
        packages := (List.range (load mem.size a m)).map fun k =>
          (k, mem.staAddress (matrix + k)) } := by
  induction m with
  | zero => rw [clusters, Nat.add_zero, seg_self]; rfl
  | succ m ih =>
      rw [← Nat.add_assoc, clusters, seg_succ _ (Nat.le_add_right a m), List.foldl_append]
      change mem.sendCluster matrix ((mem.clusters a (a + m)).foldl _ {}) _ = _
      rw [ih, load_succ, List.range_add, List.map_append, List.map_map]
      simp [sendCluster, SparseVN.vnSize, Function.comp_def]

/-- The memory holds the values of all vectors, one vector after the other. -/
structure Stored (mem : SparseMemory) (part : Nat → List Int) : Prop where
  length : ∀ i < mem.dimSta, (part i).length = mem.size i
  address : ∀ k v, ((List.range mem.dimSta).flatMap part)[k]? = some v → mem.staAddress k = v

theorem Stored.address_of_lt (h : mem.Stored part) (hi : i < mem.dimSta) {k : Nat} {v : Int}
    (hk : (part i)[k]? = some v) : mem.staAddress (offset part i + k) = v := by
  apply h.address
  rw [getElem?_flatMap_range part hi (List.getElem?_eq_some_iff.mp hk).1, hk]

theorem Stored.offset_succ (h : mem.Stored part) (hi : i < mem.dimSta) :
    offset part (i + 1) = offset part i + mem.size i := by
  rw [Dataflow.offset_succ, h.length i hi]

/-- Where the vectors of a run are. -/
theorem Stored.offset_add (h : mem.Stored part) (hm : a + m ≤ mem.dimSta) :
    offset part (a + m) = offset part a + load mem.size a m := by
  induction m with
  | zero => rfl
  | succ m ih =>
      rw [← Nat.add_assoc, h.offset_succ (by omega), ih (by omega), load_succ, Nat.add_assoc]

theorem Stored.address_of_run (h : mem.Stored part) (hm : a + m ≤ mem.dimSta) {k : Nat} {v : Int}
    (hk : ((List.range' a m).flatMap part)[k]? = some v) :
    mem.staAddress (offset part a + k) = v := by
  apply h.address
  obtain ⟨d, hd⟩ := Nat.exists_eq_add_of_le hm
  have hSplit : List.range mem.dimSta =
      List.range a ++ (List.range' a m ++ List.range' (a + m) d) := by
    rw [List.range_eq_range', List.range_eq_range', List.range'_append_1]
    have hAppend := @List.range'_append_1 0 a (m + d)
    rw [Nat.zero_add, ← Nat.add_assoc, ← hd] at hAppend
    rw [hAppend]
  rw [hSplit, List.flatMap_append, List.flatMap_append, offset,
    List.getElem?_append_right (Nat.le_add_right _ _), Nat.add_sub_cancel_left,
    List.getElem?_append_left (List.getElem?_eq_some_iff.mp hk).1, hk]

theorem Stored.length_run (h : mem.Stored part) (hm : a + m ≤ mem.dimSta) :
    ((List.range' a m).flatMap part).length = load mem.size a m := by
  induction m with
  | zero => rfl
  | succ m ih =>
      rw [List.range'_1_concat, List.flatMap_append, List.length_append, ih (by omega),
        List.flatMap_singleton, h.length _ (by omega), load_succ]

/-! ## The walk over the vectors -/

/-- A maximal run has one round. -/
theorem roundAt_of_run (h : mem.Stored part) (hK : 0 < mem.K)
    (hSizes : ∀ i < mem.dimSta, 0 < mem.size i) (hm : 0 < m)
    (hRun : IsMaximalRun mem.numMs mem.size mem.dimSta a m) :
    mem.roundAt ⟨a, 0, offset part a⟩ =
        { vectors := List.range' a m
          configurationVNs := mem.clusters a (a + m)
          packages := placed 0 ((List.range' a m).flatMap part) } ∧
      mem.next ⟨a, 0, offset part a⟩ = ⟨a + m, 0, offset part (a + m)⟩ := by
  have hConfigure := configure_of_run hK hSizes hm hRun
  have hLength : (mem.clusters a (a + m)).length = m := by
    rw [length_clusters, Nat.add_sub_cancel_left]
  constructor
  · have hPlaced := @map_range_eq_placed ((List.range' a m).flatMap part)
      (fun k => mem.staAddress (offset part a + k)) 0 fun k v hk => h.address_of_run hRun.inside hk
    simp only [h.length_run hRun.inside, Nat.zero_add] at hPlaced
    simp only [roundAt, hConfigure, hLength, stationaryPackages, foldl_sendCluster, hPlaced]
  · simp only [next, advance, hConfigure, hLength, totalSize_clusters, if_true]
    rw [h.offset_add hRun.inside]
    split
    · rename_i hOne
      rw [hOne]
    · rfl

theorem stationaryPackages_whole (matrix n : Nat) :
    mem.stationaryPackages matrix [⟨n, false⟩] =
      (List.range n).map fun k => (k, mem.staAddress (matrix + k)) := by
  simp [stationaryPackages, sendCluster, SparseVN.vnSize]

theorem stationaryPackages_folded (matrix n : Nat) :
    mem.stationaryPackages matrix [⟨n, true⟩] =
      (List.range n).map fun k => (1 + k, mem.staAddress (matrix + k)) := by
  simp [stationaryPackages, sendCluster, SparseVN.vnSize]

/-- A later round of a vector has the next values of it. -/
theorem Stored.roundAt_folded (h : mem.Stored part) (hi : i < mem.dimSta) (table : Nat → Nat)
    {n last : Nat} (hConfigure : mem.configure i j = ⟨[⟨n, true⟩], last⟩)
    (hTaken : (((part i).drop (mem.ones i j)).take (mem.numMs - 1)).length = n) :
    (mem.roundAt ⟨i, j, offset part i + mem.ones i j⟩).original table =
      foldRound (table i) (((part i).drop (mem.ones i j)).take (mem.numMs - 1)) := by
  have hPlaced := @map_range_eq_placed (((part i).drop (mem.ones i j)).take (mem.numMs - 1))
    (fun k => mem.staAddress (offset part i + mem.ones i j + k)) 1 (by
      intro k v hk
      have hInside := (List.getElem?_eq_some_iff.mp hk).1
      rw [List.length_take] at hInside
      rw [List.getElem?_take_of_lt (by omega), List.getElem?_drop] at hk
      simp only [Nat.add_assoc]
      exact h.address_of_lt hi hk)
  rw [hTaken] at hPlaced
  simp only [Round.original, roundAt, foldRound, hConfigure, stationaryPackages_folded, hPlaced,
    hTaken]
  rfl

/-- The rest of a vector that does not fit. -/
theorem Stored.executes_folds (h : mem.Stored part) (hMs : 2 ≤ mem.numMs) (hi : i < mem.dimSta)
    (table : Nat → Nat) {rest : List Round}
    (hRest : mem.Executes ⟨i + 1, 0, offset part (i + 1)⟩ rest) (hPos : 0 < j) (hj : j < mem.K)
    (hMore : mem.ones i j < mem.size i) :
    ∃ rounds, mem.Executes ⟨i, j, offset part i + mem.ones i j⟩ (rounds ++ rest) ∧
      rounds.map (Round.original table) =
        (chunks (mem.numMs - 1) ((part i).drop (mem.ones i j))).map (foldRound (table i)) := by
  induction hLeft : mem.size i - mem.ones i j using Nat.strong_induction_on generalizing j with
  | _ left ih =>
      have hLength := h.length i hi
      have hSome : (part i).drop (mem.ones i j) ≠ [] := by
        apply List.ne_nil_of_length_pos
        rw [List.length_drop]
        omega
      rw [chunks_of_ne_nil (by omega) hSome, List.drop_drop, List.map_cons]
      obtain ⟨n, ⟨hRestOf, hFits, hConfigure⟩ |
          ⟨rfl, j', hj', hLater, hOnes, hAgain, hConfigure⟩⟩ :=
        @configure_of_folded mem i j hMs hPos hj
      · have hNone : (part i).drop (mem.ones i j + (mem.numMs - 1)) = [] :=
          List.drop_eq_nil_of_le (by omega)
        have hNext : mem.next ⟨i, j, offset part i + mem.ones i j⟩ =
            ⟨i + 1, 0, offset part (i + 1)⟩ := by
          rw [h.offset_succ hi]
          simp only [next, advance, hConfigure, List.length_singleton, if_true, totalSize_folded]
          congr 1
          omega
        refine ⟨[mem.roundAt ⟨i, j, offset part i + mem.ones i j⟩], ?_, ?_⟩
        · apply Executes.round hi
          rw [hNext]
          exact hRest
        · rw [hNone, chunks_nil (by omega), List.map_singleton, List.map_nil,
            h.roundAt_folded hi table hConfigure
              (by rw [List.length_take, List.length_drop]; omega)]
      · have hNext : mem.next ⟨i, j, offset part i + mem.ones i j⟩ =
            ⟨i, j', offset part i + mem.ones i j'⟩ := by
          simp only [next, advance, hConfigure, List.length_singleton, if_true, totalSize_folded,
            if_neg hj'.ne]
          congr 1
          omega
        obtain ⟨rounds, hRounds, hMap⟩ := ih _ (by omega) (hPos.trans hLater) hj' hAgain rfl
        refine ⟨mem.roundAt ⟨i, j, offset part i + mem.ones i j⟩ :: rounds, ?_, ?_⟩
        · apply Executes.round hi
          rw [hNext]
          exact hRounds
        · rw [List.map_cons, hMap, hOnes,
            h.roundAt_folded hi table hConfigure
              (by rw [List.length_take, List.length_drop]; omega)]

/-- The rounds of a vector that does not fit. -/
theorem Stored.executes_oversize (h : mem.Stored part) (hMs : 2 ≤ mem.numMs) (hK : 0 < mem.K)
    (hi : i < mem.dimSta) (hOver : mem.numMs < mem.size i) (table : Nat → Nat)
    {rest : List Round} (hRest : mem.Executes ⟨i + 1, 0, offset part (i + 1)⟩ rest) :
    ∃ rounds, mem.Executes ⟨i, 0, offset part i⟩ (rounds ++ rest) ∧
      rounds.map (Round.original table) = foldRounds mem.numMs (table i) (part i) := by
  obtain ⟨j, hj, hPos, hOnes, hConfigure⟩ :=
    configure_of_oversize (by omega) hK hi hOver
  obtain ⟨rounds, hRounds, hMap⟩ :=
    h.executes_folds hMs hi table hRest hPos hj (by omega)
  have hLength := h.length i hi
  have hTaken : ((part i).take mem.numMs).length = mem.numMs := by
    rw [List.length_take]
    omega
  have hPlaced := @map_range_eq_placed ((part i).take mem.numMs)
    (fun k => mem.staAddress (offset part i + k)) 0 (by
      intro k v hk
      have hInside := (List.getElem?_eq_some_iff.mp hk).1
      rw [List.length_take] at hInside
      rw [List.getElem?_take_of_lt (by omega)] at hk
      exact h.address_of_lt hi hk)
  simp only [hTaken, Nat.zero_add] at hPlaced
  refine ⟨mem.roundAt ⟨i, 0, offset part i⟩ :: rounds, ?_, ?_⟩
  · apply Executes.round hi
    have hNext : mem.next ⟨i, 0, offset part i⟩ = ⟨i, j, offset part i + mem.ones i j⟩ := by
      simp only [next, advance, hConfigure, List.length_singleton, if_true, totalSize_whole,
        if_neg hj.ne, hOnes]
    rw [hNext]
    exact hRounds
  · rw [List.map_cons, hMap, foldRounds, hOnes]
    simp only [Round.original, roundAt, hConfigure, stationaryPackages_whole, hPlaced]
    rfl

/-- The rounds of the vectors that do not fit, when they are the first `b`. -/
theorem Stored.executes_first (h : mem.Stored part) (hMs : 2 ≤ mem.numMs) (hK : 0 < mem.K)
    (table : Nat → Nat) {b : Nat} (hb : b ≤ mem.dimSta) (hOver : ∀ i < b, mem.numMs < mem.size i)
    {rest : List Round}
    (hRest : mem.Executes ⟨b, 0, offset part b⟩ rest) :
    ∃ rounds, mem.Executes {} (rounds ++ rest) ∧
      rounds.map (Round.original table) =
        (List.range b).flatMap fun i => foldRounds mem.numMs (table i) (part i) := by
  induction b generalizing rest with
  | zero => exact ⟨[], hRest, rfl⟩
  | succ b ih =>
      obtain ⟨last, hLast, hLastMap⟩ :=
        h.executes_oversize hMs hK (show b < mem.dimSta from hb) (hOver b (by omega)) table
          hRest
      obtain ⟨rounds, hRounds, hMap⟩ := ih (by omega) (fun i hi => hOver i (by omega)) hLast
      refine ⟨rounds ++ last, by rwa [List.append_assoc], ?_⟩
      rw [List.map_append, hMap, hLastMap, List.range_succ, List.flatMap_append,
        List.flatMap_singleton]

/-- The rounds of the runs behind them. -/
theorem Stored.executes_runs (h : mem.Stored part) (hK : 0 < mem.K)
    (hSizes : ∀ i < mem.dimSta, 0 < mem.size i) {table : Nat → Nat} {groups : List (List Nat)}
    {b n : Nat} (hCuts : Cuts (fun a m => 0 < m ∧ IsMaximalRun mem.numMs mem.size mem.dimSta a m)
      table b groups n) (hEnd : n = mem.dimSta) (round : List Nat → Round)
    (hRound : ∀ a m, a + m ≤ mem.dimSta → Round.original table
      { vectors := List.range' a m
        configurationVNs := mem.clusters a (a + m)
        packages := placed 0 ((List.range' a m).flatMap part) } = round (seg table a (a + m))) :
    ∃ rounds, mem.Executes ⟨b, 0, offset part b⟩ rounds ∧
      rounds.map (Round.original table) = groups.map round := by
  induction hCuts with
  | nil a => exact ⟨[], Executes.finished hEnd.ge, rfl⟩
  | @cons a m n groups hFirst hRest ih =>
      obtain ⟨rounds, hRounds, hMap⟩ := ih hEnd
      obtain ⟨hHere, hNext⟩ := roundAt_of_run h hK hSizes hFirst.1 hFirst.2
      have hInside := hFirst.2.inside
      have hPos := hFirst.1
      refine ⟨mem.roundAt ⟨a, 0, offset part a⟩ :: rounds, ?_, ?_⟩
      · apply Executes.round (show a < mem.dimSta by omega)
        rw [hNext]
        exact hRounds
      · rw [List.map_cons, List.map_cons, hMap, hHere, hRound a m hInside]

end SparseMemory

/-! ## The loaded matrix -/

/-- The stream of a matrix, vector by vector. -/
theorem sparseFromDense_eq_flatMap (gen : GenerationType) (rows cols : Nat) (dense : Nat → Int)
    (bitmap : Nat → Nat) : generateMatrixSparseFromDense gen rows cols dense bitmap =
      (List.range (gen.vectors rows cols)).flatMap fun i =>
        ((List.range (gen.vectorSize rows cols)).filter fun j =>
          bitmap (gen.index cols i j) ≠ 0).map fun j => dense (gen.index cols i j) := by
  rw [generateMatrixSparseFromDense, GenerationType.elements, cells]
  simp only [SProd.sprod, List.product, List.filter_flatMap, List.map_flatMap, List.filter_map,
    List.map_map]
  rfl

/-- A memory that holds the vectors of a matrix in the order of a table. -/
structure Loaded (mem : SparseMemory) (gen : GenerationType) (rows cols : Nat)
    (table : Nat → Nat) (dense : Nat → Int) : Prop where
  K : mem.K = gen.vectorSize rows cols
  dimSta : mem.dimSta = gen.vectors rows cols
  bit : ∀ i < gen.vectors rows cols, ∀ j < gen.vectorSize rows cols, mem.bit i j =
    decide
      (generateBitMapFromDense gen rows cols dense (fun _ => 0) (gen.index cols (table i) j) ≠ 0)
  address : ∀ k v, ((List.range (gen.vectors rows cols)).flatMap fun i =>
      markedValues gen rows cols dense (table i))[k]? = some v → mem.staAddress k = v

section

variable {gen : GenerationType} {rows cols : Nat} {table : Nat → Nat}

/-- The bits of a vector go with it. -/
theorem organized_bit (hSize : 3 ≤ gen.vectorSize rows cols)
    (hTable : IsPermutation (gen.vectors rows cols) table) (dense copyHeap : Nat → Int)
    (bitHeap : Nat → Nat) {i j : Nat} (hi : i < gen.vectors rows cols)
    (hj : j < gen.vectorSize rows cols) :
    generateBitMapFromDense gen rows cols (organizeMatrix gen rows cols table copyHeap dense)
        bitHeap (gen.index cols i j) =
      generateBitMapFromDense gen rows cols dense (fun _ => 0) (gen.index cols (table i) j) := by
  apply (bitmapCodec_of_le hSize).onlyVector _ dense bitHeap _ i hi (table i) (hTable.lt hi) _ j hj
  intro j hj
  exact organizeMatrix_index hTable copyHeap dense hi hj

/-- And so do its values. -/
theorem organized_stream (hSize : 3 ≤ gen.vectorSize rows cols)
    (hTable : IsPermutation (gen.vectors rows cols) table) (dense copyHeap : Nat → Int)
    (bitHeap : Nat → Nat) :
    let organized := organizeMatrix gen rows cols table copyHeap dense
    generateMatrixSparseFromDense gen rows cols organized
        (generateBitMapFromDense gen rows cols organized bitHeap) =
      (List.range (gen.vectors rows cols)).flatMap fun i =>
        markedValues gen rows cols dense (table i) := by
  intro organized
  rw [sparseFromDense_eq_flatMap]
  apply List.flatMap_congr
  intro i hi
  have hi := List.mem_range.mp hi
  have hMarked : (List.range (gen.vectorSize rows cols)).filter (fun j =>
      generateBitMapFromDense gen rows cols organized bitHeap (gen.index cols i j) ≠ 0) =
      (List.range (gen.vectorSize rows cols)).filter fun j =>
        generateBitMapFromDense gen rows cols dense (fun _ => 0) (gen.index cols (table i) j) ≠
          0 := by
    apply List.filter_congr
    intro j hj
    rw [organized_bit hSize hTable dense copyHeap bitHeap hi (List.mem_range.mp hj)]
  rw [markedValues, hMarked]
  apply List.map_congr_left
  intro j hj
  have hj := List.mem_range.mp (List.mem_filter.mp hj).1
  exact organizeMatrix_index hTable copyHeap dense hi hj

end

theorem loaded_organizedMemory (dataflow : SparseDataflow) {numMs M N K : Nat} (hK : 3 ≤ K)
    {table : Nat → Nat}
    (hTable : IsPermutation (dataflow.generationType.vectors (dataflow.staRows M K)
      (dataflow.staCols N K)) table) (dense copyHeap : Nat → Int) (bitHeap : Nat → Nat)
    (behind : Nat → Int) :
    Loaded (organizedMemory dataflow numMs M N K table dense copyHeap bitHeap behind)
      dataflow.generationType (dataflow.staRows M K) (dataflow.staCols N K) table dense := by
  have hSize : 3 ≤ dataflow.generationType.vectorSize (dataflow.staRows M K)
      (dataflow.staCols N K) := by
    rw [dataflow.vectorSize_eq]
    exact hK
  have hRead : ∀ (stream : List Int) {k : Nat} {v : Int}, stream[k]? = some v →
      stream.getD k (behind k) = v := by
    intro stream k v hk
    rw [List.getD_eq_getElem?_getD, hk, Option.getD_some]
  cases dataflow with
  | mkStaKnStr =>
      refine ⟨rfl, rfl, fun i hi j hj => ?_, fun k v hk => ?_⟩
      · rw [← organized_bit hSize hTable dense copyHeap bitHeap hi hj]
        simp only [organizedMemory, SparseMemory.bit, SparseDataflow.staIndex_setLayer]
        rfl
      · rw [← organized_stream hSize hTable dense copyHeap bitHeap] at hk
        exact hRead _ hk
  | mkStrKnSta =>
      refine ⟨rfl, rfl, fun i hi j hj => ?_, fun k v hk => ?_⟩
      · rw [← organized_bit hSize hTable dense copyHeap bitHeap hi hj]
        simp only [organizedMemory, SparseMemory.bit, SparseDataflow.staIndex_setLayer]
        rfl
      · rw [← organized_stream hSize hTable dense copyHeap bitHeap] at hk
        exact hRead _ hk

/-- The values of the vectors are stored one after the other. -/
theorem Loaded.stored {mem : SparseMemory} {gen : GenerationType} {rows cols : Nat}
    {table : Nat → Nat} {dense : Nat → Int} (h : Loaded mem gen rows cols table dense) :
    mem.Stored fun i => markedValues gen rows cols dense (table i) := by
  refine ⟨fun i hi => ?_, fun k v hk => h.address k v ?_⟩
  · rw [h.dimSta] at hi
    rw [markedValues, List.length_map, SparseMemory.size, SparseMemory.ones, h.K,
      List.countP_eq_length_filter]
    congr 1
    apply List.filter_congr
    intro j hj
    exact (h.bit i hi j (List.mem_range.mp hj)).symm
  · rw [← h.dimSta]
    exact hk

/-- A vector has as many bits as the planner counts multipliers for it. -/
theorem Loaded.size_eq {mem : SparseMemory} {gen : GenerationType} {rows cols : Nat}
    {table : Nat → Nat} {dense : Nat → Int} (h : Loaded mem gen rows cols table dense)
    (hSize : 3 ≤ gen.vectorSize rows cols) (hTable : IsPermutation (gen.vectors rows cols) table)
    {i : Nat} (hi : i < gen.vectors rows cols) :
    mem.size i = clusterSize gen rows cols dense (table i) := by
  have hCodec := bitmapCodec_of_le hSize
  have hCount : mem.size i = (List.range (gen.vectorSize rows cols)).countP fun j =>
      generateBitMapFromDense gen rows cols dense (fun _ => 0) (gen.index cols (table i) j) ≠
        0 := by
    rw [SparseMemory.size, SparseMemory.ones, h.K]
    apply List.countP_congr
    intro j hj
    rw [h.bit i hi j (List.mem_range.mp hj)]
  rw [hCount, clusterSize]
  split
  · rename_i hLess
    rw [hCodec.paddedBits dense (fun _ => 0) _ (hTable.lt hi) hLess, Nat.min_eq_left hSize]
  · rename_i hMore
    apply List.countP_congr
    intro j hj
    rw [hCodec.exactBits dense (fun _ => 0) _ (hTable.lt hi) (Nat.le_of_not_lt hMore) j
      (List.mem_range.mp hj)]
    simp

/-! ## The execution of the plan -/

section

variable {mem : SparseMemory} {gen : GenerationType} {rows cols numMs : Nat} {dense : Nat → Int}
  {t : OrderTable} {b : Nat}

/-- The vectors that do not fit are the first `b`. -/
theorem Ordered.filter_oversize (h : Ordered gen rows cols numMs dense b t) :
    (((List.range (gen.vectors rows cols)).map t.pointerTable).filter fun v =>
      numMs < clusterSize gen rows cols dense v) = (List.range b).map t.pointerTable := by
  obtain ⟨d, hd⟩ := Nat.exists_eq_add_of_le h.inside
  have hSize : ∀ i, clusterSize gen rows cols dense (t.pointerTable i) = t.sizeRows i := by
    intro i
    rw [h.sizes]
    rfl
  have hFirst : ((List.range b).map t.pointerTable).filter (fun v =>
      numMs < clusterSize gen rows cols dense v) = (List.range b).map t.pointerTable := by
    apply List.filter_eq_self.mpr
    intro v hv
    obtain ⟨i, hi, rfl⟩ := List.mem_map.mp hv
    rw [hSize]
    exact decide_eq_true (h.oversize i (List.mem_range.mp hi))
  have hOthers : (((List.range d).map fun k => b + k).map t.pointerTable).filter (fun v =>
      numMs < clusterSize gen rows cols dense v) = [] := by
    apply List.filter_eq_nil_iff.mpr
    intro v hv
    obtain ⟨i, hi, rfl⟩ := List.mem_map.mp hv
    obtain ⟨k, hk, rfl⟩ := List.mem_map.mp hi
    have hk := List.mem_range.mp hk
    have hSmall := h.small (b + k) (by omega) (by omega)
    rw [hSize, decide_eq_true_eq]
    omega
  rw [hd, List.range_add, List.map_append, List.filter_append, hFirst, hOthers, List.append_nil]

/-- The walk over a memory that is loaded in the order of the planner. -/
theorem Ordered.executes (h : Ordered gen rows cols numMs dense b t)
    (hMem : Loaded mem gen rows cols t.pointerTable dense) (hMs : 2 ≤ numMs)
    (hNum : mem.numMs = numMs) (hSize : 3 ≤ gen.vectorSize rows cols) :
    ∃ rounds, mem.Executes {} rounds ∧
      rounds.map (Round.original t.pointerTable) = plannedRounds gen rows cols dense numMs t := by
  obtain rfl := hNum
  have hSizes : ∀ i < mem.dimSta, mem.size i = t.sizeRows i := by
    intro i hi
    rw [hMem.dimSta] at hi
    rw [hMem.size_eq hSize h.permutation hi, h.sizes]
    rfl
  have hK : 0 < mem.K := by
    rw [hMem.K]
    omega
  have hPos : ∀ i < mem.dimSta, 0 < mem.size i := by
    intro i hi
    rw [hSizes i hi, h.sizes, Function.comp_apply, clusterSize]
    split
    · exact Nat.succ_pos 2
    · omega
  have hInside := h.inside
  rw [← hMem.dimSta] at hInside
  have hRuns : Cuts (fun a m => 0 < m ∧ IsMaximalRun mem.numMs mem.size mem.dimSta a m)
      t.pointerTable b t.groups (gen.vectors rows cols) := by
    apply h.groups.imp fun k _ => rfl
    rintro a m hEnd ⟨hm, hRun⟩
    rw [← hMem.dimSta] at hEnd hRun
    have hLoad : ∀ m, a + m ≤ mem.dimSta → load mem.size a m = load t.sizeRows a m := fun m hm =>
      load_congr fun k _ hk => hSizes k (by omega)
    refine ⟨hm, hRun.inside, ?_, fun hMore => ?_⟩
    · rw [hLoad m hEnd]
      exact hRun.fits
    · rw [hLoad (m + 1) hMore]
      exact hRun.full hMore
  obtain ⟨groups, hGroups, hGroupsMap⟩ := hMem.stored.executes_runs hK hPos hRuns hMem.dimSta.symm
    (groupRound gen rows cols dense) (by
      intro a m hm
      have hVectors : seg t.pointerTable a (a + m) = (List.range' a m).map t.pointerTable := by
        rw [seg, Nat.add_sub_cancel_left]
      have hClusters : mem.clusters a (a + m) = (seg t.pointerTable a (a + m)).map fun v =>
          ⟨clusterSize gen rows cols dense v, false⟩ := by
        rw [map_seg]
        apply List.map_congr_left
        intro k hk
        have hk := List.mem_range'_1.mp hk
        rw [hSizes k (by omega), h.sizes]
        rfl
      rw [groupRound, Round.original, hClusters, hVectors, List.flatMap_map])
  obtain ⟨first, hFirst, hFirstMap⟩ := hMem.stored.executes_first hMs hK t.pointerTable hInside
    (fun i hi => by
      rw [hSizes i (by omega)]
      exact h.oversize i hi) hGroups
  refine ⟨first ++ groups, hFirst, ?_⟩
  rw [List.map_append, hFirstMap, hGroupsMap, plannedRounds, h.filter_oversize, List.flatMap_map]

end

/-- The planner's groups are the rounds of the controller, for both dataflows. -/
theorem planExecuted (dataflow : SparseDataflow) {numMs M N K : Nat} (hMs : 2 ≤ numMs) (hK : 3 ≤ K)
    (dense copyHeap : Nat → Int) (bitHeap : Nat → Nat) (behind : Nat → Int) :
    PlanExecuted dataflow.generationType (dataflow.staRows M K) (dataflow.staCols N K) numMs dense
      fun table => organizedMemory dataflow numMs M N K table dense copyHeap bitHeap behind := by
  have hSize : 3 ≤ dataflow.generationType.vectorSize (dataflow.staRows M K)
      (dataflow.staCols N K) := by
    rw [dataflow.vectorSize_eq]
    exact hK
  have hNum : ∀ table, (organizedMemory dataflow numMs M N K table dense copyHeap bitHeap
      behind).numMs = numMs := by
    intro table
    cases dataflow with
    | mkStaKnStr => rfl
    | mkStrKnSta => rfl
  have hRounds : ∀ fuel t, calculateOrdering dataflow.generationType (dataflow.staRows M K)
      (dataflow.staCols N K) numMs dense fuel = some t →
      (organizedMemory dataflow numMs M N K t.pointerTable dense copyHeap bitHeap behind).dimSta =
          dataflow.generationType.vectors (dataflow.staRows M K) (dataflow.staCols N K) ∧
        ∃ rounds, (organizedMemory dataflow numMs M N K t.pointerTable dense copyHeap bitHeap
            behind).Executes {} rounds ∧
          rounds.map (Round.original t.pointerTable) = plannedRounds dataflow.generationType
            (dataflow.staRows M K) (dataflow.staCols N K) dense numMs t := by
    intro fuel t ht
    obtain ⟨b, hOrdered⟩ := ordered_of_calculateOrdering ht
    have hMem := @loaded_organizedMemory dataflow numMs M N K hK _ hOrdered.permutation dense
      copyHeap bitHeap behind
    exact ⟨hMem.dimSta, hOrdered.executes hMem hMs (hNum _) hSize⟩
  refine ⟨fun fuel hFuel => exists_calculateOrdering _ _ _ _ _ hFuel, fun fuel t ht => ?_,
    fun fuel t ht i hi k hk hOver hSmall => ?_, fun fuel t ht hPos outputs => ?_,
    fun fuel t ht hPos hStr => ?_⟩
  · obtain ⟨b, hOrdered⟩ := ordered_of_calculateOrdering ht
    exact hOrdered.permutation
  · obtain ⟨b, hOrdered⟩ := ordered_of_calculateOrdering ht
    have hi : i < b := by
      by_contra hMore
      have hFits := hOrdered.small i (Nat.le_of_not_lt hMore) hi
      rw [hOrdered.sizes, Function.comp_apply] at hFits
      omega
    by_contra hMore
    have hNot := hOrdered.oversize k (by omega)
    rw [hOrdered.sizes, Function.comp_apply] at hNot
    omega
  · obtain ⟨hDim, rounds, hExecutes, hMap⟩ := hRounds fuel t ht
    have hFollows := SparseMemory.follows_run (hDim ▸ hPos) hExecutes outputs
    refine ⟨?_, fun hFinished => ?_⟩
    · rw [← hMap]
      exact hFollows.log_begins.map _
    · rw [← hMap, hFollows.finished (hFollows.running hFinished)]
  · obtain ⟨hDim, rounds, hExecutes, -⟩ := hRounds fuel t ht
    exact SparseMemory.exists_finished (hDim ▸ hPos) hStr hExecutes

/-- A matrix of five rows, the second of which does not fit. -/
theorem planExecuted_five_rows :
    PlanExecuted .genByRows 5 9 8 (fun a => if a % 9 < [3, 9, 4, 3, 5].getD (a / 9) 0 then 1 else 0)
      fun table => organizedMemory .mkStaKnStr 8 5 2 9 table
        (fun a => if a % 9 < [3, 9, 4, 3, 5].getD (a / 9) 0 then 1 else 0) (fun _ => 0) (fun _ => 0)
        fun _ => 0 :=
  planExecuted .mkStaKnStr (by decide) (by decide) _ _ _ _

/-- Its four rounds, with the outputs of a round after all of it is distributed. -/
example :
    let dense : Nat → Int := fun a => if a % 9 < [3, 9, 4, 3, 5].getD (a / 9) 0 then 1 else 0
    let table := fun i => [1, 4, 3, 2, 0].getD i 0
    let st := (organizedMemory .mkStaKnStr 8 5 2 9 table dense (fun _ => 0) (fun _ => 0)
      fun _ => 0).run [0, 0, 0, 0, 2, 0, 0, 0, 0, 2, 0, 0, 0, 0, 4, 0, 0, 0, 0, 4]
    (st.executionFinished, st.log.map fun r => (r.original table).vectors) =
      (true, [[1], [1], [4, 3], [2, 0]]) := by
  decide +kernel

end Stonne
