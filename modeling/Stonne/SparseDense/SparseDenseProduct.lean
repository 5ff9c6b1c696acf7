import Stonne.Lib.Streams
import Stonne.SparseDense.SparseDenseSDMemory

/-!
# The sparse-dense product

The `j`-th multiplier of a neuron holds, in fold `k`, the entry `k * T_K + j` of the row, and is
sent the elements of the columns of its neuron that this entry selects.  So the folds of an output
add up to the product of the row and the column.  The outputs of a neuron come in the order of the
rows and of its columns, and every package is written to the address of its own output.
-/

namespace Stonne

open Dataflow

namespace SparseDenseMemory

variable (layer : SparseDenseMemory)

/-- A layer on which the controller works: the multipliers take the tile, the tree has a place for
every neuron, and the numbers and addresses fit 32 bits. -/
structure Ready (layer : SparseDenseMemory) : Prop where
  numMs : layer.tN * layer.tK ≤ layer.numMs
  places : 2 ≤ layer.tK ∨ layer.tN = 1
  M : 0 < layer.M
  N : 0 < layer.N
  tN : 0 < layer.tN
  tK : 0 < layer.tK
  rows : ∀ m < layer.M, layer.mkRowPointer m < layer.mkRowPointer (m + 1)
  pointers : ∀ m ≤ layer.M, layer.mkRowPointer m < 2 ^ 32
  entries : ∀ m < layer.M, layer.nnz m + layer.tK ≤ 2 ^ 32
  inputs : ∀ m < layer.M, ∀ p < layer.nnz m,
    (layer.mkColId (layer.mkRowPointer m + p) + 1) * layer.N ≤ 2 ^ 32
  outputs : layer.M * layer.N ≤ 2 ^ 32
  padded : layer.M * (layer.iterN * layer.tN) < 2 ^ 32

/-- An entry of a row, zero behind the last one. -/
def weight (m p : Nat) : Int :=
  if p < layer.nnz m then layer.mkAddress (layer.mkRowPointer m + p) else 0

/-- The element of a column that an entry of a row selects. -/
def activation (m p n : Nat) : Int :=
  if p < layer.nnz m then
    if n < layer.N then layer.knAddress (layer.mkColId (layer.mkRowPointer m + p) * layer.N + n)
    else 0
  else 0

/-- The product of a row and a column. -/
def product (m n : Nat) : Int :=
  ∑ p ∈ Finset.range (layer.nnz m), layer.mkAddress (layer.mkRowPointer m + p) *
    layer.knAddress (layer.mkColId (layer.mkRowPointer m + p) * layer.N + n)

/-- The first `folds` folds of it. -/
def foldedSum (folds m n : Nat) : Int :=
  ∑ p ∈ Finset.range (folds * layer.tK), layer.weight m p * layer.activation m p n

section

variable {layer : SparseDenseMemory} {memory : SparseDenseSDMemory} {v j m : Nat}

/-- The controller is configured for a row. -/
structure Configured (layer : SparseDenseMemory) (m : Nat) (memory : SparseDenseSDMemory) :
    Prop where
  kNnz : memory.kNnz = layer.nnz m
  staBase : memory.staBase = layer.mkRowPointer m
  iterK : memory.iterK = layer.folds m

/-! ## The folds of a row -/

/-- The folds take all entries of a row, and all but the last one are full. -/
theorem nnz_folds (hK : 0 < layer.tK) (m : Nat) :
    layer.nnz m ≤ layer.folds m * layer.tK ∧
      layer.folds m * layer.tK < layer.nnz m + layer.tK := by
  have hSplit := Nat.div_add_mod (layer.nnz m) layer.tK
  have hLess := Nat.mod_lt (layer.nnz m) hK
  rw [Nat.mul_comm] at hSplit
  rw [folds, Nat.add_mul]
  split
  · omega
  · omega

theorem folds_pos (hSome : 0 < layer.nnz m) : 0 < layer.folds m := by
  rw [folds]
  rcases Nat.eq_zero_or_pos (layer.nnz m / layer.tK) with hNone | hMore
  · have hSplit := Nat.div_add_mod (layer.nnz m) layer.tK
    rw [hNone, Nat.mul_zero, Nat.zero_add] at hSplit
    rw [if_pos (by omega)]
    omega
  · omega

/-! ## Indices and addresses -/

theorem Ready.iterN_pos (h : layer.Ready) : 0 < layer.iterN :=
  Binary32.ceilDiv_pos h.N h.tN

theorem Ready.columns_lt (h : layer.Ready) : layer.iterN * layer.tN < 2 ^ 32 :=
  (Nat.le_mul_of_pos_left _ h.M).trans_lt h.padded

/-- `index_K` -/
theorem Ready.indexK (h : layer.Ready) (hRow : m < layer.M)
    (hFold : memory.currentKNnz < layer.folds m) (hj : j < layer.tK) :
    (memory.currentKNnz * layer.tK + j) % 2 ^ 32 = memory.currentKNnz * layer.tK + j := by
  have hLast := (nnz_folds h.tK m).2
  have hFits := h.entries m hRow
  have hInside := radix_lt hFold hj
  exact Nat.mod_eq_of_lt (by omega)

/-- `index_N` -/
theorem Ready.indexN (h : layer.Ready) (hColumn : memory.currentN < layer.iterN)
    (hv : v < layer.tN) :
    (memory.currentN * layer.tN + v) % 2 ^ 32 = memory.currentN * layer.tN + v :=
  Nat.mod_eq_of_lt ((radix_lt hColumn hv).trans h.columns_lt)

theorem Ready.entry (h : layer.Ready) {p : Nat} (hRow : m < layer.M) (hp : p < layer.nnz m) :
    (layer.mkRowPointer m + p) % 2 ^ 32 = layer.mkRowPointer m + p := by
  have hNext := h.pointers (m + 1) hRow
  rw [nnz] at hp
  exact Nat.mod_eq_of_lt (by omega)

theorem Ready.input (h : layer.Ready) {p n : Nat} (hRow : m < layer.M) (hp : p < layer.nnz m)
    (hn : n < layer.N) :
    (layer.mkColId (layer.mkRowPointer m + p) * layer.N + n) % 2 ^ 32 =
      layer.mkColId (layer.mkRowPointer m + p) * layer.N + n := by
  have hFits := h.inputs m hRow p hp
  rw [Nat.succ_mul] at hFits
  exact Nat.mod_eq_of_lt (by omega)

theorem Ready.output (h : layer.Ready) {n : Nat} (hRow : m < layer.M) (hn : n < layer.N) :
    (m * layer.N + n) % 2 ^ 32 = m * layer.N + n :=
  Nat.mod_eq_of_lt ((radix_lt hRow hn).trans_le h.outputs)

/-! ## What a multiplier gets -/

theorem weights_addressed (hReady : layer.Ready) (hRow : m < layer.M)
    (hConfigured : layer.Configured m memory) (hFold : memory.currentKNnz < layer.folds m)
    (hv : v < layer.tN) (hj : j < layer.tK) :
    ((layer.weightPackages memory).filter (·.addresses (v * layer.tK + j))).map (·.data) =
      [layer.weight m (memory.currentKNnz * layer.tK + j)] := by
  have hInside : v * layer.tK + j < layer.numMs := (radix_lt hv hj).trans_le hReady.numMs
  rw [weightPackages, List.filter_map, filter_eq_singleton List.nodup_range (List.mem_range.mpr hj)]
  · simp only [List.map_cons, List.map_nil, weight, hConfigured.kNnz, hConfigured.staBase,
      hReady.indexK hRow hFold hj]
    split
    · rename_i hEntry
      rw [hReady.entry hRow hEntry]
    · rfl
  · intro j' hj'
    simp only [Function.comp_apply, DataPackage.addresses, destinationVector_getD hInside,
      List.mem_map, List.mem_range]
    constructor
    · rintro ⟨i, -, hSame⟩
      exact (radix_inj (List.mem_range.mp hj') hj hSame).2
    · rintro rfl
      exact ⟨v, hv, rfl⟩

theorem activations_addressed (hReady : layer.Ready) (hRow : m < layer.M)
    (hConfigured : layer.Configured m memory) (hFold : memory.currentKNnz < layer.folds m)
    (hColumn : memory.currentN < layer.iterN) (hv : v < layer.tN) (hj : j < layer.tK) :
    ((layer.activationPackages memory).filter (·.addresses (v * layer.tK + j))).map (·.data) =
      [layer.activation m (memory.currentKNnz * layer.tK + j)
        (memory.currentN * layer.tN + v)] := by
  have hNodup : (cells layer.tN layer.tK).Nodup := List.nodup_range.product List.nodup_range
  rw [activationPackages, List.filter_map,
    filter_eq_singleton hNodup (show (v, j) ∈ _ from mem_cells.mpr ⟨hv, hj⟩)]
  · simp only [List.map_cons, List.map_nil, activation, hConfigured.kNnz, hConfigured.staBase,
      hReady.indexK hRow hFold hj, hReady.indexN hColumn hv]
    split
    · rename_i hEntry
      split
      · rename_i hInside
        rw [hReady.entry hRow hEntry, hReady.input hRow hEntry hInside]
      · rfl
    · rfl
  · rintro ⟨v', j'⟩ hCell
    simp only [Function.comp_apply, DataPackage.addresses, decide_eq_true_eq, Prod.mk.injEq]
    constructor
    · intro hSame
      exact radix_inj (mem_cells.mp hCell).2 hj hSame
    · rintro ⟨rfl, rfl⟩
      rfl

/-- A fold of a product. -/
theorem products_eq (hReady : layer.Ready) (hRow : m < layer.M)
    (hConfigured : layer.Configured m memory) (hFold : memory.currentKNnz < layer.folds m)
    (hColumn : memory.currentN < layer.iterN) {networks : SparseDenseNetworks}
    (hWeights : ∀ j < layer.tK, (networks.weightFifos (v * layer.tK + j)).headD 0 =
      layer.weight m (memory.currentKNnz * layer.tK + j)) (hv : v < layer.tN) :
    layer.foldedSum memory.currentKNnz m (memory.currentN * layer.tN + v) +
        networks.products layer.tK (layer.activationPackages memory) v =
      layer.foldedSum (memory.currentKNnz + 1) m (memory.currentN * layer.tN + v) := by
  have hEach : ∀ j ∈ List.range layer.tK,
      (((layer.activationPackages memory).filter (·.addresses (v * layer.tK + j))).map fun pck =>
        (networks.weightFifos (v * layer.tK + j)).headD 0 * pck.data).sum =
      layer.weight m (memory.currentKNnz * layer.tK + j) *
        layer.activation m (memory.currentKNnz * layer.tK + j)
          (memory.currentN * layer.tN + v) := by
    intro j hj
    have hj := List.mem_range.mp hj
    obtain ⟨pck, hPck, hData⟩ :=
      List.map_eq_singleton_iff.mp
        (activations_addressed hReady hRow hConfigured hFold hColumn hv hj)
    rw [hPck, List.map_singleton, List.sum_singleton, hData, hWeights j hj]
  have hProducts : networks.products layer.tK (layer.activationPackages memory) v =
      ∑ j ∈ Finset.range layer.tK, layer.weight m (memory.currentKNnz * layer.tK + j) *
        layer.activation m (memory.currentKNnz * layer.tK + j)
          (memory.currentN * layer.tN + v) := by
    rw [SparseDenseNetworks.products, List.map_congr_left hEach]
    rfl
  rw [hProducts, foldedSum, foldedSum, Nat.succ_mul, Finset.sum_range_add]

/-- After the last fold the product is complete; in a column behind the last one it is zero. -/
theorem foldedSum_folds (hK : 0 < layer.tK) (m n : Nat) :
    layer.foldedSum (layer.folds m) m n = if n < layer.N then layer.product m n else 0 := by
  have hRest : ∀ p, ¬p < layer.nnz m → layer.weight m p * layer.activation m p n = 0 := by
    intro p hp
    rw [weight, if_neg hp, zero_mul]
  have hEntries : layer.foldedSum (layer.folds m) m n =
      ∑ p ∈ Finset.range (layer.nnz m), layer.weight m p * layer.activation m p n := by
    refine (Finset.sum_subset (Finset.range_subset_range.mpr (nnz_folds hK m).1) ?_).symm
    intro p _ hOut
    exact hRest p (by simpa using hOut)
  rw [hEntries]
  split
  · rename_i hn
    refine Finset.sum_congr rfl fun p hp => ?_
    have hp := Finset.mem_range.mp hp
    rw [weight, activation, if_pos hp, if_pos hp, if_pos hn]
  · rename_i hn
    refine Finset.sum_eq_zero fun p hp => ?_
    rw [activation, if_pos (Finset.mem_range.mp hp), if_neg hn, mul_zero]

end

/-! ## What the controller writes -/

/-- How many outputs of a neuron are written. -/
def written (layer : SparseDenseMemory) (writer : SparseDenseSDMemoryWriter) (v : Nat) : Nat :=
  writer.vnatTableIterM v * layer.iterN + writer.vnatTableIterN v

/-- Output `e` of a neuron. -/
def value (layer : SparseDenseMemory) (v e : Nat) : Int :=
  if e % layer.iterN * layer.tN + v < layer.N then
    layer.product (e / layer.iterN) (e % layer.iterN * layer.tN + v)
  else 0

/-- The outputs of a neuron that are on their way, those in `write_fifo` first. -/
def pending (writeFifo : Fifo) (results : Nat → List Int) (v : Nat) : List Int :=
  (writeFifo.filter (·.vn = v)).map (·.data) ++ results v

/-- The writer when the networks have computed `sent` outputs for every neuron. -/
structure Writes (layer : SparseDenseMemory) (outputs : Nat → Int) (sent : Nat)
    (results : Nat → List Int) (writeFifo : Fifo) (writer : SparseDenseSDMemoryWriter) :
    Prop where
  columns : ∀ v < layer.tN, writer.vnatTableIterN v < layer.iterN
  counts : ∀ v < layer.tN, layer.written writer v ≤ sent
  pending : ∀ v < layer.tN, pending writeFifo results v =
    (List.range' (layer.written writer v) (sent - layer.written writer v)).map (layer.value v)
  noOthers : ∀ v, layer.tN ≤ v → SparseDenseMemory.pending writeFifo results v = []
  stored : ∀ m < layer.M, ∀ n < layer.N, n < layer.iterN * layer.tN →
    writer.outputAddress (m * layer.N + n) =
      if m * layer.iterN + n / layer.tN < layer.written writer (n % layer.tN) then
        layer.product m n
      else outputs (m * layer.N + n)
  others : ∀ a, (∀ m < layer.M, ∀ n < layer.N, n < layer.iterN * layer.tN →
    a ≠ m * layer.N + n) → writer.outputAddress a = outputs a
  output : writer.currentOutput = ∑ v ∈ Finset.range layer.tN, layer.written writer v
  iteration : writer.currentOutputIteration =
    writer.currentOutput % (layer.iterN * layer.tN)
  finished : writer.executionFinished =
    decide (writer.currentOutput = layer.M * (layer.iterN * layer.tN))

section

variable {layer : SparseDenseMemory} {outputs : Nat → Int} {sent : Nat}
  {results : Nat → List Int} {writeFifo : Fifo} {writer : SparseDenseSDMemoryWriter}
  {pck : DataPackage} {state : SparsityControllerState}

theorem Writes.output_le (h : layer.Writes outputs sent results writeFifo writer) :
    writer.currentOutput ≤ sent * layer.tN := by
  calc writer.currentOutput = ∑ v ∈ Finset.range layer.tN, layer.written writer v := h.output
    _ ≤ ∑ _v ∈ Finset.range layer.tN, sent :=
        Finset.sum_le_sum fun v hv => h.counts v (Finset.mem_range.mp hv)
    _ = sent * layer.tN := by rw [Finset.sum_const, Finset.card_range, smul_eq_mul, Nat.mul_comm]

/-- The odometer of a neuron counts its outputs. -/
theorem written_advance {v : Nat} (hColumn : writer.vnatTableIterN v < layer.iterN) :
    layer.written (SparseDenseSDMemoryWriter.advance (layer.writerLayer state) writer v) =
      Function.update (layer.written writer) v (layer.written writer v + 1) := by
  funext v'
  rw [SparseDenseSDMemoryWriter.advance]
  rcases eq_or_ne v' v with rfl | hOther
  · rw [Function.update_self]
    split
    · rename_i hLast
      have hLast : writer.vnatTableIterN v' + 1 = layer.iterN := hLast
      simp only [written, Function.update_self, Nat.succ_mul]
      omega
    · simp only [written, Function.update_self]
      omega
  · rw [Function.update_of_ne hOther]
    split
    · simp only [written, Function.update_of_ne hOther]
    · simp only [written, Function.update_of_ne hOther]

/-- The first package of the fifo is the next output of its neuron. -/
theorem Writes.first (h : layer.Writes outputs sent results (pck :: writeFifo) writer) :
    pck.vn < layer.tN ∧ layer.written writer pck.vn < sent ∧
      pck.data = layer.value pck.vn (layer.written writer pck.vn) ∧
      SparseDenseMemory.pending writeFifo results pck.vn =
        (List.range' (layer.written writer pck.vn + 1)
          (sent - (layer.written writer pck.vn + 1))).map (layer.value pck.vn) := by
  have hFirst : SparseDenseMemory.pending (pck :: writeFifo) results pck.vn =
      pck.data :: SparseDenseMemory.pending writeFifo results pck.vn := by
    simp [SparseDenseMemory.pending]
  have hv : pck.vn < layer.tN := by
    by_contra hMore
    have hNone := h.noOthers pck.vn (Nat.le_of_not_lt hMore)
    rw [hFirst] at hNone
    cases hNone
  have hPending := h.pending pck.vn hv
  have hMore : layer.written writer pck.vn < sent := by
    by_contra hAll
    rw [hFirst, Nat.sub_eq_zero_of_le (Nat.le_of_not_lt hAll)] at hPending
    cases hPending
  obtain ⟨d, hd⟩ := Nat.exists_eq_succ_of_ne_zero (Nat.sub_ne_zero_of_lt hMore)
  rw [hFirst, hd, List.range'_succ, List.map_cons, List.cons.injEq] at hPending
  refine ⟨hv, hMore, hPending.1, ?_⟩
  rw [hPending.2]
  congr 2
  omega

/-! ### One package -/

theorem writePackage_written (hColumn : writer.vnatTableIterN pck.vn < layer.iterN) :
    layer.written (SparseDenseSDMemoryWriter.writePackage (layer.writerLayer state) writer pck) =
      Function.update (layer.written writer) pck.vn (layer.written writer pck.vn + 1) := by
  have hStore : ∀ writer' : SparseDenseSDMemoryWriter, layer.written
      (SparseDenseSDMemoryWriter.count (layer.writerLayer state) writer') =
        layer.written writer' := by
    intro writer'
    rw [SparseDenseSDMemoryWriter.count]
    split
    · rfl
    · rfl
  rw [SparseDenseSDMemoryWriter.writePackage, hStore, SparseDenseSDMemoryWriter.store]
  split
  · exact written_advance hColumn
  · exact written_advance hColumn

theorem writePackage_outputAddress (hReady : layer.Ready)
    (hRow : writer.vnatTableIterM pck.vn < layer.M)
    (hColumn : writer.vnatTableIterN pck.vn < layer.iterN) (hv : pck.vn < layer.tN) :
    (SparseDenseSDMemoryWriter.writePackage (layer.writerLayer state) writer pck).outputAddress =
      if writer.vnatTableIterN pck.vn * layer.tN + pck.vn < layer.N then
        Function.update writer.outputAddress (writer.vnatTableIterM pck.vn * layer.N +
          (writer.vnatTableIterN pck.vn * layer.tN + pck.vn)) pck.data
      else writer.outputAddress := by
  have hCount : ∀ writer' : SparseDenseSDMemoryWriter,
      (SparseDenseSDMemoryWriter.count (layer.writerLayer state) writer').outputAddress =
        writer'.outputAddress := by
    intro writer'
    rw [SparseDenseSDMemoryWriter.count]
    split
    · rfl
    · rfl
  have hAdvance : ∀ writer' : SparseDenseSDMemoryWriter,
      (SparseDenseSDMemoryWriter.advance (layer.writerLayer state) writer' pck.vn).outputAddress =
        writer'.outputAddress := by
    intro writer'
    rw [SparseDenseSDMemoryWriter.advance]
    split
    · rfl
    · rfl
  have hPlace : (writer.vnatTableIterN pck.vn * layer.tN + pck.vn) % 2 ^ 32 =
      writer.vnatTableIterN pck.vn * layer.tN + pck.vn :=
    Nat.mod_eq_of_lt ((radix_lt hColumn hv).trans hReady.columns_lt)
  rw [SparseDenseSDMemoryWriter.writePackage, hCount, hAdvance, SparseDenseSDMemoryWriter.store,
    writerLayer, hPlace]
  split
  · rename_i hInside
    rw [hReady.output hRow hInside]
  · rfl

theorem writePackage_column {v : Nat} (hColumn : writer.vnatTableIterN v < layer.iterN) :
    (SparseDenseSDMemoryWriter.writePackage (layer.writerLayer state) writer pck).vnatTableIterN v <
      layer.iterN := by
  have hCount : ∀ writer' : SparseDenseSDMemoryWriter,
      (SparseDenseSDMemoryWriter.count (layer.writerLayer state) writer').vnatTableIterN =
        writer'.vnatTableIterN := by
    intro writer'
    rw [SparseDenseSDMemoryWriter.count]
    split
    · rfl
    · rfl
  have hStore :
      (SparseDenseSDMemoryWriter.store (layer.writerLayer state) writer pck).vnatTableIterN =
        writer.vnatTableIterN := by
    rw [SparseDenseSDMemoryWriter.store]
    split
    · rfl
    · rfl
  rw [SparseDenseSDMemoryWriter.writePackage, hCount, SparseDenseSDMemoryWriter.advance, hStore]
  split
  · rcases eq_or_ne v pck.vn with rfl | hOther
    · simp only [Function.update_self]
      omega
    · simpa only [Function.update_of_ne hOther] using hColumn
  · rename_i hMore
    have hMore : writer.vnatTableIterN pck.vn + 1 ≠ layer.iterN := hMore
    rcases eq_or_ne v pck.vn with rfl | hOther
    · simp only [Function.update_self]
      omega
    · simpa only [Function.update_of_ne hOther] using hColumn

/-- What the counting of a package changes, below 2^32 outputs. -/
theorem writePackage_count (hReady : layer.Ready)
    (hOutput : writer.currentOutput + 1 ≤ layer.M * (layer.iterN * layer.tN))
    (hIteration : writer.currentOutputIteration < layer.iterN * layer.tN) :
    let writer' := SparseDenseSDMemoryWriter.writePackage (layer.writerLayer state) writer pck
    writer'.currentOutput = writer.currentOutput + 1 ∧
      writer'.executionFinished = (writer.executionFinished ||
        decide (writer.currentOutput + 1 = layer.M * (layer.iterN * layer.tN))) ∧
      (if writer.currentOutputIteration + 1 = layer.iterN * layer.tN then
        writer'.currentOutputIteration = 0 ∧ writer'.staComplete =
          (writer.staComplete || decide (state = .waitingForNextStaIter))
      else writer'.currentOutputIteration = writer.currentOutputIteration + 1 ∧
        writer'.staComplete = writer.staComplete) := by
  have hSame : (SparseDenseSDMemoryWriter.advance (layer.writerLayer state)
      (SparseDenseSDMemoryWriter.store (layer.writerLayer state) writer pck) pck.vn) =
        { writer with
          vnatTableIterM := (SparseDenseSDMemoryWriter.advance (layer.writerLayer state)
            (SparseDenseSDMemoryWriter.store (layer.writerLayer state) writer pck)
              pck.vn).vnatTableIterM
          vnatTableIterN := (SparseDenseSDMemoryWriter.advance (layer.writerLayer state)
            (SparseDenseSDMemoryWriter.store (layer.writerLayer state) writer pck)
              pck.vn).vnatTableIterN
          outputAddress := (SparseDenseSDMemoryWriter.advance (layer.writerLayer state)
            (SparseDenseSDMemoryWriter.store (layer.writerLayer state) writer pck)
              pck.vn).outputAddress } := by
    rw [SparseDenseSDMemoryWriter.advance, SparseDenseSDMemoryWriter.store]
    split
    · split
      · rfl
      · rfl
    · split
      · rfl
      · rfl
  intro writer'
  have hCount : writer' = SparseDenseSDMemoryWriter.count (layer.writerLayer state) _ := rfl
  rw [hSame, SparseDenseSDMemoryWriter.count] at hCount
  have hColumns := hReady.columns_lt
  have hPadded := hReady.padded
  have hPad : (layer.writerLayer state).nAndPad = layer.iterN * layer.tN :=
    Nat.mod_eq_of_lt hColumns
  have hAll : (layer.writerLayer state).M * (layer.iterN * layer.tN) % 2 ^ 32 =
      layer.M * (layer.iterN * layer.tN) := Nat.mod_eq_of_lt hPadded
  have hNext : (writer.currentOutput + 1) % 2 ^ 32 = writer.currentOutput + 1 :=
    Nat.mod_eq_of_lt (hOutput.trans_lt hPadded)
  have hNextIteration :
      (writer.currentOutputIteration + 1) % 2 ^ 32 = writer.currentOutputIteration + 1 :=
    Nat.mod_eq_of_lt (by omega)
  rw [hPad, hAll] at hCount
  simp only [hNext, hNextIteration] at hCount
  split at hCount
  · rename_i hLast
    rw [if_pos hLast, hCount]
    exact ⟨rfl, rfl, rfl, rfl⟩
  · rename_i hMore
    rw [if_neg hMore, hCount]
    exact ⟨rfl, rfl, rfl, rfl⟩

/-- A package is written to its place, and it is the one that belongs there. -/
theorem Writes.writePackage (hReady : layer.Ready)
    (h : layer.Writes outputs sent results (pck :: writeFifo) writer)
    (hSent : sent ≤ layer.M * layer.iterN) :
    let writer' := SparseDenseSDMemoryWriter.writePackage (layer.writerLayer state) writer pck
    layer.Writes outputs sent results writeFifo writer' ∧
      writer'.currentOutput = writer.currentOutput + 1 ∧
      writer'.staComplete = (writer.staComplete || decide (state = .waitingForNextStaIter ∧
        (writer.currentOutput + 1) % (layer.iterN * layer.tN) = 0)) := by
  intro writer'
  obtain ⟨hv, hMore, hData, hRest⟩ := h.first
  have hColumn := h.columns pck.vn hv
  have hIter : 0 < layer.iterN := by omega
  have hWritten : layer.written writer' =
      Function.update (layer.written writer) pck.vn (layer.written writer pck.vn + 1) :=
    writePackage_written hColumn
  have hBelow : writer.vnatTableIterM pck.vn < layer.M := by
    apply Nat.lt_of_mul_lt_mul_right
    calc writer.vnatTableIterM pck.vn * layer.iterN ≤ layer.written writer pck.vn :=
          Nat.le_add_right _ _
      _ < layer.M * layer.iterN := by omega
  have hStored := @writePackage_outputAddress layer writer pck state hReady hBelow hColumn hv
  have hTotal :
      ∑ v ∈ Finset.range layer.tN, layer.written writer' v = writer.currentOutput + 1 := by
    rw [hWritten, Finset.sum_update_of_mem (Finset.mem_range.mpr hv),
      Finset.sdiff_singleton_eq_erase, Nat.add_right_comm,
      Finset.add_sum_erase _ _ (Finset.mem_range.mpr hv), h.output]
  have hCounts : ∀ v < layer.tN, layer.written writer' v ≤ sent := by
    intro v hv'
    rw [hWritten]
    rcases eq_or_ne v pck.vn with rfl | hOther
    · rw [Function.update_self]
      exact hMore
    · rw [Function.update_of_ne hOther]
      exact h.counts v hv'
  have hRow : layer.written writer pck.vn / layer.iterN = writer.vnatTableIterM pck.vn :=
    radix_div hColumn
  have hPlace : layer.written writer pck.vn % layer.iterN = writer.vnatTableIterN pck.vn :=
    radix_mod hColumn
  have hAll : writer.currentOutput + 1 ≤ layer.M * (layer.iterN * layer.tN) := by
    calc writer.currentOutput + 1 = ∑ v ∈ Finset.range layer.tN, layer.written writer' v :=
          hTotal.symm
      _ ≤ ∑ _v ∈ Finset.range layer.tN, sent :=
          Finset.sum_le_sum fun v hv => hCounts v (Finset.mem_range.mp hv)
      _ = sent * layer.tN := by rw [Finset.sum_const, Finset.card_range, smul_eq_mul, Nat.mul_comm]
      _ ≤ layer.M * layer.iterN * layer.tN := Nat.mul_le_mul_right _ hSent
      _ = layer.M * (layer.iterN * layer.tN) := Nat.mul_assoc _ _ _
  have hPad : 0 < layer.iterN * layer.tN := Nat.mul_pos hIter (by omega)
  have hLess := Nat.mod_lt writer.currentOutput hPad
  obtain ⟨hOutput, hFinished, hIteration⟩ : _ ∧ _ ∧ _ :=
    @writePackage_count layer writer pck state hReady hAll (h.iteration ▸ hLess)
  rw [h.iteration] at hIteration
  refine ⟨⟨?_, hCounts, ?_, ?_, ?_, ?_, ?_, ?_, ?_⟩, hOutput, ?_⟩
  · intro v hv'
    exact writePackage_column (h.columns v hv')
  · intro v hv'
    rw [hWritten]
    rcases eq_or_ne v pck.vn with rfl | hOther
    · rw [Function.update_self]
      exact hRest
    · rw [Function.update_of_ne hOther, ← h.pending v hv']
      simp [SparseDenseMemory.pending, hOther.symm]
  · intro v hv'
    rw [← h.noOthers v hv']
    have hOther : pck.vn ≠ v := by omega
    simp [SparseDenseMemory.pending, hOther]
  · intro m hm n hn hInside
    rw [hStored, hWritten]
    by_cases hHere : m = writer.vnatTableIterM pck.vn ∧
        n = writer.vnatTableIterN pck.vn * layer.tN + pck.vn
    · obtain ⟨rfl, rfl⟩ := hHere
      have hNext : writer.vnatTableIterM pck.vn * layer.iterN + writer.vnatTableIterN pck.vn <
          layer.written writer pck.vn + 1 := Nat.lt_succ_self _
      rw [radix_mod hv, radix_div hv, Function.update_self, if_pos hn, Function.update_self,
        if_pos hNext, hData, value, hRow, hPlace, if_pos hn]
    · have hElsewhere : (if writer.vnatTableIterN pck.vn * layer.tN + pck.vn < layer.N then
          Function.update writer.outputAddress (writer.vnatTableIterM pck.vn * layer.N +
            (writer.vnatTableIterN pck.vn * layer.tN + pck.vn)) pck.data
          else writer.outputAddress) (m * layer.N + n) =
            writer.outputAddress (m * layer.N + n) := by
        split
        · rename_i hColumn'
          rw [Function.update_of_ne]
          intro hAddress
          exact hHere (radix_inj hn hColumn' hAddress)
        · rfl
      rw [hElsewhere, h.stored m hm n hn hInside]
      rcases eq_or_ne (n % layer.tN) pck.vn with hEq | hOther
      · have hQuotient : n / layer.tN < layer.iterN :=
          (Nat.div_lt_iff_lt_mul (by omega)).mpr hInside
        have hNot : m * layer.iterN + n / layer.tN ≠ layer.written writer pck.vn := by
          intro hCount
          obtain ⟨rfl, hFold⟩ := radix_inj hQuotient hColumn hCount
          refine hHere ⟨rfl, ?_⟩
          rw [← hFold, ← hEq, Nat.mul_comm]
          exact (Nat.div_add_mod n layer.tN).symm
        have hSame : m * layer.iterN + n / layer.tN < layer.written writer pck.vn + 1 ↔
            m * layer.iterN + n / layer.tN < layer.written writer pck.vn := by omega
        simp only [hEq, Function.update_self, hSame]
      · rw [Function.update_of_ne hOther]
  · intro a ha
    rw [hStored]
    split
    · rename_i hColumn'
      rw [Function.update_of_ne, h.others a ha]
      exact ha _ hBelow _ hColumn' (radix_lt hColumn hv)
    · exact h.others a ha
  · rw [hOutput, hTotal]
  · rw [hOutput]
    split at hIteration
    · rename_i hLast
      rw [hIteration.1, (succ_of_eq hLast).1]
    · rw [hIteration.1, (succ_of_lt (by omega)).1]
  · rw [hFinished, h.finished, hOutput]
    have hBefore : ¬writer.currentOutput = layer.M * (layer.iterN * layer.tN) := by omega
    rw [decide_eq_false hBefore, Bool.false_or]
  · split at hIteration
    · rename_i hLast
      rw [hIteration.2, (succ_of_eq hLast).1]
      simp
    · rw [hIteration.2, (succ_of_lt (by omega)).1]
      simp

end

end SparseDenseMemory

end Stonne
