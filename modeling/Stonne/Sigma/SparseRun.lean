import Stonne.Linker.Gemm
import Stonne.Sigma.SparseProduct

/-!
# Runs of the sparse controller

Every cycle of the controller leaves it less to do, or it waits for a neuron.  So when all
results come back at some time the run ends, and then the output memory is what `cpu_gemm`
computes from the matrices that the bitmaps describe, in both dataflows.
-/

namespace Stonne

open Dataflow

namespace SparseLayer

section

variable {layer : SparseLayer} {sta str : Nat → Nat → Int} {outputs : Nat → Int}
  {n last : Nat} {st : SparseGemm}

/-- In every run the outputs of a finished controller are the products. -/
theorem products_of_finished (hReady : layer.Ready sta str)
    (staCountersTable strCountersTable : Nat → Nat) (outputs : Nat → Int)
    (arrivals : Nat → List Nat) (t : Nat) :
    let st := scheduled layer.cycle arrivals (start staCountersTable strCountersTable outputs) t
    st.memory.executionFinished = true →
      (∀ i < layer.dimSta, ∀ k < layer.dimStr, st.outputAddress (layer.outputIndex i k) =
        partialSum sta str i layer.K k) ∧
      ∀ a, (∀ i < layer.dimSta, ∀ k < layer.dimStr, a ≠ layer.outputIndex i k) →
        st.outputAddress a = outputs a := by
  intro st hDone
  have hRun : layer.Computes sta str outputs st :=
    scheduled_invariant (computes_start hReady staCountersTable strCountersTable outputs)
      (fun st arrivals h => h.cycle hReady arrivals) t
  obtain ⟨hEnd, -, hBetween⟩ := hRun.ends (hRun.finished hDone)
  refine ⟨fun i hi k hk => ?_, hBetween.written.others⟩
  have hAll : layer.progress st.memory.position 0 0 (fun _ => 0) i k = layer.K := by
    rw [progress, if_pos (by omega)]
  have hProducts := hBetween.written.products i hi k hk (by rw [hAll]; exact hReady.K)
  rwa [hAll] at hProducts

/-! ## The end of a run -/

/-- A round moves the position. -/
theorem place_lt_next {p : Position}
    (hTakes : layer.Takes p.index p.j n last)
    (hNext : layer.next p = if last = layer.K then ⟨p.index + n, 0, layer.rank (p.index + n) 0⟩
      else ⟨p.index, last, layer.rank p.index last⟩) :
    p.index * layer.K + p.j < (layer.next p).index * layer.K + (layer.next p).j := by
  obtain ⟨hPos, -⟩ := hTakes.vectors
  obtain ⟨hFrom, hTo⟩ := hTakes.elements
  rw [hNext]
  split
  · have hBehind := Nat.mul_le_mul_right layer.K (show p.index + 1 ≤ p.index + n by omega)
    rw [Nat.succ_mul] at hBehind
    simp only
    omega
  · simp only
    omega

/-- What a run still has to do: the elements that are not packed, and the phases of the round. -/
def remaining (layer : SparseLayer) (st : SparseGemm) : Nat :=
  let p := st.memory.position
  let round := layer.dimStr + layer.dimSta * layer.dimStr
  (layer.dimSta * layer.K - (p.index * layer.K + p.j)) * (round + 3) +
    match st.memory.currentState with
    | .configuring => round + 2
    | .distStaMatrix => round + 1
    | .distStrMatrix => layer.dimStr - st.memory.strCurrentIndex +
        (st.memory.outputSizeIteration - st.memory.currentOutputIteration)
    | .waitingForNextStaIter =>
        st.memory.outputSizeIteration - st.memory.currentOutputIteration
    | .allDataSent => 0

/-- Until it waits the controller always has something to do. -/
theorem Computes.remaining_lt (hReady : layer.Ready sta str)
    (h : layer.Computes sta str outputs st)
    (hState : st.memory.currentState ≠ .waitingForNextStaIter ∧
      st.memory.currentState ≠ .allDataSent) (arrivals : List Nat) :
    layer.remaining (layer.cycle st arrivals) < layer.remaining st := by
  cases hHere : st.memory.currentState with
  | configuring =>
      obtain ⟨hInside, hBetween⟩ := h.begins hHere
      obtain ⟨hNext, -, hPosition, -⟩ := hBetween.configuring hReady hHere hInside arrivals
      simp only [remaining, hNext, hPosition, hHere]
      omega
  | distStaMatrix =>
      obtain ⟨hStart, n, last, hDuring⟩ := h.sends hHere
      obtain ⟨hNext, hStart, hPosition, -, -, hDuring'⟩ :=
        hDuring.distStaMatrix hHere hStart arrivals
      obtain ⟨hPos, hInside⟩ := hDuring.takes.vectors
      have hVectors : n * layer.dimStr ≤ layer.dimSta * layer.dimStr :=
        Nat.mul_le_mul_right _ (by omega)
      simp only [remaining, hNext, hPosition, hHere, hDuring'.size, hStart]
      omega
  | distStrMatrix =>
      obtain ⟨hMore, n, last, hDuring⟩ := h.streams hHere
      obtain ⟨hNext, hSent, hPosition, -, hFewer, hDuring'⟩ :=
        hDuring.distStrMatrix hReady hHere hMore arrivals
      simp only [remaining, hNext, hPosition, hHere, hDuring'.size, hDuring.size,
        hDuring'.iteration, hDuring.iteration, hSent]
      split
      · rename_i hEq
        split at hEq
        all_goals cases hEq
      · rename_i hEq
        split at hEq
        all_goals cases hEq
      · omega
      · omega
      · rename_i hEq
        split at hEq
        all_goals cases hEq
  | waitingForNextStaIter => exact absurd hHere hState.1
  | allDataSent => exact absurd hHere hState.2

/-- While it waits, an output leaves it less to do. -/
theorem Computes.waits_or_lt (hReady : layer.Ready sta str)
    (h : layer.Computes sta str outputs st)
    (hState : st.memory.currentState = .waitingForNextStaIter) (arrivals : List Nat) :
    layer.remaining (layer.cycle st arrivals) < layer.remaining st ∨
      (layer.cycle st arrivals).memory.currentState = .waitingForNextStaIter ∧
        (layer.cycle st arrivals).results = st.results ∧
        layer.remaining (layer.cycle st arrivals) = layer.remaining st ∧
        ∀ v ∈ arrivals, st.results v = [] := by
  obtain ⟨hAll, n, last, hDuring⟩ := h.waits hState
  have hMore := hDuring.more
  rcases hDuring.waiting hReady hState hAll arrivals with
    ⟨hNext, -, hPosition, -, hDuring', hOutputs⟩ | ⟨hPosition, hBetween, hMoves⟩
  · rcases hOutputs with hFewer | ⟨hResults, hSame, hNone⟩
    · left
      simp only [remaining, hNext, hPosition, hState, hDuring'.size, hDuring.size,
        hDuring'.iteration, hDuring.iteration]
      omega
    · right
      refine ⟨hNext, hResults, ?_, hNone⟩
      simp only [remaining, hNext, hPosition, hState, hDuring'.size, hDuring.size,
        hDuring'.iteration, hDuring.iteration, hSame]
  · left
    obtain ⟨hAligned, hNext⟩ := hDuring.aligned.next hDuring.takes
    have hPlace := place_lt_next hDuring.takes hNext
    have hInside : st.memory.position.index * layer.K + st.memory.position.j <
        layer.dimSta * layer.K := by
      obtain ⟨hPos, hInside⟩ := hDuring.takes.vectors
      obtain ⟨hFrom, hTo⟩ := hDuring.takes.elements
      exact radix_lt (by omega) (by omega)
    have hPhase : ∀ round, (match (layer.cycle st arrivals).memory.currentState with
        | .configuring => round + 2
        | .distStaMatrix => round + 1
        | .distStrMatrix => layer.dimStr - (layer.cycle st arrivals).memory.strCurrentIndex +
            ((layer.cycle st arrivals).memory.outputSizeIteration -
              (layer.cycle st arrivals).memory.currentOutputIteration)
        | .waitingForNextStaIter => (layer.cycle st arrivals).memory.outputSizeIteration -
            (layer.cycle st arrivals).memory.currentOutputIteration
        | .allDataSent => 0) ≤ round + 2 := by
      intro round
      split at hMoves
      · rw [hMoves.1]
        exact Nat.zero_le _
      · rw [hMoves.1]
    have hPhase := hPhase (layer.dimStr + layer.dimSta * layer.dimStr)
    have hFewer := Nat.mul_le_mul_right (layer.dimStr + layer.dimSta * layer.dimStr + 3)
      (show layer.dimSta * layer.K - ((layer.next st.memory.position).index * layer.K +
        (layer.next st.memory.position).j) + 1 ≤ layer.dimSta * layer.K -
          (st.memory.position.index * layer.K + st.memory.position.j) by omega)
    rw [Nat.succ_mul] at hFewer
    simp only [remaining, hPosition]
    omega

/-- The results of every neuron come back at some time. -/
def Fair (arrivals : Nat → List Nat) (run : Nat → SparseGemm) : Prop :=
  ∀ t v, (run t).results v ≠ [] → ∃ t' ≥ t, v ∈ arrivals t'

/-- Then the controller is done at some time. -/
theorem exists_finished (hReady : layer.Ready sta str)
    (staCountersTable strCountersTable : Nat → Nat) (outputs : Nat → Int)
    {arrivals : Nat → List Nat}
    (hFair : Fair arrivals
      (scheduled layer.cycle arrivals (start staCountersTable strCountersTable outputs))) :
    ∃ t, (scheduled layer.cycle arrivals
      (start staCountersTable strCountersTable outputs) t).memory.executionFinished = true := by
  apply @exists_of_descent _ _ layer.cycle arrivals _ layer.remaining fun st =>
    st.memory.executionFinished = true
  intro t hNotDone
  have hRun : ∀ t, layer.Computes sta str outputs
      (scheduled layer.cycle arrivals (start staCountersTable strCountersTable outputs) t) :=
    scheduled_invariant (computes_start hReady staCountersTable strCountersTable outputs)
      fun st arrivals h => h.cycle hReady arrivals
  by_cases hWaits : (scheduled layer.cycle arrivals
      (start staCountersTable strCountersTable outputs) t).memory.currentState =
        .waitingForNextStaIter
  · -- Some neuron has not returned all its results, and it will return one.
    obtain ⟨hAll, n, last, hDuring⟩ := (hRun t).waits hWaits
    have hSome : ∃ v < n, (scheduled layer.cycle arrivals
        (start staCountersTable strCountersTable outputs) t).vnatTable v < layer.dimStr := by
      by_contra hNone
      push Not at hNone
      have hMore := hDuring.more
      have hSum : ∑ _v ∈ Finset.range n, layer.dimStr ≤ SparseLayer.returned n
          (scheduled layer.cycle arrivals (start staCountersTable strCountersTable outputs) t) :=
        Finset.sum_le_sum fun v hv => hNone v (Finset.mem_range.mp hv)
      rw [Finset.sum_const, Finset.card_range, smul_eq_mul] at hSum
      omega
    obtain ⟨v, hv, hLess⟩ := hSome
    have hResults : (scheduled layer.cycle arrivals
        (start staCountersTable strCountersTable outputs) t).results v ≠ [] := by
      rw [hDuring.returned.results v hv, hAll]
      intro hNone
      have hLength := congrArg List.length hNone
      rw [List.length_map, List.length_range', List.length_nil] at hLength
      omega
    apply @exists_descent_of_fair _ _ layer.cycle arrivals _ layer.remaining
      (fun st => layer.Computes sta str outputs st ∧
        st.memory.currentState = .waitingForNextStaIter ∧ st.results v ≠ [])
      fun arrivals => v ∈ arrivals
    · rintro st arrivals ⟨hComputes, hState, hSome⟩
      rcases hComputes.waits_or_lt hReady hState arrivals with hLess | ⟨hNext, hSame, hEq, -⟩
      · exact Or.inl hLess
      · exact Or.inr ⟨⟨hComputes.cycle hReady arrivals, hNext, hSame ▸ hSome⟩, hEq⟩
    · rintro st arrivals ⟨hComputes, hState, hSome⟩ hArrives
      rcases hComputes.waits_or_lt hReady hState arrivals with hLess | ⟨-, -, -, hNone⟩
      · exact hLess
      · exact absurd (hNone v hArrives) hSome
    · exact ⟨hRun t, hWaits, hResults⟩
    · exact hFair t v hResults
  · have hNotSent : (scheduled layer.cycle arrivals
        (start staCountersTable strCountersTable outputs) t).memory.currentState ≠
          .allDataSent := fun hSent => hNotDone ((hRun t).ends hSent).2.1
    exact ⟨t + 1, Nat.le_succ t, (hRun t).remaining_lt hReady ⟨hWaits, hNotSent⟩ (arrivals t)⟩

end

end SparseLayer

/-! ## The dataflows -/

namespace SparseDataflow

/-- `setLayer` and `setSparseMetadata` of a product of `mk` and `kn`. -/
def setSparseLayer (numMs M N K : Nat) (mkMetadata knMetadata : Nat → Nat)
    (mkAddress knAddress : Nat → Int) : SparseDataflow → SparseLayer
  | mkStaKnStr =>
      { mkStaKnStr.setLayer numMs M N K mkMetadata mkAddress with
        strDistElem := N
        strDistVector := 1
        outDistVN := N
        outDistVNIteration := 1
        strMetadata := knMetadata
        strAddress := knAddress }
  | mkStrKnSta =>
      { mkStrKnSta.setLayer numMs M N K knMetadata knAddress with
        strDistElem := 1
        strDistVector := K
        outDistVN := 1
        outDistVNIteration := N
        strMetadata := mkMetadata
        strAddress := mkAddress }

end SparseDataflow

section

variable {gen : GenerationType} {rows cols : Nat} {bitmap : Nat → Nat} {i j : Nat}

/-- A set bit comes behind the bits before it. -/
theorem sourceId_succ (hi : i < gen.vectors rows cols) (hj : j < gen.vectorSize rows cols) :
    sourceId gen rows cols bitmap i (j + 1) =
      sourceId gen rows cols bitmap i j + if bitmap (gen.index cols i j) ≠ 0 then 1 else 0 := by
  have hPlace : (gen.elements rows cols)[i * gen.vectorSize rows cols + j]? = some (i, j) :=
    getElem?_cells hi hj
  rw [sourceId, sourceId, ← Nat.add_assoc, List.take_add_one, hPlace, List.filter_append,
    List.length_append]
  congr 1
  by_cases hBit : bitmap (gen.index cols i j) ≠ 0
  · simp [hBit]
  · simp [hBit]

theorem sourceId_next (i : Nat) :
    sourceId gen rows cols bitmap (i + 1) 0 =
      sourceId gen rows cols bitmap i (gen.vectorSize rows cols) := by
  rw [sourceId, sourceId, Nat.succ_mul, Nat.add_zero]

/-- The rank of an element is its `source_id`. -/
theorem rank_eq_sourceId {mem : SparseMemory} (hK : mem.K = gen.vectorSize rows cols)
    (hDim : mem.dimSta = gen.vectors rows cols)
    (hBit : ∀ i j, mem.bit i j = decide (bitmap (gen.index cols i j) ≠ 0)) (hi : i < mem.dimSta)
    (hj : j ≤ mem.K) : mem.rank i j = sourceId gen rows cols bitmap i j := by
  have hInside : ∀ i < mem.dimSta, mem.rank i 0 = sourceId gen rows cols bitmap i 0 →
      ∀ j ≤ mem.K, mem.rank i j = sourceId gen rows cols bitmap i j := by
    intro i hi hStart j hj
    induction j with
    | zero => exact hStart
    | succ j ih =>
        rw [SparseMemory.rank_succ, ih (by omega), sourceId_succ (by omega) (by omega), hBit]
        simp only [decide_eq_true_eq]
  refine hInside i hi ?_ j hj
  induction i with
  | zero => simp [SparseMemory.rank, sourceId]
  | succ i ih =>
      rw [SparseMemory.rank_next, sourceId_next, ← hK,
        hInside i (by omega) (ih (by omega)) mem.K le_rfl]

/-- And so is its entry in `str_counters_table`. -/
theorem strCounters_eq_sourceId {layer : SparseLayer} (hK : layer.K = gen.vectorSize rows cols)
    (hDim : layer.dimStr = gen.vectors rows cols)
    (hIndex : ∀ k j, layer.strIndex k j = gen.index cols k j) (strCountersTable : Nat → Nat)
    (hi : i < layer.dimStr) (hj : j < layer.K)
    (hBit : layer.strMetadata (layer.strIndex i j) ≠ 0) :
    layer.strCounters strCountersTable (layer.strIndex i j) =
      sourceId gen rows cols layer.strMetadata i j := by
  have hPlace : (cells layer.dimStr layer.K)[i * layer.K + j]? = some (i, j) :=
    getElem?_cells hi hj
  obtain ⟨hLess, hGet⟩ := List.getElem?_eq_some_iff.mp hPlace
  have hSplit : cells layer.dimStr layer.K = (cells layer.dimStr layer.K).take (i * layer.K + j) ++
      (i, j) :: (cells layer.dimStr layer.K).drop (i * layer.K + j + 1) := by
    rw [← hGet, ← List.drop_eq_getElem_cons hLess, List.take_append_drop]
  have hNodup : (cells layer.dimStr layer.K).Nodup := List.nodup_range.product List.nodup_range
  have hAfter : ∀ cell ∈ (cells layer.dimStr layer.K).drop (i * layer.K + j + 1),
      layer.strIndex cell.1 cell.2 ≠ layer.strIndex i j := by
    intro cell hCell hSame
    obtain ⟨hi', hj'⟩ := mem_cells.mp (List.mem_of_mem_drop hCell)
    rw [hIndex, hIndex] at hSame
    obtain ⟨rfl, rfl⟩ :=
      GenerationType.index_inj (hDim ▸ hi') (hK ▸ hj') (hDim ▸ hi) (hK ▸ hj) hSame
    rw [hSplit] at hNodup
    exact (List.nodup_cons.mp (List.nodup_append.mp hNodup).2.1).1 hCell
  have hNumber := @foldl_numberMarked_apply _ _ _ (fun cell : Nat × Nat =>
      layer.strIndex cell.1 cell.2)
    (fun cell => decide (layer.strMetadata (layer.strIndex cell.1 cell.2) ≠ 0))
    ((cells layer.dimStr layer.K).take (i * layer.K + j)) _ (i, j) strCountersTable 0
    (decide_eq_true hBit) hAfter
  rw [← hSplit, Nat.zero_add, List.countP_eq_length_filter] at hNumber
  rw [SparseLayer.strCounters, hNumber, sourceId, GenerationType.elements, hK, hDim]
  simp only [hIndex]

/-- A layer describes the matrices of its bitmaps. -/
theorem describes_of_index {layer : SparseLayer} {gen' : GenerationType} {rows' cols' : Nat}
    (hK : layer.K = gen.vectorSize rows cols) (hSta : layer.dimSta = gen.vectors rows cols)
    (hStaIndex : ∀ i j, layer.staIndex i j = gen.index cols i j)
    (hK' : layer.K = gen'.vectorSize rows' cols') (hStr : layer.dimStr = gen'.vectors rows' cols')
    (hStrIndex : ∀ k j, layer.strIndex k j = gen'.index cols' k j) :
    layer.Describes (decodeElement gen rows cols layer.staMetadata layer.staAddress)
      (decodeElement gen' rows' cols' layer.strMetadata layer.strAddress) := by
  have hBit : ∀ i j, layer.bit i j = decide (layer.staMetadata (gen.index cols i j) ≠ 0) := by
    intro i j
    rw [SparseMemory.bit, hStaIndex]
  refine ⟨fun i hi j hj hSet => ?_, fun i hi j hj hNot => ?_, fun table k hk j hj => ?_⟩
  · rw [hBit, decide_eq_true_eq] at hSet
    rw [decodeElement, if_pos hSet, rank_eq_sourceId hK hSta hBit hi hj.le]
  · rw [hBit, decide_eq_false_iff_not] at hNot
    rw [decodeElement, if_neg hNot]
  · rw [SparseLayer.strValue, decodeElement]
    split
    · rename_i hSet
      rw [strCounters_eq_sourceId hK' hStr hStrIndex table hk hj hSet,
        if_pos (by rwa [← hStrIndex])]
    · rename_i hNot
      rw [if_neg (by rwa [← hStrIndex])]

end

/-- Both dataflows give the vectors their places. -/
theorem ready_setSparseLayer (dataflow : SparseDataflow) {numMs M N K : Nat} (hMs : 2 ≤ numMs)
    (hM : 0 < M) (hN : 0 < N) (hK : 0 < K) {mkMetadata knMetadata : Nat → Nat}
    {mkAddress knAddress : Nat → Int}
    (hVectors : ∀ i < (dataflow.setSparseLayer numMs M N K mkMetadata knMetadata mkAddress
      knAddress).dimSta, 0 < (dataflow.setSparseLayer numMs M N K mkMetadata knMetadata mkAddress
        knAddress).size i) :
    (dataflow.setSparseLayer numMs M N K mkMetadata knMetadata mkAddress knAddress).Ready
      (match dataflow with
        | .mkStaKnStr => decodeElement .genByRows M K mkMetadata mkAddress
        | .mkStrKnSta => decodeElement .genByCols K N knMetadata knAddress)
      (match dataflow with
        | .mkStaKnStr => decodeElement .genByCols K N knMetadata knAddress
        | .mkStrKnSta => decodeElement .genByRows M K mkMetadata mkAddress) := by
  cases dataflow with
  | mkStaKnStr =>
      refine ⟨@describes_of_index .genByRows M K _ .genByCols K N rfl rfl ?_ rfl rfl ?_,
        indexed_setLayer .mkStaKnStr numMs M N K mkMetadata mkAddress, ?_, hMs, hK, hM, hN,
        hVectors⟩
      · exact SparseDataflow.staIndex_setLayer .mkStaKnStr numMs M N K mkMetadata mkAddress
      · intro k j
        simp only [SparseLayer.strIndex, SparseDataflow.setSparseLayer, GenerationType.index]
        ring
      · intro i hi k hk i' hi' k' hk' hSame
        simp only [SparseLayer.outputIndex, SparseDataflow.setSparseLayer, Nat.mul_one] at hSame
        exact radix_inj hk hk' hSame
  | mkStrKnSta =>
      refine ⟨@describes_of_index .genByCols K N _ .genByRows M K rfl rfl ?_ rfl rfl ?_,
        indexed_setLayer .mkStrKnSta numMs M N K knMetadata knAddress, ?_, hMs, hK, hN, hM,
        hVectors⟩
      · exact SparseDataflow.staIndex_setLayer .mkStrKnSta numMs M N K knMetadata knAddress
      · intro k j
        simp only [SparseLayer.strIndex, SparseDataflow.setSparseLayer, GenerationType.index]
        ring
      · intro i hi k hk i' hi' k' hk' hSame
        simp only [SparseLayer.outputIndex, SparseDataflow.setSparseLayer, Nat.mul_one] at hSame
        rw [Nat.add_comm, Nat.add_comm i'] at hSame
        exact (radix_inj hi hi' hSame).symm

/-- The output memory of a run that is done, whatever the dataflow. -/
theorem outputAddress_of_finished (dataflow : SparseDataflow) {numMs M N K : Nat} (hMs : 2 ≤ numMs)
    (hM : 0 < M) (hN : 0 < N) (hK : 0 < K) {mkMetadata knMetadata : Nat → Nat}
    {mkAddress knAddress : Nat → Int}
    (hVectors : ∀ i < (dataflow.setSparseLayer numMs M N K mkMetadata knMetadata mkAddress
      knAddress).dimSta, 0 < (dataflow.setSparseLayer numMs M N K mkMetadata knMetadata mkAddress
        knAddress).size i)
    (staCountersTable strCountersTable : Nat → Nat) (outputs : Nat → Int)
    (arrivals : Nat → List Nat) (t : Nat) :
    let layer := dataflow.setSparseLayer numMs M N K mkMetadata knMetadata mkAddress knAddress
    let st := scheduled layer.cycle arrivals
      (SparseLayer.start staCountersTable strCountersTable outputs) t
    st.memory.executionFinished = true → st.outputAddress =
      exactSparseRun N K M mkAddress knAddress mkMetadata knMetadata outputs := by
  intro layer st hDone
  have hReady := ready_setSparseLayer dataflow hMs hM hN hK hVectors
  obtain ⟨hProducts, hOthers⟩ := SparseLayer.products_of_finished hReady staCountersTable
    strCountersTable outputs arrivals t hDone
  have hProduct : ∀ i < M, ∀ j < N, exactSparseRun N K M mkAddress knAddress mkMetadata knMetadata
      outputs (i * N + j) = ∑ k ∈ Finset.range K,
        decodeElement .genByRows M K mkMetadata mkAddress i k *
          decodeElement .genByCols K N knMetadata knAddress j k := by
    intro i hi j hj
    rw [exactSparseRun, cpuGemm_apply _ _ _ K hi hj]
    apply Finset.sum_congr rfl
    intro k hk
    have hk := Finset.mem_range.mp hk
    have hLeft := @decodeMatrix_index .genByRows M K i k hi hk mkMetadata mkAddress
    have hRight := @decodeMatrix_index .genByCols K N j k hj hk knMetadata knAddress
    simp only [GenerationType.index] at hLeft hRight
    rw [hLeft, hRight]
  funext a
  rcases Nat.lt_or_ge a (M * N) with ha | ha
  · obtain ⟨i, hi, j, hj, rfl⟩ := exists_radix ha
    rw [hProduct i hi j hj]
    cases dataflow with
    | mkStaKnStr =>
        have hHere := hProducts i hi j hj
        simp only [SparseLayer.outputIndex, SparseDataflow.setSparseLayer, Nat.mul_one] at hHere
        exact hHere
    | mkStrKnSta =>
        have hHere := hProducts j hj i hi
        simp only [SparseLayer.outputIndex, SparseDataflow.setSparseLayer, Nat.mul_one] at hHere
        rw [Nat.add_comm] at hHere
        refine hHere.trans (Finset.sum_congr rfl fun k _ => mul_comm _ _)
  · rw [exactSparseRun, cpuGemm_of_ge _ _ _ _ ha]
    apply hOthers
    intro i hi k hk hSame
    cases dataflow with
    | mkStaKnStr =>
        simp only [SparseLayer.outputIndex, SparseDataflow.setSparseLayer, Nat.mul_one] at hSame
        have hLess : i * N + k < M * N := radix_lt hi hk
        omega
    | mkStrKnSta =>
        simp only [SparseLayer.outputIndex, SparseDataflow.setSparseLayer, Nat.mul_one] at hSame
        have hLess : k * N + i < M * N := radix_lt hk hi
        omega

/-- With a reduction network that delivers the sum of every neuron at some time, the controller
computes what the linker takes a run to compute, for all bitmaps without an empty stationary
vector and whenever the results come back. -/
theorem sparseController_exact (dataflow : SparseDataflow) {numMs M N K : Nat} (hMs : 2 ≤ numMs)
    (hM : 0 < M) (hN : 0 < N) (hK : 0 < K) {mkMetadata knMetadata : Nat → Nat}
    {mkAddress knAddress : Nat → Int}
    (hVectors : ∀ i < (dataflow.setSparseLayer numMs M N K mkMetadata knMetadata mkAddress
      knAddress).dimSta, 0 < (dataflow.setSparseLayer numMs M N K mkMetadata knMetadata mkAddress
        knAddress).size i)
    (staCountersTable strCountersTable : Nat → Nat) (outputs : Nat → Int)
    (arrivals : Nat → List Nat) :
    let layer := dataflow.setSparseLayer numMs M N K mkMetadata knMetadata mkAddress knAddress
    let run := scheduled layer.cycle arrivals
      (SparseLayer.start staCountersTable strCountersTable outputs)
    (∀ t, (run t).memory.executionFinished = true → (run t).outputAddress =
        exactSparseRun N K M mkAddress knAddress mkMetadata knMetadata outputs) ∧
      (SparseLayer.Fair arrivals run → ∃ t, (run t).memory.executionFinished = true) := by
  intro layer run
  refine ⟨fun t => outputAddress_of_finished dataflow hMs hM hN hK hVectors staCountersTable
    strCountersTable outputs arrivals t, fun hFair => ?_⟩
  exact SparseLayer.exists_finished (ready_setSparseLayer dataflow hMs hM hN hK hVectors)
    staCountersTable strCountersTable outputs hFair

/-- A stationary vector of six bits on four multipliers: four, and then a psum and two. -/
theorem sparseController_exact_folded :
    let layer := SparseDataflow.mkStaKnStr.setSparseLayer 4 1 1 6 (fun _ => 1) (fun _ => 1)
      (fun a => a) (fun a => a + 1)
    let run := scheduled layer.cycle (fun _ => [0])
      (SparseLayer.start (fun _ => 0) (fun _ => 0) fun _ => 0)
    (run 8).outputAddress =
      exactSparseRun 1 6 1 (fun a => a) (fun a => a + 1) (fun _ => 1) (fun _ => 1) fun _ => 0 := by
  apply (sparseController_exact .mkStaKnStr (by decide) Nat.one_pos Nat.one_pos (by decide)
    (by decide) _ _ _ _).1 8
  decide

/-! ## Dense operands -/

/-- The encoder sets a bit in every vector of three elements or more. -/
theorem countP_generateBitMapFromDense_pos {gen : GenerationType} {rows cols i : Nat}
    (hSize : 3 ≤ gen.vectorSize rows cols) (hi : i < gen.vectors rows cols) (dense : Nat → Int)
    (heap : Nat → Nat) :
    0 < (List.range (gen.vectorSize rows cols)).countP fun j =>
      generateBitMapFromDense gen rows cols dense heap (gen.index cols i j) ≠ 0 := by
  have hCodec := @bitmapCodec_of_le gen rows cols hSize
  rcases Nat.lt_or_ge (nonZeros (fun j => dense (gen.index cols i j)) (gen.vectorSize rows cols)) 3
    with hPadded | hFull
  · rw [hCodec.paddedBits dense heap i hi hPadded]
    omega
  · have hMore : nonZeros (fun j => dense (gen.index cols i j)) (gen.vectorSize rows cols) ≤
        (List.range (gen.vectorSize rows cols)).countP fun j =>
          generateBitMapFromDense gen rows cols dense heap (gen.index cols i j) ≠ 0 := by
      apply List.countP_mono_left
      intro j hj hValue
      rw [hCodec.nonZero dense heap i hi j (List.mem_range.mp hj) (of_decide_eq_true hValue)]
      rfl
    omega

/-- The layer of two dense matrices. -/
def SparseDataflow.setDenseOperands (dataflow : SparseDataflow) (numMs M N K : Nat)
    (mk kn : Nat → Int) (mkHeap knHeap : Nat → Nat) : SparseLayer :=
  let mkBitmap := generateBitMapFromDense .genByRows M K mk mkHeap
  let knBitmap := generateBitMapFromDense .genByCols K N kn knHeap
  dataflow.setSparseLayer numMs M N K mkBitmap knBitmap
    ((generateMatrixSparseFromDense .genByRows M K mk mkBitmap).getD · 0)
    ((generateMatrixSparseFromDense .genByCols K N kn knBitmap).getD · 0)

theorem size_setDenseOperands (dataflow : SparseDataflow) {numMs M N K : Nat} (hK : 3 ≤ K)
    (mk kn : Nat → Int) (mkHeap knHeap : Nat → Nat) {i : Nat}
    (hi : i < (dataflow.setDenseOperands numMs M N K mk kn mkHeap knHeap).dimSta) :
    0 < (dataflow.setDenseOperands numMs M N K mk kn mkHeap knHeap).size i := by
  cases dataflow with
  | mkStaKnStr =>
      refine (@countP_generateBitMapFromDense_pos .genByRows M K i hK hi mk mkHeap).trans_eq
        (List.countP_congr fun j _ => ?_)
      rw [SparseMemory.bit]
      change _ ↔ decide (generateBitMapFromDense .genByRows M K mk mkHeap
        ((SparseDataflow.mkStaKnStr.setLayer numMs M N K _ _).staIndex i j) ≠ 0) = true
      rw [SparseDataflow.staIndex_setLayer]
      rfl
  | mkStrKnSta =>
      refine (@countP_generateBitMapFromDense_pos .genByCols K N i hK hi kn knHeap).trans_eq
        (List.countP_congr fun j _ => ?_)
      rw [SparseMemory.bit]
      change _ ↔ decide (generateBitMapFromDense .genByCols K N kn knHeap
        ((SparseDataflow.mkStrKnSta.setLayer numMs M N K _ _).staIndex i j) ≠ 0) = true
      rw [SparseDataflow.staIndex_setLayer]
      rfl

/-- For dense operands, and with a reduction network that delivers the sum of every neuron at some
time, the controller computes their product: the bits that the encoder adds to short vectors are
products with zero, and no stationary vector is empty. -/
theorem denseOperands_product (dataflow : SparseDataflow) {numMs M N K : Nat} (hMs : 2 ≤ numMs)
    (hM : 0 < M) (hN : 0 < N) (hK : 3 ≤ K) (mk kn : Nat → Int) (mkHeap knHeap : Nat → Nat)
    (staCountersTable strCountersTable : Nat → Nat) (outputs : Nat → Int)
    (arrivals : Nat → List Nat) :
    let layer := dataflow.setDenseOperands numMs M N K mk kn mkHeap knHeap
    let run := scheduled layer.cycle arrivals
      (SparseLayer.start staCountersTable strCountersTable outputs)
    (∀ t, (run t).memory.executionFinished = true →
        (run t).outputAddress = cpuGemm mk kn outputs M N K) ∧
      (SparseLayer.Fair arrivals run → ∃ t, (run t).memory.executionFinished = true) := by
  intro layer run
  have hPos : 0 < K := by omega
  have hVectors := fun i => @size_setDenseOperands dataflow numMs M N K hK mk kn mkHeap knHeap i
  refine ⟨fun t hDone => ?_, fun hFair => ?_⟩
  · refine (outputAddress_of_finished dataflow hMs hM hN hPos hVectors staCountersTable
      strCountersTable outputs arrivals t hDone).trans ?_
    exact (encodedRun_fills hK mk kn mkHeap knHeap).unique (cpuGemm_fills mk kn M N K) ▸ rfl
  · exact SparseLayer.exists_finished (ready_setSparseLayer dataflow hMs hM hN hPos hVectors)
      staCountersTable strCountersTable outputs hFair

/-- Two rows of five elements on four multipliers; the second has one nonzero element, and the
encoder sets three bits. -/
theorem denseOperands_product_two_rows :
    let mk := fun a : Nat => if a < 5 then (a : Int) + 1 else if a = 7 then 9 else 0
    let layer := SparseDataflow.mkStaKnStr.setDenseOperands 4 2 1 5 mk (fun a => a)
      (fun _ => 1) fun _ => 1
    let run := scheduled layer.cycle (fun _ => [0])
      (SparseLayer.start (fun _ => 0) (fun _ => 0) fun _ => 0)
    (run 12).outputAddress = cpuGemm mk (fun a => a) (fun _ => 0) 2 1 5 := by
  apply (denseOperands_product .mkStaKnStr (by decide) (by decide) Nat.one_pos (by decide)
    _ _ _ _ _ _ _ _).1 12
  decide

end Stonne
