import Stonne.Sigma.Streaming

/-!
# The sparse product

A round adds to the products of its stationary vectors what they have between two elements, and
the rounds part the bits of every vector.  So when the controller is done every output is the
product of a stationary and a streamed vector, in whatever order the results of the neurons
come back, and it is done after finitely many cycles if every result comes back at some time.
-/

namespace Stonne

open Dataflow

/-! ## The outputs that the controller counts -/

namespace SparseMemory

theorem iterate_receive_of_lt {st : SparseSDMemory} {m : Nat}
    (h : st.currentOutputIteration + m < st.outputSizeIteration) :
    receive^[m] st = { st with currentOutputIteration := st.currentOutputIteration + m } := by
  induction m with
  | zero => rfl
  | succ m ih =>
      rw [Function.iterate_succ_apply', ih (by omega), receive, if_neg (by simp only; omega)]
      rfl

/-- The last output of a round. -/
theorem iterate_receive_of_eq {st : SparseSDMemory} {m : Nat} (hm : 0 < m)
    (h : st.currentOutputIteration + m = st.outputSizeIteration) :
    receive^[m] st = { st with currentOutputIteration := 0, staIterCompleted := true } := by
  obtain ⟨m, rfl⟩ := Nat.exists_eq_succ_of_ne_zero hm.ne'
  rw [Function.iterate_succ_apply', iterate_receive_of_lt (by omega), receive,
    if_pos (by simp only; omega)]

end SparseMemory

namespace SparseLayer

/-- A layer on which the controller works: in every stationary vector a bit is set, and the
outputs have different places. -/
structure Ready (layer : SparseLayer) (sta str : Nat → Nat → Int) : Prop where
  describes : layer.Describes sta str
  indexed : layer.Indexed
  outputs : ∀ i < layer.dimSta, ∀ k < layer.dimStr, ∀ i' < layer.dimSta, ∀ k' < layer.dimStr,
    layer.outputIndex i k = layer.outputIndex i' k' → i = i' ∧ k = k'
  numMs : 2 ≤ layer.numMs
  K : 0 < layer.K
  dimSta : 0 < layer.dimSta
  dimStr : 0 < layer.dimStr
  vectors : ∀ i < layer.dimSta, 0 < layer.size i

/-- How many elements of stationary vector `i` are in the output for streamed vector `k`. -/
def progress (layer : SparseLayer) (p : Position) (n last : Nat) (vnatTable : Nat → Nat)
    (i k : Nat) : Nat :=
  if i < p.index then layer.K
  else if i < p.index + n ∧ k < vnatTable (i - p.index) then last
  else if i = p.index then p.j
  else 0

/-- The output memory during a round. -/
structure Written (layer : SparseLayer) (sta str : Nat → Nat → Int) (outputs : Nat → Int)
    (p : Position) (n last : Nat) (vnatTable : Nat → Nat) (outputAddress : Nat → Int) :
    Prop where
  products : ∀ i < layer.dimSta, ∀ k < layer.dimStr, 0 < layer.progress p n last vnatTable i k →
    outputAddress (layer.outputIndex i k) =
      partialSum sta str i (layer.progress p n last vnatTable i k) k
  others : ∀ a, (∀ i < layer.dimSta, ∀ k < layer.dimStr, a ≠ layer.outputIndex i k) →
    outputAddress a = outputs a

/-- What has come back of a round that has sent some vectors. -/
structure Returned (layer : SparseLayer) (sta str : Nat → Nat → Int) (outputs : Nat → Int)
    (n last sent : Nat) (st : SparseGemm) : Prop where
  counts : ∀ v, st.vnatTable v ≤ sent
  results : ∀ v < n, st.results v =
    (List.range' (st.vnatTable v) (sent - st.vnatTable v)).map
      (partialSum sta str (st.memory.position.index + v) last)
  noOthers : ∀ v, n ≤ v → st.results v = []
  written : layer.Written sta str outputs st.memory.position n last st.vnatTable st.outputAddress

/-- The packages of a round that have come back. -/
def returned (n : Nat) (st : SparseGemm) : Nat :=
  ∑ v ∈ Finset.range n, st.vnatTable v

/-- What receiving changes. -/
structure Received (layer : SparseLayer) (sta str : Nat → Nat → Int) (outputs : Nat → Int)
    (n last sent : Nat) (st : SparseGemm) (received : SparseGemm × Nat) : Prop where
  memory : received.1.memory = st.memory
  staCountersTable : received.1.staCountersTable = st.staCountersTable
  strCountersTable : received.1.strCountersTable = st.strCountersTable
  weights : received.1.weights = st.weights
  returned : layer.Returned sta str outputs n last sent received.1
  count : SparseLayer.returned n received.1 = SparseLayer.returned n st + received.2
  idle : received.2 = 0 → received.1 = st

section

variable {layer : SparseLayer} {sta str : Nat → Nat → Int} {outputs : Nat → Int}
  {n last sent : Nat} {st : SparseGemm}

/-- The package of a neuron is the next product of its vector. -/
theorem Returned.receiveOne (hReady : layer.Ready sta str)
    (h : layer.Returned sta str outputs n last sent st)
    (hInside : st.memory.position.index + n ≤ layer.dimSta) (hSent : sent ≤ layer.dimStr)
    {vn : Nat} {data : Int} {rest : List Int} (hData : st.results vn = data :: rest) :
    vn < n ∧ layer.Returned sta str outputs n last sent
      { st with
        outputAddress := Function.update st.outputAddress
          (layer.outputIndex (st.memory.position.index + vn) (st.vnatTable vn)) data
        vnatTable := Function.update st.vnatTable vn (st.vnatTable vn + 1)
        results := Function.update st.results vn rest } := by
  have hv : vn < n := by
    by_contra hMore
    rw [h.noOthers vn (Nat.le_of_not_lt hMore)] at hData
    exact nomatch hData
  have hResults := h.results vn hv
  rw [hData] at hResults
  have hMore : st.vnatTable vn < sent := by
    by_contra hNone
    rw [Nat.sub_eq_zero_of_le (Nat.le_of_not_lt hNone)] at hResults
    exact nomatch hResults
  obtain ⟨d, hd⟩ := Nat.exists_eq_succ_of_ne_zero (Nat.sub_ne_zero_of_lt hMore)
  rw [hd, List.range'_succ, List.map_cons, List.cons.injEq] at hResults
  obtain ⟨hFirst, hRest⟩ := hResults
  refine ⟨hv, fun v => ?_, fun v hv' => ?_, fun v hv' => ?_, ?_, ?_⟩
  · rcases eq_or_ne v vn with rfl | hOther
    · simp only [Function.update_self]
      exact hMore
    · simp only [Function.update_of_ne hOther]
      exact h.counts v
  · rcases eq_or_ne v vn with rfl | hOther
    · simp only [Function.update_self]
      rw [hRest]
      congr 2
      omega
    · simp only [Function.update_of_ne hOther]
      exact h.results v hv'
  · simp only [Function.update_of_ne (show v ≠ vn by omega)]
    exact h.noOthers v hv'
  · intro i hi k hk hSome
    simp only at hSome ⊢
    by_cases hHere : i = st.memory.position.index + vn ∧ k = st.vnatTable vn
    · obtain ⟨rfl, rfl⟩ := hHere
      rw [Function.update_self, hFirst, progress, if_neg (by omega), Nat.add_sub_cancel_left,
        Function.update_self, if_pos ⟨by omega, Nat.lt_succ_self _⟩]
    · have hSame : layer.progress st.memory.position n last
          (Function.update st.vnatTable vn (st.vnatTable vn + 1)) i k =
          layer.progress st.memory.position n last st.vnatTable i k := by
        rcases Nat.lt_or_ge i st.memory.position.index with hBefore | hAfter
        · rw [progress, progress, if_pos hBefore, if_pos hBefore]
        · rcases eq_or_ne (i - st.memory.position.index) vn with hEq | hOther
          · have hLess : k < st.vnatTable vn + 1 ↔ k < st.vnatTable vn := by omega
            simp only [progress, hEq, Function.update_self, hLess]
          · simp only [progress, Function.update_of_ne hOther]
      rw [hSame] at hSome ⊢
      rw [Function.update_of_ne, h.written.products i hi k hk hSome]
      intro hPlace
      exact hHere (hReady.outputs i hi k hk _ (by omega) _ (by omega) hPlace)
  · intro a ha
    simp only
    rw [Function.update_of_ne (ha _ (by omega) _ (by omega)), h.written.others a ha]

theorem Received.receiveOne (hReady : layer.Ready sta str)
    (hInside : st.memory.position.index + n ≤ layer.dimSta) (hSent : sent ≤ layer.dimStr)
    {received : SparseGemm × Nat} (h : layer.Received sta str outputs n last sent st received)
    (vn : Nat) : layer.Received sta str outputs n last sent st (layer.receiveOne received vn) := by
  rw [SparseLayer.receiveOne]
  cases hResults : received.1.results vn with
  | nil => exact h
  | cons data rest =>
      have hInside' : received.1.memory.position.index + n ≤ layer.dimSta := by
        rw [h.memory]
        exact hInside
      obtain ⟨hv, hReturned⟩ := h.returned.receiveOne hReady hInside' hSent hResults
      refine ⟨h.memory, h.staCountersTable, h.strCountersTable, h.weights, hReturned, ?_,
        fun hNot => absurd hNot (Nat.succ_ne_zero _)⟩
      have hCount := h.count
      rw [SparseLayer.returned] at hCount
      change ∑ v ∈ Finset.range n, Function.update received.1.vnatTable vn
        (received.1.vnatTable vn + 1) v = SparseLayer.returned n st + (received.2 + 1)
      rw [Finset.sum_update_of_mem (Finset.mem_range.mpr hv), Finset.sdiff_singleton_eq_erase,
        Nat.add_right_comm, Finset.add_sum_erase _ _ (Finset.mem_range.mpr hv)]
      omega

theorem Returned.receiveAll (hReady : layer.Ready sta str)
    (h : layer.Returned sta str outputs n last sent st)
    (hInside : st.memory.position.index + n ≤ layer.dimSta) (hSent : sent ≤ layer.dimStr)
    (arrivals : List Nat) :
    layer.Received sta str outputs n last sent st (arrivals.foldl layer.receiveOne (st, 0)) := by
  induction arrivals using List.reverseRecOn with
  | nil => exact ⟨rfl, rfl, rfl, rfl, h, rfl, fun _ => rfl⟩
  | append_singleton arrivals vn ih =>
      rw [List.foldl_append]
      exact ih.receiveOne hReady hInside hSent vn

/-- A neuron with a result is not ignored. -/
theorem Returned.receiveAll_pos (hReady : layer.Ready sta str)
    (h : layer.Returned sta str outputs n last sent st)
    (hInside : st.memory.position.index + n ≤ layer.dimSta) (hSent : sent ≤ layer.dimStr)
    {arrivals : List Nat} {v : Nat} (hArrives : v ∈ arrivals) (hResults : st.results v ≠ []) :
    0 < (arrivals.foldl layer.receiveOne (st, 0)).2 := by
  have hMono : ∀ received v, received.2 ≤ (layer.receiveOne received v).2 := by
    intro received v
    rw [SparseLayer.receiveOne]
    split
    · exact le_rfl
    · exact Nat.le_succ _
  induction arrivals using List.reverseRecOn with
  | nil => exact absurd hArrives (List.not_mem_nil)
  | append_singleton arrivals vn ih =>
      rw [List.foldl_append, List.foldl_cons, List.foldl_nil]
      rcases List.mem_append.mp hArrives with hEarlier | hLast
      · exact (ih hEarlier).trans_le (hMono _ _)
      · obtain rfl := List.mem_singleton.mp hLast
        have hReceived := h.receiveAll hReady hInside hSent arrivals
        rcases Nat.eq_zero_or_pos (arrivals.foldl layer.receiveOne (st, 0)).2 with hNone | hSome
        · rw [SparseLayer.receiveOne, hReceived.idle hNone]
          cases hEq : st.results v with
          | nil => exact absurd hEq hResults
          | cons data rest => exact Nat.succ_pos _
        · exact hSome.trans_le (hMono _ _)

/-- When nothing is on its way nothing is received. -/
theorem receiveAll_of_none (hNone : ∀ v, st.results v = []) (arrivals : List Nat) :
    arrivals.foldl layer.receiveOne (st, 0) = (st, 0) := by
  induction arrivals with
  | nil => rfl
  | cons v arrivals ih =>
      rw [List.foldl_cons]
      have hOne : layer.receiveOne (st, 0) v = (st, 0) := by
        simp only [SparseLayer.receiveOne, hNone]
      rw [hOne, ih]

end

/-! ## The states of a run -/

/-- The controller between two rounds. -/
structure Between (layer : SparseLayer) (sta str : Nat → Nat → Int) (outputs : Nat → Int)
    (st : SparseGemm) : Prop where
  aligned : layer.Aligned st.memory.position
  strIndex : st.memory.strCurrentIndex = 0
  iteration : st.memory.currentOutputIteration = 0
  completed : st.memory.staIterCompleted = false
  results : ∀ v, st.results v = []
  written : layer.Written sta str outputs st.memory.position 0 0 (fun _ => 0) st.outputAddress

/-- The controller during a round of `n` vectors, up to element `last`. -/
structure During (layer : SparseLayer) (sta str : Nat → Nat → Int) (outputs : Nat → Int)
    (n last : Nat) (st : SparseGemm) : Prop where
  aligned : layer.Aligned st.memory.position
  takes : layer.Takes st.memory.position.index st.memory.position.j n last
  round : SparseMemory.InRound layer.toSparseMemory (layer.packing st)
  strCounters : ∃ table, st.strCountersTable = layer.strCounters table
  returned : layer.Returned sta str outputs n last st.memory.strCurrentIndex st
  sent : st.memory.strCurrentIndex ≤ layer.dimStr
  iteration : st.memory.currentOutputIteration = SparseLayer.returned n st
  size : st.memory.outputSizeIteration = n * layer.dimStr
  more : SparseLayer.returned n st < n * layer.dimStr
  completed : st.memory.staIterCompleted = false
  weights : st.memory.currentState ≠ .distStaMatrix → st.weights =
    layer.stationaryPackages st.memory.position.matrix st.memory.configurationVNs

/-- What holds in every state of a run. -/
structure Computes (layer : SparseLayer) (sta str : Nat → Nat → Int) (outputs : Nat → Int)
    (st : SparseGemm) : Prop where
  begins : st.memory.currentState = .configuring →
    st.memory.position.index < layer.dimSta ∧ layer.Between sta str outputs st
  sends : st.memory.currentState = .distStaMatrix →
    st.memory.strCurrentIndex = 0 ∧ ∃ n last, layer.During sta str outputs n last st
  streams : st.memory.currentState = .distStrMatrix →
    st.memory.strCurrentIndex < layer.dimStr ∧ ∃ n last, layer.During sta str outputs n last st
  waits : st.memory.currentState = .waitingForNextStaIter →
    st.memory.strCurrentIndex = layer.dimStr ∧ ∃ n last, layer.During sta str outputs n last st
  ends : st.memory.currentState = .allDataSent →
    st.memory.position.index = layer.dimSta ∧ st.memory.executionFinished = true ∧
      layer.Between sta str outputs st
  finished : st.memory.executionFinished = true → st.memory.currentState = .allDataSent

section

variable {layer : SparseLayer} {sta str : Nat → Nat → Int} {outputs : Nat → Int}
  {n last : Nat} {st : SparseGemm}

theorem returned_le {m : Nat} (h : ∀ v, st.vnatTable v ≤ m) :
    SparseLayer.returned n st ≤ n * m := by
  calc SparseLayer.returned n st ≤ ∑ _v ∈ Finset.range n, m := Finset.sum_le_sum fun v _ => h v
    _ = n * m := by rw [Finset.sum_const, Finset.card_range, smul_eq_mul]

/-- When all outputs have come back every neuron has returned one for every vector. -/
theorem eq_of_returned {m : Nat} (h : ∀ v, st.vnatTable v ≤ m)
    (hAll : SparseLayer.returned n st = n * m) : ∀ v < n, st.vnatTable v = m := by
  intro v hv
  by_contra hNot
  have hLess : SparseLayer.returned n st < ∑ _v ∈ Finset.range n, m :=
    Finset.sum_lt_sum (fun v _ => h v)
      ⟨v, Finset.mem_range.mpr hv, Nat.lt_of_le_of_ne (h v) hNot⟩
  rw [Finset.sum_const, Finset.card_range, smul_eq_mul] at hLess
  omega

/-- Behind the round its elements are in the output. -/
theorem Written.next {p : Position} {vnatTable : Nat → Nat} {outputAddress : Nat → Int}
    (h : layer.Written sta str outputs p n last vnatTable outputAddress)
    (hTakes : layer.Takes p.index p.j n last) (hAll : ∀ v < n, vnatTable v = layer.dimStr)
    (hNext : layer.next p = if last = layer.K then ⟨p.index + n, 0, layer.rank (p.index + n) 0⟩
      else ⟨p.index, last, layer.rank p.index last⟩) :
    layer.Written sta str outputs (layer.next p) 0 0 (fun _ => 0) outputAddress := by
  refine ⟨fun i hi k hk hSome => ?_, h.others⟩
  have hSame : layer.progress (layer.next p) 0 0 (fun _ => 0) i k =
      layer.progress p n last vnatTable i k := by
    have hRound : i < p.index + n → p.index ≤ i → k < vnatTable (i - p.index) := by
      intro hLess hMore
      rw [hAll _ (by omega)]
      exact hk
    rw [hNext] at hSome ⊢
    unfold progress at hSome ⊢
    rcases hTakes.single with rfl | ⟨hZero, rfl⟩
    · split at hSome
      · grind
      · grind
    · rw [if_pos rfl] at hSome ⊢
      grind
  rw [hSame] at hSome ⊢
  exact h.products i hi k hk hSome

/-! ## A cycle -/

/-- `CONFIGURING` starts a round. -/
theorem Between.configuring (hReady : layer.Ready sta str)
    (h : layer.Between sta str outputs st) (hState : st.memory.currentState = .configuring)
    (hInside : st.memory.position.index < layer.dimSta) (arrivals : List Nat) :
    let st' := layer.cycle st arrivals
    st'.memory.currentState = .distStaMatrix ∧ st'.memory.strCurrentIndex = 0 ∧
      st'.memory.position = st.memory.position ∧
      st'.memory.executionFinished = st.memory.executionFinished ∧
      ∃ n last, layer.During sta str outputs n last st' := by
  obtain ⟨n, last, hTakes⟩ := SparseMemory.exists_takes hReady.numMs hReady.K hReady.vectors hInside
    h.aligned.unfinished
  have hMemory : layer.toSparseMemory.cycle st.memory 0 =
      { st.memory with
        currentState := .distStaMatrix
        configurationVNs := (layer.configure st.memory.position.index
          st.memory.position.j).configurationVNs
        staLastJMetadata := (layer.configure st.memory.position.index
          st.memory.position.j).staLastJMetadata
        outputSizeIteration := (layer.configure st.memory.position.index
          st.memory.position.j).configurationVNs.length * layer.dimStr } := by
    simp only [SparseMemory.cycle, SparseMemory.generate, SparseMemory.transition, hState,
      Function.iterate_zero, id_eq]
  have hPrepare : layer.prepare st =
      { st with
        staCountersTable := SparseMemory.writeCounters st.staCountersTable
          (layer.scan st.memory.position.index st.memory.position.j).staCounters
        strCountersTable := layer.strCounters st.strCountersTable
        vnatTable := fun _ => 0 } := by
    simp only [prepare, hState]
  have hNone : ∀ v, (layer.prepare st).results v = [] := by
    rw [hPrepare]
    exact h.results
  have hCycle : layer.cycle st arrivals =
      { layer.prepare st with memory := layer.toSparseMemory.cycle st.memory 0 } := by
    simp only [cycle, receiveAll_of_none hNone, hState, reduceCtorEq, if_false]
  intro st'
  have hSt : st' = { layer.prepare st with memory := layer.toSparseMemory.cycle st.memory 0 } :=
    hCycle
  rw [hPrepare, hMemory] at hSt
  rw [hSt]
  have hZero : SparseLayer.returned n { st with vnatTable := fun _ => 0 } = 0 := by
    rw [SparseLayer.returned]
    exact Finset.sum_const_zero
  refine ⟨rfl, h.strIndex, rfl, rfl, n, last, ?_⟩
  refine ⟨h.aligned, hTakes, ⟨rfl, rfl, st.staCountersTable, rfl⟩, ⟨_, rfl⟩, ?_, ?_, ?_, ?_, ?_,
    h.completed, fun hNot => absurd rfl hNot⟩
  · refine ⟨fun v => Nat.zero_le _, fun v _ => ?_, fun v _ => h.results v, ?_, h.written.others⟩
    · simp only [h.results, h.strIndex, Nat.sub_self, List.range'_zero, List.map_nil]
    · intro i hi k hk hSome
      have hSame : layer.progress st.memory.position n last (fun _ => 0) i k =
          layer.progress st.memory.position 0 0 (fun _ => 0) i k := by
        simp [progress]
      simp only [hSame] at hSome ⊢
      exact h.written.products i hi k hk hSome
  · simp only [h.strIndex]
    exact Nat.zero_le _
  · simp only [h.iteration]
    exact hZero.symm
  · simp only [hTakes.length]
  · change SparseLayer.returned n { st with vnatTable := fun _ => 0 } < _
    rw [hZero]
    exact Nat.mul_pos hTakes.vectors.1 hReady.dimStr

/-- `DIST_STA_MATRIX` sends the weights. -/
theorem During.distStaMatrix (h : layer.During sta str outputs n last st)
    (hState : st.memory.currentState = .distStaMatrix) (hStart : st.memory.strCurrentIndex = 0)
    (arrivals : List Nat) :
    let st' := layer.cycle st arrivals
    st'.memory.currentState = .distStrMatrix ∧ st'.memory.strCurrentIndex = 0 ∧
      st'.memory.position = st.memory.position ∧
      st'.memory.executionFinished = st.memory.executionFinished ∧
      SparseLayer.returned n st' = SparseLayer.returned n st ∧
      layer.During sta str outputs n last st' := by
  have hNone : ∀ v, st.results v = [] := by
    intro v
    rcases Nat.lt_or_ge v n with hv | hv
    · have hCount := h.returned.counts v
      rw [hStart] at hCount
      rw [h.returned.results v hv, hStart, Nat.le_zero.mp hCount]
      rfl
    · exact h.returned.noOthers v hv
  have hPrepare : layer.prepare st =
      { st with
        weights := layer.stationaryPackages st.memory.position.matrix
          st.memory.configurationVNs } := by
    simp only [prepare, hState]
  have hNone' : ∀ v, (layer.prepare st).results v = [] := by
    rw [hPrepare]
    exact hNone
  intro st'
  have hSt : st' = { layer.prepare st with memory := layer.toSparseMemory.cycle st.memory 0 } := by
    simp only [st', cycle, receiveAll_of_none hNone', hState, reduceCtorEq, if_false]
  simp only [hPrepare, SparseMemory.cycle, SparseMemory.generate, SparseMemory.transition, hState,
    Function.iterate_zero, id_eq] at hSt
  rw [hSt]
  obtain ⟨hVNs, hLast, hCounters⟩ := h.round
  exact ⟨rfl, hStart, rfl, rfl, rfl, h.aligned, h.takes, ⟨hVNs, hLast, hCounters⟩, h.strCounters,
    ⟨h.returned.counts, h.returned.results, h.returned.noOthers, h.returned.written⟩, h.sent,
    h.iteration, h.size, h.more, h.completed, fun _ => rfl⟩

/-- `DIST_STR_MATRIX` sends the next streamed vector. -/
theorem During.distStrMatrix (hReady : layer.Ready sta str)
    (h : layer.During sta str outputs n last st)
    (hState : st.memory.currentState = .distStrMatrix)
    (hMore : st.memory.strCurrentIndex < layer.dimStr) (arrivals : List Nat) :
    let st' := layer.cycle st arrivals
    st'.memory.currentState =
        (if st.memory.strCurrentIndex + 1 = layer.dimStr then .waitingForNextStaIter
          else .distStrMatrix) ∧
      st'.memory.strCurrentIndex = st.memory.strCurrentIndex + 1 ∧
      st'.memory.position = st.memory.position ∧
      st'.memory.executionFinished = st.memory.executionFinished ∧
      SparseLayer.returned n st ≤ SparseLayer.returned n st' ∧
      layer.During sta str outputs n last st' := by
  obtain ⟨hPos, hInside⟩ := h.takes.vectors
  have hPrepare : layer.prepare st = st := by
    unfold prepare
    rw [hState]
  have hReceived := h.returned.receiveAll hReady hInside h.sent arrivals
  generalize hEq : arrivals.foldl layer.receiveOne (st, 0) = received at hReceived
  have hFewer : SparseLayer.returned n received.1 < n * layer.dimStr :=
    (returned_le hReceived.returned.counts).trans_lt ((Nat.mul_lt_mul_left hPos).mpr hMore)
  have hCount := hReceived.count
  have hMemory : layer.toSparseMemory.cycle st.memory received.2 =
      { st.memory with
        currentState := if st.memory.strCurrentIndex + 1 = layer.dimStr then
          .waitingForNextStaIter else .distStrMatrix
        strCurrentIndex := st.memory.strCurrentIndex + 1
        currentOutputIteration := st.memory.currentOutputIteration + received.2 } := by
    rw [SparseMemory.cycle, SparseMemory.iterate_receive_of_lt (by
      simp only [SparseMemory.generate, hState, h.iteration, h.size]
      omega)]
    simp only [SparseMemory.generate, SparseMemory.transition, hState]
    split
    · rfl
    · rfl
  have hStr : ∀ l < layer.K, layer.strValue st.strCountersTable st.memory.strCurrentIndex l =
      str st.memory.strCurrentIndex l := by
    obtain ⟨table, hTable⟩ := h.strCounters
    rw [hTable]
    exact hReady.describes.streamed table _ hMore
  have hPsum : 0 < st.memory.position.j → st.outputAddress
      (layer.outputIndex st.memory.position.index st.memory.strCurrentIndex) =
        partialSum sta str st.memory.position.index st.memory.position.j
          st.memory.strCurrentIndex := by
    intro hFold
    have hProgress : layer.progress st.memory.position n last st.vnatTable
        st.memory.position.index st.memory.strCurrentIndex = st.memory.position.j := by
      have hCounts := h.returned.counts 0
      rw [progress, if_neg (Nat.lt_irrefl _), Nat.sub_self, if_neg (by omega), if_pos rfl]
    have hProducts := h.returned.written.products st.memory.position.index (by omega)
      st.memory.strCurrentIndex hMore (by rw [hProgress]; exact hFold)
    rwa [hProgress] at hProducts
  have hResults : ∀ v < n, layer.streamResults st v =
      [partialSum sta str (st.memory.position.index + v) last st.memory.strCurrentIndex] :=
    fun v hv => streamResults_eq h.round h.takes hReady.indexed (by have := hReady.numMs; omega)
      h.aligned.matrix hReady.describes (h.weights (by simp [hState])) hStr hPsum hv
  have hNoOthers : ∀ v, n ≤ v → layer.streamResults st v = [] := by
    intro v hv
    have hLength : st.memory.configurationVNs.length = n := h.round.length_eq h.takes
    rw [streamResults, List.getElem?_eq_none (by omega)]
  intro st'
  have hSt : st' =
      { received.1 with
        memory := layer.toSparseMemory.cycle st.memory received.2
        results := fun v => received.1.results v ++ layer.streamResults st v } := by
    simp only [st', cycle, hPrepare, hEq, hState, if_true]
  rw [hMemory] at hSt
  rw [hSt]
  obtain ⟨hVNs, hLast, hCounters⟩ := h.round
  have hReturned := hReceived.returned
  refine ⟨rfl, rfl, rfl, rfl, ?_, h.aligned, h.takes, ⟨hVNs, hLast, ?_⟩, ?_, ?_, hMore, ?_, h.size,
    hFewer, h.completed, fun _ => ?_⟩
  · exact hCount ▸ Nat.le_add_right _ _
  · obtain ⟨table, hTable⟩ := hCounters
    exact ⟨table, hReceived.staCountersTable.trans hTable⟩
  · rw [hReceived.strCountersTable]
    exact h.strCounters
  · refine ⟨fun v => (hReturned.counts v).trans (Nat.le_succ _), fun v hv => ?_, fun v hv => ?_, ?_⟩
    · simp only
      rw [hReturned.results v hv, hResults v hv, hReceived.memory]
      have hCounts := hReturned.counts v
      rw [show st.memory.strCurrentIndex + 1 - received.1.vnatTable v =
        st.memory.strCurrentIndex - received.1.vnatTable v + 1 by omega, List.range'_1_concat,
        List.map_append, Nat.add_sub_cancel' hCounts]
      rfl
    · simp only
      rw [hReturned.noOthers v hv, hNoOthers v hv]
      rfl
    · have hWritten := hReturned.written
      rw [hReceived.memory] at hWritten
      exact hWritten
  · simp only [h.iteration]
    exact hCount.symm
  · rw [hReceived.weights]
    exact h.weights (by simp [hState])

/-- The controller waits for the outputs of the round, and with the last one it moves on. -/
theorem During.waiting (hReady : layer.Ready sta str)
    (h : layer.During sta str outputs n last st)
    (hState : st.memory.currentState = .waitingForNextStaIter)
    (hAll : st.memory.strCurrentIndex = layer.dimStr) (arrivals : List Nat) :
    let st' := layer.cycle st arrivals
    (st'.memory.currentState = .waitingForNextStaIter ∧
        st'.memory.strCurrentIndex = layer.dimStr ∧
        st'.memory.position = st.memory.position ∧
        st'.memory.executionFinished = st.memory.executionFinished ∧
        layer.During sta str outputs n last st' ∧
        (SparseLayer.returned n st < SparseLayer.returned n st' ∨
          st'.results = st.results ∧
            SparseLayer.returned n st' = SparseLayer.returned n st ∧
            ∀ v ∈ arrivals, st.results v = [])) ∨
      st'.memory.position = layer.next st.memory.position ∧
        layer.Between sta str outputs st' ∧
        if layer.dimSta ≤ st'.memory.position.index then
          st'.memory.currentState = .allDataSent ∧ st'.memory.executionFinished = true
        else st'.memory.currentState = .configuring ∧
          st'.memory.executionFinished = st.memory.executionFinished := by
  obtain ⟨hPos, hInside⟩ := h.takes.vectors
  have hPrepare : layer.prepare st = st := by
    unfold prepare
    rw [hState]
  have hReceived := h.returned.receiveAll hReady hInside h.sent arrivals
  have hWakes : ∀ v ∈ arrivals, st.results v ≠ [] →
      0 < (arrivals.foldl layer.receiveOne (st, 0)).2 := fun v hv hSome =>
    h.returned.receiveAll_pos hReady hInside h.sent hv hSome
  generalize hEq : arrivals.foldl layer.receiveOne (st, 0) = received at hReceived hWakes
  have hCounts : ∀ v, received.1.vnatTable v ≤ layer.dimStr := by
    rw [← hAll]
    exact hReceived.returned.counts
  have hFits := @returned_le n received.1 _ hCounts
  have hCount := hReceived.count
  have hSize := h.size
  have hIteration := h.iteration
  have hGenerate : layer.toSparseMemory.generate st.memory = st.memory := by
    unfold SparseMemory.generate
    rw [hState]
  intro st'
  have hSt : st' = { received.1 with
      memory := layer.toSparseMemory.cycle st.memory received.2 } := by
    simp only [st', cycle, hPrepare, hEq, hState, reduceCtorEq, if_false]
  rcases hFits.lt_or_eq with hMore | hDone
  · left
    have hMemory : layer.toSparseMemory.cycle st.memory received.2 =
        { st.memory with
          currentOutputIteration := st.memory.currentOutputIteration + received.2 } := by
      rw [SparseMemory.cycle, hGenerate, SparseMemory.iterate_receive_of_lt (by omega)]
      simp only [SparseMemory.transition, hState, h.completed, Bool.false_eq_true, if_false]
    rw [hMemory] at hSt
    rw [hSt]
    obtain ⟨hVNs, hLast, hCounters⟩ := h.round
    have hReturned := hReceived.returned
    refine ⟨hState, hAll, rfl, rfl, ⟨h.aligned, h.takes, ⟨hVNs, hLast, ?_⟩, ?_, ?_, h.sent, ?_,
      hSize, hMore, h.completed, fun _ => ?_⟩, ?_⟩
    · obtain ⟨table, hTable⟩ := hCounters
      exact ⟨table, hReceived.staCountersTable.trans hTable⟩
    · rw [hReceived.strCountersTable]
      exact h.strCounters
    · have hWritten := hReturned.written
      have hResults := hReturned.results
      rw [hReceived.memory] at hWritten hResults
      exact ⟨hReturned.counts, hResults, hReturned.noOthers, hWritten⟩
    · simp only [hIteration]
      exact hCount.symm
    · rw [hReceived.weights]
      exact h.weights (by simp [hState])
    · rcases Nat.eq_zero_or_pos received.2 with hNone | hSome
      · right
        have hIdle := hReceived.idle hNone
        have hResults : received.1.results = st.results := by rw [hIdle]
        have hSame : SparseLayer.returned n received.1 = SparseLayer.returned n st := by rw [hIdle]
        refine ⟨hResults, hSame, fun v hv => ?_⟩
        by_contra hResult
        exact (hWakes v hv hResult).ne' hNone
      · left
        change SparseLayer.returned n st < SparseLayer.returned n received.1
        omega
  · right
    have hLastOutputs : 0 < received.2 := by
      have hBefore := h.more
      omega
    have hNext : ∀ count completed, layer.toSparseMemory.advance
        { st.memory with
          currentOutputIteration := count
          staIterCompleted := completed } = layer.next st.memory.position := fun _ _ =>
      SparseMemory.advance_eq_next h.round.configurationVNs h.round.staLastJMetadata
    have hMemory : layer.toSparseMemory.cycle st.memory received.2 =
        { st.memory with
          currentState := if layer.dimSta ≤ (layer.next st.memory.position).index then
            .allDataSent else .configuring
          executionFinished := if layer.dimSta ≤ (layer.next st.memory.position).index then true
            else st.memory.executionFinished
          currentOutputIteration := 0
          strCurrentIndex := 0
          staIterCompleted := false
          position := layer.next st.memory.position } := by
      rw [SparseMemory.cycle, hGenerate, SparseMemory.iterate_receive_of_eq hLastOutputs (by omega)]
      simp only [hState] at hNext
      simp only [SparseMemory.transition, hState, if_true, hNext]
      split
      · rfl
      · rfl
    have hTable := eq_of_returned hCounts hDone
    obtain ⟨hAligned, hPosition⟩ := h.aligned.next h.takes
    have hWritten := hReceived.returned.written
    rw [hReceived.memory] at hWritten
    rw [hMemory] at hSt
    rw [hSt]
    refine ⟨rfl, ⟨hAligned, rfl, rfl, rfl, fun v => ?_, ?_⟩, ?_⟩
    · rcases Nat.lt_or_ge v n with hv | hv
      · simp only [hReceived.returned.results v hv, hTable v hv, hAll, Nat.sub_self,
          List.range'_zero, List.map_nil]
      · exact hReceived.returned.noOthers v hv
    · exact hWritten.next h.takes hTable hPosition
    · simp only
      split
      · exact ⟨rfl, rfl⟩
      · exact ⟨rfl, rfl⟩

/-- `ALL_DATA_SENT` changes nothing. -/
theorem Between.allDataSent (h : layer.Between sta str outputs st)
    (hState : st.memory.currentState = .allDataSent) (arrivals : List Nat) :
    layer.cycle st arrivals = st := by
  have hPrepare : layer.prepare st = st := by
    unfold prepare
    rw [hState]
  simp only [cycle, hPrepare, receiveAll_of_none h.results, hState, reduceCtorEq, if_false,
    SparseMemory.cycle, SparseMemory.generate, SparseMemory.transition, Function.iterate_zero,
    id_eq]

/-- Every cycle keeps what holds in the states of a run. -/
theorem Computes.cycle (hReady : layer.Ready sta str) (h : layer.Computes sta str outputs st)
    (arrivals : List Nat) : layer.Computes sta str outputs (layer.cycle st arrivals) := by
  have hNotDone : st.memory.currentState ≠ .allDataSent → st.memory.executionFinished ≠ true :=
    fun hState hDone => hState (h.finished hDone)
  cases hState : st.memory.currentState with
  | configuring =>
      obtain ⟨hInside, hBetween⟩ := h.begins hState
      obtain ⟨hNext, hStart, -, hDone, hDuring⟩ :=
        hBetween.configuring hReady hState hInside arrivals
      have hNotDone := hNotDone (by simp [hState])
      rw [← hDone] at hNotDone
      exact ⟨fun hNot => by simp [hNext] at hNot, fun _ => ⟨hStart, hDuring⟩,
        fun hNot => by simp [hNext] at hNot, fun hNot => by simp [hNext] at hNot,
        fun hNot => by simp [hNext] at hNot, fun hDone => absurd hDone hNotDone⟩
  | distStaMatrix =>
      obtain ⟨hStart, n, last, hDuring⟩ := h.sends hState
      obtain ⟨hNext, hStart, -, hDone, -, hDuring⟩ :=
        hDuring.distStaMatrix hState hStart arrivals
      have hNotDone := hNotDone (by simp [hState])
      rw [← hDone] at hNotDone
      exact ⟨fun hNot => by simp [hNext] at hNot, fun hNot => by simp [hNext] at hNot,
        fun _ => ⟨hStart ▸ hReady.dimStr, n, last, hDuring⟩, fun hNot => by simp [hNext] at hNot,
        fun hNot => by simp [hNext] at hNot, fun hDone => absurd hDone hNotDone⟩
  | distStrMatrix =>
      obtain ⟨hMore, n, last, hDuring⟩ := h.streams hState
      obtain ⟨hNext, hSent, -, hDone, -, hDuring⟩ :=
        hDuring.distStrMatrix hReady hState hMore arrivals
      have hNotDone := hNotDone (by simp [hState])
      rw [← hDone] at hNotDone
      rcases eq_or_ne (st.memory.strCurrentIndex + 1) layer.dimStr with hAll | hOther
      · rw [if_pos hAll] at hNext
        exact ⟨fun hNot => by simp [hNext] at hNot, fun hNot => by simp [hNext] at hNot,
          fun hNot => by simp [hNext] at hNot, fun _ => ⟨hSent.trans hAll, n, last, hDuring⟩,
          fun hNot => by simp [hNext] at hNot, fun hDone => absurd hDone hNotDone⟩
      · rw [if_neg hOther] at hNext
        exact ⟨fun hNot => by simp [hNext] at hNot, fun hNot => by simp [hNext] at hNot,
          fun _ => ⟨by omega, n, last, hDuring⟩, fun hNot => by simp [hNext] at hNot,
          fun hNot => by simp [hNext] at hNot, fun hDone => absurd hDone hNotDone⟩
  | waitingForNextStaIter =>
      obtain ⟨hAll, n, last, hDuring⟩ := h.waits hState
      have hNotDone := hNotDone (by simp [hState])
      rcases hDuring.waiting hReady hState hAll arrivals with
        ⟨hNext, hSent, -, hDone, hDuring, -⟩ | ⟨-, hBetween, hMoves⟩
      · rw [← hDone] at hNotDone
        exact ⟨fun hNot => by simp [hNext] at hNot, fun hNot => by simp [hNext] at hNot,
          fun hNot => by simp [hNext] at hNot, fun _ => ⟨hSent, n, last, hDuring⟩,
          fun hNot => by simp [hNext] at hNot, fun hDone => absurd hDone hNotDone⟩
      · split at hMoves
        · rename_i hEnd
          obtain ⟨hNext, hDone⟩ := hMoves
          exact ⟨fun hNot => by simp [hNext] at hNot, fun hNot => by simp [hNext] at hNot,
            fun hNot => by simp [hNext] at hNot, fun hNot => by simp [hNext] at hNot,
            fun _ => ⟨Nat.le_antisymm hBetween.aligned.inside hEnd, hDone, hBetween⟩,
            fun _ => hNext⟩
        · rename_i hInside
          obtain ⟨hNext, hDone⟩ := hMoves
          rw [← hDone] at hNotDone
          exact ⟨fun _ => ⟨Nat.lt_of_not_le hInside, hBetween⟩,
            fun hNot => by simp [hNext] at hNot, fun hNot => by simp [hNext] at hNot,
            fun hNot => by simp [hNext] at hNot, fun hNot => by simp [hNext] at hNot,
            fun hDone => absurd hDone hNotDone⟩
  | allDataSent =>
      obtain ⟨-, -, hBetween⟩ := h.ends hState
      rw [hBetween.allDataSent hState arrivals]
      exact h

theorem computes_start (hReady : layer.Ready sta str)
    (staCountersTable strCountersTable : Nat → Nat) (outputs : Nat → Int) :
    layer.Computes sta str outputs (start staCountersTable strCountersTable outputs) := by
  refine ⟨fun _ => ⟨hReady.dimSta, ⟨SparseMemory.aligned_start, rfl, rfl, rfl, fun _ => rfl, ?_⟩⟩,
    nofun, nofun, nofun, nofun, nofun⟩
  have hNothing : ∀ i k, layer.progress {} 0 0 (fun _ => 0) i k = 0 := by
    intro i k
    rw [progress, if_neg (Nat.not_lt_zero i), if_neg (fun hNot => Nat.not_lt_zero k hNot.2)]
    exact ite_self 0
  exact ⟨fun i hi k hk hSome => absurd (hNothing i k) hSome.ne', fun a _ => rfl⟩

end

end SparseLayer

end Stonne
