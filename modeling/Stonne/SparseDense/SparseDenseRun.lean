import Stonne.SparseDense.SparseDenseProduct

/-!
# Runs of the sparse-dense controller

A run goes through the phases of the controller: it configures a row, distributes its entries fold
by fold, streams the columns of a fold, and waits for the outputs of the row.  Every cycle takes
the controller ahead, or it waits for an output that has been computed.
-/

namespace Stonne

open Dataflow

namespace SparseDenseMemory

section

variable {layer : SparseDenseMemory} {outputs : Nat → Int} {sent : Nat}
  {results : Nat → List Int} {writeFifo popped rest : Fifo} {writer : SparseDenseSDMemoryWriter}
  {state : SparsityControllerState}

/-! ## The outputs of a cycle -/

/-- The packages that the loop pops. -/
theorem Writes.writePackages (hReady : layer.Ready)
    (h : layer.Writes outputs sent results (popped ++ rest) writer)
    (hSent : sent ≤ layer.M * layer.iterN) :
    let writer' := popped.foldl
      (SparseDenseSDMemoryWriter.writePackage (layer.writerLayer state)) writer
    layer.Writes outputs sent results rest writer' ∧
      writer'.currentOutput = writer.currentOutput + popped.length ∧
      (state ≠ .waitingForNextStaIter → writer'.staComplete = writer.staComplete) ∧
      ∀ row, state = .waitingForNextStaIter → writer.staComplete = false →
        row * (layer.iterN * layer.tN) ≤ writer.currentOutput →
        writer.currentOutput < (row + 1) * (layer.iterN * layer.tN) →
        writer'.currentOutput ≤ (row + 1) * (layer.iterN * layer.tN) →
        writer'.staComplete =
          decide (writer'.currentOutput = (row + 1) * (layer.iterN * layer.tN)) := by
  induction popped using List.reverseRecOn generalizing rest with
  | nil =>
      refine ⟨h, rfl, fun _ => rfl, fun row _ hNot _ hLess _ => ?_⟩
      rw [List.foldl_nil, hNot, decide_eq_false hLess.ne]
  | append_singleton popped pck ih =>
      rw [List.append_assoc, List.singleton_append] at h
      obtain ⟨hWrites, hOutput, hOther, hWaits⟩ := ih h
      obtain ⟨hNext, hCount, hComplete⟩ :=
        @Writes.writePackage _ _ _ _ _ _ _ state hReady hWrites hSent
      simp only [List.foldl_append, List.foldl_cons, List.foldl_nil, List.length_append,
        List.length_singleton]
      refine ⟨hNext, by omega, fun hState => ?_, fun row hState hNot hFrom hLess hTo => ?_⟩
      · rw [hComplete, hOther hState]
        simp [hState]
      · have hBefore := hWaits row hState hNot hFrom hLess (by omega)
        rw [decide_eq_false (by omega)] at hBefore
        rw [hComplete, hBefore, Bool.false_or, hCount, decide_eq_decide, and_iff_right hState]
        rw [hCount] at hTo
        constructor
        · intro hMod
          obtain ⟨d, hd⟩ := Nat.dvd_of_mod_eq_zero hMod
          rw [Nat.mul_comm] at hd
          rw [hd] at hTo ⊢
          have hMore : row < d := by
            apply Nat.lt_of_mul_lt_mul_right
            rw [← hd]
            exact Nat.lt_succ_of_le (hFrom.trans (hOutput ▸ Nat.le_add_right _ _))
          have hFewer : d ≤ row + 1 := Nat.le_of_mul_le_mul_right hTo (by
            apply Nat.pos_of_ne_zero
            intro hZero
            rw [hZero, Nat.mul_zero] at hLess
            omega)
          rw [Nat.le_antisymm hFewer hMore]
        · intro hEnd
          rw [hEnd]
          exact Nat.mul_mod_left _ _

/-- What comes over the connection goes behind what is in the fifo. -/
theorem pending_deliver (arrived : Fifo × (Nat → List Int)) (vn v : Nat) :
    pending (deliver arrived vn).1 (deliver arrived vn).2 v = pending arrived.1 arrived.2 v := by
  rw [deliver]
  cases hResults : arrived.2 vn with
  | nil => rfl
  | cons data more =>
      rcases eq_or_ne v vn with rfl | hOther
      · simp [pending, psumPackage, hResults]
      · simp [pending, psumPackage, Function.update_of_ne hOther, hOther.symm]

theorem pending_foldl_deliver (arrivals : List Nat) (arrived : Fifo × (Nat → List Int)) (v : Nat) :
    pending (arrivals.foldl deliver arrived).1 (arrivals.foldl deliver arrived).2 v =
      pending arrived.1 arrived.2 v := by
  induction arrivals generalizing arrived with
  | nil => rfl
  | cons vn arrivals ih => rw [List.foldl_cons, ih, pending_deliver]

/-- A neuron with a result is not ignored. -/
theorem deliver_ne_nil {arrivals : List Nat} {arrived : Fifo × (Nat → List Int)} {v : Nat}
    (hArrives : v ∈ arrivals) (hResults : arrived.2 v ≠ []) :
    (arrivals.foldl deliver arrived).1 ≠ [] := by
  have hKeeps : ∀ (arrivals : List Nat) (arrived : Fifo × (Nat → List Int)), arrived.1 ≠ [] →
      (arrivals.foldl deliver arrived).1 ≠ [] := by
    intro arrivals
    induction arrivals with
    | nil => exact fun _ hSome => hSome
    | cons vn arrivals ih =>
        intro arrived hSome
        apply ih
        rw [deliver]
        split
        · exact hSome
        · exact List.append_ne_nil_of_left_ne_nil hSome _
  induction arrivals generalizing arrived with
  | nil => cases hArrives
  | cons vn arrivals ih =>
      rw [List.foldl_cons]
      rcases eq_or_ne v vn with rfl | hOther
      · apply hKeeps
        cases hData : arrived.2 v with
        | nil => exact absurd hData hResults
        | cons data more => simp [deliver, hData]
      · apply ih ((List.mem_cons.mp hArrives).resolve_left hOther)
        rw [deliver]
        split
        · exact hResults
        · simpa only [Function.update_of_ne hOther] using hResults

/-- When nothing arrives the results stay where they are. -/
theorem deliver_eq_of_nil {arrivals : List Nat} {arrived : Fifo × (Nat → List Int)}
    (hNone : (arrivals.foldl deliver arrived).1 = []) :
    arrivals.foldl deliver arrived = arrived := by
  have hResults : ∀ v ∈ arrivals, arrived.2 v = [] := by
    intro v hv
    by_contra hSome
    exact deliver_ne_nil hv hSome hNone
  clear hNone
  induction arrivals with
  | nil => rfl
  | cons vn arrivals ih =>
      have hFirst : deliver arrived vn = arrived := by
        rw [deliver, hResults vn List.mem_cons_self]
      rw [List.foldl_cons, hFirst]
      exact ih fun v hv => hResults v (List.mem_cons_of_mem _ hv)

/-- New results go behind the others. -/
theorem Writes.append (h : layer.Writes outputs sent results writeFifo writer) {more : Nat}
    {new : Nat → List Int}
    (hNew : ∀ v < layer.tN, new v = (List.range' sent more).map (layer.value v))
    (hNone : ∀ v, layer.tN ≤ v → new v = []) :
    layer.Writes outputs (sent + more) (fun v => results v ++ new v) writeFifo writer := by
  have hPending : ∀ v, SparseDenseMemory.pending writeFifo (fun v => results v ++ new v) v =
      SparseDenseMemory.pending writeFifo results v ++ new v := by
    intro v
    simp only [SparseDenseMemory.pending, List.append_assoc]
  refine ⟨h.columns, fun v hv => (h.counts v hv).trans (Nat.le_add_right _ _), fun v hv => ?_,
    fun v hv => ?_, h.stored, h.others, h.output, h.iteration, h.finished⟩
  · have hCount := h.counts v hv
    have hSplit : sent + more - layer.written writer v =
        sent - layer.written writer v + more := by omega
    have hFrom : layer.written writer v + (sent - layer.written writer v) = sent := by omega
    rw [hPending, h.pending v hv, hNew v hv, ← List.map_append, hSplit, ← List.range'_append_1,
      hFrom]
  · rw [hPending, h.noOthers v hv, hNone v hv, List.nil_append]

theorem Writes.setComplete (h : layer.Writes outputs sent results writeFifo writer)
    (staComplete : Bool) :
    layer.Writes outputs sent results writeFifo { writer with staComplete := staComplete } :=
  ⟨h.columns, h.counts, h.pending, h.noOthers, h.stored, h.others, h.output, h.iteration,
    h.finished⟩

/-- What the write loop leaves. -/
structure Received (layer : SparseDenseMemory) (outputs : Nat → Int) (sent : Nat)
    (state : SparsityControllerState) (arrived : Fifo × (Nat → List Int))
    (writer : SparseDenseSDMemoryWriter) (written : Fifo × SparseDenseSDMemoryWriter) : Prop where
  writes : layer.Writes outputs sent arrived.2 written.1 written.2
  output : writer.currentOutput ≤ written.2.currentOutput
  progress : arrived.1 ≠ [] → writer.currentOutput < written.2.currentOutput
  idle : arrived.1 = [] → written = ([], writer)
  others : state ≠ .waitingForNextStaIter → written.2.staComplete = writer.staComplete
  waits : ∀ row, state = .waitingForNextStaIter → writer.staComplete = false →
    row * (layer.iterN * layer.tN) ≤ writer.currentOutput →
    writer.currentOutput < (row + 1) * (layer.iterN * layer.tN) →
    written.2.currentOutput ≤ (row + 1) * (layer.iterN * layer.tN) →
    written.2.staComplete =
      decide (written.2.currentOutput = (row + 1) * (layer.iterN * layer.tN))

theorem Writes.received (hReady : layer.Ready)
    (h : layer.Writes outputs sent results writeFifo writer)
    (hSent : sent ≤ layer.M * layer.iterN) (arrivals : List Nat) :
    ∃ written, SparseDenseSDMemoryWriter.writeLoop (layer.writerLayer state)
        (arrivals.foldl deliver (writeFifo, results)).1 writer = some written ∧
      layer.Received outputs sent state (arrivals.foldl deliver (writeFifo, results)) writer
        written := by
  have hPending := pending_foldl_deliver arrivals (writeFifo, results)
  revert hPending
  generalize arrivals.foldl deliver (writeFifo, results) = arrived
  intro hPending
  have hArrived : layer.Writes outputs sent arrived.2
      (arrived.1.take ((arrived.1.length + 1) / 2) ++ arrived.1.drop ((arrived.1.length + 1) / 2))
      writer := by
    rw [List.take_append_drop]
    exact ⟨h.columns, h.counts, fun v hv => (hPending v).trans (h.pending v hv),
      fun v hv => (hPending v).trans (h.noOthers v hv), h.stored, h.others, h.output,
      h.iteration, h.finished⟩
  obtain ⟨hWrites, hOutput, hOther, hWaits⟩ : _ ∧ _ ∧ _ ∧ _ :=
    @Writes.writePackages _ _ _ _ _ _ _ state hReady hArrived hSent
  refine ⟨_, popBelow_eq 0 arrived.1 writer, hWrites, hOutput ▸ Nat.le_add_right _ _,
    fun hSome => ?_, fun hNone => ?_, hOther, hWaits⟩
  · have hLength := List.length_pos_of_ne_nil hSome
    rw [Nat.sub_zero, hOutput, List.length_take]
    omega
  · rw [hNone]
    rfl

end

/-! ## The states of a run -/

/-- What holds of the controller and of the networks in the states of a run. -/
inductive Phase (layer : SparseDenseMemory) (st : SparseDenseGemm) : Prop where
  | configuring (state : st.memory.currentState = .configuring)
      (row : st.memory.currentM < layer.M) (column : st.memory.currentN = 0)
      (output : st.memory.currentOutput = st.memory.currentM * (layer.iterN * layer.tN))
  | distStaMatrix (state : st.memory.currentState = .distStaMatrix)
      (row : st.memory.currentM < layer.M) (column : st.memory.currentN = 0)
      (output : st.memory.currentM * (layer.iterN * layer.tN) ≤ st.memory.currentOutput)
      (configured : layer.Configured st.memory.currentM st.memory)
      (fold : st.memory.currentKNnz < layer.folds st.memory.currentM)
      (incomplete : st.memory.staComplete = false)
      (weights : ∀ v < layer.tN, ∀ j < layer.tK, st.networks.weightFifos (v * layer.tK + j) =
        (List.range st.memory.currentKNnz).map fun k =>
          layer.weight st.memory.currentM (k * layer.tK + j))
      (psums : ∀ v < layer.tN, st.networks.psums v = 0)
      (currentPsum : st.networks.currentPsum = 0)
  | distStrMatrix (state : st.memory.currentState = .distStrMatrix)
      (row : st.memory.currentM < layer.M) (column : st.memory.currentN < layer.iterN)
      (output : st.memory.currentM * (layer.iterN * layer.tN) ≤ st.memory.currentOutput)
      (configured : layer.Configured st.memory.currentM st.memory)
      (fold : st.memory.currentKNnz < layer.folds st.memory.currentM)
      (incomplete : st.memory.staComplete = false)
      (weights : ∀ v < layer.tN, ∀ j < layer.tK, st.networks.weightFifos (v * layer.tK + j) =
        ((List.range (layer.folds st.memory.currentM)).map fun k =>
          layer.weight st.memory.currentM (k * layer.tK + j)).rotate st.memory.currentKNnz)
      (psums : ∀ v < layer.tN, st.networks.psums v = layer.foldedSum st.memory.currentKNnz
        st.memory.currentM (st.memory.currentN * layer.tN + v))
      (currentPsum : st.networks.currentPsum = st.memory.currentKNnz)
  | waiting (m : Nat) (state : st.memory.currentState = .waitingForNextStaIter)
      (row : st.memory.currentM < layer.M) (last : st.memory.currentM = m + 1)
      (column : st.memory.currentN = 0)
      (output : m * (layer.iterN * layer.tN) ≤ st.memory.currentOutput)
      (more : st.memory.currentOutput < (m + 1) * (layer.iterN * layer.tN))
      (incomplete : st.memory.staComplete = false)
  | allDataSent (state : st.memory.currentState = .allDataSent)
      (row : st.memory.currentM = layer.M) (column : st.memory.currentN = 0)

/-- How many outputs the networks have computed for every neuron. -/
def sent (layer : SparseDenseMemory) (memory : SparseDenseSDMemory) : Nat :=
  memory.currentM * layer.iterN + memory.currentN

/-- What holds in every state of a run. -/
structure Computes (layer : SparseDenseMemory) (outputs : Nat → Int) (st : SparseDenseGemm) :
    Prop where
  phase : layer.Phase st
  writes : layer.Writes outputs (layer.sent st.memory) st.results st.writeFifo
    st.memory.toSparseDenseSDMemoryWriter

section

variable {layer : SparseDenseMemory} {outputs : Nat → Int} {st : SparseDenseGemm}

theorem Phase.sent_le (h : layer.Phase st) : layer.sent st.memory ≤ layer.M * layer.iterN := by
  have hRow : ∀ {m n}, m < layer.M → n ≤ layer.iterN → m * layer.iterN + n ≤
      layer.M * layer.iterN := by
    intro m n hm hn
    calc m * layer.iterN + n ≤ m * layer.iterN + layer.iterN := Nat.add_le_add_left hn _
      _ = (m + 1) * layer.iterN := (Nat.succ_mul _ _).symm
      _ ≤ layer.M * layer.iterN := Nat.mul_le_mul_right _ hm
  rw [sent]
  cases h with
  | configuring _ row column => exact hRow row (column ▸ Nat.zero_le _)
  | distStaMatrix _ row column => exact hRow row (column ▸ Nat.zero_le _)
  | distStrMatrix _ row column => exact hRow row column.le
  | waiting _ _ row _ column => exact hRow row (column ▸ Nat.zero_le _)
  | allDataSent _ row column => rw [row, column, Nat.add_zero]

theorem computes_start (hReady : layer.Ready) (outputs : Nat → Int) :
    layer.Computes outputs (start outputs) := by
  have hPad := Nat.mul_pos hReady.iterN_pos hReady.tN
  refine ⟨.configuring rfl hReady.M rfl (Nat.zero_mul _).symm, ?_⟩
  have hSent : layer.sent (start outputs).memory = 0 := by
    simp [sent, start]
  have hWritten : ∀ v, layer.written (start outputs).memory.toSparseDenseSDMemoryWriter v = 0 := by
    intro v
    simp [written, start]
  refine ⟨fun v _ => hReady.iterN_pos, fun v _ => ?_, fun v _ => ?_, fun v _ => rfl,
    fun m _ n _ _ => ?_, fun a _ => rfl, ?_, ?_, ?_⟩
  · rw [hWritten]
    exact Nat.zero_le _
  · rw [hSent, hWritten]
    rfl
  · rw [hWritten, if_neg (Nat.not_lt_zero _)]
    rfl
  · simp only [hWritten, Finset.sum_const_zero]
    rfl
  · exact (Nat.zero_mod _).symm
  · have hMore : ¬0 = layer.M * (layer.iterN * layer.tN) :=
      (Nat.mul_pos hReady.M hPad).ne
    exact (decide_eq_false hMore).symm

/-- The cycles in which the controller works on a row. -/
def rowCycles (layer : SparseDenseMemory) (m : Nat) : Nat :=
  layer.folds m + layer.iterN * layer.folds m + 2

/-- What a run still has to do: the outputs that are not written, and the cycles that do not wait
for one. -/
def remaining (layer : SparseDenseMemory) (st : SparseDenseGemm) : Nat :=
  layer.M * (layer.iterN * layer.tN) - st.memory.currentOutput +
    match st.memory.currentState with
    | .configuring => ∑ m ∈ Finset.Ico st.memory.currentM layer.M, layer.rowCycles m
    | .distStaMatrix => ∑ m ∈ Finset.Ico st.memory.currentM layer.M, layer.rowCycles m -
        (st.memory.currentKNnz + 1)
    | .distStrMatrix => ∑ m ∈ Finset.Ico st.memory.currentM layer.M, layer.rowCycles m -
        (layer.folds st.memory.currentM + st.memory.currentN * layer.folds st.memory.currentM +
          st.memory.currentKNnz + 1)
    | .waitingForNextStaIter =>
        ∑ m ∈ Finset.Ico st.memory.currentM layer.M, layer.rowCycles m + 1
    | .allDataSent => 0

theorem sum_rowCycles {m : Nat} (hm : m < layer.M) :
    ∑ m ∈ Finset.Ico m layer.M, layer.rowCycles m =
      layer.folds m + layer.iterN * layer.folds m + 2 +
        ∑ m ∈ Finset.Ico (m + 1) layer.M, layer.rowCycles m := by
  rw [Finset.sum_eq_sum_Ico_succ_bot hm, rowCycles]

/-- What a cycle does: it leaves less to do, or it waits and changes nothing. -/
structure Advances (layer : SparseDenseMemory) (outputs : Nat → Int) (st : SparseDenseGemm)
    (arrivals : List Nat) : Prop where
  computes : layer.Computes outputs (layer.cycle st arrivals)
  lessOrWaits : layer.remaining (layer.cycle st arrivals) < layer.remaining st ∨
    layer.cycle st arrivals = st ∧
      (arrivals.foldl deliver (st.writeFifo, st.results)).1 = [] ∧
      (st.memory.currentState = .waitingForNextStaIter ∨ st.memory.currentState = .allDataSent)

theorem Computes.configuring (hReady : layer.Ready) (h : layer.Computes outputs st)
    (hState : st.memory.currentState = .configuring) (hRow : st.memory.currentM < layer.M)
    (hColumn : st.memory.currentN = 0)
    (hOutput : st.memory.currentOutput = st.memory.currentM * (layer.iterN * layer.tN))
    (arrivals : List Nat) : layer.Advances outputs st arrivals := by
  obtain ⟨written, hLoop, hReceived⟩ :=
    @Writes.received _ _ _ _ _ _ st.memory.currentState hReady (h.writes.setComplete false)
      h.phase.sent_le arrivals
  have hFolds : 0 < layer.folds st.memory.currentM :=
    folds_pos (Nat.sub_pos_of_lt (hReady.rows _ hRow))
  have hNext : layer.cycle st arrivals =
      { memory := { layer.configure st.memory with
          toSparseDenseSDMemoryWriter := written.2
          currentState := .distStaMatrix }
        networks := {}
        results := fun v => (arrivals.foldl deliver (st.writeFifo, st.results)).2 v ++ []
        writeFifo := written.1 } := by
    simp only [cycle, generate, feedNetworks, hState, configure, transition] at hLoop ⊢
    rw [hLoop]
    rfl
  refine ⟨⟨?_, ?_⟩, Or.inl ?_⟩
  · rw [hNext]
    refine .distStaMatrix rfl hRow hColumn (hOutput ▸ hReceived.output) ⟨rfl, rfl, rfl⟩ hFolds
      (hReceived.others ?_) (fun _ _ _ _ => rfl) (fun _ _ => rfl) rfl
    rw [hState]
    exact SparsityControllerState.noConfusion
  · rw [hNext]
    exact @Writes.append _ _ _ _ _ _ hReceived.writes 0 _ (fun _ _ => rfl) fun _ _ => rfl
  · have hFewer : st.memory.currentOutput ≤ written.2.currentOutput := hReceived.output
    have hSum := sum_rowCycles hRow
    rw [hNext]
    simp only [remaining, hState, configure]
    omega

/-- The weights of the multipliers after one more fold. -/
theorem receiveWeights_fold {m : Nat} (hReady : layer.Ready) (hRow : m < layer.M)
    (hConfigured : layer.Configured m st.memory) (hFold : st.memory.currentKNnz < layer.folds m)
    (hWeights : ∀ v < layer.tN, ∀ j < layer.tK, st.networks.weightFifos (v * layer.tK + j) =
      (List.range st.memory.currentKNnz).map fun k => layer.weight m (k * layer.tK + j)) :
    ∀ v < layer.tN, ∀ j < layer.tK,
      (st.networks.receiveWeights (layer.weightPackages st.memory)).weightFifos
          (v * layer.tK + j) =
        (List.range (st.memory.currentKNnz + 1)).map fun k =>
          layer.weight m (k * layer.tK + j) := by
  intro v hv j hj
  have hAddressed := weights_addressed hReady hRow hConfigured hFold hv hj
  simp only [SparseDenseNetworks.receiveWeights, hAddressed, hWeights v hv j hj, List.range_succ,
    List.map_append, List.map_singleton]

theorem Computes.distStaMatrix (hReady : layer.Ready) (h : layer.Computes outputs st)
    (hState : st.memory.currentState = .distStaMatrix) (hRow : st.memory.currentM < layer.M)
    (hColumn : st.memory.currentN = 0)
    (hOutput : st.memory.currentM * (layer.iterN * layer.tN) ≤ st.memory.currentOutput)
    (hConfigured : layer.Configured st.memory.currentM st.memory)
    (hFold : st.memory.currentKNnz < layer.folds st.memory.currentM)
    (hIncomplete : st.memory.staComplete = false)
    (hWeights : ∀ v < layer.tN, ∀ j < layer.tK, st.networks.weightFifos (v * layer.tK + j) =
      (List.range st.memory.currentKNnz).map fun k =>
        layer.weight st.memory.currentM (k * layer.tK + j))
    (hPsums : ∀ v < layer.tN, st.networks.psums v = 0) (hPsum : st.networks.currentPsum = 0)
    (arrivals : List Nat) : layer.Advances outputs st arrivals := by
  have hReceive := receiveWeights_fold hReady hRow hConfigured hFold hWeights
  have hNotWaiting : st.memory.currentState ≠ .waitingForNextStaIter := by
    rw [hState]
    exact SparsityControllerState.noConfusion
  have hSum := sum_rowCycles hRow
  by_cases hLast : st.memory.currentKNnz + 1 = layer.folds st.memory.currentM
  · obtain ⟨written, hLoop, hReceived⟩ :=
      @Writes.received _ _ _ _ _ _ st.memory.currentState hReady (h.writes.setComplete true)
        h.phase.sent_le arrivals
    have hComplete : written.2.staComplete = true := hReceived.others hNotWaiting
    have hNext : layer.cycle st arrivals =
        { memory := { st.memory with
            toSparseDenseSDMemoryWriter := { written.2 with staComplete := false }
            currentState := .distStrMatrix
            currentKNnz := 0 }
          networks := st.networks.receiveWeights (layer.weightPackages st.memory)
          results := fun v => (arrivals.foldl deliver (st.writeFifo, st.results)).2 v ++ []
          writeFifo := written.1 } := by
      simp only [cycle, generate, feedNetworks, hState, nextStationary, hConfigured.iterK, hLast,
        if_true, transition] at hLoop ⊢
      rw [hLoop]
      simp only [Option.getD_some, hComplete, if_true]
    refine ⟨⟨?_, ?_⟩, Or.inl ?_⟩
    · rw [hNext]
      have hPos : 0 < layer.folds st.memory.currentM := by omega
      refine .distStrMatrix rfl hRow (hColumn.trans_lt hReady.iterN_pos)
        (hOutput.trans hReceived.output) ⟨hConfigured.kNnz, hConfigured.staBase, hConfigured.iterK⟩
        hPos rfl (fun v hv j hj => ?_) (fun v hv => ?_) hPsum
      · rw [List.rotate_zero, ← hLast]
        exact hReceive v hv j hj
      · rw [foldedSum, Nat.zero_mul, Finset.sum_range_zero]
        exact hPsums v hv
    · rw [hNext]
      exact @Writes.append _ _ _ _ _ _ (hReceived.writes.setComplete false) 0 _
        (fun _ _ => rfl) fun _ _ => rfl
    · have hFewer : st.memory.currentOutput ≤ written.2.currentOutput := hReceived.output
      rw [hNext]
      simp only [remaining, hState, hColumn, Nat.zero_mul]
      omega
  · obtain ⟨written, hLoop, hReceived⟩ :=
      @Writes.received _ _ _ _ _ _ st.memory.currentState hReady h.writes h.phase.sent_le arrivals
    have hComplete : written.2.staComplete = false :=
      (hReceived.others hNotWaiting).trans hIncomplete
    have hNext : layer.cycle st arrivals =
        { memory := { st.memory with
            toSparseDenseSDMemoryWriter := written.2
            currentKNnz := st.memory.currentKNnz + 1 }
          networks := st.networks.receiveWeights (layer.weightPackages st.memory)
          results := fun v => (arrivals.foldl deliver (st.writeFifo, st.results)).2 v ++ []
          writeFifo := written.1 } := by
      simp only [cycle, generate, feedNetworks, hState, nextStationary, hConfigured.iterK, hLast,
        if_false, transition] at hLoop ⊢
      rw [hLoop]
      simp only [Option.getD_some, hComplete, Bool.false_eq_true, if_false]
    refine ⟨⟨?_, ?_⟩, Or.inl ?_⟩
    · rw [hNext]
      refine .distStaMatrix hState hRow hColumn (hOutput.trans hReceived.output)
        ⟨hConfigured.kNnz, hConfigured.staBase, hConfigured.iterK⟩ ?_ hComplete hReceive hPsums
        hPsum
      exact Nat.lt_of_le_of_ne hFold hLast
    · rw [hNext]
      exact @Writes.append _ _ _ _ _ _ hReceived.writes 0 _ (fun _ _ => rfl) fun _ _ => rfl
    · have hFewer : st.memory.currentOutput ≤ written.2.currentOutput := hReceived.output
      rw [hNext]
      simp only [remaining, hState]
      omega

/-- A multiplier uses the weights of a row in turn. -/
theorem headD_rotate {m k j : Nat} (hk : k < layer.folds m) :
    (((List.range (layer.folds m)).map fun k => layer.weight m (k * layer.tK + j)).rotate k).headD
      0 = layer.weight m (k * layer.tK + j) := by
  have hLength : k < ((List.range (layer.folds m)).map fun k =>
      layer.weight m (k * layer.tK + j)).length := by
    rwa [List.length_map, List.length_range]
  rw [List.headD_eq_head?_getD, List.head?_rotate hLength, List.getElem?_map,
    List.getElem?_range hk, Option.map_some, Option.getD_some]

/-- After the last fold of a column the product is on its way to the memory. -/
theorem foldedSum_eq_value (hReady : layer.Ready) {m q v : Nat} (hq : q < layer.iterN) :
    layer.foldedSum (layer.folds m) m (q * layer.tN + v) =
      layer.value v (m * layer.iterN + q) := by
  rw [foldedSum_folds hReady.tK, value, radix_mod hq, radix_div hq]

theorem Computes.distStrMatrix (hReady : layer.Ready) (h : layer.Computes outputs st)
    (hState : st.memory.currentState = .distStrMatrix) (hRow : st.memory.currentM < layer.M)
    (hColumn : st.memory.currentN < layer.iterN)
    (hOutput : st.memory.currentM * (layer.iterN * layer.tN) ≤ st.memory.currentOutput)
    (hConfigured : layer.Configured st.memory.currentM st.memory)
    (hFold : st.memory.currentKNnz < layer.folds st.memory.currentM)
    (hIncomplete : st.memory.staComplete = false)
    (hWeights : ∀ v < layer.tN, ∀ j < layer.tK, st.networks.weightFifos (v * layer.tK + j) =
      ((List.range (layer.folds st.memory.currentM)).map fun k =>
        layer.weight st.memory.currentM (k * layer.tK + j)).rotate st.memory.currentKNnz)
    (hPsums : ∀ v < layer.tN, st.networks.psums v = layer.foldedSum st.memory.currentKNnz
      st.memory.currentM (st.memory.currentN * layer.tN + v))
    (hPsum : st.networks.currentPsum = st.memory.currentKNnz)
    (arrivals : List Nat) : layer.Advances outputs st arrivals := by
  have hWave : ∀ v < layer.tN, st.networks.psums v +
      st.networks.products layer.tK (layer.activationPackages st.memory) v =
        layer.foldedSum (st.memory.currentKNnz + 1) st.memory.currentM
          (st.memory.currentN * layer.tN + v) := by
    intro v hv
    rw [hPsums v hv]
    refine products_eq hReady hRow hConfigured hFold hColumn (fun j hj => ?_) hv
    rw [hWeights v hv j hj]
    exact headD_rotate hFold
  have hTurn : ∀ v < layer.tN, ∀ j < layer.tK,
      (st.networks.weightFifos (v * layer.tK + j)).rotate 1 =
        ((List.range (layer.folds st.memory.currentM)).map fun k =>
          layer.weight st.memory.currentM (k * layer.tK + j)).rotate
            (st.memory.currentKNnz + 1) := by
    intro v hv j hj
    rw [hWeights v hv j hj, List.rotate_rotate]
  have hNotWaiting : st.memory.currentState ≠ .waitingForNextStaIter := by
    rw [hState]
    exact SparsityControllerState.noConfusion
  have hSum := sum_rowCycles hRow
  have hColumns : (st.memory.currentN + 1) * layer.folds st.memory.currentM ≤
      layer.iterN * layer.folds st.memory.currentM := Nat.mul_le_mul_right _ hColumn
  rw [Nat.succ_mul] at hColumns
  by_cases hLast : st.memory.currentKNnz + 1 = layer.folds st.memory.currentM
  · -- the weights are where they were before the first fold, and every neuron has an output
    have hAround : ∀ v < layer.tN, ∀ j < layer.tK,
        (st.networks.weightFifos (v * layer.tK + j)).rotate 1 =
          ((List.range (layer.folds st.memory.currentM)).map fun k =>
            layer.weight st.memory.currentM (k * layer.tK + j)).rotate 0 := by
      intro v hv j hj
      rw [hTurn v hv j hj, hLast, List.rotate_zero]
      have hLength : ((List.range (layer.folds st.memory.currentM)).map fun k =>
          layer.weight st.memory.currentM (k * layer.tK + j)).length =
            layer.folds st.memory.currentM := by
        rw [List.length_map, List.length_range]
      exact (congrArg (List.rotate _) hLength.symm).trans (List.rotate_length _)
    have hResults : ∀ v < layer.tN, (if v < layer.tN then [st.networks.psums v +
        st.networks.products layer.tK (layer.activationPackages st.memory) v] else []) =
          (List.range' (layer.sent st.memory) 1).map (layer.value v) := by
      intro v hv
      rw [if_pos hv, hWave v hv, hLast, foldedSum_eq_value hReady hColumn]
      rfl
    by_cases hRowEnds : st.memory.currentN + 1 = layer.iterN
    · obtain ⟨written, hLoop, hReceived⟩ :=
        @Writes.received _ _ _ _ _ _ st.memory.currentState hReady (h.writes.setComplete true)
          h.phase.sent_le arrivals
      have hComplete : written.2.staComplete = true := hReceived.others hNotWaiting
      have hMore : written.2.currentOutput <
          (st.memory.currentM + 1) * (layer.iterN * layer.tN) := by
        calc written.2.currentOutput ≤ layer.sent st.memory * layer.tN := hReceived.writes.output_le
          _ < (st.memory.currentM + 1) * layer.iterN * layer.tN := by
              apply Nat.mul_lt_mul_of_pos_right _ hReady.tN
              rw [sent, Nat.succ_mul]
              omega
          _ = (st.memory.currentM + 1) * (layer.iterN * layer.tN) := Nat.mul_assoc _ _ _
      have hFrom : st.memory.currentM * (layer.iterN * layer.tN) ≤ written.2.currentOutput :=
        hOutput.trans hReceived.output
      have hSent : (st.memory.currentM + 1) * layer.iterN + 0 = layer.sent st.memory + 1 := by
        rw [sent, Nat.succ_mul]
        omega
      have hFewer : st.memory.currentOutput ≤ written.2.currentOutput := hReceived.output
      by_cases hEnd : layer.M ≤ st.memory.currentM + 1
      · have hNext : layer.cycle st arrivals =
            { memory := { st.memory with
                toSparseDenseSDMemoryWriter := written.2
                currentState := .allDataSent
                currentKNnz := 0
                currentN := 0
                currentM := st.memory.currentM + 1 }
              networks := { weightFifos := fun m => (st.networks.weightFifos m).rotate 1 }
              results := fun v => (arrivals.foldl deliver (st.writeFifo, st.results)).2 v ++
                if v < layer.tN then [st.networks.psums v +
                  st.networks.products layer.tK (layer.activationPackages st.memory) v] else []
              writeFifo := written.1 } := by
          simp only [cycle, generate, feedNetworks, hState, nextWave, hConfigured.iterK, hLast,
            hRowEnds, if_true, transition, SparseDenseNetworks.receiveWave, hPsum] at hLoop ⊢
          rw [hLoop]
          simp only [Option.getD_some, hEnd, if_true]
        refine ⟨⟨?_, ?_⟩, Or.inl ?_⟩
        · rw [hNext]
          exact .allDataSent rfl (Nat.le_antisymm hRow hEnd) rfl
        · rw [hNext]
          have hAppend := hReceived.writes.append hResults fun v hv =>
            if_neg (Nat.not_lt.mpr hv)
          rw [← hSent] at hAppend
          exact hAppend
        · rw [hNext]
          simp only [remaining, hState]
          omega
      · have hNext : layer.cycle st arrivals =
            { memory := { st.memory with
                toSparseDenseSDMemoryWriter := { written.2 with staComplete := false }
                currentState := .waitingForNextStaIter
                currentKNnz := 0
                currentN := 0
                currentM := st.memory.currentM + 1 }
              networks := { weightFifos := fun m => (st.networks.weightFifos m).rotate 1 }
              results := fun v => (arrivals.foldl deliver (st.writeFifo, st.results)).2 v ++
                if v < layer.tN then [st.networks.psums v +
                  st.networks.products layer.tK (layer.activationPackages st.memory) v] else []
              writeFifo := written.1 } := by
          simp only [cycle, generate, feedNetworks, hState, nextWave, hConfigured.iterK, hLast,
            hRowEnds, if_true, transition, SparseDenseNetworks.receiveWave, hPsum] at hLoop ⊢
          rw [hLoop]
          simp only [Option.getD_some, hEnd, if_false, hComplete, if_true]
        refine ⟨⟨?_, ?_⟩, Or.inl ?_⟩
        · rw [hNext]
          exact .waiting st.memory.currentM rfl (Nat.lt_of_not_le hEnd) rfl rfl hFrom hMore rfl
        · rw [hNext]
          have hAppend := (hReceived.writes.setComplete false).append hResults fun v hv =>
            if_neg (Nat.not_lt.mpr hv)
          rw [← hSent] at hAppend
          exact hAppend
        · rw [hNext]
          simp only [remaining, hState]
          omega
    · obtain ⟨written, hLoop, hReceived⟩ :=
        @Writes.received _ _ _ _ _ _ st.memory.currentState hReady h.writes h.phase.sent_le arrivals
      have hComplete : written.2.staComplete = false :=
        (hReceived.others hNotWaiting).trans hIncomplete
      have hNext : layer.cycle st arrivals =
          { memory := { st.memory with
              toSparseDenseSDMemoryWriter := written.2
              currentKNnz := 0
              currentN := st.memory.currentN + 1 }
            networks := { weightFifos := fun m => (st.networks.weightFifos m).rotate 1 }
            results := fun v => (arrivals.foldl deliver (st.writeFifo, st.results)).2 v ++
              if v < layer.tN then [st.networks.psums v +
                st.networks.products layer.tK (layer.activationPackages st.memory) v] else []
            writeFifo := written.1 } := by
        simp only [cycle, generate, feedNetworks, hState, nextWave, hConfigured.iterK, hLast,
          hRowEnds, if_true, if_false, transition, SparseDenseNetworks.receiveWave,
          hPsum] at hLoop ⊢
        rw [hLoop]
        simp only [Option.getD_some, Nat.not_le.mpr hRow, hComplete, Bool.false_eq_true, if_false]
      refine ⟨⟨?_, ?_⟩, Or.inl ?_⟩
      · rw [hNext]
        have hPos : 0 < layer.folds st.memory.currentM := by omega
        refine .distStrMatrix hState hRow (Nat.lt_of_le_of_ne hColumn hRowEnds)
          (hOutput.trans hReceived.output)
          ⟨hConfigured.kNnz, hConfigured.staBase, hConfigured.iterK⟩ hPos hComplete hAround
          (fun v hv => ?_) rfl
        rw [foldedSum, Nat.zero_mul, Finset.sum_range_zero]
      · rw [hNext]
        exact hReceived.writes.append hResults fun v hv => if_neg (Nat.not_lt.mpr hv)
      · have hFewer : st.memory.currentOutput ≤ written.2.currentOutput := hReceived.output
        rw [hNext]
        simp only [remaining, hState, Nat.succ_mul]
        omega
  · obtain ⟨written, hLoop, hReceived⟩ :=
      @Writes.received _ _ _ _ _ _ st.memory.currentState hReady h.writes h.phase.sent_le arrivals
    have hComplete : written.2.staComplete = false :=
      (hReceived.others hNotWaiting).trans hIncomplete
    have hNext : layer.cycle st arrivals =
        { memory := { st.memory with
            toSparseDenseSDMemoryWriter := written.2
            currentKNnz := st.memory.currentKNnz + 1 }
          networks :=
            { weightFifos := fun m => (st.networks.weightFifos m).rotate 1
              psums := fun v => st.networks.psums v +
                st.networks.products layer.tK (layer.activationPackages st.memory) v
              currentPsum := st.memory.currentKNnz + 1 }
          results := fun v => (arrivals.foldl deliver (st.writeFifo, st.results)).2 v ++ []
          writeFifo := written.1 } := by
      simp only [cycle, generate, feedNetworks, hState, nextWave, hConfigured.iterK, hLast,
        if_false, transition, SparseDenseNetworks.receiveWave, hPsum] at hLoop ⊢
      rw [hLoop]
      simp only [Option.getD_some, Nat.not_le.mpr hRow, hComplete, Bool.false_eq_true, if_false]
    refine ⟨⟨?_, ?_⟩, Or.inl ?_⟩
    · rw [hNext]
      exact .distStrMatrix hState hRow hColumn (hOutput.trans hReceived.output)
        ⟨hConfigured.kNnz, hConfigured.staBase, hConfigured.iterK⟩
        (Nat.lt_of_le_of_ne hFold hLast) hComplete hTurn hWave rfl
    · rw [hNext]
      exact @Writes.append _ _ _ _ _ _ hReceived.writes 0 _ (fun _ _ => rfl) fun _ _ => rfl
    · have hFewer : st.memory.currentOutput ≤ written.2.currentOutput := hReceived.output
      rw [hNext]
      simp only [remaining, hState]
      omega

theorem Computes.waiting (hReady : layer.Ready) (h : layer.Computes outputs st) {m : Nat}
    (hState : st.memory.currentState = .waitingForNextStaIter)
    (hRow : st.memory.currentM < layer.M) (hLast : st.memory.currentM = m + 1)
    (hColumn : st.memory.currentN = 0)
    (hOutput : m * (layer.iterN * layer.tN) ≤ st.memory.currentOutput)
    (hMore : st.memory.currentOutput < (m + 1) * (layer.iterN * layer.tN))
    (hIncomplete : st.memory.staComplete = false) (arrivals : List Nat) :
    layer.Advances outputs st arrivals := by
  obtain ⟨written, hLoop, hReceived⟩ :=
    @Writes.received _ _ _ _ _ _ st.memory.currentState hReady h.writes h.phase.sent_le arrivals
  have hAll : written.2.currentOutput ≤ (m + 1) * (layer.iterN * layer.tN) := by
    calc written.2.currentOutput ≤ layer.sent st.memory * layer.tN := hReceived.writes.output_le
      _ = (m + 1) * (layer.iterN * layer.tN) := by
          rw [sent, hLast, hColumn, Nat.add_zero, Nat.mul_assoc]
  have hComplete := hReceived.waits m hState hIncomplete hOutput hMore hAll
  have hWrites : layer.Writes outputs (layer.sent st.memory)
      (fun v => (arrivals.foldl deliver (st.writeFifo, st.results)).2 v ++ []) written.1
      written.2 :=
    @Writes.append _ _ _ _ _ _ hReceived.writes 0 _ (fun _ _ => rfl) fun _ _ => rfl
  have hTotal : (m + 1) * (layer.iterN * layer.tN) ≤ layer.M * (layer.iterN * layer.tN) :=
    Nat.mul_le_mul_right _ (by omega)
  by_cases hEnd : written.2.currentOutput = (m + 1) * (layer.iterN * layer.tN)
  · rw [decide_eq_true hEnd] at hComplete
    have hNext : layer.cycle st arrivals =
        { memory := { st.memory with
            toSparseDenseSDMemoryWriter := written.2
            currentState := .configuring }
          networks := st.networks
          results := fun v => (arrivals.foldl deliver (st.writeFifo, st.results)).2 v ++ []
          writeFifo := written.1 } := by
      simp only [cycle, generate, feedNetworks, hState, transition] at hLoop ⊢
      rw [hLoop]
      simp only [Option.getD_some, hComplete, if_true]
    refine ⟨⟨?_, hNext ▸ hWrites⟩, Or.inl ?_⟩
    · rw [hNext]
      exact .configuring rfl hRow hColumn (hLast ▸ hEnd)
    · rw [hNext]
      simp only [remaining, hState]
      omega
  · rw [decide_eq_false hEnd] at hComplete
    have hNext : layer.cycle st arrivals =
        { memory := { st.memory with toSparseDenseSDMemoryWriter := written.2 }
          networks := st.networks
          results := fun v => (arrivals.foldl deliver (st.writeFifo, st.results)).2 v ++ []
          writeFifo := written.1 } := by
      simp only [cycle, generate, feedNetworks, hState, transition] at hLoop ⊢
      rw [hLoop]
      simp only [Option.getD_some, hComplete, Bool.false_eq_true, if_false]
    have hLess : written.2.currentOutput < (m + 1) * (layer.iterN * layer.tN) :=
      Nat.lt_of_le_of_ne hAll hEnd
    refine ⟨⟨?_, hNext ▸ hWrites⟩, ?_⟩
    · rw [hNext]
      exact .waiting m hState hRow hLast hColumn (hOutput.trans hReceived.output) hLess hComplete
    · rcases eq_or_ne (arrivals.foldl deliver (st.writeFifo, st.results)).1 [] with hNone | hSome
      · refine Or.inr ⟨?_, hNone, Or.inl hState⟩
        have hSame := deliver_eq_of_nil hNone
        have hIdle := hReceived.idle hNone
        rw [hSame] at hNone
        rw [hNext, hSame, hIdle, ← hNone]
        simp only [List.append_nil]
      · left
        have hProgress : st.memory.currentOutput < written.2.currentOutput :=
          hReceived.progress hSome
        rw [hNext]
        simp only [remaining, hState]
        omega

theorem Computes.allDataSent (hReady : layer.Ready) (h : layer.Computes outputs st)
    (hState : st.memory.currentState = .allDataSent) (hRow : st.memory.currentM = layer.M)
    (hColumn : st.memory.currentN = 0) (arrivals : List Nat) :
    layer.Advances outputs st arrivals := by
  obtain ⟨written, hLoop, hReceived⟩ :=
    @Writes.received _ _ _ _ _ _ st.memory.currentState hReady h.writes h.phase.sent_le arrivals
  have hNext : layer.cycle st arrivals =
      { memory := { st.memory with toSparseDenseSDMemoryWriter := written.2 }
        networks := st.networks
        results := fun v => (arrivals.foldl deliver (st.writeFifo, st.results)).2 v ++ []
        writeFifo := written.1 } := by
    simp only [cycle, generate, feedNetworks, hState, transition] at hLoop ⊢
    rw [hLoop]
    simp only [Option.getD_some]
  have hAll : written.2.currentOutput ≤ layer.M * (layer.iterN * layer.tN) := by
    calc written.2.currentOutput ≤ layer.sent st.memory * layer.tN := hReceived.writes.output_le
      _ = layer.M * (layer.iterN * layer.tN) := by
          rw [sent, hRow, hColumn, Nat.add_zero, Nat.mul_assoc]
  refine ⟨⟨?_, ?_⟩, ?_⟩
  · rw [hNext]
    exact .allDataSent hState hRow hColumn
  · rw [hNext]
    exact @Writes.append _ _ _ _ _ _ hReceived.writes 0 _ (fun _ _ => rfl) fun _ _ => rfl
  · rcases eq_or_ne (arrivals.foldl deliver (st.writeFifo, st.results)).1 [] with hNone | hSome
    · refine Or.inr ⟨?_, hNone, Or.inr hState⟩
      have hSame := deliver_eq_of_nil hNone
      have hIdle := hReceived.idle hNone
      rw [hSame] at hNone
      rw [hNext, hSame, hIdle, ← hNone]
      simp only [List.append_nil]
    · left
      have hProgress : st.memory.currentOutput < written.2.currentOutput :=
        hReceived.progress hSome
      rw [hNext]
      simp only [remaining, hState]
      omega

/-- Every cycle keeps what holds in the states of a run. -/
theorem Computes.cycle (hReady : layer.Ready) (h : layer.Computes outputs st)
    (arrivals : List Nat) : layer.Advances outputs st arrivals := by
  cases h.phase with
  | configuring state row column output => exact h.configuring hReady state row column output _
  | distStaMatrix state row column output configured fold incomplete weights psums currentPsum =>
      exact h.distStaMatrix hReady state row column output configured fold incomplete weights psums
        currentPsum _
  | distStrMatrix state row column output configured fold incomplete weights psums currentPsum =>
      exact h.distStrMatrix hReady state row column output configured fold incomplete weights psums
        currentPsum _
  | waiting m state row last column output more incomplete =>
      exact h.waiting hReady state row last column output more incomplete _
  | allDataSent state row column => exact h.allDataSent hReady state row column _

end

end SparseDenseMemory

end Stonne
