import Stonne.Maeri.Links

/-!
# Multiplication on arrival

Whatever the memory sends, there is a plan that the multipliers follow: a multiplier takes
what its neighbour forwards and the next activation of its own stream in turn.  A
multiplier that never reads its link multiplies each activation when it arrives, so that
nothing is left of a phase when the next weight comes.
-/

namespace Stonne

open Dataflow

namespace StreamPlan

/-- Position `j` of a multiplier comes over its link. -/
def reads (folds windows : Nat) (receives : Nat → Bool) (m j : Nat) : Bool :=
  receives m && decide (0 < j / folds % windows)

/-- What a multiplier multiplies when the memory sends it the values of `stream`. -/
def merged (folds windows : Nat) (receives : Nat → Bool) (stream : Nat → List Int) (m j : Nat) :
    Int :=
  if reads folds windows receives m j = true ∧ 0 < folds ∧ 0 < j then
    merged folds windows receives stream (m + 1) (j - folds)
  else
    (stream m).getD ((List.range j).filter fun i => !reads folds windows receives m i).length 0
termination_by j
decreasing_by omega

/-- The plan of some streams. -/
def ofStreams (folds windows rows : Nat) (taps receives sends : Nat → Bool)
    (stream : Nat → List Int) : StreamPlan where
  folds := folds
  windows := windows
  rows := rows
  taps := taps
  receives := receives
  sends := sends
  value := merged folds windows receives stream

section

variable {folds windows rows : Nat} {taps receives sends : Nat → Bool}
  {stream : Nat → List Int}

theorem ofStreams_linked (hFolds : 0 < folds) (hWindows : 0 < windows)
    (hNeighbour : ∀ m, receives m = true ↔ sends (m + 1) = true) (hFirst : sends 0 = false)
    (hTap : ∀ m, receives m = true → taps m = true ∧ taps (m + 1) = true) :
    (ofStreams folds windows rows taps receives sends stream).Linked := by
  refine ⟨hFolds, hWindows, hNeighbour, hFirst, hTap, fun m j hm hSent => ?_⟩
  have hPos : 0 < folds + j := Nat.add_pos_left hFolds j
  rw [toLink, Bool.and_eq_true, decide_eq_true_eq] at hSent
  have hWindow : j / folds % windows < windows - 1 := hSent.1
  have hReads : reads folds windows receives m (folds + j) = true := by
    have hReceives : receives m = true := hm
    rw [reads, hReceives, Bool.true_and, decide_eq_true_eq, Nat.add_div_left j hFolds,
      (succ_of_lt (show j / folds % windows + 1 < windows by omega)).1]
    exact Nat.succ_pos _
  change merged folds windows receives stream m (folds + j) =
    merged folds windows receives stream (m + 1) j
  rw [merged, if_pos ⟨hReads, hFolds, hPos⟩, Nat.add_sub_cancel_left]

/-- From the memory the multiplier takes the values of its stream. -/
private theorem picked_ofStreams (m n : Nat) :
    let plan := ofStreams folds windows rows taps receives sends stream
    picked (plan.fromMemory m) (plan.value m) n =
      (List.range (picked (plan.fromMemory m) (plan.value m) n).length).map fun i =>
        (stream m).getD i 0 := by
  intro plan
  induction n with
  | zero => rfl
  | succ n ih =>
      cases hMemory : plan.fromMemory m n with
      | false => rw [picked_succ_of_false _ hMemory, ← ih]
      | true =>
          have hReads : ¬(reads folds windows receives m n = true ∧ 0 < folds ∧ 0 < n) := by
            rintro ⟨hReads, -⟩
            have hNone : (!reads folds windows receives m n) = true := hMemory
            rw [hReads] at hNone
            cases hNone
          have hValue : plan.value m n =
              (stream m).getD (picked (plan.fromMemory m) (plan.value m) n).length 0 := by
            change merged folds windows receives stream m n = _
            rw [merged, if_neg hReads, picked, List.length_map]
            rfl
          rw [picked_succ_of_true _ hMemory, List.length_append, List.length_singleton,
            List.range_succ, List.map_append, ← ih, List.map_singleton, hValue]

/-- Every row takes something from the memory. -/
private theorem rows_le_length {plan : StreamPlan} (hFolds : 0 < plan.folds)
    (hWindows : 0 < plan.windows) (m rows : Nat) :
    rows ≤ (picked (plan.fromMemory m) (plan.value m)
      (rows * (plan.windows * plan.folds))).length := by
  induction rows with
  | zero => exact Nat.zero_le _
  | succ rows ih =>
      have hRow : plan.fromMemory m (rows * (plan.windows * plan.folds)) = true := by
        rw [fromMemory, fromLink, ← Nat.mul_assoc, Nat.mul_div_cancel _ hFolds, Nat.mul_mod_left]
        simp
      have hNext : rows * (plan.windows * plan.folds) + 1 ≤
          (rows + 1) * (plan.windows * plan.folds) := by
        rw [Nat.succ_mul]
        exact Nat.add_le_add_left (Nat.mul_pos hWindows hFolds) _
      have hMono := (picked_mono (plan.fromMemory m) (plan.value m) hNext).length_le
      rw [picked_succ_of_true _ hRow, List.length_append, List.length_singleton] at hMono
      omega

/-- With as many rows as the longest stream has values the plan covers the streams. -/
theorem stream_prefix_picked (hFolds : 0 < folds) (hWindows : 0 < windows) {m : Nat}
    (hRows : (stream m).length ≤ rows) :
    let plan := ofStreams folds windows rows taps receives sends stream
    stream m <+: picked (plan.fromMemory m) (plan.value m) plan.total := by
  intro plan
  have hLength := rows_le_length (show 0 < plan.folds from hFolds) hWindows m rows
  have hTotal : plan.total = rows * (plan.windows * plan.folds) := rfl
  rw [picked_ofStreams, hTotal]
  have hWhole : stream m = (List.range (stream m).length).map fun i => (stream m).getD i 0 := by
    apply List.ext_getElem
    · simp
    · intro i hi _
      simp [hi]
  have hPrefix := picked_mono (fun _ => true) (fun i => (stream m).getD i 0)
    (hRows.trans hLength)
  rw [picked_all, picked_all, ← hWhole] at hPrefix
  exact hPrefix

end

end StreamPlan

/-- Without values from the link, what was multiplied and what waits is what was taken. -/
theorem MSwitch.Follows.length_of_unread {plan : StreamPlan}
    (hUnread : ∀ m j, plan.fromLink m j = false) {ms : MSwitch}
    {m n : Nat} {got linked : List Int} (h : MSwitch.Follows plan m ms got linked n) :
    ms.log.popped.length + ms.activationFifo.length = got.length := by
  have hAll : picked (plan.fromMemory m) (plan.value m) ms.log.popped.length =
      (List.range ms.log.popped.length).map (plan.value m) := by
    rw [← picked_all]
    apply picked_congr
    · intro j _
      rw [StreamPlan.fromMemory, hUnread]
      rfl
    · intro j _ _
      rfl
  rw [← h.activations, hAll, List.length_append, List.length_map, List.length_map,
    List.length_range]

namespace Maeri

section

variable {mach : Maeri} {sig : Signals} {plan : StreamPlan}

/-- A flush comes with the weight that finds the fifo full. -/
theorem flushes_cycle {msSize : Nat} {arrived : Nat → List Int} {nWeights : Nat → Nat}
    {st now : MSNetwork} (hSwept : MSNetwork.Swept plan msSize arrived nWeights st now msSize)
    {m : Nat} (hTap : plan.taps m = true) {i multiplied : Nat}
    (hFlush : (now.1 m).log.flushes[i]? = some multiplied) :
    (st.1 m).log.flushes[i]? = some multiplied ∨
      multiplied = (st.1 m).log.popped.length ∧ (st.1 m).log.flushes.length ≤ i ∧
        i < (nWeights m - 1) / plan.folds := by
  obtain ⟨k, hFlushes⟩ := hSwept.flushes m hTap
  obtain ⟨hm, hStream⟩ := hSwept.streams.taps m hTap
  have hTaken : now.2.store.recv (.input m) = [] := by
    simp [Store.recv, Connections.store, hSwept.taken m hm hTap]
  obtain ⟨_, _, n, hFollows, -, -, hCount⟩ := hStream.follows
  have hLength := hFollows.flushes
  rw [hTaken] at hCount
  have hAll : n = nWeights m := hCount
  rw [hAll] at hLength
  have hLess := (List.getElem?_eq_some_iff.mp hFlush).1
  rw [hFlushes] at hFlush
  rcases Nat.lt_or_ge i (st.1 m).log.flushes.length with hOld | hNew
  · rw [List.getElem?_append_left hOld] at hFlush
    exact Or.inl hFlush
  · rw [List.getElem?_append_right hNew] at hFlush
    have hValue := List.eq_of_mem_replicate (List.mem_of_getElem? hFlush)
    exact Or.inr ⟨hValue, hNew, by omega⟩

theorem lt_of_lt_pred_div {i n folds : Nat} (hFolds : 0 < folds) (h : i < (n - 1) / folds) :
    (i + 1) * folds < n := by
  have hMul := (Nat.le_div_iff_mul_le hFolds).mp (Nat.succ_le_of_lt h)
  have hPos := Nat.mul_pos (Nat.succ_pos i) hFolds
  rw [Nat.succ_eq_add_one] at *
  omega

/-! ## Multipliers that do not read their links -/

/-- A tap that has multiplied everything it has taken. -/
structure OnArrival (sig : Signals) (st : State) (m : Nat) : Prop where
  empty : (st.msnet.1 m).activationFifo = []
  flushes : ∀ i multiplied : Nat, (st.msnet.1 m).log.flushes[i]? = some multiplied →
    (mach.sentActivations sig m ((i + 1) * mach.iterations.phaseLength)).length ≤ multiplied

/-- What has arrived at a tap, in a state where it has multiplied everything it took. -/
private theorem arrived_length (hUnread : ∀ m j, plan.fromLink m j = false) {st : State}
    (hInStep : InStep mach plan st) {m : Nat} (hTap : plan.taps m = true)
    (hEmpty : (st.msnet.1 m).activationFifo = []) :
    (st.msnet.1 m).log.popped.length +
        (MSwitch.activations (st.msnet.2.store.recv (.input m))).length =
      (activationsOf ((st.operands mach m).take (st.delivered m))).length := by
  obtain ⟨got, _, _, hFollows, hGot, -⟩ := (hInStep.streams.taps m hTap).2.follows
  have hCount := hFollows.length_of_unread hUnread
  rw [hEmpty, List.length_nil, Nat.add_zero] at hCount
  rw [hCount, ← List.length_append]
  exact congrArg List.length hGot

/-- A weight that flushes the fifo finds everything before it multiplied. -/
private theorem OnArrival.flush (hFolds : 0 < mach.iterations.folds)
    (hPlanFolds : plan.folds = mach.iterations.folds)
    (hUnread : ∀ m j, plan.fromLink m j = false) {st : State} (hInStep : InStep mach plan st)
    {m : Nat} (hTap : plan.taps m = true) (hSent : st.Sent mach sig m)
    (hEmpty : (st.msnet.1 m).activationFifo = []) {i : Nat}
    (hOld : (st.msnet.1 m).log.flushes.length ≤ i)
    (hNew : i < (weightsOf ((st.operands mach m).take (st.delivered m)) - 1) / plan.folds) :
    (mach.sentActivations sig m ((i + 1) * mach.iterations.phaseLength)).length ≤
      (st.msnet.1 m).log.popped.length := by
  have hCount := arrived_length hUnread hInStep hTap hEmpty
  obtain ⟨_, _, n, hFollows, -, -, hWeights⟩ := (hInStep.streams.taps m hTap).2.follows
  have hWeight : MSwitch.activations (st.msnet.2.store.recv (.input m)) = [] := by
    rcases hInStep.wire m hTap with hNone | ⟨pck, hOne, hLast⟩
    · rw [hNone]
      rfl
    · rw [hOne] at hWeights ⊢
      cases hType : pck.dataType with
      | weight => simp [MSwitch.activations, hType]
      | psum => simp [MSwitch.activations, hType]
      | oactivation => simp [MSwitch.activations, hType]
      | iactivation =>
          -- an activation flushes nothing
          have hSame : n = weightsOf ((st.operands mach m).take (st.delivered m)) := by
            simpa [MSwitch.weights, hType] using hWeights
          rw [hFollows.flushes, hSame] at hOld
          omega
  have hOrdered := hSent.ordered _ (List.take_prefix (st.delivered m) _)
  rw [hWeight, List.length_nil, Nat.add_zero] at hCount
  rw [hCount]
  apply hOrdered.weightsLast
  rw [hPlanFolds] at hNew
  exact lt_of_lt_pred_div hFolds hNew

theorem OnArrival.cycle (hFolds : 0 < mach.iterations.folds) (hPlan : plan.Linked)
    (hPlanFolds : plan.folds = mach.iterations.folds)
    (hUnread : ∀ m j, plan.fromLink m j = false) {st : State} (hInStep : InStep mach plan st)
    (hFed : MSNetwork.Fed plan fun m =>
      activationsOf ((st.operands mach m).take (st.delivered m))) {m : Nat}
    (hTap : plan.taps m = true) (hSent : st.Sent mach sig m)
    (h : mach.OnArrival sig st m) (event : Bool × (Nat → Delivery)) :
    mach.OnArrival sig (mach.cycle sig st event) m := by
  have hSwept := hInStep.streams.swept hPlan hFed
  have hCount := arrived_length hUnread hInStep hTap h.empty
  have hPlanPos : 0 < plan.folds := hPlanFolds ▸ hFolds
  refine ⟨?_, fun i multiplied hFlush => ?_⟩
  · rw [cycle_multipliers]
    obtain ⟨hm, hStream⟩ := hSwept.streams.taps m hTap
    have hTaken : (MSNetwork.cycle mach.numMs st.msnet).2.store.recv (.input m) = [] := by
      simp [Store.recv, Connections.store, hSwept.taken m hm hTap]
    obtain ⟨got, _, n, hFollows, hGot, -, hWeights⟩ := hStream.follows
    rw [hTaken] at hGot hWeights
    have hNow := hFollows.length_of_unread hUnread
    have hAll : got.length =
        (activationsOf ((st.operands mach m).take (st.delivered m))).length := by
      rw [← hGot]
      simp [MSwitch.activations]
    have hGrown := hSwept.grown m hTap
    apply List.eq_nil_of_length_eq_zero
    rcases hInStep.wire m hTap with hNone | ⟨pck, hOne, hLast⟩
    · have hActivations : MSwitch.activations (st.msnet.2.store.recv (.input m)) = [] := by
        rw [hNone]
        rfl
      rw [hActivations, List.length_nil] at hCount
      omega
    · rcases eq_or_ne pck.dataType .iactivation with hType | hType
      · have hActivations :
            (MSwitch.activations (st.msnet.2.store.recv (.input m))).length = 1 := by
          rw [hOne]
          simp [MSwitch.activations, hType]
        rcases Nat.lt_or_ge (st.msnet.1 m).log.popped.length
          ((MSNetwork.cycle mach.numMs st.msnet).1 m).log.popped.length with hMore | hSame
        · omega
        · -- all weights are there, so it can only rest without an activation
          obtain ⟨phases, hPhases, hWhole⟩ :=
            (hSent.ordered _ (List.take_prefix (st.delivered m) _)).whole _ hLast hType
          have hFull : ((MSNetwork.cycle mach.numMs st.msnet).1 m).weightFifo.length =
              plan.folds := by
            have hn : n = phases * plan.folds := by
              rw [hPlanFolds, ← hWhole]
              exact hWeights
            rw [hFollows.weights, hn, MSwitch.filling_mul hPlanPos hPhases]
          have hRead := MSNetwork.fifoToRead_of_not_ready hPlanPos hFollows.nFolding hFull
            (hSwept.idle m hm hTap (by omega))
          rw [MSwitch.fifoToRead, hFollows.readsForwarding, hUnread, if_neg (by decide)] at hRead
          rw [hRead, List.length_nil]
      · have hActivations : MSwitch.activations (st.msnet.2.store.recv (.input m)) = [] := by
          rw [hOne]
          simp [MSwitch.activations, hType]
        rw [hActivations, List.length_nil] at hCount
        omega
  · rw [cycle_multipliers] at hFlush
    rcases flushes_cycle hSwept hTap hFlush with hBefore | ⟨rfl, hOld, hNew⟩
    · exact h.flushes i multiplied hBefore
    · exact OnArrival.flush hFolds hPlanFolds hUnread hInStep hTap hSent h.empty hOld hNew

end

/-- The plan of a machine whose memory sends the values of `stream`. -/
def streamPlan (mach : Maeri) (sig : Signals) (stream : Nat → List Int) : StreamPlan :=
  .ofStreams mach.iterations.folds mach.layer.outY
    ((List.range mach.numMs).map fun m => (stream m).length).sum
    (fun m => CompilerMSN.forwardingPsumEnabled mach.tile m == some false)
    sig.fwReceive sig.fwSend stream

section

variable {mach : Maeri} {sig : Signals}

theorem streamPlan_linked (hIt : mach.iterations.Positive) (hLayer : mach.layer.Positive)
    (hWired : Wired mach sig) (stream : Nat → List Int) :
    (mach.streamPlan sig stream).Linked := by
  apply StreamPlan.ofStreams_linked hIt.folds hLayer.outY hWired.neighbour hWired.first
  intro m hm
  simp only [beq_iff_eq]
  exact hWired.tap m hm

theorem streamPlan_fits (hFolds : mach.nFolding = mach.iterations.folds) (sig : Signals)
    (stream : Nat → List Int) : Fits mach sig (mach.streamPlan sig stream) where
  folds := hFolds
  windows := rfl
  taps m := by simp [streamPlan, StreamPlan.ofStreams]
  receives _ := rfl
  sends _ := rfl

/-- The streams of a run fit the plan that they make. -/
theorem streamPlan_fed (hIt : mach.iterations.Positive) (hLayer : mach.layer.Positive)
    (hTile : mach.tile.Accepted mach.numMs) (stream : Nat → List Int) :
    MSNetwork.Fed (mach.streamPlan sig stream) stream := by
  intro m hm
  apply StreamPlan.stream_prefix_picked hIt.folds hLayer.outY
  simp only [streamPlan, StreamPlan.ofStreams, beq_iff_eq] at hm
  obtain ⟨v, t, hv, ht, rfl⟩ := CompilerMSN.forwardingPsumEnabled_eq_false_iff.mp hm
  have hUsed : mach.tile.multiplier v t < mach.numMs := hTile.multiplier_lt hv ht
  apply List.single_le_sum (fun _ _ => Nat.zero_le _)
  exact List.mem_map.mpr ⟨_, List.mem_range.mpr hUsed, rfl⟩

theorem taps_streamPlan {stream : Nat → List Int} {v : Neuron} (hv : v.InTile mach.tile) {t : Tap}
    (ht : t.InTile mach.tile) :
    (mach.streamPlan sig stream).taps (mach.tile.multiplier v t) = true := by
  simp only [streamPlan, StreamPlan.ofStreams, beq_iff_eq]
  exact CompilerMSN.forwardingPsumEnabled_eq_false_iff.mpr ⟨v, t, hv, ht, rfl⟩

/-- Where no link is read, every tap multiplies on arrival. -/
theorem run_onArrival (hPorts : mach.P ≤ mach.L) (hLayer : mach.layer.Positive)
    (hTile : mach.tile.Accepted mach.numMs) (hWired : Wired mach sig)
    (hFolds : mach.nFolding = mach.iterations.folds)
    (hUnread : (∀ m, sig.fwReceive m = false) ∨ mach.layer.outY = 1)
    (events : List (Bool × (Nat → Delivery))) {v : Neuron} (hv : v.InTile mach.tile) {t : Tap}
    (ht : t.InTile mach.tile) :
    mach.OnArrival sig (mach.run sig events) (mach.tile.multiplier v t) := by
  have hIt : mach.iterations.Positive := Iterations.ofTile_positive hLayer hTile
  generalize hStream : (fun m => activationsOf ((mach.run sig events).operands mach m)) = stream
  have hPlan := streamPlan_linked hIt hLayer hWired stream
  have hFits := streamPlan_fits hFolds sig stream
  have hFed : MSNetwork.Fed (mach.streamPlan sig stream) fun m =>
      activationsOf ((mach.run sig events).operands mach m) := by
    rw [hStream]
    exact streamPlan_fed hIt hLayer hTile stream
  have hLocal : ∀ m j, (mach.streamPlan sig stream).fromLink m j = false := by
    intro m j
    rw [StreamPlan.fromLink]
    rcases hUnread with hNone | hOne
    · have hReceives : (mach.streamPlan sig stream).receives m = false := hNone m
      rw [hReceives, Bool.false_and]
    · have hWindows : (mach.streamPlan sig stream).windows = 1 := hOne
      rw [hWindows, Nat.mod_one]
      simp
  clear hStream
  induction events using List.reverseRecOn with
  | nil =>
      refine ⟨rfl, fun i multiplied hFlush => ?_⟩
      cases hFlush
  | append_singleton events event ih =>
      have hFedBefore := fed_of_append hPorts hTile hFits hFed
      have hInStep := run_inStep hPorts hTile hPlan hFits events hFedBefore
      rw [run_append]
      refine (ih hFedBefore).cycle hIt.folds hPlan rfl hLocal hInStep (fun m hm => ?_)
        (taps_streamPlan hv ht) (run_sent hPorts hIt hTile sig events hv ht) event
      exact (activationsOf_mono (List.take_prefix _ _)).trans (hFedBefore m hm)

/-- In a run of one phase no fifo is flushed. -/
theorem flushes_of_phases_eq_one (hPorts : mach.P ≤ mach.L) (hLayer : mach.layer.Positive)
    (hTile : mach.tile.Accepted mach.numMs) (hWired : Wired mach sig)
    (hFolds : mach.nFolding = mach.iterations.folds) (hPhases : mach.iterations.phases = 1)
    (events : List (Bool × (Nat → Delivery))) {v : Neuron} (hv : v.InTile mach.tile) {t : Tap}
    (ht : t.InTile mach.tile) :
    ((mach.run sig events).msnet.1 (mach.tile.multiplier v t)).log.flushes = [] := by
  have hIt : mach.iterations.Positive := Iterations.ofTile_positive hLayer hTile
  have hInStep := run_inStep hPorts hTile (streamPlan_linked hIt hLayer hWired _)
    (streamPlan_fits hFolds sig _) events (streamPlan_fed hIt hLayer hTile _)
  obtain ⟨_, _, n, hFollows, -, -, hCount⟩ :=
    (hInStep.streams.taps _ (taps_streamPlan hv ht)).2.follows
  have hWeights := (run_sent hPorts hIt hTile sig events hv ht).phased.weights_le
  have hTaken : weightsOf (((mach.run sig events).operands mach (mach.tile.multiplier v t)).take
      ((mach.run sig events).delivered (mach.tile.multiplier v t))) ≤
        weightsOf ((mach.run sig events).operands mach (mach.tile.multiplier v t)) :=
    ((List.take_prefix _ _).filter _).length_le
  have hPos := hIt.folds
  rw [hPhases, Nat.one_mul] at hWeights
  apply List.eq_nil_of_length_eq_zero
  rw [hFollows.flushes]
  apply Nat.div_eq_of_lt
  change n - 1 < mach.iterations.folds
  omega

end

end Maeri

end Stonne
