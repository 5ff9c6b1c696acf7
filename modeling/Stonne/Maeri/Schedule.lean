import Stonne.Maeri.MSNetwork
import Stonne.Lib.Feed
import Mathlib.Data.List.ReduceOption
import Mathlib.Data.List.Rotate

/-!
# The schedule of one multiplier

A multiplier is called once per cycle.  Before a cycle at most one package is put on its input
connection, and behind it the reduction network takes what it sent.  A multiplier without
links gets its operands phase by phase, all weights of a window first; a psum multiplier gets
partial sums.  What either of them sends does not depend on when the packages arrive.
-/

namespace Stonne

open Dataflow

namespace MSwitch

/-- What a multiplier took from its input connection in a cycle and what it sent. -/
structure Exchange where
  received : List DataPackage
  sent : List DataPackage

/-- A cycle of multiplier `m` between the distribution and the reduction network. -/
def period (m : Nat) (st : MSwitch × Connections MSWire) (arrived : Option DataPackage) :
    (MSwitch × Connections MSWire) × List Exchange :=
  let offered := st.2.sendAll (.input m) arrived.toList
  let cycled := st.1.cycle (MSNetwork.links m) offered
  let read := cycled.2.receive (.output m)
  let received :=
    if (cycled.2 (.input m)).existPendingData then [] else offered.store.recv (.input m)
  ((cycled.1, read.2), [{ received := received, sent := read.1 }])

/-- The stream of packages that a multiplier received. -/
def receivedIn (exchanges : List Exchange) : List DataPackage :=
  exchanges.flatMap Exchange.received

/-- The stream of packages that a multiplier sent to the reduction network. -/
def sentIn (exchanges : List Exchange) : List DataPackage :=
  exchanges.flatMap Exchange.sent

/-- The operands of some windows: `folds` weights, and then as many activations for each
window. -/
structure Phase (folds : Nat) where
  weights : List DataPackage
  activations : List DataPackage
  areWeights : ∀ pck ∈ weights, pck.dataType = .weight
  areActivations : ∀ pck ∈ activations, pck.dataType = .iactivation
  allFolds : weights.length = folds
  wholeWindows : folds ∣ activations.length

namespace Phase

variable {folds : Nat}

/-- The packages of a phase in the order of their arrival. -/
def packages (p : Phase folds) : List DataPackage :=
  p.weights ++ p.activations

/-- The value of the weight of activation `i`. -/
def weightOf (p : Phase folds) (i : Nat) : Int :=
  (p.weights.map (·.data)).getD (i % folds) 0

/-- The products of a phase. -/
def products (vn : Nat) (p : Phase folds) : List DataPackage :=
  p.activations.mapIdx fun i activation => psumPackage vn (activation.data * p.weightOf i)

end Phase

/-! ## A multiplier without links -/

/-- The connections of multiplier `m` between two cycles. -/
structure Settled (m : Nat) (conns : Connections MSWire) : Prop where
  input : (conns (.input m)).content = none
  output : (conns (.output m)).content = none
  inputKept : (conns (.input m)).overwritten = false
  outputKept : (conns (.output m)).overwritten = false

/-- Between two cycles, a multiplier without links that holds some weights. -/
structure Multiplies (m folds vn : Nat) (st : MSwitch × Connections MSWire)
    (weightFifo : Fifo) (folding : Nat) : Prop where
  noDirectPsum : st.1.directForwardPsum = false
  noPsum : st.1.forwardPsum = false
  unlinked : st.1.Unlinked
  nFolding : st.1.nFolding = folds
  ownNeuron : st.1.vn = vn
  activationFifo : st.1.activationFifo = []
  weightFifo : st.1.weightFifo = weightFifo
  currentNFolding : st.1.currentNFolding = folding
  settled : Settled m st.2

section

variable {m : Nat} {conns : Connections MSWire}

/-- What was put on the input connection. -/
theorem recv_offered (h : Settled m conns) (arrived : Option DataPackage) :
    (conns.sendAll (.input m) arrived.toList).store.recv (.input m) = arrived.toList := by
  have hContent := Connections.content_sendAll conns (.input m) (.input m) arrived.toList
  rw [Store.recv, Connections.store]
  simp only [hContent, h.input]
  cases arrived with
  | none => rfl
  | some pck => simp

/-- The input connection behind `receive(inputConnection)`. -/
theorem settled_offered (h : Settled m conns) (arrived : Option DataPackage) :
    Settled m ((conns.sendAll (.input m) arrived.toList).receive (.input m)).2 where
  input := by rw [Connections.content_receive, if_pos rfl]
  output := by
    rw [Connections.content_receive, if_neg (by simp), Connections.content_sendAll,
      if_neg (by simp)]
    exact h.output
  inputKept := by
    rw [Connections.overwritten_receive, Connections.overwritten_sendAll, h.inputKept, h.input]
    simp
  outputKept := by
    rw [Connections.overwritten_receive, Connections.overwritten_sendAll, h.outputKept]
    simp

/-- The reduction network takes what a cycle sent, and the input connection is left alone. -/
theorem read_output (hFree : (conns (.output m)).content = none) (sent : List DataPackage) :
    let read := (conns.sendAll (.output m) sent).receive (.output m)
    read.1 = sent ∧ (read.2 (.output m)).content = none ∧
      (read.2 (.input m)).content = (conns (.input m)).content ∧
      (read.2 (.input m)).overwritten = (conns (.input m)).overwritten := by
  refine ⟨?_, ?_, ?_, ?_⟩
  · have hContent := Connections.content_sendAll conns (.output m) (.output m) sent
    rw [Connections.receive_fst, Store.recv, Connections.store]
    simp only [hContent, hFree]
    cases sent with
    | nil => rfl
    | cons pck rest => simp
  · rw [Connections.content_receive, if_pos rfl]
  · rw [Connections.content_receive, if_neg (by simp), Connections.content_sendAll,
      if_neg (by simp)]
  · rw [Connections.overwritten_receive, Connections.overwritten_sendAll]
    simp

/-- A period in terms of the cycle in it. -/
theorem period_of_cycle {st : MSwitch × Connections MSWire} {arrived : Option DataPackage}
    {ms : MSwitch} {sent : List DataPackage} (hFree : (conns (.output m)).content = none)
    (hCycle : st.1.cycle (MSNetwork.links m) (st.2.sendAll (.input m) arrived.toList) =
      (ms, conns.sendAll (.output m) sent)) :
    ∃ read : Connections MSWire,
      period m st arrived = ((ms, read), [{
        received := if (conns (.input m)).content.isSome then []
          else (st.2.sendAll (.input m) arrived.toList).store.recv (.input m)
        sent := sent }]) ∧
      (read (.output m)).content = none ∧
      (read (.input m)).content = (conns (.input m)).content ∧
      (read (.input m)).overwritten = (conns (.input m)).overwritten := by
  obtain ⟨hRead, hOutput, hInput, hKept⟩ := read_output hFree sent
  refine ⟨_, ?_, hOutput, hInput, hKept⟩
  have hPending : ((conns.sendAll (.output m) sent) (.input m)).existPendingData =
      (conns (.input m)).content.isSome := by
    rw [Connection.existPendingData_eq, Connections.content_sendAll, if_neg (by simp)]
  simp only [period, hCycle, hPending, hRead]

theorem settled_read (h : Settled m conns) (sent : List DataPackage) :
    ((conns.sendAll (.output m) sent).receive (.output m)).1 = sent ∧
      Settled m ((conns.sendAll (.output m) sent).receive (.output m)).2 := by
  obtain ⟨hRead, hOutput, hInput, hKept⟩ := read_output h.output sent
  refine ⟨hRead, ⟨hInput.trans h.input, hOutput, hKept.trans h.inputKept, ?_⟩⟩
  rw [Connections.overwritten_receive, Connections.overwritten_sendAll, h.outputKept, h.output]
  simp

end

/-- The multiplication of a multiplier without links: its next state and what it sends. -/
def multiplyNext (ms : MSwitch) : MSwitch × List DataPackage :=
  match ms.activationFifo, ms.weightFifo with
  | activation :: rest, weight :: weights =>
      if ms.nFolding ≤ ms.weightFifo.length then
        (ms.multiply activation rest weight weights,
          [ms.performOperation2Operands activation weight])
      else (ms, [])
  | _, _ => (ms, [])

theorem cycle_eq_multiplyNext {ms : MSwitch} (hDirect : ms.directForwardPsum = false)
    (hPsum : ms.forwardPsum = false) (hUnlinked : ms.Unlinked) (links : Links)
    (conns : Connections MSWire) :
    let next := ((conns.store.recv links.input).foldl receivePackage ms).multiplyNext
    ms.cycle links conns = (next.1, (conns.receive links.input).2.sendAll links.output next.2) := by
  have hReceived := foldl_receivePackage_unlinked (conns.store.recv links.input) hUnlinked
  simp only [cycle, hDirect, hPsum, Bool.false_and, receive, Connections.receive_fst]
  generalize (conns.store.recv links.input).foldl receivePackage ms = now at hReceived
  have hForwards : now.forwards = false := by
    rw [forwards, hReceived.2, Bool.and_false]
  have hFifo : now.fifoToRead = now.activationFifo := by
    rw [fifoToRead, readsForwarding, hReceived.1, Bool.false_and]
    rfl
  simp only [hReceived.1, hFifo, hForwards, multiplyNext, Bool.false_eq_true, if_false]
  cases now.activationFifo with
  | nil => rfl
  | cons activation rest =>
      cases hWeights : now.weightFifo with
      | nil => rfl
      | cons weight weights =>
          simp only
          split <;> rfl

section

variable {m folds vn folding : Nat} {st : MSwitch × Connections MSWire} {fifo : Fifo}

/-- A cycle of a multiplier without links, in terms of its state behind the receive phase. -/
theorem Multiplies.period_eq (h : Multiplies m folds vn st fifo folding)
    (arrived : Option DataPackage) :
    let next := (arrived.toList.foldl receivePackage st.1).multiplyNext
    ∃ conns, Settled m conns ∧
      period m st arrived =
        ((next.1, conns), [{ received := arrived.toList, sent := next.2 }]) := by
  have hRecv := recv_offered h.settled arrived
  have hSettled := settled_offered h.settled arrived
  have hCycle := cycle_eq_multiplyNext h.noDirectPsum h.noPsum h.unlinked (MSNetwork.links m)
    (st.2.sendAll (.input m) arrived.toList)
  simp only [MSNetwork.links, hRecv] at hCycle
  obtain ⟨hRead, hAfter⟩ := settled_read hSettled
    (arrived.toList.foldl receivePackage st.1).multiplyNext.2
  refine ⟨_, hAfter, ?_⟩
  have hDrained : (((st.2.sendAll (.input m) arrived.toList).receive (.input m)).2.sendAll
      (.output m) (arrived.toList.foldl receivePackage st.1).multiplyNext.2
      (.input m)).existPendingData = false := by
    rw [Connection.existPendingData_eq, Connections.content_sendAll, if_neg (by simp),
      hSettled.input]
    rfl
  simp only [period, MSNetwork.links, hCycle, hRead, hRecv, hDrained, Bool.false_eq_true, if_false]

/-- A cycle without a package changes nothing. -/
theorem Multiplies.idle (h : Multiplies m folds vn st fifo folding) :
    Multiplies m folds vn (period m st none).1 fifo folding ∧
      sentIn (period m st none).2 = [] := by
  obtain ⟨conns, hSettled, hPeriod⟩ := h.period_eq none
  have hNext : st.1.multiplyNext = (st.1, []) := by
    rw [multiplyNext, h.activationFifo]
  simp only [Option.toList_none, List.foldl_nil, hNext] at hPeriod
  rw [hPeriod]
  exact ⟨{ h with settled := hSettled }, rfl⟩

/-- The fifo when `loaded` is what arrived of the current phase: before its first weight the
fifo may still hold the weights of the last phase. -/
def Loaded (folds : Nat) (fifo loaded : Fifo) : Prop :=
  fifo = loaded ∨ loaded = [] ∧ fifo.length = folds

/-- A weight is put behind those of its own phase. -/
theorem Multiplies.load (h : Multiplies m folds vn st fifo folding) {loaded : Fifo}
    (hLoaded : Loaded folds fifo loaded) (hMore : loaded.length < folds) {pck : DataPackage}
    (hType : pck.dataType = .weight) :
    Multiplies m folds vn (period m st (some pck)).1 (loaded ++ [pck]) folding ∧
      sentIn (period m st (some pck)).2 = [] := by
  obtain ⟨conns, hSettled, hPeriod⟩ := h.period_eq (some pck)
  have hReceived : ∃ log, st.1.receivePackage pck =
      { st.1 with weightFifo := loaded ++ [pck], log := log } := by
    simp only [receivePackage, hType, h.weightFifo, h.nFolding]
    rcases hLoaded with rfl | ⟨rfl, hFull⟩
    · rw [if_neg hMore.ne]
      exact ⟨st.1.log, rfl⟩
    · rw [if_pos hFull]
      exact ⟨_, rfl⟩
  obtain ⟨log, hReceived⟩ := hReceived
  have hNext : (st.1.receivePackage pck).multiplyNext = (st.1.receivePackage pck, []) := by
    rw [multiplyNext, hReceived, h.activationFifo]
  simp only [Option.toList_some, List.foldl_cons, List.foldl_nil, hNext] at hPeriod
  rw [hPeriod, hReceived]
  exact ⟨{ h with
    weightFifo := rfl
    settled := hSettled }, rfl⟩

/-- An activation is multiplied with the first weight, which goes behind the others. -/
theorem Multiplies.fire (h : Multiplies m folds vn st fifo folding) {weight : DataPackage}
    {rest : Fifo} (hFifo : fifo = weight :: rest) (hFull : fifo.length = folds)
    {pck : DataPackage} (hType : pck.dataType = .iactivation) :
    Multiplies m folds vn (period m st (some pck)).1 (rest ++ [weight])
        (if folding + 1 = folds then 0 else folding + 1) ∧
      sentIn (period m st (some pck)).2 = [psumPackage vn (pck.data * weight.data)] := by
  obtain ⟨conns, hSettled, hPeriod⟩ := h.period_eq (some pck)
  have hReceived : st.1.receivePackage pck = { st.1 with activationFifo := [pck] } := by
    simp only [receivePackage, hType, h.activationFifo, List.nil_append]
  have hUnread : st.1.readsForwarding = false := by
    rw [readsForwarding, h.unlinked.1, Bool.false_and]
  have hEnough : st.1.nFolding ≤ st.1.weightFifo.length := by
    rw [h.nFolding, h.weightFifo, hFull]
  have hNext : (st.1.receivePackage pck).multiplyNext =
      ((st.1.receivePackage pck).multiply pck [] weight rest,
        [psumPackage vn (pck.data * weight.data)]) := by
    rw [multiplyNext, hReceived, ← h.ownNeuron]
    simp only [h.weightFifo, hFifo] at hEnough ⊢
    rw [if_pos hEnough]
    rfl
  simp only [Option.toList_some, List.foldl_cons, List.foldl_nil, hNext] at hPeriod
  rw [hPeriod, hReceived]
  refine ⟨{
    noDirectPsum := h.noDirectPsum
    noPsum := h.noPsum
    unlinked := h.unlinked
    nFolding := h.nFolding
    ownNeuron := h.ownNeuron
    activationFifo := ?_
    weightFifo := rfl
    currentNFolding := ?_
    settled := hSettled }, rfl⟩
  · have hStill : ({ st.1 with activationFifo := [pck] } : MSwitch).readsForwarding = false :=
      hUnread
    simp only [multiply, hStill]
    rfl
  · simp only [multiply, nextFolding, h.currentNFolding, h.nFolding]

/-! ## Phases -/

theorem sentIn_feed_cons (st : MSwitch × Connections MSWire) (arrived : Option DataPackage)
    (arrivals : List (Option DataPackage)) :
    sentIn (feed (period m) st (arrived :: arrivals)).2 =
      sentIn (period m st arrived).2 ++
        sentIn (feed (period m) (period m st arrived).1 arrivals).2 := by
  rw [feed_cons, sentIn, List.flatMap_append]
  rfl

theorem Multiplies.idleAll {arrivals : List (Option DataPackage)}
    (hArrivals : arrivals.reduceOption = []) (h : Multiplies m folds vn st fifo folding) :
    Multiplies m folds vn (feed (period m) st arrivals).1 fifo folding ∧
      sentIn (feed (period m) st arrivals).2 = [] := by
  induction arrivals generalizing st with
  | nil => exact ⟨h, rfl⟩
  | cons arrived arrivals ih =>
      rw [sentIn_feed_cons, feed_cons]
      cases arrived with
      | none =>
          obtain ⟨hIdle, hNone⟩ := h.idle
          obtain ⟨hAfter, hSent⟩ := ih hArrivals hIdle
          exact ⟨hAfter, by rw [hNone, hSent]; rfl⟩
      | some pck => exact absurd hArrivals (by simp)

/-- Weights arrive, and nothing is sent. -/
theorem Multiplies.loadAll {arrivals : List (Option DataPackage)} {pcks : List DataPackage}
    (hArrivals : arrivals.reduceOption = pcks) (hTypes : ∀ pck ∈ pcks, pck.dataType = .weight)
    {loaded : Fifo} (hLength : loaded.length + pcks.length ≤ folds)
    (hLoaded : Loaded folds fifo loaded) (h : Multiplies m folds vn st fifo folding) :
    ∃ fifo', Loaded folds fifo' (loaded ++ pcks) ∧
      Multiplies m folds vn (feed (period m) st arrivals).1 fifo' folding ∧
      sentIn (feed (period m) st arrivals).2 = [] := by
  induction arrivals generalizing st fifo loaded pcks with
  | nil =>
      subst hArrivals
      exact ⟨fifo, by simpa using hLoaded, h, rfl⟩
  | cons arrived arrivals ih =>
      rw [sentIn_feed_cons, feed_cons]
      cases arrived with
      | none =>
          obtain ⟨hIdle, hNone⟩ := h.idle
          obtain ⟨fifo', hLoaded', hAfter, hSent⟩ := ih hArrivals hTypes hLength hLoaded hIdle
          exact ⟨fifo', hLoaded', hAfter, by rw [hNone, hSent]; rfl⟩
      | some pck =>
          rw [List.reduceOption_cons_of_some] at hArrivals
          subst hArrivals
          rw [List.length_cons] at hLength
          obtain ⟨hLoad, hNone⟩ := h.load hLoaded (by omega) (hTypes pck List.mem_cons_self)
          have hLength' : (loaded ++ [pck]).length + arrivals.reduceOption.length ≤ folds := by
            rw [List.length_append, List.length_singleton]
            omega
          obtain ⟨fifo', hLoaded', hAfter, hSent⟩ := ih rfl
            (fun other hMem => hTypes other (List.mem_cons_of_mem _ hMem)) hLength' (Or.inl rfl)
            hLoad
          exact ⟨fifo', by simpa using hLoaded', hAfter, by rw [hNone, hSent]; rfl⟩

/-- The next weight of a turn, and the fifo behind it. -/
theorem rotate_next {weights : Fifo} (hPos : 0 < weights.length) (c : Nat) :
    ∃ weight rest, weights.rotate c = weight :: rest ∧ rest ++ [weight] = weights.rotate (c + 1) ∧
      weight.data = (weights.map (·.data)).getD (c % weights.length) 0 := by
  have hLess := Nat.mod_lt c hPos
  cases hTurn : weights.rotate c with
  | nil =>
      have hLength := congrArg List.length hTurn
      rw [List.length_rotate, List.length_nil] at hLength
      omega
  | cons weight rest =>
      refine ⟨weight, rest, rfl, ?_, ?_⟩
      · rw [← List.rotate_rotate, hTurn, List.rotate_cons_succ, List.rotate_zero]
      · have hHead := List.head?_rotate hLess
        rw [List.rotate_mod, hTurn, List.head?_cons] at hHead
        rw [List.getD_eq_getElem?_getD, List.getElem?_map, ← hHead]
        rfl

/-- Activations arrive, and each is multiplied with the next weight of the turn. -/
theorem Multiplies.fireAll {weights : Fifo} (hWeights : weights.length = folds)
    (hFolds : 1 ≤ folds) {arrivals : List (Option DataPackage)} {pcks : List DataPackage}
    (hArrivals : arrivals.reduceOption = pcks)
    (hTypes : ∀ pck ∈ pcks, pck.dataType = .iactivation) {c : Nat}
    (h : Multiplies m folds vn st (weights.rotate c) (c % folds)) :
    Multiplies m folds vn (feed (period m) st arrivals).1 (weights.rotate (c + pcks.length))
        ((c + pcks.length) % folds) ∧
      sentIn (feed (period m) st arrivals).2 = pcks.mapIdx fun i activation =>
        psumPackage vn (activation.data * (weights.map (·.data)).getD ((c + i) % folds) 0) := by
  induction arrivals generalizing st c pcks with
  | nil =>
      subst hArrivals
      exact ⟨h, rfl⟩
  | cons arrived arrivals ih =>
      rw [sentIn_feed_cons, feed_cons]
      cases arrived with
      | none =>
          obtain ⟨hIdle, hNone⟩ := h.idle
          obtain ⟨hAfter, hSent⟩ := ih hArrivals hTypes hIdle
          exact ⟨hAfter, by rw [hNone, hSent]; rfl⟩
      | some pck =>
          rw [List.reduceOption_cons_of_some] at hArrivals
          subst hArrivals
          obtain ⟨weight, rest, hTurn, hNext, hValue⟩ := rotate_next (hWeights.symm ▸ hFolds) c
          have hFull : (weights.rotate c).length = folds := by rw [List.length_rotate, hWeights]
          have hFolding : (if c % folds + 1 = folds then 0 else c % folds + 1) =
              (c + 1) % folds := by
            have hLess := Nat.mod_lt c hFolds
            split
            · rw [(succ_of_eq ‹_›).1]
            · rw [(succ_of_lt (by omega)).1]
          obtain ⟨hFire, hProduct⟩ := h.fire hTurn hFull (hTypes pck List.mem_cons_self)
          rw [hNext, hFolding] at hFire
          obtain ⟨hAfter, hSent⟩ := ih rfl
            (fun other hMem => hTypes other (List.mem_cons_of_mem _ hMem)) hFire
          have hCount : c + (pck :: arrivals.reduceOption).length =
              c + 1 + arrivals.reduceOption.length := by
            rw [List.length_cons]
            omega
          refine ⟨by rw [hCount]; exact hAfter, ?_⟩
          have hShift : (fun i activation => psumPackage vn (DataPackage.data activation *
                (weights.map (·.data)).getD ((c + 1 + i) % folds) 0)) =
              fun i activation => psumPackage vn (activation.data *
                (weights.map (·.data)).getD ((c + (i + 1)) % folds) 0) := by
            funext i activation
            rw [Nat.add_right_comm, Nat.add_assoc]
          rw [hProduct, hSent, List.mapIdx_cons, hValue, hWeights, hShift]
          rfl

/-- A phase sends its products and turns its weights back. -/
theorem Multiplies.phase (hFolds : 1 ≤ folds) (p : Phase folds)
    (hFifo : Loaded folds fifo []) (h : Multiplies m folds vn st fifo 0)
    {arrivals : List (Option DataPackage)} (hArrivals : arrivals.reduceOption = p.packages) :
    Multiplies m folds vn (feed (period m) st arrivals).1 p.weights 0 ∧
      sentIn (feed (period m) st arrivals).2 = p.products vn := by
  obtain ⟨loads, fires, rfl, hLoads, hFires⟩ :=
    (List.reduceOption_eq_append_iff arrivals p.weights p.activations).mp hArrivals
  have hLength : ([] : Fifo).length + p.weights.length ≤ folds := by
    rw [List.length_nil, Nat.zero_add, p.allFolds]
  obtain ⟨fifo', hLoaded, hLoad, hNone⟩ := Multiplies.loadAll hLoads p.areWeights hLength hFifo h
  have hWeights : fifo' = p.weights := by
    rcases hLoaded with hSame | ⟨hEmpty, -⟩
    · exact hSame
    · have hZero := congrArg List.length hEmpty
      rw [List.nil_append, p.allFolds, List.length_nil] at hZero
      omega
  have hStart : Multiplies m folds vn (feed (period m) st loads).1 (p.weights.rotate 0)
      (0 % folds) := by
    rwa [List.rotate_zero, Nat.zero_mod, ← hWeights]
  obtain ⟨hFire, hSent⟩ := Multiplies.fireAll p.allFolds hFolds hFires p.areActivations hStart
  obtain ⟨windows, hWindows⟩ := p.wholeWindows
  have hTurned : p.weights.rotate (folds * windows) = p.weights := by
    have hTurn := List.rotate_length_mul p.weights windows
    rwa [p.allFolds] at hTurn
  rw [Nat.zero_add, hWindows, hTurned, Nat.mul_mod_right] at hFire
  rw [feed_append, sentIn, List.flatMap_append]
  refine ⟨hFire, ?_⟩
  rw [← sentIn, ← sentIn, hNone, hSent, Phase.products]
  simp only [Nat.zero_add, List.nil_append]
  rfl

/-- The weights in the fifo after some phases. -/
def lastWeights (phases : List (Phase folds)) (fifo : Fifo) : Fifo :=
  (phases.getLast?.map Phase.weights).getD fifo

/-- Phase after phase. -/
theorem Multiplies.phases (hFolds : 1 ≤ folds) (phases : List (Phase folds))
    (hFifo : Loaded folds fifo []) (h : Multiplies m folds vn st fifo 0)
    {arrivals : List (Option DataPackage)}
    (hArrivals : arrivals.reduceOption = phases.flatMap Phase.packages) :
    Multiplies m folds vn (feed (period m) st arrivals).1 (lastWeights phases fifo) 0 ∧
      sentIn (feed (period m) st arrivals).2 = phases.flatMap (Phase.products vn) := by
  induction phases generalizing st fifo arrivals with
  | nil =>
      exact h.idleAll hArrivals
  | cons p phases ih =>
      obtain ⟨now, later, rfl, hNow, hLater⟩ :=
        (List.reduceOption_eq_append_iff arrivals _ _).mp hArrivals
      obtain ⟨hPhase, hSent⟩ := h.phase hFolds p hFifo hNow
      obtain ⟨hAfter, hRest⟩ := ih (Or.inr ⟨rfl, p.allFolds⟩) hPhase hLater
      have hLast : lastWeights (p :: phases) fifo = lastWeights phases p.weights := by
        cases phases with
        | nil => rfl
        | cons other phases =>
            rw [lastWeights, lastWeights, List.getLast?_cons_cons, List.getLast?_cons]
            rfl
      rw [feed_append, sentIn, List.flatMap_append, ← sentIn, ← sentIn, hSent, hRest, hLast]
      exact ⟨hAfter, rfl⟩

end

/-! ## A psum multiplier -/

/-- The elements of a list at some of its positions. -/
def atPositions {α : Type*} (P : Nat → Bool) (xs : List α) : List α :=
  (xs.zipIdx.filter fun x => P x.2).map Prod.fst

theorem atPositions_concat {α : Type*} (P : Nat → Bool) (xs : List α) (x : α) :
    atPositions P (xs ++ [x]) = atPositions P xs ++ if P xs.length then [x] else [] := by
  rw [atPositions, List.zipIdx_append, List.filter_append, List.map_append]
  cases hAt : P xs.length <;> simp [atPositions, hAt]

/-- A zero and `folds - 1` of the received partial sums, in turn. -/
structure TakesTurns (folds vn : Nat) (received sent : List DataPackage) : Prop where
  zeros : ∀ pck ∈ atPositions (fun j => j % folds == 0) sent, pck = psumPackage vn 0
  psums : atPositions (fun j => j % folds != 0) sent =
    received.map fun psum => psumPackage vn psum.data

section

variable {folds vn : Nat} {received sent : List DataPackage}

theorem TakesTurns.zero (h : TakesTurns folds vn received sent) (hTurn : sent.length % folds = 0) :
    TakesTurns folds vn received (sent ++ [psumPackage vn 0]) where
  zeros pck hMem := by
    rw [atPositions_concat, List.mem_append] at hMem
    rcases hMem with hBefore | hNow
    · exact h.zeros pck hBefore
    · simpa [hTurn] using hNow
  psums := by
    rw [atPositions_concat, h.psums]
    simp [hTurn]

theorem TakesTurns.psum (h : TakesTurns folds vn received sent) (hTurn : sent.length % folds ≠ 0)
    (psum : DataPackage) :
    TakesTurns folds vn (received ++ [psum]) (sent ++ [psumPackage vn psum.data]) where
  zeros pck hMem := by
    rw [atPositions_concat] at hMem
    simp only [beq_iff_eq, hTurn, if_false, List.append_nil] at hMem
    exact h.zeros pck hMem
  psums := by
    rw [atPositions_concat, h.psums, List.map_append]
    simp [hTurn]

end

/-- A psum multiplier behind some cycles, in which `fed` was put on its input connection and
`pending` still waits there. -/
structure PassesPsums (m folds vn : Nat) (fed : List DataPackage) (pending : Option DataPackage)
    (st : MSwitch × Connections MSWire) (exchanges : List Exchange) : Prop where
  noDirectPsum : st.1.directForwardPsum = false
  psum : st.1.forwardPsum = true
  nFolding : st.1.nFolding = folds
  ownNeuron : st.1.vn = vn
  activationFifo : st.1.activationFifo = []
  currentNFolding : st.1.currentNFolding = (sentIn exchanges).length % folds
  output : (st.2 (.output m)).content = none
  input : (st.2 (.input m)).content = pending.map fun psum => [psum]
  pendingPsum : ∀ pck ∈ pending, pck.dataType = .psum
  turns : TakesTurns folds vn (receivedIn exchanges) (sentIn exchanges)
  inOrder : (receivedIn exchanges ++ pending.toList).Sublist fed
  complete : (st.2 (.input m)).overwritten = false →
    receivedIn exchanges ++ pending.toList = fed

theorem cycle_zero {ms : MSwitch} (hDirect : ms.directForwardPsum = false)
    (hPsum : ms.forwardPsum = true) (hFolding : ms.currentNFolding = 0) (links : Links)
    (conns : Connections MSWire) :
    ms.cycle links conns =
      ({ ms with currentNFolding := ms.nextFolding },
        conns.sendAll links.output [psumPackage ms.vn 0]) := by
  simp [cycle, hDirect, hPsum, hFolding, Connections.sendAll]

theorem cycle_wait {ms : MSwitch} (hDirect : ms.directForwardPsum = false)
    (hPsum : ms.forwardPsum = true) (hFolding : 0 < ms.currentNFolding)
    (hFifo : ms.activationFifo = []) {links : Links} {conns : Connections MSWire}
    (hWaiting : conns.store.recv links.input = []) :
    ms.cycle links conns = (ms, (conns.receive links.input).2.sendAll links.output []) := by
  simp only [cycle, hDirect, hPsum, hFolding, decide_true, Bool.and_true, receive,
    Connections.receive_fst, hWaiting, passPsum, List.foldl_nil, hFifo]
  rfl

theorem cycle_pass {ms : MSwitch} (hDirect : ms.directForwardPsum = false)
    (hPsum : ms.forwardPsum = true) (hFolding : 0 < ms.currentNFolding)
    (hFifo : ms.activationFifo = []) {links : Links} {conns : Connections MSWire}
    {psum : DataPackage} (hWaiting : conns.store.recv links.input = [psum])
    (hType : psum.dataType = .psum) :
    ms.cycle links conns =
      ({ ms with currentNFolding := ms.nextFolding },
        (conns.receive links.input).2.sendAll links.output [psumPackage ms.vn psum.data]) := by
  have hReceived : ms.receivePackage psum = { ms with activationFifo := [psum] } := by
    simp only [receivePackage, hType, hFifo, List.nil_append]
  simp only [cycle, hDirect, hPsum, hFolding, decide_true, Bool.and_true, receive,
    Connections.receive_fst, hWaiting, passPsum, List.foldl_cons, List.foldl_nil, hReceived, hFifo]
  rfl

section

variable {m folds vn : Nat} {fed : List DataPackage} {pending arrived : Option DataPackage}
  {st : MSwitch × Connections MSWire} {exchanges : List Exchange}

/-- What waits on the input connection when a cycle begins. -/
def offer (pending arrived : Option DataPackage) : Option DataPackage :=
  arrived.or pending

theorem PassesPsums.content_offered (h : PassesPsums m folds vn fed pending st exchanges) :
    ((st.2.sendAll (.input m) arrived.toList) (.input m)).content =
      (offer pending arrived).map fun psum => [psum] := by
  rw [Connections.content_sendAll, h.input]
  cases arrived <;> simp [offer]

/-- Putting a package on the input connection loses the one that waits there, if any. -/
theorem PassesPsums.offered (h : PassesPsums m folds vn fed pending st exchanges)
    (arrived : Option DataPackage) :
    (receivedIn exchanges ++ (offer pending arrived).toList).Sublist (fed ++ arrived.toList) ∧
      (((st.2.sendAll (.input m) arrived.toList) (.input m)).overwritten = false →
        receivedIn exchanges ++ (offer pending arrived).toList = fed ++ arrived.toList) := by
  rw [Connections.overwritten_sendAll, h.input]
  cases arrived with
  | none =>
      refine ⟨by simpa [offer] using h.inOrder, fun hKept => ?_⟩
      simpa [offer] using h.complete (by simpa using hKept)
  | some pck =>
      have hReceived : (receivedIn exchanges).Sublist fed :=
        (List.sublist_append_left _ _).trans h.inOrder
      refine ⟨hReceived.append (List.Sublist.refl _), fun hKept => ?_⟩
      cases pending with
      | none =>
          have hAll := h.complete (by simpa using hKept)
          rw [Option.toList_none, List.append_nil] at hAll
          rw [hAll]
          rfl
      | some old => simp at hKept

theorem sentIn_concat (exchanges : List Exchange) (e : Exchange) :
    sentIn (exchanges ++ [e]) = sentIn exchanges ++ e.sent := by
  rw [sentIn, List.flatMap_append, List.flatMap_singleton]
  rfl

theorem receivedIn_concat (exchanges : List Exchange) (e : Exchange) :
    receivedIn (exchanges ++ [e]) = receivedIn exchanges ++ e.received := by
  rw [receivedIn, List.flatMap_append, List.flatMap_singleton]
  rfl

theorem PassesPsums.nextFolding_eq (hFolds : 2 ≤ folds)
    (h : PassesPsums m folds vn fed pending st exchanges) :
    st.1.nextFolding = ((sentIn exchanges).length + 1) % folds := by
  have hLess := Nat.mod_lt (sentIn exchanges).length (Nat.zero_lt_of_lt hFolds)
  rw [nextFolding, h.currentNFolding, h.nFolding]
  split
  · rw [(succ_of_eq ‹_›).1]
  · rw [(succ_of_lt (by omega)).1]

theorem PassesPsums.offer_psum (h : PassesPsums m folds vn fed pending st exchanges)
    (hArrived : ∀ pck ∈ arrived, pck.dataType = .psum) :
    ∀ pck ∈ offer pending arrived, pck.dataType = .psum := by
  cases arrived with
  | none => exact h.pendingPsum
  | some psum => exact hArrived

theorem PassesPsums.recv_offered (h : PassesPsums m folds vn fed pending st exchanges)
    (arrived : Option DataPackage) :
    (st.2.sendAll (.input m) arrived.toList).store.recv (.input m) =
      (offer pending arrived).toList := by
  rw [Store.recv, Connections.store]
  simp only [h.content_offered]
  cases offer pending arrived <;> rfl

theorem PassesPsums.output_received (h : PassesPsums m folds vn fed pending st exchanges)
    (arrived : Option DataPackage) :
    (((st.2.sendAll (.input m) arrived.toList).receive (.input m)).2 (.output m)).content =
      none := by
  rw [Connections.content_receive, if_neg (by simp), Connections.content_sendAll,
    if_neg (by simp), h.output]

theorem input_received (conns : Connections MSWire) (m : Nat) :
    ((conns.receive (.input m)).2 (.input m)).content = none := by
  rw [Connections.content_receive, if_pos rfl]

theorem PassesPsums.currentNFolding_pos (h : PassesPsums m folds vn fed pending st exchanges)
    (hTurn : (sentIn exchanges).length % folds ≠ 0) : 0 < st.1.currentNFolding := by
  rw [h.currentNFolding]
  exact Nat.pos_of_ne_zero hTurn

/-- In the first fold of a window nothing is received and a zero is sent. -/
theorem PassesPsums.zero (hFolds : 2 ≤ folds)
    (h : PassesPsums m folds vn fed pending st exchanges)
    (hArrived : ∀ pck ∈ arrived, pck.dataType = .psum)
    (hTurn : (sentIn exchanges).length % folds = 0) :
    PassesPsums m folds vn (fed ++ arrived.toList) (offer pending arrived)
      (MSwitch.period m st arrived).1 (exchanges ++ (MSwitch.period m st arrived).2) := by
  have hOutput : ((st.2.sendAll (.input m) arrived.toList) (.output m)).content = none := by
    rw [Connections.content_sendAll, if_neg (by simp), h.output]
  have hCycle := cycle_zero h.noDirectPsum h.psum (h.currentNFolding.trans hTurn)
    (MSNetwork.links m) (st.2.sendAll (.input m) arrived.toList)
  obtain ⟨read, hPeriod, hFree, hInput, hKept⟩ := period_of_cycle hOutput hCycle
  rw [h.content_offered] at hInput
  obtain ⟨hOrder, hComplete⟩ := h.offered arrived
  have hReceived : (if ((st.2.sendAll (.input m) arrived.toList) (.input m)).content.isSome then []
      else (st.2.sendAll (.input m) arrived.toList).store.recv (.input m)) = [] := by
    rw [h.recv_offered arrived, h.content_offered]
    cases offer pending arrived <;> rfl
  have hPsums := h.offer_psum hArrived
  rw [hPeriod, hReceived, h.ownNeuron]
  exact {
    noDirectPsum := h.noDirectPsum
    psum := h.psum
    nFolding := h.nFolding
    ownNeuron := rfl
    activationFifo := h.activationFifo
    currentNFolding := by
      rw [sentIn_concat, List.length_append]
      exact h.nextFolding_eq hFolds
    output := hFree
    input := hInput
    pendingPsum := hPsums
    turns := by
      rw [sentIn_concat, receivedIn_concat, List.append_nil]
      exact h.turns.zero hTurn
    inOrder := by
      rw [receivedIn_concat, List.append_nil]
      exact hOrder
    complete := by
      rw [receivedIn_concat, List.append_nil, hKept]
      exact hComplete }

/-- Without a partial sum the cycle changes nothing. -/
theorem PassesPsums.wait (h : PassesPsums m folds vn fed pending st exchanges)
    (hTurn : (sentIn exchanges).length % folds ≠ 0) (hOffer : offer pending arrived = none) :
    PassesPsums m folds vn (fed ++ arrived.toList) none
      (MSwitch.period m st arrived).1 (exchanges ++ (MSwitch.period m st arrived).2) := by
  obtain ⟨hOrder, hComplete⟩ := h.offered arrived
  have hWaiting := h.recv_offered arrived
  rw [hOffer] at hOrder hComplete hWaiting
  have hCycle := @cycle_wait _ h.noDirectPsum h.psum (h.currentNFolding_pos hTurn)
    h.activationFifo (MSNetwork.links m) _ hWaiting
  obtain ⟨read, hPeriod, hFree, hInput, hKept⟩ :=
    period_of_cycle (h.output_received arrived) hCycle
  rw [input_received] at hInput
  rw [Connections.overwritten_receive] at hKept
  rw [hPeriod, input_received, hWaiting]
  exact {
    noDirectPsum := h.noDirectPsum
    psum := h.psum
    nFolding := h.nFolding
    ownNeuron := h.ownNeuron
    activationFifo := h.activationFifo
    currentNFolding := by
      rw [sentIn_concat, List.append_nil]
      exact h.currentNFolding
    output := hFree
    input := hInput
    pendingPsum := fun _ hNone => absurd hNone (by simp)
    turns := by
      rw [sentIn_concat, receivedIn_concat]
      simpa using h.turns
    inOrder := by
      rw [receivedIn_concat]
      simpa using hOrder
    complete := by
      rw [receivedIn_concat, hKept]
      simpa using hComplete }

/-- In the other folds a partial sum is passed on as soon as there is one. -/
theorem PassesPsums.pass (hFolds : 2 ≤ folds)
    (h : PassesPsums m folds vn fed pending st exchanges)
    (hTurn : (sentIn exchanges).length % folds ≠ 0) {psum : DataPackage}
    (hOffer : offer pending arrived = some psum) (hType : psum.dataType = .psum) :
    PassesPsums m folds vn (fed ++ arrived.toList) none
      (MSwitch.period m st arrived).1 (exchanges ++ (MSwitch.period m st arrived).2) := by
  obtain ⟨hOrder, hComplete⟩ := h.offered arrived
  have hWaiting := h.recv_offered arrived
  rw [hOffer] at hOrder hComplete hWaiting
  have hCycle := @cycle_pass _ h.noDirectPsum h.psum (h.currentNFolding_pos hTurn)
    h.activationFifo (MSNetwork.links m) _ _ hWaiting hType
  obtain ⟨read, hPeriod, hFree, hInput, hKept⟩ :=
    period_of_cycle (h.output_received arrived) hCycle
  rw [input_received] at hInput
  rw [Connections.overwritten_receive] at hKept
  rw [hPeriod, input_received, hWaiting, h.ownNeuron]
  exact {
    noDirectPsum := h.noDirectPsum
    psum := h.psum
    nFolding := h.nFolding
    ownNeuron := rfl
    activationFifo := h.activationFifo
    currentNFolding := by
      rw [sentIn_concat, List.length_append]
      exact h.nextFolding_eq hFolds
    output := hFree
    input := hInput
    pendingPsum := fun _ hNone => absurd hNone (by simp)
    turns := by
      rw [sentIn_concat, receivedIn_concat]
      exact h.turns.psum hTurn psum
    inOrder := by
      rw [receivedIn_concat]
      simpa using hOrder
    complete := by
      rw [receivedIn_concat, hKept]
      simpa using hComplete }

/-- Every cycle of a psum multiplier keeps the turns. -/
theorem PassesPsums.next (hFolds : 2 ≤ folds)
    (h : PassesPsums m folds vn fed pending st exchanges)
    (hArrived : ∀ pck ∈ arrived, pck.dataType = .psum) :
    ∃ pending', PassesPsums m folds vn (fed ++ arrived.toList) pending'
      (MSwitch.period m st arrived).1 (exchanges ++ (MSwitch.period m st arrived).2) := by
  rcases Nat.eq_zero_or_pos ((sentIn exchanges).length % folds) with hZero | hPass
  · exact ⟨_, h.zero hFolds hArrived hZero⟩
  · cases hOffer : offer pending arrived with
    | none => exact ⟨_, h.wait hPass.ne' hOffer⟩
    | some psum => exact ⟨_, h.pass hFolds hPass.ne' hOffer (h.offer_psum hArrived psum hOffer)⟩

end

/-! ## Runs -/

/-- A multiplier behind its configuration. -/
def configured (folds nWindows vn : Nat) (forwardPsum : Bool) : MSwitch where
  forwardPsum := forwardPsum
  nWindows := nWindows
  nFolding := folds
  vn := vn

/-- A multiplier is configured and called once per cycle. -/
def run (m : Nat) (ms : MSwitch) (arrivals : List (Option DataPackage)) :
    (MSwitch × Connections MSWire) × List Exchange :=
  feed (period m) (ms, Connections.idle) arrivals

theorem configured_multiplies (m folds nWindows vn : Nat) :
    Multiplies m folds vn (configured folds nWindows vn false, Connections.idle) [] 0 where
  noDirectPsum := rfl
  noPsum := rfl
  unlinked := ⟨rfl, rfl⟩
  nFolding := rfl
  ownNeuron := rfl
  activationFifo := rfl
  weightFifo := rfl
  currentNFolding := rfl
  settled := ⟨rfl, rfl, rfl, rfl⟩

theorem configured_passes (m folds nWindows vn : Nat) :
    PassesPsums m folds vn [] none (configured folds nWindows vn true, Connections.idle) [] where
  noDirectPsum := rfl
  psum := rfl
  nFolding := rfl
  ownNeuron := rfl
  activationFifo := rfl
  currentNFolding := (Nat.zero_mod folds).symm
  output := rfl
  input := rfl
  pendingPsum := fun _ hNone => absurd hNone (by simp)
  turns := ⟨fun _ hMem => absurd hMem List.not_mem_nil, rfl⟩
  inOrder := List.Sublist.refl _
  complete := fun _ => rfl

theorem run_passes (m nWindows vn : Nat) {folds : Nat} (hFolds : 2 ≤ folds)
    {arrivals : List (Option DataPackage)}
    (hTypes : ∀ pck ∈ arrivals.reduceOption, pck.dataType = .psum) :
    ∃ pending, PassesPsums m folds vn arrivals.reduceOption pending
      (run m (configured folds nWindows vn true) arrivals).1
      (run m (configured folds nWindows vn true) arrivals).2 := by
  have hRun := @feed_invariant _ _ _ (period m)
    (fun xs st exchanges => (∀ pck ∈ xs.reduceOption, pck.dataType = .psum) →
      ∃ pending, PassesPsums m folds vn xs.reduceOption pending st exchanges)
    (configured folds nWindows vn true, Connections.idle)
    (fun _ => ⟨none, configured_passes m folds nWindows vn⟩) ?_ arrivals
  · exact hRun hTypes
  · intro xs st exchanges arrived ih hTypes
    rw [List.reduceOption_append, List.reduceOption_singleton] at hTypes ⊢
    obtain ⟨pending, h⟩ := ih fun pck hMem => hTypes pck (List.mem_append_left _ hMem)
    exact h.next hFolds fun pck hMem =>
      hTypes pck (List.mem_append_right _ (Option.mem_toList.mpr hMem))

/-- The stream of a multiplier depends on the packages and their order alone.  Without links it
sends the products of every phase and ends each phase with its weights turned back; with
partial sums it sends a zero and `folds - 1` of those it received, in turn, which are all that
were put on its input connection unless one of them was put on top of another. -/
theorem schedule_of_arrivals (m nWindows vn : Nat) {folds : Nat} (hFolds : 1 ≤ folds) :
    (∀ (phases : List (Phase folds)) (arrivals : List (Option DataPackage)),
      arrivals.reduceOption = phases.flatMap Phase.packages →
        let done := run m (configured folds nWindows vn false) arrivals
        sentIn done.2 = phases.flatMap (Phase.products vn) ∧
          done.1.1.weightFifo = lastWeights phases [] ∧ done.1.1.currentNFolding = 0 ∧
          Settled m done.1.2) ∧
    (2 ≤ folds → ∀ arrivals : List (Option DataPackage),
      (∀ pck ∈ arrivals.reduceOption, pck.dataType = .psum) →
        let done := run m (configured folds nWindows vn true) arrivals
        TakesTurns folds vn (receivedIn done.2) (sentIn done.2) ∧
          ∃ pending : Option DataPackage,
            (done.1.2 (.input m)).content = pending.map (fun psum => [psum]) ∧
            (receivedIn done.2 ++ pending.toList).Sublist arrivals.reduceOption ∧
            ((done.1.2 (.input m)).overwritten = false →
              receivedIn done.2 ++ pending.toList = arrivals.reduceOption)) := by
  constructor
  · intro phases arrivals hArrivals
    obtain ⟨hAfter, hSent⟩ := (configured_multiplies m folds nWindows vn).phases hFolds phases
      (Or.inl rfl) hArrivals
    exact ⟨hSent, hAfter.weightFifo, hAfter.currentNFolding, hAfter.settled⟩
  · intro hTwo arrivals hTypes
    obtain ⟨pending, h⟩ := run_passes m nWindows vn hTwo hTypes
    exact ⟨h.turns, pending, h.input, h.inOrder, h.complete⟩

def twoFolds : Phase 2 where
  weights := [{ data := 3, dataType := .weight }, { data := 5, dataType := .weight }]
  activations := [{ data := 7, dataType := .iactivation }, { data := 11, dataType := .iactivation }]
  areWeights := by decide
  areActivations := by decide
  allFolds := rfl
  wholeWindows := Nat.dvd_refl 2

/-- Two folds with an idle cycle before each package. -/
theorem schedule_of_two :
    sentIn (run 0 (configured 2 1 0 false)
      (twoFolds.packages.flatMap fun pck => [none, some pck])).2 =
        [psumPackage 0 21, psumPackage 0 55] :=
  ((schedule_of_arrivals 0 1 0 (by decide)).1 [twoFolds] _ rfl).1

end MSwitch

end Stonne
