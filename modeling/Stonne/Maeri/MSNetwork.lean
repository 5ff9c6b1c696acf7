import Stonne.Lib.Picked
import Stonne.Maeri.MSwitch

/-!
# The multiplier network

`MSNetwork::setPhysicalConnection` chains the multipliers by their forwarding links, and
`cycle` visits them from the left to the right, so that a multiplier reads its link before
the right neighbour writes it.

A `StreamPlan` says which values a multiplier is to multiply.  When the plan of a
multiplier with an input link is that of its neighbour shifted by one window, the links
bring it exactly the values that the memory leaves out.
-/

namespace Stonne

open Dataflow

/-- The multipliers and their connections. -/
abbrev MSNetwork := (Nat → MSwitch) × Connections MSWire

namespace MSNetwork

/-- The physical connections of multiplier `i`.  The source leaves the output link of the
first one unset; it never forwards. -/
def links (i : Nat) : MSwitch.Links where
  input := .input i
  inputForwarding := .forwarding i
  outputForwarding := .forwarding (i - 1)
  output := .output i

def cycleMs (st : MSNetwork) (i : Nat) : MSNetwork :=
  let r := (st.1 i).cycle (links i) st.2
  (Function.update st.1 i r.1, r.2)

def cycle (msSize : Nat) (st : MSNetwork) : MSNetwork :=
  (List.range msSize).foldl cycleMs st

theorem cycleMs_self (st : MSNetwork) (i : Nat) :
    (cycleMs st i).1 i = ((st.1 i).cycle (links i) st.2).1 :=
  Function.update_self _ _ _

theorem cycleMs_of_ne (st : MSNetwork) {i m : Nat} (h : m ≠ i) :
    (cycleMs st i).1 m = st.1 m :=
  Function.update_of_ne h _ _

end MSNetwork

/-- What the multipliers are to multiply: multiplier `m` the values `value m 0, value m 1, ...`,
`folds` of them for each of the `windows` windows of a row. -/
structure StreamPlan where
  folds : Nat
  windows : Nat
  rows : Nat
  taps : Nat → Bool
  receives : Nat → Bool
  sends : Nat → Bool
  value : Nat → Nat → Int

namespace StreamPlan

/-- The number of values of each multiplier. -/
def total (plan : StreamPlan) : Nat :=
  plan.rows * (plan.windows * plan.folds)

/-- The value of position `j` comes over the link. -/
def fromLink (plan : StreamPlan) (m j : Nat) : Bool :=
  plan.receives m && decide (0 < j / plan.folds % plan.windows)

/-- The value of position `j` comes from the memory. -/
def fromMemory (plan : StreamPlan) (m j : Nat) : Bool :=
  !plan.fromLink m j

/-- The value of position `j` is passed to the left. -/
def toLink (plan : StreamPlan) (m j : Nat) : Bool :=
  decide (j / plan.folds % plan.windows < plan.windows - 1) && plan.sends m

/-- The link of a multiplier brings it its own values, one window early. -/
structure Linked (plan : StreamPlan) : Prop where
  folds : 0 < plan.folds
  windows : 0 < plan.windows
  neighbour : ∀ m, plan.receives m = true ↔ plan.sends (m + 1) = true
  first : plan.sends 0 = false
  tap : ∀ m, plan.receives m = true → plan.taps m = true ∧ plan.taps (m + 1) = true
  shift : ∀ m j, plan.receives m = true → plan.toLink (m + 1) j = true →
    plan.value m (plan.folds + j) = plan.value (m + 1) j

variable {plan : StreamPlan}

theorem Linked.picked_fromLink (h : plan.Linked) {m : Nat} (hm : plan.receives m = true)
    (n : Nat) : picked (plan.fromLink m) (plan.value m) (plan.folds + n) =
      picked (plan.toLink (m + 1)) (plan.value (m + 1)) n := by
  have hFirst : picked (plan.fromLink m) (plan.value m) plan.folds = [] := by
    rw [← picked_none (plan.value m) plan.folds]
    apply picked_congr
    · intro j hj
      rw [fromLink, Nat.div_eq_of_lt hj]
      simp
    · intro j hj _
      rfl
  have hNext : ∀ j, plan.fromLink m (plan.folds + j) = plan.toLink (m + 1) j := by
    intro j
    have hPos := h.windows
    have hLess := Nat.mod_lt (j / plan.folds) hPos
    rw [fromLink, toLink, hm, (h.neighbour m).mp hm, Nat.add_div_left j h.folds, Bool.true_and,
      Bool.and_true, decide_eq_decide]
    rcases Nat.lt_or_ge (j / plan.folds % plan.windows + 1) plan.windows with hMore | hLast
    · rw [(succ_of_lt hMore).1]
      omega
    · rw [(succ_of_eq (by omega)).1]
      omega
  rw [picked_add, hFirst, List.nil_append]
  apply picked_congr
  · intro j _
    exact hNext j
  · intro j _ hj
    exact h.shift m j hm (hNext j ▸ hj)

/-- The first window of a row does not come over the link. -/
theorem lt_total {m j : Nat} (hLink : plan.fromLink m j = true)
    (hj : j < plan.folds + plan.total) : j < plan.total := by
  by_contra hMore
  obtain ⟨d, rfl⟩ := Nat.exists_eq_add_of_le (show plan.total ≤ j by omega)
  have hRow : (plan.total + d) / plan.folds = plan.rows * plan.windows := by
    rw [total, ← Nat.mul_assoc]
    exact radix_div (by omega)
  rw [fromLink, hRow, Nat.mul_mod_left] at hLink
  simp at hLink

end StreamPlan

/-! ## One multiplier -/

/-- A multiplier follows the plan.  `arrived` are the activations that it took from the memory
so far, `linked` the ones that it took from the link, and `n` is the number of weights. -/
structure MSwitch.Follows (plan : StreamPlan) (m : Nat) (ms : MSwitch) (arrived linked : List Int)
    (n : Nat) : Prop where
  direct : ms.directForwardPsum = false
  psum : ms.forwardPsum = false
  nFolding : ms.nFolding = plan.folds
  nWindows : ms.nWindows = plan.windows
  inputForwarding : ms.inputForwardingEnabled = plan.receives m
  outputForwarding : ms.outputForwardingEnabled = plan.sends m
  popped : ms.log.popped.map (·.data) = (List.range ms.log.popped.length).map (plan.value m)
  bounded : ms.log.popped.length ≤ plan.total
  folding : ms.currentNFolding = ms.log.popped.length % plan.folds
  window : ms.currentNWindows = ms.log.popped.length / plan.folds % plan.windows
  activations : picked (plan.fromMemory m) (plan.value m) ms.log.popped.length ++
    ms.activationFifo.map (·.data) = arrived
  link : plan.receives m = true →
    picked (plan.fromLink m) (plan.value m) ms.log.popped.length ++
      ms.forwardingInputFifo.map (·.data) = linked
  fromLink : ms.log.fromLink.map (·.data) =
    picked (plan.fromLink m) (plan.value m) ms.log.popped.length
  weights : ms.weightFifo.length = MSwitch.filling plan.folds n
  flushes : ms.log.flushes.length = (n - 1) / plan.folds
  forwarded : ms.log.forwarded.map (·.data) =
    picked (plan.toLink m) (plan.value m) ms.log.popped.length

namespace MSwitch

variable {plan : StreamPlan} {m n : Nat} {ms : MSwitch} {arrived linked : List Int}

theorem Follows.received (hPlan : plan.Linked) (h : Follows plan m ms arrived linked n)
    {operands : List DataPackage} (hOperands : Operands operands) (link : List DataPackage) :
    Follows plan m (ms.received operands link) (arrived ++ MSwitch.activations operands)
      (linked ++ link.map (·.data)) (n + (MSwitch.weights operands).length) := by
  obtain ⟨weightFifo, k, hReceived⟩ := foldl_receivePackage hOperands ms
  obtain ⟨hWeights, hFlushes⟩ :=
    foldl_receivePackage_filling hPlan.folds hOperands h.nFolding h.weights h.flushes
  rw [hReceived] at hWeights hFlushes
  have hActivations : picked (plan.fromMemory m) (plan.value m) ms.log.popped.length ++
      (ms.activationFifo ++ operands.filter fun pck => pck.dataType = .iactivation).map (·.data) =
        arrived ++ MSwitch.activations operands := by
    rw [← h.activations, List.map_append, List.append_assoc]
    rfl
  rw [MSwitch.received, hReceived]
  cases hEnabled : plan.receives m with
  | true =>
      have hInput := h.inputForwarding.trans hEnabled
      simp only [hInput, if_true]
      refine { h with
        activations := hActivations
        inputForwarding := by rw [hEnabled]
        weights := hWeights
        flushes := hFlushes
        link := fun hm => ?_ }
      rw [List.map_append, ← List.append_assoc, h.link hm]
  | false =>
      have hInput := h.inputForwarding.trans hEnabled
      simp only [hInput]
      rw [if_neg (by decide)]
      exact { h with
        activations := hActivations
        inputForwarding := by rw [hEnabled]
        weights := hWeights
        flushes := hFlushes
        link := fun hm => by simp [hEnabled] at hm }

theorem Follows.readsForwarding (h : Follows plan m ms arrived linked n) :
    ms.readsForwarding = plan.fromLink m ms.log.popped.length := by
  rw [MSwitch.readsForwarding, StreamPlan.fromLink, h.inputForwarding, h.window]

theorem Follows.forwards (h : Follows plan m ms arrived linked n) :
    ms.forwards = plan.toLink m ms.log.popped.length := by
  rw [MSwitch.forwards, StreamPlan.toLink, h.outputForwarding, h.window, h.nWindows]

/-- The activation that is due. -/
theorem Follows.ready_data (h : Follows plan m ms arrived linked n)
    (hArrived : arrived <+: picked (plan.fromMemory m) (plan.value m) plan.total)
    (hLinked : plan.receives m = true → ∃ N ≤ plan.total,
      linked <+: picked (plan.fromLink m) (plan.value m) (plan.folds + N))
    {activation : DataPackage} {rest : Fifo} (hFifo : ms.fifoToRead = activation :: rest) :
    activation.data = plan.value m ms.log.popped.length ∧
      ms.log.popped.length < plan.total := by
  rw [fifoToRead, h.readsForwarding] at hFifo
  cases hFrom : plan.fromLink m ms.log.popped.length with
  | true =>
      rw [hFrom, if_pos rfl] at hFifo
      have hReceives : plan.receives m = true := by
        rw [StreamPlan.fromLink, Bool.and_eq_true] at hFrom
        exact hFrom.1
      obtain ⟨N, hN, hChannel⟩ := hLinked hReceives
      rw [← h.link hReceives, hFifo, List.map_cons] at hChannel
      have hBefore := lt_of_picked_append_cons hChannel
      exact ⟨eq_of_picked_append_cons hChannel hFrom, StreamPlan.lt_total hFrom (by omega)⟩
  | false =>
      rw [hFrom, if_neg (by decide)] at hFifo
      have hMemory : plan.fromMemory m ms.log.popped.length = true := by
        rw [StreamPlan.fromMemory, hFrom]
        rfl
      rw [← h.activations, hFifo, List.map_cons] at hArrived
      exact ⟨eq_of_picked_append_cons hArrived hMemory, lt_of_picked_append_cons hArrived⟩

private theorem nextFolding_eq (hPlan : plan.Linked) (h : Follows plan m ms arrived linked n) :
    ms.nextFolding = (ms.log.popped.length + 1) % plan.folds ∧
      ms.nextWindow = (ms.log.popped.length + 1) / plan.folds % plan.windows := by
  have hLess := Nat.mod_lt ms.log.popped.length hPlan.folds
  rw [nextFolding, nextWindow, h.folding, h.nFolding, h.window, h.nWindows]
  rcases Nat.lt_or_ge (ms.log.popped.length % plan.folds + 1) plan.folds with hMore | hLast
  · rw [if_neg (by omega), if_neg (by omega), (succ_of_lt hMore).1, (succ_of_lt hMore).2]
    exact ⟨rfl, rfl⟩
  · have hFull : ms.log.popped.length % plan.folds + 1 = plan.folds := by omega
    rw [if_pos hFull, if_pos hFull, (succ_of_eq hFull).1, (succ_of_eq hFull).2]
    refine ⟨rfl, ?_⟩
    have hWindow := Nat.mod_lt (ms.log.popped.length / plan.folds) hPlan.windows
    rcases Nat.lt_or_ge (ms.log.popped.length / plan.folds % plan.windows + 1) plan.windows with
      hMore | hRow
    · rw [if_neg (by omega), (succ_of_lt hMore).1]
    · rw [if_pos (by omega), (succ_of_eq (by omega)).1]

/-- A multiplication follows the plan. -/
theorem Follows.multiply (hPlan : plan.Linked) (h : Follows plan m ms arrived linked n)
    (hArrived : arrived <+: picked (plan.fromMemory m) (plan.value m) plan.total)
    (hLinked : plan.receives m = true → ∃ N ≤ plan.total,
      linked <+: picked (plan.fromLink m) (plan.value m) (plan.folds + N))
    {activation weight : DataPackage} {rest weights : Fifo}
    (hReady : ms.Ready activation rest weight weights) :
    Follows plan m (ms.multiply activation rest weight weights) arrived linked n := by
  obtain ⟨hData, hBounded⟩ := h.ready_data hArrived hLinked hReady.activation
  have hFifo := hReady.activation
  have hCount : (ms.log.popped ++ [activation]).length = ms.log.popped.length + 1 := by simp
  obtain ⟨hFolding, hWindow⟩ := nextFolding_eq hPlan h
  rw [fifoToRead] at hFifo
  refine
    { direct := h.direct
      psum := h.psum
      nFolding := h.nFolding
      nWindows := h.nWindows
      inputForwarding := h.inputForwarding
      outputForwarding := h.outputForwarding
      popped := ?_
      bounded := ?_
      folding := ?_
      window := ?_
      activations := ?_
      link := fun hm => ?_
      fromLink := ?_
      weights := ?_
      flushes := h.flushes
      forwarded := ?_ }
  · simp only [MSwitch.multiply, hCount]
    rw [List.map_append, h.popped, List.range_succ, List.map_append, List.map_singleton,
      List.map_singleton, hData]
  · simp only [MSwitch.multiply, hCount]
    omega
  · simp only [MSwitch.multiply, hCount, hFolding]
  · simp only [MSwitch.multiply, hCount, hWindow]
  · simp only [MSwitch.multiply, hCount]
    cases hFrom : plan.fromLink m ms.log.popped.length with
    | true =>
        have hMemory : plan.fromMemory m ms.log.popped.length = false := by
          rw [StreamPlan.fromMemory, hFrom]
          rfl
        rw [h.readsForwarding, hFrom, if_pos rfl, picked_succ_of_false _ hMemory]
        exact h.activations
    | false =>
        have hMemory : plan.fromMemory m ms.log.popped.length = true := by
          rw [StreamPlan.fromMemory, hFrom]
          rfl
        rw [h.readsForwarding, hFrom, if_neg (by decide)] at hFifo ⊢
        rw [picked_succ_of_true _ hMemory, ← h.activations, hFifo, List.map_cons, hData,
          List.append_assoc, List.singleton_append]
  · simp only [MSwitch.multiply, hCount]
    cases hFrom : plan.fromLink m ms.log.popped.length with
    | true =>
        rw [h.readsForwarding, hFrom, if_pos rfl] at hFifo ⊢
        rw [picked_succ_of_true _ hFrom, ← h.link hm, hFifo, List.map_cons, hData,
          List.append_assoc, List.singleton_append]
    | false =>
        rw [h.readsForwarding, hFrom, if_neg (by decide), picked_succ_of_false _ hFrom]
        exact h.link hm
  · simp only [MSwitch.multiply, hCount]
    rw [h.readsForwarding, picked_succ]
    split
    · rw [List.map_append, h.fromLink, List.map_singleton, hData]
    · rw [List.append_nil]
      exact h.fromLink
  · rw [← h.weights, hReady.weight]
    simp [MSwitch.multiply]
  · simp only [MSwitch.multiply, hCount]
    rw [h.forwards, picked_succ]
    split
    · rename_i hForward
      rw [List.map_append, h.forwarded, List.map_singleton, hData]
    · rw [List.append_nil]
      exact h.forwarded

end MSwitch

/-! ## The network -/

namespace MSNetwork

/-- A multiplier of the network follows the plan.  `arrived` are the activations that the
distribution network brought to each multiplier, `nWeights` the numbers of weights. -/
structure InStream (plan : StreamPlan) (arrived : Nat → List Int) (nWeights : Nat → Nat)
    (st : MSNetwork) (m : Nat) : Prop where
  operands : MSwitch.Operands (st.2.store.recv (.input m))
  follows : ∃ got linked n, MSwitch.Follows plan m (st.1 m) got linked n ∧
    got ++ MSwitch.activations (st.2.store.recv (.input m)) = arrived m ∧
    (plan.receives m = true → linked ++ (st.2.store.recv (.forwarding m)).map (·.data) =
      (st.1 (m + 1)).log.forwarded.map (·.data)) ∧
    n + (MSwitch.weights (st.2.store.recv (.input m))).length = nWeights m
  overwritten : plan.receives m = true → (st.2 (.forwarding m)).overwritten = false

/-- The multipliers with a plan follow it, and the others use no links. -/
structure Streams (plan : StreamPlan) (msSize : Nat) (arrived : Nat → List Int)
    (nWeights : Nat → Nat) (st : MSNetwork) : Prop where
  taps : ∀ m, plan.taps m = true → m < msSize ∧ InStream plan arrived nWeights st m
  others : ∀ m, plan.taps m = false → (st.1 m).Unlinked

variable {plan : StreamPlan} {arrived : Nat → List Int} {nWeights : Nat → Nat}
  {st : MSNetwork} {m k : Nat}

/-- Only what arrived at the multipliers with a plan matters. -/
theorem Streams.congr {msSize : Nat} {arrived' : Nat → List Int} {nWeights' : Nat → Nat}
    (h : Streams plan msSize arrived nWeights st)
    (hArrived : ∀ m, plan.taps m = true → arrived m = arrived' m)
    (hWeights : ∀ m, plan.taps m = true → nWeights m = nWeights' m) :
    Streams plan msSize arrived' nWeights' st := by
  refine ⟨fun m hm => ⟨(h.taps m hm).1, ?_⟩, h.others⟩
  obtain ⟨hOperands, ⟨got, linked, n, hFollows, hGot, hLinked, hCount⟩, hOverwritten⟩ :=
    (h.taps m hm).2
  exact ⟨hOperands, ⟨got, linked, n, hFollows, hGot.trans (hArrived m hm), hLinked,
    hCount.trans (hWeights m hm)⟩, hOverwritten⟩

theorem InStream.configured (h : InStream plan arrived nWeights st m) :
    (st.1 m).inputForwardingEnabled = plan.receives m ∧
      (st.1 m).outputForwardingEnabled = plan.sends m := by
  obtain ⟨got, linked, n, hFollows, -⟩ := h.follows
  exact ⟨hFollows.inputForwarding, hFollows.outputForwarding⟩

/-- A visit to another multiplier that does not send over the link. -/
theorem InStream.of_unchanged {st' : MSNetwork} (h : InStream plan arrived nWeights st m)
    (hMs : st'.1 m = st.1 m)
    (hNext : plan.receives m = true →
      (st'.1 (m + 1)).log.forwarded = (st.1 (m + 1)).log.forwarded ∧
      (st'.2 (.forwarding m)).content = (st.2 (.forwarding m)).content ∧
      (st'.2 (.forwarding m)).overwritten = (st.2 (.forwarding m)).overwritten)
    (hInput : (st'.2 (.input m)).content = (st.2 (.input m)).content) :
    InStream plan arrived nWeights st' m := by
  have hRecv : st'.2.store.recv (.input m) = st.2.store.recv (.input m) := by
    simp only [Store.recv, Connections.store, hInput]
  obtain ⟨got, linked, n, hFollows, hGot, hLinked, hWeights⟩ := h.follows
  refine ⟨hRecv ▸ h.operands, ⟨got, linked, n, hMs ▸ hFollows, hRecv ▸ hGot, ?_, hRecv ▸ hWeights⟩,
    fun hm => (hNext hm).2.2.trans (h.overwritten hm)⟩
  intro hm
  obtain ⟨hForwarded, hContent, -⟩ := hNext hm
  have hLink : st'.2.store.recv (.forwarding m) = st.2.store.recv (.forwarding m) := by
    simp only [Store.recv, Connections.store, hContent]
  rw [hLink, hForwarded]
  exact hLinked hm

/-- What a visit to multiplier `k` does to the rest of the network when it sends `sent` over its
link. -/
structure Visited (st st' : MSNetwork) (k : Nat) (sent : List DataPackage) : Prop where
  others : ∀ m, m ≠ k → st'.1 m = st.1 m
  inputs : ∀ m, m ≠ k → (st'.2 (.input m)).content = (st.2 (.input m)).content
  content : ∀ m, m ≠ k → (st'.2 (.forwarding m)).content =
    if m + 1 = k ∧ sent ≠ [] then some sent else (st.2 (.forwarding m)).content
  overwritten : ∀ m, m ≠ k → (st.2 (.forwarding m)).content = none ∨ m + 1 ≠ k →
    (st'.2 (.forwarding m)).overwritten = (st.2 (.forwarding m)).overwritten

/-- A multiplier only rests when it cannot multiply.  It flushes its weights before. -/
structure Rested (ms ms' : MSwitch) (sent : List DataPackage) : Prop where
  grown : ms.log.popped.length ≤ ms'.log.popped.length
  idle : ms'.log.popped.length = ms.log.popped.length → sent = [] ∧
    ∀ activation rest weight weights, ¬ms'.Ready activation rest weight weights
  flushes : ∃ k, ms'.log.flushes = ms.log.flushes ++ List.replicate k ms.log.popped.length

theorem visited_of_unlinked (h : (st.1 k).Unlinked) :
    ((cycleMs st k).1 k).Unlinked ∧ Visited st (cycleMs st k) k [] := by
  obtain ⟨hUnlinked, hWires⟩ := MSwitch.cycle_of_unlinked h (links k) st.2
  constructor
  · rw [cycleMs]
    simpa using hUnlinked
  · refine ⟨fun m hm => Function.update_of_ne hm _ _, fun m hm => ?_, fun m _ => ?_,
      fun m _ _ => ?_⟩
    · exact (hWires (.input m) (by simpa [links] using hm) (by simp [links])).1
    · rw [if_neg (by simp)]
      exact (hWires (.forwarding m) (by simp [links]) (by simp [links])).1
    · exact (hWires (.forwarding m) (by simp [links]) (by simp [links])).2

/-- A visit to a multiplier with a plan. -/
theorem visited_of_inStream (hPlan : plan.Linked) (h : InStream plan arrived nWeights st k)
    (hArrived : arrived k <+: picked (plan.fromMemory k) (plan.value k) plan.total)
    (hNext : plan.receives k = true → InStream plan arrived nWeights st (k + 1)) :
    ∃ sent, Visited st (cycleMs st k) k sent ∧ (sent ≠ [] → plan.sends k = true) ∧
      ((cycleMs st k).1 k).log.forwarded = (st.1 k).log.forwarded ++ sent ∧
      (plan.receives k = true → ((cycleMs st k).2 (.forwarding k)).content = none) ∧
      ((cycleMs st k).2 (.input k)).content = none ∧ Rested (st.1 k) ((cycleMs st k).1 k) sent ∧
      InStream plan arrived nWeights (cycleMs st k) k := by
  obtain ⟨got, linked, n, hFollows, hGot, hLinked, hCount⟩ := h.follows
  have hReceived := hFollows.received hPlan h.operands (st.2.store.recv (.forwarding k))
  rw [hGot, hCount] at hReceived
  have hInput := h.configured.1
  have hChannel : plan.receives k = true → ∃ N ≤ plan.total,
      linked ++ (st.2.store.recv (.forwarding k)).map (·.data) <+:
        picked (plan.fromLink k) (plan.value k) (plan.folds + N) := by
    intro hk
    obtain ⟨_, _, _, hNeighbour, -⟩ := (hNext hk).follows
    refine ⟨(st.1 (k + 1)).log.popped.length, hNeighbour.bounded, ?_⟩
    rw [hLinked hk, hNeighbour.forwarded, hPlan.picked_fromLink hk]
  obtain ⟨hPopped, hLog, hFlushes⟩ :=
    MSwitch.received_log h.operands (st.1 k) (st.2.store.recv (.forwarding k))
  have hSeparate : (links k).inputForwarding ≠ (links k).input := by simp [links]
  -- with or without a multiplication
  obtain ⟨sent, hForwarded, hSends, hRested, hWires, hNow⟩ : ∃ sent,
      ((cycleMs st k).1 k).log.forwarded = (st.1 k).log.forwarded ++ sent ∧
      (sent ≠ [] → plan.sends k = true) ∧ Rested (st.1 k) ((cycleMs st k).1 k) sent ∧
      (∀ w, w ≠ .output k → (cycleMs st k).2 w =
        if sent ≠ [] ∧ w = .forwarding (k - 1) then
          (MSwitch.drain (st.1 k) (links k) st.2 w).send sent
        else MSwitch.drain (st.1 k) (links k) st.2 w) ∧
      MSwitch.Follows plan k ((cycleMs st k).1 k) (arrived k)
        (linked ++ (st.2.store.recv (.forwarding k)).map (·.data)) (nWeights k) := by
    rw [cycleMs_self]
    rcases MSwitch.cycle_of_multiplier hFollows.direct hFollows.psum hSeparate h.operands with
      ⟨activation, rest, weight, weights, hReady, hCycle⟩ | ⟨hNone, hCycle⟩
    · generalize hState : (st.1 k).received (st.2.store.recv (links k).input)
        (st.2.store.recv (links k).inputForwarding) = now at hReady hCycle
      have hSame : (st.1 k).received (st.2.store.recv (.input k))
        (st.2.store.recv (.forwarding k)) = now := hState
      rw [hSame] at hReceived hLog hPopped hFlushes
      have hCount : (now.multiply activation rest weight weights).log.popped.length =
          (st.1 k).log.popped.length + 1 := by
        rw [← hPopped]
        simp [MSwitch.multiply]
      refine ⟨if now.forwards then [activation] else [], ?_, ?_, ⟨?_, fun hStill => ?_, ?_⟩, ?_, ?_⟩
      · rw [hCycle, ← hLog]
        simp only [MSwitch.multiply]
        split
        · rfl
        · rw [List.append_nil]
      · intro hSent
        have hForwards : now.forwards = true := by
          by_contra hNone
          exact hSent (if_neg hNone)
        rw [hReceived.forwards, StreamPlan.toLink, Bool.and_eq_true] at hForwards
        exact hForwards.2
      · rw [hCycle, hCount]
        omega
      · rw [hCycle, hCount] at hStill
        omega
      · rw [hCycle]
        exact hFlushes
      · intro w hw
        rw [cycleMs, hCycle]
        simp only
        rw [MSwitch.sendResults_of_ne now activation weight _ hw]
        cases now.forwards with
        | true => simp [links]
        | false => simp
      · rw [hCycle]
        exact hReceived.multiply hPlan hArrived hChannel hReady
    · refine ⟨[], ?_, fun hSent => absurd rfl hSent, ⟨?_, fun _ => ⟨rfl, ?_⟩, ?_⟩, fun w _ => ?_,
        ?_⟩
      · rw [hCycle, List.append_nil]
        exact hLog
      · rw [hCycle]
        exact (congrArg List.length hPopped).ge
      · rw [hCycle]
        exact hNone
      · rw [hCycle]
        exact hFlushes
      · rw [if_neg (by simp), cycleMs, hCycle]
      · rw [hCycle]
        exact hReceived
  have hLeft : sent ≠ [] → 0 < k := by
    intro hSent
    apply Nat.pos_of_ne_zero
    intro hFirst
    have hSend := hSends hSent
    rw [hFirst, hPlan.first] at hSend
    cases hSend
  have hOwn : ¬(sent ≠ [] ∧ MSWire.forwarding k = .forwarding (k - 1)) := by
    rintro ⟨hSent, hSame⟩
    have hPos := hLeft hSent
    have hIndex := MSWire.forwarding.inj hSame
    omega
  have hDrained : ∀ w, (MSwitch.drain (st.1 k) (links k) st.2 w).content =
      if w = .input k ∨ plan.receives k = true ∧ w = .forwarding k then none
      else (st.2 w).content := by
    intro w
    rw [MSwitch.content_drain, hInput]
    rfl
  have hFlags := MSwitch.overwritten_drain (st.1 k) (links k) st.2
  have hLink : plan.receives k = true → ((cycleMs st k).2 (.forwarding k)).content = none := by
    intro hk
    rw [hWires _ (by simp), if_neg hOwn, hDrained, if_pos (Or.inr ⟨hk, rfl⟩)]
  have hTaken : ((cycleMs st k).2 (.input k)).content = none := by
    rw [hWires _ (by simp), if_neg (by simp), hDrained, if_pos (Or.inl rfl)]
  have hEmpty : (cycleMs st k).2.store.recv (.input k) = [] := by
    simp [Store.recv, Connections.store, hTaken]
  refine ⟨sent, ⟨fun m hm => cycleMs_of_ne st hm, ?_, ?_, ?_⟩, hSends, hForwarded, hLink, hTaken,
    hRested, ?_⟩
  · intro m hm
    rw [hWires _ (by simp), if_neg (by simp), hDrained, if_neg (by simpa using hm)]
  · intro m hm
    have hKept : (MSwitch.drain (st.1 k) (links k) st.2 (.forwarding m)).content =
        (st.2 (.forwarding m)).content := by
      rw [hDrained, if_neg (by simpa using fun _ => hm)]
    rw [hWires _ (by simp)]
    rcases eq_or_ne sent [] with hNone | hSent
    · rw [if_neg (by simp [hNone]), if_neg (by simp [hNone]), hKept]
    · have hPos := hLeft hSent
      rcases eq_or_ne (m + 1) k with hNeighbour | hOther
      · rw [if_pos ⟨hSent, by rw [← hNeighbour]; rfl⟩, if_pos ⟨hNeighbour, hSent⟩,
          Connection.content_send]
      · rw [if_neg fun hSame => hOther ?_, if_neg fun hSame => hOther hSame.1, hKept]
        have hIndex := MSWire.forwarding.inj hSame.2
        omega
  · intro m hm hFree
    rw [hWires _ (by simp)]
    split
    · rename_i hSame
      have hPos := hLeft hSame.1
      have hIndex := MSWire.forwarding.inj hSame.2
      rcases hFree with hNone | hOther
      · rw [Connection.overwritten_send, hFlags, hDrained, hNone]
        simp
      · omega
    · exact hFlags _
  · refine ⟨?_, ⟨_, _, _, hNow, ?_, ?_, ?_⟩, ?_⟩
    · rw [hEmpty]
      exact fun pck hMem => by cases hMem
    · rw [hEmpty]
      exact List.append_nil _
    · intro hk
      have hNone : (cycleMs st k).2.store.recv (.forwarding k) = [] := by
        simp [Store.recv, Connections.store, hLink hk]
      rw [hNone, cycleMs_of_ne st (by omega), List.map_nil, List.append_nil]
      exact hLinked hk
    · rw [hEmpty]
      rfl
    · intro hk
      rw [hWires _ (by simp), if_neg hOwn, hFlags]
      exact h.overwritten hk

/-- The memory sends values of the plan. -/
def Fed (plan : StreamPlan) (arrived : Nat → List Int) : Prop :=
  ∀ m, plan.taps m = true →
    arrived m <+: picked (plan.fromMemory m) (plan.value m) plan.total

/-- A visit does not change what the multipliers further away know. -/
private theorem inStream_of_visited {st' : MSNetwork} {sent : List DataPackage}
    (h : InStream plan arrived nWeights st m) (hVisited : Visited st st' k sent) (hm : m ≠ k)
    (hNext : plan.receives m = true → m + 1 ≠ k) : InStream plan arrived nWeights st' m := by
  apply h.of_unchanged (hVisited.others m hm)
  · intro hReceives
    have hOther := hNext hReceives
    refine ⟨by rw [hVisited.others _ hOther], ?_, hVisited.overwritten m hm (Or.inr hOther)⟩
    rw [hVisited.content m hm, if_neg fun hSame => hOther hSame.1]
  · exact hVisited.inputs m hm

/-- The left neighbour finds in its link what was sent. -/
private theorem inStream_of_neighbour {st' : MSNetwork} {sent : List DataPackage}
    (h : InStream plan arrived nWeights st m) (hVisited : Visited st st' (m + 1) sent)
    (hEmpty : (st.2 (.forwarding m)).content = none)
    (hForwarded : (st'.1 (m + 1)).log.forwarded = (st.1 (m + 1)).log.forwarded ++ sent) :
    InStream plan arrived nWeights st' m := by
  have hOther : m ≠ m + 1 := by omega
  have hInput : st'.2.store.recv (.input m) = st.2.store.recv (.input m) := by
    simp only [Store.recv, Connections.store, hVisited.inputs m hOther]
  have hNone : st.2.store.recv (.forwarding m) = [] := by
    simp [Store.recv, Connections.store, hEmpty]
  have hSent : st'.2.store.recv (.forwarding m) = sent := by
    simp only [Store.recv, Connections.store, hVisited.content m hOther, hEmpty]
    cases sent with
    | nil => simp
    | cons pck sent => simp
  obtain ⟨got, linked, n, hFollows, hGot, hLinked, hCount⟩ := h.follows
  refine ⟨hInput ▸ h.operands, ⟨got, linked, n, hVisited.others m hOther ▸ hFollows,
    hInput ▸ hGot, fun hm => ?_, hInput ▸ hCount⟩, fun hm => ?_⟩
  · rw [hSent, hForwarded, List.map_append, ← hLinked hm, hNone, List.map_nil, List.append_nil]
  · rw [hVisited.overwritten m hOther (Or.inl hEmpty)]
    exact h.overwritten hm

/-- The network after visits to the first `k` multipliers. -/
structure Swept (plan : StreamPlan) (msSize : Nat) (arrived : Nat → List Int)
    (nWeights : Nat → Nat) (st now : MSNetwork) (k : Nat) : Prop where
  streams : Streams plan msSize arrived nWeights now
  kept : ∀ m, k ≤ m → now.1 m = st.1 m
  taken : ∀ m < k, plan.taps m = true → (now.2 (.input m)).content = none
  grown : ∀ m, plan.taps m = true →
    (st.1 m).log.popped.length ≤ (now.1 m).log.popped.length
  idle : ∀ m < k, plan.taps m = true →
    (now.1 m).log.popped.length = (st.1 m).log.popped.length →
      ∀ activation rest weight weights, ¬(now.1 m).Ready activation rest weight weights
  flushes : ∀ m, plan.taps m = true → ∃ k, (now.1 m).log.flushes =
    (st.1 m).log.flushes ++ List.replicate k (st.1 m).log.popped.length
  link : ∀ m < k, plan.receives m = true →
    (m + 1 < k → (now.1 (m + 1)).log.popped.length = (st.1 (m + 1)).log.popped.length) →
      (now.2 (.forwarding m)).content = none

theorem Swept.visit_tap {msSize : Nat} {now : MSNetwork} (hPlan : plan.Linked)
    (hFed : Fed plan arrived) (h : Swept plan msSize arrived nWeights st now k)
    (hTap : plan.taps k = true) :
    Swept plan msSize arrived nWeights st (cycleMs now k) (k + 1) := by
  obtain ⟨sent, hVisited, -, hForwarded, hLink, hTaken, hRested, hStream⟩ :=
    visited_of_inStream hPlan (h.streams.taps k hTap).2 (hFed k hTap) fun hReceives =>
      (h.streams.taps (k + 1) (hPlan.tap k hReceives).2).2
  rw [h.kept k le_rfl] at hRested
  refine ⟨⟨fun m hm => ⟨(h.streams.taps m hm).1, ?_⟩, fun m hm => ?_⟩, fun m hm => ?_,
    fun m hm hTapM => ?_, fun m hm => ?_, fun m hm hTapM hStill => ?_, fun m hm => ?_,
    fun m hm hReceives hStill => ?_⟩
  · have hOld := (h.streams.taps m hm).2
    rcases eq_or_ne m k with rfl | hOther
    · exact hStream
    · rcases eq_or_ne (m + 1) k with rfl | hFar
      · cases hReceives : plan.receives m with
        | true =>
            exact inStream_of_neighbour hOld hVisited
              (h.link m (by omega) hReceives fun hLess => by omega) hForwarded
        | false =>
            exact inStream_of_visited hOld hVisited hOther fun hm => by simp [hReceives] at hm
      · exact inStream_of_visited hOld hVisited hOther fun _ => hFar
  · have hOther : m ≠ k := by
      rintro rfl
      rw [hTap] at hm
      cases hm
    rw [cycleMs_of_ne now hOther]
    exact h.streams.others m hm
  · rw [cycleMs_of_ne now (by omega)]
    exact h.kept m (by omega)
  · rcases eq_or_ne m k with rfl | hOther
    · exact hTaken
    · rw [hVisited.inputs m hOther]
      exact h.taken m (by omega) hTapM
  · rcases eq_or_ne m k with rfl | hOther
    · exact hRested.grown
    · rw [cycleMs_of_ne now hOther]
      exact h.grown m hm
  · rcases eq_or_ne m k with rfl | hOther
    · exact (hRested.idle hStill).2
    · rw [cycleMs_of_ne now hOther] at hStill ⊢
      exact h.idle m (by omega) hTapM hStill
  · rcases eq_or_ne m k with rfl | hOther
    · exact hRested.flushes
    · rw [cycleMs_of_ne now hOther]
      exact h.flushes m hm
  · rcases eq_or_ne m k with rfl | hOther
    · exact hLink hReceives
    · have hOld : (now.2 (.forwarding m)).content = none := by
        refine h.link m (by omega) hReceives fun hLess => ?_
        have hNext := hStill (by omega)
        rwa [cycleMs_of_ne now (by omega)] at hNext
      rw [hVisited.content m hOther, hOld]
      split
      · rename_i hSent
        have hNext := hStill (by omega)
        rw [hSent.1] at hNext
        exact absurd (hRested.idle hNext).1 hSent.2
      · rfl

theorem Swept.visit_other {msSize : Nat} {now : MSNetwork} (hPlan : plan.Linked)
    (h : Swept plan msSize arrived nWeights st now k) (hTap : plan.taps k = false) :
    Swept plan msSize arrived nWeights st (cycleMs now k) (k + 1) := by
  obtain ⟨hUnlinked, hVisited⟩ := visited_of_unlinked (h.streams.others k hTap)
  have hOther : ∀ m, plan.taps m = true → m ≠ k := by
    rintro m hm rfl
    rw [hTap] at hm
    cases hm
  have hFar : ∀ m, plan.receives m = true → m ≠ k ∧ m + 1 ≠ k := fun m hm =>
    ⟨hOther m (hPlan.tap m hm).1, hOther (m + 1) (hPlan.tap m hm).2⟩
  refine ⟨⟨fun m hm => ⟨(h.streams.taps m hm).1, ?_⟩, fun m hm => ?_⟩, fun m hm => ?_,
    fun m hm hTapM => ?_, fun m hm => ?_, fun m hm hTapM hStill => ?_, fun m hm => ?_,
    fun m hm hReceives hStill => ?_⟩
  · exact inStream_of_visited (h.streams.taps m hm).2 hVisited (hOther m hm) fun hReceives =>
      (hFar m hReceives).2
  · rcases eq_or_ne m k with rfl | hNe
    · exact hUnlinked
    · rw [cycleMs_of_ne now hNe]
      exact h.streams.others m hm
  · rw [cycleMs_of_ne now (by omega)]
    exact h.kept m (by omega)
  · have hNe := hOther m hTapM
    rw [hVisited.inputs m hNe]
    exact h.taken m (by omega) hTapM
  · rw [cycleMs_of_ne now (hOther m hm)]
    exact h.grown m hm
  · have hNe := hOther m hTapM
    rw [cycleMs_of_ne now hNe] at hStill ⊢
    exact h.idle m (by omega) hTapM hStill
  · rw [cycleMs_of_ne now (hOther m hm)]
    exact h.flushes m hm
  · obtain ⟨hNe, hNext⟩ := hFar m hReceives
    rw [hVisited.content m hNe, if_neg fun hSent => hNext hSent.1]
    refine h.link m (by omega) hReceives fun hLess => ?_
    have hRest := hStill (by omega)
    rwa [cycleMs_of_ne now hNext] at hRest

/-- In every cycle the multipliers follow the plan. -/
theorem Streams.swept {msSize : Nat} (hPlan : plan.Linked) (hFed : Fed plan arrived)
    (h : Streams plan msSize arrived nWeights st) :
    Swept plan msSize arrived nWeights st (MSNetwork.cycle msSize st) msSize := by
  have hSweep : ∀ k, Swept plan msSize arrived nWeights st
      ((List.range k).foldl cycleMs st) k := by
    intro k
    induction k with
    | zero =>
        exact ⟨h, fun m _ => rfl, fun m hm => by omega, fun m _ => le_rfl, fun m hm => by omega,
          fun m _ => ⟨0, (List.append_nil _).symm⟩, fun m hm => by omega⟩
    | succ k ih =>
        rw [List.range_succ, List.foldl_append, List.foldl_cons, List.foldl_nil]
        cases hTap : plan.taps k with
        | true => exact ih.visit_tap hPlan hFed hTap
        | false => exact ih.visit_other hPlan hTap
  exact hSweep msSize

/-- A multiplier whose fifos hold an activation and all weights can multiply. -/
theorem fifoToRead_of_not_ready {ms : MSwitch} {folds : Nat} (hFolds : 0 < folds)
    (hNFolding : ms.nFolding = folds) (hFull : ms.weightFifo.length = folds)
    (h : ∀ activation rest weight weights, ¬ms.Ready activation rest weight weights) :
    ms.fifoToRead = [] := by
  cases hFifo : ms.fifoToRead with
  | nil => rfl
  | cons activation rest =>
      cases hWeights : ms.weightFifo with
      | nil =>
          rw [hWeights, List.length_nil] at hFull
          omega
      | cons weight weights =>
          exact absurd ⟨hFifo, hWeights, by omega⟩ (h activation rest weight weights)

/-- When everything has arrived, the multipliers only rest at the end of the plan. -/
theorem Swept.complete {msSize : Nat} {now : MSNetwork} (hPlan : plan.Linked)
    (h : Swept plan msSize arrived nWeights st now msSize)
    (hArrived : ∀ m, plan.taps m = true →
      arrived m = picked (plan.fromMemory m) (plan.value m) plan.total)
    (hWeights : ∀ m, plan.taps m = true → ∃ phases, 0 < phases ∧ nWeights m = phases * plan.folds)
    (hStill : ∀ m, plan.taps m = true →
      (now.1 m).log.popped.length = (st.1 m).log.popped.length)
    {m : Nat} (hTap : plan.taps m = true) : plan.total ≤ (now.1 m).log.popped.length := by
  obtain ⟨hm, hStream⟩ := h.streams.taps m hTap
  have hEmpty : now.2.store.recv (.input m) = [] := by
    simp [Store.recv, Connections.store, h.taken m hm hTap]
  obtain ⟨got, linked, n, hFollows, hGot, hLinked, hCount⟩ := hStream.follows
  rw [hEmpty] at hGot hCount
  have hFull : (now.1 m).weightFifo.length = plan.folds := by
    obtain ⟨phases, hPhases, hNWeights⟩ := hWeights m hTap
    rw [hFollows.weights, show n = phases * plan.folds from hCount.trans hNWeights,
      MSwitch.filling_mul hPlan.folds hPhases]
  have hRead := fifoToRead_of_not_ready hPlan.folds hFollows.nFolding hFull
    (h.idle m hm hTap (hStill m hTap))
  rw [MSwitch.fifoToRead, hFollows.readsForwarding] at hRead
  cases hFrom : plan.fromLink m (now.1 m).log.popped.length with
  | false =>
      rw [hFrom, if_neg (by decide)] at hRead
      have hMemory : plan.fromMemory m (now.1 m).log.popped.length = true := by
        rw [StreamPlan.fromMemory, hFrom]
        rfl
      have hAll := hFollows.activations
      rw [hRead, List.map_nil, List.append_nil, ← List.append_nil got] at hAll
      exact le_of_picked_eq (hAll.trans (hGot.trans (hArrived m hTap))) hMemory
  | true =>
      rw [hFrom, if_pos rfl] at hRead
      have hReceives : plan.receives m = true := by
        rw [StreamPlan.fromLink, Bool.and_eq_true] at hFrom
        exact hFrom.1
      have hNextTap := (hPlan.tap m hReceives).2
      obtain ⟨hNext, hNeighbour⟩ := h.streams.taps (m + 1) hNextTap
      have hSlot : now.2.store.recv (.forwarding m) = [] := by
        have hNone := h.link m hm hReceives fun _ => hStill (m + 1) hNextTap
        simp [Store.recv, Connections.store, hNone]
      obtain ⟨_, _, _, hOther, -⟩ := hNeighbour.follows
      have hAll := hFollows.link hReceives
      have hSent := hLinked hReceives
      rw [hRead, List.map_nil, List.append_nil] at hAll
      rw [hSlot, List.map_nil, List.append_nil, hOther.forwarded, ← hAll,
        ← hPlan.picked_fromLink hReceives] at hSent
      -- the neighbour is one window ahead at most
      have hBehind := le_of_picked_eq hSent hFrom
      have hDone := Swept.complete hPlan h hArrived hWeights hStill hNextTap
      omega
termination_by msSize - m

/-- The multiplications that are left to do. -/
def remaining (plan : StreamPlan) (msSize : Nat) (st : MSNetwork) : Nat :=
  ∑ m ∈ (Finset.range msSize).filter fun m => plan.taps m = true,
    (plan.total - (st.1 m).log.popped.length)

private theorem Streams.bounded {msSize : Nat} (h : Streams plan msSize arrived nWeights st)
    (hTap : plan.taps m = true) : (st.1 m).log.popped.length ≤ plan.total := by
  obtain ⟨_, _, _, hFollows, -⟩ := (h.taps m hTap).2.follows
  exact hFollows.bounded

private theorem Swept.remaining_lt {msSize : Nat} {now : MSNetwork}
    (h : Swept plan msSize arrived nWeights st now msSize) (hTap : plan.taps m = true)
    (hMore : (st.1 m).log.popped.length < (now.1 m).log.popped.length) :
    remaining plan msSize now < remaining plan msSize st := by
  apply Finset.sum_lt_sum
  · intro k hk
    have hGrown := h.grown k (Finset.mem_filter.mp hk).2
    omega
  · have hm := (h.streams.taps m hTap).1
    have hBounded := h.streams.bounded hTap
    exact ⟨m, Finset.mem_filter.mpr ⟨Finset.mem_range.mpr hm, hTap⟩, by omega⟩

/-- When everything has arrived, the multipliers come to the end of the plan. -/
theorem Streams.complete {msSize : Nat} {st : MSNetwork} (hPlan : plan.Linked)
    (hArrived : ∀ m, plan.taps m = true →
      arrived m = picked (plan.fromMemory m) (plan.value m) plan.total)
    (hWeights : ∀ m, plan.taps m = true → ∃ phases, 0 < phases ∧ nWeights m = phases * plan.folds)
    (h : Streams plan msSize arrived nWeights st) :
    ∃ cycles, Streams plan msSize arrived nWeights ((MSNetwork.cycle msSize)^[cycles] st) ∧
      ∀ m, plan.taps m = true →
        plan.total ≤ (((MSNetwork.cycle msSize)^[cycles] st).1 m).log.popped.length := by
  have hSwept := h.swept hPlan fun m hm => hArrived m hm ▸ List.prefix_rfl
  by_cases hStill : ∀ m, plan.taps m = true →
      ((MSNetwork.cycle msSize st).1 m).log.popped.length = (st.1 m).log.popped.length
  · exact ⟨1, hSwept.streams, fun m hm => hSwept.complete hPlan hArrived hWeights hStill hm⟩
  · push Not at hStill
    obtain ⟨m, hTap, hNe⟩ := hStill
    have hGrown := hSwept.grown m hTap
    have hLess := hSwept.remaining_lt hTap (by omega)
    obtain ⟨cycles, hRest⟩ := Streams.complete hPlan hArrived hWeights hSwept.streams
    exact ⟨cycles + 1, by simpa only [Function.iterate_succ_apply] using hRest⟩
termination_by remaining plan msSize st

/-- The distribution network brings a package to multiplier `k`, whose slot is free. -/
theorem Streams.deliver {msSize : Nat} (h : Streams plan msSize arrived nWeights st)
    {pck : DataPackage} (hPck : plan.taps k = true →
      (st.2 (.input k)).content = none ∧ (pck.dataType = .weight ∨ pck.dataType = .iactivation)) :
    Streams plan msSize
      (Function.update arrived k (arrived k ++ MSwitch.activations [pck]))
      (Function.update nWeights k (nWeights k + (MSwitch.weights [pck]).length))
      (st.1, st.2.send (.input k) [pck]) := by
  have hKept : ∀ w, w ≠ .input k → st.2.send (.input k) [pck] w = st.2 w := fun w hw =>
    Connections.set_of_ne _ hw _
  refine ⟨fun m hm => ⟨(h.taps m hm).1, ?_⟩, h.others⟩
  have hStream := (h.taps m hm).2
  have hLink : (st.2.send (.input k) [pck]).store.recv (.forwarding m) =
      st.2.store.recv (.forwarding m) := by
    simp only [Store.recv, Connections.store, hKept (.forwarding m) (by simp)]
  obtain ⟨got, linked, n, hFollows, hGot, hLinked, hCount⟩ := hStream.follows
  rcases eq_or_ne m k with rfl | hOther
  · obtain ⟨hFree, hType⟩ := hPck hm
    have hBefore : st.2.store.recv (.input m) = [] := by
      simp [Store.recv, Connections.store, hFree]
    have hAfter : (st.2.send (.input m) [pck]).store.recv (.input m) = [pck] := by
      simp [Store.recv, Connections.store, Connections.send]
    rw [hBefore] at hGot hCount
    refine ⟨?_, ⟨got, linked, n, hFollows, ?_, fun hReceives => ?_, ?_⟩, fun hReceives => ?_⟩
    · rw [hAfter]
      intro other hMem
      rw [List.mem_singleton.mp hMem]
      exact hType
    · rw [hAfter, Function.update_self, ← hGot]
      simp [MSwitch.activations]
    · rw [hLink]
      exact hLinked hReceives
    · rw [hAfter, Function.update_self, ← hCount]
      simp [MSwitch.weights]
    · rw [hKept _ (by simp)]
      exact hStream.overwritten hReceives
  · have hInput : (st.2.send (.input k) [pck]).store.recv (.input m) =
        st.2.store.recv (.input m) := by
      simp only [Store.recv, Connections.store, hKept (.input m) (by simpa using hOther)]
    refine ⟨?_, ⟨got, linked, n, hFollows, ?_, fun hReceives => ?_, ?_⟩, fun hReceives => ?_⟩
    · rw [hInput]
      exact hStream.operands
    · rw [hInput, Function.update_of_ne hOther]
      exact hGot
    · rw [hLink]
      exact hLinked hReceives
    · rw [hInput, Function.update_of_ne hOther]
      exact hCount
    · rw [hKept _ (by simp)]
      exact hStream.overwritten hReceives

end MSNetwork

end Stonne
