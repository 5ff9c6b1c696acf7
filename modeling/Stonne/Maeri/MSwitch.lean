import Stonne.Accumulator
import Stonne.Lib.Radix

/-!
# The multiplier switch

`MSwitch::cycle` takes a package from the distribution network and, when its input
forwarding is enabled, an activation from its right neighbour.  It multiplies the next
activation with the next weight as soon as it holds all weights of a window, and turns
the weights around.  In the first window of a row the activation is the one from the
memory, in the others the one of the neighbour.

The first multiplier of a folding virtual neuron emits a zero and then passes the partial
sums on that the memory sends back.

The model adds a log of what was multiplied, what was sent to the left and when the weights
were flushed.  No component reads the log.
-/

namespace Stonne

open Dataflow

/-- The connections of the multiplier network, by the table of the source that owns
them. -/
inductive MSWire where
  /-- From the distribution network to multiplier `m`. -/
  | input (m : Nat)
  /-- `MSNetwork::fwconnectiontable`: from multiplier `m + 1` to multiplier `m`. -/
  | forwarding (m : Nat)
  /-- From multiplier `m` to the reduction network. -/
  | output (m : Nat)
  deriving DecidableEq

/-- What happened to a multiplier since its last reset. -/
structure MSwitch.Log where
  /-- The activations that were multiplied. -/
  popped : List DataPackage := []
  /-- Those of them that came over the link. -/
  fromLink : List DataPackage := []
  /-- The activations that were sent to the left neighbour. -/
  forwarded : List DataPackage := []
  /-- How many activations had been multiplied at each flush of the weights. -/
  flushes : List Nat := []

/-- The fifos `psum_fifo` and `forwarding_output_fifo` are left out: a call that fills one of
them empties it. -/
structure MSwitch where
  activationFifo : Fifo := []
  weightFifo : Fifo := []
  forwardingInputFifo : Fifo := []
  inputForwardingEnabled : Bool := false
  outputForwardingEnabled : Bool := false
  forwardPsum : Bool := false
  directForwardPsum : Bool := false
  currentNWindows : Nat := 0
  currentNFolding : Nat := 0
  nWindows : Nat := 0
  nFolding : Nat := 0
  vn : Nat := 0
  log : MSwitch.Log := {}

namespace MSwitch

/-- The connections of a multiplier. -/
structure Links where
  input : MSWire
  inputForwarding : MSWire
  outputForwarding : MSWire
  output : MSWire

/-- A package from the distribution network. -/
def receivePackage (ms : MSwitch) (pck : DataPackage) : MSwitch :=
  match pck.dataType with
  | .iactivation => { ms with activationFifo := ms.activationFifo ++ [pck] }
  | .weight =>
      -- a full fifo means that a new phase begins
      if ms.weightFifo.length = ms.nFolding then
        { ms with
          weightFifo := [pck]
          log := { ms.log with flushes := ms.log.flushes ++ [ms.log.popped.length] } }
      else { ms with weightFifo := ms.weightFifo ++ [pck] }
  | .psum => { ms with activationFifo := ms.activationFifo ++ [pck] }
  | .oactivation => ms

/-- `receive(inputConnection)` -/
def receive (ms : MSwitch) (links : Links) (conns : Connections MSWire) :
    MSwitch × Connections MSWire :=
  let arrived := conns.receive links.input
  (arrived.1.foldl receivePackage ms, arrived.2)

/-- `receive(inputForwardingConnection)` -/
def receiveForwarding (ms : MSwitch) (links : Links) (conns : Connections MSWire) :
    MSwitch × Connections MSWire :=
  let arrived := conns.receive links.inputForwarding
  ({ ms with forwardingInputFifo := ms.forwardingInputFifo ++ arrived.1 }, arrived.2)

/-- The next fold of the multipliers that bring back partial sums. -/
def nextFolding (ms : MSwitch) : Nat :=
  if ms.currentNFolding + 1 = ms.nFolding then 0 else ms.currentNFolding + 1

/-- The next window of the row, after the last fold of the current one. -/
def nextWindow (ms : MSwitch) : Nat :=
  if ms.currentNFolding + 1 = ms.nFolding then
    if ms.currentNWindows + 1 = ms.nWindows then 0 else ms.currentNWindows + 1
  else ms.currentNWindows

/-- The activation is read from the link: `fifo_to_read`. -/
def readsForwarding (ms : MSwitch) : Bool :=
  ms.inputForwardingEnabled && decide (0 < ms.currentNWindows)

def fifoToRead (ms : MSwitch) : Fifo :=
  if ms.readsForwarding then ms.forwardingInputFifo else ms.activationFifo

/-- The activation is sent to the left, unless the window is the last one of the row. -/
def forwards (ms : MSwitch) : Bool :=
  decide (ms.currentNWindows < ms.nWindows - 1) && ms.outputForwardingEnabled

/-- The multiplication of `activation`, the first package of `fifoToRead`, with `weight`, the
first weight. -/
def multiply (ms : MSwitch) (activation : DataPackage) (rest : Fifo) (weight : DataPackage)
    (weights : Fifo) : MSwitch :=
  { ms with
    activationFifo := if ms.readsForwarding then ms.activationFifo else rest
    forwardingInputFifo := if ms.readsForwarding then rest else ms.forwardingInputFifo
    weightFifo := weights ++ [weight]
    currentNFolding := ms.nextFolding
    currentNWindows := ms.nextWindow
    log := { ms.log with
      popped := ms.log.popped ++ [activation]
      fromLink :=
        if ms.readsForwarding then ms.log.fromLink ++ [activation] else ms.log.fromLink
      forwarded :=
        if ms.forwards then ms.log.forwarded ++ [activation] else ms.log.forwarded } }

def performOperation2Operands (ms : MSwitch) (left right : DataPackage) : DataPackage :=
  psumPackage ms.vn (left.data * right.data)

/-- A partial sum from the memory goes to the reduction network. -/
def passPsum (ms : MSwitch) (links : Links) (conns : Connections MSWire) :
    Option (MSwitch × Connections MSWire) :=
  match ms.activationFifo with
  | [] => none
  | psum :: rest =>
      some ({ ms with activationFifo := rest },
        conns.send links.output [psumPackage ms.vn psum.data])

def cycle (ms : MSwitch) (links : Links) (conns : Connections MSWire) :
    MSwitch × Connections MSWire :=
  if ms.directForwardPsum then
    let (ms, conns) := ms.receive links conns
    (ms.passPsum links conns).getD (ms, conns)
  else if ms.forwardPsum && decide (0 < ms.currentNFolding) then
    let (ms, conns) := ms.receive links conns
    match ms.passPsum links conns with
    | some (ms, conns) => ({ ms with currentNFolding := ms.nextFolding }, conns)
    | none => (ms, conns)
  else if ms.forwardPsum then
    ({ ms with currentNFolding := ms.nextFolding },
      conns.send links.output [psumPackage ms.vn 0])
  else
    let (ms, conns) := ms.receive links conns
    let (ms, conns) :=
      if ms.inputForwardingEnabled then ms.receiveForwarding links conns else (ms, conns)
    match ms.fifoToRead, ms.weightFifo with
    | activation :: rest, weight :: weights =>
        if ms.nFolding ≤ ms.weightFifo.length then
          let conns := conns.send links.output [ms.performOperation2Operands activation weight]
          (ms.multiply activation rest weight weights,
            if ms.forwards then conns.send links.outputForwarding [activation] else conns)
        else (ms, conns)
    | _, _ => (ms, conns)

/-! ## What a cycle does -/

/-- The values of the activations among some packages. -/
def activations (pcks : List DataPackage) : List Int :=
  (pcks.filter fun pck => pck.dataType = .iactivation).map (·.data)

def weights (pcks : List DataPackage) : List DataPackage :=
  pcks.filter fun pck => pck.dataType = .weight

/-- What the distribution network may bring to a multiplier. -/
def Operands (pcks : List DataPackage) : Prop :=
  ∀ pck ∈ pcks, pck.dataType = .weight ∨ pck.dataType = .iactivation

/-- The number of weights in a fifo of `folds` weights after `n` arrivals. -/
def filling (folds n : Nat) : Nat :=
  if n = 0 then 0 else (n - 1) % folds + 1

theorem filling_succ {folds : Nat} (hFolds : 0 < folds) (n : Nat) :
    filling folds (n + 1) = if filling folds n = folds then 1 else filling folds n + 1 := by
  rcases Nat.eq_zero_or_pos n with rfl | hPos
  · have hNone : ¬0 = folds := by omega
    simp [filling, hNone]
  · obtain ⟨n, rfl⟩ := Nat.exists_eq_succ_of_ne_zero hPos.ne'
    simp only [filling, Nat.succ_eq_add_one, Nat.add_sub_cancel, Nat.add_eq_zero_iff,
      Nat.one_ne_zero, and_false, if_false]
    have hLess := Nat.mod_lt n hFolds
    rcases Nat.lt_or_ge (n % folds + 1) folds with hMore | hLast
    · rw [if_neg (by omega), (succ_of_lt hMore).1]
    · rw [if_pos (by omega), (succ_of_eq (by omega)).1]

/-- The fifo is full after whole phases. -/
theorem filling_mul {folds : Nat} (hFolds : 0 < folds) {phases : Nat} (hPhases : 0 < phases) :
    filling folds (phases * folds) = folds := by
  have hPos : 0 < phases * folds := Nat.mul_pos hPhases hFolds
  rw [filling, if_neg hPos.ne', ← radix_last_digit hPhases hFolds, radix_mod (by omega)]
  omega

/-- A fifo that is full after `n` weights is flushed by the next one. -/
theorem flushes_succ {folds : Nat} (hFolds : 0 < folds) (n : Nat) :
    n / folds = if filling folds n = folds then (n - 1) / folds + 1 else (n - 1) / folds := by
  cases n with
  | zero =>
      have hNone : ¬0 = folds := by omega
      simp [filling, hNone]
  | succ n =>
      have hLess := Nat.mod_lt n hFolds
      rw [filling, if_neg (Nat.succ_ne_zero n), Nat.add_sub_cancel]
      rcases Nat.lt_or_ge (n % folds + 1) folds with hMore | hLast
      · rw [if_neg (by omega), (succ_of_lt hMore).2]
      · rw [if_pos (by omega), (succ_of_eq (by omega)).2]

/-- Arriving operands change the two fifos of the operands and the log of the flushes. -/
theorem foldl_receivePackage {pcks : List DataPackage} (hOperands : Operands pcks)
    (ms : MSwitch) : ∃ weightFifo k, pcks.foldl receivePackage ms =
      { ms with
        activationFifo := ms.activationFifo ++ pcks.filter fun pck => pck.dataType = .iactivation
        weightFifo := weightFifo
        log := { ms.log with
          flushes := ms.log.flushes ++ List.replicate k ms.log.popped.length } } := by
  induction pcks generalizing ms with
  | nil => exact ⟨ms.weightFifo, 0, by simp⟩
  | cons pck pcks ih =>
      have hRest : Operands pcks := fun other hMem => hOperands other (List.mem_cons_of_mem _ hMem)
      obtain ⟨weightFifo, k, hRun⟩ := ih hRest (ms.receivePackage pck)
      rcases hOperands pck List.mem_cons_self with hType | hType
      · rcases eq_or_ne ms.weightFifo.length ms.nFolding with hFull | hMore
        · refine ⟨weightFifo, k + 1, ?_⟩
          rw [List.foldl_cons, hRun]
          simp [receivePackage, hType, hFull, List.replicate_succ]
        · refine ⟨weightFifo, k, ?_⟩
          rw [List.foldl_cons, hRun]
          simp [receivePackage, hType, hMore]
      · refine ⟨weightFifo, k, ?_⟩
        rw [List.foldl_cons, hRun]
        simp [receivePackage, hType]

/-- Arriving weights fill the fifo and flush it in time. -/
theorem foldl_receivePackage_filling {folds n : Nat} (hFolds : 0 < folds)
    {pcks : List DataPackage} (hOperands : Operands pcks) {ms : MSwitch}
    (hNFolding : ms.nFolding = folds) (h : ms.weightFifo.length = filling folds n)
    (hFlushes : ms.log.flushes.length = (n - 1) / folds) :
    (pcks.foldl receivePackage ms).weightFifo.length =
        filling folds (n + (weights pcks).length) ∧
      (pcks.foldl receivePackage ms).log.flushes.length =
        (n + (weights pcks).length - 1) / folds := by
  induction pcks generalizing ms n with
  | nil => exact ⟨by simpa [weights] using h, by simpa [weights] using hFlushes⟩
  | cons pck pcks ih =>
      have hRest : Operands pcks := fun other hMem => hOperands other (List.mem_cons_of_mem _ hMem)
      rw [List.foldl_cons]
      rcases hOperands pck List.mem_cons_self with hType | hType
      · have hCount : n + (weights (pck :: pcks)).length = n + 1 + (weights pcks).length := by
          simp only [weights, List.filter_cons, hType, decide_true, if_true, List.length_cons]
          omega
        rw [hCount]
        apply ih hRest
        · simp only [receivePackage, hType]
          split
          · exact hNFolding
          · exact hNFolding
        · rw [filling_succ hFolds, ← h]
          simp only [receivePackage, hType, hNFolding]
          split
          · simp
          · simp
        · rw [Nat.add_sub_cancel, flushes_succ hFolds, ← h, ← hFlushes]
          simp only [receivePackage, hType, hNFolding]
          split
          · simp
          · rfl
      · have hCount : weights (pck :: pcks) = weights pcks := by
          simp [weights, hType]
        rw [hCount]
        apply ih hRest
        · simpa [receivePackage, hType] using hNFolding
        · simpa [receivePackage, hType] using h
        · simpa [receivePackage, hType] using hFlushes

/-- The multiplier with the packages of a cycle, before it multiplies. -/
def received (ms : MSwitch) (operands link : List DataPackage) : MSwitch :=
  let ms := operands.foldl receivePackage ms
  if ms.inputForwardingEnabled then
    { ms with forwardingInputFifo := ms.forwardingInputFifo ++ link }
  else ms

/-- Arriving packages are not multiplied yet. -/
theorem received_log {operands : List DataPackage} (hOperands : Operands operands)
    (ms : MSwitch) (link : List DataPackage) :
    (ms.received operands link).log.popped = ms.log.popped ∧
      (ms.received operands link).log.forwarded = ms.log.forwarded ∧
      ∃ k, (ms.received operands link).log.flushes =
        ms.log.flushes ++ List.replicate k ms.log.popped.length := by
  obtain ⟨weightFifo, k, hReceived⟩ := foldl_receivePackage hOperands ms
  rw [received, hReceived]
  split
  · exact ⟨rfl, rfl, k, rfl⟩
  · exact ⟨rfl, rfl, k, rfl⟩

/-- The connections after a multiplier has read them. -/
def drain (ms : MSwitch) (links : Links) (conns : Connections MSWire) : Connections MSWire :=
  let conns := (conns.receive links.input).2
  if ms.inputForwardingEnabled then (conns.receive links.inputForwarding).2 else conns

/-- The multiplier can multiply `activation` with `weight`. -/
structure Ready (ms : MSwitch) (activation : DataPackage) (rest : Fifo) (weight : DataPackage)
    (weights : Fifo) : Prop where
  activation : ms.fifoToRead = activation :: rest
  weight : ms.weightFifo = weight :: weights
  full : ms.nFolding ≤ ms.weightFifo.length

/-- The connections after a multiplication. -/
def sendResults (ms : MSwitch) (links : Links) (activation weight : DataPackage)
    (conns : Connections MSWire) : Connections MSWire :=
  let conns := conns.send links.output [ms.performOperation2Operands activation weight]
  if ms.forwards then conns.send links.outputForwarding [activation] else conns

/-- A multiplier that is no psum multiplier multiplies if it can. -/
theorem cycle_of_multiplier {ms : MSwitch} {links : Links} {conns : Connections MSWire}
    (hDirect : ms.directForwardPsum = false) (hPsum : ms.forwardPsum = false)
    (hLinks : links.inputForwarding ≠ links.input)
    (hOperands : Operands (conns.store.recv links.input)) :
    let now := ms.received (conns.store.recv links.input) (conns.store.recv links.inputForwarding)
    (∃ activation rest weight weights, now.Ready activation rest weight weights ∧
      ms.cycle links conns = (now.multiply activation rest weight weights,
        now.sendResults links activation weight (ms.drain links conns))) ∨
    ((∀ activation rest weight weights, ¬now.Ready activation rest weight weights) ∧
      ms.cycle links conns = (now, ms.drain links conns)) := by
  intro now
  have hNow : (let (ms, conns) := ms.receive links conns
      if ms.inputForwardingEnabled then ms.receiveForwarding links conns else (ms, conns)) =
      (now, ms.drain links conns) := by
    obtain ⟨weightFifo, k, hReceived⟩ := foldl_receivePackage hOperands ms
    have hLink : ((conns.receive links.input).2.receive links.inputForwarding).1 =
        conns.store.recv links.inputForwarding := by
      rw [Connections.receive_fst, Store.recv, Store.recv, Connections.store, Connections.store]
      simp only
      rw [Connections.content_receive, if_neg hLinks]
    simp only [receive, Connections.receive_fst, hReceived, now, received, drain]
    split
    · rw [receiveForwarding, hLink]
    · rfl
  simp only [cycle, hDirect, hPsum, Bool.false_and]
  rw [if_neg (by decide), if_neg (by decide), if_neg (by decide)]
  simp only at hNow
  simp only [hNow]
  cases hFifo : now.fifoToRead with
  | nil => exact Or.inr ⟨fun _ _ _ _ h => by simpa [hFifo] using h.activation, rfl⟩
  | cons activation rest =>
      cases hWeight : now.weightFifo with
      | nil => exact Or.inr ⟨fun _ _ _ _ h => by simpa [hWeight] using h.weight, rfl⟩
      | cons weight weights =>
          rcases Nat.lt_or_ge (weight :: weights).length now.nFolding with hFew | hFull
          · right
            refine ⟨fun _ _ _ _ h => ?_, ?_⟩
            · have := h.full
              rw [hWeight] at this
              omega
            · simp only
              rw [if_neg (by omega)]
          · left
            refine ⟨activation, rest, weight, weights, ⟨hFifo, hWeight, by rwa [hWeight]⟩, ?_⟩
            simp only
            rw [if_pos hFull]
            rfl

/-! ## What a cycle leaves on the connections -/

theorem content_drain (ms : MSwitch) (links : Links) (conns : Connections MSWire) (w : MSWire) :
    (ms.drain links conns w).content =
      if w = links.input ∨ ms.inputForwardingEnabled = true ∧ w = links.inputForwarding then none
      else (conns w).content := by
  unfold drain
  cases ms.inputForwardingEnabled with
  | true =>
      rw [if_pos rfl, Connections.content_receive, Connections.content_receive]
      split
      · simp [*]
      · simp [*]
  | false =>
      rw [if_neg (by decide), Connections.content_receive]
      simp

theorem overwritten_drain (ms : MSwitch) (links : Links) (conns : Connections MSWire)
    (w : MSWire) : (ms.drain links conns w).overwritten = (conns w).overwritten := by
  unfold drain
  split
  · rw [Connections.overwritten_receive, Connections.overwritten_receive]
  · rw [Connections.overwritten_receive]

theorem sendResults_of_ne (ms : MSwitch) {links : Links} (activation weight : DataPackage)
    (conns : Connections MSWire) {w : MSWire} (hOutput : w ≠ links.output) :
    ms.sendResults links activation weight conns w =
      if ms.forwards = true ∧ w = links.outputForwarding then (conns w).send [activation]
      else conns w := by
  have hKept : conns.send links.output [ms.performOperation2Operands activation weight] w =
      conns w := Connections.set_of_ne _ hOutput _
  unfold sendResults
  cases ms.forwards with
  | true =>
      rw [if_pos rfl]
      rcases eq_or_ne w links.outputForwarding with rfl | hOther
      · rw [if_pos ⟨rfl, rfl⟩, Connections.send, Connections.set_self, hKept]
      · rw [if_neg (by simp [hOther]), Connections.send, Connections.set_of_ne _ hOther, hKept]
  | false =>
      rw [if_neg (by decide), if_neg (by simp), hKept]

/-- A multiplier without links. -/
def Unlinked (ms : MSwitch) : Prop :=
  ms.inputForwardingEnabled = false ∧ ms.outputForwardingEnabled = false

theorem foldl_receivePackage_unlinked (pcks : List DataPackage) {ms : MSwitch}
    (h : ms.Unlinked) : (pcks.foldl receivePackage ms).Unlinked := by
  induction pcks generalizing ms with
  | nil => exact h
  | cons pck pcks ih =>
      apply ih
      unfold receivePackage
      split
      · exact h
      · split
        · exact h
        · exact h
      · exact h
      · exact h

/-- Without links a multiplier only touches its input and its output. -/
theorem cycle_of_unlinked {ms : MSwitch} (h : ms.Unlinked) (links : Links)
    (conns : Connections MSWire) :
    (ms.cycle links conns).1.Unlinked ∧
      ∀ w, w ≠ links.input → w ≠ links.output →
        ((ms.cycle links conns).2 w).content = (conns w).content ∧
          ((ms.cycle links conns).2 w).overwritten = (conns w).overwritten := by
  have hReceived := foldl_receivePackage_unlinked (conns.receive links.input).1 h
  have hDrained : ∀ w, w ≠ links.input → ((conns.receive links.input).2 w).content =
        (conns w).content ∧
      ((conns.receive links.input).2 w).overwritten = (conns w).overwritten := by
    intro w hw
    rw [Connections.content_receive, if_neg hw, Connections.overwritten_receive]
    exact ⟨rfl, rfl⟩
  have hSent : ∀ (conns : Connections MSWire) data w, w ≠ links.output →
      conns.send links.output data w = conns w :=
    fun conns data w hw => Connections.set_of_ne _ hw _
  generalize hNow : (conns.receive links.input).1.foldl receivePackage ms = now at hReceived
  generalize hConns : (conns.receive links.input).2 = drained at hDrained
  unfold cycle
  simp only [receive, hNow, hConns, passPsum]
  split
  · cases hFifo : now.activationFifo with
    | nil => exact ⟨hReceived, fun w hInput _ => hDrained w hInput⟩
    | cons psum rest =>
        refine ⟨hReceived, fun w hInput hOutput => ?_⟩
        simp only [Option.getD_some]
        rw [hSent _ _ w hOutput]
        exact hDrained w hInput
  · split
    · cases hFifo : now.activationFifo with
      | nil => exact ⟨hReceived, fun w hInput _ => hDrained w hInput⟩
      | cons psum rest =>
          refine ⟨hReceived, fun w hInput hOutput => ?_⟩
          simp only
          rw [hSent _ _ w hOutput]
          exact hDrained w hInput
    · split
      · refine ⟨h, fun w _ hOutput => ?_⟩
        simp only
        rw [hSent _ _ w hOutput]
        exact ⟨rfl, rfl⟩
      · rw [if_neg (by simp [hReceived.1])]
        have hForwards : now.forwards = false := by simp [forwards, hReceived.2]
        simp only [hForwards]
        split
        · split
          · refine ⟨hReceived, fun w hInput hOutput => ?_⟩
            rw [if_neg (by decide), hSent _ _ w hOutput]
            exact hDrained w hInput
          · exact ⟨hReceived, fun w hInput _ => hDrained w hInput⟩
        · exact ⟨hReceived, fun w hInput _ => hDrained w hInput⟩

end MSwitch

end Stonne
