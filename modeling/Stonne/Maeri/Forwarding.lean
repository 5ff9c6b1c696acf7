import Stonne.Maeri.Inputs
import Stonne.Maeri.MSNetwork
import Stonne.Maeri.Phases

/-!
# The forwarding links

Three components decide separately whether the activations of a window reach a
multiplier from the memory or from its right neighbour: `CompilerMSN::generate_ms_signals`
enables the links, `SDMemory::cycle` leaves out the columns that the links bring, and
`MSwitch::cycle` counts folds and windows to know which fifo to read.

A machine runs the memory, the multipliers and a distribution network that brings each
multiplier its packages in order, after arbitrary delays.
-/

namespace Stonne

open Dataflow

namespace CompilerMSN

/-- The loops over the taps of all neurons. -/
def forEachTap {α : Type*} (tile : Tile) (f : Nat → Tap → α) : List α :=
  (List.range tile.numVNs).flatMap fun i =>
    (List.range tile.tC).flatMap fun c =>
      (List.range tile.tR).flatMap fun r =>
        (List.range tile.tS).flatMap fun s => [f i ⟨c, r, s⟩]

/-- The signals of the links, for the columns of a window in which one is `enabled`. -/
def msFwEnabled (numMs : Nat) (layer : DNNLayer) (tile : Tile) (enabled : Nat → Bool) :
    Nat → Option Bool :=
  let table :=
    if 1 < tile.tY then
      (List.range tile.numVNs).foldl
        (fun table i => (List.range tile.vnSize).foldl
          (fun table j => Function.update table (i * tile.vnSize + j) (some false)) table)
        fun _ => none
    else
      (forEachTap tile fun i t =>
          (i * tile.vnSize + t.c * tile.tR * tile.tS + t.r * tile.tS + t.s + tile.foldingShift,
            enabled t.s)).foldl
        (fun table entry => Function.update table entry.1 (some entry.2)) fun _ => none
  if 1 < layer.strides ∨ layer.S % tile.tS ≠ 0 then
    (List.range numMs).foldl (fun table i => Function.update table i (some false)) table
  else table

/-- All columns but the first send to the left. -/
def msFwsendEnabled (numMs : Nat) (layer : DNNLayer) (tile : Tile) : Nat → Option Bool :=
  msFwEnabled numMs layer tile fun s => decide (0 < s)

/-- All columns but the last receive from the right. -/
def msFwreceiveEnabled (numMs : Nat) (layer : DNNLayer) (tile : Tile) : Nat → Option Bool :=
  msFwEnabled numMs layer tile fun s => decide (s < tile.tS - 1)

def nFoldingConfiguration (tile : Tile) (nFolding : Nat) : Nat → Option Nat :=
  (List.range tile.numVNs).foldl
    (fun table i => (List.range tile.vnSize).foldl
      (fun table j => Function.update table (i * tile.vnSize + j) (some nFolding)) table)
    fun _ => none

theorem nFoldingConfiguration_eq (tile : Tile) (nFolding m : Nat) :
    nFoldingConfiguration tile nFolding m =
      if m < tile.numVNs * tile.vnSize then some nFolding else none :=
  foldl_radix_update (fun _ _ => some nFolding) (fun _ => none) m

theorem mem_forEachTap {α : Type*} {tile : Tile} {f : Nat → Tap → α} {x : α} :
    x ∈ forEachTap tile f ↔
      ∃ v : Neuron, ∃ t : Tap, v.InTile tile ∧ t.InTile tile ∧ x = f (tile.currentVn v) t := by
  simp only [forEachTap, List.mem_flatMap, List.mem_range, List.mem_singleton]
  constructor
  · rintro ⟨i, hi, c, hc, r, hr, s, hs, rfl⟩
    obtain ⟨v, hv, rfl⟩ := Tile.exists_currentVn hi
    exact ⟨v, ⟨c, r, s⟩, hv, ⟨hc, hr, hs⟩, rfl⟩
  · rintro ⟨v, ⟨c, r, s⟩, hv, ⟨hc, hr, hs⟩, rfl⟩
    exact ⟨_, Tile.currentVn_lt hv, c, hc, r, hr, s, hs, rfl⟩

/-- Where the loops write the signal of a tap. -/
private theorem tapAddress (tile : Tile) (v : Neuron) (t : Tap) :
    tile.currentVn v * tile.vnSize + t.c * tile.tR * tile.tS + t.r * tile.tS + t.s +
      tile.foldingShift = tile.multiplier v t := by
  rw [Tile.multiplier, Tile.tapIndex]
  ring

/-- With the links in use a signal is set for the taps of the enabled columns. -/
theorem msFwEnabled_iff {numMs : Nat} {layer : DNNLayer} {tile : Tile}
    (hLinks : SDMemory.linksEnabled layer tile = true) (enabled : Nat → Bool) (m : Nat) :
    (msFwEnabled numMs layer tile enabled m).getD false = true ↔
      ∃ v : Neuron, ∃ t : Tap, v.InTile tile ∧ t.InTile tile ∧ tile.multiplier v t = m ∧
        enabled t.s = true := by
  simp only [SDMemory.linksEnabled, Bool.and_eq_true, decide_eq_true_eq] at hLinks
  obtain ⟨⟨⟨hY, -⟩, hStrides⟩, hRemainder⟩ := hLinks
  rw [msFwEnabled, if_neg (by omega), if_neg (by omega)]
  by_cases hTap : ∃ v : Neuron, ∃ t : Tap, v.InTile tile ∧ t.InTile tile ∧
      tile.multiplier v t = m
  · obtain ⟨v, t, hv, ht, rfl⟩ := hTap
    rw [foldl_update_of_exists Prod.fst (fun entry : Nat × Bool => some entry.2) _
      ⟨_, mem_forEachTap.mpr ⟨v, t, hv, ht, rfl⟩, tapAddress tile v t⟩ (b := some (enabled t.s))]
    · constructor
      · intro hEnabled
        exact ⟨v, t, hv, ht, rfl, hEnabled⟩
      · rintro ⟨v', t', hv', ht', hSame, hEnabled⟩
        obtain ⟨-, rfl⟩ := Tile.multiplier_inj hv' hv ht' ht hSame
        exact hEnabled
    · intro entry hEntry hKey
      obtain ⟨v', t', hv', ht', rfl⟩ := mem_forEachTap.mp hEntry
      obtain ⟨-, rfl⟩ := Tile.multiplier_inj hv' hv ht' ht ((tapAddress tile v' t').symm.trans hKey)
      rfl
  · rw [foldl_update_of_forall_ne Prod.fst (fun entry : Nat × Bool => some entry.2)]
    · constructor
      · intro hFalse
        cases hFalse
      · rintro ⟨v, t, hv, ht, hSame, -⟩
        exact absurd ⟨v, t, hv, ht, hSame⟩ hTap
    · intro entry hEntry hKey
      obtain ⟨v, t, hv, ht, rfl⟩ := mem_forEachTap.mp hEntry
      exact hTap ⟨v, t, hv, ht, (tapAddress tile v t).symm.trans hKey⟩

/-- Otherwise none is set. -/
theorem msFwEnabled_of_disabled {numMs : Nat} {layer : DNNLayer} {tile : Tile}
    (hTile : tile.Accepted numMs) (hStrides : 1 ≤ layer.strides)
    (hLinks : SDMemory.linksEnabled layer tile = false) {enabled : Nat → Bool}
    (hEnabled : ∀ s < tile.tS, tile.tS ≤ 1 → enabled s = false) (m : Nat) :
    (msFwEnabled numMs layer tile enabled m).getD false = false := by
  simp only [SDMemory.linksEnabled, Bool.and_eq_false_iff, decide_eq_false_iff_not] at hLinks
  have hY := hTile.tY
  unfold msFwEnabled
  split
  · -- whatever the table holds, the multipliers of the array are switched off
    rw [foldl_range_table (fun _ _ => some false) fun table i => rfl]
    split
    · rfl
    · rename_i hOutside
      have hUnused : ¬m < tile.numVNs * tile.vnSize := fun hUsed =>
        hOutside (hUsed.trans_le ((Nat.mul_comm _ _).trans_le hTile.fits))
      split
      · rw [foldl_radix_update (fun _ _ => some false), if_neg hUnused]
        rfl
      · rw [foldl_update_of_forall_ne Prod.fst (fun entry : Nat × Bool => some entry.2)]
        · rfl
        · intro entry hEntry hKey
          obtain ⟨v, t, hv, ht, rfl⟩ := mem_forEachTap.mp hEntry
          exact hUnused (hKey ▸ tapAddress tile v t ▸ Tile.multiplier_lt hv ht)
  · rename_i hKept
    split
    · rw [foldl_radix_update (fun _ _ => some false)]
      split
      · rfl
      · rfl
    · by_cases hTap : ∃ entry ∈ forEachTap tile fun i t =>
          (i * tile.vnSize + t.c * tile.tR * tile.tS + t.r * tile.tS + t.s + tile.foldingShift,
            enabled t.s), entry.1 = m
      · rw [foldl_update_of_exists Prod.fst (fun entry : Nat × Bool => some entry.2) _ hTap
          (b := some false)]
        · rfl
        · intro entry hEntry _
          obtain ⟨v, t, hv, ht, rfl⟩ := mem_forEachTap.mp hEntry
          simp only
          rw [hEnabled t.s ht.s (by omega)]
      · rw [foldl_update_of_forall_ne Prod.fst (fun entry : Nat × Bool => some entry.2)]
        · rfl
        · intro entry hEntry hKey
          exact hTap ⟨entry, hEntry, hKey⟩

end CompilerMSN

/-! ## The machine -/

/-- A convolution on the machine: `2 ^ L` multipliers behind `2 ^ P` read ports. -/
structure Maeri where
  L : Nat
  P : Nat
  layer : DNNLayer
  tile : Tile
  filterAddress : Nat → Int
  inputAddress : Nat → Int

namespace Maeri

variable (mach : Maeri)

def numMs : Nat :=
  2 ^ mach.L

def ports : ReadPorts :=
  .powers mach.L mach.P

def iterations : Iterations :=
  .ofTile mach.layer mach.tile

/-- `n_folding` of `Stonne::loadTile`, a product in single precision. -/
def nFolding : Nat :=
  ⌊Binary32.round (Binary32.round (mach.iterations.iterR * mach.iterations.iterS) *
    mach.iterations.iterC)⌋₊

/-- What decides about the use of the links. -/
structure Signals where
  yInit : Counters → Nat
  fwSend : Nat → Bool
  fwReceive : Nat → Bool

/-- The signals that the compiler and the memory compute. -/
def signals : Signals where
  yInit := SDMemory.yInit mach.layer mach.tile
  fwSend m := (CompilerMSN.msFwsendEnabled mach.numMs mach.layer mach.tile m).getD false
  fwReceive m := (CompilerMSN.msFwreceiveEnabled mach.numMs mach.layer mach.tile m).getD false

/-- Without links, and a memory that always sends whole windows. -/
def linksDisabled : Signals where
  yInit _ := 0
  fwSend _ := false
  fwReceive _ := false

/-- `MSNetwork::configureSignals` on new multipliers. -/
def configureSignals (sig : Signals) (m : Nat) : MSwitch where
  vn := (CompilerMSN.msVnConfiguration mach.tile m).getD 0
  inputForwardingEnabled := sig.fwReceive m
  outputForwardingEnabled := sig.fwSend m
  forwardPsum := (CompilerMSN.forwardingPsumEnabled mach.tile m).getD false
  nFolding := (CompilerMSN.nFoldingConfiguration mach.tile mach.nFolding m).getD 0
  nWindows := mach.layer.outY

structure State where
  loop : DistributionLoop
  /-- All packages that the memory has put into its fifos so far. -/
  readPorts : Nat → ReadPort
  /-- How many of its operands each multiplier has got. -/
  delivered : Nat → Nat
  msnet : MSNetwork

def init (sig : Signals) : State where
  loop := {}
  readPorts _ := {}
  delivered _ := 0
  msnet := (mach.configureSignals sig, .idle)

/-- What the distribution network brings to a multiplier in a cycle. -/
inductive Delivery where
  | nothing
  /-- The next package that the memory has sent to it. -/
  | operand
  /-- A partial sum that the memory has written. -/
  | psum (data : Int)
  deriving DecidableEq

/-- The loops of `SDMemory::cycle` that send weights and activations. -/
def distribute (sig : Signals) (st : State) (isOpen : Bool) : State :=
  { st with
    loop := st.loop.cycle mach.iterations isOpen
    readPorts :=
      if !st.loop.inputFinished && isOpen then
        if !st.loop.weightsDistributed then
          SDMemory.distributeWeights mach.ports mach.numMs mach.layer mach.tile
            mach.filterAddress st.loop.counters st.readPorts
        else
          SDMemory.distributeInputsFrom mach.ports mach.numMs mach.layer mach.tile
            mach.inputAddress (sig.yInit st.loop.counters) st.loop.counters st.readPorts
      else st.readPorts }

/-- A partial sum only goes to the first multiplier of a neuron that folds. -/
def deliver (deliveries : Nat → Delivery) (st : State) (m : Nat) : State :=
  match deliveries m with
  | .nothing => st
  | .operand =>
      match (SDMemory.operandsFor mach.ports st.readPorts m)[st.delivered m]? with
      | none => st
      | some operand =>
          { st with
            delivered := Function.update st.delivered m (st.delivered m + 1)
            msnet := (st.msnet.1, st.msnet.2.send (.input m)
              [{ data := operand.1, dataType := operand.2 }]) }
  | .psum data =>
      if (st.msnet.1 m).forwardPsum then
        { st with
          msnet := (st.msnet.1, st.msnet.2.send (.input m) [psumPackage 0 data]) }
      else st

/-- A cycle of the machine: the memory, the multipliers, the distribution network. -/
def cycle (sig : Signals) (st : State) (event : Bool × (Nat → Delivery)) : State :=
  let st := mach.distribute sig st event.1
  let st := { st with msnet := MSNetwork.cycle mach.numMs st.msnet }
  (List.range mach.numMs).foldl (mach.deliver event.2) st

def run (sig : Signals) (events : List (Bool × (Nat → Delivery))) : State :=
  events.foldl (mach.cycle sig) (mach.init sig)

/-! ## The claim about the links -/

/-- The activations that an iteration sends to a multiplier when it sends the whole window. -/
def wholeWindow (cnt : Counters) (m : Nat) : List Int :=
  (SDMemory.operandsFor mach.ports
    (SDMemory.distributeInputsFrom mach.ports mach.numMs mach.layer mach.tile mach.inputAddress 0
      cnt fun _ => {}) m).map Prod.fst

/-- The activations of a multiplier in a run whose memory resends the whole window in every
iteration. -/
def resent (m : Nat) : List Int :=
  (List.range mach.iterations.steps).flatMap fun j =>
    mach.wholeWindow (Counters.digits mach.iterations j) m

/-- The memory has sent everything and all of it has arrived. -/
structure State.Distributed (st : State) : Prop where
  finished : st.loop.inputFinished = true
  arrived : ∀ m < mach.numMs,
    st.delivered m = (SDMemory.operandsFor mach.ports st.readPorts m).length

/-- Every multiplier of a tap multiplies `wanted`, in every run. -/
structure Multiplies (sig : Signals) (wanted : Nat → List Int) : Prop where
  popped : ∀ events, ∀ v : Neuron, v.InTile mach.tile → ∀ t : Tap, t.InTile mach.tile →
    ((mach.run sig events).msnet.1 (mach.tile.multiplier v t)).log.popped.map (·.data) <+:
      wanted (mach.tile.multiplier v t)
  complete : ∀ events, (mach.run sig events).Distributed mach → ∃ cycles, ∀ v : Neuron,
    v.InTile mach.tile → ∀ t : Tap, t.InTile mach.tile →
      (((MSNetwork.cycle mach.numMs)^[cycles] (mach.run sig events).msnet).1
        (mach.tile.multiplier v t)).log.popped.map (·.data) = wanted (mach.tile.multiplier v t)

/-- The links replace the activations that the memory leaves out. -/
structure LinksExact : Prop where
  /-- What the multipliers multiply with the links... -/
  withLinks : mach.Multiplies mach.signals mach.resent
  /-- ...is what they multiply without them. -/
  withoutLinks : mach.Multiplies linksDisabled mach.resent
  /-- Nothing that was forwarded is lost on the way. -/
  lossless : ∀ events m, mach.signals.fwReceive m = true →
    let msnet := (mach.run mach.signals events).msnet
    (msnet.1 m).log.fromLink.map (·.data) ++ (msnet.1 m).forwardingInputFifo.map (·.data) ++
        (msnet.2.store.recv (.forwarding m)).map (·.data) =
      (msnet.1 (m + 1)).log.forwarded.map (·.data)
  /-- No forwarded activation is overwritten in its connection. -/
  overwritten : ∀ events m, mach.signals.fwReceive m = true →
    ((mach.run mach.signals events).msnet.2 (.forwarding m)).overwritten = false
  /-- Nothing is left over at the end of a row: what is on the way then belongs to the rows
  that the neighbour has started since. -/
  rowEnd : ∀ events m, mach.signals.fwReceive m = true →
    let msnet := (mach.run mach.signals events).msnet
    (msnet.1 m).log.popped.length % (mach.layer.outY * mach.nFolding) = 0 →
      ((msnet.1 m).forwardingInputFifo.map (·.data) ++
          (msnet.2.store.recv (.forwarding m)).map (·.data)).Sublist
        (((msnet.1 (m + 1)).log.popped.map (·.data)).drop (msnet.1 m).log.popped.length)

/-! ## The run -/

/-- The operands that the memory has sent to a multiplier so far. -/
def State.operands (st : State) (m : Nat) : List (Int × Operand) :=
  SDMemory.operandsFor mach.ports st.readPorts m

/-- The activations among some operands. -/
def activationsOf (operands : List (Int × Operand)) : List Int :=
  (operands.filter fun operand => operand.2 = .iactivation).map Prod.fst

def weightsOf (operands : List (Int × Operand)) : Nat :=
  (operands.filter fun operand => operand.2 = .weight).length

/-- The loops only add weights and activations. -/
theorem operands_distribute {mach : Maeri} (hPorts : mach.P ≤ mach.L) (sig : Signals)
    (st : State) (isOpen : Bool) {m : Nat} (hm : m < mach.numMs) :
    ∃ added : List (Int × Operand), (mach.distribute sig st isOpen).operands mach m =
        st.operands mach m ++ added ∧
      ∀ operand ∈ added, operand.2 = .weight ∨ operand.2 = .iactivation := by
  unfold distribute State.operands
  simp only
  split
  · split
    · refine ⟨_, SDMemory.operandsFor_distributeWeights hPorts _ _ _ _ _ hm, ?_⟩
      intro operand hMem
      obtain ⟨pck, hPck, rfl⟩ := List.mem_map.mp hMem
      obtain ⟨g, -, k, -, t, -, rfl⟩ := SDMemory.mem_forEachWeight.mp (List.mem_filter.mp hPck).1
      exact Or.inl rfl
    · refine ⟨_, SDMemory.operandsFor_distributeInputsFrom hPorts _ _ _ hm, ?_⟩
      intro operand hMem
      obtain ⟨pck, hPck, rfl⟩ := List.mem_map.mp hMem
      obtain ⟨x, y, n, -, g, -, c, -, rfl⟩ :=
        SDMemory.mem_forEachInputFrom (List.mem_filter.mp hPck).1
      exact Or.inr rfl
  · exact ⟨[], (List.append_nil _).symm, fun operand hMem => by cases hMem⟩

/-- The machine and its multipliers in step with a plan. -/
structure InStep (plan : StreamPlan) (st : State) : Prop where
  types : ∀ m < mach.numMs, ∀ operand ∈ st.operands mach m,
    operand.2 = .weight ∨ operand.2 = .iactivation
  delivered : ∀ m < mach.numMs, st.delivered m ≤ (st.operands mach m).length
  streams : MSNetwork.Streams plan mach.numMs
    (fun m => activationsOf ((st.operands mach m).take (st.delivered m)))
    (fun m => weightsOf ((st.operands mach m).take (st.delivered m))) st.msnet
  /-- What waits in front of a tap is the last thing it has got. -/
  wire : ∀ m, plan.taps m = true → st.msnet.2.store.recv (.input m) = [] ∨
    ∃ pck, st.msnet.2.store.recv (.input m) = [pck] ∧
      ((st.operands mach m).take (st.delivered m)).getLast? = some (pck.data, pck.dataType)

section

variable {mach : Maeri} {plan : StreamPlan} {st : State}

theorem activationsOf_append (operands operands' : List (Int × Operand)) :
    activationsOf (operands ++ operands') = activationsOf operands ++ activationsOf operands' := by
  simp [activationsOf]

theorem weightsOf_append (operands operands' : List (Int × Operand)) :
    weightsOf (operands ++ operands') = weightsOf operands + weightsOf operands' := by
  simp [weightsOf]

theorem activationsOf_mono {operands operands' : List (Int × Operand)}
    (h : operands <+: operands') : activationsOf operands <+: activationsOf operands' :=
  (h.filter _).map _

private theorem deliver_memory (deliveries : Nat → Delivery) (st : State) (m : Nat) :
    (mach.deliver deliveries st m).loop = st.loop ∧
      (mach.deliver deliveries st m).readPorts = st.readPorts ∧
      (mach.deliver deliveries st m).msnet.1 = st.msnet.1 := by
  unfold Maeri.deliver
  cases deliveries m with
  | nothing => exact ⟨rfl, rfl, rfl⟩
  | operand =>
      simp only
      split
      · exact ⟨rfl, rfl, rfl⟩
      · exact ⟨rfl, rfl, rfl⟩
  | psum data =>
      simp only
      split
      · exact ⟨rfl, rfl, rfl⟩
      · exact ⟨rfl, rfl, rfl⟩

/-- The deliveries leave the memory and the multipliers alone. -/
theorem foldl_deliver_memory (deliveries : Nat → Delivery) (st : State) (k : Nat) :
    ((List.range k).foldl (mach.deliver deliveries) st).loop = st.loop ∧
      ((List.range k).foldl (mach.deliver deliveries) st).readPorts = st.readPorts ∧
      ((List.range k).foldl (mach.deliver deliveries) st).msnet.1 = st.msnet.1 := by
  induction k with
  | zero => exact ⟨rfl, rfl, rfl⟩
  | succ k ih =>
      obtain ⟨hLoop, hReadPorts, hMultipliers⟩ :=
        @deliver_memory mach deliveries ((List.range k).foldl (mach.deliver deliveries) st) k
      rw [List.range_succ, List.foldl_append, List.foldl_cons, List.foldl_nil, hLoop, hReadPorts,
        hMultipliers]
      exact ih

/-- What a cycle does to the memory. -/
theorem cycle_memory (sig : Signals) (st : State) (event : Bool × (Nat → Delivery)) :
    (mach.cycle sig st event).loop = st.loop.cycle mach.iterations event.1 ∧
      (mach.cycle sig st event).readPorts = (mach.distribute sig st event.1).readPorts :=
  ⟨(foldl_deliver_memory event.2 _ mach.numMs).1, (foldl_deliver_memory event.2 _ mach.numMs).2.1⟩

/-- What it does to the multipliers. -/
theorem cycle_multipliers (sig : Signals) (st : State) (event : Bool × (Nat → Delivery)) :
    (mach.cycle sig st event).msnet.1 = (MSNetwork.cycle mach.numMs st.msnet).1 :=
  (foldl_deliver_memory event.2 _ mach.numMs).2.2

private theorem InStep.deliver (h : InStep mach plan st) {k : Nat} (hk : k < mach.numMs)
    (hFree : plan.taps k = true → (st.msnet.2 (.input k)).content = none)
    (deliveries : Nat → Delivery) :
    InStep mach plan (mach.deliver deliveries st k) ∧
      ∀ m, m ≠ k → ((mach.deliver deliveries st k).msnet.2 (.input m)).content =
        (st.msnet.2 (.input m)).content := by
  have hOther : ∀ pcks m, m ≠ k →
      (st.msnet.2.send (.input k) pcks (.input m)).content = (st.msnet.2 (.input m)).content := by
    intro pcks m hm
    rw [Connections.send, Connections.set_of_ne _ (by simpa using hm)]
  unfold Maeri.deliver
  cases deliveries k with
  | nothing => exact ⟨h, fun m _ => rfl⟩
  | operand =>
      simp only
      cases hNext : (SDMemory.operandsFor mach.ports st.readPorts k)[st.delivered k]? with
      | none => exact ⟨h, fun m _ => rfl⟩
      | some operand =>
          obtain ⟨hLess, hGet⟩ := List.getElem?_eq_some_iff.mp hNext
          have hType := h.types k hk operand (hGet ▸ List.getElem_mem hLess)
          have hTake : (st.operands mach k).take (st.delivered k + 1) =
              (st.operands mach k).take (st.delivered k) ++ [operand] := by
            rw [State.operands, List.take_add_one, hNext]
            rfl
          refine ⟨⟨h.types, fun m hm => ?_, ?_, fun m hm => ?_⟩, hOther _⟩
          · simp only
            rcases eq_or_ne m k with rfl | hNe
            · rw [Function.update_self]
              exact hLess
            · rw [Function.update_of_ne hNe]
              exact h.delivered m hm
          · apply (@MSNetwork.Streams.deliver _ _ _ _ k _ h.streams
                { data := operand.1, dataType := operand.2 } fun hTap =>
                  ⟨hFree hTap, hType⟩).congr
            · intro m _
              simp only
              rcases eq_or_ne m k with rfl | hNe
              · rw [Function.update_self, Function.update_self]
                change _ = activationsOf ((st.operands mach m).take (st.delivered m + 1))
                rw [hTake, activationsOf_append]
                congr 1
                cases hOp : operand.2 <;> simp [MSwitch.activations, activationsOf, hOp]
              · rw [Function.update_of_ne hNe, Function.update_of_ne hNe]
                rfl
            · intro m _
              simp only
              rcases eq_or_ne m k with rfl | hNe
              · rw [Function.update_self, Function.update_self]
                change _ = weightsOf ((st.operands mach m).take (st.delivered m + 1))
                rw [hTake, weightsOf_append]
                congr 1
                cases hOp : operand.2 <;> simp [MSwitch.weights, weightsOf, hOp]
              · rw [Function.update_of_ne hNe, Function.update_of_ne hNe]
                rfl
          · simp only
            rcases eq_or_ne m k with rfl | hNe
            · right
              refine ⟨{ data := operand.1, dataType := operand.2 }, ?_, ?_⟩
              · simp [Store.recv, Connections.store, Connections.send]
              · rw [Function.update_self]
                change ((st.operands mach m).take (st.delivered m + 1)).getLast? = _
                rw [hTake, List.getLast?_concat]
            · rw [Function.update_of_ne hNe]
              simp only [Store.recv, Connections.store, hOther _ m hNe]
              exact h.wire m hm
  | psum data =>
      simp only
      split
      · rename_i hPsum
        have hTap : ∀ m, plan.taps m = true → m ≠ k := by
          rintro m hm rfl
          obtain ⟨_, _, _, hFollows, -⟩ := (h.streams.taps m hm).2.follows
          rw [hFollows.psum] at hPsum
          cases hPsum
        refine ⟨⟨h.types, h.delivered, ?_, fun m hm => ?_⟩, hOther _⟩
        · apply (@MSNetwork.Streams.deliver _ _ _ _ k _ h.streams (psumPackage 0 data)
            fun hk => absurd rfl (hTap k hk)).congr
          · intro m hm
            rw [Function.update_of_ne (hTap m hm)]
            rfl
          · intro m hm
            rw [Function.update_of_ne (hTap m hm)]
            rfl
        · simp only [Store.recv, Connections.store, hOther _ m (hTap m hm)]
          exact h.wire m hm
      · exact ⟨h, fun m _ => rfl⟩

/-- A cycle keeps the machine in step, as long as the memory sends values of the plan. -/
theorem InStep.cycle (hPorts : mach.P ≤ mach.L) (hPlan : plan.Linked) {sig : Signals}
    {event : Bool × (Nat → Delivery)}
    (hFed : MSNetwork.Fed plan fun m =>
      activationsOf ((mach.cycle sig st event).operands mach m))
    (h : InStep mach plan st) : InStep mach plan (mach.cycle sig st event) := by
  have hDistributed : InStep mach plan (mach.distribute sig st event.1) := by
    have hTake : ∀ m < mach.numMs,
        ((mach.distribute sig st event.1).operands mach m).take (st.delivered m) =
          (st.operands mach m).take (st.delivered m) := by
      intro m hm
      obtain ⟨added, hAdded, -⟩ := operands_distribute hPorts sig st event.1 hm
      rw [hAdded, List.take_append_of_le_length (h.delivered m hm)]
    refine ⟨fun m hm operand hMem => ?_, fun m hm => ?_, ?_, fun m hm => ?_⟩
    · obtain ⟨added, hAdded, hTypes⟩ := operands_distribute hPorts sig st event.1 hm
      rw [hAdded] at hMem
      rcases List.mem_append.mp hMem with hOld | hNew
      · exact h.types m hm operand hOld
      · exact hTypes operand hNew
    · obtain ⟨added, hAdded, -⟩ := operands_distribute hPorts sig st event.1 hm
      rw [hAdded, List.length_append]
      exact (h.delivered m hm).trans (Nat.le_add_right _ _)
    · apply h.streams.congr
      · intro m hm
        exact congrArg activationsOf (hTake m (h.streams.taps m hm).1).symm
      · intro m hm
        exact congrArg weightsOf (hTake m (h.streams.taps m hm).1).symm
    · have hWire := h.wire m hm
      rwa [← hTake m (h.streams.taps m hm).1] at hWire
  have hFedNow : MSNetwork.Fed plan fun m => activationsOf
      (((mach.distribute sig st event.1).operands mach m).take (st.delivered m)) := by
    intro m hm
    refine (activationsOf_mono (List.take_prefix _ _)).trans ?_
    have hAll : activationsOf (SDMemory.operandsFor mach.ports
        (mach.cycle sig st event).readPorts m) <+: _ := hFed m hm
    rwa [(cycle_memory sig st event).2] at hAll
  have hSwept := hDistributed.streams.swept hPlan hFedNow
  have hSweep : ∀ k ≤ mach.numMs,
      let now := (List.range k).foldl (mach.deliver event.2)
        { mach.distribute sig st event.1 with
          msnet := MSNetwork.cycle mach.numMs (mach.distribute sig st event.1).msnet }
      InStep mach plan now ∧
        ∀ m, k ≤ m → plan.taps m = true → (now.msnet.2 (.input m)).content = none := by
    intro k hk
    induction k with
    | zero =>
        have hTaken : ∀ m, plan.taps m = true →
            ((MSNetwork.cycle mach.numMs (mach.distribute sig st event.1).msnet).2
              (.input m)).content = none := fun m hm =>
          hSwept.taken m (hSwept.streams.taps m hm).1 hm
        refine ⟨⟨hDistributed.types, hDistributed.delivered, hSwept.streams, fun m hm => Or.inl ?_⟩,
          fun m _ hm => hTaken m hm⟩
        simp [Store.recv, Connections.store, hTaken m hm]
    | succ k ih =>
        obtain ⟨hBefore, hFree⟩ := ih (by omega)
        obtain ⟨hNow, hOther⟩ := hBefore.deliver (show k < mach.numMs by omega)
          (hFree k le_rfl) event.2
        rw [List.range_succ, List.foldl_append, List.foldl_cons, List.foldl_nil]
        refine ⟨hNow, fun m hm hTap => ?_⟩
        rw [hOther m (by omega)]
        exact hFree m (by omega) hTap
  exact (hSweep mach.numMs le_rfl).1

/-- A plan for the signals of a machine. -/
structure Fits (mach : Maeri) (sig : Signals) (plan : StreamPlan) : Prop where
  folds : mach.nFolding = plan.folds
  windows : mach.layer.outY = plan.windows
  taps : ∀ m, plan.taps m = true ↔ CompilerMSN.forwardingPsumEnabled mach.tile m = some false
  receives : ∀ m, sig.fwReceive m = plan.receives m
  sends : ∀ m, sig.fwSend m = plan.sends m

theorem init_inStep {sig : Signals} (hTile : mach.tile.Accepted mach.numMs) (hPlan : plan.Linked)
    (hFits : Fits mach sig plan) : InStep mach plan (mach.init sig) := by
  have hOperands : ∀ m, (mach.init sig).operands mach m = [] := fun m => rfl
  refine ⟨fun m _ operand hMem => ?_, fun m _ => Nat.zero_le _, ⟨fun m hm => ?_, fun m hm => ?_⟩,
    fun m _ => Or.inl rfl⟩
  · rw [hOperands] at hMem
    cases hMem
  · have hPsum := (hFits.taps m).mp hm
    obtain ⟨v, t, hv, ht, rfl⟩ := CompilerMSN.forwardingPsumEnabled_eq_false_iff.mp hPsum
    have hUsed := Tile.multiplier_lt hv ht
    have hFolding : (CompilerMSN.nFoldingConfiguration mach.tile mach.nFolding
        (mach.tile.multiplier v t)).getD 0 = plan.folds := by
      rw [CompilerMSN.nFoldingConfiguration_eq, if_pos hUsed, hFits.folds]
      rfl
    refine ⟨hUsed.trans_le ((Nat.mul_comm _ _).trans_le hTile.fits),
      fun pck hMem => (by cases hMem), ⟨[], [], 0, ?_, rfl, fun _ => rfl, rfl⟩, fun _ => rfl⟩
    exact
      { direct := rfl
        psum := by simp [init, configureSignals, hPsum]
        nFolding := hFolding
        nWindows := hFits.windows
        inputForwarding := hFits.receives _
        outputForwarding := hFits.sends _
        popped := rfl
        bounded := Nat.zero_le _
        folding := (Nat.zero_mod _).symm
        window := by simp [init, configureSignals]
        activations := rfl
        link := fun _ => rfl
        fromLink := rfl
        weights := rfl
        flushes := (Nat.zero_div _).symm
        forwarded := rfl }
  · constructor
    · cases hReceives : plan.receives m with
      | true => simp [(hPlan.tap m hReceives).1] at hm
      | false => exact (hFits.receives m).trans hReceives
    · cases hSends : plan.sends m with
      | true =>
          cases m with
          | zero => simp [hPlan.first] at hSends
          | succ m => simp [(hPlan.tap m ((hPlan.neighbour m).mpr hSends)).2] at hm
      | false => exact (hFits.sends m).trans hSends

theorem run_append (sig : Signals) (events : List (Bool × (Nat → Delivery)))
    (event : Bool × (Nat → Delivery)) :
    mach.run sig (events ++ [event]) = mach.cycle sig (mach.run sig events) event := by
  rw [run, List.foldl_append]
  rfl

/-- What the memory sends in a run it has sent in every longer one. -/
theorem fed_of_append (hPorts : mach.P ≤ mach.L) {sig : Signals}
    (hTile : mach.tile.Accepted mach.numMs) (hFits : Fits mach sig plan)
    {events : List (Bool × (Nat → Delivery))} {event : Bool × (Nat → Delivery)}
    (hFed : MSNetwork.Fed plan fun m =>
      activationsOf ((mach.run sig (events ++ [event])).operands mach m)) :
    MSNetwork.Fed plan fun m => activationsOf ((mach.run sig events).operands mach m) := by
  intro m hm
  have hPsum := (hFits.taps m).mp hm
  obtain ⟨v, t, hv, ht, rfl⟩ := CompilerMSN.forwardingPsumEnabled_eq_false_iff.mp hPsum
  have hUsed : mach.tile.multiplier v t < mach.numMs := hTile.multiplier_lt hv ht
  obtain ⟨added, hAdded, -⟩ :=
    operands_distribute hPorts sig (mach.run sig events) event.1 hUsed
  refine (activationsOf_mono ?_).trans (hFed _ hm)
  rw [run_append, State.operands, State.operands, (cycle_memory sig _ event).2]
  exact ⟨added, hAdded.symm⟩

/-- In every run the multipliers follow the plan, as long as the memory does. -/
theorem run_inStep {sig : Signals} (hPorts : mach.P ≤ mach.L)
    (hTile : mach.tile.Accepted mach.numMs) (hPlan : plan.Linked) (hFits : Fits mach sig plan)
    (events : List (Bool × (Nat → Delivery)))
    (hFed : MSNetwork.Fed plan fun m => activationsOf ((mach.run sig events).operands mach m)) :
    InStep mach plan (mach.run sig events) := by
  induction events using List.reverseRecOn with
  | nil => exact init_inStep hTile hPlan hFits
  | append_singleton events event ih =>
      rw [run_append]
      refine (ih (fed_of_append hPorts hTile hFits hFed)).cycle hPorts hPlan ?_
      rw [← run_append]
      exact hFed

end

end Maeri

end Stonne
