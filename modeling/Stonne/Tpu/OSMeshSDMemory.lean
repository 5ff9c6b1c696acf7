import Stonne.Tpu.OSMeshMN

/-!
# The output-stationary memory controller

`OSMeshSDMemory::cycle` is a state machine.  It configures the networks for a
tile, distributes one column of the activations and one row of the weights per
cycle, writes the results that come back from the bus, and waits for a tile to
finish before it configures the next.  The phases of the cycle are separate
definitions here, in the order of the source; the two that also change the
networks are composed in `Stonne.Tpu.Cycle`.

The log `writes` lists the address and the value of every store to the output.
No component reads it.
-/

namespace Stonne

open Dataflow

inductive OSMeshControllerState where
  | osConfiguring
  | osDistInputs
  | osWaitingForNextIter
  | osAllDataSent
  deriving DecidableEq, Repr

/-- What `setLayer` and `setTile` load: the dimensions of the product, the
operands and the spatial tile. -/
structure GemmLayer where
  M : Nat
  N : Nat
  K : Nat
  mkAddress : Nat → Int
  /-- Stored by columns: row `n` of this matrix is column `n` of the operand. -/
  knAddress : Nat → Int
  tM : Nat
  tN : Nat

namespace GemmLayer

def iterM (layer : GemmLayer) : Nat :=
  layer.M / layer.tM + if layer.M % layer.tM ≠ 0 then 1 else 0

def iterN (layer : GemmLayer) : Nat :=
  layer.N / layer.tN + if layer.N % layer.tN ≠ 0 then 1 else 0

def iterK (layer : GemmLayer) : Nat :=
  layer.K

end GemmLayer

/-- The two fifos of a read port. -/
structure ReadPort where
  inputFifo : Fifo := []
  psumFifo : Fifo := []

structure OSMeshSDMemory where
  currentState : OSMeshControllerState := .osConfiguring
  currentM : Nat := 0
  currentN : Nat := 0
  currentK : Nat := 0
  rowsUsed : Nat := 0
  colsUsed : Nat := 0
  iterationCompleted : Bool := false
  nIterationsCompleted : Nat := 0
  currentOutput : Nat := 0
  currentOutputIteration : Nat := 0
  executionFinished : Bool := false
  /-- `sdmemoryStats.n_reconfigurations`. -/
  nReconfigurations : Nat := 0
  readPorts : Nat → ReadPort := fun _ => {}
  writeFifo : Fifo := []
  vnatTable : Nat → Nat := fun _ => 0
  outputAddress : Nat → Int := fun _ => 0
  writes : List (Nat × Int) := []

namespace OSMeshSDMemory

/-- Pushing a package into a port: partial sums have a fifo of their own. -/
def pushPort (readPorts : Nat → ReadPort) (port : Nat) (pck : DataPackage) :
    Nat → ReadPort :=
  Function.update readPorts port
    (if pck.dataType = .psum then
      { readPorts port with psumFifo := (readPorts port).psumFifo ++ [pck] }
    else { readPorts port with inputFifo := (readPorts port).inputFifo ++ [pck] })

/-- The destinations of a multicast package behind one port. -/
def localDests (cfg : Config) (dests : List Bool) (port : Nat) : List Bool :=
  (List.range cfg.msSizePerPort).map fun j =>
    dests.getD (port * cfg.msSizePerPort + j) false

def sendPackageToInputFifos (cfg : Config) (readPorts : Nat → ReadPort)
    (pck : DataPackage) : Nat → ReadPort :=
  match pck.traffic with
  | .broadcast =>
      (List.range cfg.nReadPorts).foldl (fun ports i => pushPort ports i pck) readPorts
  | .unicast dest =>
      pushPort readPorts (dest / cfg.msSizePerPort)
        { pck with traffic := .unicast (dest % cfg.msSizePerPort) }
  | .multicast dests =>
      (List.range cfg.nReadPorts).foldl
        (fun ports i =>
          if (localDests cfg dests i).any id then
            pushPort ports i { pck with traffic := .multicast (localDests cfg dests i) }
          else ports)
        readPorts

/-- The extent of the next tile: what remains, but at most the tile size. -/
def nextRowsUsed (layer : GemmLayer) (mem : OSMeshSDMemory) : Nat :=
  min (layer.M - mem.currentM * layer.tM) layer.tM

def nextColsUsed (layer : GemmLayer) (mem : OSMeshSDMemory) : Nat :=
  min (layer.N - mem.currentN * layer.tN) layer.tN

/-- The tile handed to the networks: `Tile(1, 1, 1, cols_used, 1, 1, rows_used, 1, false)`. -/
def nextTile (layer : GemmLayer) (mem : OSMeshSDMemory) : Tile where
  tR := 1
  tS := 1
  tC := 1
  tK := nextColsUsed layer mem
  tG := 1
  tN := 1
  tX := nextRowsUsed layer mem
  tY := 1
  folding := false

/-- The controller's own part of the state `OS_CONFIGURING`. -/
def configure (layer : GemmLayer) (mem : OSMeshSDMemory) : OSMeshSDMemory :=
  { mem with
    nReconfigurations := mem.nReconfigurations + 1
    rowsUsed := nextRowsUsed layer mem
    colsUsed := nextColsUsed layer mem
    iterationCompleted := false }

/-- The package of weight `i` in this cycle, sent to column `i`. -/
def weightPackage (layer : GemmLayer) (mem : OSMeshSDMemory) (i : Nat) : DataPackage where
  data := layer.knAddress ((mem.currentN * layer.tN + i) * layer.K + mem.currentK)
  dataType := .weight
  traffic := .unicast i

/-- The package of activation `i` in this cycle, sent to row `i`. -/
def activationPackage (cfg : Config) (layer : GemmLayer) (mem : OSMeshSDMemory)
    (i : Nat) : DataPackage where
  data := layer.mkAddress ((mem.currentM * layer.tM + i) * layer.K + mem.currentK)
  dataType := .iactivation
  traffic := .unicast (i + cfg.msCols)

/-- The counters behind the distribution, `K` fastest, then `N`, then `M`. -/
def advance (layer : GemmLayer) (mem : OSMeshSDMemory) : OSMeshSDMemory :=
  if mem.currentK + 1 = layer.iterK then
    if mem.currentN + 1 = layer.iterN then
      { mem with
        currentK := 0
        currentN := 0
        currentM := mem.currentM + 1
        iterationCompleted := true }
    else
      { mem with
        currentK := 0
        currentN := mem.currentN + 1
        iterationCompleted := true }
  else { mem with currentK := mem.currentK + 1 }

/-- The ports after the weights and then the activations of this cycle were pushed. -/
def distributedPorts (cfg : Config) (layer : GemmLayer) (mem : OSMeshSDMemory) :
    Nat → ReadPort :=
  (List.range mem.rowsUsed).foldl
    (fun ports i => sendPackageToInputFifos cfg ports (activationPackage cfg layer mem i))
    ((List.range mem.colsUsed).foldl
      (fun ports i => sendPackageToInputFifos cfg ports (weightPackage layer mem i))
      mem.readPorts)

/-- The state `OS_DIST_INPUTS`. -/
def distInputs (cfg : Config) (layer : GemmLayer) (mem : OSMeshSDMemory) :
    OSMeshSDMemory :=
  advance layer { mem with readPorts := distributedPorts cfg layer mem }

/-- One round of the loops of `receive`. -/
def receiveFrom (st : OSMeshSDMemory × Connections Wire) (w : Wire) :
    OSMeshSDMemory × Connections Wire :=
  ({ st.1 with writeFifo := st.1.writeFifo ++ (st.2.receive w).1 }, (st.2.receive w).2)

/-- The connections that `receive` takes packages from: the lookup table, then every
write port. -/
def writeConnections (cfg : Config) : List Wire :=
  Wire.outputLT :: (List.range cfg.nWritePorts).map Wire.busOutput

/-- The two loops of `receive`. -/
def receive (cfg : Config) (st : OSMeshSDMemory × Connections Wire) :
    OSMeshSDMemory × Connections Wire :=
  (writeConnections cfg).foldl receiveFrom st

/-- The address of the result of neuron `vn` of the current tile. -/
def addrOffset (layer : GemmLayer) (mem : OSMeshSDMemory) (vn : Nat) : Nat :=
  (mem.nIterationsCompleted / layer.iterN * layer.tM + vn / mem.colsUsed) * layer.N +
    mem.nIterationsCompleted % layer.iterN * layer.tN + vn % mem.colsUsed

/-- The stores of one result. -/
def store (layer : GemmLayer) (mem : OSMeshSDMemory) (pck : DataPackage) :
    OSMeshSDMemory :=
  { mem with
    vnatTable := Function.update mem.vnatTable pck.vn (mem.vnatTable pck.vn + 1)
    outputAddress :=
      Function.update mem.outputAddress (addrOffset layer mem pck.vn) pck.data
    writes := mem.writes ++ [(addrOffset layer mem pck.vn, pck.data)] }

/-- The counting of one result, which may end the tile and the execution. -/
def count (layer : GemmLayer) (mem : OSMeshSDMemory) : OSMeshSDMemory :=
  let mem :=
    { mem with
      currentOutput := mem.currentOutput + 1
      executionFinished :=
        mem.executionFinished || decide (mem.currentOutput + 1 = layer.M * layer.N) }
  if mem.currentOutputIteration + 1 = mem.rowsUsed * mem.colsUsed then
    { mem with
      currentOutputIteration := 0
      nIterationsCompleted := mem.nIterationsCompleted + 1
      iterationCompleted :=
        mem.iterationCompleted || decide (mem.currentState = .osWaitingForNextIter) }
  else { mem with currentOutputIteration := mem.currentOutputIteration + 1 }

/-- One round of the write loop. -/
def writePackage (layer : GemmLayer) (mem : OSMeshSDMemory) (pck : DataPackage) :
    OSMeshSDMemory :=
  count layer (store layer mem pck)

/-- The write loop: its bound is the size of the fifo before the loop. -/
def writeAll (layer : GemmLayer) (mem : OSMeshSDMemory) : OSMeshSDMemory :=
  mem.writeFifo.foldl (writePackage layer) { mem with writeFifo := [] }

def transition (layer : GemmLayer) (mem : OSMeshSDMemory) : OSMeshSDMemory :=
  match mem.currentState with
  | .osConfiguring => { mem with currentState := .osDistInputs }
  | .osDistInputs =>
      if mem.iterationCompleted then
        if layer.iterM ≤ mem.currentM then { mem with currentState := .osAllDataSent }
        else
          { mem with currentState := .osWaitingForNextIter, iterationCompleted := false }
      else mem
  | .osWaitingForNextIter =>
      if mem.iterationCompleted then { mem with currentState := .osConfiguring } else mem
  | .osAllDataSent => mem

end OSMeshSDMemory

/-- What a read port sends in a cycle: a partial sum first, else an operand. -/
def ReadPort.next (port : ReadPort) : ReadPort × List DataPackage :=
  match port.psumFifo with
  | pck :: rest => ({ port with psumFifo := rest }, [pck])
  | [] =>
      match port.inputFifo with
      | pck :: rest => ({ port with inputFifo := rest }, [pck])
      | [] => (port, [])

namespace OSMeshSDMemory

private def portWiring : Wiring Nat Wire where
  ins _ := []
  outs port := [.read port]

private def portProgram : Program Nat Wire ReadPort DataPackage :=
  fun _ port _ => (port.next.1, fun _ => port.next.2)

/-- One round of the loop of `send`. -/
def sendPort (st : (Nat → ReadPort) × Connections Wire) (port : Nat) :
    (Nat → ReadPort) × Connections Wire :=
  (Function.update st.1 port (st.1 port).next.1,
    st.2.sendAll (.read port) (st.1 port).next.2)

def send (cfg : Config) (st : OSMeshSDMemory × Connections Wire) :
    OSMeshSDMemory × Connections Wire :=
  let r := (List.range cfg.nReadPorts).foldl sendPort (st.1.readPorts, st.2)
  ({ st.1 with readPorts := r.1 }, r.2)

private theorem sendPort_eq_visit (st : (Nat → ReadPort) × Connections Wire)
    (port : Nat) :
    toNet (sendPort st port) = visit portWiring portProgram (toNet st) port := by
  obtain ⟨ports, conns⟩ := st
  apply toNet_eq_visit
  · rfl
  · intro w
    rw [Connections.content_sendAll]
    simp [portWiring, portProgram, outbox, toNet]
  · intro w
    rw [Connections.overwritten_sendAll]
    simp [portWiring, portProgram, outbox, toNet]

private theorem portsReadersFirst {n : Nat} : portWiring.ReadersFirst (List.range n) :=
  List.pairwise_lt_range.imp fun {a b} h => by
    simp [Wiring.Independent, portWiring, Nat.ne_of_lt h, (Nat.ne_of_lt h).symm]

private theorem sendPorts_eq_step (cfg : Config)
    (st : (Nat → ReadPort) × Connections Wire) :
    toNet ((List.range cfg.nReadPorts).foldl sendPort st) =
      step portWiring portProgram (List.range cfg.nReadPorts) (toNet st) := by
  rw [← sweep_eq_step portsReadersFirst]
  exact (List.foldl_hom toNet fun st p => (sendPort_eq_visit st p).symm).symm

/-- What `send` leaves: every port sent the head of one of its fifos. -/
theorem send_readPorts (cfg : Config) (st : OSMeshSDMemory × Connections Wire)
    {port : Nat} (h : port < cfg.nReadPorts) :
    (send cfg st).1.readPorts port = (st.1.readPorts port).next.1 := by
  have hStep := congrArg (fun n => n.node port)
    (sendPorts_eq_step cfg (st.1.readPorts, st.2))
  rw [step_node _ (List.mem_range.mpr h)] at hStep
  exact hStep

theorem send_readPorts_of_le (cfg : Config) (st : OSMeshSDMemory × Connections Wire)
    {port : Nat} (h : cfg.nReadPorts ≤ port) :
    (send cfg st).1.readPorts port = st.1.readPorts port := by
  have hStep := congrArg (fun n => n.node port)
    (sendPorts_eq_step cfg (st.1.readPorts, st.2))
  have hNot : port ∉ List.range cfg.nReadPorts := by simpa using h
  rw [step_node_of_not_mem _ hNot] at hStep
  exact hStep

theorem send_content_read (cfg : Config) (st : OSMeshSDMemory × Connections Wire)
    {port : Nat} (h : port < cfg.nReadPorts)
    (hEmpty : st.2.store.content (.read port) = none) :
    (send cfg st).2.store.content (.read port) = filled (st.1.readPorts port).next.2 := by
  have hStep := congrArg (fun n => n.store.content (.read port))
    (sendPorts_eq_step cfg (st.1.readPorts, st.2))
  have hMem := List.mem_range.mpr h
  rw [step_content_of_writer portsReadersFirst hMem (by simp [portWiring])
    (Or.inr hEmpty)] at hStep
  exact hStep

theorem send_content_of_ne (cfg : Config) (st : OSMeshSDMemory × Connections Wire)
    {w : Wire} (h : ∀ port < cfg.nReadPorts, w ≠ .read port) :
    (send cfg st).2.store.content w = st.2.store.content w := by
  have hStep := congrArg (fun n => n.store.content w)
    (sendPorts_eq_step cfg (st.1.readPorts, st.2))
  have hNoWriter : ∀ port ∈ List.range cfg.nReadPorts, w ∉ portWiring.outs port := by
    intro port hPort
    simpa [portWiring] using h port (List.mem_range.mp hPort)
  have hNotDrained : ¬Drained portWiring (List.range cfg.nReadPorts) w := by
    simp [Drained, portWiring]
  rw [step_content_of_no_writer hNoWriter, if_neg hNotDrained] at hStep
  exact hStep

theorem send_clobbered (cfg : Config) (st : OSMeshSDMemory × Connections Wire)
    (hEmpty : ∀ port < cfg.nReadPorts, st.2.store.content (.read port) = none) (w : Wire) :
    (send cfg st).2.store.clobbered w = st.2.store.clobbered w := by
  have hStep := congrArg (fun n => n.store.clobbered w)
    (sendPorts_eq_step cfg (st.1.readPorts, st.2))
  rw [step_clobbered portsReadersFirst] at hStep
  · exact hStep
  · intro port hPort hw _
    have hEq : w = .read port := by simpa [portWiring] using hw
    exact Or.inr (hEq ▸ hEmpty port (List.mem_range.mp hPort))

private theorem writeConnections_nodup (cfg : Config) : (writeConnections cfg).Nodup := by
  refine List.nodup_cons.mpr ⟨by simp, ?_⟩
  exact List.nodup_range.map fun a b h => by simpa using h

private theorem receive_list (ws : List Wire) (hNodup : ws.Nodup)
    (mem : OSMeshSDMemory) (conns : Connections Wire) :
    let st := ws.foldl receiveFrom (mem, conns)
    st.1 = { mem with writeFifo := mem.writeFifo ++ ws.flatMap conns.store.recv } ∧
      (∀ w, st.2.store.content w = if w ∈ ws then none else conns.store.content w) ∧
      ∀ w, st.2.store.clobbered w = conns.store.clobbered w := by
  induction ws generalizing mem conns with
  | nil => simp
  | cons v ws ih =>
      obtain ⟨hFresh, hNodup⟩ := List.nodup_cons.mp hNodup
      obtain ⟨hMem, hContent, hClobbered⟩ := ih hNodup
        (receiveFrom (mem, conns) v).1 (receiveFrom (mem, conns) v).2
      have hRest : ws.flatMap (receiveFrom (mem, conns) v).2.store.recv =
          ws.flatMap conns.store.recv := by
        refine List.flatMap_congr fun w hw => ?_
        have hne : w ≠ v := fun h => hFresh (h ▸ hw)
        simp [Store.recv, Connections.store, receiveFrom, Connections.content_receive, hne]
      refine ⟨?_, ?_, ?_⟩
      · simp only [List.foldl_cons]
        rw [hMem, hRest]
        simp [receiveFrom, Connections.receive_fst]
      · intro w
        simp only [List.foldl_cons]
        rw [hContent]
        by_cases hw : w = v
        · simp [hw, receiveFrom, Connections.store, Connections.content_receive]
        · simp [hw, receiveFrom, Connections.store, Connections.content_receive]
      · intro w
        simp only [List.foldl_cons]
        rw [hClobbered]
        simp [receiveFrom, Connections.store, Connections.overwritten_receive]

theorem receive_fst (cfg : Config) (mem : OSMeshSDMemory) (conns : Connections Wire) :
    (receive cfg (mem, conns)).1 =
      { mem with
        writeFifo := mem.writeFifo ++ (writeConnections cfg).flatMap conns.store.recv } :=
  (receive_list _ (writeConnections_nodup cfg) mem conns).1

theorem receive_content (cfg : Config) (mem : OSMeshSDMemory) (conns : Connections Wire)
    (w : Wire) :
    (receive cfg (mem, conns)).2.store.content w =
      if w ∈ writeConnections cfg then none else conns.store.content w :=
  (receive_list _ (writeConnections_nodup cfg) mem conns).2.1 w

theorem receive_clobbered (cfg : Config) (mem : OSMeshSDMemory)
    (conns : Connections Wire) (w : Wire) :
    (receive cfg (mem, conns)).2.store.clobbered w = conns.store.clobbered w :=
  (receive_list _ (writeConnections_nodup cfg) mem conns).2.2 w

/-! ## What the phases leave unchanged -/

/-- The part of the controller that the write loop does not touch. -/
structure Frame where
  currentState : OSMeshControllerState
  currentM : Nat
  currentN : Nat
  currentK : Nat
  rowsUsed : Nat
  colsUsed : Nat
  nReconfigurations : Nat
  readPorts : Nat → ReadPort

def frame (mem : OSMeshSDMemory) : Frame where
  currentState := mem.currentState
  currentM := mem.currentM
  currentN := mem.currentN
  currentK := mem.currentK
  rowsUsed := mem.rowsUsed
  colsUsed := mem.colsUsed
  nReconfigurations := mem.nReconfigurations
  readPorts := mem.readPorts

theorem frame_writePackage (layer : GemmLayer) (mem : OSMeshSDMemory)
    (pck : DataPackage) :
    (writePackage layer mem pck).frame = mem.frame := by
  by_cases hLast : mem.currentOutputIteration + 1 = mem.rowsUsed * mem.colsUsed
  · simp [writePackage, count, store, frame, hLast]
  · simp [writePackage, count, store, frame, hLast]

theorem frame_foldl_writePackage (layer : GemmLayer) (pcks : List DataPackage)
    (mem : OSMeshSDMemory) :
    (pcks.foldl (writePackage layer) mem).frame = mem.frame := by
  induction pcks generalizing mem with
  | nil => rfl
  | cons pck pcks ih => rw [List.foldl_cons, ih, frame_writePackage]

theorem frame_writeAll (layer : GemmLayer) (mem : OSMeshSDMemory) :
    (mem.writeAll layer).frame = mem.frame :=
  frame_foldl_writePackage layer _ _

theorem writeAll_writeFifo (layer : GemmLayer) (mem : OSMeshSDMemory) :
    (mem.writeAll layer).writeFifo = [] := by
  have hKept : ∀ pcks : List DataPackage, ∀ mem : OSMeshSDMemory,
      (pcks.foldl (writePackage layer) mem).writeFifo = mem.writeFifo := by
    intro pcks
    induction pcks with
    | nil => exact fun _ => rfl
    | cons pck pcks ih =>
        intro mem
        rw [List.foldl_cons, ih]
        unfold writePackage count
        simp only
        split <;> rfl
  exact hKept _ _

theorem transition_writeFifo (layer : GemmLayer) (mem : OSMeshSDMemory) :
    (transition layer mem).writeFifo = mem.writeFifo := by
  unfold transition
  split
  · rfl
  · split
    · split <;> rfl
    · rfl
  · split <;> rfl
  · rfl

/-- The distribution changes the counters and the ports of the frame. -/
theorem frame_distInputs (cfg : Config) (layer : GemmLayer) (mem : OSMeshSDMemory) :
    (mem.distInputs cfg layer).frame =
      { (mem.advance layer).frame with readPorts := mem.distributedPorts cfg layer } := by
  unfold distInputs advance
  simp only
  split
  · split <;> rfl
  · rfl

/-- A state change is all that a transition does to the frame. -/
theorem frame_transition (layer : GemmLayer) (mem : OSMeshSDMemory) :
    (transition layer mem).frame =
      { mem.frame with currentState := (transition layer mem).currentState } := by
  unfold transition
  rcases mem.currentState with _ | _ | _ | _
  · rfl
  · simp only
    split
    · split <;> rfl
    · rfl
  · simp only
    split <;> rfl
  · rfl

end OSMeshSDMemory

end Stonne
