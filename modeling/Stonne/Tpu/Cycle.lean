import Stonne.CollectionBus
import Stonne.Tpu.OSMeshSDMemory
import Stonne.Lib.Run

/-!
# The TPU and its cycle

`Stonne::cycle` runs the memory controller, the collection bus, the temporal
reduction network, the lookup table and the multiplier mesh, in this order, until
the controller reports that the execution is finished.
-/

namespace Stonne

open Dataflow

structure Tpu where
  mem : OSMeshSDMemory
  mswitchtable : OSMeshMN.Pos → MultiplierOS
  accumulatortable : Nat → Accumulator
  busLines : Nat → CollectionBusLine
  conns : Connections Wire
  /-- An assertion of `CompilerMultiplierMesh::configureSignals` has failed. -/
  failed : Bool := false

namespace Config

/-- The connections of `CollectionBus`, with `input_ports_bus_line` inputs a line. -/
def bus (cfg : Config) : Bus Wire where
  nBusLines := cfg.nWritePorts
  inputPortsBusLine :=
    cfg.msSize / cfg.nWritePorts + if cfg.msSize % cfg.nWritePorts ≠ 0 then 1 else 0
  inputConnection := .busInput
  outputPort := .busOutput

/-- The connections of `TemporalRN`: accumulator `i` feeds input `i / n` of line
`i % n` of a bus with `n` lines. -/
def temporalRN (cfg : Config) : AccumulationBuffer Wire where
  nAccumulators := cfg.msRows * cfg.msCols
  inputConnection := .rn
  outputConnection i := .busInput (i % cfg.nWritePorts) (i / cfg.nWritePorts)

end Config

namespace Tpu

/-- The state before the first cycle: everything is empty and the output memory
holds `output`. -/
def init (output : Nat → Int) : Tpu where
  mem := { outputAddress := output }
  mswitchtable _ := {}
  accumulatortable _ := {}
  busLines _ := {}
  conns := .idle

/-- The state `OS_CONFIGURING`: both networks are reset and configured for the next
tile. -/
def configure (cfg : Config) (layer : GemmLayer) (s : Tpu) : Tpu :=
  let tile := OSMeshSDMemory.nextTile layer s.mem
  { s with
    mem := s.mem.configure layer
    mswitchtable :=
      OSMeshMN.configureSignals cfg tile (OSMeshMN.resetSignals cfg s.mswitchtable)
    accumulatortable :=
      AccumulationBuffer.configureSignals layer.iterK
        (AccumulationBuffer.resetSignals s.accumulatortable)
    failed := s.failed || !CompilerMultiplierMesh.accepts cfg tile }

/-- The part of `OSMeshSDMemory::cycle` that depends on the state of the controller. -/
def memIssue (cfg : Config) (layer : GemmLayer) (s : Tpu) : Tpu :=
  match s.mem.currentState with
  | .osConfiguring => s.configure cfg layer
  | .osDistInputs => { s with mem := s.mem.distInputs cfg layer }
  | .osWaitingForNextIter => s
  | .osAllDataSent => s

/-- The rest of `OSMeshSDMemory::cycle`: results are received and written, the state
changes, and every read port sends. -/
def memTransfer (cfg : Config) (layer : GemmLayer) (s : Tpu) : Tpu :=
  let received := OSMeshSDMemory.receive cfg (s.mem, s.conns)
  let written := OSMeshSDMemory.transition layer (received.1.writeAll layer)
  let sent := OSMeshSDMemory.send cfg (written, received.2)
  { s with mem := sent.1, conns := sent.2 }

/-- `OSMeshSDMemory::cycle`. -/
def memCycle (cfg : Config) (layer : GemmLayer) (s : Tpu) : Tpu :=
  (s.memIssue cfg layer).memTransfer cfg layer

def busCycle (cfg : Config) (s : Tpu) : Tpu :=
  let r := cfg.bus.cycle (s.busLines, s.conns)
  { s with busLines := r.1, conns := r.2 }

def rnCycle (cfg : Config) (s : Tpu) : Tpu :=
  let r := cfg.temporalRN.cycle (s.accumulatortable, s.conns)
  { s with accumulatortable := r.1, conns := r.2 }

/-- `LookupTable::cycle`. -/
def ltCycle (s : Tpu) : Tpu :=
  if (s.conns .outputAS).existPendingData then
    let r := s.conns.receive .outputAS
    { s with conns := r.2.send .outputLT r.1 }
  else s

def meshCycle (cfg : Config) (s : Tpu) : Tpu :=
  let r := OSMeshMN.cycle cfg (s.mswitchtable, s.conns)
  { s with mswitchtable := r.1, conns := r.2 }

/-- One round of the loop of `Stonne::cycle`. -/
def cycle (cfg : Config) (layer : GemmLayer) (s : Tpu) : Tpu :=
  ((((s.memCycle cfg layer).busCycle cfg).rnCycle cfg).ltCycle).meshCycle cfg

def isExecutionFinished (s : Tpu) : Prop :=
  s.mem.executionFinished = true

instance : DecidablePred isExecutionFinished :=
  fun s => inferInstanceAs (Decidable (s.mem.executionFinished = true))

/-- The states of the loop of `Stonne::cycle`. -/
def Reachable (cfg : Config) (layer : GemmLayer) (output : Nat → Int) (s : Tpu) : Prop :=
  Dataflow.Reachable (cycle cfg layer) isExecutionFinished (init output) s

end Tpu

/-- A TPU whose mesh, bus and distribution network have matching sizes, with one
multiplier input per read port. -/
structure Config.Valid (cfg : Config) : Prop where
  rows : 0 < cfg.msRows
  cols : 0 < cfg.msCols
  size : cfg.msSize = cfg.msRows * cfg.msCols
  ports : cfg.OneInputPerPort
  writePorts : 0 < cfg.nWritePorts

/-- The configuration of a mesh with one read port per row and column. -/
def Config.mesh (rows cols writePorts : Nat) : Config where
  msSize := rows * cols
  msRows := rows
  msCols := cols
  nReadPorts := rows + cols
  nWritePorts := writePorts

theorem Config.mesh_valid {rows cols writePorts : Nat} (hRows : 0 < rows) (hCols : 0 < cols)
    (hPorts : 0 < writePorts) :
    (Config.mesh rows cols writePorts).Valid :=
  ⟨hRows, hCols, rfl, rfl, hPorts⟩

/-- A product and a spatial tile that fits the mesh. -/
structure GemmLayer.Admitted (layer : GemmLayer) (cfg : Config) : Prop where
  M_pos : 1 ≤ layer.M
  N_pos : 1 ≤ layer.N
  K_pos : 1 ≤ layer.K
  tM_pos : 1 ≤ layer.tM
  tN_pos : 1 ≤ layer.tN
  tM_le : layer.tM ≤ cfg.msRows
  tN_le : layer.tN ≤ cfg.msCols

theorem Config.bus_separate (cfg : Config) : cfg.bus.Separate where
  input _ _ _ _ h := by simpa [Config.bus] using h
  output _ _ h := by simpa [Config.bus] using h
  apart _ _ _ := by simp [Config.bus]

theorem Config.temporalRN_separate (cfg : Config) : cfg.temporalRN.Separate where
  input _ _ h := by simpa [Config.temporalRN] using h
  output i j h := by
    have hBoth : i % cfg.nWritePorts = j % cfg.nWritePorts ∧
        i / cfg.nWritePorts = j / cfg.nWritePorts := by
      simpa [Config.temporalRN] using h
    rw [← Nat.div_add_mod i cfg.nWritePorts, ← Nat.div_add_mod j cfg.nWritePorts,
      hBoth.1, hBoth.2]
  apart _ _ := by simp [Config.temporalRN]

/-- The bus has an input for every accumulator. -/
theorem Config.inputID_lt {cfg : Config} (h : cfg.Valid) {n : Nat}
    (hn : n < cfg.msRows * cfg.msCols) :
    n / cfg.nWritePorts < cfg.bus.inputPortsBusLine := by
  have hSplit := Nat.div_add_mod cfg.msSize cfg.nWritePorts
  have hLess := Nat.mod_lt cfg.msSize h.writePorts
  rw [Nat.div_lt_iff_lt_mul h.writePorts]
  have hn' : n < cfg.msSize := h.size ▸ hn
  simp only [Config.bus]
  split
  · rw [Nat.add_mul, Nat.mul_comm (cfg.msSize / cfg.nWritePorts)]
    omega
  · rw [Nat.add_zero, Nat.mul_comm]
    omega

namespace Tpu

section

variable {cfg : Config} {layer : GemmLayer} {s : Tpu}

/-! ## What the phases leave on the connections -/

/-- The controller after its results were written and its state changed. -/
def writtenMem (cfg : Config) (layer : GemmLayer) (s : Tpu) : OSMeshSDMemory :=
  OSMeshSDMemory.transition layer
    ((OSMeshSDMemory.receive cfg (s.mem, s.conns)).1.writeAll layer)

/-- Writing results changes the frame of the controller in its state only. -/
theorem writtenMem_frame (cfg : Config) (layer : GemmLayer) (s : Tpu) :
    (s.writtenMem cfg layer).frame =
      { s.mem.frame with currentState := (s.writtenMem cfg layer).currentState } := by
  rw [writtenMem, OSMeshSDMemory.frame_transition, OSMeshSDMemory.frame_writeAll,
    OSMeshSDMemory.receive_fst]
  rfl

theorem writtenMem_readPorts (cfg : Config) (layer : GemmLayer) (s : Tpu) :
    (s.writtenMem cfg layer).readPorts = s.mem.readPorts := by
  have hFrame := congrArg OSMeshSDMemory.Frame.readPorts (writtenMem_frame cfg layer s)
  exact hFrame

theorem memTransfer_content_read {port : Nat} (h : port < cfg.nReadPorts)
    (hEmpty : s.conns.store.content (.read port) = none) :
    (s.memTransfer cfg layer).conns.store.content (.read port) =
      filled (s.mem.readPorts port).next.2 := by
  rw [← writtenMem_readPorts cfg layer s]
  refine OSMeshSDMemory.send_content_read cfg _ h ?_
  simp [OSMeshSDMemory.receive_content, OSMeshSDMemory.writeConnections, hEmpty]

theorem memTransfer_content_write {w : Wire}
    (h : w ∈ OSMeshSDMemory.writeConnections cfg) :
    (s.memTransfer cfg layer).conns.store.content w = none := by
  have hNotRead : ∀ port < cfg.nReadPorts, w ≠ .read port := by
    rintro port - rfl
    simp [OSMeshSDMemory.writeConnections] at h
  simp only [memTransfer]
  rw [OSMeshSDMemory.send_content_of_ne cfg _ hNotRead, OSMeshSDMemory.receive_content,
    if_pos h]

theorem memTransfer_content_of_ne {w : Wire} (hRead : ∀ port, w ≠ .read port)
    (hWrite : w ∉ OSMeshSDMemory.writeConnections cfg) :
    (s.memTransfer cfg layer).conns.store.content w = s.conns.store.content w := by
  simp only [memTransfer]
  rw [OSMeshSDMemory.send_content_of_ne cfg _ fun port _ => hRead port,
    OSMeshSDMemory.receive_content, if_neg hWrite]

theorem memTransfer_clobbered
    (hEmpty : ∀ port < cfg.nReadPorts, s.conns.store.content (.read port) = none)
    (w : Wire) :
    (s.memTransfer cfg layer).conns.store.clobbered w = s.conns.store.clobbered w := by
  simp only [memTransfer]
  rw [OSMeshSDMemory.send_clobbered, OSMeshSDMemory.receive_clobbered]
  intro port hPort
  simp [OSMeshSDMemory.receive_content, OSMeshSDMemory.writeConnections,
    hEmpty port hPort]

@[simp]
theorem memIssue_conns : (s.memIssue cfg layer).conns = s.conns := by
  unfold memIssue
  split <;> rfl

/-- Line `b` of the bus in this cycle. -/
def busFire (cfg : Config) (s : Tpu) (b : Nat) : CollectionBusLine × List DataPackage :=
  cfg.bus.fireLine (s.busLines, s.conns) b

theorem busCycle_line {b : Nat} (hb : b < cfg.nWritePorts) :
    (s.busCycle cfg).busLines b = (s.busFire cfg b).1 :=
  Bus.cycle_line cfg.bus_separate hb

theorem busCycle_content_output {b : Nat} (hb : b < cfg.nWritePorts)
    (hEmpty : s.conns.store.content (.busOutput b) = none) :
    (s.busCycle cfg).conns.store.content (.busOutput b) = filled (s.busFire cfg b).2 :=
  Bus.cycle_content_output cfg.bus_separate hb hEmpty

theorem busCycle_content_input {b i : Nat} (hb : b < cfg.nWritePorts)
    (hi : i < cfg.bus.inputPortsBusLine) :
    (s.busCycle cfg).conns.store.content (.busInput b i) = none :=
  Bus.cycle_content_input cfg.bus_separate hb hi

theorem busCycle_content_of_ne {w : Wire} (hIn : ∀ b i, w ≠ .busInput b i)
    (hOut : ∀ b, w ≠ .busOutput b) :
    (s.busCycle cfg).conns.store.content w = s.conns.store.content w :=
  Bus.cycle_content_of_ne cfg.bus_separate hIn hOut

theorem busCycle_clobbered
    (hEmpty : ∀ b < cfg.nWritePorts, s.conns.store.content (.busOutput b) = none)
    (w : Wire) :
    (s.busCycle cfg).conns.store.clobbered w = s.conns.store.clobbered w :=
  @Bus.cycle_clobbered Wire _ cfg.bus (s.busLines, s.conns) cfg.bus_separate hEmpty w

/-- Accumulator `n` in this cycle. -/
def rnFire (cfg : Config) (s : Tpu) (n : Nat) : Accumulator × List DataPackage :=
  cfg.temporalRN.fireAccumulator (s.accumulatortable, s.conns) n

theorem rnCycle_accumulator {n : Nat} (hn : n < cfg.msRows * cfg.msCols) :
    (s.rnCycle cfg).accumulatortable n = (s.rnFire cfg n).1 :=
  AccumulationBuffer.cycle_accumulator cfg.temporalRN_separate hn

theorem rnCycle_content_output {n : Nat} (hn : n < cfg.msRows * cfg.msCols)
    (hEmpty : s.conns.store.content
      (.busInput (n % cfg.nWritePorts) (n / cfg.nWritePorts)) = none) :
    (s.rnCycle cfg).conns.store.content
        (.busInput (n % cfg.nWritePorts) (n / cfg.nWritePorts)) =
      filled (s.rnFire cfg n).2 :=
  AccumulationBuffer.cycle_content_output cfg.temporalRN_separate hn hEmpty

theorem rnCycle_content_input {n : Nat} (hn : n < cfg.msRows * cfg.msCols) :
    (s.rnCycle cfg).conns.store.content (.rn n) = none :=
  AccumulationBuffer.cycle_content_input cfg.temporalRN_separate hn

theorem rnCycle_content_of_ne {w : Wire} (hIn : ∀ n, w ≠ .rn n)
    (hOut : ∀ n < cfg.msRows * cfg.msCols,
      w ≠ .busInput (n % cfg.nWritePorts) (n / cfg.nWritePorts)) :
    (s.rnCycle cfg).conns.store.content w = s.conns.store.content w :=
  AccumulationBuffer.cycle_content_of_ne cfg.temporalRN_separate hIn hOut

theorem rnCycle_clobbered
    (hEmpty : ∀ n < cfg.msRows * cfg.msCols,
      s.conns.store.content (.busInput (n % cfg.nWritePorts) (n / cfg.nWritePorts)) = none)
    (w : Wire) :
    (s.rnCycle cfg).conns.store.clobbered w = s.conns.store.clobbered w :=
  @AccumulationBuffer.cycle_clobbered Wire _ cfg.temporalRN (s.accumulatortable, s.conns)
    cfg.temporalRN_separate hEmpty w

/-- The lookup table is idle as long as the reduction network does not use its own
output connection. -/
theorem ltCycle_eq (h : s.conns.store.content .outputAS = none) :
    s.ltCycle = s := by
  have hPending : (s.conns .outputAS).existPendingData = false := by
    rw [Connection.existPendingData_eq]
    simpa [Connections.store] using h
  simp [ltCycle, hPending]

/-- Element `p` of the mesh in this cycle. -/
def meshFire (cfg : Config) (s : Tpu) (p : OSMeshMN.Pos) :
    MultiplierOS × MultiplierOS.Output :=
  OSMeshMN.fireMs cfg (s.mswitchtable, s.conns) p

theorem meshCycle_ms (hPorts : cfg.OneInputPerPort) (p : OSMeshMN.Pos) :
    (s.meshCycle cfg).mswitchtable p =
      if p ∈ OSMeshMN.cycleOrder cfg then (s.meshFire cfg p).1 else s.mswitchtable p := by
  split
  · rename_i hp
    exact OSMeshMN.cycle_ms hPorts hp
  · rename_i hp
    exact OSMeshMN.cycle_ms_of_not_mem hPorts hp

section

variable (hPorts : cfg.OneInputPerPort)
include hPorts

theorem meshCycle_content_horizontal {i j : Nat} (hi : i < cfg.msRows)
    (hj : j + 1 < cfg.msCols) :
    (s.meshCycle cfg).conns.store.content (.horizontal i (j + 1)) =
      filled (s.meshFire cfg (i, j)).2.right :=
  OSMeshMN.cycle_content_horizontal hPorts hi hj

theorem meshCycle_content_vertical {i j : Nat} (hi : i + 1 < cfg.msRows)
    (hj : j < cfg.msCols) :
    (s.meshCycle cfg).conns.store.content (.vertical (i + 1) j) =
      filled (s.meshFire cfg (i, j)).2.bottom :=
  OSMeshMN.cycle_content_vertical hPorts hi hj

theorem meshCycle_content_rn {i j : Nat} (hi : i < cfg.msRows) (hj : j < cfg.msCols)
    (hEmpty : s.conns.store.content (.rn (i * cfg.msCols + j)) = none) :
    (s.meshCycle cfg).conns.store.content (.rn (i * cfg.msCols + j)) =
      filled (s.meshFire cfg (i, j)).2.accbuffer :=
  OSMeshMN.cycle_content_rn hPorts hi hj hEmpty

theorem meshCycle_content_of_ne {w : Wire} (hRead : ∀ port, w ≠ .read port)
    (hHorizontal : ∀ i j, w ≠ .horizontal i j) (hVertical : ∀ i j, w ≠ .vertical i j)
    (hRn : ∀ n, w ≠ .rn n) :
    (s.meshCycle cfg).conns.store.content w = s.conns.store.content w :=
  @OSMeshMN.cycle_content_of_ne cfg hPorts (s.mswitchtable, s.conns) w hRead hHorizontal
    hVertical hRn

theorem meshCycle_clobbered
    (hRight : ∀ i, i < cfg.msRows → ∀ j, j + 1 = cfg.msCols →
      (s.meshFire cfg (i, j)).2.right = [])
    (hBottom : ∀ i, i + 1 = cfg.msRows → ∀ j, j < cfg.msCols →
      (s.meshFire cfg (i, j)).2.bottom = [])
    (hRn : ∀ n < cfg.msRows * cfg.msCols, s.conns.store.content (.rn n) = none) (w : Wire) :
    (s.meshCycle cfg).conns.store.clobbered w = s.conns.store.clobbered w :=
  @OSMeshMN.cycle_clobbered cfg hPorts (s.mswitchtable, s.conns) hRight hBottom hRn w

end

end

end Tpu

end Stonne
