import Stonne.Tpu.Collect
import Stonne.Tpu.Control

/-!
# The run of a tile

`Running` ties the parts of the TPU together: after `σ` cycles of tile `t` the mesh
is in its closed form, the accumulators are one cycle behind, and the results that
were produced are in flight or written.  `Running.cycle` moves it by one cycle, and
`Idle.cycle` starts a tile from the state in which the controller reconfigures.

The last result of a tile leaves nothing behind.  `Running.idle` concludes that
every fifo and every connection is empty when the controller reconfigures, and
`systolic_pairing` states what holds of the elements in every reachable state.
-/

namespace Stonne

open Dataflow

namespace Tpu

/-- The TPU after `σ` cycles of tile `t`, in which `results` came back to the memory
after the stores `earlier`. -/
structure Running (cfg : Config) (layer : GemmLayer) (output : Nat → Int) (t σ : Nat)
    (earlier : List (Nat × Int)) (results : List DataPackage) (s : Tpu) : Prop where
  started : 1 ≤ σ
  wavefront : Wavefront cfg layer t σ s
  productsSent : ProductsSent cfg layer t σ s
  reads : ∀ port < cfg.nReadPorts, s.conns.store.content (.read port) = none
  summing : Summing cfg layer t σ s
  bus : BusReady cfg s
  balance : inFlight cfg s + (results : Multiset DataPackage) = layer.results cfg t σ
  /-- When no line of the bus forwards anything, only the newest results are on their way. -/
  moving : s.arrivals cfg = [] →
    inFlight cfg s + layer.results cfg t (σ - 1) = layer.results cfg t σ
  written : s.mem.Written layer output t earlier results
  controlled : s.mem.Controlled layer t σ (decide (results.length = layer.tileSize t))
  ports : ∀ port, s.mem.readPorts port = {}
  writeFifo : s.mem.writeFifo = []
  failed : s.failed = false

section

variable {cfg : Config} {layer : GemmLayer} {s : Tpu} {t σ : Nat}
  {results : List DataPackage}

/-- The TPU in front of the transfers of a cycle: the operands of the cycle are in
the ports. -/
private structure Issued (cfg : Config) (layer : GemmLayer) (t σ : Nat)
    (results : List DataPackage) (s : Tpu) : Prop where
  wavefront : Wavefront cfg layer t σ s
  productsSent : ProductsSent cfg layer t σ s
  reads : ∀ port < cfg.nReadPorts, s.conns.store.content (.read port) = none
  summing : Summing cfg layer t σ s
  bus : BusReady cfg s
  balance : inFlight cfg s + (results : Multiset DataPackage) = layer.results cfg t σ
  ports : ∀ port, s.mem.readPorts port =
    { inputFifo := layer.onRead cfg.msCols t σ port }

/-- The part of a cycle after the controller has issued its operands. -/
private def transfer (cfg : Config) (layer : GemmLayer) (s : Tpu) : Tpu :=
  (((((s.memTransfer cfg layer).busCycle cfg).rnCycle cfg).ltCycle).meshCycle cfg)

private theorem length_onRead (layer : GemmLayer) (msCols t σ port : Nat) :
    (layer.onRead msCols t σ port).length ≤ 1 := by
  unfold GemmLayer.onRead GemmLayer.issued
  split_ifs <;> simp <;> omega

/-- A port with at most one operand sends it. -/
private theorem next_operand {l : List DataPackage} (h : l.length ≤ 1) :
    ({ inputFifo := l } : ReadPort).next = ({}, l) := by
  rcases l with _ | ⟨pck, _ | ⟨pck', rest⟩⟩
  · rfl
  · rfl
  · simp at h

private theorem onRead_of_le (hCfg : cfg.Valid) (hFits : TileFits cfg layer t) {port : Nat}
    (h : cfg.nReadPorts ≤ port) :
    layer.onRead cfg.msCols t σ port = [] := by
  have hPorts : cfg.nReadPorts = cfg.msRows + cfg.msCols := hCfg.ports
  have hRows := hFits.rows_le
  have hCols := hFits.cols_le
  have hNotTop : ¬port < layer.colsOf t := by omega
  have hNotLeft : ¬(cfg.msCols ≤ port ∧ port - cfg.msCols < layer.rowsOf t) := by omega
  simp [GemmLayer.onRead, hNotTop, hNotLeft]

private theorem Issued.transfer (hCfg : cfg.Valid) (hFits : TileFits cfg layer t)
    (hK : 1 ≤ layer.K) (h : Issued cfg layer t σ results s) :
    let s' := Tpu.transfer cfg layer s
    Wavefront cfg layer t (σ + 1) s' ∧ ProductsSent cfg layer t (σ + 1) s' ∧
      (∀ port < cfg.nReadPorts, s'.conns.store.content (.read port) = none) ∧
      Summing cfg layer t (σ + 1) s' ∧ BusReady cfg s' ∧
      inFlight cfg s' + (results ++ s.arrivals cfg : List DataPackage) =
        layer.results cfg t (σ + 1) ∧
      (s'.arrivals cfg = [] →
        inFlight cfg s' + layer.results cfg t σ = layer.results cfg t (σ + 1)) ∧
      ∀ port, s'.mem.readPorts port = {} := by
  intro s'
  set s₁ := s.memTransfer cfg layer with hs₁
  set s₂ := s₁.busCycle cfg with hs₂
  set s₃ := s₂.rnCycle cfg with hs₃
  obtain ⟨hBus₁, hFlight₁, hOutput⟩ := h.bus.memTransfer layer
  obtain ⟨hBus₂, hFlight₂, hInput, hMoving⟩ := hBus₁.busCycle hOutput
  obtain ⟨hBus₃, hFlight₃⟩ := hBus₂.rnCycle hCfg hInput
  have hs' : s' = s₃.meshCycle cfg := by
    have hLt := ltCycle_eq hBus₃.outputAS
    simp only [s', Tpu.transfer]
    rw [hLt]
  -- what the mesh and the accumulators find on their connections
  have hKept : ∀ w, (∀ port, w ≠ .read port) → w ∉ OSMeshSDMemory.writeConnections cfg →
      (∀ b i, w ≠ .busInput b i) → (∀ b, w ≠ .busOutput b) →
      s₂.conns.store.content w = s.conns.store.content w := by
    intro w hRead hWrite hIn hOut
    rw [hs₂, busCycle_content_of_ne hIn hOut, hs₁, memTransfer_content_of_ne hRead hWrite]
  have hMesh : ∀ w, (∀ port, w ≠ .read port) → w ∉ OSMeshSDMemory.writeConnections cfg →
      (∀ b i, w ≠ .busInput b i) → (∀ b, w ≠ .busOutput b) → (∀ n, w ≠ .rn n) →
      s₃.conns.store.content w = s.conns.store.content w := by
    intro w hRead hWrite hIn hOut hRn
    rw [hs₃, rnCycle_content_of_ne hRn (fun n _ => hIn _ _), hKept w hRead hWrite hIn hOut]
  have hFed : Fed cfg layer t σ s₃ := by
    refine ⟨⟨h.wavefront.elements, ?_, ?_⟩, ?_, ?_⟩
    · intro i hi j hj
      rw [hMesh _ (by simp) (by simp [OSMeshSDMemory.writeConnections]) (by simp) (by simp)
        (by simp)]
      exact h.wavefront.horizontal i hi j hj
    · intro i hi j hj
      rw [hMesh _ (by simp) (by simp [OSMeshSDMemory.writeConnections]) (by simp) (by simp)
        (by simp)]
      exact h.wavefront.vertical i hi j hj
    · intro port hPort
      have hPort : port < cfg.nReadPorts := hCfg.ports ▸ hPort
      rw [hs₃, rnCycle_content_of_ne (by simp) (by simp), hs₂,
        busCycle_content_of_ne (by simp) (by simp), hs₁,
        memTransfer_content_read hPort (h.reads port hPort), h.ports,
        next_operand (length_onRead layer cfg.msCols t σ port)]
    · intro n hn
      exact rnCycle_content_input hn
  have hSent : ProductsSent cfg layer t σ s₂ := by
    intro i hi j hj
    rw [hKept _ (by simp) (by simp [OSMeshSDMemory.writeConnections]) (by simp) (by simp)]
    exact h.productsSent i hi j hj
  have hSumming₂ : Summing cfg layer t σ s₂ :=
    ⟨h.summing.inputFifo, h.summing.outputFifo, h.summing.failed, h.summing.holds,
      h.summing.unused⟩
  obtain ⟨hSumming₃, hResults⟩ := hSumming₂.rnCycle hCfg hK hSent
  obtain ⟨hWavefront, hProducts, hReads⟩ := hFed.meshCycle hCfg hFits
  have hOutside : ∀ w, (∀ port, w ≠ .read port) → (∀ i j, w ≠ .horizontal i j) →
      (∀ i j, w ≠ .vertical i j) → (∀ n, w ≠ .rn n) →
      (s₃.meshCycle cfg).conns.store.content w = s₃.conns.store.content w :=
    fun w hRead hHorizontal hVertical hRn =>
      meshCycle_content_of_ne hCfg.ports hRead hHorizontal hVertical hRn
  have hFlight₄ : inFlight cfg (s₃.meshCycle cfg) = inFlight cfg s₃ := by
    have hIn : ∀ b i, (s₃.meshCycle cfg).conns.store.recv (.busInput b i) =
        s₃.conns.store.recv (.busInput b i) := fun b i => by
      simp only [Store.recv]
      rw [hOutside _ (by simp) (by simp) (by simp) (by simp)]
    have hOut : ∀ b, (s₃.meshCycle cfg).conns.store.recv (.busOutput b) =
        s₃.conns.store.recv (.busOutput b) := fun b => by
      simp only [Store.recv]
      rw [hOutside _ (by simp) (by simp) (by simp) (by simp)]
    have hLine : (s₃.meshCycle cfg).busLines = s₃.busLines := rfl
    simp only [inFlight, hIn, hOut, hLine]
  have hNew : ∑ n ∈ Finset.range (cfg.msRows * cfg.msCols),
      ((s₂.rnFire cfg n).2 : Multiset DataPackage) =
      ∑ i ∈ Finset.range cfg.msRows, ∑ j ∈ Finset.range cfg.msCols,
        (layer.onBusInput t σ i j : Multiset DataPackage) := by
    rw [sum_range_mul]
    refine Finset.sum_congr rfl fun i hi => Finset.sum_congr rfl fun j hj => ?_
    rw [hResults i (Finset.mem_range.mp hi) j (Finset.mem_range.mp hj)]
  rw [hs']
  refine ⟨hWavefront, hProducts, hReads, ?_, ?_, ?_, ?_, ?_⟩
  · exact ⟨hSumming₃.inputFifo, hSumming₃.outputFifo, hSumming₃.failed, hSumming₃.holds,
      hSumming₃.unused⟩
  · refine ⟨hBus₃.inRange, ?_, ?_, ?_⟩
    · intro b hb i hi hUnused
      rw [hOutside _ (by simp) (by simp) (by simp) (by simp)]
      exact hBus₃.unused b hb i hi hUnused
    · rw [hOutside _ (by simp) (by simp) (by simp) (by simp)]
      exact hBus₃.outputAS
    · rw [hOutside _ (by simp) (by simp) (by simp) (by simp)]
      exact hBus₃.outputLT
  · rw [hFlight₄, hFlight₃, hNew, hFlight₂, GemmLayer.results_succ, ← h.balance, ← hFlight₁,
      ← Multiset.coe_add]
    abel
  · intro hNone
    have hStill : inFlight cfg s₂ = 0 := by
      refine hMoving fun b hb => ?_
      have hSame : s₂.conns.store.recv (.busOutput b) =
          (s₃.meshCycle cfg).conns.store.recv (.busOutput b) := by
        simp only [Store.recv]
        rw [hOutside _ (by simp) (by simp) (by simp) (by simp), hs₃,
          rnCycle_content_of_ne (by simp) (by simp)]
      rw [hSame]
      refine List.flatMap_eq_nil_iff.mp hNone _ ?_
      simp [OSMeshSDMemory.writeConnections, hb]
    rw [hFlight₄, hFlight₃, hNew, hStill, GemmLayer.results_succ]
    abel
  · intro port
    by_cases hPort : port < cfg.nReadPorts
    · have hSend := OSMeshSDMemory.send_readPorts cfg
        (s.writtenMem cfg layer, (OSMeshSDMemory.receive cfg (s.mem, s.conns)).2) hPort
      rw [writtenMem_readPorts, h.ports,
        next_operand (length_onRead layer cfg.msCols t σ port)] at hSend
      exact hSend
    · have hSend := OSMeshSDMemory.send_readPorts_of_le cfg
        (s.writtenMem cfg layer, (OSMeshSDMemory.receive cfg (s.mem, s.conns)).2)
        (Nat.not_lt.mp hPort)
      rw [writtenMem_readPorts, h.ports, onRead_of_le hCfg hFits (Nat.not_lt.mp hPort)]
        at hSend
      exact hSend

/-- The controller after the transfers of a cycle. -/
private theorem transfer_mem (cfg : Config) (layer : GemmLayer) (h : s.mem.writeFifo = []) :
    ∃ ports, (Tpu.transfer cfg layer s).mem =
      { OSMeshSDMemory.transition layer
          ({ s.mem with writeFifo := s.arrivals cfg }.writeAll layer) with
        readPorts := ports } := by
  have hSame : (Tpu.transfer cfg layer s).mem = (s.memTransfer cfg layer).mem := by
    have hLt : ∀ s : Tpu, s.ltCycle.mem = s.mem := by
      intro s
      unfold ltCycle
      split <;> rfl
    simp only [Tpu.transfer, meshCycle, hLt]
    rfl
  rw [hSame]
  refine ⟨(s.memTransfer cfg layer).mem.readPorts, ?_⟩
  have hReceived := OSMeshSDMemory.receive_fst cfg s.mem s.conns
  rw [h, List.nil_append] at hReceived
  simp only [memTransfer, OSMeshSDMemory.send, hReceived]
  rfl

private theorem transfer_failed : (Tpu.transfer cfg layer s).failed = s.failed := by
  have hLt : ∀ s : Tpu, s.ltCycle.failed = s.failed := by
    intro s
    unfold ltCycle
    split <;> rfl
  simp only [Tpu.transfer, meshCycle, hLt]
  rfl

/-- What comes back never exceeds what the tile still owes. -/
private theorem Issued.arrivals_le (hFits : TileFits cfg layer t)
    (h : Issued cfg layer t σ results s) :
    results.length + (s.arrivals cfg).length ≤ layer.tileSize t := by
  have hTaken := (h.bus.memTransfer layer).2.1
  have hAll := layer.results_le hFits.rows_le hFits.cols_le σ
  have hCard := Multiset.card_le_card hAll
  rw [GemmLayer.card_tileResults, ← h.balance, ← hTaken] at hCard
  simp only [Multiset.card_add, Multiset.coe_card] at hCard
  omega

/-- Nothing comes back as long as operands are distributed. -/
private theorem Issued.arrivals_nil (hK : 1 ≤ layer.K) (hDist : σ ≤ layer.K)
    (h : Issued cfg layer t σ results s) :
    results = [] ∧ s.arrivals cfg = [] := by
  have hTaken := (h.bus.memTransfer layer).2.1
  have hNone := h.balance
  rw [layer.results_of_le hK cfg t hDist, ← hTaken] at hNone
  have hCard := congrArg Multiset.card hNone
  simp only [Multiset.card_add, Multiset.coe_card, Multiset.card_zero] at hCard
  exact ⟨List.length_eq_zero_iff.mp (by omega), List.length_eq_zero_iff.mp (by omega)⟩

/-- The next cycle of the tile, from the state behind the issue of the operands. -/
private theorem Issued.running {earlier : List (Nat × Int)} {output : Nat → Int}
    (hCfg : cfg.Valid) (hFits : TileFits cfg layer t) (hK : 1 ≤ layer.K)
    (h : Issued cfg layer t σ results s) (hFifo : s.mem.writeFifo = [])
    (hFailed : s.failed = false)
    (hRoom : earlier.length + layer.tileSize t ≤ layer.M * layer.N)
    (hOpen : results.length < layer.tileSize t)
    (hWritten : s.mem.Written layer output t earlier results)
    (hControlled : ∀ mem' : OSMeshSDMemory, mem'.frame = s.mem.frame →
      mem'.iterationCompleted =
        (s.mem.iterationCompleted ||
          (decide (results.length + (s.arrivals cfg).length = layer.tileSize t) &&
            decide (s.mem.currentState = .osWaitingForNextIter))) →
      OSMeshSDMemory.Controlled layer t (σ + 1)
        (decide (results.length + (s.arrivals cfg).length = layer.tileSize t))
        (OSMeshSDMemory.transition layer mem')) :
    Running cfg layer output t (σ + 1) earlier (results ++ s.arrivals cfg)
      (Tpu.transfer cfg layer s) := by
  obtain ⟨hWavefront, hProducts, hReads, hSumming, hBus, hBalance, hMoving, hPorts⟩ :=
    h.transfer hCfg hFits hK
  obtain ⟨hAfter, hFlag⟩ := hWritten.writeAll hRoom hOpen (h.arrivals_le hFits)
  have hMoved := hControlled _ (OSMeshSDMemory.frame_writeAll layer
    { s.mem with writeFifo := s.arrivals cfg }) hFlag
  have hStored := hAfter.transition
  obtain ⟨ports, hMem⟩ := transfer_mem cfg layer hFifo
  refine ⟨by omega, hWavefront, hProducts, hReads, hSumming, hBus, hBalance, hMoving, ?_, ?_,
    hPorts, ?_, ?_⟩
  · rw [hMem]
    exact ⟨hStored.rowsUsed, hStored.colsUsed, hStored.writes, hStored.outputAddress,
      hStored.currentOutput, hStored.executionFinished, hStored.currentOutputIteration,
      hStored.nIterationsCompleted⟩
  · rw [hMem, List.length_append]
    exact ⟨hMoved.currentState, hMoved.currentK, hMoved.currentN, hMoved.currentM,
      hMoved.iterationCompleted, hMoved.nReconfigurations⟩
  · rw [hMem]
    exact (OSMeshSDMemory.transition_writeFifo layer _).trans
      (OSMeshSDMemory.writeAll_writeFifo layer _)
  · rw [transfer_failed, hFailed]

private theorem cycle_eq : s.cycle cfg layer = Tpu.transfer cfg layer (s.memIssue cfg layer) :=
  rfl

/-- One cycle of a tile that still waits for results. -/
theorem Running.cycle {earlier : List (Nat × Int)} {output : Nat → Int}
    (hCfg : cfg.Valid) (hFits : TileFits cfg layer t) (hK : 1 ≤ layer.K)
    (hN : 0 < layer.iterN)
    (hRoom : earlier.length + layer.tileSize t ≤ layer.M * layer.N)
    (hOpen : results.length < layer.tileSize t)
    (h : Running cfg layer output t σ earlier results s) :
    Running cfg layer output t (σ + 1) earlier (results ++ s.arrivals cfg)
      (s.cycle cfg layer) := by
  have hNotDone : decide (results.length = layer.tileSize t) = false := by
    rw [decide_eq_false_iff_not]
    omega
  have hControlled := h.controlled
  rw [hNotDone] at hControlled
  rw [cycle_eq]
  by_cases hDist : σ ≤ layer.K
  · have hState : s.mem.currentState = .osDistInputs := by
      rw [hControlled.currentState, OSMeshSDMemory.controlState, if_pos hDist]
    have hIssue : s.memIssue cfg layer = { s with mem := s.mem.distInputs cfg layer } := by
      simp [memIssue, hState]
    have hPorts := OSMeshSDMemory.distributedPorts_port hCfg h.started hDist hFits.cols_le
      hControlled h.written.rowsUsed h.written.colsUsed h.ports
    have hIssued : Issued cfg layer t σ results
        { s with mem := s.mem.distInputs cfg layer } :=
      { wavefront := ⟨h.wavefront.elements, h.wavefront.horizontal, h.wavefront.vertical⟩
        productsSent := h.productsSent
        reads := h.reads
        summing := ⟨h.summing.inputFifo, h.summing.outputFifo, h.summing.failed,
          h.summing.holds, h.summing.unused⟩
        bus := ⟨h.bus.inRange, h.bus.unused, h.bus.outputAS, h.bus.outputLT⟩
        balance := h.balance
        ports := fun port => by
          have hFrame := congrArg OSMeshSDMemory.Frame.readPorts
            (OSMeshSDMemory.frame_distInputs cfg layer s.mem)
          exact (congrFun hFrame port).trans (hPorts port) }
    obtain ⟨hResults, hArrivals⟩ := hIssued.arrivals_nil hK hDist
    rw [hIssue]
    refine hIssued.running hCfg hFits hK ?_ h.failed hRoom hOpen
      (h.written.distInputs cfg) ?_
    · have hSame : (s.mem.distInputs cfg layer).writeFifo = s.mem.writeFifo := by
        unfold OSMeshSDMemory.distInputs OSMeshSDMemory.advance
        simp only
        split
        · split <;> rfl
        · rfl
      exact hSame.trans h.writeFifo
    · intro mem' hFrame hFlag
      have hPositive : ¬0 = layer.tileSize t := by
        have := hOpen
        omega
      rw [hArrivals, hResults] at hFlag ⊢
      simp only [List.length_nil, Nat.add_zero, hPositive, decide_false, Bool.false_and,
        Bool.or_false] at hFlag ⊢
      refine OSMeshSDMemory.Controlled.dist hN h.started hDist hControlled ?_ ?_
      · have hKept := congrArg OSMeshSDMemory.Frame.readPorts hFrame
        rw [hFrame, OSMeshSDMemory.frame_distInputs]
        rw [OSMeshSDMemory.frame_distInputs] at hKept
        exact congrArg (fun ports => { (s.mem.advance layer).frame with readPorts := ports })
          hKept.symm
      · exact hFlag.trans (OSMeshSDMemory.distInputs_iterationCompleted cfg layer s.mem)
  · have hState : s.mem.currentState = .osWaitingForNextIter ∨
        s.mem.currentState = .osAllDataSent := by
      rw [hControlled.currentState, OSMeshSDMemory.controlState, if_neg hDist]
      by_cases hLast : OSMeshSDMemory.LastTile layer t
      · simp [hLast]
      · simp [hLast]
    have hIssue : s.memIssue cfg layer = s := by
      rcases hState with hState | hState <;> simp [memIssue, hState]
    have hAll : layer.issued σ = layer.K ∧ layer.issued (σ + 1) = layer.K := by
      unfold GemmLayer.issued
      omega
    have hIssued : Issued cfg layer t σ results s :=
      { wavefront := h.wavefront
        productsSent := h.productsSent
        reads := h.reads
        summing := h.summing
        bus := h.bus
        balance := h.balance
        ports := fun port => by
          rw [h.ports port]
          simp [GemmLayer.onRead, hAll.1, hAll.2] }
    rw [hIssue]
    refine hIssued.running hCfg hFits hK h.writeFifo h.failed hRoom hOpen h.written ?_
    intro mem' hFrame hFlag
    exact hControlled.wait (Nat.lt_of_not_le hDist) hFrame hFlag

/-! ## Between two tiles -/

/-- The TPU in front of tile `t`, with the stores `earlier` behind it: nothing is left
of the tiles before. -/
structure Idle (cfg : Config) (layer : GemmLayer) (output : Nat → Int) (t : Nat)
    (earlier : List (Nat × Int)) (s : Tpu) : Prop where
  currentState : s.mem.currentState = .osConfiguring
  currentM : s.mem.currentM = layer.tileRow t
  currentN : s.mem.currentN = layer.tileCol t
  currentK : s.mem.currentK = 0
  nReconfigurations : s.mem.nReconfigurations = t
  writes : s.mem.writes = earlier
  outputAddress : s.mem.outputAddress = OSMeshSDMemory.applyWrites output s.mem.writes
  currentOutput : s.mem.currentOutput = s.mem.writes.length
  executionFinished :
    s.mem.executionFinished = decide (s.mem.writes.length = layer.M * layer.N)
  currentOutputIteration : s.mem.currentOutputIteration = 0
  nIterationsCompleted : s.mem.nIterationsCompleted = t
  ports : ∀ port, s.mem.readPorts port = {}
  writeFifo : s.mem.writeFifo = []
  failed : s.failed = false
  elements : ∀ i < cfg.msRows, ∀ j < cfg.msCols,
    (s.mswitchtable (i, j)).Settled ∧ (s.mswitchtable (i, j)).Drained
  horizontal : ∀ i < cfg.msRows, ∀ j, j + 1 < cfg.msCols →
    s.conns.store.content (.horizontal i (j + 1)) = none
  vertical : ∀ i, i + 1 < cfg.msRows → ∀ j < cfg.msCols,
    s.conns.store.content (.vertical (i + 1) j) = none
  rn : ∀ i < cfg.msRows, ∀ j < cfg.msCols,
    s.conns.store.content (.rn (i * cfg.msCols + j)) = none
  reads : ∀ port < cfg.nReadPorts, s.conns.store.content (.read port) = none
  accumulators : ∀ n < cfg.msRows * cfg.msCols,
    (s.accumulatortable n).inputFifo = [] ∧ (s.accumulatortable n).outputFifo = [] ∧
      (s.accumulatortable n).failed = false ∧ (s.accumulatortable n).currentPsum = 0
  bus : BusReady cfg s
  inFlight : inFlight cfg s = 0

theorem init_idle (hCfg : cfg.Valid) (layer : GemmLayer) (output : Nat → Int)
    (hM : 1 ≤ layer.M) (hN : 1 ≤ layer.N) :
    Idle cfg layer output 0 [] (init output) where
  currentState := rfl
  currentM := by simp [init, GemmLayer.tileRow]
  currentN := by simp [init, GemmLayer.tileCol]
  currentK := rfl
  nReconfigurations := rfl
  writes := rfl
  outputAddress := rfl
  currentOutput := rfl
  executionFinished := by
    have hPos : 0 < layer.M * layer.N := Nat.mul_pos hM hN
    have hNot : ¬0 = layer.M * layer.N := by omega
    simp [init, hNot]
  currentOutputIteration := rfl
  nIterationsCompleted := rfl
  ports _ := rfl
  writeFifo := rfl
  failed := rfl
  elements _ _ _ _ := ⟨⟨rfl, rfl⟩, ⟨rfl, rfl, rfl, rfl⟩⟩
  horizontal _ _ _ _ := rfl
  vertical _ _ _ _ := rfl
  rn _ _ _ _ := rfl
  reads _ _ := rfl
  accumulators _ _ := ⟨rfl, rfl, rfl, rfl⟩
  bus :=
    { inRange := fun _ _ => by
        have hFirst := Config.inputID_lt hCfg (Nat.mul_pos hCfg.rows hCfg.cols)
        rw [Nat.zero_div] at hFirst
        exact hFirst
      unused := fun _ _ _ _ _ => rfl
      outputAS := rfl
      outputLT := rfl }
  inFlight := by
    have hNone : ∀ w, (init output).conns.store.recv w = [] := fun _ => rfl
    have hLine : ∀ b n, ((init output).busLines b).waiting n = 0 := fun b n =>
      Finset.sum_eq_zero fun _ _ => rfl
    simp [Tpu.inFlight, hNone, hLine]

/-- The cycle that configures tile `t`. -/
theorem Idle.cycle {earlier : List (Nat × Int)} {output : Nat → Int}
    (hCfg : cfg.Valid) (hFits : TileFits cfg layer t) (hK : 1 ≤ layer.K)
    (hRoom : earlier.length + layer.tileSize t ≤ layer.M * layer.N)
    (h : Idle cfg layer output t earlier s) :
    Running cfg layer output t 1 earlier [] (s.cycle cfg layer) := by
  have hIssue : s.memIssue cfg layer = s.configure cfg layer := by
    simp [memIssue, h.currentState]
  have hRowsUsed : OSMeshSDMemory.nextRowsUsed layer s.mem = layer.rowsOf t := by
    simp [OSMeshSDMemory.nextRowsUsed, GemmLayer.rowsOf, h.currentM]
  have hColsUsed : OSMeshSDMemory.nextColsUsed layer s.mem = layer.colsOf t := by
    simp [OSMeshSDMemory.nextColsUsed, GemmLayer.colsOf, h.currentN]
  have hAccepted : (s.configure cfg layer).failed = false := by
    have hRows := hFits.rows_le
    have hCols := hFits.cols_le
    simp [configure, CompilerMultiplierMesh.accepts, OSMeshSDMemory.nextTile, h.failed,
      hRowsUsed, hColsUsed, hRows, hCols]
  have hNone := layer.results_of_le hK cfg t (Nat.zero_le _)
  have hIssued : Issued cfg layer t 0 [] (s.configure cfg layer) :=
    { wavefront := configure_wavefront h.currentM h.currentN
        (fun i hi j hj => (h.elements i hi j hj).1) h.horizontal h.vertical
      productsSent := fun i hi j hj => by
        have hNil : layer.onRn t 0 i j = [] := by simp [GemmLayer.onRn]
        rw [hNil]
        exact h.rn i hi j hj
      reads := h.reads
      summing :=
        { inputFifo := fun n hn => (h.accumulators n hn).1
          outputFifo := fun n hn => (h.accumulators n hn).2.1
          failed := fun n hn => (h.accumulators n hn).2.2.1
          holds := fun i hi j hj _ => by
            have hStart : layer.popped (0 - 1) i j = 0 := by simp [GemmLayer.popped]
            rw [hStart]
            exact Accumulator.Holds.zero rfl rfl
              (h.accumulators _ (OSMeshMN.rn_lt hi hj)).2.2.1
          unused := fun _ _ _ _ _ => rfl }
      bus := ⟨h.bus.inRange, h.bus.unused, h.bus.outputAS, h.bus.outputLT⟩
      balance := by
        rw [hNone]
        exact (add_zero _).trans h.inFlight
      ports := fun port => by
        have hNil : layer.onRead cfg.msCols t 0 port = [] := by
          simp [GemmLayer.onRead, GemmLayer.issued]
        rw [hNil]
        exact h.ports port }
  have hPos : 0 < layer.tileSize t := Nat.mul_pos hFits.rows_pos hFits.cols_pos
  have hArrivals := (hIssued.arrivals_nil hK (Nat.zero_le _)).2
  have hNotDone : ¬0 = layer.tileSize t := by omega
  have hWritten : (s.configure cfg layer).mem.Written layer output t earlier [] :=
    { rowsUsed := hRowsUsed
      colsUsed := hColsUsed
      writes := by simp [configure, OSMeshSDMemory.configure, GemmLayer.storesOf, h.writes]
      outputAddress := h.outputAddress
      currentOutput := h.currentOutput
      executionFinished := h.executionFinished
      currentOutputIteration := by
        simp [configure, OSMeshSDMemory.configure, h.currentOutputIteration]
      nIterationsCompleted := by
        simp [configure, OSMeshSDMemory.configure, h.nIterationsCompleted, hNotDone] }
  have hNext := hIssued.running hCfg hFits hK h.writeFifo hAccepted hRoom hPos hWritten
    (by
      intro mem' hFrame hFlag
      have hOff : (s.configure cfg layer).mem.iterationCompleted = false := rfl
      simp only [hArrivals, List.length_nil, Nat.add_zero, hNotDone, decide_false,
        Bool.false_and, Bool.or_false, hOff] at hFlag ⊢
      refine OSMeshSDMemory.controlled_configure hK ?_ hFlag
      have hKept := congrArg OSMeshSDMemory.Frame.readPorts hFrame
      rw [hFrame]
      simp only [OSMeshSDMemory.frame, configure, OSMeshSDMemory.configure,
        h.currentState, h.currentM, h.currentN, h.currentK, h.nReconfigurations, hRowsUsed,
        hColsUsed] at hKept ⊢
      rw [hKept])
  rw [cycle_eq, hIssue]
  rw [hArrivals] at hNext
  exact hNext

/-- A tile whose results are all written has left the elements and the bus. -/
private theorem Running.complete {earlier : List (Nat × Int)} {output : Nat → Int}
    (hFits : TileFits cfg layer t) (h : Running cfg layer output t σ earlier results s)
    (hDone : results.length = layer.tileSize t) :
    inFlight cfg s = 0 ∧ ∀ i j, layer.Used t i j → layer.popped (σ - 1) i j = layer.K := by
  have hCard := congrArg Multiset.card h.balance
  rw [Multiset.card_add, Multiset.coe_card] at hCard
  have hLe := Multiset.card_le_card (layer.results_le hFits.rows_le hFits.cols_le σ)
  rw [GemmLayer.card_tileResults] at hLe
  refine ⟨Multiset.card_eq_zero.mp (by omega), fun i j hUsed => ?_⟩
  exact (layer.produced_of_card hFits.rows_le hFits.cols_le (by omega) hUsed).2

/-- When the controller reconfigures, everything of the finished tile is gone. -/
theorem Running.idle {earlier : List (Nat × Int)} {output : Nat → Int}
    (hCfg : cfg.Valid) (hFits : TileFits cfg layer t)
    (h : Running cfg layer output t σ earlier results s)
    (hDone : results.length = layer.tileSize t) (hMore : ¬OSMeshSDMemory.LastTile layer t) :
    Idle cfg layer output (t + 1) (earlier ++ layer.storesOf t results) s := by
  obtain ⟨hFlight, hAll⟩ := h.complete hFits hDone
  have hOver : layer.K < σ := by
    have hCorner := hAll 0 0 ⟨hFits.rows_pos, hFits.cols_pos⟩
    unfold GemmLayer.popped at hCorner
    have := h.started
    omega
  have hNotDist : ¬σ ≤ layer.K := Nat.not_le.mpr hOver
  have hNow : ∀ i j, layer.Used t i j → layer.popped σ i j = layer.K := by
    intro i j hUsed
    have hMono := layer.popped_mono (Nat.sub_le σ 1) i j
    have hLe := layer.popped_le σ i j
    rw [hAll i j hUsed] at hMono
    omega
  have hIssued : layer.issued σ ≤ layer.K := Nat.min_le_left _ _
  have hControlled := h.controlled
  exact
    { currentState := by
        rw [hControlled.currentState]
        simp [OSMeshSDMemory.controlState, hNotDist, hMore, hDone]
      currentM := by rw [hControlled.currentM, if_neg hNotDist]
      currentN := by rw [hControlled.currentN, if_neg hNotDist]
      currentK := by rw [hControlled.currentK, if_neg hNotDist]
      nReconfigurations := hControlled.nReconfigurations
      writes := h.written.writes
      outputAddress := h.written.outputAddress
      currentOutput := h.written.currentOutput
      executionFinished := h.written.executionFinished
      currentOutputIteration := by rw [h.written.currentOutputIteration, if_pos hDone]
      nIterationsCompleted := by rw [h.written.nIterationsCompleted, if_pos hDone]
      ports := h.ports
      writeFifo := h.writeFifo
      failed := h.failed
      elements := by
        intro i hi j hj
        rw [h.wavefront.elements i hi j hj]
        unfold GemmLayer.element
        split
        · rename_i hUsed
          refine ⟨⟨rfl, rfl⟩, ⟨?_, ?_, rfl, rfl⟩⟩
          · refine seg_of_le _ ?_
            rw [hNow i j hUsed]
            unfold GemmLayer.arrivedLeft
            split
            · exact hIssued
            · exact layer.popped_le σ i j
          · refine seg_of_le _ ?_
            rw [hNow i j hUsed]
            unfold GemmLayer.arrivedTop
            split
            · exact hIssued
            · exact layer.popped_le σ i j
        · exact ⟨⟨rfl, rfl⟩, ⟨rfl, rfl, rfl, rfl⟩⟩
      horizontal := by
        intro i hi j hj
        have hNil : layer.onHorizontal t σ i j = [] := by
          unfold GemmLayer.onHorizontal
          split
          · rename_i hUsed
            refine seg_of_le _ ?_
            rw [hNow i (j + 1) hUsed]
            exact layer.popped_le σ i j
          · rfl
        rw [h.wavefront.horizontal i hi j hj, hNil]
        rfl
      vertical := by
        intro i hi j hj
        have hNil : layer.onVertical t σ i j = [] := by
          unfold GemmLayer.onVertical
          split
          · rename_i hUsed
            refine seg_of_le _ ?_
            rw [hNow (i + 1) j hUsed]
            exact layer.popped_le σ i j
          · rfl
        rw [h.wavefront.vertical i hi j hj, hNil]
        rfl
      rn := by
        intro i hi j hj
        have hNil : layer.onRn t σ i j = [] := by
          unfold GemmLayer.onRn
          split
          · rename_i hUsed
            refine seg_of_le _ ?_
            rw [hAll i j hUsed]
            exact layer.popped_le σ i j
          · rfl
        rw [h.productsSent i hi j hj, hNil]
        rfl
      reads := h.reads
      accumulators := fun n hn =>
        ⟨h.summing.inputFifo n hn, h.summing.outputFifo n hn, h.summing.failed n hn,
          h.summing.currentPsum hCfg (fun i _ j _ hUsed => hAll i j hUsed) n hn⟩
      bus := h.bus
      inFlight := hFlight }

end

end Tpu

end Stonne
