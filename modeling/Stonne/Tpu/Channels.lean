import Stonne.Tpu.Cycle

/-!
# No connection of the TPU is overwritten

Every connection inside the machine is drained by its reader earlier in the same
cycle than its writer sends: the mesh reads before it sends, the accumulators run
before the mesh, the bus before the accumulators and the memory before the bus.
The read connections are the other way round.  The memory sends first and the mesh
has taken everything at the end of the cycle.  `Clean` is the invariant behind
this, and it needs no fact about the data.
-/

namespace Stonne

open Dataflow

namespace Tpu

/-- The state between two cycles: nothing was overwritten, the read connections are
empty, and no element is told to forward over the edge of the mesh. -/
structure Clean (cfg : Config) (s : Tpu) : Prop where
  notOverwritten : ∀ w, s.conns.store.clobbered w = false
  read : ∀ port < cfg.nReadPorts, s.conns.store.content (.read port) = none
  outputAS : s.conns.store.content .outputAS = none
  rightFifo : ∀ p, (s.mswitchtable p).rightFifo = []
  bottomFifo : ∀ p, (s.mswitchtable p).bottomFifo = []
  right : ∀ i j, i < cfg.msRows → j + 1 = cfg.msCols →
    (s.mswitchtable (i, j)).forwardRight = false
  bottom : ∀ i j, i + 1 = cfg.msRows → j < cfg.msCols →
    (s.mswitchtable (i, j)).forwardBottom = false

theorem init_clean (cfg : Config) (output : Nat → Int) : (init output).Clean cfg where
  notOverwritten _ := rfl
  read _ _ := rfl
  outputAS := rfl
  rightFifo _ := rfl
  bottomFifo _ := rfl
  right _ _ _ _ := rfl
  bottom _ _ _ _ := rfl

section

variable {cfg : Config} {layer : GemmLayer} {s : Tpu}

/-- Configuring a tile that fits the mesh keeps the forwarding inside it. -/
private theorem Clean.memIssue (hRows : layer.tM ≤ cfg.msRows)
    (hCols : layer.tN ≤ cfg.msCols) (h : s.Clean cfg) :
    (s.memIssue cfg layer).Clean cfg := by
  unfold Tpu.memIssue
  split
  · have hRowsUsed : OSMeshSDMemory.nextRowsUsed layer s.mem ≤ cfg.msRows :=
      (Nat.min_le_right _ _).trans hRows
    have hColsUsed : OSMeshSDMemory.nextColsUsed layer s.mem ≤ cfg.msCols :=
      (Nat.min_le_right _ _).trans hCols
    exact
      { notOverwritten := h.notOverwritten
        read := h.read
        outputAS := h.outputAS
        rightFifo := by
          intro p
          by_cases hp : p.1 < cfg.msRows ∧ p.2 < cfg.msCols
          · simp [configure, OSMeshMN.configureSignals, OSMeshMN.resetSignals, hp,
              MultiplierOS.setVirtualNeuron, MultiplierOS.configureRightSignal,
              MultiplierOS.configureBottomSignal, MultiplierOS.resetSignals]
          · simp [configure, OSMeshMN.configureSignals, OSMeshMN.resetSignals, hp,
              h.rightFifo p]
        bottomFifo := by
          intro p
          by_cases hp : p.1 < cfg.msRows ∧ p.2 < cfg.msCols
          · simp [configure, OSMeshMN.configureSignals, OSMeshMN.resetSignals, hp,
              MultiplierOS.setVirtualNeuron, MultiplierOS.configureRightSignal,
              MultiplierOS.configureBottomSignal, MultiplierOS.resetSignals]
          · simp [configure, OSMeshMN.configureSignals, OSMeshMN.resetSignals, hp,
              h.bottomFifo p]
        right := by
          intro i j hi hj
          have hp : i < cfg.msRows ∧ j < cfg.msCols := ⟨hi, by omega⟩
          have hOff : ¬j + 1 < OSMeshSDMemory.nextColsUsed layer s.mem := by omega
          simp [configure, OSMeshMN.configureSignals, hp, hOff,
            MultiplierOS.setVirtualNeuron, MultiplierOS.configureRightSignal,
            CompilerMultiplierMesh.forwardingRightEnabled,
            CompilerMultiplierMesh.colsUsed, OSMeshSDMemory.nextTile]
        bottom := by
          intro i j hi hj
          have hp : i < cfg.msRows ∧ j < cfg.msCols := ⟨by omega, hj⟩
          have hOff : ¬i + 1 < OSMeshSDMemory.nextRowsUsed layer s.mem := by omega
          simp [configure, OSMeshMN.configureSignals, hp, hOff,
            MultiplierOS.setVirtualNeuron, MultiplierOS.configureRightSignal,
            MultiplierOS.configureBottomSignal,
            CompilerMultiplierMesh.forwardingBottomEnabled,
            CompilerMultiplierMesh.rowsUsed, OSMeshSDMemory.nextTile] }
  · exact ⟨h.notOverwritten, h.read, h.outputAS, h.rightFifo, h.bottomFifo, h.right,
      h.bottom⟩
  · exact h
  · exact h

/-- The state in front of the mesh: like `Clean`, but with packages on the read
connections and none on the connections to the accumulators. -/
private structure Ready (cfg : Config) (s : Tpu) : Prop where
  notOverwritten : ∀ w, s.conns.store.clobbered w = false
  outputAS : s.conns.store.content .outputAS = none
  rn : ∀ n < cfg.msRows * cfg.msCols, s.conns.store.content (.rn n) = none
  rightFifo : ∀ p, (s.mswitchtable p).rightFifo = []
  bottomFifo : ∀ p, (s.mswitchtable p).bottomFifo = []
  right : ∀ i j, i < cfg.msRows → j + 1 = cfg.msCols →
    (s.mswitchtable (i, j)).forwardRight = false
  bottom : ∀ i j, i + 1 = cfg.msRows → j < cfg.msCols →
    (s.mswitchtable (i, j)).forwardBottom = false

private theorem Clean.ready (hCfg : cfg.Valid) (layer : GemmLayer) (h : s.Clean cfg) :
    Ready cfg (((s.memTransfer cfg layer).busCycle cfg).rnCycle cfg) := by
  set s₁ := s.memTransfer cfg layer with hs₁
  have hMem : ∀ w, s₁.conns.store.clobbered w = false := by
    intro w
    rw [hs₁, memTransfer_clobbered h.read, h.notOverwritten]
  have hOutput : ∀ b < cfg.nWritePorts, s₁.conns.store.content (.busOutput b) = none := by
    intro b hb
    exact memTransfer_content_write (by simp [OSMeshSDMemory.writeConnections, hb])
  have hBus : ∀ w, (s₁.busCycle cfg).conns.store.clobbered w = false := by
    intro w
    rw [busCycle_clobbered hOutput, hMem]
  have hInput : ∀ n < cfg.msRows * cfg.msCols,
      (s₁.busCycle cfg).conns.store.content
        (.busInput (n % cfg.nWritePorts) (n / cfg.nWritePorts)) = none := by
    intro n hn
    exact busCycle_content_input (Nat.mod_lt n hCfg.writePorts) (Config.inputID_lt hCfg hn)
  exact
    { notOverwritten := by
        intro w
        rw [rnCycle_clobbered hInput, hBus]
      outputAS := by
        rw [rnCycle_content_of_ne (by simp) (by simp),
          busCycle_content_of_ne (by simp) (by simp), hs₁,
          memTransfer_content_of_ne (by simp) (by simp [OSMeshSDMemory.writeConnections])]
        exact h.outputAS
      rn := fun n hn => rnCycle_content_input hn
      rightFifo := h.rightFifo
      bottomFifo := h.bottomFifo
      right := h.right
      bottom := h.bottom }

private theorem Ready.meshCycle (hCfg : cfg.Valid) (h : Ready cfg s) :
    (s.meshCycle cfg).Clean cfg := by
  have hFire := meshCycle_ms (s := s) hCfg.ports
  exact
    { notOverwritten := by
        intro w
        have hSame := meshCycle_clobbered hCfg.ports
          (fun i hi j hj => MultiplierOS.fire_right_of_not_forward (h.rightFifo _)
            (h.right i j hi hj) _ _)
          (fun i hi j hj => MultiplierOS.fire_bottom_of_not_forward (h.bottomFifo _)
            (h.bottom i j hi hj) _ _)
          h.rn w
        exact hSame.trans (h.notOverwritten w)
      read := by
        intro port hPort
        exact OSMeshMN.cycle_content_read hCfg.ports hCfg.rows hCfg.cols (hCfg.ports ▸ hPort)
      outputAS := by
        rw [meshCycle_content_of_ne hCfg.ports (by simp) (by simp) (by simp) (by simp)]
        exact h.outputAS
      rightFifo := by
        intro p
        rw [hFire]
        split
        · exact MultiplierOS.fire_rightFifo (h.rightFifo p) _ _
        · exact h.rightFifo p
      bottomFifo := by
        intro p
        rw [hFire]
        split
        · exact MultiplierOS.fire_bottomFifo (h.bottomFifo p) _ _
        · exact h.bottomFifo p
      right := by
        intro i j hi hj
        rw [hFire]
        split
        · exact (MultiplierOS.fire_forwardRight _ _ _).trans (h.right i j hi hj)
        · exact h.right i j hi hj
      bottom := by
        intro i j hi hj
        rw [hFire]
        split
        · exact (MultiplierOS.fire_forwardBottom _ _ _).trans (h.bottom i j hi hj)
        · exact h.bottom i j hi hj }

theorem Clean.cycle (hCfg : cfg.Valid) (hRows : layer.tM ≤ cfg.msRows)
    (hCols : layer.tN ≤ cfg.msCols) (h : s.Clean cfg) :
    (s.cycle cfg layer).Clean cfg := by
  have hReady := (h.memIssue hRows hCols).ready hCfg layer
  have hLt := ltCycle_eq hReady.outputAS
  rw [Tpu.cycle, memCycle, hLt]
  exact hReady.meshCycle hCfg

/-- No component of the TPU ever sends on a connection that still holds data, for
any operands and any tile that fits the mesh. -/
theorem no_connection_overwritten {output : Nat → Int} (hCfg : cfg.Valid)
    (hRows : layer.tM ≤ cfg.msRows) (hCols : layer.tN ≤ cfg.msCols)
    (h : Reachable cfg layer output s) (w : Wire) :
    (s.conns w).overwritten = false := by
  have hClean : s.Clean cfg :=
    Dataflow.Reachable.invariant (init_clean cfg output)
      (fun _ _ hs => hs.cycle hCfg hRows hCols) h
  exact hClean.notOverwritten w

/-- A product of 3 by 2 and 2 by 3 matrices on a 2 by 2 mesh whose four accumulators share a bus
line.  Two of them finish in cycle 5.  One cycle later the line still holds the result of one of
the two, while the fourth sends its own and the memory has one to read. -/
theorem no_connection_overwritten_shared_line :
    let layer : GemmLayer :=
      { M := 3, N := 3, K := 2, mkAddress := fun a => a, knAddress := fun a => a + 1,
        tM := 2, tN := 2 }
    let s : Nat → Tpu := fun n => (cycle (Config.mesh 2 2 1) layer)^[n] (init fun _ => 0)
    ((s 5).conns (.busInput 0 1)).existPendingData = true ∧
      ((s 5).conns (.busInput 0 2)).existPendingData = true ∧
      ((s 6).busLines 0).inputFifos 2 ≠ [] ∧
      ((s 6).conns (.busInput 0 3)).existPendingData = true ∧
      ((s 6).conns (.busOutput 0)).existPendingData = true ∧
      (∀ w, ((s 5).conns w).overwritten = false) ∧
      (∀ w, ((s 6).conns w).overwritten = false) ∧
      ∀ w, ((s 12).conns w).overwritten = false := by
  intro layer s
  have hCfg : (Config.mesh 2 2 1).Valid :=
    Config.mesh_valid (by decide) (by decide) (by decide)
  have hReach : ∀ n ≤ 12, Reachable (Config.mesh 2 2 1) layer (fun _ => 0) (s n) := by
    have hRunning : ∀ m < 12, ¬(s m).isExecutionFinished := by decide +kernel
    exact fun n hn => ⟨n, fun m hm => hRunning m (hm.trans_le hn), rfl⟩
  refine ⟨by decide +kernel, by decide +kernel, by decide +kernel, by decide +kernel,
    by decide +kernel, fun w => ?_, fun w => ?_, fun w => ?_⟩
  · exact no_connection_overwritten hCfg (by decide) (by decide) (hReach 5 (by decide)) w
  · exact no_connection_overwritten hCfg (by decide) (by decide) (hReach 6 (by decide)) w
  · exact no_connection_overwritten hCfg (by decide) (by decide) (hReach 12 (by decide)) w

end

end Tpu

end Stonne
