import Stonne.Tpu.Cycle

/-!
# The operand wavefronts of a tile

The state of the mesh after `σ` cycles of a tile, counting the cycle that
configured it, is a closed form.  The memory has issued `issued σ` operands to
every used row and column.  Element `(i, j)` has multiplied `popped σ i j` pairs:
it works `i + j` cycles behind the corner.  The fifos and connections hold exactly
the operands between two such counts (`Wavefront`).

`Wavefront.meshCycle` moves the whole mesh by one cycle.
-/

namespace Stonne

open Dataflow

namespace GemmLayer

variable (layer : GemmLayer)

/-- Row and column of tile `t`, columns fastest. -/
def tileRow (t : Nat) : Nat :=
  t / layer.iterN

def tileCol (t : Nat) : Nat :=
  t % layer.iterN

/-- The number of mesh rows that tile `t` uses. -/
def rowsOf (t : Nat) : Nat :=
  min (layer.M - layer.tileRow t * layer.tM) layer.tM

/-- The number of mesh columns that tile `t` uses. -/
def colsOf (t : Nat) : Nat :=
  min (layer.N - layer.tileCol t * layer.tN) layer.tN

/-- The number of results of tile `t`. -/
def tileSize (t : Nat) : Nat :=
  layer.rowsOf t * layer.colsOf t

/-- Element `k` of the row of `MK` that mesh row `i` works on. -/
def activation (t i k : Nat) : Int :=
  layer.mkAddress ((layer.tileRow t * layer.tM + i) * layer.K + k)

/-- Element `k` of the column of `KN` that mesh column `j` works on. -/
def weight (t j k : Nat) : Int :=
  layer.knAddress ((layer.tileCol t * layer.tN + j) * layer.K + k)

def activationPackage (t i k : Nat) : DataPackage where
  data := layer.activation t i k
  dataType := .iactivation

def weightPackage (t j k : Nat) : DataPackage where
  data := layer.weight t j k
  dataType := .weight

/-- The products of element `(i, j)`, in the order of the multiplications. -/
def product (t i j k : Nat) : Int :=
  layer.activation t i k * layer.weight t j k

/-- The virtual neuron of element `(i, j)`. -/
def neuron (t i j : Nat) : Nat :=
  i * layer.colsOf t + j

/-- Tile `t` uses the element `(i, j)`. -/
def Used (t i j : Nat) : Prop :=
  i < layer.rowsOf t ∧ j < layer.colsOf t

instance (t i j : Nat) : Decidable (layer.Used t i j) :=
  inferInstanceAs (Decidable (_ ∧ _))

/-- How many operands every port in use has got after `σ` cycles. -/
def issued (σ : Nat) : Nat :=
  min layer.K (σ - 1)

/-- How many pairs element `(i, j)` has multiplied after `σ` cycles. -/
def popped (σ i j : Nat) : Nat :=
  min layer.K (σ - (1 + i + j))

/-- How many activations have reached element `(i, j)`. -/
def arrivedLeft (σ i j : Nat) : Nat :=
  if j = 0 then layer.issued σ else layer.popped σ i j

/-- How many weights have reached element `(i, j)`. -/
def arrivedTop (σ i j : Nat) : Nat :=
  if i = 0 then layer.issued σ else layer.popped σ i j

/-- Element `(i, j)` after `σ` cycles of tile `t`. -/
def element (t σ i j : Nat) : MultiplierOS :=
  if layer.Used t i j then
    .streaming (layer.activationPackage t i) (layer.weightPackage t j)
      (decide (j + 1 < layer.colsOf t)) (decide (i + 1 < layer.rowsOf t))
      (layer.neuron t i j) (layer.arrivedLeft σ i j) (layer.arrivedTop σ i j)
      (layer.popped σ i j)
  else {}

/-- The activations on their way into element `(i, j + 1)`. -/
def onHorizontal (t σ i j : Nat) : List DataPackage :=
  if layer.Used t i (j + 1) then
    seg (layer.activationPackage t i) (layer.popped σ i (j + 1)) (layer.popped σ i j)
  else []

/-- The weights on their way into element `(i + 1, j)`. -/
def onVertical (t σ i j : Nat) : List DataPackage :=
  if layer.Used t (i + 1) j then
    seg (layer.weightPackage t j) (layer.popped σ (i + 1) j) (layer.popped σ i j)
  else []

/-- The product on its way from element `(i, j)` to its accumulator. -/
def onRn (t σ i j : Nat) : List DataPackage :=
  if layer.Used t i j then
    seg (fun k => psumPackage (layer.neuron t i j) (layer.product t i j k))
      (layer.popped (σ - 1) i j) (layer.popped σ i j)
  else []

/-- What the memory puts on read port `port` in the cycle after `σ`. -/
def onRead (msCols t σ port : Nat) : List DataPackage :=
  if port < layer.colsOf t then
    seg (layer.weightPackage t port) (layer.issued σ) (layer.issued (σ + 1))
  else if msCols ≤ port ∧ port - msCols < layer.rowsOf t then
    seg (layer.activationPackage t (port - msCols)) (layer.issued σ) (layer.issued (σ + 1))
  else []

end GemmLayer

namespace Tpu

/-- The mesh and its connections after `σ` cycles of tile `t`. -/
structure Wavefront (cfg : Config) (layer : GemmLayer) (t σ : Nat) (s : Tpu) : Prop where
  elements : ∀ i < cfg.msRows, ∀ j < cfg.msCols,
    s.mswitchtable (i, j) = layer.element t σ i j
  horizontal : ∀ i < cfg.msRows, ∀ j, j + 1 < cfg.msCols →
    s.conns.store.content (.horizontal i (j + 1)) = filled (layer.onHorizontal t σ i j)
  vertical : ∀ i, i + 1 < cfg.msRows → ∀ j < cfg.msCols,
    s.conns.store.content (.vertical (i + 1) j) = filled (layer.onVertical t σ i j)

/-- The connections from the mesh to the accumulators after `σ` cycles of tile `t`. -/
def ProductsSent (cfg : Config) (layer : GemmLayer) (t σ : Nat) (s : Tpu) : Prop :=
  ∀ i < cfg.msRows, ∀ j < cfg.msCols,
    s.conns.store.content (.rn (i * cfg.msCols + j)) = filled (layer.onRn t σ i j)

section

variable {cfg : Config} {layer : GemmLayer} {s : Tpu} {t σ : Nat}

/-- The packages that element `(i, j)` finds on its left in the cycle after `σ`. -/
private def arrivalsLeft (layer : GemmLayer) (t σ i j : Nat) : List DataPackage :=
  if layer.Used t i j then
    seg (layer.activationPackage t i) (layer.arrivedLeft σ i j)
      (layer.arrivedLeft (σ + 1) i j)
  else []

private def arrivalsTop (layer : GemmLayer) (t σ i j : Nat) : List DataPackage :=
  if layer.Used t i j then
    seg (layer.weightPackage t j) (layer.arrivedTop σ i j) (layer.arrivedTop (σ + 1) i j)
  else []

private theorem popped_succ (layer : GemmLayer) (σ i j : Nat) :
    layer.popped (σ + 1) i j =
      MultiplierOS.nextPair (layer.arrivedLeft (σ + 1) i j)
        (layer.arrivedTop (σ + 1) i j) (layer.popped σ i j) := by
  unfold MultiplierOS.nextPair GemmLayer.arrivedLeft GemmLayer.arrivedTop
    GemmLayer.popped GemmLayer.issued
  split_ifs <;> omega

/-- What an element sends in the cycle after `σ`. -/
private def outputs (layer : GemmLayer) (t σ i j : Nat) : MultiplierOS.Output where
  right := layer.onHorizontal t (σ + 1) i j
  bottom := layer.onVertical t (σ + 1) i j
  accbuffer := layer.onRn t (σ + 1) i j

/-- The neighbour to the right is one cycle behind. -/
private theorem popped_right (layer : GemmLayer) (σ i j : Nat) :
    layer.popped (σ + 1) i (j + 1) = layer.popped σ i j := by
  unfold GemmLayer.popped
  omega

private theorem popped_bottom (layer : GemmLayer) (σ i j : Nat) :
    layer.popped (σ + 1) (i + 1) j = layer.popped σ i j := by
  unfold GemmLayer.popped
  omega

private theorem outputs_of_used {i j : Nat} (h : layer.Used t i j) :
    outputs layer t σ i j =
      { right :=
          if decide (j + 1 < layer.colsOf t) = true then
            seg (layer.activationPackage t i) (layer.popped σ i j)
              (layer.popped (σ + 1) i j)
          else []
        bottom :=
          if decide (i + 1 < layer.rowsOf t) = true then
            seg (layer.weightPackage t j) (layer.popped σ i j) (layer.popped (σ + 1) i j)
          else []
        accbuffer :=
          seg (fun k => psumPackage (layer.neuron t i j) (layer.product t i j k))
            (layer.popped σ i j) (layer.popped (σ + 1) i j) } := by
  have hRight : layer.Used t i (j + 1) ↔ j + 1 < layer.colsOf t := by
    simp [GemmLayer.Used, h.1]
  have hBottom : layer.Used t (i + 1) j ↔ i + 1 < layer.rowsOf t := by
    simp [GemmLayer.Used, h.2]
  simp [outputs, GemmLayer.onHorizontal, GemmLayer.onVertical, GemmLayer.onRn, h, hRight,
    hBottom, popped_right, popped_bottom]

private theorem outputs_of_not_used {i j : Nat} (h : ¬layer.Used t i j) :
    outputs layer t σ i j = {} := by
  have hRight : ¬layer.Used t i (j + 1) := fun hNext => h ⟨hNext.1, by
    have := hNext.2
    omega⟩
  have hBottom : ¬layer.Used t (i + 1) j := fun hNext => h ⟨by
    have := hNext.1
    omega, hNext.2⟩
  simp [outputs, GemmLayer.onHorizontal, GemmLayer.onVertical, GemmLayer.onRn, h, hRight,
    hBottom]

/-- One cycle of one element. -/
private theorem element_fire (layer : GemmLayer) (t σ i j : Nat) :
    (layer.element t σ i j).fire (arrivalsLeft layer t σ i j) (arrivalsTop layer t σ i j) =
      (layer.element t (σ + 1) i j, outputs layer t σ i j) := by
  by_cases hUsed : layer.Used t i j
  · have hLeft : layer.popped σ i j ≤ layer.arrivedLeft σ i j ∧
        layer.arrivedLeft σ i j ≤ layer.arrivedLeft (σ + 1) i j ∧
        layer.arrivedLeft (σ + 1) i j ≤ layer.arrivedLeft σ i j + 1 := by
      unfold GemmLayer.arrivedLeft GemmLayer.popped GemmLayer.issued
      split_ifs <;> omega
    have hTop : layer.popped σ i j ≤ layer.arrivedTop σ i j ∧
        layer.arrivedTop σ i j ≤ layer.arrivedTop (σ + 1) i j ∧
        layer.arrivedTop (σ + 1) i j ≤ layer.arrivedTop σ i j + 1 := by
      unfold GemmLayer.arrivedTop GemmLayer.popped GemmLayer.issued
      split_ifs <;> omega
    rw [outputs_of_used hUsed]
    simp only [GemmLayer.element, arrivalsLeft, arrivalsTop, if_pos hUsed]
    rw [MultiplierOS.fire_streaming (fun _ => rfl) (fun _ => rfl) hLeft.1 hTop.1
      hLeft.2.1 hLeft.2.2 hTop.2.1 hTop.2.2, ← popped_succ]
    rfl
  · rw [outputs_of_not_used hUsed]
    simp only [GemmLayer.element, arrivalsLeft, arrivalsTop, if_neg hUsed]
    exact MultiplierOS.fire_idle

/-- The mesh and its input connections in front of its cycle after `σ`. -/
structure Fed (cfg : Config) (layer : GemmLayer) (t σ : Nat) (s : Tpu) : Prop
    extends Wavefront cfg layer t σ s where
  read : ∀ port < cfg.msRows + cfg.msCols,
    s.conns.store.content (.read port) = filled (layer.onRead cfg.msCols t σ port)
  rn : ∀ n < cfg.msRows * cfg.msCols, s.conns.store.content (.rn n) = none

/-- Tile `t` uses a nonempty part of the mesh. -/
structure TileFits (cfg : Config) (layer : GemmLayer) (t : Nat) : Prop where
  rows_pos : 0 < layer.rowsOf t
  cols_pos : 0 < layer.colsOf t
  rows_le : layer.rowsOf t ≤ cfg.msRows
  cols_le : layer.colsOf t ≤ cfg.msCols

private theorem Fed.recv_left (hCfg : cfg.Valid) (hFits : TileFits cfg layer t)
    (h : Fed cfg layer t σ s) {i j : Nat} (hi : i < cfg.msRows) (hj : j < cfg.msCols) :
    s.conns.store.recv (OSMeshMN.links cfg (i, j)).left = arrivalsLeft layer t σ i j := by
  rw [OSMeshMN.links_left hCfg.ports (OSMeshMN.mem_cycleOrder.mpr ⟨hi, hj⟩)]
  rcases j with _ | j
  · have hCols := hFits.cols_le
    have hPort : ¬i + cfg.msCols < layer.colsOf t := by omega
    have hUsed : layer.Used t i 0 ↔ i < layer.rowsOf t := by
      simp [GemmLayer.Used, hFits.cols_pos]
    simp only [if_true]
    rw [Store.recv_of_filled (h.read (i + cfg.msCols) (by omega))]
    simp [GemmLayer.onRead, arrivalsLeft, GemmLayer.arrivedLeft, hPort, hUsed]
  · have hColumn : ¬j + 1 = 0 := by omega
    simp only [hColumn, if_false]
    rw [Store.recv_of_filled (h.horizontal i hi j hj)]
    simp only [GemmLayer.onHorizontal, arrivalsLeft, GemmLayer.arrivedLeft, if_neg hColumn,
      popped_right]

private theorem Fed.recv_top (hCfg : cfg.Valid) (hFits : TileFits cfg layer t)
    (h : Fed cfg layer t σ s) {i j : Nat} (hi : i < cfg.msRows) (hj : j < cfg.msCols) :
    s.conns.store.recv (OSMeshMN.links cfg (i, j)).top = arrivalsTop layer t σ i j := by
  rw [OSMeshMN.links_top hCfg.ports (OSMeshMN.mem_cycleOrder.mpr ⟨hi, hj⟩)]
  rcases i with _ | i
  · have hUsed : layer.Used t 0 j ↔ j < layer.colsOf t := by
      simp [GemmLayer.Used, hFits.rows_pos]
    have hNotRow : ¬cfg.msCols ≤ j := by omega
    simp only [if_true]
    rw [Store.recv_of_filled (h.read j (by omega))]
    simp [GemmLayer.onRead, arrivalsTop, GemmLayer.arrivedTop, hUsed, hNotRow]
  · have hRow : ¬i + 1 = 0 := by omega
    simp only [hRow, if_false]
    rw [Store.recv_of_filled (h.vertical i hi j hj)]
    simp only [GemmLayer.onVertical, arrivalsTop, GemmLayer.arrivedTop, if_neg hRow,
      popped_bottom]

private theorem Fed.fireMs (hCfg : cfg.Valid) (hFits : TileFits cfg layer t)
    (h : Fed cfg layer t σ s) {i j : Nat} (hi : i < cfg.msRows) (hj : j < cfg.msCols) :
    OSMeshMN.fireMs cfg (s.mswitchtable, s.conns) (i, j) =
      (layer.element t (σ + 1) i j, outputs layer t σ i j) := by
  simp only [OSMeshMN.fireMs]
  rw [h.elements i hi j hj, h.recv_left hCfg hFits hi hj, h.recv_top hCfg hFits hi hj,
    element_fire]

/-- One cycle of the mesh moves the wavefronts by one. -/
theorem Fed.meshCycle (hCfg : cfg.Valid) (hFits : TileFits cfg layer t)
    (h : Fed cfg layer t σ s) :
    Wavefront cfg layer t (σ + 1) (s.meshCycle cfg) ∧
      ProductsSent cfg layer t (σ + 1) (s.meshCycle cfg) ∧
      ∀ port < cfg.nReadPorts,
        (s.meshCycle cfg).conns.store.content (.read port) = none := by
  refine ⟨⟨?_, ?_, ?_⟩, ?_, ?_⟩
  · intro i hi j hj
    rw [meshCycle_ms hCfg.ports, if_pos (OSMeshMN.mem_cycleOrder.mpr ⟨hi, hj⟩)]
    exact congrArg Prod.fst (h.fireMs hCfg hFits hi hj)
  · intro i hi j hj
    rw [meshCycle_content_horizontal hCfg.ports hi hj, meshFire,
      h.fireMs hCfg hFits hi (by omega)]
    rfl
  · intro i hi j hj
    rw [meshCycle_content_vertical hCfg.ports hi hj, meshFire,
      h.fireMs hCfg hFits (by omega) hj]
    rfl
  · intro i hi j hj
    rw [meshCycle_content_rn hCfg.ports hi hj (h.rn _ (OSMeshMN.rn_lt hi hj)), meshFire,
      h.fireMs hCfg hFits hi hj]
    rfl
  · intro port hPort
    exact OSMeshMN.cycle_content_read hCfg.ports hCfg.rows hCfg.cols (hCfg.ports ▸ hPort)

/-- Configuring the mesh for tile `t` puts every element at the start of its streams. -/
private theorem configured_element {ms : MultiplierOS} (h : ms.Settled)
    {mem : OSMeshSDMemory} (hM : mem.currentM = layer.tileRow t)
    (hN : mem.currentN = layer.tileCol t) (i j : Nat) :
    let tile := OSMeshSDMemory.nextTile layer mem
    ((ms.resetSignals.configureBottomSignal
          (CompilerMultiplierMesh.forwardingBottomEnabled tile i j)).configureRightSignal
          (CompilerMultiplierMesh.forwardingRightEnabled tile i j)).setVirtualNeuron
        (CompilerMultiplierMesh.msVnConfiguration tile i j) =
      layer.element t 0 i j := by
  intro tile
  have hRows : CompilerMultiplierMesh.rowsUsed tile = layer.rowsOf t := by
    simp [tile, CompilerMultiplierMesh.rowsUsed, OSMeshSDMemory.nextTile,
      OSMeshSDMemory.nextRowsUsed, GemmLayer.rowsOf, hM]
  have hCols : CompilerMultiplierMesh.colsUsed tile = layer.colsOf t := by
    simp [tile, CompilerMultiplierMesh.colsUsed, OSMeshSDMemory.nextTile,
      OSMeshSDMemory.nextColsUsed, GemmLayer.colsOf, hN]
  simp only [CompilerMultiplierMesh.forwardingBottomEnabled,
    CompilerMultiplierMesh.forwardingRightEnabled, CompilerMultiplierMesh.msVnConfiguration,
    hRows, hCols]
  rw [h.configured (layer.activationPackage t i) (layer.weightPackage t j)]
  have hIssued : layer.issued 0 = 0 := by simp [GemmLayer.issued]
  have hPopped : layer.popped 0 i j = 0 := by simp [GemmLayer.popped]
  by_cases hUsed : layer.Used t i j
  · simp [GemmLayer.element, hUsed, hUsed.1, hUsed.2, GemmLayer.arrivedLeft,
      GemmLayer.arrivedTop, hIssued, hPopped, GemmLayer.neuron]
  · have hNot : ¬(i < layer.rowsOf t ∧ j < layer.colsOf t) := hUsed
    have hRight : ¬(j + 1 < layer.colsOf t ∧ i < layer.rowsOf t) := by omega
    have hBottom : ¬(i + 1 < layer.rowsOf t ∧ j < layer.colsOf t) := by omega
    simp [GemmLayer.element, hUsed, hNot, hRight, hBottom, MultiplierOS.streaming]

/-- Before the first cycle of a tile the configured mesh is empty. -/
theorem configure_wavefront (hM : s.mem.currentM = layer.tileRow t)
    (hN : s.mem.currentN = layer.tileCol t)
    (hSettled : ∀ i < cfg.msRows, ∀ j < cfg.msCols, (s.mswitchtable (i, j)).Settled)
    (hHorizontal : ∀ i < cfg.msRows, ∀ j, j + 1 < cfg.msCols →
      s.conns.store.content (.horizontal i (j + 1)) = none)
    (hVertical : ∀ i, i + 1 < cfg.msRows → ∀ j < cfg.msCols,
      s.conns.store.content (.vertical (i + 1) j) = none) :
    Wavefront cfg layer t 0 (s.configure cfg layer) where
  elements i hi j hj := by
    have hIn : i < cfg.msRows ∧ j < cfg.msCols := ⟨hi, hj⟩
    simp only [configure, OSMeshMN.configureSignals, OSMeshMN.resetSignals, hIn, and_self,
      if_true]
    exact configured_element (hSettled i hi j hj) hM hN i j
  horizontal i hi j hj := by
    have hNone : layer.onHorizontal t 0 i j = [] := by
      simp [GemmLayer.onHorizontal, GemmLayer.popped]
    rw [hNone]
    exact hHorizontal i hi j hj
  vertical i hi j hj := by
    have hNone : layer.onVertical t 0 i j = [] := by
      simp [GemmLayer.onVertical, GemmLayer.popped]
    rw [hNone]
    exact hVertical i hi j hj

end

end Tpu

end Stonne
