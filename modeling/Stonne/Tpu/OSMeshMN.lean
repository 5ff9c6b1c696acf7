import Stonne.Tile
import Stonne.Tpu.MultiplierOS

/-!
# The systolic mesh

`OSMeshMN::setPhysicalConnection`, `setInputConnections` and
`setOutputConnections` give every element its five connections, and
`CompilerMultiplierMesh::generate_ms_signals` its configuration.  `cycle` visits
the elements from the bottom right to the top left, so that an element reads what
its neighbours sent in the previous cycle; `cycle_eq_step` states it as one
simultaneous step of all elements.
-/

namespace Stonne

open Dataflow

/-- The connections of a TPU, by the table of the source that owns them. -/
inductive Wire where
  /-- `DSNetworkTop::connections`: from a read port of the memory. -/
  | read (port : Nat)
  /-- `DSNetwork::connectiontable` of the tree behind a read port. -/
  | ds (port level pos : Nat)
  /-- `OSMeshMN::horizontalconnectiontable`. -/
  | horizontal (i j : Nat)
  /-- `OSMeshMN::verticalconnectiontable`. -/
  | vertical (i j : Nat)
  /-- `TemporalRN::inputconnectiontable`. -/
  | rn (n : Nat)
  /-- `CollectionBusLine::input_connections`. -/
  | busInput (busID inputID : Nat)
  /-- `CollectionBusLine::output_port`. -/
  | busOutput (busID : Nat)
  /-- `Stonne::outputASConnection`. -/
  | outputAS
  /-- `Stonne::outputLTConnection`. -/
  | outputLT
  deriving DecidableEq

/-- The hardware parameters that the TPU components read. -/
structure Config where
  msSize : Nat
  msRows : Nat
  msCols : Nat
  nReadPorts : Nat
  nWritePorts : Nat

namespace Config

/-- `ms_size_per_port` of the distribution network. -/
def msSizePerPort (cfg : Config) : Nat :=
  (cfg.msRows + cfg.msCols) / cfg.nReadPorts

/-- `DSNetwork::getLastLevelConnections`: a tree without levels hands out its own
input connection. -/
def lastLevelConnection (cfg : Config) (port leaf : Nat) : Wire :=
  if Nat.log2 cfg.msSizePerPort = 0 then .read port
  else .ds port (Nat.log2 cfg.msSizePerPort - 1) leaf

/-- `DSNetworkTop::getLastLevelConnections`, the input connections of the mesh. -/
def inputConnection (cfg : Config) (n : Nat) : Wire :=
  cfg.lastLevelConnection (n / cfg.msSizePerPort) (n % cfg.msSizePerPort)

end Config

namespace CompilerMultiplierMesh

def rowsUsed (tile : Tile) : Nat :=
  tile.tX * tile.tY

def colsUsed (tile : Tile) : Nat :=
  tile.tK

/-- The assertions of `configureSignals`. -/
def accepts (cfg : Config) (tile : Tile) : Bool :=
  decide (tile.tK ≤ cfg.msCols) && decide (tile.tX * tile.tY ≤ cfg.msRows)

def msVnConfiguration (tile : Tile) (i j : Nat) : Nat :=
  if i < rowsUsed tile ∧ j < colsUsed tile then i * colsUsed tile + j else 0

def forwardingBottomEnabled (tile : Tile) (i j : Nat) : Bool :=
  decide (i + 1 < rowsUsed tile ∧ j < colsUsed tile)

def forwardingRightEnabled (tile : Tile) (i j : Nat) : Bool :=
  decide (j + 1 < colsUsed tile ∧ i < rowsUsed tile)

end CompilerMultiplierMesh

namespace OSMeshMN

/-- Position of an element: row and column. -/
abbrev Pos := Nat × Nat

/-- The physical connections of the element at `p`.  The source leaves the right
connection of the last column and the bottom connection of the last row unset;
here they are wires that nobody reads. -/
def links (cfg : Config) (p : Pos) : MultiplierOS.Links Wire where
  left := if p.2 = 0 then cfg.inputConnection (p.1 + cfg.msCols) else .horizontal p.1 p.2
  top := if p.1 = 0 then cfg.inputConnection p.2 else .vertical p.1 p.2
  right := .horizontal p.1 (p.2 + 1)
  bottom := .vertical (p.1 + 1) p.2
  accbuffer := .rn (p.1 * cfg.msCols + p.2)

def resetSignals (cfg : Config) (mswitchtable : Pos → MultiplierOS) :
    Pos → MultiplierOS :=
  fun p =>
    if p.1 < cfg.msRows ∧ p.2 < cfg.msCols then (mswitchtable p).resetSignals
    else mswitchtable p

def configureSignals (cfg : Config) (tile : Tile) (mswitchtable : Pos → MultiplierOS) :
    Pos → MultiplierOS :=
  fun p =>
    if p.1 < cfg.msRows ∧ p.2 < cfg.msCols then
      (((mswitchtable p).configureBottomSignal
          (CompilerMultiplierMesh.forwardingBottomEnabled tile p.1 p.2)).configureRightSignal
          (CompilerMultiplierMesh.forwardingRightEnabled tile p.1 p.2)).setVirtualNeuron
          (CompilerMultiplierMesh.msVnConfiguration tile p.1 p.2)
    else mswitchtable p

def cycleMs (cfg : Config) (st : (Pos → MultiplierOS) × Connections Wire) (p : Pos) :
    (Pos → MultiplierOS) × Connections Wire :=
  let r := (st.1 p).cycle (links cfg p) st.2
  (Function.update st.1 p r.1, r.2)

/-- The positions in the order of the two loops of `cycle`. -/
def cycleOrder (cfg : Config) : List Pos :=
  (List.range cfg.msRows).reverse.flatMap fun i =>
    (List.range cfg.msCols).reverse.map fun j => (i, j)

def cycle (cfg : Config) (st : (Pos → MultiplierOS) × Connections Wire) :
    (Pos → MultiplierOS) × Connections Wire :=
  (cycleOrder cfg).foldl (cycleMs cfg) st

def wiring (cfg : Config) : Wiring Pos Wire where
  ins p := [(links cfg p).left, (links cfg p).top]
  outs p := [(links cfg p).right, (links cfg p).bottom, (links cfg p).accbuffer]

def program (cfg : Config) : Program Pos Wire MultiplierOS DataPackage :=
  fun p ms arrived =>
    let r := ms.fire (arrived (links cfg p).left) (arrived (links cfg p).top)
    (r.1, fun w => r.2.on (links cfg p) w)

end OSMeshMN

/-- One multiplier input per read port. -/
def Config.OneInputPerPort (cfg : Config) : Prop :=
  cfg.nReadPorts = cfg.msRows + cfg.msCols

theorem Config.inputConnection_of_oneInputPerPort {cfg : Config}
    (h : cfg.OneInputPerPort) (hPos : 0 < cfg.msRows + cfg.msCols) (n : Nat) :
    cfg.inputConnection n = .read n := by
  have hSize : cfg.msSizePerPort = 1 := by
    rw [Config.msSizePerPort, h, Nat.div_self hPos]
  have hLog : Nat.log2 1 = 0 := by decide
  simp [Config.inputConnection, Config.lastLevelConnection, hSize, hLog]

namespace OSMeshMN

section

variable {cfg : Config} (hPorts : cfg.OneInputPerPort)

theorem mem_cycleOrder {cfg : Config} {p : Pos} :
    p ∈ cycleOrder cfg ↔ p.1 < cfg.msRows ∧ p.2 < cfg.msCols := by
  obtain ⟨i, j⟩ := p
  simp [cycleOrder]

include hPorts in
theorem links_left {p : Pos} (hp : p ∈ cycleOrder cfg) :
    (links cfg p).left = if p.2 = 0 then .read (p.1 + cfg.msCols) else .horizontal p.1 p.2 := by
  have hPos : 0 < cfg.msRows + cfg.msCols := by
    have := mem_cycleOrder.mp hp
    omega
  simp [links, Config.inputConnection_of_oneInputPerPort hPorts hPos]

include hPorts in
theorem links_top {p : Pos} (hp : p ∈ cycleOrder cfg) :
    (links cfg p).top = if p.1 = 0 then .read p.2 else .vertical p.1 p.2 := by
  have hPos : 0 < cfg.msRows + cfg.msCols := by
    have := mem_cycleOrder.mp hp
    omega
  simp [links, Config.inputConnection_of_oneInputPerPort hPorts hPos]

include hPorts in
theorem links_separate {p : Pos} (hp : p ∈ cycleOrder cfg) :
    (links cfg p).Separate := by
  have hLeft := links_left hPorts hp
  have hTop := links_top hPorts hp
  have hRange := mem_cycleOrder.mp hp
  exact
    { top_left := by
        rw [hLeft, hTop]
        split <;> split <;> simp
        omega
      right_left := by
        rw [hLeft]
        simp only [links]
        split <;> simp
      right_top := by
        rw [hTop]
        simp only [links]
        split <;> simp
      bottom_left := by
        rw [hLeft]
        simp only [links]
        split <;> simp
      bottom_top := by
        rw [hTop]
        simp only [links]
        split <;> simp
      bottom_right := by simp [links]
      accbuffer_left := by
        rw [hLeft]
        simp only [links]
        split <;> simp
      accbuffer_top := by
        rw [hTop]
        simp only [links]
        split <;> simp
      accbuffer_right := by simp [links]
      accbuffer_bottom := by simp [links] }

/-- The accumulators of two elements are different ones. -/
theorem rn_injective {cfg : Config} {p q : Pos} (hp : p.2 < cfg.msCols)
    (hq : q.2 < cfg.msCols)
    (h : p.1 * cfg.msCols + p.2 = q.1 * cfg.msCols + q.2) :
    p = q := by
  have hCols : 0 < cfg.msCols := Nat.zero_lt_of_lt hp
  have hDiv : ∀ r : Pos, r.2 < cfg.msCols →
      (r.1 * cfg.msCols + r.2) / cfg.msCols = r.1 := by
    intro r hr
    rw [Nat.mul_comm, Nat.mul_add_div hCols, Nat.div_eq_of_lt hr, Nat.add_zero]
  have hRow : p.1 = q.1 := by rw [← hDiv p hp, ← hDiv q hq, h]
  have hCol : p.2 = q.2 := by
    rw [hRow] at h
    omega
  exact Prod.ext hRow hCol

/-- The accumulator of an element is one of the buffer. -/
theorem rn_lt {cfg : Config} {i j : Nat} (hi : i < cfg.msRows) (hj : j < cfg.msCols) :
    i * cfg.msCols + j < cfg.msRows * cfg.msCols := by
  have hRow : (i + 1) * cfg.msCols ≤ cfg.msRows * cfg.msCols :=
    Nat.mul_le_mul_right _ hi
  rw [Nat.add_mul, Nat.one_mul] at hRow
  omega

include hPorts in
/-- An element shares no connection with an element visited later, and sends
nothing to it in the same cycle. -/
private theorem independent {p q : Pos} (hp : p ∈ cycleOrder cfg)
    (hq : q ∈ cycleOrder cfg) (hBefore : q.1 < p.1 ∨ q.1 = p.1 ∧ q.2 < p.2) :
    (wiring cfg).Independent p q := by
  have hRangeP := mem_cycleOrder.mp hp
  have hRangeQ := mem_cycleOrder.mp hq
  have hne : p ≠ q := by
    rintro rfl
    omega
  have hRn : ¬q.1 * cfg.msCols + q.2 = p.1 * cfg.msCols + p.2 := fun h =>
    hne (rn_injective hRangeQ.2 hRangeP.2 h).symm
  refine ⟨hne, ?_, ?_, ?_⟩
  · simp only [wiring, links_left hPorts hp, links_left hPorts hq, links_top hPorts hp,
      links_top hPorts hq]
    split <;> split <;> split <;> split <;> simp <;> omega
  · simp [wiring, links, hRn]
    omega
  · simp only [wiring, links_left hPorts hq, links_top hPorts hq]
    split <;> split <;> simp [links] <;> omega

include hPorts in
private theorem readersFirst : (wiring cfg).ReadersFirst (cycleOrder cfg) := by
  have hOrder : (cycleOrder cfg).Pairwise
      (fun p q => q.1 < p.1 ∨ q.1 = p.1 ∧ q.2 < p.2) := by
    refine List.pairwise_flatMap.mpr ⟨?_, ?_⟩
    · intro i _
      rw [List.pairwise_map, List.pairwise_reverse]
      exact List.pairwise_lt_range.imp fun h => Or.inr ⟨rfl, h⟩
    · rw [List.pairwise_reverse]
      refine List.pairwise_lt_range.imp ?_
      intro a b hab x hx y hy
      obtain ⟨_, -, rfl⟩ := List.mem_map.mp hx
      obtain ⟨_, -, rfl⟩ := List.mem_map.mp hy
      exact Or.inl hab
  exact hOrder.imp_of_mem fun hp hq h => independent hPorts hp hq h

private theorem cycleMs_eq_visit {p : Pos} (hSeparate : (links cfg p).Separate)
    (st : (Pos → MultiplierOS) × Connections Wire) :
    toNet (cycleMs cfg st p) = visit (wiring cfg) (program cfg) (toNet st) p := by
  obtain ⟨tab, conns⟩ := st
  have hLeft : inbox (wiring cfg) conns.store p (links cfg p).left =
      conns.store.recv (links cfg p).left := by
    simp [inbox, wiring]
  have hTop : inbox (wiring cfg) conns.store p (links cfg p).top =
      conns.store.recv (links cfg p).top := by
    simp [inbox, wiring]
  have hSent : ∀ w, outbox (wiring cfg) (program cfg) (toNet (tab, conns)) p w =
      ((tab p).fire (conns.store.recv (links cfg p).left)
        (conns.store.recv (links cfg p).top)).2.on (links cfg p) w := by
    intro w
    simp [outbox, program, toNet, hLeft, hTop]
  apply toNet_eq_visit
  · simp [program, hLeft, hTop, MultiplierOS.cycle_fst hSeparate]
  · intro w
    rw [hSent]
    exact MultiplierOS.content_cycle hSeparate (tab p) conns w
  · intro w
    rw [hSent]
    exact MultiplierOS.overwritten_cycle hSeparate (tab p) conns w

include hPorts in
/-- The elements of the mesh step simultaneously. -/
theorem cycle_eq_step (st : (Pos → MultiplierOS) × Connections Wire) :
    toNet (cycle cfg st) =
      step (wiring cfg) (program cfg) (cycleOrder cfg) (toNet st) := by
  rw [← sweep_eq_step (readersFirst hPorts)]
  have hFold : ∀ order : List Pos, (∀ p ∈ order, p ∈ cycleOrder cfg) →
      ∀ st, toNet (order.foldl (cycleMs cfg) st) =
        sweep (wiring cfg) (program cfg) order (toNet st) := by
    intro order
    induction order with
    | nil => intro _ st; rfl
    | cons p order ih =>
        intro hMem st
        have hSeparate := links_separate hPorts (hMem p List.mem_cons_self)
        rw [List.foldl_cons, ih fun q hq => hMem q (List.mem_cons_of_mem p hq)]
        rw [cycleMs_eq_visit hSeparate]
        rfl
  exact hFold _ (fun _ h => h) st

/-- Element `p` in a cycle of the mesh: its next state and what it sends. -/
def fireMs (cfg : Config) (st : (Pos → MultiplierOS) × Connections Wire) (p : Pos) :
    MultiplierOS × MultiplierOS.Output :=
  (st.1 p).fire (st.2.store.recv (links cfg p).left) (st.2.store.recv (links cfg p).top)

private theorem program_eq (st : (Pos → MultiplierOS) × Connections Wire) (p : Pos) :
    program cfg p (st.1 p) (inbox (wiring cfg) st.2.store p) =
      ((fireMs cfg st p).1, fun w => (fireMs cfg st p).2.on (links cfg p) w) := by
  simp [program, fireMs, inbox, wiring]

private theorem outbox_eq (st : (Pos → MultiplierOS) × Connections Wire) (p : Pos)
    (w : Wire) :
    outbox (wiring cfg) (program cfg) (toNet st) p w =
      (fireMs cfg st p).2.on (links cfg p) w :=
  congrFun (congrArg Prod.snd (program_eq st p)) w

variable {st : (Pos → MultiplierOS) × Connections Wire}

include hPorts

theorem cycle_ms {p : Pos} (hp : p ∈ cycleOrder cfg) :
    (cycle cfg st).1 p = (fireMs cfg st p).1 := by
  have hStep := congrArg (fun n => n.node p) (cycle_eq_step hPorts st)
  rw [step_node _ hp] at hStep
  exact hStep.trans (congrArg Prod.fst (program_eq st p))

/-- Positions outside the mesh are not visited. -/
theorem cycle_ms_of_not_mem {p : Pos} (hp : p ∉ cycleOrder cfg) :
    (cycle cfg st).1 p = st.1 p := by
  have hStep := congrArg (fun n => n.node p) (cycle_eq_step hPorts st)
  rw [step_node_of_not_mem _ hp] at hStep
  exact hStep

/-- The content of a connection that an element writes and that was drained or
empty. -/
private theorem content_of_writer {p : Pos} {w : Wire} (hp : p ∈ cycleOrder cfg)
    (hw : w ∈ (wiring cfg).outs p)
    (hEmpty : Drained (wiring cfg) (cycleOrder cfg) w ∨ st.2.store.content w = none) :
    (cycle cfg st).2.store.content w =
      filled ((fireMs cfg st p).2.on (links cfg p) w) := by
  have hStep := congrArg (fun n => n.store.content w) (cycle_eq_step hPorts st)
  rw [step_content_of_writer (readersFirst hPorts) hp hw hEmpty, outbox_eq] at hStep
  exact hStep

private theorem drained_horizontal {i j : Nat} (hi : i < cfg.msRows)
    (hj : j + 1 < cfg.msCols) :
    Drained (wiring cfg) (cycleOrder cfg) (.horizontal i (j + 1)) := by
  have hMem : ((i, j + 1) : Pos) ∈ cycleOrder cfg := mem_cycleOrder.mpr ⟨hi, hj⟩
  exact ⟨(i, j + 1), hMem, by simp [wiring, links_left hPorts hMem]⟩

private theorem drained_vertical {i j : Nat} (hi : i + 1 < cfg.msRows)
    (hj : j < cfg.msCols) :
    Drained (wiring cfg) (cycleOrder cfg) (.vertical (i + 1) j) := by
  have hMem : ((i + 1, j) : Pos) ∈ cycleOrder cfg := mem_cycleOrder.mpr ⟨hi, hj⟩
  exact ⟨(i + 1, j), hMem, by simp [wiring, links_top hPorts hMem]⟩

theorem cycle_content_horizontal {i j : Nat} (hi : i < cfg.msRows)
    (hj : j + 1 < cfg.msCols) :
    (cycle cfg st).2.store.content (.horizontal i (j + 1)) =
      filled (fireMs cfg st (i, j)).2.right := by
  have hMem : ((i, j) : Pos) ∈ cycleOrder cfg := mem_cycleOrder.mpr ⟨hi, by omega⟩
  rw [content_of_writer hPorts hMem (by simp [wiring, links])
    (Or.inl (drained_horizontal hPorts hi hj))]
  simp [MultiplierOS.Output.on, links]

theorem cycle_content_vertical {i j : Nat} (hi : i + 1 < cfg.msRows)
    (hj : j < cfg.msCols) :
    (cycle cfg st).2.store.content (.vertical (i + 1) j) =
      filled (fireMs cfg st (i, j)).2.bottom := by
  have hMem : ((i, j) : Pos) ∈ cycleOrder cfg := mem_cycleOrder.mpr ⟨by omega, hj⟩
  rw [content_of_writer hPorts hMem (by simp [wiring, links])
    (Or.inl (drained_vertical hPorts hi hj))]
  simp [MultiplierOS.Output.on, links]

theorem cycle_content_rn {i j : Nat} (hi : i < cfg.msRows) (hj : j < cfg.msCols)
    (hEmpty : st.2.store.content (.rn (i * cfg.msCols + j)) = none) :
    (cycle cfg st).2.store.content (.rn (i * cfg.msCols + j)) =
      filled (fireMs cfg st (i, j)).2.accbuffer := by
  have hMem : ((i, j) : Pos) ∈ cycleOrder cfg := mem_cycleOrder.mpr ⟨hi, hj⟩
  rw [content_of_writer hPorts hMem (by simp [wiring, links]) (Or.inr hEmpty)]
  simp [MultiplierOS.Output.on, links]

private theorem content_of_no_writer {w : Wire}
    (h : ∀ p, w ∉ (wiring cfg).outs p) :
    (cycle cfg st).2.store.content w =
      if Drained (wiring cfg) (cycleOrder cfg) w then none else st.2.store.content w := by
  have hStep := congrArg (fun n => n.store.content w) (cycle_eq_step hPorts st)
  rw [step_content_of_no_writer fun p _ => h p] at hStep
  exact hStep

/-- The mesh takes everything from its read ports. -/
theorem cycle_content_read {port : Nat} (hRows : 0 < cfg.msRows) (hCols : 0 < cfg.msCols)
    (h : port < cfg.msRows + cfg.msCols) :
    (cycle cfg st).2.store.content (.read port) = none := by
  have hDrained : Drained (wiring cfg) (cycleOrder cfg) (.read port) := by
    by_cases hTop : port < cfg.msCols
    · have hMem : ((0, port) : Pos) ∈ cycleOrder cfg := mem_cycleOrder.mpr ⟨hRows, hTop⟩
      exact ⟨(0, port), hMem, by simp [wiring, links_top hPorts hMem]⟩
    · have hMem : ((port - cfg.msCols, 0) : Pos) ∈ cycleOrder cfg :=
        mem_cycleOrder.mpr ⟨by dsimp only; omega, hCols⟩
      refine ⟨(port - cfg.msCols, 0), hMem, ?_⟩
      have hPort : port - cfg.msCols + cfg.msCols = port := by omega
      simp [wiring, links_left hPorts hMem, hPort]
  rw [content_of_no_writer hPorts (by simp [wiring, links]), if_pos hDrained]

/-- The connections outside the mesh keep their content. -/
theorem cycle_content_of_ne {w : Wire} (hRead : ∀ port, w ≠ .read port)
    (hHorizontal : ∀ i j, w ≠ .horizontal i j) (hVertical : ∀ i j, w ≠ .vertical i j)
    (hRn : ∀ n, w ≠ .rn n) :
    (cycle cfg st).2.store.content w = st.2.store.content w := by
  have hNotDrained : ¬Drained (wiring cfg) (cycleOrder cfg) w := by
    rintro ⟨p, hp, hMem⟩
    simp only [wiring, links_left hPorts hp, links_top hPorts hp] at hMem
    split at hMem <;> split at hMem <;> simp_all
  rw [content_of_no_writer hPorts, if_neg hNotDrained]
  intro p
  simp [wiring, links, hHorizontal, hVertical, hRn]

/-- The mesh overwrites nothing when no element sends over the edge and the
accumulators have taken their packages. -/
theorem cycle_clobbered
    (hRight : ∀ i, i < cfg.msRows → ∀ j, j + 1 = cfg.msCols →
      (fireMs cfg st (i, j)).2.right = [])
    (hBottom : ∀ i, i + 1 = cfg.msRows → ∀ j, j < cfg.msCols →
      (fireMs cfg st (i, j)).2.bottom = [])
    (hRn : ∀ n < cfg.msRows * cfg.msCols, st.2.store.content (.rn n) = none) (w : Wire) :
    (cycle cfg st).2.store.clobbered w = st.2.store.clobbered w := by
  have hStep := congrArg (fun n => n.store.clobbered w) (cycle_eq_step hPorts st)
  rw [step_clobbered (readersFirst hPorts)] at hStep
  · exact hStep
  · rintro ⟨i, j⟩ hp hw hSent
    rw [outbox_eq] at hSent
    obtain ⟨hi, hj⟩ := mem_cycleOrder.mp hp
    dsimp only at hi hj
    have hCases : w = .horizontal i (j + 1) ∨ w = .vertical (i + 1) j ∨
        w = .rn (i * cfg.msCols + j) := by
      simpa [wiring, links] using hw
    rcases hCases with rfl | rfl | rfl
    · have hOut : (fireMs cfg st (i, j)).2.right ≠ [] := by
        simpa [MultiplierOS.Output.on, links] using hSent
      have hj' : j + 1 < cfg.msCols := by
        by_contra hEdge
        exact hOut (hRight i hi j (by omega))
      exact Or.inl (drained_horizontal hPorts hi hj')
    · have hOut : (fireMs cfg st (i, j)).2.bottom ≠ [] := by
        simpa [MultiplierOS.Output.on, links] using hSent
      have hi' : i + 1 < cfg.msRows := by
        by_contra hEdge
        exact hOut (hBottom i (by omega) j hj)
      exact Or.inl (drained_vertical hPorts hi' hj)
    · exact Or.inr (hRn _ (rn_lt hi hj))

end

end OSMeshMN

end Stonne
