import Stonne.Lib.RangeSum
import Stonne.Tpu.Wavefront

/-!
# From the products of a tile to the memory

The accumulators turn the products of an element into one result per tile
(`Summing`).  From there a result travels over a bus input, a fifo of its bus line
and the output of the line to the memory.  The order in which results arrive
depends on the arbitration, so this module follows them as a multiset: what is in
flight and what was written are together the results that were produced.
-/

namespace Stonne

open Dataflow

namespace GemmLayer

variable (layer : GemmLayer)

/-- The entry of the product that element `(i, j)` computes in tile `t`. -/
def result (t i j : Nat) : Int :=
  ∑ k ∈ Finset.range layer.K, layer.product t i j k

def resultPackage (t i j : Nat) : DataPackage :=
  psumPackage (layer.neuron t i j) (layer.result t i j)

/-- Accumulator `(i, j)` has finished after `σ` cycles of tile `t`. -/
def Produced (t σ i j : Nat) : Prop :=
  layer.Used t i j ∧ layer.popped (σ - 1) i j = layer.K

instance (t σ i j : Nat) : Decidable (layer.Produced t σ i j) :=
  inferInstanceAs (Decidable (_ ∧ _))

/-- The result of accumulator `(i, j)` if it has finished after `σ` cycles. -/
def resultAt (t σ i j : Nat) : Multiset DataPackage :=
  if layer.Produced t σ i j then {layer.resultPackage t i j} else 0

/-- What accumulator `(i, j)` sends in the cycle after `σ`. -/
def onBusInput (t σ i j : Nat) : List DataPackage :=
  if layer.Produced t (σ + 1) i j ∧ ¬layer.Produced t σ i j then
    [layer.resultPackage t i j]
  else []

/-- The results that were produced after `σ` cycles of tile `t`. -/
def results (cfg : Config) (t σ : Nat) : Multiset DataPackage :=
  ∑ i ∈ Finset.range cfg.msRows, ∑ j ∈ Finset.range cfg.msCols, layer.resultAt t σ i j

theorem popped_mono {σ σ' : Nat} (h : σ ≤ σ') (i j : Nat) :
    layer.popped σ i j ≤ layer.popped σ' i j := by
  unfold popped
  omega

theorem popped_le (σ i j : Nat) : layer.popped σ i j ≤ layer.K :=
  Nat.min_le_left _ _

theorem Produced.succ {layer : GemmLayer} {t σ i j : Nat} (h : layer.Produced t σ i j) :
    layer.Produced t (σ + 1) i j := by
  refine ⟨h.1, le_antisymm (layer.popped_le _ i j) ?_⟩
  have hMono := layer.popped_mono (Nat.sub_le_sub_right (Nat.le_succ σ) 1) i j
  rw [h.2] at hMono
  exact hMono

theorem resultAt_succ (t σ i j : Nat) :
    layer.resultAt t (σ + 1) i j =
      layer.resultAt t σ i j + (layer.onBusInput t σ i j : Multiset DataPackage) := by
  unfold resultAt onBusInput
  by_cases hBefore : layer.Produced t σ i j
  · simp [hBefore, hBefore.succ]
  · by_cases hAfter : layer.Produced t (σ + 1) i j
    · simp [hBefore, hAfter]
    · simp [hBefore, hAfter]

theorem results_succ (cfg : Config) (t σ : Nat) :
    layer.results cfg t (σ + 1) =
      layer.results cfg t σ +
        ∑ i ∈ Finset.range cfg.msRows, ∑ j ∈ Finset.range cfg.msCols,
          (layer.onBusInput t σ i j : Multiset DataPackage) := by
  simp only [results, resultAt_succ, Finset.sum_add_distrib]

/-- All results of tile `t`. -/
def tileResults (t : Nat) : Multiset DataPackage :=
  ∑ i ∈ Finset.range (layer.rowsOf t), ∑ j ∈ Finset.range (layer.colsOf t),
    {layer.resultPackage t i j}

theorem card_tileResults (t : Nat) :
    Multiset.card (layer.tileResults t) = layer.tileSize t := by
  simp [tileResults, tileSize]

private theorem results_eq {cfg : Config} {t : Nat} (hRows : layer.rowsOf t ≤ cfg.msRows)
    (hCols : layer.colsOf t ≤ cfg.msCols) (σ : Nat) :
    layer.results cfg t σ =
      ∑ i ∈ Finset.range (layer.rowsOf t), ∑ j ∈ Finset.range (layer.colsOf t),
        layer.resultAt t σ i j := by
  rw [results, ← sum_corner _ hRows hCols]
  refine Finset.sum_congr rfl fun i _ => Finset.sum_congr rfl fun j _ => ?_
  split
  · rfl
  · rename_i hNot
    exact if_neg fun hProduced => hNot hProduced.1

private theorem resultAt_le (t σ i j : Nat) :
    layer.resultAt t σ i j ≤ {layer.resultPackage t i j} := by
  unfold resultAt
  split
  · exact le_rfl
  · exact Multiset.zero_le _

theorem results_le {cfg : Config} {t : Nat} (hRows : layer.rowsOf t ≤ cfg.msRows)
    (hCols : layer.colsOf t ≤ cfg.msCols) (σ : Nat) :
    layer.results cfg t σ ≤ layer.tileResults t := by
  rw [layer.results_eq hRows hCols]
  exact Finset.sum_le_sum fun i _ => Finset.sum_le_sum fun j _ => layer.resultAt_le t σ i j

/-- When as many results were produced as the tile has, no element is behind. -/
theorem produced_of_card {cfg : Config} {t σ : Nat} (hRows : layer.rowsOf t ≤ cfg.msRows)
    (hCols : layer.colsOf t ≤ cfg.msCols)
    (h : layer.tileSize t ≤ Multiset.card (layer.results cfg t σ)) {i j : Nat}
    (hUsed : layer.Used t i j) :
    layer.Produced t σ i j := by
  have hEq := Multiset.eq_of_le_of_card_le (layer.results_le hRows hCols σ)
    (by rwa [card_tileResults])
  rw [layer.results_eq hRows hCols, tileResults, Finset.sum_eq_sum_iff_of_le fun i _ =>
    Finset.sum_le_sum fun j _ => layer.resultAt_le t σ i j] at hEq
  have hRow := hEq i (Finset.mem_range.mpr hUsed.1)
  rw [Finset.sum_eq_sum_iff_of_le fun j _ => layer.resultAt_le t σ i j] at hRow
  have hAt := hRow j (Finset.mem_range.mpr hUsed.2)
  by_contra hNot
  simp [resultAt, hNot] at hAt

/-- Nothing is produced as long as operands are distributed. -/
theorem results_of_le {σ : Nat} (hK : 1 ≤ layer.K) (cfg : Config) (t : Nat) (h : σ ≤ layer.K) :
    layer.results cfg t σ = 0 := by
  refine Finset.sum_eq_zero fun i _ => Finset.sum_eq_zero fun j _ => if_neg ?_
  rintro ⟨-, hAll⟩
  unfold popped at hAll
  omega

end GemmLayer

namespace Tpu

/-- The accumulators after `σ` cycles of tile `t`: they are one cycle behind the
elements. -/
structure Summing (cfg : Config) (layer : GemmLayer) (t σ : Nat) (s : Tpu) : Prop where
  inputFifo : ∀ n < cfg.msRows * cfg.msCols, (s.accumulatortable n).inputFifo = []
  outputFifo : ∀ n < cfg.msRows * cfg.msCols, (s.accumulatortable n).outputFifo = []
  failed : ∀ n < cfg.msRows * cfg.msCols, (s.accumulatortable n).failed = false
  holds : ∀ i < cfg.msRows, ∀ j < cfg.msCols, layer.Used t i j →
    (s.accumulatortable (i * cfg.msCols + j)).Holds layer.K (layer.neuron t i j)
      (layer.product t i j) (layer.popped (σ - 1) i j)
  unused : ∀ i < cfg.msRows, ∀ j < cfg.msCols, ¬layer.Used t i j →
    (s.accumulatortable (i * cfg.msCols + j)).currentPsum = 0

section

variable {cfg : Config} {layer : GemmLayer} {s : Tpu} {t σ : Nat}

/-- One cycle of the accumulator of element `(i, j)`. -/
private theorem Summing.fire (hK : 1 ≤ layer.K) (h : Summing cfg layer t σ s)
    {i j : Nat} (hi : i < cfg.msRows) (hj : j < cfg.msCols) :
    let a := s.accumulatortable (i * cfg.msCols + j)
    let r := a.fire (layer.onRn t σ i j)
    r.1.inputFifo = [] ∧ r.1.outputFifo = [] ∧ r.1.failed = false ∧
      r.2 = layer.onBusInput t σ i j ∧
      (layer.Used t i j → r.1.Holds layer.K (layer.neuron t i j) (layer.product t i j)
        (layer.popped σ i j)) ∧
      (¬layer.Used t i j → r.1.currentPsum = 0) := by
  intro a r
  have hn : i * cfg.msCols + j < cfg.msRows * cfg.msCols := OSMeshMN.rn_lt hi hj
  have hInput : a.inputFifo = [] := h.inputFifo _ hn
  have hOutput : a.outputFifo = [] := h.outputFifo _ hn
  have hFailed : a.failed = false := h.failed _ hn
  have hIdle : layer.onRn t σ i j = [] → layer.onBusInput t σ i j = [] →
      (layer.Used t i j → layer.popped σ i j = layer.popped (σ - 1) i j) →
      r.1.inputFifo = [] ∧ r.1.outputFifo = [] ∧ r.1.failed = false ∧
      r.2 = layer.onBusInput t σ i j ∧
      (layer.Used t i j → r.1.Holds layer.K (layer.neuron t i j) (layer.product t i j)
        (layer.popped σ i j)) ∧
      (¬layer.Used t i j → r.1.currentPsum = 0) := by
    intro hNone hSent hSame
    have hr : r = (a, []) := by
      simp only [r, hNone]
      exact Accumulator.fire_nil hInput hOutput
    rw [hr, hSent]
    refine ⟨hInput, hOutput, hFailed, rfl, fun hUsed => ?_, h.unused i hi j hj⟩
    rw [hSame hUsed]
    exact h.holds i hi j hj hUsed
  by_cases hUsed : layer.Used t i j
  · by_cases hStep : layer.popped (σ - 1) i j < layer.popped σ i j
    · -- the next product arrives
      have hNext : layer.popped σ i j = layer.popped (σ - 1) i j + 1 := by
        unfold GemmLayer.popped at hStep ⊢
        omega
      have hLess : layer.popped (σ - 1) i j < layer.K :=
        lt_of_lt_of_le hStep (layer.popped_le σ i j)
      have hArrived : layer.onRn t σ i j =
          [psumPackage (layer.neuron t i j)
            (layer.product t i j (layer.popped (σ - 1) i j))] := by
        rw [GemmLayer.onRn, if_pos hUsed, hNext, seg_singleton]
      have hFired := (h.holds i hi j hj hUsed).fire_package hInput hOutput
      have hr : r = a.fire [psumPackage (layer.neuron t i j)
            (layer.product t i j (layer.popped (σ - 1) i j))] := by
        simp only [r, hArrived]
      rw [hr]
      refine ⟨hFired.2.1, hFired.2.2.1, hFired.1.failed, ?_, fun _ => hNext ▸ hFired.1,
        absurd hUsed⟩
      rw [hFired.2.2.2, Accumulator.finished, GemmLayer.onBusInput,
        Nat.mod_eq_of_lt hLess, Nat.div_eq_of_lt hLess]
      have hNotBefore : ¬layer.Produced t σ i j := fun hBefore =>
        absurd hBefore.2 (Nat.ne_of_lt hLess)
      have hAfter : layer.Produced t (σ + 1) i j ↔
          layer.popped (σ - 1) i j + 1 = layer.K := by
        simp [GemmLayer.Produced, hUsed, hNext]
      simp [hNotBefore, hAfter, GemmLayer.resultPackage, GemmLayer.result,
        Accumulator.blockSum]
    · have hSame : layer.popped σ i j = layer.popped (σ - 1) i j := by
        have hMono := layer.popped_mono (Nat.sub_le σ 1) i j
        omega
      refine hIdle ?_ ?_ fun _ => hSame
      · rw [GemmLayer.onRn, if_pos hUsed, hSame, seg_self]
      · have hBoth : layer.Produced t (σ + 1) i j → layer.Produced t σ i j := fun hAfter =>
          ⟨hAfter.1, hSame ▸ hAfter.2⟩
        simp only [GemmLayer.onBusInput, ite_eq_right_iff, reduceCtorEq, imp_false, not_and,
          not_not]
        exact hBoth
  · refine hIdle ?_ ?_ fun hUsed' => absurd hUsed' hUsed
    · rw [GemmLayer.onRn, if_neg hUsed]
    · simp [GemmLayer.onBusInput, GemmLayer.Produced, hUsed]

/-- Every accumulator belongs to one element. -/
private theorem element_of_accumulator {n : Nat} (hCols : 0 < cfg.msCols)
    (hn : n < cfg.msRows * cfg.msCols) :
    n / cfg.msCols < cfg.msRows ∧ n % cfg.msCols < cfg.msCols ∧
      n / cfg.msCols * cfg.msCols + n % cfg.msCols = n := by
  exact ⟨(Nat.div_lt_iff_lt_mul hCols).mpr hn, Nat.mod_lt n hCols, Nat.div_add_mod' n _⟩

/-- One cycle of the accumulators. -/
theorem Summing.rnCycle (hCfg : cfg.Valid) (hK : 1 ≤ layer.K)
    (h : Summing cfg layer t σ s) (hSent : ProductsSent cfg layer t σ s) :
    Summing cfg layer t (σ + 1) (s.rnCycle cfg) ∧
      ∀ i < cfg.msRows, ∀ j < cfg.msCols,
        (s.rnFire cfg (i * cfg.msCols + j)).2 = layer.onBusInput t σ i j := by
  have hFire : ∀ i < cfg.msRows, ∀ j < cfg.msCols,
      s.rnFire cfg (i * cfg.msCols + j) =
        (s.accumulatortable (i * cfg.msCols + j)).fire (layer.onRn t σ i j) := by
    intro i hi j hj
    have hArrived := Store.recv_of_filled (hSent i hi j hj)
    rw [← hArrived]
    rfl
  have hAll : ∀ i < cfg.msRows, ∀ j < cfg.msCols,
      (s.rnCycle cfg).accumulatortable (i * cfg.msCols + j) =
        ((s.accumulatortable (i * cfg.msCols + j)).fire (layer.onRn t σ i j)).1 := by
    intro i hi j hj
    rw [rnCycle_accumulator (OSMeshMN.rn_lt hi hj), hFire i hi j hj]
  have hEach : ∀ P : Accumulator → Prop,
      (∀ i < cfg.msRows, ∀ j < cfg.msCols,
        P ((s.rnCycle cfg).accumulatortable (i * cfg.msCols + j))) →
      ∀ n < cfg.msRows * cfg.msCols, P ((s.rnCycle cfg).accumulatortable n) := by
    intro P hP n hn
    obtain ⟨hi, hj, hEq⟩ := element_of_accumulator hCfg.cols hn
    exact hEq ▸ hP _ hi _ hj
  refine ⟨⟨?_, ?_, ?_, ?_, ?_⟩, ?_⟩
  · refine hEach (fun a => a.inputFifo = []) fun i hi j hj => ?_
    rw [hAll i hi j hj]
    exact (h.fire hK hi hj).1
  · refine hEach (fun a => a.outputFifo = []) fun i hi j hj => ?_
    rw [hAll i hi j hj]
    exact (h.fire hK hi hj).2.1
  · refine hEach (fun a => a.failed = false) fun i hi j hj => ?_
    rw [hAll i hi j hj]
    exact (h.fire hK hi hj).2.2.1
  · intro i hi j hj hUsed
    rw [hAll i hi j hj]
    exact (h.fire hK hi hj).2.2.2.2.1 hUsed
  · intro i hi j hj hUnused
    rw [hAll i hi j hj]
    exact (h.fire hK hi hj).2.2.2.2.2 hUnused
  · intro i hi j hj
    rw [hFire i hi j hj]
    exact (h.fire hK hi hj).2.2.2.1

/-- No accumulator is in the middle of a sum when all elements are through. -/
theorem Summing.currentPsum (hCfg : cfg.Valid) (h : Summing cfg layer t σ s)
    (hDone : ∀ i < cfg.msRows, ∀ j < cfg.msCols, layer.Used t i j →
      layer.popped (σ - 1) i j = layer.K) (n : Nat) (hn : n < cfg.msRows * cfg.msCols) :
    (s.accumulatortable n).currentPsum = 0 := by
  obtain ⟨hi, hj, hEq⟩ := element_of_accumulator hCfg.cols hn
  rw [← hEq]
  by_cases hUsed : layer.Used t (n / cfg.msCols) (n % cfg.msCols)
  · rw [(h.holds _ hi _ hj hUsed).currentPsum, hDone _ hi _ hj hUsed, Nat.mod_self]
  · exact h.unused _ hi _ hj hUsed

/-! ## Results in flight -/

/-- The packages between the accumulators and the memory. -/
def inFlight (cfg : Config) (s : Tpu) : Multiset DataPackage :=
  ∑ b ∈ Finset.range cfg.nWritePorts,
    ((s.busLines b).waiting cfg.bus.inputPortsBusLine +
      (∑ i ∈ Finset.range cfg.bus.inputPortsBusLine,
        (s.conns.store.recv (.busInput b i) : Multiset DataPackage)) +
      (s.conns.store.recv (.busOutput b) : Multiset DataPackage))

/-- The bus between two phases: the cursors are valid, and the inputs without an
accumulator and the lookup table are idle. -/
structure BusReady (cfg : Config) (s : Tpu) : Prop where
  inRange : ∀ b < cfg.nWritePorts, (s.busLines b).InRange cfg.bus.inputPortsBusLine
  unused : ∀ b < cfg.nWritePorts, ∀ i < cfg.bus.inputPortsBusLine,
    cfg.msRows * cfg.msCols ≤ i * cfg.nWritePorts + b →
    s.conns.store.content (.busInput b i) = none
  outputAS : s.conns.store.content .outputAS = none
  outputLT : s.conns.store.content .outputLT = none

/-- The packages that the memory takes in its cycle. -/
def arrivals (cfg : Config) (s : Tpu) : List DataPackage :=
  (OSMeshSDMemory.writeConnections cfg).flatMap s.conns.store.recv

private theorem coe_arrivals (h : BusReady cfg s) :
    (s.arrivals cfg : Multiset DataPackage) =
      ∑ b ∈ Finset.range cfg.nWritePorts,
        (s.conns.store.recv (.busOutput b) : Multiset DataPackage) := by
  have hLt : s.conns.store.recv .outputLT = [] := by
    simp [Store.recv, h.outputLT]
  have hPorts : ∀ n, (((List.range n).map Wire.busOutput).flatMap s.conns.store.recv :
      Multiset DataPackage) =
      ∑ b ∈ Finset.range n, (s.conns.store.recv (.busOutput b) : Multiset DataPackage) := by
    intro n
    induction n with
    | zero => simp
    | succ n ih =>
        rw [List.range_succ, List.map_append, List.flatMap_append, ← Multiset.coe_add, ih,
          Finset.sum_range_succ]
        simp
  rw [arrivals, OSMeshSDMemory.writeConnections, List.flatMap_cons, hLt, List.nil_append,
    hPorts]

/-- The memory takes what the lines had put on their outputs. -/
theorem BusReady.memTransfer (layer : GemmLayer) (h : BusReady cfg s) :
    BusReady cfg (s.memTransfer cfg layer) ∧
      inFlight cfg (s.memTransfer cfg layer) + (s.arrivals cfg : Multiset DataPackage) =
        inFlight cfg s ∧
      ∀ b < cfg.nWritePorts,
        (s.memTransfer cfg layer).conns.store.content (.busOutput b) = none := by
  have hInput : ∀ b i, (s.memTransfer cfg layer).conns.store.content (.busInput b i) =
      s.conns.store.content (.busInput b i) := fun b i =>
    memTransfer_content_of_ne (by simp) (by simp [OSMeshSDMemory.writeConnections])
  have hOutput : ∀ b < cfg.nWritePorts,
      (s.memTransfer cfg layer).conns.store.content (.busOutput b) = none := fun b hb =>
    memTransfer_content_write (by simp [OSMeshSDMemory.writeConnections, hb])
  refine ⟨⟨h.inRange, ?_, ?_, ?_⟩, ?_, hOutput⟩
  · intro b hb i hi hUnused
    rw [hInput]
    exact h.unused b hb i hi hUnused
  · rw [memTransfer_content_of_ne (by simp) (by simp [OSMeshSDMemory.writeConnections])]
    exact h.outputAS
  · exact memTransfer_content_write (by simp [OSMeshSDMemory.writeConnections])
  · rw [coe_arrivals h, inFlight, inFlight, ← Finset.sum_add_distrib]
    refine Finset.sum_congr rfl fun b hb => ?_
    have hTaken : (s.memTransfer cfg layer).conns.store.recv (.busOutput b) = [] := by
      simp [Store.recv, hOutput b (Finset.mem_range.mp hb)]
    have hKept : ∀ i, (s.memTransfer cfg layer).conns.store.recv (.busInput b i) =
        s.conns.store.recv (.busInput b i) := fun i => by simp [Store.recv, hInput]
    have hLine : (s.memTransfer cfg layer).busLines = s.busLines := rfl
    simp [hTaken, hKept, hLine]

/-- The bus moves packages and loses none; it stands still only when it is empty. -/
theorem BusReady.busCycle (h : BusReady cfg s)
    (hOutput : ∀ b < cfg.nWritePorts, s.conns.store.content (.busOutput b) = none) :
    BusReady cfg (s.busCycle cfg) ∧
      inFlight cfg (s.busCycle cfg) = inFlight cfg s ∧
      (∀ b < cfg.nWritePorts, ∀ i < cfg.bus.inputPortsBusLine,
        (s.busCycle cfg).conns.store.content (.busInput b i) = none) ∧
      ((∀ b < cfg.nWritePorts, (s.busCycle cfg).conns.store.recv (.busOutput b) = []) →
        inFlight cfg (s.busCycle cfg) = 0) := by
  have hDrained : ∀ b < cfg.nWritePorts, ∀ i < cfg.bus.inputPortsBusLine,
      (s.busCycle cfg).conns.store.content (.busInput b i) = none := fun b hb i hi =>
    busCycle_content_input hb hi
  have hLine : ∀ b < cfg.nWritePorts,
      ((s.busFire cfg b).2 : Multiset DataPackage) +
            (s.busFire cfg b).1.waiting cfg.bus.inputPortsBusLine =
          (s.busLines b).waiting cfg.bus.inputPortsBusLine +
            ∑ i ∈ Finset.range cfg.bus.inputPortsBusLine,
              (s.conns.store.recv (.busInput b i) : Multiset DataPackage) ∧
        (s.busFire cfg b).1.InRange cfg.bus.inputPortsBusLine := fun b hb =>
    CollectionBusLine.fire_conserves (h.inRange b hb) _
  have hOut : ∀ b < cfg.nWritePorts,
      (s.busCycle cfg).conns.store.recv (.busOutput b) = (s.busFire cfg b).2 := fun b hb =>
    Store.recv_of_filled (busCycle_content_output hb (hOutput b hb))
  have hIn : ∀ b < cfg.nWritePorts, ∑ i ∈ Finset.range cfg.bus.inputPortsBusLine,
      ((s.busCycle cfg).conns.store.recv (.busInput b i) : Multiset DataPackage) = 0 := by
    refine fun b hb => Finset.sum_eq_zero fun i hi => ?_
    simp [Store.recv, hDrained b hb i (Finset.mem_range.mp hi)]
  refine ⟨⟨?_, ?_, ?_, ?_⟩, ?_, hDrained, ?_⟩
  · intro b hb
    rw [busCycle_line hb]
    exact (hLine b hb).2
  · intro b hb i hi _
    exact hDrained b hb i hi
  · rw [busCycle_content_of_ne (by simp) (by simp)]
    exact h.outputAS
  · rw [busCycle_content_of_ne (by simp) (by simp)]
    exact h.outputLT
  · rw [inFlight, inFlight]
    refine Finset.sum_congr rfl fun b hb => ?_
    have hb := Finset.mem_range.mp hb
    have hBefore : s.conns.store.recv (.busOutput b) = [] := by
      simp [Store.recv, hOutput b hb]
    rw [busCycle_line hb, hIn b hb, hOut b hb, hBefore, ← (hLine b hb).1]
    simp [add_comm]
  · intro hNone
    refine Finset.sum_eq_zero fun b hb => ?_
    have hb := Finset.mem_range.mp hb
    have hProgress : (s.busFire cfg b).2 = [] →
        (s.busFire cfg b).1.waiting cfg.bus.inputPortsBusLine = 0 :=
      (CollectionBusLine.fire_progress (h.inRange b hb) _).2
    have hNothing := hNone b hb
    rw [hOut b hb] at hNothing
    rw [busCycle_line hb, hIn b hb, hOut b hb, hNothing]
    simpa using hProgress hNothing

/-- The accumulators add their finished results to the packages in flight. -/
theorem BusReady.rnCycle (hCfg : cfg.Valid) (h : BusReady cfg s)
    (hInput : ∀ b < cfg.nWritePorts, ∀ i < cfg.bus.inputPortsBusLine,
      s.conns.store.content (.busInput b i) = none) :
    BusReady cfg (s.rnCycle cfg) ∧
      inFlight cfg (s.rnCycle cfg) =
        inFlight cfg s + ∑ n ∈ Finset.range (cfg.msRows * cfg.msCols),
          ((s.rnFire cfg n).2 : Multiset DataPackage) := by
  have hUnused : ∀ b < cfg.nWritePorts, ∀ i < cfg.bus.inputPortsBusLine,
      cfg.msRows * cfg.msCols ≤ i * cfg.nWritePorts + b →
      (s.rnCycle cfg).conns.store.content (.busInput b i) = none := by
    intro b hb i hi hOut
    rw [rnCycle_content_of_ne (by simp)]
    · exact hInput b hb i hi
    · rintro n hn hEq
      have hBus : b = n % cfg.nWritePorts ∧ i = n / cfg.nWritePorts := by simpa using hEq
      rw [hBus.1, hBus.2, Nat.div_add_mod'] at hOut
      omega
  have hOutput : ∀ b, (s.rnCycle cfg).conns.store.content (.busOutput b) =
      s.conns.store.content (.busOutput b) := fun b =>
    rnCycle_content_of_ne (by simp) (by simp)
  have hSize : cfg.msRows * cfg.msCols ≤ cfg.bus.inputPortsBusLine * cfg.nWritePorts := by
    by_contra hLess
    have hLast := Config.inputID_lt hCfg (n := cfg.msRows * cfg.msCols - 1) (by omega)
    rw [Nat.div_lt_iff_lt_mul hCfg.writePorts] at hLast
    omega
  refine ⟨⟨h.inRange, hUnused, ?_, ?_⟩, ?_⟩
  · rw [rnCycle_content_of_ne (by simp) (by simp)]
    exact h.outputAS
  · rw [rnCycle_content_of_ne (by simp) (by simp)]
    exact h.outputLT
  · have hSent : ∑ b ∈ Finset.range cfg.nWritePorts,
        ∑ i ∈ Finset.range cfg.bus.inputPortsBusLine,
          ((s.rnCycle cfg).conns.store.recv (.busInput b i) : Multiset DataPackage) =
        ∑ n ∈ Finset.range (cfg.msRows * cfg.msCols),
          ((s.rnFire cfg n).2 : Multiset DataPackage) := by
      rw [sum_dealt _ hCfg.writePorts hSize]
      · refine Finset.sum_congr rfl fun n hn => ?_
        have hn := Finset.mem_range.mp hn
        have hEmpty := hInput _ (Nat.mod_lt n hCfg.writePorts) _ (Config.inputID_lt hCfg hn)
        rw [Store.recv_of_filled (rnCycle_content_output hn hEmpty)]
      · intro b hb i hi hOut
        simp [Store.recv, hUnused b hb i hi hOut]
    have hNone : ∑ b ∈ Finset.range cfg.nWritePorts,
        ∑ i ∈ Finset.range cfg.bus.inputPortsBusLine,
          (s.conns.store.recv (.busInput b i) : Multiset DataPackage) = 0 := by
      refine Finset.sum_eq_zero fun b hb => Finset.sum_eq_zero fun i hi => ?_
      simp [Store.recv, hInput b (Finset.mem_range.mp hb) i (Finset.mem_range.mp hi)]
    have hLine : (s.rnCycle cfg).busLines = s.busLines := rfl
    have hPort : ∀ b, (s.rnCycle cfg).conns.store.recv (.busOutput b) =
        s.conns.store.recv (.busOutput b) := fun b => by simp [Store.recv, hOutput]
    simp only [inFlight, Finset.sum_add_distrib, hSent, hNone, hLine, hPort, add_zero]
    abel

end

end Tpu

end Stonne
