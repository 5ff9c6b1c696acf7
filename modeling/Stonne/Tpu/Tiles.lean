import Stonne.Tpu.TileRun

/-!
# The tiles of a product

The controller runs through the tiles in the order of their numbers.  This module
counts them: their results are the entries of the product, each of them once.
`Stage` is the invariant of the whole run, a tile under way or an idle mesh in front
of one, and `systolic_pairing` reads off it what every element does in every
reachable state.
-/

namespace Stonne

open Dataflow

namespace GemmLayer

variable (layer : GemmLayer)

def tiles : Nat :=
  layer.iterM * layer.iterN

/-- Entry `(m, n)` of the product. -/
def entry (m n : Nat) : Int :=
  ∑ k ∈ Finset.range layer.K,
    layer.mkAddress (m * layer.K + k) * layer.knAddress (n * layer.K + k)

/-- The stores of tile `t`, in no particular order. -/
def tileStores (t : Nat) : Multiset (Nat × Int) :=
  (layer.tileResults t).map fun pck => (layer.address t pck.vn, pck.data)

section

variable {layer}

private theorem le_iter {n b : Nat} (hb : 1 ≤ b) :
    n ≤ (n / b + if n % b ≠ 0 then 1 else 0) * b := by
  have hSplit := Nat.div_add_mod' n b
  have hLess := Nat.mod_lt n hb
  split
  · rw [Nat.succ_mul]
    omega
  · rw [Nat.add_zero]
    omega

private theorem mul_lt_of_lt_iter {n b i : Nat} (hb : 1 ≤ b)
    (h : i < n / b + if n % b ≠ 0 then 1 else 0) :
    i * b < n := by
  have hSplit := Nat.div_add_mod' n b
  split at h
  · have hLe := Nat.mul_le_mul_right b (Nat.lt_succ_iff.mp h)
    omega
  · rw [Nat.add_zero] at h
    have hLe := Nat.mul_le_mul_right b (Nat.succ_le_of_lt h)
    rw [Nat.succ_mul] at hLe
    omega

theorem iterN_pos {cfg : Config} (h : layer.Admitted cfg) : 0 < layer.iterN := by
  have hLe := le_iter (n := layer.N) h.tN_pos
  have hN := h.N_pos
  rcases Nat.eq_zero_or_pos layer.iterN with hZero | hPos
  · unfold iterN at hZero
    rw [hZero] at hLe
    omega
  · exact hPos

theorem iterM_pos {cfg : Config} (h : layer.Admitted cfg) : 0 < layer.iterM := by
  have hLe := le_iter (n := layer.M) h.tM_pos
  have hM := h.M_pos
  rcases Nat.eq_zero_or_pos layer.iterM with hZero | hPos
  · unfold iterM at hZero
    rw [hZero] at hLe
    omega
  · exact hPos

theorem tileFits {cfg : Config} (h : layer.Admitted cfg) {t : Nat} (ht : t < layer.tiles) :
    Tpu.TileFits cfg layer t := by
  have hRow : layer.tileRow t < layer.iterM :=
    (Nat.div_lt_iff_lt_mul (iterN_pos h)).mpr ht
  have hCol : layer.tileCol t < layer.iterN := Nat.mod_lt t (iterN_pos h)
  have hM := mul_lt_of_lt_iter h.tM_pos hRow
  have hN := mul_lt_of_lt_iter h.tN_pos hCol
  have htM := h.tM_pos
  have htN := h.tN_pos
  exact
    { rows_pos := by
        unfold rowsOf
        omega
      cols_pos := by
        unfold colsOf
        omega
      rows_le := (Nat.min_le_right _ _).trans h.tM_le
      cols_le := (Nat.min_le_right _ _).trans h.tN_le }

/-- A sum over all elements of all tiles is a sum over the entries of the product. -/
theorem sum_tiles {α : Type*} [AddCommMonoid α] {cfg : Config} (h : layer.Admitted cfg)
    (f : Nat → Nat → α) :
    ∑ t ∈ Finset.range layer.tiles, ∑ i ∈ Finset.range (layer.rowsOf t),
        ∑ j ∈ Finset.range (layer.colsOf t),
          f (layer.tileRow t * layer.tM + i) (layer.tileCol t * layer.tN + j) =
      ∑ m ∈ Finset.range layer.M, ∑ n ∈ Finset.range layer.N, f m n := by
  have hN := iterN_pos h
  have hAt : ∀ r, ∀ c ∈ Finset.range layer.iterN,
      layer.tileRow (r * layer.iterN + c) = r ∧ layer.tileCol (r * layer.iterN + c) = c := by
    intro r c hc
    have hc := Finset.mem_range.mp hc
    unfold tileRow tileCol
    rw [Nat.mul_comm, Nat.mul_add_div hN, Nat.div_eq_of_lt hc, Nat.mul_add_mod,
      Nat.mod_eq_of_lt hc]
    exact ⟨rfl, rfl⟩
  have hM : min layer.M (layer.iterM * layer.tM) = layer.M :=
    Nat.min_eq_left (le_iter h.tM_pos)
  have hN : min layer.N (layer.iterN * layer.tN) = layer.N :=
    Nat.min_eq_left (le_iter h.tN_pos)
  calc
    _ = ∑ r ∈ Finset.range layer.iterM, ∑ c ∈ Finset.range layer.iterN,
          ∑ i ∈ Finset.range (min (layer.M - r * layer.tM) layer.tM),
            ∑ j ∈ Finset.range (min (layer.N - c * layer.tN) layer.tN),
              f (r * layer.tM + i) (c * layer.tN + j) := by
        rw [tiles, sum_range_mul]
        refine Finset.sum_congr rfl fun r _ => Finset.sum_congr rfl fun c hc => ?_
        simp only [rowsOf, colsOf, hAt r c hc]
    _ = ∑ r ∈ Finset.range layer.iterM,
          ∑ i ∈ Finset.range (min (layer.M - r * layer.tM) layer.tM),
            ∑ n ∈ Finset.range layer.N, f (r * layer.tM + i) n := by
        refine Finset.sum_congr rfl fun r _ => ?_
        rw [Finset.sum_comm]
        refine Finset.sum_congr rfl fun i _ => ?_
        rw [sum_chunks (fun n => f (r * layer.tM + i) n), hN]
    _ = ∑ m ∈ Finset.range layer.M, ∑ n ∈ Finset.range layer.N, f m n := by
        rw [sum_chunks (fun m => ∑ n ∈ Finset.range layer.N, f m n), hM]

/-- All tiles together have one result for each entry of the product. -/
theorem sum_tileSize {cfg : Config} (h : layer.Admitted cfg) :
    ∑ t ∈ Finset.range layer.tiles, layer.tileSize t = layer.M * layer.N := by
  have hSum := sum_tiles h fun _ _ => (1 : Nat)
  simpa [tileSize] using hSum

private theorem resultPackage_store {t i j : Nat} (hj : j < layer.colsOf t) :
    (layer.address t (layer.resultPackage t i j).vn, (layer.resultPackage t i j).data) =
      ((layer.tileRow t * layer.tM + i) * layer.N + (layer.tileCol t * layer.tN + j),
        layer.entry (layer.tileRow t * layer.tM + i) (layer.tileCol t * layer.tN + j)) := by
  have hPos : 0 < layer.colsOf t := Nat.zero_lt_of_lt hj
  have hDiv : (i * layer.colsOf t + j) / layer.colsOf t = i := by
    rw [Nat.mul_comm, Nat.mul_add_div hPos, Nat.div_eq_of_lt hj, Nat.add_zero]
  have hMod : (i * layer.colsOf t + j) % layer.colsOf t = j := by
    rw [Nat.mul_comm, Nat.mul_add_mod, Nat.mod_eq_of_lt hj]
  simp only [resultPackage, psumPackage, neuron, address, hDiv, hMod, result, entry, product,
    activation, weight, Nat.add_assoc]

/-- The stores of all tiles: every address of the output once, with its entry. -/
theorem sum_tileStores {cfg : Config} (h : layer.Admitted cfg) :
    ∑ t ∈ Finset.range layer.tiles, layer.tileStores t =
      (Multiset.range (layer.M * layer.N)).map fun a =>
        (a, layer.entry (a / layer.N) (a % layer.N)) := by
  have hTile : ∀ t, layer.tileStores t =
      ∑ i ∈ Finset.range (layer.rowsOf t), ∑ j ∈ Finset.range (layer.colsOf t),
        {((layer.tileRow t * layer.tM + i) * layer.N + (layer.tileCol t * layer.tN + j),
          layer.entry (layer.tileRow t * layer.tM + i)
            (layer.tileCol t * layer.tN + j))} := by
    intro t
    rw [tileStores, tileResults, ← Multiset.coe_mapAddMonoidHom, map_sum]
    refine Finset.sum_congr rfl fun i _ => ?_
    rw [map_sum]
    refine Finset.sum_congr rfl fun j hj => ?_
    rw [Multiset.coe_mapAddMonoidHom, Multiset.map_singleton,
      resultPackage_store (Finset.mem_range.mp hj)]
  have hSum := sum_tiles h fun m n =>
    ({(m * layer.N + n, layer.entry m n)} : Multiset (Nat × Int))
  simp only [hTile, hSum]
  have hFlat := sum_range_mul
    (fun a => ({(a, layer.entry (a / layer.N) (a % layer.N))} : Multiset (Nat × Int)))
    layer.M layer.N
  have hRange : (Multiset.range (layer.M * layer.N)).map (fun a =>
      (a, layer.entry (a / layer.N) (a % layer.N))) =
      ∑ a ∈ Finset.range (layer.M * layer.N), {(a, layer.entry (a / layer.N) (a % layer.N))} := by
    rw [Finset.sum_eq_multiset_sum, Finset.range_val]
    exact (Multiset.sum_map_singleton _).symm.trans (by simp)
  rw [hRange, hFlat]
  refine Finset.sum_congr rfl fun m _ => Finset.sum_congr rfl fun n hn => ?_
  have hn := Finset.mem_range.mp hn
  have hPos : 0 < layer.N := Nat.zero_lt_of_lt hn
  rw [Nat.mul_comm m, Nat.mul_add_div hPos, Nat.div_eq_of_lt hn, Nat.mul_add_mod,
    Nat.mod_eq_of_lt hn, Nat.add_zero]

end

end GemmLayer

namespace Tpu

section

variable {cfg : Config} {layer : GemmLayer} {output : Nat → Int} {s : Tpu} {t σ : Nat}
  {earlier : List (Nat × Int)} {results : List DataPackage}

/-- The stores of the tiles before `t`. -/
def StoredBefore (layer : GemmLayer) (t : Nat) (earlier : List (Nat × Int)) : Prop :=
  (earlier : Multiset (Nat × Int)) = ∑ u ∈ Finset.range t, layer.tileStores u

theorem StoredBefore.length (h : StoredBefore layer t earlier) :
    earlier.length = ∑ u ∈ Finset.range t, layer.tileSize u := by
  have hCard := congrArg Multiset.card h
  simpa [GemmLayer.tileStores, GemmLayer.card_tileResults] using hCard

/-- The results of the tile still fit into the output. -/
theorem StoredBefore.room (hLayer : layer.Admitted cfg) (ht : t < layer.tiles)
    (h : StoredBefore layer t earlier) :
    earlier.length + layer.tileSize t ≤ layer.M * layer.N := by
  rw [h.length, ← Finset.sum_range_succ, ← GemmLayer.sum_tileSize hLayer]
  exact Finset.sum_le_sum_of_subset (Finset.range_subset_range.mpr ht)

/-- A complete tile has stored exactly its results. -/
theorem Running.storedBefore (hFits : TileFits cfg layer t)
    (hBefore : StoredBefore layer t earlier)
    (h : Running cfg layer output t σ earlier results s)
    (hDone : results.length = layer.tileSize t) :
    StoredBefore layer (t + 1) (earlier ++ layer.storesOf t results) := by
  have hLe := layer.results_le hFits.rows_le hFits.cols_le σ
  have hAll : (results : Multiset DataPackage) = layer.tileResults t := by
    refine Multiset.eq_of_le_of_card_le ?_ ?_
    · rw [← h.balance] at hLe
      exact (Multiset.le_add_left _ _).trans hLe
    · rw [GemmLayer.card_tileResults, Multiset.coe_card, hDone]
  rw [StoredBefore, Finset.sum_range_succ, ← Multiset.coe_add, hBefore,
    GemmLayer.tileStores, ← hAll, GemmLayer.storesOf, Multiset.map_coe]

theorem Running.length_le (hFits : TileFits cfg layer t)
    (h : Running cfg layer output t σ earlier results s) :
    results.length ≤ layer.tileSize t := by
  have hLe := Multiset.card_le_card
    (layer.results_le hFits.rows_le hFits.cols_le σ)
  rw [GemmLayer.card_tileResults, ← h.balance, Multiset.card_add, Multiset.coe_card] at hLe
  omega

theorem lastTile_iff (hLayer : layer.Admitted cfg) (ht : t < layer.tiles) :
    OSMeshSDMemory.LastTile layer t ↔ t + 1 = layer.tiles := by
  rw [OSMeshSDMemory.LastTile, GemmLayer.tileRow,
    Nat.le_div_iff_mul_le (GemmLayer.iterN_pos hLayer)]
  exact ⟨fun hLast => le_antisymm ht hLast, fun hLast => hLast.ge⟩

/-- A state of the run: the initial one, or one of some tile. -/
inductive Stage (cfg : Config) (layer : GemmLayer) (output : Nat → Int) (s : Tpu) : Prop
  | initial (h : s = init output)
  | running (t σ : Nat) (earlier : List (Nat × Int)) (results : List DataPackage)
      (ht : t < layer.tiles) (hBefore : StoredBefore layer t earlier)
      (h : Running cfg layer output t σ earlier results s)

/-- A state in which the controller starts a tile. -/
theorem Idle.stage (hCfg : cfg.Valid) (hLayer : layer.Admitted cfg)
    (ht : t < layer.tiles) (hBefore : StoredBefore layer t earlier)
    (h : Idle cfg layer output t earlier s) :
    Stage cfg layer output (s.cycle cfg layer) :=
  .running t 1 earlier [] ht hBefore
    (h.cycle hCfg (GemmLayer.tileFits hLayer ht) hLayer.K_pos (hBefore.room hLayer ht))

theorem Stage.cycle (hCfg : cfg.Valid) (hLayer : layer.Admitted cfg)
    (hRunning : ¬s.isExecutionFinished) (h : Stage cfg layer output s) :
    Stage cfg layer output (s.cycle cfg layer) := by
  rcases h with rfl | ⟨t, σ, earlier, results, ht, hBefore, h⟩
  · have hTiles : 0 < layer.tiles :=
      Nat.mul_pos (GemmLayer.iterM_pos hLayer) (GemmLayer.iterN_pos hLayer)
    exact (init_idle hCfg layer output hLayer.M_pos hLayer.N_pos).stage hCfg hLayer hTiles rfl
  · have hFits := GemmLayer.tileFits hLayer ht
    have hRoom := hBefore.room hLayer ht
    rcases Nat.lt_or_eq_of_le (h.length_le hFits) with hOpen | hDone
    · exact .running t (σ + 1) earlier _ ht hBefore
        (h.cycle hCfg hFits hLayer.K_pos (GemmLayer.iterN_pos hLayer) hRoom hOpen)
    · have hStored := h.storedBefore hFits hBefore hDone
      have hMore : t + 1 ≠ layer.tiles := by
        intro hLast
        apply hRunning
        rw [isExecutionFinished, h.written.executionFinished, h.written.writes,
          hStored.length, hLast, GemmLayer.sum_tileSize hLayer]
        exact decide_eq_true rfl
      have hNotLast : ¬OSMeshSDMemory.LastTile layer t := fun hLast =>
        hMore ((lastTile_iff hLayer ht).mp hLast)
      exact (h.idle hCfg hFits hDone hNotLast).stage hCfg hLayer (by omega) hStored

theorem Reachable.stage (hCfg : cfg.Valid) (hLayer : layer.Admitted cfg)
    (h : Reachable cfg layer output s) :
    Stage cfg layer output s :=
  Dataflow.Reachable.invariant (.initial rfl)
    (fun _ hRunning hs => hs.cycle hCfg hLayer hRunning) h

/-! ## What the elements do -/

/-- What a used element did since the tile was configured. -/
structure Paired (layer : GemmLayer) (t i j : Nat) (log : MultiplierOS.Log) : Prop where
  popped : ∃ q ≤ layer.K,
    log.popped.map (fun pair => (pair.1.data, pair.2.data)) =
      (List.range q).map fun n =>
        (layer.mkAddress ((layer.tileRow t * layer.tM + i) * layer.K + n),
          layer.knAddress ((layer.tileCol t * layer.tN + j) * layer.K + n))
  sentRight :
    log.sentRight = if j + 1 < layer.colsOf t then log.popped.map Prod.fst else []
  sentBottom :
    log.sentBottom = if i + 1 < layer.rowsOf t then log.popped.map Prod.snd else []

private theorem paired_element {i j : Nat} (h : layer.Used t i j) :
    Paired layer t i j (layer.element t σ i j).log := by
  rw [GemmLayer.element, if_pos h]
  refine ⟨⟨layer.popped σ i j, layer.popped_le σ i j, ?_⟩, ?_, ?_⟩
  · simp only [MultiplierOS.streaming, seg_zero_eq_map_range, List.map_map]
    rfl
  · simp [MultiplierOS.streaming, map_seg]
  · simp [MultiplierOS.streaming, map_seg]

/-- In every reachable state every used element has multiplied the next elements of
its row and its column pair by pair and passed them on inside the tile, the other
elements got nothing, and a reconfiguration finds nothing to discard. -/
theorem systolic_pairing (hCfg : cfg.Valid) (hLayer : layer.Admitted cfg)
    (h : Reachable cfg layer output s) :
    let t := s.mem.nReconfigurations - 1
    (∀ i j, layer.Used t i j → Paired layer t i j (s.mswitchtable (i, j)).log) ∧
    (∀ i < cfg.msRows, ∀ j < cfg.msCols, ¬layer.Used t i j →
      (s.mswitchtable (i, j)).log.receivedLeft = [] ∧
      (s.mswitchtable (i, j)).log.receivedTop = []) ∧
    (s.mem.currentState = .osConfiguring → ∀ i < cfg.msRows, ∀ j < cfg.msCols,
      (s.mswitchtable (i, j)).Drained ∧
      (s.accumulatortable (i * cfg.msCols + j)).inputFifo = [] ∧
      (s.conns (.rn (i * cfg.msCols + j))).existPendingData = false ∧
      (s.accumulatortable (i * cfg.msCols + j)).currentPsum = 0) := by
  rcases h.stage hCfg hLayer with rfl | ⟨t, σ, earlier, results, ht, hBefore, hRun⟩
  · refine ⟨fun i j _ => ?_, fun _ _ _ _ _ => ⟨rfl, rfl⟩, fun _ _ _ _ _ => ?_⟩
    · refine ⟨⟨0, Nat.zero_le _, rfl⟩, ?_, ?_⟩
      · exact (ite_self (c := j + 1 < _) ([] : List DataPackage)).symm
      · exact (ite_self (c := i + 1 < _) ([] : List DataPackage)).symm
    · exact ⟨⟨rfl, rfl, rfl, rfl⟩, rfl, rfl, rfl⟩
  · have hFits := GemmLayer.tileFits hLayer ht
    have hTile : s.mem.nReconfigurations - 1 = t := by
      rw [hRun.controlled.nReconfigurations, Nat.add_sub_cancel]
    simp only [hTile]
    refine ⟨fun i j hUsed => ?_, fun i hi j hj hUsed => ?_, fun hState i hi j hj => ?_⟩
    · have hi := lt_of_lt_of_le hUsed.1 hFits.rows_le
      have hj := lt_of_lt_of_le hUsed.2 hFits.cols_le
      rw [hRun.wavefront.elements i hi j hj]
      exact paired_element hUsed
    · rw [hRun.wavefront.elements i hi j hj, GemmLayer.element, if_neg hUsed]
      exact ⟨rfl, rfl⟩
    · rw [hRun.controlled.currentState, OSMeshSDMemory.controlState] at hState
      split at hState
      · cases hState
      · split at hState
        · cases hState
        · rename_i hMore
          split at hState
          · rename_i hDone
            have hIdle := hRun.idle hCfg hFits (of_decide_eq_true hDone) hMore
            have hAcc := hIdle.accumulators _ (OSMeshMN.rn_lt hi hj)
            refine ⟨(hIdle.elements i hi j hj).2, hAcc.1, ?_, hAcc.2.2.2⟩
            rw [Connection.existPendingData_eq]
            have hEmpty := hIdle.rn i hi j hj
            simpa [Connections.store] using hEmpty
          · cases hState

/-- A product of 3 by 2 and 2 by 3 matrices on a 2 by 2 mesh.  In cycle 4 the first element has
multiplied and passed on both of its pairs, and the one behind it its first.  In cycle 9 the
controller is about to start the second tile and finds nothing to discard.  In cycle 13 the
elements of this tile, of one column, have worked and the others have got nothing. -/
theorem systolic_pairing_second_tile :
    let layer : GemmLayer :=
      { M := 3, N := 3, K := 2, mkAddress := fun a => a, knAddress := fun a => a + 1,
        tM := 2, tN := 2 }
    let s : Nat → Tpu := fun n => (cycle (Config.mesh 2 2 1) layer)^[n] (init fun _ => 0)
    (((s 4).mswitchtable (0, 0)).log.sentRight.length = 2 ∧
        ((s 4).mswitchtable (0, 0)).log.sentBottom.length = 2 ∧
        Paired layer 0 0 0 ((s 4).mswitchtable (0, 0)).log ∧
        ((s 4).mswitchtable (1, 1)).log.popped.length = 1 ∧
        Paired layer 0 1 1 ((s 4).mswitchtable (1, 1)).log) ∧
      ((s 9).mem.currentState = .osConfiguring ∧
        ((s 9).mswitchtable (1, 1)).log.popped.length = 2 ∧
        ((s 9).mswitchtable (1, 1)).Drained ∧
        ((s 9).accumulatortable 3).inputFifo = []) ∧
      ((s 13).mem.nReconfigurations = 2 ∧
        ((s 13).mswitchtable (0, 0)).log.popped.length = 2 ∧
        Paired layer 1 0 0 ((s 13).mswitchtable (0, 0)).log ∧
        ((s 13).mswitchtable (0, 1)).log.receivedLeft = []) := by
  intro layer s
  have hCfg : (Config.mesh 2 2 1).Valid :=
    Config.mesh_valid (by decide) (by decide) (by decide)
  have hLayer : layer.Admitted (Config.mesh 2 2 1) :=
    ⟨by decide, by decide, by decide, by decide, by decide, by decide, by decide⟩
  have hReach : ∀ n ≤ 13, Reachable (Config.mesh 2 2 1) layer (fun _ => 0) (s n) := by
    have hRunning : ∀ m < 13, ¬(s m).isExecutionFinished := by decide +kernel
    exact fun n hn => ⟨n, fun m hm => hRunning m (hm.trans_le hn), rfl⟩
  have hFirst : (s 4).mem.nReconfigurations - 1 = 0 := by decide +kernel
  have hSecond : (s 13).mem.nReconfigurations - 1 = 1 := by decide +kernel
  have hState : (s 9).mem.currentState = .osConfiguring := by decide +kernel
  obtain ⟨hMultiplied, -, -⟩ := systolic_pairing hCfg hLayer (hReach 4 (by decide))
  obtain ⟨-, -, hDrained⟩ := systolic_pairing hCfg hLayer (hReach 9 (by decide))
  obtain ⟨hMultiplied', hUnused, -⟩ := systolic_pairing hCfg hLayer (hReach 13 (by decide))
  rw [hFirst] at hMultiplied
  rw [hSecond] at hMultiplied' hUnused
  obtain ⟨hElement, hAccumulator, -⟩ := hDrained hState 1 (by decide) 1 (by decide)
  have hLast : 1 * (Config.mesh 2 2 1).msCols + 1 = 3 := rfl
  rw [hLast] at hAccumulator
  refine ⟨⟨by decide +kernel, by decide +kernel, ?_, by decide +kernel, ?_⟩,
    ⟨hState, by decide +kernel, ?_, ?_⟩, by decide +kernel, by decide +kernel, ?_, ?_⟩
  · exact hMultiplied 0 0 (by decide)
  · exact hMultiplied 1 1 (by decide)
  · exact hElement
  · exact hAccumulator
  · exact hMultiplied' 0 0 (by decide)
  · exact (hUnused 0 (by decide) 1 (by decide) (by decide)).1

end

end Tpu

end Stonne
