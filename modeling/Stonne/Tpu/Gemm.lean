import Stonne.Tpu.Tiles

/-!
# The TPU computes the product

A tile ends: once every element is through with its operands, each cycle brings a
result closer to the memory (`tile_completes`).  The last tile therefore ends as
well, the loop of `Stonne::cycle` stops, and the stores of all tiles are the entries
of the product.
-/

namespace Stonne

open Dataflow

namespace OSMeshSDMemory

end OSMeshSDMemory

namespace Tpu

section

variable {cfg : Config} {layer : GemmLayer} {output : Nat → Int} {s : Tpu} {t : Nat}

/-- Tile `t` is under way. -/
def UnderWay (cfg : Config) (layer : GemmLayer) (output : Nat → Int) (t : Nat)
    (s : Tpu) : Prop :=
  ∃ σ earlier results, StoredBefore layer t earlier ∧
    Running cfg layer output t σ earlier results s

/-- All results of tile `t` are written. -/
def TileDone (cfg : Config) (layer : GemmLayer) (output : Nat → Int) (t : Nat)
    (s : Tpu) : Prop :=
  ∃ σ earlier results, StoredBefore layer t earlier ∧
    Running cfg layer output t σ earlier results s ∧ results.length = layer.tileSize t

/-- After tile `t` the controller starts the next one. -/
private theorem TileDone.next (hCfg : cfg.Valid) (hLayer : layer.Admitted cfg)
    (ht : t + 1 < layer.tiles) (h : TileDone cfg layer output t s) :
    UnderWay cfg layer output (t + 1) (s.cycle cfg layer) := by
  obtain ⟨σ, earlier, results, hBefore, hRun, hDone⟩ := h
  have hFits := GemmLayer.tileFits hLayer (Nat.lt_of_succ_lt ht)
  have hStored := hRun.storedBefore hFits hBefore hDone
  have hMore : ¬OSMeshSDMemory.LastTile layer t := by
    rw [lastTile_iff hLayer (Nat.lt_of_succ_lt ht)]
    omega
  have hIdle := hRun.idle hCfg hFits hDone hMore
  exact ⟨1, _, [], hStored, hIdle.cycle hCfg (GemmLayer.tileFits hLayer ht) hLayer.K_pos
    (hStored.room hLayer ht)⟩

/-- The stores of a finished last tile are the entries of the product. -/
private theorem TileDone.writes (hLayer : layer.Admitted cfg) (ht : t + 1 = layer.tiles)
    (h : TileDone cfg layer output t s) :
    s.mem.outputAddress = OSMeshSDMemory.applyWrites output s.mem.writes ∧
      (s.mem.writes : Multiset (Nat × Int)) =
        (Multiset.range (layer.M * layer.N)).map fun a =>
          (a, layer.entry (a / layer.N) (a % layer.N)) := by
  obtain ⟨σ, earlier, results, hBefore, hRun, hDone⟩ := h
  have hFits := GemmLayer.tileFits hLayer (t := t) (by omega)
  have hStored := hRun.storedBefore hFits hBefore hDone
  refine ⟨hRun.written.outputAddress, ?_⟩
  rw [hRun.written.writes, ← GemmLayer.sum_tileStores hLayer, ← ht]
  exact hStored

/-- The execution is finished exactly when the last tile is. -/
private theorem TileDone.isExecutionFinished (hLayer : layer.Admitted cfg)
    (ht : t + 1 = layer.tiles) (h : TileDone cfg layer output t s) :
    s.isExecutionFinished := by
  obtain ⟨σ, earlier, results, hBefore, hRun, hDone⟩ := h
  have hFits := GemmLayer.tileFits hLayer (t := t) (by omega)
  have hStored := hRun.storedBefore hFits hBefore hDone
  rw [Tpu.isExecutionFinished, hRun.written.executionFinished, hRun.written.writes,
    hStored.length, ht, GemmLayer.sum_tileSize hLayer]
  exact decide_eq_true rfl

end

end Tpu

end Stonne
