import Stonne.Reduction.Joins
import Stonne.Reduction.TreeSums

/-!
# The tree for a tile, and for clusters

The neurons of a dense tile have one size, and those of a sparse round the sizes of the clusters.
-/

namespace Stonne

open Dataflow LevelState

/-! ## Dense tiles -/

namespace CompilerART

/-- The neurons of a tile on the multipliers. -/
def denseLayout {L : Nat} (tile : Tile) (hSize : 0 < tile.vnSize)
    (hFits : accepts (2 ^ L) tile = true) : Layout L where
  numVNs := tile.numVNs
  size _ := tile.vnSize
  size_pos _ _ := hSize
  fits := by
    rw [Finset.sum_const, Finset.card_range, smul_eq_mul, Nat.mul_comm]
    exact of_decide_eq_true hFits
  parts v _ := by
    rw [Finset.sum_const, Finset.card_range, smul_eq_mul, PartsAdder]
    rcases Nat.lt_or_ge tile.vnSize 3 with hSmall | hLarge
    · rcases (by omega : tile.vnSize = 1 ∨ tile.vnSize = 2) with hOne | hTwo
      · exact .inr ⟨hOne, hOne⟩
      · rw [hTwo]
        omega
    · omega

section

variable {L : Nat} {tile : Tile} {hSize : 0 < tile.vnSize}
  {hFits : accepts (2 ^ L) tile = true}

theorem denseLayout_shift (v : Nat) :
    (denseLayout tile hSize hFits).shift v = v * tile.vnSize := by
  rw [Layout.shift, denseLayout, Finset.sum_const, Finset.card_range, smul_eq_mul]

theorem denseLayout_configured (hSize : 0 < tile.vnSize)
    (hFits : accepts (2 ^ L) tile = true) :
    (denseLayout tile hSize hFits).Configured (ASNetwork.configureSignals (2 ^ L) tile) := by
  have hNeurons : (denseLayout tile hSize hFits).neurons = neurons tile := by
    refine List.map_congr_left fun v _ => ?_
    rw [denseLayout_shift]
    rfl
  refine ⟨Nat.log2_two_pow, _, art_compiled Layout.neurons_fit, ?_⟩
  rw [hNeurons, denseLayout_shift]
  change AdderSignals.switchConfig (nlevelsOf (2 ^ L)) _ _ = _
  rw [nlevelsOf, Nat.log2_two_pow]
  rfl

end

end CompilerART

/-- The tree that the compiler configures for a tile adds up the products of its neurons. -/
theorem denseTree_addsUp {L : Nat} (hL : 0 < L) {tile : Tile} (hSize : 0 < tile.vnSize)
    (hFits : CompilerART.accepts (2 ^ L) tile = true) (x : Nat → Nat → Int)
    (d : Deliveries (CompilerART.msUsed tile)) :
    (CompilerART.generateArtSignals (2 ^ L) tile).failed = false ∧
      AddsUp (TreeState.run (ASNetwork.configureSignals (2 ^ L) tile)
          (d.products (fun m => m / tile.vnSize) x))
        d.delivered x tile.numVNs (fun v => v * tile.vnSize) fun _ => tile.vnSize := by
  have hUsed : (CompilerART.denseLayout tile hSize hFits).shift tile.numVNs =
      CompilerART.msUsed tile := CompilerART.denseLayout_shift tile.numVNs
  have hShift : (CompilerART.denseLayout tile hSize hFits).shift = fun v => v * tile.vnSize :=
    funext CompilerART.denseLayout_shift
  refine ⟨generateArtSignals_holds (of_decide_eq_true hFits), ?_⟩
  rw [← hShift]
  exact Layout.addsUp (CompilerART.denseLayout_configured hSize hFits) hL x
    ⟨d.delivered, d.start, d.mono, fun t m hm => d.unused t m (hUsed ▸ hm)⟩ fun v hv m hm => by
      rw [Layout.covers_zero hv, CompilerART.denseLayout_shift,
        CompilerART.denseLayout_shift] at hm
      exact Nat.div_eq_of_lt_le hm.1 hm.2

/-- Two neurons of three multipliers, on eight of them. -/
theorem denseTree_addsUp_two :
    let tile : Tile := ⟨3, 1, 1, 2, 1, 1, 1, 1, false⟩
    (CompilerART.generateArtSignals (2 ^ 3) tile).failed = false ∧
      AddsUp (TreeState.run (ASNetwork.configureSignals (2 ^ 3) tile)
          ((Deliveries.steady (CompilerART.msUsed tile)).products (fun m => m / tile.vnSize)
            fun m w => m + w))
        (Deliveries.steady (CompilerART.msUsed tile)).delivered (fun m w => m + w) tile.numVNs
        (fun v => v * tile.vnSize) fun _ => tile.vnSize :=
  denseTree_addsUp (by decide) (by decide) (by decide) _ (Deliveries.steady _)

/-! ## Clusters -/

namespace CompilerART

/-- The multipliers of cluster `v`. -/
def clusterSize (sparseVNs : List SparseVN) (v : Nat) : Nat :=
  (sparseVNs[v]?.map SparseVN.vnSize).getD 0

/-- The first multiplier of cluster `v`. -/
def clusterShift (sparseVNs : List SparseVN) (v : Nat) : Nat :=
  ∑ u ∈ Finset.range v, clusterSize sparseVNs u

/-- No cluster is empty, and neighbours can part the adder below which they meet. -/
def ClustersPart (sparseVNs : List SparseVN) : Prop :=
  (∀ v < sparseVNs.length, 0 < clusterSize sparseVNs v) ∧
    ∀ v < sparseVNs.length, v + 1 < sparseVNs.length →
      PartsAdder (clusterShift sparseVNs (v + 1)) (clusterSize sparseVNs v)
        (clusterSize sparseVNs (v + 1))

section

variable {sparseVNs : List SparseVN}

theorem clusterSize_cons (vn : SparseVN) (v : Nat) :
    clusterSize (vn :: sparseVNs) (v + 1) = clusterSize sparseVNs v := by
  rw [clusterSize, clusterSize, List.getElem?_cons_succ]

theorem clusterShift_cons (vn : SparseVN) (v : Nat) :
    clusterShift (vn :: sparseVNs) (v + 1) = vn.vnSize + clusterShift sparseVNs v := by
  rw [clusterShift, Finset.sum_range_succ', Nat.add_comm]
  simp only [clusterSize_cons]
  rfl

theorem clusterSize_eq {v : Nat} {vn : SparseVN} (h : sparseVNs[v]? = some vn) :
    clusterSize sparseVNs v = vn.vnSize := by
  rw [clusterSize, h]
  rfl

theorem clusterShift_length :
    clusterShift sparseVNs sparseVNs.length = (sparseVNs.map (·.vnSize)).sum := by
  induction sparseVNs with
  | nil => rfl
  | cons vn rest ih =>
      rw [List.length_cons, clusterShift_cons, ih, List.map_cons, List.sum_cons]

theorem clusters_eq (sparseVNs : List SparseVN) (c : Nat) : clusters c sparseVNs =
    (List.range sparseVNs.length).map fun v =>
      (c + clusterShift sparseVNs v, clusterSize sparseVNs v) := by
  induction sparseVNs generalizing c with
  | nil => rfl
  | cons vn rest ih =>
      rw [clusters, ih, List.length_cons, List.range_succ_eq_map, List.map_cons, List.map_map]
      congr 1
      refine List.map_congr_left fun v _ => ?_
      rw [Function.comp_apply, clusterShift_cons, clusterSize_cons, Nat.add_assoc]

/-- The multipliers in use are those of the clusters. -/
theorem msUsedSparse_eq : msUsedSparse sparseVNs = (sparseVNs.map (·.vnSize)).sum := by
  rw [msUsedSparse, List.sum_eq_foldl, List.foldl_map]

/-- Clusters of three multipliers or more part their adders. -/
theorem clustersPart_of_three (h : ∀ vn ∈ sparseVNs, 3 ≤ vn.vnSize) :
    ClustersPart sparseVNs := by
  have hSize : ∀ v < sparseVNs.length, 3 ≤ clusterSize sparseVNs v := by
    intro v hv
    rw [clusterSize_eq (List.getElem?_eq_getElem hv)]
    exact h _ (List.getElem_mem hv)
  refine ⟨fun v hv => ?_, fun v hv hNext => ?_⟩
  · have hLarge := hSize v hv
    omega
  · have hLarge := hSize v hv
    have hLarge' := hSize (v + 1) hNext
    unfold PartsAdder
    omega

/-- The clusters on the multipliers. -/
def sparseLayout {L : Nat} (sparseVNs : List SparseVN) (hParts : ClustersPart sparseVNs)
    (hFits : msUsedSparse sparseVNs ≤ 2 ^ L) : Layout L where
  numVNs := sparseVNs.length
  size := clusterSize sparseVNs
  size_pos := hParts.1
  fits := by
    rw [msUsedSparse_eq, ← clusterShift_length] at hFits
    exact hFits
  parts v hv := hParts.2 v (Nat.lt_of_succ_lt hv) hv

theorem sparseLayout_configured {L : Nat} (hParts : ClustersPart sparseVNs)
    (hFits : msUsedSparse sparseVNs ≤ 2 ^ L) :
    (sparseLayout sparseVNs hParts hFits).Configured
      (ASNetwork.configureSparseSignals (2 ^ L) sparseVNs) := by
  have hNeurons : (sparseLayout sparseVNs hParts hFits).neurons = clusters 0 sparseVNs := by
    rw [clusters_eq]
    refine List.map_congr_left fun v _ => ?_
    rw [Nat.zero_add]
    rfl
  have hUsed : (sparseLayout sparseVNs hParts hFits).shift sparseVNs.length =
      msUsedSparse sparseVNs := by
    rw [msUsedSparse_eq, ← clusterShift_length]
    rfl
  refine ⟨Nat.log2_two_pow, _, art_compiled Layout.neurons_fit, ?_⟩
  change AdderSignals.switchConfig (nlevelsOf (2 ^ L)) _ _ = _
  rw [hNeurons, show (sparseLayout sparseVNs hParts hFits).numVNs = sparseVNs.length from rfl,
    hUsed, nlevelsOf, Nat.log2_two_pow]
  rfl

end

end CompilerART

/-- The tree that the compiler configures for clusters adds up the products of each. -/
theorem sparseTree_addsUp {L : Nat} (hL : 0 < L) {sparseVNs : List SparseVN}
    (hParts : CompilerART.ClustersPart sparseVNs)
    (hFits : CompilerART.msUsedSparse sparseVNs ≤ 2 ^ L) (x : Nat → Nat → Int)
    (d : Deliveries (CompilerART.msUsedSparse sparseVNs)) {vnOf : Nat → Nat}
    (hVn : ∀ v < sparseVNs.length, ∀ m < CompilerART.clusterSize sparseVNs v,
      vnOf (CompilerART.clusterShift sparseVNs v + m) = v) :
    (CompilerART.generateArtSignalsSparse (2 ^ L) sparseVNs).failed = false ∧
      AddsUp (TreeState.run (ASNetwork.configureSparseSignals (2 ^ L) sparseVNs)
          (d.products vnOf x))
        d.delivered x sparseVNs.length (CompilerART.clusterShift sparseVNs)
          (CompilerART.clusterSize sparseVNs) := by
  have hUsed : (CompilerART.sparseLayout sparseVNs hParts hFits).shift sparseVNs.length =
      CompilerART.msUsedSparse sparseVNs := by
    rw [CompilerART.msUsedSparse_eq, ← CompilerART.clusterShift_length]
    rfl
  refine ⟨generateArtSignalsSparse_holds (CompilerART.msUsedSparse_eq ▸ hFits), ?_⟩
  exact Layout.addsUp (CompilerART.sparseLayout_configured hParts hFits) hL
    x ⟨d.delivered, d.start, d.mono, fun t m hm => d.unused t m (hUsed ▸ hm)⟩ fun v hv m hm => by
      rw [Layout.covers_zero hv, Layout.shift_succ] at hm
      have hSame := hVn v hv (m - CompilerART.clusterShift sparseVNs v) (by
        change CompilerART.clusterShift sparseVNs v ≤ m ∧ _ <
          CompilerART.clusterShift sparseVNs v + CompilerART.clusterSize sparseVNs v at hm
        omega)
      have hBack : CompilerART.clusterShift sparseVNs v +
          (m - CompilerART.clusterShift sparseVNs v) = m := Nat.add_sub_cancel' hm.1
      rwa [hBack] at hSame

/-- Clusters of three, five and four multipliers, of which the second folds. -/
theorem sparseTree_addsUp_three :
    let sparseVNs : List SparseVN := [⟨3, false⟩, ⟨5, true⟩, ⟨4, false⟩]
    (CompilerART.generateArtSignalsSparse (2 ^ 4) sparseVNs).failed = false ∧
      AddsUp (TreeState.run (ASNetwork.configureSparseSignals (2 ^ 4) sparseVNs)
          ((Deliveries.steady (CompilerART.msUsedSparse sparseVNs)).products
            (fun m => if m < 3 then 0 else if m < 9 then 1 else 2) fun m w => m - w))
        (Deliveries.steady (CompilerART.msUsedSparse sparseVNs)).delivered (fun m w => m - w)
        sparseVNs.length (CompilerART.clusterShift sparseVNs)
        (CompilerART.clusterSize sparseVNs) :=
  sparseTree_addsUp (by decide) (CompilerART.clustersPart_of_three (by decide)) (by decide) _
    (Deliveries.steady _) (by decide)

end Stonne
