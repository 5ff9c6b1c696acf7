import Stonne.Lib.Radix
import Stonne.Tile

/-!
# Layers and the multipliers of a tile

A tile maps `T_N * T_G * T_K * T_X_ * T_Y_` virtual neurons at a time and gives each of
them `T_C * T_R * T_S` taps.  `SDMemory::setTile` numbers the neurons, and
`CompilerMSN::generate_ms_signals` hands the multipliers to them in blocks of
`VN_Size`.  When the tile folds, the first multiplier of a block brings back the partial
sum.
-/

namespace Stonne

open Dataflow

/-- The dimensions as `DNNLayer` keeps them: `C` and `K` count per group. -/
structure DNNLayer where
  R : Nat
  S : Nat
  C : Nat
  K : Nat
  G : Nat
  N : Nat
  X : Nat
  Y : Nat
  strides : Nat
  deriving DecidableEq, Repr

namespace DNNLayer

/-- The constructor: the user counts the channels and the filters of all groups. -/
def ofUser (R S C K G N X Y strides : Nat) : DNNLayer where
  R := R
  S := S
  C := C / G
  K := K / G
  G := G
  N := N
  X := X
  Y := Y
  strides := strides

/-- Rows of the output. -/
def outX (layer : DNNLayer) : Nat :=
  (layer.X - layer.R + layer.strides) / layer.strides

/-- Columns of the output. -/
def outY (layer : DNNLayer) : Nat :=
  (layer.Y - layer.S + layer.strides) / layer.strides

/-- `row_filter_size` -/
def rowFilterSize (layer : DNNLayer) : Nat :=
  layer.S * layer.C

/-- `filter_size` -/
def filterSize (layer : DNNLayer) : Nat :=
  layer.R * layer.S * layer.C

/-- `group_size` -/
def groupSize (layer : DNNLayer) : Nat :=
  layer.K * layer.R * layer.S * layer.C

/-- `input_size` -/
def inputSize (layer : DNNLayer) : Nat :=
  layer.X * layer.Y * layer.C * layer.G

/-- Where `sequential_layer` reads a weight. -/
def filterIndex (layer : DNNLayer) (g k r s c : Nat) : Nat :=
  g * layer.K * layer.filterSize + k * layer.filterSize + r * layer.S * layer.C +
    s * layer.C + c

/-- Where `sequential_layer` reads the activation of row `x` and column `y`. -/
def inputIndex (layer : DNNLayer) (n x y g c : Nat) : Nat :=
  n * (layer.G * layer.C * layer.X * layer.Y) + x * (layer.Y * layer.G * layer.C) +
    y * layer.C * layer.G + g * layer.C + c

/-- Where `sequential_layer` writes an output. -/
def outputIndex (layer : DNNLayer) (n x y g k : Nat) : Nat :=
  n * (layer.G * layer.K * layer.outX * layer.outY) + x * (layer.outY * layer.K * layer.G) +
    y * layer.K * layer.G + g * layer.K + k

end DNNLayer

/-- The tiles for which the assertions of `Stonne::loadTile` and `CompilerMSN::configureSignals` are
meant: no size is zero, and there is a multiplier for every tap and, when the tile folds, for
every partial sum.  The loader compares products of 32 bits.  It lets other tiles pass only if
one of them wraps or a size is zero, which `TileLoading.accepted_iff` makes precise. -/
structure Tile.Accepted (tile : Tile) (msSize : Nat) : Prop where
  tR : 0 < tile.tR
  tS : 0 < tile.tS
  tC : 0 < tile.tC
  tK : 0 < tile.tK
  tG : 0 < tile.tG
  tN : 0 < tile.tN
  tX : 0 < tile.tX
  tY : 0 < tile.tY
  fits : tile.vnSize * tile.numVNs ≤ msSize

/-- A virtual neuron of a tile, by its offsets from the first one. -/
structure Neuron where
  n : Nat
  g : Nat
  k : Nat
  x : Nat
  y : Nat
  deriving DecidableEq, Repr

/-- A tap of a virtual neuron. -/
structure Tap where
  c : Nat
  r : Nat
  s : Nat
  deriving DecidableEq, Repr

/-- The neuron is one of the tile. -/
structure Neuron.InTile (v : Neuron) (tile : Tile) : Prop where
  n : v.n < tile.tN
  g : v.g < tile.tG
  k : v.k < tile.tK
  x : v.x < tile.tX
  y : v.y < tile.tY

structure Tap.InTile (t : Tap) (tile : Tile) : Prop where
  c : t.c < tile.tC
  r : t.r < tile.tR
  s : t.s < tile.tS

namespace Tile

/-- `current_vn` of `SDMemory::setTile`. -/
def currentVn (tile : Tile) (v : Neuron) : Nat :=
  v.n * tile.tG * tile.tK * tile.tX * tile.tY + v.g * tile.tK * tile.tX * tile.tY +
    v.k * tile.tX * tile.tY + v.x * tile.tY + v.y

/-- `folding_shift` -/
def foldingShift (tile : Tile) : Nat :=
  if tile.folding then 1 else 0

/-- The number of a tap in its neuron. -/
def tapIndex (tile : Tile) (t : Tap) : Nat :=
  t.c * tile.tS * tile.tR + t.r * tile.tS + t.s

/-- The multiplier of a tap. -/
def multiplier (tile : Tile) (v : Neuron) (t : Tap) : Nat :=
  tile.currentVn v * tile.vnSize + (tile.tapIndex t + tile.foldingShift)

variable {tile : Tile} {v v' : Neuron} {t t' : Tap}

theorem currentVn_horner (tile : Tile) (v : Neuron) :
    tile.currentVn v =
      (((v.n * tile.tG + v.g) * tile.tK + v.k) * tile.tX + v.x) * tile.tY + v.y := by
  rw [currentVn]
  ring

private theorem tapIndex_horner (tile : Tile) (t : Tap) :
    tile.tapIndex t = (t.c * tile.tR + t.r) * tile.tS + t.s := by
  rw [tapIndex]
  ring

theorem currentVn_lt (hv : v.InTile tile) : tile.currentVn v < tile.numVNs := by
  have hLess := radix_lt (radix_lt (radix_lt (radix_lt hv.n hv.g) hv.k) hv.x) hv.y
  rw [currentVn_horner]
  calc _ < _ := hLess
    _ = tile.numVNs := by
      rw [numVNs]
      ring

theorem currentVn_inj (hv : v.InTile tile) (hv' : v'.InTile tile)
    (h : tile.currentVn v = tile.currentVn v') : v = v' := by
  rw [currentVn_horner, currentVn_horner] at h
  obtain ⟨h, hy⟩ := radix_inj hv.y hv'.y h
  obtain ⟨h, hx⟩ := radix_inj hv.x hv'.x h
  obtain ⟨h, hk⟩ := radix_inj hv.k hv'.k h
  obtain ⟨hn, hg⟩ := radix_inj hv.g hv'.g h
  cases v
  cases v'
  simp_all

theorem exists_currentVn {vn : Nat} (h : vn < tile.numVNs) :
    ∃ v : Neuron, v.InTile tile ∧ tile.currentVn v = vn := by
  have hProduct : tile.numVNs = (((tile.tN * tile.tG) * tile.tK) * tile.tX) * tile.tY := by
    rw [numVNs]
    ring
  rw [hProduct] at h
  obtain ⟨xs, hXs, y, hy, rfl⟩ := exists_radix h
  obtain ⟨ks, hKs, x, hx, rfl⟩ := exists_radix hXs
  obtain ⟨gs, hGs, k, hk, rfl⟩ := exists_radix hKs
  obtain ⟨n, hn, g, hg, rfl⟩ := exists_radix hGs
  exact ⟨⟨n, g, k, x, y⟩, ⟨hn, hg, hk, hx, hy⟩, currentVn_horner tile ⟨n, g, k, x, y⟩⟩

theorem tapIndex_lt (ht : t.InTile tile) :
    tile.tapIndex t + tile.foldingShift < tile.vnSize := by
  have hLess := radix_lt (radix_lt ht.c ht.r) ht.s
  rw [tapIndex_horner, vnSize, foldingShift]
  have hProduct : tile.tC * tile.tR * tile.tS = tile.tR * tile.tS * tile.tC := by ring
  omega

theorem tapIndex_inj (ht : t.InTile tile) (ht' : t'.InTile tile)
    (h : tile.tapIndex t = tile.tapIndex t') : t = t' := by
  rw [tapIndex_horner, tapIndex_horner] at h
  obtain ⟨h, hs⟩ := radix_inj ht.s ht'.s h
  obtain ⟨hc, hr⟩ := radix_inj ht.r ht'.r h
  cases t
  cases t'
  simp_all

theorem multiplier_inj (hv : v.InTile tile) (hv' : v'.InTile tile) (ht : t.InTile tile)
    (ht' : t'.InTile tile) (h : tile.multiplier v t = tile.multiplier v' t') :
    v = v' ∧ t = t' := by
  obtain ⟨hVn, hTap⟩ := radix_inj (tapIndex_lt ht) (tapIndex_lt ht') h
  exact ⟨currentVn_inj hv hv' hVn, tapIndex_inj ht ht' (Nat.add_right_cancel hTap)⟩

theorem multiplier_lt (hv : v.InTile tile) (ht : t.InTile tile) :
    tile.multiplier v t < tile.numVNs * tile.vnSize :=
  radix_lt (currentVn_lt hv) (tapIndex_lt ht)

/-- The multipliers of an accepted tile are there. -/
theorem Accepted.multiplier_lt {msSize : Nat} (h : tile.Accepted msSize) (hv : v.InTile tile)
    (ht : t.InTile tile) : tile.multiplier v t < msSize :=
  (Tile.multiplier_lt hv ht).trans_le ((Nat.mul_comm _ _).trans_le h.fits)

theorem multiplier_div (ht : t.InTile tile) :
    tile.multiplier v t / tile.vnSize = tile.currentVn v :=
  radix_div (tapIndex_lt ht)

theorem multiplier_mod (ht : t.InTile tile) :
    tile.multiplier v t % tile.vnSize = tile.tapIndex t + tile.foldingShift :=
  radix_mod (tapIndex_lt ht)

/-- Every multiplier of a neuron but the one for the partial sum is one of its taps. -/
theorem exists_multiplier {m : Nat} (h : m < tile.numVNs * tile.vnSize)
    (hTap : tile.foldingShift ≤ m % tile.vnSize) :
    ∃ v : Neuron, ∃ t : Tap, v.InTile tile ∧ t.InTile tile ∧ tile.multiplier v t = m := by
  obtain ⟨vn, hVn, j, hj, rfl⟩ := exists_radix h
  rw [radix_mod hj] at hTap
  obtain ⟨v, hv, rfl⟩ := exists_currentVn hVn
  have hProduct : tile.vnSize = tile.tC * tile.tR * tile.tS + tile.foldingShift := by
    rw [vnSize, foldingShift]
    ring
  have hOwn : j - tile.foldingShift < tile.tC * tile.tR * tile.tS := by omega
  obtain ⟨rs, hRs, s, hs, hSplit⟩ := exists_radix hOwn
  obtain ⟨c, hc, r, hr, rfl⟩ := exists_radix hRs
  refine ⟨v, ⟨c, r, s⟩, hv, ⟨hc, hr, hs⟩, ?_⟩
  rw [multiplier, tapIndex_horner, ← hSplit]
  omega

end Tile

namespace CompilerMSN

/-- The neuron of every multiplier in use: `ms_vn_configuration`. -/
def msVnConfiguration (tile : Tile) : Nat → Option Nat :=
  (List.range tile.numVNs).foldl
    (fun table i => (List.range tile.vnSize).foldl
      (fun table j => Function.update table (i * tile.vnSize + j) (some i)) table)
    fun _ => none

/-- The multipliers that bring back a partial sum: `forwarding_psum_enabled`. -/
def forwardingPsumEnabled (tile : Tile) : Nat → Option Bool :=
  (List.range tile.numVNs).foldl
    (fun table i => (List.range tile.vnSize).foldl
      (fun table j => Function.update table (i * tile.vnSize + j)
        (some (tile.folding && decide (j = 0)))) table)
    fun _ => none

theorem msVnConfiguration_eq (tile : Tile) (m : Nat) :
    msVnConfiguration tile m =
      if m < tile.numVNs * tile.vnSize then some (m / tile.vnSize) else none :=
  foldl_radix_update (fun i _ => some i) (fun _ => none) m

theorem forwardingPsumEnabled_eq (tile : Tile) (m : Nat) :
    forwardingPsumEnabled tile m =
      if m < tile.numVNs * tile.vnSize then
        some (tile.folding && decide (m % tile.vnSize = 0))
      else none :=
  foldl_radix_update (fun _ j => some (tile.folding && decide (j = 0))) (fun _ => none) m

/-- The multipliers that are no psum multipliers are the taps. -/
theorem forwardingPsumEnabled_eq_false_iff {tile : Tile} {m : Nat} :
    forwardingPsumEnabled tile m = some false ↔
      ∃ v : Neuron, ∃ t : Tap, v.InTile tile ∧ t.InTile tile ∧ tile.multiplier v t = m := by
  have hShift : ∀ j, (tile.folding && decide (j = 0)) = false ↔ tile.foldingShift ≤ j := by
    intro j
    rw [Tile.foldingShift]
    cases tile.folding with
    | false => simp
    | true => simp [Nat.one_le_iff_ne_zero]
  constructor
  · intro h
    rw [forwardingPsumEnabled_eq] at h
    split at h
    · rename_i hLess
      exact Tile.exists_multiplier hLess ((hShift _).mp (Option.some.inj h))
    · cases h
  · rintro ⟨v, t, hv, ht, rfl⟩
    rw [forwardingPsumEnabled_eq, if_pos (Tile.multiplier_lt hv ht), Tile.multiplier_mod ht,
      (hShift _).mpr (Nat.le_add_left _ _)]

end CompilerMSN

end Stonne
