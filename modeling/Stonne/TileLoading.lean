import Stonne.CommandLine
import Stonne.Maeri.Layer
import Stonne.Reduction.Joins

/-!
# Loading a tile

`Stonne::loadTile` asserts that there are enough multipliers, decides whether the tile folds,
and hands the tile to the compilers of the networks and to the memory controller, which have
assertions of their own.  All sizes are products of `unsigned int`.

The conversion of `n_folding` from a float is undefined where the float is no `unsigned int`;
its result is a parameter then.  Neurons behind the last multiplier are written behind the
vectors of the compilers, which no assertion notices.
-/

namespace Stonne

open Dataflow

namespace TileLoading

/-- The parameters of `loadTile`. -/
structure TileParameters where
  tR : UInt32
  tS : UInt32
  tC : UInt32
  tK : UInt32
  tG : UInt32
  tN : UInt32
  tX : UInt32
  tY : UInt32
  deriving DecidableEq, Repr

/-- The configuration that decides whether a tile is accepted. -/
structure LoadConfig where
  multiplierNetworkType : MultiplierNetworkType
  msSize : UInt32
  msRows : UInt32
  msCols : UInt32
  reduceNetworkType : ReduceNetwork
  accumulationBufferEnabled : UInt32
  memControllerType : MemoryControllerType
  deriving DecidableEq, Repr

/-- The class `Tile`. -/
structure LoadedTile extends TileParameters where
  folding : Bool
  vnSize : UInt32
  numVNs : UInt32
  deriving DecidableEq, Repr

/-- The constructor. -/
def LoadedTile.make (t : TileParameters) (folding : Bool) : LoadedTile :=
  { t with
    folding := folding
    vnSize := if folding then t.tR * t.tS * t.tC + 1 else t.tR * t.tS * t.tC
    numVNs := t.tK * t.tG * t.tN * t.tX * t.tY }

/-- `n_folding` -/
def nFoldingOf (layer : DNNLayer) (t : TileParameters) (undefinedValue : UInt32) : UInt32 :=
  let folds := nFolding layer.R layer.S layer.C t.tR.toNat t.tS.toNat t.tC.toNat
  if t.tR = 0 ∨ t.tS = 0 ∨ t.tC = 0 ∨ 2 ^ 32 ≤ folds then undefinedValue else UInt32.ofNat folds

/-- `folding_enabled` -/
def foldingEnabled (cfg : LoadConfig) (layer : DNNLayer) (t : TileParameters)
    (undefinedValue : UInt32) : Bool :=
  decide (1 < nFoldingOf layer t undefinedValue) && cfg.accumulationBufferEnabled == 0 &&
    cfg.reduceNetworkType != .fenetwork

/-! ## The compilers and the networks -/

/-- The assertions at the beginning of `configureSignals` of `CompilerART`, `CompilerFEN` and
`CompilerMSN`. -/
def compilerAccepts (numMs : UInt32) (tile : LoadedTile) : Bool :=
  CommandLine.ispowerof2 numMs.toNat && decide (tile.vnSize * tile.numVNs ≤ numMs)

/-- The constructors of the networks connect an even node with the odd one before it. -/
def hasForwardingConnection (level num : Nat) : Bool :=
  if num % 2 = 0 then decide (0 < num) else decide (num + 1 < 2 ^ level)

/-- The assertions while the signals are generated and while `forwardingConfiguration` sets
the directions of the links. -/
def signalsHold (numMs : Nat) (sig : AdderSignals) : Bool :=
  !sig.failed && (List.range (nlevelsOf numMs)).all fun l =>
    (List.range (2 ^ l)).all fun p =>
      (sig.fwlinksConfiguration (l, p)).isNone || hasForwardingConnection l p

/-- `configureSignals` of a tree whose compiler configures the neurons one after the other. -/
def treeAccepts (configure : Nat → AdderSignals → Nat × Nat → AdderSignals) (numMs : UInt32)
    (tile : LoadedTile) : Bool :=
  let vnSize := tile.vnSize.toNat
  let numVNs := tile.numVNs.toNat
  compilerAccepts numMs tile && (decide (numMs.toNat < vnSize * numVNs) ||
    signalsHold numMs.toNat ((blocks vnSize numVNs).foldl (configure numMs.toNat) {}))

/-- `configureSignals` of the reduction networks. -/
def asnetAccepts (network : ReduceNetwork) (numMs : UInt32) (tile : LoadedTile) : Bool :=
  match network with
  | .asnetwork => treeAccepts CompilerART.configureNeuron numMs tile
  | .fenetwork => treeAccepts CompilerFEN.configureNeuron numMs tile
  | .temporalrn => true

/-- `configureSignals` of the multiplier network. -/
def msnetAccepts (numMs : UInt32) (tile : LoadedTile) : Bool :=
  compilerAccepts numMs tile

/-! ## The memory controllers -/

/-- `current_vn` in `SDMemory::setTile`. -/
def currentVn (tile : LoadedTile) (n g k x y : UInt32) : UInt32 :=
  n * tile.tG * tile.tK * tile.tX * tile.tY + g * tile.tK * tile.tX * tile.tY +
    k * tile.tX * tile.tY + x * tile.tY + y

/-- A loop from zero to an `unsigned int`. -/
def forAllBelow (bound : UInt32) (body : UInt32 → Bool) : Bool :=
  (List.range bound.toNat).all fun i => body (UInt32.ofNat i)

/-- The assertions of `setTile`.  Only two memory controllers implement it. -/
def setTileAccepts (controller : MemoryControllerType) (tile : LoadedTile) : Bool :=
  match controller with
  | .maeriDenseWorkload =>
      forAllBelow tile.tN fun n => forAllBelow tile.tG fun g => forAllBelow tile.tK fun k =>
        forAllBelow tile.tX fun x => forAllBelow tile.tY fun y =>
          decide (currentVn tile n g k x y < tile.numVNs)
  | .tpuOsDense => true
  | .sigmaSparseGemm => false
  | .magmaSparseDense => false

/-! ## `loadTile` -/

/-- There are enough multipliers. -/
def enoughMultipliers (cfg : LoadConfig) (t : TileParameters) : Bool :=
  match cfg.multiplierNetworkType with
  | .linear => decide (t.tR * t.tS * t.tC * t.tK * t.tG * t.tN * t.tX * t.tY ≤ cfg.msSize)
  | .osMesh =>
      decide (t.tR * t.tS * t.tC * t.tK * t.tG * t.tN * t.tX * t.tY ≤ cfg.msRows * cfg.msCols)

/-- There are enough multipliers for the partial sums, too. -/
def enoughForPsums (cfg : LoadConfig) (t : TileParameters) : Bool :=
  decide (t.tR * t.tS * t.tC * t.tK * t.tG * t.tN * t.tX * t.tY +
    t.tK * t.tG * t.tN * t.tX * t.tY ≤ cfg.msSize)

/-- The tile that is loaded when no assertion fails. -/
def loadTile (cfg : LoadConfig) (layer : DNNLayer) (t : TileParameters)
    (undefinedValue : UInt32) : Option LoadedTile := do
  guard (enoughMultipliers cfg t)
  let folding := foldingEnabled cfg layer t undefinedValue
  if folding then
    guard (enoughForPsums cfg t)
  let tile := LoadedTile.make t folding
  if cfg.multiplierNetworkType ≠ .osMesh then
    guard (asnetAccepts cfg.reduceNetworkType cfg.msSize tile)
    guard (msnetAccepts cfg.msSize tile)
  guard (setTileAccepts cfg.memControllerType tile)
  return tile

/-! ## Exact sizes -/

namespace TileParameters

/-- The number of virtual neurons. -/
def neurons (t : TileParameters) : Nat :=
  t.tK.toNat * t.tG.toNat * t.tN.toNat * t.tX.toNat * t.tY.toNat

/-- The product of all parameters. -/
def product (t : TileParameters) : Nat :=
  t.tR.toNat * t.tS.toNat * t.tC.toNat * t.tK.toNat * t.tG.toNat * t.tN.toNat * t.tX.toNat *
    t.tY.toNat

/-- One multiplier for every product and, with folding, for every partial sum. -/
def needed (t : TileParameters) (folding : Bool) : Nat :=
  t.product + if folding then t.neurons else 0

/-- No parameter is zero. -/
structure Positive (t : TileParameters) : Prop where
  tR : 1 ≤ t.tR.toNat
  tS : 1 ≤ t.tS.toNat
  tC : 1 ≤ t.tC.toNat
  tK : 1 ≤ t.tK.toNat
  tG : 1 ≤ t.tG.toNat
  tN : 1 ≤ t.tN.toNat
  tX : 1 ≤ t.tX.toNat
  tY : 1 ≤ t.tY.toNat

end TileParameters

/-- The tile fits on the multipliers. -/
structure LoadedTile.Fits (tile : LoadedTile) (msSize : UInt32) : Prop where
  positive : tile.toTileParameters.Positive
  needed : tile.toTileParameters.needed tile.folding ≤ msSize.toNat

/-- The multipliers that the first assertion of `loadTile` counts. -/
def LoadConfig.limit (cfg : LoadConfig) : Nat :=
  match cfg.multiplierNetworkType with
  | .linear => cfg.msSize.toNat
  | .osMesh => cfg.msRows.toNat * cfg.msCols.toNat % 2 ^ 32

/-- A remainder modulo `2 ^ 32` is still too large, or the hardware has no use for a tile. -/
inductive Rejected (cfg : LoadConfig) (t : TileParameters) (folding : Bool) : Prop where
  | multipliers (h : cfg.limit < t.product % 2 ^ 32)
  | psums (hFolding : folding = true) (h : cfg.msSize.toNat < t.needed true % 2 ^ 32)
  | size (hLinear : cfg.multiplierNetworkType = .linear)
      (h : ¬cfg.msSize.toNat.isPowerOfTwo)
  | sparse (h : cfg.memControllerType = .sigmaSparseGemm ∨
      cfg.memControllerType = .magmaSparseDense)
  | neurons (hMaeri : cfg.memControllerType = .maeriDenseWorkload) (h : 2 ^ 32 ≤ t.neurons)

/-- No parameter is zero and nothing wraps around.  In the mesh the multipliers of a tile that
does not fold are compared with the rows and columns only. -/
structure Exact (cfg : LoadConfig) (t : TileParameters) (folding : Bool) : Prop where
  positive : t.Positive
  needed : t.needed folding < 2 ^ 32
  mesh : cfg.multiplierNetworkType = .osMesh → folding = false →
    t.product ≤ cfg.msSize.toNat

section

variable {cfg : LoadConfig} {t : TileParameters} {folding : Bool}

/-- Eight factors modulo `2 ^ 32`. -/
theorem product_toNat (t : TileParameters) :
    (t.tR * t.tS * t.tC * t.tK * t.tG * t.tN * t.tX * t.tY).toNat = t.product % 2 ^ 32 := by
  simp only [UInt32.toNat_mul, Nat.mod_mul_mod, TileParameters.product]

theorem neurons_toNat (t : TileParameters) :
    (t.tK * t.tG * t.tN * t.tX * t.tY).toNat = t.neurons % 2 ^ 32 := by
  simp only [UInt32.toNat_mul, Nat.mod_mul_mod, TileParameters.neurons]

theorem product_eq (t : TileParameters) :
    t.product = t.tR.toNat * t.tS.toNat * t.tC.toNat * t.neurons := by
  simp only [TileParameters.product, TileParameters.neurons, Nat.mul_assoc]

theorem enoughMultipliers_iff :
    enoughMultipliers cfg t = true ↔ t.product % 2 ^ 32 ≤ cfg.limit := by
  unfold enoughMultipliers LoadConfig.limit
  cases cfg.multiplierNetworkType with
  | linear => rw [decide_eq_true_iff, UInt32.le_iff_toNat_le, product_toNat]
  | osMesh => rw [decide_eq_true_iff, UInt32.le_iff_toNat_le, product_toNat, UInt32.toNat_mul]

theorem enoughForPsums_iff :
    enoughForPsums cfg t = true ↔ t.needed true % 2 ^ 32 ≤ cfg.msSize.toNat := by
  rw [enoughForPsums, decide_eq_true_iff, UInt32.le_iff_toNat_le, UInt32.toNat_add,
    product_toNat, neurons_toNat, ← Nat.add_mod]
  rfl

/-- The multipliers that the compilers count. -/
theorem blocks_toNat (t : TileParameters) (folding : Bool) :
    ((LoadedTile.make t folding).vnSize * (LoadedTile.make t folding).numVNs).toNat =
      t.needed folding % 2 ^ 32 := by
  have hNeurons := neurons_toNat t
  rw [UInt32.toNat_mul]
  simp only [LoadedTile.make]
  rw [hNeurons, Nat.mul_mod_mod]
  cases folding with
  | false =>
      simp only [Bool.false_eq_true, if_false, TileParameters.needed, product_eq,
        UInt32.toNat_mul, Nat.mod_mul_mod, Nat.add_zero]
  | true =>
      simp only [if_true, TileParameters.needed, product_eq, UInt32.toNat_add, UInt32.toNat_mul,
        Nat.mod_mul_mod, Nat.mod_add_mod, UInt32.toNat_one, Nat.add_mul, Nat.one_mul]

theorem ispowerof2_iff {n : Nat} : CommandLine.ispowerof2 n = true ↔ n.isPowerOfTwo := by
  rw [← Nat.ne_zero_and_sub_one_eq_zero_iff_isPowerOfTwo, CommandLine.ispowerof2,
    Bool.and_eq_true, bne_iff_ne, beq_iff_eq]

theorem compilerAccepts_iff {numMs : UInt32} :
    compilerAccepts numMs (LoadedTile.make t folding) = true ↔
      numMs.toNat.isPowerOfTwo ∧ t.needed folding % 2 ^ 32 ≤ numMs.toNat := by
  rw [compilerAccepts, Bool.and_eq_true, ispowerof2_iff, decide_eq_true_iff,
    UInt32.le_iff_toNat_le, blocks_toNat]

/-! The assertions behind the first ones hold. -/

theorem signalsHold_of_safe {L c : Nat} {sig : AdderSignals} (hSafe : LinksSafe L sig c) :
    signalsHold (2 ^ L) sig = true := by
  rw [signalsHold, nlevelsOf, Nat.log2_two_pow, hSafe.holds, Bool.not_false, Bool.true_and,
    List.all_eq_true]
  intro l hl
  rw [List.all_eq_true]
  intro p hp
  rw [List.mem_range] at hl hp
  rw [Bool.or_eq_true, hasForwardingConnection]
  rcases Decidable.em (p = 0 ∨ 2 ^ l ≤ p + 1) with hEnd | hInner
  · left
    rw [hSafe.edges l p hl hEnd]
    rfl
  · right
    split
    · exact decide_eq_true (by omega)
    · exact decide_eq_true (by omega)

theorem treeAccepts_eq {configure : Nat → AdderSignals → Nat × Nat → AdderSignals}
    (hNeuron : ∀ L sig shift size, shift + size ≤ 2 ^ L → LinksSafe L sig shift →
      LinksSafe L (configure (2 ^ L) sig (shift, size)) (shift + size))
    (numMs : UInt32) (tile : LoadedTile) :
    treeAccepts configure numMs tile = compilerAccepts numMs tile := by
  simp only [treeAccepts]
  cases hFirst : compilerAccepts numMs tile with
  | false => rfl
  | true =>
      rw [compilerAccepts, Bool.and_eq_true, ispowerof2_iff] at hFirst
      obtain ⟨L, hL⟩ := hFirst.1
      rw [Bool.true_and, Bool.or_eq_true, decide_eq_true_iff, hL]
      rcases Nat.lt_or_ge (2 ^ L) (tile.vnSize.toNat * tile.numVNs.toNat) with hBehind | hFits
      · exact .inl hBehind
      · exact .inr (signalsHold_of_safe (foldl_blocks (hNeuron L) hFits))

/-- The reduction network asserts nothing that the multiplier network does not assert. -/
theorem networks_eq (network : ReduceNetwork) (numMs : UInt32) (tile : LoadedTile) :
    (asnetAccepts network numMs tile && msnetAccepts numMs tile) =
      compilerAccepts numMs tile := by
  cases network with
  | asnetwork =>
      rw [asnetAccepts, treeAccepts_eq (fun _ _ _ _ => art_neuron), msnetAccepts, Bool.and_self]
  | fenetwork =>
      rw [asnetAccepts, treeAccepts_eq (fun _ _ _ _ => fen_neuron), msnetAccepts, Bool.and_self]
  | temporalrn => rfl

/-! The virtual neurons that `setTile` numbers. -/

/-- The tile with exact sizes. -/
def TileParameters.exact (t : TileParameters) (folding : Bool) : Tile where
  tR := t.tR.toNat
  tS := t.tS.toNat
  tC := t.tC.toNat
  tK := t.tK.toNat
  tG := t.tG.toNat
  tN := t.tN.toNat
  tX := t.tX.toNat
  tY := t.tY.toNat
  folding := folding

theorem currentVn_toNat (v : Neuron) :
    (currentVn (LoadedTile.make t folding) (UInt32.ofNat v.n) (UInt32.ofNat v.g)
        (UInt32.ofNat v.k) (UInt32.ofNat v.x) (UInt32.ofNat v.y)).toNat =
      (t.exact folding).currentVn v % 2 ^ 32 := by
  simp only [currentVn, LoadedTile.make, Tile.currentVn, TileParameters.exact, UInt32.toNat_add,
    UInt32.toNat_mul, UInt32.toNat_ofNat', Nat.mod_mul_mod, Nat.mod_add_mod, Nat.add_mod_mod]

theorem forAllBelow_iff {bound : UInt32} {body : UInt32 → Bool} :
    forAllBelow bound body = true ↔ ∀ i < bound.toNat, body (UInt32.ofNat i) = true := by
  simp only [forAllBelow, List.all_eq_true, List.mem_range]

theorem setTile_maeri :
    setTileAccepts .maeriDenseWorkload (LoadedTile.make t folding) = true ↔
      ∀ v : Neuron, v.InTile (t.exact folding) →
        (t.exact folding).currentVn v % 2 ^ 32 < t.neurons % 2 ^ 32 := by
  have hVN : (LoadedTile.make t folding).numVNs.toNat = t.neurons % 2 ^ 32 := neurons_toNat t
  simp only [setTileAccepts, forAllBelow_iff, decide_eq_true_iff, UInt32.lt_iff_toNat_lt, hVN]
  constructor
  · intro hAll v hv
    rw [← currentVn_toNat]
    exact hAll v.n hv.n v.g hv.g v.k hv.k v.x hv.x v.y hv.y
  · intro hAll n hn g hg k hk x hx y hy
    have hOne := hAll ⟨n, g, k, x, y⟩ ⟨hn, hg, hk, hx, hy⟩
    rw [← currentVn_toNat] at hOne
    exact hOne

/-- `current_vn` takes every value below the exact number of neurons. -/
theorem setTile_maeri_iff :
    setTileAccepts .maeriDenseWorkload (LoadedTile.make t folding) = true ↔
      t.neurons < 2 ^ 32 := by
  have hNum : (t.exact folding).numVNs = t.neurons := rfl
  rw [setTile_maeri]
  constructor
  · intro hAll
    by_contra hMany
    have hWrapped : t.neurons % 2 ^ 32 < (t.exact folding).numVNs := by
      rw [hNum]
      omega
    obtain ⟨v, hv, hNumber⟩ := Tile.exists_currentVn hWrapped
    have hOne := hAll v hv
    rw [hNumber, Nat.mod_mod] at hOne
    exact lt_irrefl _ hOne
  · intro hFew v hv
    have hBelow := Tile.currentVn_lt hv
    rw [hNum] at hBelow
    rw [Nat.mod_eq_of_lt (hBelow.trans hFew), Nat.mod_eq_of_lt hFew]
    exact hBelow

theorem setTileAccepts_iff :
    setTileAccepts cfg.memControllerType (LoadedTile.make t folding) = true ↔
      cfg.memControllerType ≠ .sigmaSparseGemm ∧ cfg.memControllerType ≠ .magmaSparseDense ∧
        (cfg.memControllerType = .maeriDenseWorkload → t.neurons < 2 ^ 32) := by
  cases hController : cfg.memControllerType with
  | maeriDenseWorkload => simp [setTile_maeri_iff]
  | sigmaSparseGemm => simp [setTileAccepts]
  | magmaSparseDense => simp [setTileAccepts]
  | tpuOsDense => simp [setTileAccepts]

end

/-! ## What is accepted -/

section

variable (cfg : LoadConfig) (layer : DNNLayer) (t : TileParameters) (undefinedValue : UInt32)

/-- The checks of a tile that folds or not, in the order of `loadTile`. -/
def accepts (folding : Bool) : Bool :=
  enoughMultipliers cfg t && (!folding || enoughForPsums cfg t) &&
    (cfg.multiplierNetworkType == .osMesh ||
      compilerAccepts cfg.msSize (LoadedTile.make t folding)) &&
    setTileAccepts cfg.memControllerType (LoadedTile.make t folding)

theorem loadTile_eq :
    loadTile cfg layer t undefinedValue =
      if accepts cfg t (foldingEnabled cfg layer t undefinedValue) then
        some (LoadedTile.make t (foldingEnabled cfg layer t undefinedValue))
      else none := by
  rw [loadTile]
  generalize foldingEnabled cfg layer t undefinedValue = folding
  have hNetworks := networks_eq cfg.reduceNetworkType cfg.msSize (LoadedTile.make t folding)
  simp only [accepts, ← hNetworks]
  generalize setTileAccepts cfg.memControllerType (LoadedTile.make t folding) = d
  generalize asnetAccepts cfg.reduceNetworkType cfg.msSize (LoadedTile.make t folding) = b
  generalize msnetAccepts cfg.msSize (LoadedTile.make t folding) = c
  generalize enoughForPsums cfg t = e
  generalize enoughMultipliers cfg t = a
  cases cfg.multiplierNetworkType <;> cases folding <;> cases a <;> cases b <;> cases c <;>
    cases d <;> cases e <;> rfl

variable {cfg t}

/-- A tile is accepted unless a remainder is too large or the hardware rejects it. -/
theorem accepts_iff {folding : Bool} : accepts cfg t folding = true ↔ ¬Rejected cfg t folding := by
  simp only [accepts, Bool.and_eq_true, Bool.or_eq_true, Bool.not_eq_true', beq_iff_eq]
  rw [enoughMultipliers_iff, enoughForPsums_iff, compilerAccepts_iff, setTileAccepts_iff]
  constructor
  · rintro ⟨⟨⟨hEnough, hPsums⟩, hSize⟩, hSigma, hMagma, hMaeri⟩ hRejected
    cases hRejected with
    | multipliers h => omega
    | psums hFolding h =>
        rcases hPsums with hOff | hOn
        · exact absurd hFolding (by rw [hOff]; exact Bool.false_ne_true)
        · omega
    | size hLinear h =>
        rcases hSize with hMesh | hPower
        · rw [hLinear] at hMesh
          cases hMesh
        · exact h hPower.1
    | sparse h => exact h.elim hSigma hMagma
    | neurons hController h =>
        have hFew := hMaeri hController
        omega
  · intro hAccepted
    have hEnough : t.product % 2 ^ 32 ≤ cfg.limit := by
      by_contra hMore
      exact hAccepted (.multipliers (by omega))
    have hPsums : folding = true → t.needed folding % 2 ^ 32 ≤ cfg.msSize.toNat := by
      rintro rfl
      by_contra hMore
      exact hAccepted (.psums rfl (by omega))
    refine ⟨⟨⟨hEnough, ?_⟩, ?_⟩, fun h => hAccepted (.sparse (.inl h)),
      fun h => hAccepted (.sparse (.inr h)), fun hController => ?_⟩
    · cases folding with
      | false => exact .inl rfl
      | true => exact .inr (hPsums rfl)
    · cases hNetwork : cfg.multiplierNetworkType with
      | osMesh => exact .inl rfl
      | linear =>
          refine .inr ⟨?_, ?_⟩
          · by_contra hPower
            exact hAccepted (.size hNetwork hPower)
          · cases folding with
            | true => exact hPsums rfl
            | false =>
                -- without folding the compilers count what the first assertion counted
                rw [LoadConfig.limit, hNetwork] at hEnough
                exact hEnough
    · by_contra hMany
      exact hAccepted (.neurons hController (by omega))

/-- An accepted tile fits exactly when nothing wraps around. -/
theorem fits_make_iff {folding : Bool} (hAccepted : ¬Rejected cfg t folding) :
    (LoadedTile.make t folding).Fits cfg.msSize ↔ Exact cfg t folding := by
  have hMs : cfg.msSize.toNat < 2 ^ 32 := cfg.msSize.toNat_lt
  constructor
  · intro hFits
    have hNeeded : t.needed folding ≤ cfg.msSize.toNat := hFits.needed
    refine ⟨hFits.positive, by omega, fun _ hOff => ?_⟩
    rw [hOff] at hNeeded
    exact hNeeded
  · intro hExact
    refine ⟨hExact.positive, ?_⟩
    have hSmall := hExact.needed
    cases folding with
    | true =>
        have hWrapped := mt (Rejected.psums rfl) hAccepted
        rw [Nat.mod_eq_of_lt hSmall] at hWrapped
        exact Nat.le_of_not_lt hWrapped
    | false =>
        have hProduct : t.needed false = t.product := Nat.add_zero _
        rw [hProduct] at hSmall
        have hWrapped := mt Rejected.multipliers hAccepted
        rw [Nat.mod_eq_of_lt hSmall] at hWrapped
        show t.needed false ≤ _
        rw [hProduct]
        cases hNetwork : cfg.multiplierNetworkType with
        | linear =>
            rw [LoadConfig.limit, hNetwork] at hWrapped
            exact Nat.le_of_not_lt hWrapped
        | osMesh => exact hExact.mesh hNetwork rfl

variable (cfg t)

/-- What `loadTile` returns fits if and only if the tile is rejected or nothing wraps around. -/
theorem fits_iff :
    (∀ tile, loadTile cfg layer t undefinedValue = some tile → tile.Fits cfg.msSize) ↔
      Rejected cfg t (foldingEnabled cfg layer t undefinedValue) ∨
        Exact cfg t (foldingEnabled cfg layer t undefinedValue) := by
  rw [loadTile_eq]
  generalize foldingEnabled cfg layer t undefinedValue = folding
  rcases Decidable.em (accepts cfg t folding = true) with hAccepts | hRejects
  · have hAccepted := accepts_iff.1 hAccepts
    rw [if_pos hAccepts, or_iff_right hAccepted, ← fits_make_iff hAccepted]
    constructor
    · exact fun hAll => hAll _ rfl
    · intro hFits tile hTile
      rwa [← Option.some.inj hTile]
  · rw [if_neg hRejects]
    have hRejected : Rejected cfg t folding := by
      by_contra hAccepted
      exact hRejects (accepts_iff.2 hAccepted)
    exact ⟨fun _ => .inl hRejected, fun _ _ hTile => by cases hTile⟩

variable {cfg t layer undefinedValue}

/-- The tiles of the other modules are those that fit. -/
theorem accepted_exact_iff {folding : Bool} {msSize : UInt32} :
    (t.exact folding).Accepted msSize.toNat ↔ (LoadedTile.make t folding).Fits msSize := by
  have hNeeded : (t.exact folding).vnSize * (t.exact folding).numVNs = t.needed folding := by
    rw [TileParameters.needed, product_eq]
    cases folding with
    | false => rfl
    | true => exact Nat.succ_mul _ _
  constructor
  · intro h
    refine ⟨⟨h.tR, h.tS, h.tC, h.tK, h.tG, h.tN, h.tX, h.tY⟩, ?_⟩
    exact hNeeded.symm.trans_le h.fits
  · rintro ⟨⟨hR, hS, hC, hK, hG, hN, hX, hY⟩, hFits⟩
    exact ⟨hR, hS, hC, hK, hG, hN, hX, hY, hNeeded.trans_le hFits⟩

/-- Among the tiles that `loadTile` returns they are those for which nothing wraps around. -/
theorem accepted_iff {tile : LoadedTile}
    (hLoaded : loadTile cfg layer t undefinedValue = some tile) :
    (t.exact tile.folding).Accepted cfg.msSize.toNat ↔ Exact cfg t tile.folding := by
  rw [loadTile_eq] at hLoaded
  split at hLoaded
  · rename_i hAccepts
    obtain rfl := Option.some.inj hLoaded
    exact accepted_exact_iff.trans (fits_make_iff (accepts_iff.1 hAccepts))
  · cases hLoaded

end

/-- A tile with no filters passes every assertion on 64 multipliers. -/
theorem no_filters_loaded :
    ¬∀ (cfg : LoadConfig) (layer : DNNLayer) (t : TileParameters) (undefinedValue : UInt32)
      (tile : LoadedTile), loadTile cfg layer t undefinedValue = some tile →
        tile.Fits cfg.msSize := by
  intro hAll
  let cfg : LoadConfig := ⟨.linear, 64, 0, 0, .asnetwork, 0, .maeriDenseWorkload⟩
  let t : TileParameters := ⟨1, 1, 1, 0, 1, 1, 1, 1⟩
  let layer := DNNLayer.ofUser 3 3 6 6 1 1 5 5 1
  have hAccepts : ∀ folding, accepts cfg t folding = true := by decide +kernel
  have hLoaded := loadTile_eq cfg layer t 0
  rw [if_pos (hAccepts _)] at hLoaded
  have hFits := hAll cfg layer t 0 _ hLoaded
  exact absurd hFits.positive.tK (by decide)

end TileLoading

end Stonne
