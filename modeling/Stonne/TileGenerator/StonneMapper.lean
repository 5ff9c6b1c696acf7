import Stonne.Lib.Binary32
import Stonne.Tile

/-!
# The tiles of StonneMapper

`addTilesPowersOfTwo` enumerates the tiles of a dense GEMM whose edges are powers of
two.  The tile that `generateDenseGemmTile` returns is the one with the best heuristic
value; here it may be any of them.  `loadTile` and the compiler of the multiplier
network then check the tile against the hardware.

The integers are those of the code: `unsigned int` has 32 bits and
`unsigned long long` has 64.
-/

namespace Stonne

/-- The value of an `unsigned int`. -/
def uint (n : Nat) : Nat :=
  n % 2 ^ 32

/-- The value of an `unsigned long long`. -/
def ull (n : Nat) : Nat :=
  n % 2 ^ 64

inductive MultiplierNetworkType where
  | linear
  | osMesh
  deriving DecidableEq, Repr

/-- The parameters of the hardware that the checks read. -/
structure HardwareConfig where
  multiplierNetworkType : MultiplierNetworkType
  msSize : Nat
  msRows : Nat
  msCols : Nat
  accumulationBufferEnabled : Bool
  /-- The reduction network is a `FENetwork`. -/
  fenetwork : Bool
  deriving DecidableEq, Repr

/-- `n_folding` of `Stonne::loadTile`. -/
def nFolding (R S C tR tS tC : Nat) : Nat :=
  ⌊Binary32.round (Binary32.round (Binary32.ceilDiv R tR * Binary32.ceilDiv S tS) *
    Binary32.ceilDiv C tC)⌋₊

/-- The checks on the way of a tile: the resource assertions of `Stonne::loadTile` for
a layer with filters of `R`, `S` and `C`, and the assertions of the compiler that
configures the multiplier network and the reduction network. -/
def loadTile (cfg : HardwareConfig) (R S C : Nat) (tR tS tC tK tG tN tX tY : Nat) : Bool :=
  let multipliers := uint (tR * tS * tC * tK * tG * tN * tX * tY)
  let numVNs := uint (tK * tG * tN * tX * tY)
  let foldingEnabled := decide (1 < nFolding R S C tR tS tC) &&
    !cfg.accumulationBufferEnabled && !cfg.fenetwork
  let vnSize := uint (uint (tR * tS * tC) + if foldingEnabled then 1 else 0)
  (match cfg.multiplierNetworkType with
    | .linear => decide (multipliers ≤ cfg.msSize)
    | .osMesh => decide (multipliers ≤ uint (cfg.msRows * cfg.msCols))) &&
  (!foldingEnabled || decide (uint (multipliers + numVNs) ≤ cfg.msSize)) &&
  match cfg.multiplierNetworkType with
    | .linear => decide (uint (vnSize * numVNs) ≤ cfg.msSize)
    | .osMesh => decide (tK ≤ cfg.msCols) && decide (uint (tX * tY) ≤ cfg.msRows)

/-- `loadGEMMTile` for a GEMM with inner dimension `K`, which is a layer with `R` and
`C` equal to 1. -/
def loadGEMMTile (cfg : HardwareConfig) (K tN tK tM : Nat) : Bool :=
  loadTile cfg 1 K 1 1 tK 1 tN 1 1 tM 1

namespace StonneMapper

structure DenseGemmTile where
  tM : Nat
  tN : Nat
  tK : Nat
  deriving DecidableEq, Repr

/-- The values of a loop variable that starts with `t` and is doubled as long as it is
at most `limit`, in at most `fuel` rounds. -/
def doublings (limit : Nat) : Nat → Nat → List Nat
  | 0, _ => []
  | fuel + 1, t => if t ≤ limit then t :: doublings limit fuel (ull (t * 2)) else []

/-- The constructor of `TileOptionDenseGemm`. -/
def tileOption (M N K tM tN tK : Nat) : DenseGemmTile where
  tM := min M (uint tM)
  tN := min N (uint tN)
  tK := min K (uint tK)

/-- The tiles that `addTilesPowersOfTwo` adds to the options. -/
def addTilesPowersOfTwo (M N K numMs : Nat) : List DenseGemmTile :=
  (doublings M 33 1).flatMap fun tM =>
    (doublings N 33 1).flatMap fun tN =>
      (doublings K 33 (if K = 1 then 1 else 2)).flatMap fun tK =>
        if tM ≤ uint (M * 2) ∧ tN ≤ uint (N * 2) ∧ tK ≤ uint (K * 2) ∧
            ull (tM * tN * tK) ≤ numMs then
          [tileOption M N K tM tN tK]
        else []

/-! ## The enumeration -/

theorem mem_doublings {limit : Nat} (hLimit : limit < 2 ^ 32) (fuel : Nat) {s t : Nat} :
    t ∈ doublings limit fuel s ↔ ∃ i < fuel, t = s * 2 ^ i ∧ t ≤ limit := by
  induction fuel generalizing s with
  | zero => simp [doublings]
  | succ fuel ih =>
      by_cases hs : s ≤ limit
      · have hDouble : ull (s * 2) = s * 2 := Nat.mod_eq_of_lt (by omega)
        rw [doublings, if_pos hs, List.mem_cons, ih, hDouble]
        constructor
        · rintro (rfl | ⟨i, hi, rfl, hLe⟩)
          · exact ⟨0, by omega, by simp, hs⟩
          · exact ⟨i + 1, by omega, by ring, hLe⟩
        · rintro ⟨i, hi, rfl, hLe⟩
          cases i with
          | zero => exact Or.inl (by simp)
          | succ i => exact Or.inr ⟨i, by omega, by ring, hLe⟩
      · rw [doublings, if_neg hs]
        simp only [List.not_mem_nil, false_iff, not_exists, not_and]
        intro i _ hEq
        have := Nat.le_mul_of_pos_right s (Nat.two_pow_pos i)
        omega

/-- The largest edge of a tile that the enumeration admits along a dimension. -/
def edgeLimit (dim : Nat) : Nat :=
  min dim (uint (dim * 2))

/-- The smallest exponent of `T_K`. -/
def firstExponent (K : Nat) : Nat :=
  if K = 1 then 0 else 1

private theorem start_eq (K : Nat) :
    (if K = 1 then 1 else 2) = 2 ^ firstExponent K := by
  unfold firstExponent
  split <;> rfl

/-- The options are the tiles of powers of two within the limits that use at most
`numMs` multipliers, as far as the product fits into 64 bits. -/
theorem mem_addTilesPowersOfTwo {M N K numMs : Nat} (hM : M < 2 ^ 32) (hN : N < 2 ^ 32)
    (hK : K < 2 ^ 32) {t : DenseGemmTile} :
    t ∈ addTilesPowersOfTwo M N K numMs ↔
      ∃ a b c, 2 ^ a ≤ edgeLimit M ∧ 2 ^ b ≤ edgeLimit N ∧ 2 ^ c ≤ edgeLimit K ∧
        firstExponent K ≤ c ∧ ull (2 ^ (a + b + c)) ≤ numMs ∧
        t = { tM := 2 ^ a, tN := 2 ^ b, tK := 2 ^ c } := by
  have hExponent : ∀ {i dim : Nat}, dim < 2 ^ 32 → 2 ^ i ≤ dim → i < 32 := by
    intro i dim hDim hi
    exact (Nat.pow_lt_pow_iff_right (by omega)).mp (lt_of_le_of_lt hi hDim)
  have hUint : ∀ {i dim : Nat}, dim < 2 ^ 32 → 2 ^ i ≤ dim → min dim (uint (2 ^ i)) = 2 ^ i := by
    intro i dim hDim hi
    rw [uint, Nat.mod_eq_of_lt (by omega), min_eq_right hi]
  simp only [addTilesPowersOfTwo, List.mem_flatMap, mem_doublings hM, mem_doublings hN,
    mem_doublings hK, start_eq, edgeLimit, le_min_iff]
  constructor
  · rintro ⟨_, ⟨a, -, rfl, ha⟩, _, ⟨b, -, rfl, hb⟩, _, ⟨c, -, rfl, hc⟩, hMem⟩
    rw [← pow_add] at hc hMem
    simp only [one_mul] at ha hb hMem
    split at hMem
    · rename_i hGuard
      obtain ⟨hGuardM, hGuardN, hGuardK, hProduct⟩ := hGuard
      rw [← pow_add, ← pow_add] at hProduct
      refine ⟨a, b, firstExponent K + c, ⟨ha, hGuardM⟩, ⟨hb, hGuardN⟩, ⟨hc, hGuardK⟩,
        by omega, hProduct, ?_⟩
      rw [List.mem_singleton.mp hMem, tileOption, hUint hM ha, hUint hN hb, hUint hK hc]
    · simp at hMem
  · rintro ⟨a, b, c, ⟨ha, hGuardM⟩, ⟨hb, hGuardN⟩, ⟨hc, hGuardK⟩, hFirst, hProduct, rfl⟩
    have haBound := hExponent hM ha
    have hbBound := hExponent hN hb
    have hcBound := hExponent hK hc
    have hSplit : 2 ^ firstExponent K * 2 ^ (c - firstExponent K) = 2 ^ c := by
      rw [← pow_add]
      congr 1
      omega
    refine ⟨2 ^ a, ⟨a, by omega, by simp, ha⟩, 2 ^ b, ⟨b, by omega, by simp, hb⟩, 2 ^ c,
      ⟨c - firstExponent K, by omega, hSplit.symm, hc⟩, ?_⟩
    rw [if_pos ⟨hGuardM, hGuardN, hGuardK, by rwa [← pow_add, ← pow_add]⟩, tileOption,
      hUint hM ha, hUint hN hb, hUint hK hc]
    simp

/-! ## The checks -/

/-- The hardware that the tool offers with `2 ^ L` multipliers.  Behind the linear
network the accumulation buffer is enabled. -/
structure Offered (cfg : HardwareConfig) (L : Nat) : Prop where
  levels : 1 ≤ L
  word : L < 32
  msSize : cfg.msSize = 2 ^ L
  linear : cfg.multiplierNetworkType = .linear → cfg.accumulationBufferEnabled = true
  mesh : cfg.multiplierNetworkType = .osMesh →
    cfg.msRows * cfg.msCols = 2 ^ L ∧ cfg.fenetwork = false

/-- The tile lies within the GEMM and passes every check. -/
def TileAccepted (cfg : HardwareConfig) (M N K : Nat) (t : DenseGemmTile) : Prop :=
  1 ≤ t.tM ∧ t.tM ≤ M ∧ 1 ≤ t.tN ∧ t.tN ≤ N ∧ 1 ≤ t.tK ∧ t.tK ≤ K ∧
    loadGEMMTile cfg K t.tN t.tK t.tM = true

/-- There is a tile to choose, and every tile that may be chosen is accepted. -/
def MapperAccepted (cfg : HardwareConfig) (M N K : Nat) : Prop :=
  addTilesPowersOfTwo M N K cfg.msSize ≠ [] ∧
    ∀ t ∈ addTilesPowersOfTwo M N K cfg.msSize, TileAccepted cfg M N K t

/-- The largest exponent along a dimension. -/
def topExponent (dim : Nat) : Nat :=
  Nat.log 2 (edgeLimit dim)

/-- The condition on the mesh.  The largest edges stay within the mesh unless the
other side of the mesh is too small for a larger tile, their product does not wrap to
zero, and without the accumulation buffer no tile that folds takes all multipliers. -/
structure FitsMesh (cfg : HardwareConfig) (M N K : Nat) : Prop where
  rows : edgeLimit M < 2 * cfg.msRows ∨ cfg.msCols < 2 * 2 ^ firstExponent K
  cols : edgeLimit N < 2 * cfg.msCols ∨ cfg.msRows < 2 * 2 ^ firstExponent K
  product : topExponent M + topExponent N + topExponent K < 64
  folding : cfg.accumulationBufferEnabled = true ∨
    ∀ c, firstExponent K ≤ c → c ≤ topExponent K → 1 < nFolding 1 K 1 1 (2 ^ c) 1 →
      2 ^ (topExponent M + topExponent N + c) < cfg.msSize

/-- Doubling an edge does not wrap to zero, and the tiles fit a mesh. -/
def TilesFit (cfg : HardwareConfig) (M N K : Nat) : Prop :=
  M ≠ 2 ^ 31 ∧ N ≠ 2 ^ 31 ∧ K ≠ 2 ^ 31 ∧
    (cfg.multiplierNetworkType = .linear ∨ FitsMesh cfg M N K)

private theorem nFolding_gemm {K t : Nat} :
    1 < nFolding 1 K 1 1 t 1 ↔ 1 < Binary32.ceilDiv K t := by
  have hOne : Binary32.ceilDiv 1 1 = 1 := by
    apply le_antisymm
    · exact Binary32.ceilDiv_le (by omega) (by omega) (by norm_num) (by omega)
    · exact Binary32.ceilDiv_pos (by omega) (by omega)
  rw [nFolding, hOne, Nat.cast_one, one_mul, mul_one]
  have hTwo : Binary32.round 2 = 2 := by
    simpa using Binary32.round_natCast (n := 2) (by norm_num)
  constructor
  · intro h
    by_contra hSmall
    have hLe : Binary32.ceilDiv K t ≤ 1 := by omega
    have hRound : Binary32.round (Binary32.ceilDiv K t : ℚ) = Binary32.ceilDiv K t :=
      Binary32.round_natCast (by omega)
    rw [hRound, hRound, Nat.floor_natCast] at h
    omega
  · intro h
    have hLe : (2 : ℚ) ≤ Binary32.ceilDiv K t := by exact_mod_cast h
    have hRound := Binary32.round_mono (by norm_num) hLe
    rw [hTwo] at hRound
    have hAgain := Binary32.round_mono (by norm_num) hRound
    rw [hTwo] at hAgain
    exact Nat.le_floor (by exact_mod_cast hAgain)

private theorem uint_of_lt {n : Nat} (h : n < 2 ^ 32) : uint n = n :=
  Nat.mod_eq_of_lt h

private theorem uint_le_of_ull_le {n bound : Nat} (h : ull n ≤ bound) : uint n ≤ bound := by
  have hMod : n % 2 ^ 64 % 2 ^ 32 = n % 2 ^ 32 :=
    Nat.mod_mod_of_dvd n (by norm_num)
  have hLe := Nat.mod_le (n % 2 ^ 64) (2 ^ 32)
  rw [hMod] at hLe
  exact hLe.trans h

/-- Every option passes the checks of the linear network. -/
private theorem loadGEMMTile_linear {cfg : HardwareConfig} {L K a b c : Nat}
    (hOffered : Offered cfg L) (hLinear : cfg.multiplierNetworkType = .linear)
    (hProduct : ull (2 ^ (a + b + c)) ≤ cfg.msSize) :
    loadGEMMTile cfg K (2 ^ b) (2 ^ c) (2 ^ a) = true := by
  have hUint := uint_le_of_ull_le hProduct
  have hSwap : 2 ^ c * 2 ^ b * 2 ^ a = 2 ^ (a + b + c) := by ring
  have hVN : uint (uint (uint (2 ^ c)) * uint (2 ^ b * 2 ^ a)) =
      uint (2 ^ (a + b + c)) := by
    rw [← hSwap]
    simp only [uint, Nat.mod_mod]
    rw [← Nat.mul_mod, mul_assoc]
  simp [loadGEMMTile, loadTile, hLinear, hOffered.linear hLinear, hSwap, hVN, hUint]

/-- The checks of the mesh. -/
private theorem loadGEMMTile_mesh {cfg : HardwareConfig} {L K a b c : Nat}
    (hOffered : Offered cfg L) (hMesh : cfg.multiplierNetworkType = .osMesh) :
    loadGEMMTile cfg K (2 ^ b) (2 ^ c) (2 ^ a) = true ↔
      uint (2 ^ (a + b + c)) ≤ 2 ^ L ∧
        (cfg.accumulationBufferEnabled = false → 1 < nFolding 1 K 1 1 (2 ^ c) 1 →
          uint (uint (2 ^ (a + b + c)) + uint (2 ^ (a + b))) ≤ 2 ^ L) ∧
        2 ^ b ≤ cfg.msCols ∧ uint (2 ^ a) ≤ cfg.msRows := by
  obtain ⟨hArea, hTemporal⟩ := hOffered.mesh hMesh
  have hSwap : 2 ^ c * 2 ^ b * 2 ^ a = 2 ^ (a + b + c) := by ring
  have hSwap' : 2 ^ b * 2 ^ a = 2 ^ (a + b) := by ring
  have hWord : uint (2 ^ L) = 2 ^ L :=
    uint_of_lt (Nat.pow_lt_pow_right (by omega) hOffered.word)
  by_cases hFold : 1 < nFolding 1 K 1 1 (2 ^ c) 1
  · cases hBuffer : cfg.accumulationBufferEnabled with
    | true =>
        simp [loadGEMMTile, loadTile, hMesh, hArea, hTemporal, hBuffer, hSwap, hWord]
    | false =>
        simp [loadGEMMTile, loadTile, hMesh, hArea, hTemporal, hBuffer, hSwap, hSwap',
          hWord, hFold, hOffered.msSize, and_assoc]
  · simp [loadGEMMTile, loadTile, hMesh, hArea, hTemporal, hSwap, hWord, hFold]

/-! ## The condition -/

private theorem edgeLimit_pos {dim : Nat} (hPos : 1 ≤ dim) (hDim : dim < 2 ^ 32)
    (hWrap : dim ≠ 2 ^ 31) : 1 ≤ edgeLimit dim ∧ min dim 2 ≤ edgeLimit dim := by
  unfold edgeLimit uint
  omega

private theorem edgeLimit_wrap : edgeLimit (2 ^ 31) = 0 := by
  decide

private theorem edgeLimit_lt {dim : Nat} (hDim : dim < 2 ^ 32) : edgeLimit dim < 2 ^ 32 :=
  lt_of_le_of_lt (Nat.min_le_left _ _) hDim

private theorem first_le_edgeLimit {K : Nat} (hPos : 1 ≤ K) (hK : K < 2 ^ 32)
    (hWrap : K ≠ 2 ^ 31) : 2 ^ firstExponent K ≤ edgeLimit K := by
  have hLimit := edgeLimit_pos hPos hK hWrap
  unfold firstExponent
  split
  · exact hLimit.1
  · have := hLimit.2
    omega

private theorem pow_le_edgeLimit {dim i : Nat} (h : 1 ≤ edgeLimit dim) :
    2 ^ i ≤ edgeLimit dim ↔ i ≤ topExponent dim :=
  (Nat.le_log_iff_pow_le (by omega) (by omega)).symm

private theorem topExponent_lt {dim : Nat} (hDim : dim < 2 ^ 32) (h : 1 ≤ edgeLimit dim) :
    topExponent dim < 32 :=
  Nat.log_lt_of_lt_pow (by omega) (edgeLimit_lt hDim)

private theorem edgeLimit_lt_double {dim i : Nat} (h : 1 ≤ edgeLimit dim) :
    edgeLimit dim < 2 * 2 ^ i ↔ topExponent dim ≤ i := by
  rw [← pow_succ', ← Nat.log_lt_iff_lt_pow (by omega) (by omega)]
  exact Nat.lt_succ_iff

private theorem ull_pow {n : Nat} : ull (2 ^ n) = if n < 64 then 2 ^ n else 0 := by
  unfold ull
  split
  · rename_i h
    exact Nat.mod_eq_of_lt (Nat.pow_lt_pow_right (by omega) h)
  · rename_i h
    exact Nat.mod_eq_zero_of_dvd (pow_dvd_pow 2 (by omega))

private theorem uint_pow_of_lt {n : Nat} (h : n < 32) : uint (2 ^ n) = 2 ^ n :=
  uint_of_lt (Nat.pow_lt_pow_right (by omega) h)

private theorem ull_pow_le {n L : Nat} (h : n ≤ L) : ull (2 ^ n) ≤ 2 ^ L :=
  (Nat.mod_le _ _).trans (Nat.pow_le_pow_right (by omega) h)

/-- A tile that folds leaves room for its accumulating multipliers unless it takes the
whole array. -/
private theorem folding_fits_iff {L n m : Nat} (hL : L < 32) (hn : n ≤ L) (hm : m < n) :
    uint (uint (2 ^ n) + uint (2 ^ m)) ≤ 2 ^ L ↔ n < L := by
  have hPow : 2 ^ m ≤ 2 ^ (n - 1) := Nat.pow_le_pow_right (by omega) (by omega)
  have hHalf : 2 ^ n = 2 * 2 ^ (n - 1) := by
    rw [← pow_succ', Nat.sub_add_cancel (by omega)]
  have hWord : 2 ^ n ≤ 2 ^ 31 := Nat.pow_le_pow_right (by omega) (by omega)
  have hPos : 0 < 2 ^ m := Nat.two_pow_pos m
  rw [uint_pow_of_lt (by omega), uint_pow_of_lt (by omega), uint_of_lt (by omega)]
  constructor
  · intro h
    rcases hn.lt_or_eq with hLess | rfl
    · exact hLess
    · omega
  · intro h
    have hNext : 2 ^ (n + 1) ≤ 2 ^ L := Nat.pow_le_pow_right (by omega) h
    rw [pow_succ] at hNext
    omega

section

variable {cfg : HardwareConfig} {L M N K r s : Nat}

/-- The condition in terms of exponents. -/
private theorem fitsMesh_iff (hOffered : Offered cfg L) (hRows : cfg.msRows = 2 ^ r)
    (hCols : cfg.msCols = 2 ^ s) (hM : 1 ≤ edgeLimit M) (hN : 1 ≤ edgeLimit N) :
    FitsMesh cfg M N K ↔
      (topExponent M ≤ r ∨ s ≤ firstExponent K) ∧
        (topExponent N ≤ s ∨ r ≤ firstExponent K) ∧
        topExponent M + topExponent N + topExponent K < 64 ∧
        (cfg.accumulationBufferEnabled = true ∨
          ∀ c, firstExponent K ≤ c → c ≤ topExponent K → 1 < nFolding 1 K 1 1 (2 ^ c) 1 →
            topExponent M + topExponent N + c < L) := by
  have hShort : ∀ i j : Nat, 2 ^ i < 2 * 2 ^ j ↔ i ≤ j := by
    intro i j
    rw [← pow_succ', Nat.pow_lt_pow_iff_right (by omega)]
    exact Nat.lt_succ_iff
  have hIff : ∀ i, 2 ^ i < cfg.msSize ↔ i < L := by
    intro i
    rw [hOffered.msSize, Nat.pow_lt_pow_iff_right (by omega)]
  constructor
  · rintro ⟨hFitRows, hFitCols, hFitProduct, hFitFolding⟩
    rw [hRows, hCols, edgeLimit_lt_double hM, hShort] at hFitRows
    rw [hRows, hCols, edgeLimit_lt_double hN, hShort] at hFitCols
    simp only [hIff] at hFitFolding
    exact ⟨hFitRows, hFitCols, hFitProduct, hFitFolding⟩
  · rintro ⟨hFitRows, hFitCols, hFitProduct, hFitFolding⟩
    constructor
    · rwa [hRows, hCols, edgeLimit_lt_double hM, hShort]
    · rwa [hRows, hCols, edgeLimit_lt_double hN, hShort]
    · exact hFitProduct
    · simpa only [hIff] using hFitFolding

private theorem not_folding_one : ¬1 < nFolding 1 1 1 1 (2 ^ 0) 1 := by
  rw [nFolding_gemm]
  have := Binary32.ceilDiv_le (a := 1) (b := 1) (q := 1) (by omega) (by omega)
    (by norm_num) (by omega)
  simpa using this

private theorem accepted_of_fitsMesh (hOffered : Offered cfg L)
    (hMesh : cfg.multiplierNetworkType = .osMesh) (hRows : cfg.msRows = 2 ^ r)
    (hCols : cfg.msCols = 2 ^ s) (hSum : r + s = L) (hK : 1 ≤ K)
    (hRowsFit : topExponent M ≤ r ∨ s ≤ firstExponent K)
    (hColsFit : topExponent N ≤ s ∨ r ≤ firstExponent K)
    (hProduct : topExponent M + topExponent N + topExponent K < 64)
    (hFolding : cfg.accumulationBufferEnabled = true ∨
      ∀ c, firstExponent K ≤ c → c ≤ topExponent K → 1 < nFolding 1 K 1 1 (2 ^ c) 1 →
        topExponent M + topExponent N + c < L)
    {a b c : Nat} (ha : a ≤ topExponent M) (hb : b ≤ topExponent N)
    (hc : c ≤ topExponent K) (hFirst : firstExponent K ≤ c)
    (hUll : ull (2 ^ (a + b + c)) ≤ 2 ^ L) :
    loadGEMMTile cfg K (2 ^ b) (2 ^ c) (2 ^ a) = true := by
  have hTotal : a + b + c ≤ L := by
    rw [ull_pow, if_pos (by omega)] at hUll
    exact (Nat.pow_le_pow_iff_right (by omega)).mp hUll
  have hLevels := hOffered.word
  rw [loadGEMMTile_mesh hOffered hMesh, hRows, hCols]
  refine ⟨?_, ?_, ?_, ?_⟩
  · rw [uint_pow_of_lt (by omega)]
    exact Nat.pow_le_pow_right (by omega) hTotal
  · intro hBuffer hFold
    have hRoom : topExponent M + topExponent N + c < L := by
      rcases hFolding with hEnabled | hRoom
      · rw [hEnabled] at hBuffer
        cases hBuffer
      · exact hRoom c hFirst hc hFold
    have hPositive : c ≠ 0 := by
      rintro rfl
      have hOne : K = 1 := by
        by_contra hMore
        simp [firstExponent, hMore] at hFirst
      subst hOne
      exact not_folding_one hFold
    rw [folding_fits_iff hLevels hTotal (by omega)]
    omega
  · apply Nat.pow_le_pow_right (by omega)
    omega
  · rw [uint_pow_of_lt (by omega)]
    apply Nat.pow_le_pow_right (by omega)
    omega

private theorem fitsMesh_of_accepted (hOffered : Offered cfg L)
    (hMesh : cfg.multiplierNetworkType = .osMesh) (hRows : cfg.msRows = 2 ^ r)
    (hCols : cfg.msCols = 2 ^ s) (hSum : r + s = L) (hK : 1 ≤ K)
    (hTopM : topExponent M < 32) (hTopK : topExponent K < 32)
    (hFirstK : firstExponent K ≤ topExponent K)
    (hAll : ∀ a b c, a ≤ topExponent M → b ≤ topExponent N → c ≤ topExponent K →
      firstExponent K ≤ c → ull (2 ^ (a + b + c)) ≤ 2 ^ L →
      loadGEMMTile cfg K (2 ^ b) (2 ^ c) (2 ^ a) = true) :
    (topExponent M ≤ r ∨ s ≤ firstExponent K) ∧
      (topExponent N ≤ s ∨ r ≤ firstExponent K) ∧
      topExponent M + topExponent N + topExponent K < 64 ∧
      (cfg.accumulationBufferEnabled = true ∨
        ∀ c, firstExponent K ≤ c → c ≤ topExponent K → 1 < nFolding 1 K 1 1 (2 ^ c) 1 →
          topExponent M + topExponent N + c < L) := by
  have hLevels := hOffered.word
  simp only [loadGEMMTile_mesh hOffered hMesh, hRows, hCols] at hAll
  have hEdges : ∀ a b c, a ≤ topExponent M → b ≤ topExponent N → c ≤ topExponent K →
      firstExponent K ≤ c → ull (2 ^ (a + b + c)) ≤ 2 ^ L → b ≤ s ∧ a ≤ r := by
    intro a b c ha hb hc hFirst hUll
    obtain ⟨-, -, hCol, hRow⟩ := hAll a b c ha hb hc hFirst hUll
    rw [uint_pow_of_lt (by omega)] at hRow
    exact ⟨(Nat.pow_le_pow_iff_right (by omega)).mp hCol,
      (Nat.pow_le_pow_iff_right (by omega)).mp hRow⟩
  refine ⟨?_, ?_, ?_, ?_⟩
  · by_contra hNot
    simp only [not_or, not_le] at hNot
    have := (hEdges (r + 1) 0 (firstExponent K) (by omega) (by omega) hFirstK le_rfl
      (ull_pow_le (by omega))).2
    omega
  · by_contra hNot
    simp only [not_or, not_le] at hNot
    have := (hEdges 0 (s + 1) (firstExponent K) (by omega) (by omega) hFirstK le_rfl
      (ull_pow_le (by omega))).1
    omega
  · by_contra hNot
    have := hEdges (topExponent M) (topExponent N) (topExponent K) le_rfl le_rfl le_rfl
      hFirstK (by rw [ull_pow, if_neg hNot]; exact Nat.zero_le _)
    omega
  · cases hBuffer : cfg.accumulationBufferEnabled with
    | true => exact Or.inl rfl
    | false =>
        refine Or.inr fun c hFirst hc hFold => ?_
        by_contra hNot
        -- the tile of `T_K = 2 ^ min c L` that takes the whole array
        have hStart : firstExponent K ≤ 1 := by
          unfold firstExponent
          split <;> omega
        have hOne := hOffered.levels
        have hFold' : 1 < nFolding 1 K 1 1 (2 ^ min c L) 1 := by
          rw [nFolding_gemm] at hFold ⊢
          exact hFold.trans_le (Binary32.ceilDiv_anti hK (Nat.two_pow_pos _)
            (Nat.pow_le_pow_right (by omega) (Nat.min_le_left c L)))
        have hPositive : min c L ≠ 0 := by
          intro hZero
          have hK1 : K = 1 := by
            by_contra hMore
            simp [firstExponent, hMore] at hFirst
            omega
          rw [hZero, hK1] at hFold'
          exact not_folding_one hFold'
        obtain ⟨-, hRoom, -⟩ := hAll
          (L - min c L - min (topExponent N) (L - min c L))
          (min (topExponent N) (L - min c L)) (min c L) (by omega) (by omega) (by omega)
          (by omega) (ull_pow_le (by omega))
        have hFits := hRoom hBuffer hFold'
        rw [folding_fits_iff hLevels (by omega) (by omega)] at hFits
        omega

end

/-- Every tile that the mapper may return is accepted exactly under the condition. -/
theorem mapper_accepted_iff {cfg : HardwareConfig} {L M N K : Nat}
    (hOffered : Offered cfg L) (hM : 1 ≤ M) (hM' : M < 2 ^ 32) (hN : 1 ≤ N)
    (hN' : N < 2 ^ 32) (hK : 1 ≤ K) (hK' : K < 2 ^ 32) :
    MapperAccepted cfg M N K ↔ TilesFit cfg M N K := by
  have hMem := @mem_addTilesPowersOfTwo M N K cfg.msSize hM' hN' hK'
  by_cases hWrap : M = 2 ^ 31 ∨ N = 2 ^ 31 ∨ K = 2 ^ 31
  · -- no edge is at most zero, so there is no option
    have hNone : addTilesPowersOfTwo M N K cfg.msSize = [] := by
      rw [List.eq_nil_iff_forall_not_mem]
      intro t ht
      obtain ⟨a, b, c, ha, hb, hc, -⟩ := hMem.mp ht
      have hPos := Nat.two_pow_pos
      rcases hWrap with rfl | rfl | rfl
      · rw [edgeLimit_wrap] at ha
        exact absurd ha (by have := hPos a; omega)
      · rw [edgeLimit_wrap] at hb
        exact absurd hb (by have := hPos b; omega)
      · rw [edgeLimit_wrap] at hc
        exact absurd hc (by have := hPos c; omega)
    constructor
    · rintro ⟨hSome, -⟩
      exact absurd hNone hSome
    · rintro ⟨hNotM, hNotN, hNotK, -⟩
      rcases hWrap with hEq | hEq | hEq
      · exact absurd hEq hNotM
      · exact absurd hEq hNotN
      · exact absurd hEq hNotK
  simp only [not_or] at hWrap
  obtain ⟨hNotM, hNotN, hNotK⟩ := hWrap
  have hLimM := (edgeLimit_pos hM hM' hNotM).1
  have hLimN := (edgeLimit_pos hN hN' hNotN).1
  have hLimK := (edgeLimit_pos hK hK' hNotK).1
  have hFirstK : firstExponent K ≤ topExponent K :=
    (pow_le_edgeLimit hLimK).mp (first_le_edgeLimit hK hK' hNotK)
  have hFirst : firstExponent K ≤ 1 := by
    unfold firstExponent
    split <;> omega
  have hLevels := hOffered.levels
  simp only [pow_le_edgeLimit hLimM, pow_le_edgeLimit hLimN, pow_le_edgeLimit hLimK,
    hOffered.msSize] at hMem
  have hSome : addTilesPowersOfTwo M N K cfg.msSize ≠ [] := by
    apply List.ne_nil_of_mem (a := { tM := 2 ^ 0, tN := 2 ^ 0, tK := 2 ^ firstExponent K })
    rw [hOffered.msSize]
    exact hMem.mpr ⟨0, 0, firstExponent K, by omega, by omega, hFirstK, le_rfl,
      ull_pow_le (by omega), rfl⟩
  have hEdges : ∀ {a b c : Nat}, a ≤ topExponent M → b ≤ topExponent N →
      c ≤ topExponent K → 1 ≤ 2 ^ a ∧ 2 ^ a ≤ M ∧ 1 ≤ 2 ^ b ∧ 2 ^ b ≤ N ∧
        1 ≤ 2 ^ c ∧ 2 ^ c ≤ K := by
    intro a b c ha hb hc
    have hLeM := ((pow_le_edgeLimit hLimM).mpr ha).trans (Nat.min_le_left _ _)
    have hLeN := ((pow_le_edgeLimit hLimN).mpr hb).trans (Nat.min_le_left _ _)
    have hLeK := ((pow_le_edgeLimit hLimK).mpr hc).trans (Nat.min_le_left _ _)
    exact ⟨Nat.two_pow_pos a, hLeM, Nat.two_pow_pos b, hLeN, Nat.two_pow_pos c, hLeK⟩
  -- only the checks of the hardware can fail
  have hReduce : MapperAccepted cfg M N K ↔
      ∀ a b c, a ≤ topExponent M → b ≤ topExponent N → c ≤ topExponent K →
        firstExponent K ≤ c → ull (2 ^ (a + b + c)) ≤ 2 ^ L →
        loadGEMMTile cfg K (2 ^ b) (2 ^ c) (2 ^ a) = true := by
    constructor
    · rintro ⟨-, hAll⟩ a b c ha hb hc hFirst hUll
      have hAccepted := hAll _ (by
        rw [hOffered.msSize]
        exact hMem.mpr ⟨a, b, c, ha, hb, hc, hFirst, hUll, rfl⟩)
      exact hAccepted.2.2.2.2.2.2
    · intro hAll
      refine ⟨hSome, fun t ht => ?_⟩
      rw [hOffered.msSize] at ht
      obtain ⟨a, b, c, ha, hb, hc, hFirst, hUll, rfl⟩ := hMem.mp ht
      obtain ⟨h₁, h₂, h₃, h₄, h₅, h₆⟩ := hEdges ha hb hc
      exact ⟨h₁, h₂, h₃, h₄, h₅, h₆, hAll a b c ha hb hc hFirst hUll⟩
  rw [hReduce, TilesFit]
  cases hType : cfg.multiplierNetworkType with
  | linear =>
      constructor
      · intro _
        exact ⟨hNotM, hNotN, hNotK, Or.inl rfl⟩
      · intro _ a b c _ _ _ _ hUll
        exact loadGEMMTile_linear hOffered hType (by rwa [hOffered.msSize])
  | osMesh =>
      have hArea := (hOffered.mesh hType).1
      obtain ⟨r, -, hRows⟩ := (Nat.dvd_prime_pow Nat.prime_two).mp (Dvd.intro _ hArea)
      obtain ⟨s, -, hCols⟩ := (Nat.dvd_prime_pow Nat.prime_two).mp (Dvd.intro_left _ hArea)
      have hSum : r + s = L := by
        rw [hRows, hCols, ← pow_add] at hArea
        exact Nat.pow_right_injective (le_refl 2) hArea
      constructor
      · intro hAll
        refine ⟨hNotM, hNotN, hNotK, Or.inr ?_⟩
        rw [fitsMesh_iff hOffered hRows hCols hLimM hLimN]
        exact fitsMesh_of_accepted hOffered hType hRows hCols hSum hK
          (topExponent_lt hM' hLimM) (topExponent_lt hK' hLimK) hFirstK hAll
      · rintro ⟨-, -, -, hLinear | hFits⟩
        · cases hLinear
        · rw [fitsMesh_iff hOffered hRows hCols hLimM hLimN] at hFits
          obtain ⟨hFitRows, hFitCols, hFitProduct, hFitFolding⟩ := hFits
          intro a b c ha hb hc hFirst hUll
          exact accepted_of_fitsMesh hOffered hType hRows hCols hSum hK hFitRows hFitCols
            hFitProduct hFitFolding ha hb hc hFirst hUll

/-- The linear network with 64 multipliers, and a GEMM of 20 by 20 by 256. -/
theorem mapper_accepted_iff_linear :
    let cfg : HardwareConfig := ⟨.linear, 64, 0, 0, true, false⟩
    MapperAccepted cfg 20 20 256 ↔ TilesFit cfg 20 20 256 := by
  intro cfg
  have hOffered : Offered cfg 6 :=
    ⟨by decide, by decide, by decide, by decide, by decide⟩
  exact mapper_accepted_iff hOffered (by decide) (by decide) (by decide) (by decide)
    (by decide) (by decide)

/-- A mesh of 4 by 4 multipliers and a GEMM with 16 rows and one column: the tile with
`T_M = 16` uses all multipliers and has more rows than the mesh. -/
theorem mapper_not_accepted_tall :
    ¬∀ cfg L M N K, Offered cfg L → 1 ≤ M → M < 2 ^ 32 → 1 ≤ N → N < 2 ^ 32 → 1 ≤ K →
      K < 2 ^ 32 → MapperAccepted cfg M N K := by
  intro h
  have hOffered : Offered ⟨.osMesh, 16, 4, 4, true, false⟩ 4 :=
    ⟨by decide, by decide, by decide, by decide, by decide⟩
  have hAll := (h _ 4 16 1 1 hOffered (by decide) (by decide) (by decide) (by decide)
    (by decide) (by decide)).2
  have hTall : { tM := 2 ^ 4, tN := 2 ^ 0, tK := 2 ^ 0 } ∈ addTilesPowersOfTwo 16 1 1 16 := by
    rw [mem_addTilesPowersOfTwo (by decide) (by decide) (by decide)]
    exact ⟨4, 0, 0, by decide, by decide, by decide, by decide, by decide, rfl⟩
  have hCheck := (hAll _ hTall).2.2.2.2.2.2
  rw [loadGEMMTile_mesh hOffered rfl] at hCheck
  exact absurd hCheck.2.2.2 (by decide)

end StonneMapper

end Stonne
