import Stonne.Maeri.Weights

/-!
# The distribution of the activations

In an input iteration `SDMemory::cycle` walks over the input pixels of the tile.  For
each pixel it looks for the neurons whose window contains it and sends the value once
for each batch, group and channel, to all of them.

The receivers are computed by other formulas than those of the weights.  The shift of a
batch leaves out the groups of the tile, and the test for the border of the input
counts its rows and columns without the strides.
-/

namespace Stonne

open Dataflow

namespace SDMemory

/-- The condition under which the forwarding links of the multipliers are used. -/
def linksEnabled (layer : DNNLayer) (tile : Tile) : Bool :=
  decide (tile.tY = 1) && decide (1 < tile.tS) && decide (layer.strides = 1) &&
    decide (layer.S % tile.tS = 0)

/-- `x_inputs`, the rows of the input under the windows of the tile. -/
def xInputs (layer : DNNLayer) (tile : Tile) : Nat :=
  tile.tR + (tile.tX - 1) * layer.strides

/-- `y_inputs`, the columns. -/
def yInputs (layer : DNNLayer) (tile : Tile) : Nat :=
  tile.tS + (tile.tY - 1) * layer.strides

def outputXInputs (layer : DNNLayer) (tile : Tile) : Nat :=
  tile.tX + (layer.R - 1)

def outputYInputs (layer : DNNLayer) (tile : Tile) : Nat :=
  tile.tY + (layer.S - 1)

/-- `y_init`, the first column to send. -/
def yInit (layer : DNNLayer) (tile : Tile) (cnt : Counters) : Nat :=
  if linksEnabled layer tile then
    if 0 < cnt.currentY then yInputs layer tile - 1 else 0
  else 0

/-- The windows along one axis that contain position `pos` of `inputs` positions, for
windows of `size` positions. -/
def windowsOf (strides size inputs pos : Nat) : List Nat :=
  let firstPossibleVn := if pos < size - 1 then 0 else (pos - (size - 1)) / strides
  let lastPossibleVn := pos / strides
  (List.range' firstPossibleVn (lastPossibleVn + 1 - firstPossibleVn)).filter fun i =>
    decide (strides * i + (size - 1) < inputs) && decide (pos ≤ strides * i + (size - 1)) &&
      decide (strides * i ≤ pos)

/-- The multipliers that get the value of pixel `x`, `y` of batch `n`, group `g` and
channel `c`. -/
def inputReceivers (layer : DNNLayer) (tile : Tile) (x y n g c : Nat) : List Nat :=
  let windowSize := tile.vnSize
  (windowsOf layer.strides tile.tR (xInputs layer tile) x).flatMap fun i =>
    (windowsOf layer.strides tile.tS (yInputs layer tile) y).flatMap fun j =>
      let currentVn := i * tile.tY + j
      let despYInsideVn := y - j * layer.strides
      let despXInsideVn := x - i * layer.strides
      let despTotalInsideVn := despXInsideVn * tile.tS + despYInsideVn
      let currentReceiver := currentVn * tile.vnSize + despTotalInsideVn + tile.foldingShift
      let despN := n * tile.tK * tile.tX * tile.tY * windowSize
      let despG := g * tile.tK * tile.tX * tile.tY * windowSize
      (List.range tile.tK).map fun k =>
        let despK := k * tile.tX * tile.tY * windowSize
        let despC := c * tile.tR * tile.tS
        despN + despG + despK + despC + currentReceiver

/-- The value of a pixel, zero outside the input. -/
def inputData (layer : DNNLayer) (tile : Tile) (inputAddress : Nat → Int) (cnt : Counters)
    (x y n g c : Nat) : Int :=
  let indexN := cnt.currentN * tile.tN
  let indexG := cnt.currentG * tile.tG
  let indexX := cnt.currentX * tile.tX
  let indexY := cnt.currentY * tile.tY
  let indexC := cnt.currentC * tile.tC
  let indexR := cnt.currentR * tile.tR
  let indexS := cnt.currentS * tile.tS
  if indexR + x < outputXInputs layer tile ∧ indexS + y < outputYInputs layer tile ∧
      indexC + c < layer.C then
    inputAddress ((indexN + n) * layer.inputSize +
      (indexX * layer.strides + x + indexR) * layer.Y * layer.C * layer.G +
      (indexY * layer.strides + y + indexS) * layer.C * layer.G + (indexG + g) * layer.C +
      (indexC + c))
  else 0

def inputPackage (numMs : Nat) (layer : DNNLayer) (tile : Tile) (inputAddress : Nat → Int)
    (cnt : Counters) (x y n g c : Nat) : DataPackage where
  data := inputData layer tile inputAddress cnt x y n g c
  dataType := .iactivation
  traffic := .multicast (destinationVector numMs (inputReceivers layer tile x y n g c))
  iterationK := cnt.pckIteration layer tile

/-- The loops over the pixels, batches, groups and channels of a tile. -/
def forEachInput {α : Type*} (layer : DNNLayer) (tile : Tile) (cnt : Counters)
    (f : Nat → Nat → Nat → Nat → Nat → α) : List α :=
  (List.range (xInputs layer tile)).flatMap fun x =>
    (List.range' (yInit layer tile cnt) (yInputs layer tile - yInit layer tile cnt)).flatMap
      fun y => (List.range tile.tN).flatMap fun n =>
        (List.range tile.tG).flatMap fun g =>
          (List.range tile.tC).flatMap fun c => [f x y n g c]

/-- The packages of one input iteration, split over the ports. -/
def distributeInputs (cfg : ReadPorts) (numMs : Nat) (layer : DNNLayer) (tile : Tile)
    (inputAddress : Nat → Int) (cnt : Counters) (readPorts : Nat → ReadPort) :
    Nat → ReadPort :=
  (forEachInput layer tile cnt (inputPackage numMs layer tile inputAddress cnt)).foldl
    (sendPackageToInputFifos cfg) readPorts

/-- The loops over the pixels from column `yInit` on. -/
def forEachInputFrom {α : Type*} (layer : DNNLayer) (tile : Tile) (yInit : Nat)
    (f : Nat → Nat → Nat → Nat → Nat → α) : List α :=
  (List.range (xInputs layer tile)).flatMap fun x =>
    (List.range' yInit (yInputs layer tile - yInit)).flatMap fun y =>
      (List.range tile.tN).flatMap fun n =>
        (List.range tile.tG).flatMap fun g =>
          (List.range tile.tC).flatMap fun c => [f x y n g c]

/-- The distribution of the columns from `yInit` on. -/
def distributeInputsFrom (cfg : ReadPorts) (numMs : Nat) (layer : DNNLayer) (tile : Tile)
    (inputAddress : Nat → Int) (yInit : Nat) (cnt : Counters) (readPorts : Nat → ReadPort) :
    Nat → ReadPort :=
  (forEachInputFrom layer tile yInit (inputPackage numMs layer tile inputAddress cnt)).foldl
    (sendPackageToInputFifos cfg) readPorts

theorem mem_windowsOf {strides size count pos i : Nat} (hStrides : 1 ≤ strides)
    (hSize : 0 < size) (hCount : 0 < count) :
    i ∈ windowsOf strides size (size + (count - 1) * strides) pos ↔
      i < count ∧ ∃ r < size, pos = i * strides + r := by
  have hLast : strides * i + (size - 1) < size + (count - 1) * strides ↔ i < count := by
    have hLess : i < count ↔ i ≤ count - 1 := by omega
    rw [hLess, Nat.mul_comm strides i]
    constructor
    · intro h
      by_contra hMore
      have hNext := Nat.mul_le_mul_right strides (show count - 1 + 1 ≤ i by omega)
      rw [Nat.succ_mul] at hNext
      omega
    · intro h
      have hBefore := Nat.mul_le_mul_right strides h
      omega
  simp only [windowsOf, List.mem_filter, List.mem_range'_1, Bool.and_eq_true, decide_eq_true_eq,
    hLast]
  rw [Nat.mul_comm strides i]
  constructor
  · rintro ⟨-, ⟨hWindow, hBelow⟩, hAbove⟩
    exact ⟨hWindow, pos - i * strides, by omega, by omega⟩
  · rintro ⟨hWindow, r, hr, rfl⟩
    have hFirst : (if i * strides + r < size - 1 then 0
        else (i * strides + r - (size - 1)) / strides) ≤ i := by
      split
      · exact Nat.zero_le i
      · apply Nat.div_le_of_le_mul
        rw [Nat.mul_comm]
        omega
    have hUpper : i ≤ (i * strides + r) / strides := by
      rw [Nat.le_div_iff_mul_le hStrides]
      omega
    exact ⟨⟨hFirst, by omega⟩, ⟨hWindow, by omega⟩, by omega⟩

/-- The receiver of an activation: the shift of the batch is that of as many groups. -/
def scattered (v : Neuron) : Neuron :=
  ⟨0, v.n + v.g, v.k, v.x, v.y⟩

theorem mem_inputReceivers {layer : DNNLayer} {tile : Tile} {msSize : Nat}
    (hStrides : 1 ≤ layer.strides) (hTile : tile.Accepted msSize) {x y n g c m : Nat} :
    m ∈ inputReceivers layer tile x y n g c ↔
      ∃ k < tile.tK, ∃ i < tile.tX, ∃ j < tile.tY, ∃ r < tile.tR, ∃ s < tile.tS,
        x = i * layer.strides + r ∧ y = j * layer.strides + s ∧
          tile.multiplier (scattered ⟨n, g, k, i, j⟩) ⟨c, r, s⟩ = m := by
  have hIndex : ∀ k i j r s, x = i * layer.strides + r → y = j * layer.strides + s →
      n * tile.tK * tile.tX * tile.tY * tile.vnSize +
            g * tile.tK * tile.tX * tile.tY * tile.vnSize + k * tile.tX * tile.tY * tile.vnSize +
          c * tile.tR * tile.tS +
        ((i * tile.tY + j) * tile.vnSize +
          ((x - i * layer.strides) * tile.tS + (y - j * layer.strides)) + tile.foldingShift) =
        tile.multiplier (scattered ⟨n, g, k, i, j⟩) ⟨c, r, s⟩ := by
    rintro k i j r s rfl rfl
    rw [Nat.add_sub_cancel_left, Nat.add_sub_cancel_left, Tile.multiplier, Tile.currentVn,
      Tile.tapIndex, scattered]
    ring
  simp only [inputReceivers, List.mem_flatMap, List.mem_map, List.mem_range, xInputs, yInputs,
    mem_windowsOf hStrides hTile.tR hTile.tX, mem_windowsOf hStrides hTile.tS hTile.tY]
  constructor
  · rintro ⟨i, ⟨hi, r, hr, hx⟩, j, ⟨hj, s, hs, hy⟩, k, hk, hm⟩
    exact ⟨k, hk, i, hi, j, hj, r, hr, s, hs, hx, hy, (hIndex k i j r s hx hy).symm.trans hm⟩
  · rintro ⟨k, hk, i, hi, j, hj, r, hr, s, hs, hx, hy, hm⟩
    exact ⟨i, ⟨hi, r, hr, hx⟩, j, ⟨hj, s, hs, hy⟩, k, hk, (hIndex k i j r s hx hy).trans hm⟩

/-! ## The package of a tap -/

/-- In which packages of the loops over the pixels a predicate holds. -/
private theorem filter_forEachInputFrom {α : Type*} {layer : DNNLayer} {tile : Tile}
    {yInit : Nat} {f : Nat → Nat → Nat → Nat → Nat → α} {p : α → Bool} {x y n g c : Nat}
    (hx : x < xInputs layer tile) (hy : y < yInputs layer tile) (hn : n < tile.tN)
    (hg : g < tile.tG) (hc : c < tile.tC) (hHere : p (f x y n g c) = true)
    (hElsewhere : ∀ x' y' n' g' c', p (f x' y' n' g' c') = true → n' < tile.tN → g' < tile.tG →
      c' < tile.tC → x' = x ∧ y' = y ∧ n' = n ∧ g' = g ∧ c' = c) :
    (forEachInputFrom layer tile yInit f).filter p =
      if yInit ≤ y then [f x y n g c] else [] := by
  have hOther : ∀ x' y', ∀ n' < tile.tN, ∀ g' < tile.tG, ∀ c' < tile.tC,
      ¬(x' = x ∧ y' = y ∧ n' = n ∧ g' = g ∧ c' = c) → [f x' y' n' g' c'].filter p = [] := by
    intro x' y' n' hn' g' hg' c' hc' hne
    rw [List.filter_eq_nil_iff]
    intro a ha hp
    rw [List.mem_singleton.mp ha] at hp
    exact hne (hElsewhere _ _ _ _ _ hp hn' hg' hc')
  simp only [forEachInputFrom, List.filter_flatMap, List.range'_eq_map_range, List.flatMap_map]
  split
  · rename_i hFrom
    rw [flatMap_range_single hx,
      flatMap_range_single (show y - yInit < yInputs layer tile - yInit by omega),
      Nat.add_sub_cancel' hFrom, flatMap_range_single hn, flatMap_range_single hg,
      flatMap_range_single hc]
    · simp [hHere]
    · intro c' hc' hne
      exact hOther x y n hn g hg c' hc' fun h => hne h.2.2.2.2
    · intro g' hg' hne
      simp only [List.flatMap_eq_nil_iff, List.mem_range]
      intro c' hc'
      exact hOther x y n hn g' hg' c' hc' fun h => hne h.2.2.2.1
    · intro n' hn' hne
      simp only [List.flatMap_eq_nil_iff, List.mem_range]
      intro g' hg' c' hc'
      exact hOther x y n' hn' g' hg' c' hc' fun h => hne h.2.2.1
    · intro i hi hne
      simp only [List.flatMap_eq_nil_iff, List.mem_range]
      intro n' hn' g' hg' c' hc'
      refine hOther x (yInit + i) n' hn' g' hg' c' hc' fun h => hne ?_
      have := h.2.1
      omega
    · intro x' hx' hne
      simp only [List.flatMap_eq_nil_iff, List.mem_range]
      intro i hi n' hn' g' hg' c' hc'
      exact hOther x' (yInit + i) n' hn' g' hg' c' hc' fun h => hne h.1
  · simp only [List.flatMap_eq_nil_iff, List.mem_range]
    intro x' hx' i hi n' hn' g' hg' c' hc'
    refine hOther x' (yInit + i) n' hn' g' hg' c' hc' fun h => ?_
    have := h.2.1
    omega

theorem mem_forEachInputFrom {α : Type*} {layer : DNNLayer} {tile : Tile} {yInit : Nat}
    {f : Nat → Nat → Nat → Nat → Nat → α} {a : α} (h : a ∈ forEachInputFrom layer tile yInit f) :
    ∃ x y, ∃ n < tile.tN, ∃ g < tile.tG, ∃ c < tile.tC, a = f x y n g c := by
  simp only [forEachInputFrom, List.mem_flatMap, List.mem_range, List.mem_singleton] at h
  obtain ⟨x, -, y, -, n, hn, g, hg, c, hc, rfl⟩ := h
  exact ⟨x, y, n, hn, g, hg, c, hc, rfl⟩

section

variable {layer : DNNLayer} {tile : Tile} {L P : Nat} {cnt : Counters}

private theorem multiplier_scattered (hGroups : tile.tN = 1 ∨ tile.tG = 1) {v : Neuron}
    (hv : v.InTile tile) (t : Tap) :
    tile.multiplier (scattered v) t = tile.multiplier v t := by
  have hVn : tile.currentVn (scattered v) = tile.currentVn v := by
    have hn := hv.n
    have hg := hv.g
    rcases hGroups with hOne | hOne
    · have hZero : v.n = 0 := by omega
      simp [Tile.currentVn, scattered, hZero]
    · have hZero : v.g = 0 := by omega
      simp [Tile.currentVn, scattered, hZero, hOne]
  rw [Tile.multiplier, hVn, Tile.multiplier]

private theorem inputPackage_addresses {numMs m : Nat} (hm : m < numMs)
    (inputAddress : Nat → Int) (x y n g c : Nat) :
    (inputPackage numMs layer tile inputAddress cnt x y n g c).addresses m = true ↔
      m ∈ inputReceivers layer tile x y n g c :=
  destinationVector_getD hm _

theorem operandsFor_distributeInputsFrom (hPorts : P ≤ L) (inputAddress : Nat → Int)
    (yInit : Nat) (readPorts : Nat → ReadPort) {m : Nat} (hm : m < 2 ^ L) :
    operandsFor (.powers L P) (distributeInputsFrom (.powers L P) (2 ^ L) layer tile inputAddress
        yInit cnt readPorts) m =
      operandsFor (.powers L P) readPorts m ++
        ((forEachInputFrom layer tile yInit
          (inputPackage (2 ^ L) layer tile inputAddress cnt)).filter (·.addresses m)).map
            fun pck => (pck.data, pck.dataType) := by
  have hSize : (ReadPorts.powers L P).nReadPorts * (ReadPorts.powers L P).msSizePerInputPort =
      2 ^ L := Nat.mul_div_cancel' (pow_dvd_pow 2 hPorts)
  apply operandsFor_foldl
  · intro pck hMem
    obtain ⟨x, y, n, -, g, -, c, -, rfl⟩ := mem_forEachInputFrom hMem
    simp [inputPackage]
  · exact hSize.symm ▸ hm

/-- Unless the tile spreads over batches and groups at once, each tap gets the package of
its own pixel. -/
theorem operandsFor_inputs (hPorts : P ≤ L) (hTile : tile.Accepted (2 ^ L))
    (hStrides : 1 ≤ layer.strides) (hGroups : tile.tN = 1 ∨ tile.tG = 1)
    (inputAddress : Nat → Int) (yInit : Nat) (readPorts : Nat → ReadPort) {v : Neuron}
    (hv : v.InTile tile) {t : Tap} (ht : t.InTile tile) :
    operandsFor (.powers L P) (distributeInputsFrom (.powers L P) (2 ^ L) layer tile inputAddress
        yInit cnt readPorts) (tile.multiplier v t) =
      operandsFor (.powers L P) readPorts (tile.multiplier v t) ++
        if yInit ≤ v.y * layer.strides + t.s then
          [(inputData layer tile inputAddress cnt (v.x * layer.strides + t.r)
            (v.y * layer.strides + t.s) v.n v.g t.c, .iactivation)]
        else [] := by
  have hm : tile.multiplier v t < 2 ^ L := hTile.multiplier_lt hv ht
  have hPixel : ∀ {i r size count : Nat}, i < count → r < size →
      i * layer.strides + r < size + (count - 1) * layer.strides := by
    intro i r size count hi hr
    have hBefore := Nat.mul_le_mul_right layer.strides (show i ≤ count - 1 by omega)
    omega
  rw [operandsFor_distributeInputsFrom hPorts inputAddress yInit readPorts hm,
    filter_forEachInputFrom (hPixel hv.x ht.r) (hPixel hv.y ht.s) hv.n hv.g ht.c]
  · split
    · rfl
    · rfl
  · rw [inputPackage_addresses hm, mem_inputReceivers hStrides hTile]
    exact ⟨v.k, hv.k, v.x, hv.x, v.y, hv.y, t.r, ht.r, t.s, ht.s, rfl, rfl,
      multiplier_scattered hGroups hv t⟩
  · intro x' y' n' g' c' hAddressed hn' hg' hc'
    rw [inputPackage_addresses hm, mem_inputReceivers hStrides hTile] at hAddressed
    obtain ⟨k, hk, i, hi, j, hj, r, hr, s, hs, rfl, rfl, hSame⟩ := hAddressed
    have hv' : Neuron.InTile ⟨n', g', k, i, j⟩ tile := ⟨hn', hg', hk, hi, hj⟩
    rw [multiplier_scattered hGroups hv'] at hSame
    obtain ⟨rfl, rfl⟩ := Tile.multiplier_inj hv' hv ⟨hc', hr, hs⟩ ht hSame
    exact ⟨rfl, rfl, rfl, rfl, rfl⟩

end

end SDMemory

end Stonne
