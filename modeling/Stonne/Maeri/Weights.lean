import Stonne.Distribution.DSNetworkTop
import Stonne.Maeri.Layer

/-!
# The distribution of the weights

In a weight iteration `SDMemory::cycle` sends one package for each weight of the tile:
a multicast package to all neurons that share the weight, or a unicast package when
only one neuron does.  Both branches compute the same receivers by different formulas.
A weight outside the layer is a zero.
-/

namespace Stonne

open Dataflow

/-- The counters of the loops of `SDMemory::cycle`. -/
structure Counters where
  currentN : Nat := 0
  currentG : Nat := 0
  currentK : Nat := 0
  currentX : Nat := 0
  currentY : Nat := 0
  currentC : Nat := 0
  currentR : Nat := 0
  currentS : Nat := 0
  deriving DecidableEq, Repr

/-- `index_G * K + index_K * T_G`, the iteration that a package belongs to. -/
def Counters.pckIteration (layer : DNNLayer) (tile : Tile) (cnt : Counters) : Nat :=
  cnt.currentG * tile.tG * layer.K + cnt.currentK * tile.tK * tile.tG

/-- A destination vector over all multipliers with the entries of `receivers` set. -/
def destinationVector (numMs : Nat) (receivers : List Nat) : List Bool :=
  receivers.foldl (fun vector receiver => vector.set receiver true)
    (List.replicate numMs false)

theorem destinationVector_getD {numMs m : Nat} (hm : m < numMs) (receivers : List Nat) :
    (destinationVector numMs receivers).getD m false = true ↔ m ∈ receivers := by
  have hFold : ∀ vector : List Bool, m < vector.length →
      ((receivers.foldl (fun vector receiver => vector.set receiver true) vector).getD m false =
        true ↔ vector.getD m false = true ∨ m ∈ receivers) := by
    induction receivers with
    | nil => simp
    | cons receiver receivers ih =>
        intro vector hLength
        rw [List.foldl_cons, ih _ (by simpa using hLength), List.mem_cons]
        rcases eq_or_ne m receiver with rfl | hne
        · simp [List.getD_eq_getElem?_getD, hLength]
        · simp [List.getD_eq_getElem?_getD, List.getElem?_set_ne hne.symm, hne]
  have hInit : (List.replicate numMs false).getD m false = false := by
    simp [List.getD_eq_getElem?_getD, hm]
  rw [destinationVector, hFold _ (by simpa using hm), hInit]
  simp

namespace SDMemory

/-- The loops over the weights of a tile. -/
def forEachWeight {α : Type*} (tile : Tile) (f : Nat → Nat → Tap → α) : List α :=
  (List.range tile.tG).flatMap fun g =>
    (List.range tile.tK).flatMap fun k =>
      (List.range tile.tC).flatMap fun c =>
        (List.range tile.tR).flatMap fun r =>
          (List.range tile.tS).flatMap fun s => [f g k ⟨c, r, s⟩]

/-- The value of a weight, zero outside the layer. -/
def weightData (layer : DNNLayer) (tile : Tile) (filterAddress : Nat → Int) (cnt : Counters)
    (g k : Nat) (t : Tap) : Int :=
  let indexG := cnt.currentG * tile.tG
  let indexK := cnt.currentK * tile.tK
  let indexC := cnt.currentC * tile.tC
  let indexR := cnt.currentR * tile.tR
  let indexS := cnt.currentS * tile.tS
  if indexR + t.r < layer.R ∧ indexS + t.s < layer.S ∧ indexC + t.c < layer.C ∧
      indexK + k < layer.K then
    filterAddress ((indexG + g) * layer.groupSize + (indexK + k) * layer.filterSize +
      (indexR + t.r) * layer.rowFilterSize + (indexS + t.s) * layer.C + (indexC + t.c))
  else 0

/-- The multipliers that get a weight in the multicast branch. -/
def multicastReceivers (tile : Tile) (g k : Nat) (t : Tap) : List Nat :=
  let windowSize := tile.vnSize
  let despG := g * tile.tK * tile.tX * tile.tY * windowSize
  let despK := k * tile.tX * tile.tY * windowSize
  (List.range tile.tN).flatMap fun n =>
    let despN := n * tile.tG * tile.tK * tile.tX * tile.tY * windowSize
    (List.range tile.tX).flatMap fun x =>
      (List.range tile.tY).map fun y =>
        let despThisNeuron := x * tile.tY * windowSize + y * windowSize
        despN + despG + despK + despThisNeuron + t.c * tile.tS * tile.tR + t.r * tile.tS + t.s +
          tile.foldingShift

/-- The multiplier that gets a weight in the unicast branch. -/
def unicastReceiver (tile : Tile) (g k : Nat) (t : Tap) : Nat :=
  g * tile.tK * tile.vnSize + k * tile.vnSize + t.c * tile.tR * tile.tS + t.r * tile.tS + t.s +
    tile.foldingShift

def weightPackage (numMs : Nat) (layer : DNNLayer) (tile : Tile) (filterAddress : Nat → Int)
    (cnt : Counters) (g k : Nat) (t : Tap) : DataPackage where
  data := weightData layer tile filterAddress cnt g k t
  dataType := .weight
  traffic :=
    if 1 < tile.tN * tile.tX * tile.tY then
      .multicast (destinationVector numMs (multicastReceivers tile g k t))
    else .unicast (unicastReceiver tile g k t)
  iterationK := cnt.pckIteration layer tile

/-- The packages of one weight iteration, split over the ports. -/
def distributeWeights (cfg : ReadPorts) (numMs : Nat) (layer : DNNLayer) (tile : Tile)
    (filterAddress : Nat → Int) (cnt : Counters) (readPorts : Nat → ReadPort) :
    Nat → ReadPort :=
  (forEachWeight tile (weightPackage numMs layer tile filterAddress cnt)).foldl
    (sendPackageToInputFifos cfg) readPorts

end SDMemory

/-! ## The packages for one multiplier -/

@[simp]
theorem ReadPort.pushAll_pushAll (port : ReadPort) (pcks pcks' : List DataPackage) :
    (port.pushAll pcks).pushAll pcks' = port.pushAll (pcks ++ pcks') := by
  simp [ReadPort.pushAll]

namespace SDMemory

theorem foldl_sendPackageToInputFifos (cfg : ReadPorts) (pcks : List DataPackage)
    (readPorts : Nat → ReadPort) {i : Nat} (hi : i < cfg.nReadPorts) :
    pcks.foldl (sendPackageToInputFifos cfg) readPorts i =
      (readPorts i).pushAll (pcks.flatMap fun pck => portPackages cfg pck i) := by
  induction pcks generalizing readPorts with
  | nil => simp
  | cons pck pcks ih =>
      rw [List.foldl_cons, ih, sendPackageToInputFifos_apply cfg readPorts pck hi,
        ReadPort.pushAll_pushAll, List.flatMap_cons]

/-- The data and the types of the operands that wait in a port for multiplier `m`. -/
def operandsFor (cfg : ReadPorts) (readPorts : Nat → ReadPort) (m : Nat) :
    List (Int × Operand) :=
  ((readPorts (m / cfg.msSizePerInputPort)).inputFifo.filter
    (·.addresses (m % cfg.msSizePerInputPort))).map fun pck => (pck.data, pck.dataType)

theorem dataType_of_mem_portPackages {cfg : ReadPorts} {pck copy : DataPackage} {i : Nat}
    (h : copy ∈ portPackages cfg pck i) : copy.dataType = pck.dataType := by
  cases hTraffic : pck.traffic with
  | broadcast =>
      simp only [portPackages, hTraffic, List.mem_singleton] at h
      rw [h]
      rfl
  | unicast dest =>
      simp only [portPackages, hTraffic, List.mem_ite_nil_right, List.mem_singleton] at h
      rw [h.2]
      rfl
  | multicast dest =>
      simp only [portPackages, hTraffic, List.mem_ite_nil_right, List.mem_singleton] at h
      rw [h.2]
      rfl

/-- Distributing operands puts the addressed ones behind those that wait already. -/
theorem operandsFor_foldl {cfg : ReadPorts} {pcks : List DataPackage}
    (hOperands : ∀ pck ∈ pcks, pck.dataType ≠ .psum) (readPorts : Nat → ReadPort) {m : Nat}
    (hm : m < cfg.nReadPorts * cfg.msSizePerInputPort) :
    operandsFor cfg (pcks.foldl (sendPackageToInputFifos cfg) readPorts) m =
      operandsFor cfg readPorts m ++
        (pcks.filter (·.addresses m)).map fun pck => (pck.data, pck.dataType) := by
  have hPort : m / cfg.msSizePerInputPort < cfg.nReadPorts := by
    rcases Nat.eq_zero_or_pos cfg.msSizePerInputPort with hZero | hPos
    · rw [hZero, Nat.mul_zero] at hm
      omega
    · exact (Nat.div_lt_iff_lt_mul hPos).mpr hm
  have hPos : 0 < cfg.msSizePerInputPort := by
    apply Nat.pos_of_ne_zero
    intro hZero
    rw [hZero, Nat.mul_zero] at hm
    omega
  have hSplit : m / cfg.msSizePerInputPort * cfg.msSizePerInputPort +
      m % cfg.msSizePerInputPort = m := by
    rw [Nat.mul_comm]
    exact Nat.div_add_mod m _
  have hNew : (pcks.flatMap fun pck =>
      portPackages cfg pck (m / cfg.msSizePerInputPort)).filter (fun pck => pck.dataType ≠ .psum) =
        pcks.flatMap fun pck => portPackages cfg pck (m / cfg.msSizePerInputPort) := by
    rw [List.filter_eq_self]
    intro copy hMem
    obtain ⟨pck, hPck, hCopy⟩ := List.mem_flatMap.mp hMem
    rw [dataType_of_mem_portPackages hCopy]
    simpa using hOperands pck hPck
  rw [operandsFor, foldl_sendPackageToInputFifos cfg pcks readPorts hPort, ReadPort.pushAll, hNew,
    List.filter_append, List.map_append, operandsFor]
  congr 1
  clear hNew hOperands
  induction pcks with
  | nil => rfl
  | cons pck pcks ih =>
      have hOne := map_filter_portPackages cfg pck (m / cfg.msSizePerInputPort)
        (Nat.mod_lt m hPos)
      rw [hSplit] at hOne
      rw [List.flatMap_cons, List.filter_append, List.map_append, hOne, ih, List.filter_cons]
      split
      · rfl
      · rfl

/-! ## Exact routing -/

/-- In which packages of the loops over the weights a predicate holds. -/
private theorem filter_forEachWeight {α : Type*} {tile : Tile} {f : Nat → Nat → Tap → α}
    {p : α → Bool} {g k : Nat} {t : Tap} (hg : g < tile.tG) (hk : k < tile.tK)
    (ht : t.InTile tile) (hHere : p (f g k t) = true)
    (hElsewhere : ∀ g' < tile.tG, ∀ k' < tile.tK, ∀ t' : Tap, t'.InTile tile →
      p (f g' k' t') = true → g' = g ∧ k' = k ∧ t' = t) :
    (forEachWeight tile f).filter p = [f g k t] := by
  have hOther : ∀ g' < tile.tG, ∀ k' < tile.tK, ∀ c < tile.tC, ∀ r < tile.tR, ∀ s < tile.tS,
      ¬(g' = g ∧ k' = k ∧ c = t.c ∧ r = t.r ∧ s = t.s) →
      [f g' k' ⟨c, r, s⟩].filter p = [] := by
    intro g' hg' k' hk' c hc r hr s hs hne
    rw [List.filter_eq_nil_iff]
    intro x hx hp
    rw [List.mem_singleton.mp hx] at hp
    obtain ⟨rfl, rfl, rfl⟩ := hElsewhere g' hg' k' hk' _ ⟨hc, hr, hs⟩ hp
    exact hne ⟨rfl, rfl, rfl, rfl, rfl⟩
  simp only [forEachWeight, List.filter_flatMap]
  rw [flatMap_range_single hg, flatMap_range_single hk, flatMap_range_single ht.c,
    flatMap_range_single ht.r, flatMap_range_single ht.s]
  · simp [hHere]
  · intro s hs hne
    exact hOther g hg k hk t.c ht.c t.r ht.r s hs fun h => hne h.2.2.2.2
  · intro r hr hne
    simp only [List.flatMap_eq_nil_iff, List.mem_range]
    intro s hs
    exact hOther g hg k hk t.c ht.c r hr s hs fun h => hne h.2.2.2.1
  · intro c hc hne
    simp only [List.flatMap_eq_nil_iff, List.mem_range]
    intro r hr s hs
    exact hOther g hg k hk c hc r hr s hs fun h => hne h.2.2.1
  · intro k' hk' hne
    simp only [List.flatMap_eq_nil_iff, List.mem_range]
    intro c hc r hr s hs
    exact hOther g hg k' hk' c hc r hr s hs fun h => hne h.2.1
  · intro g' hg' hne
    simp only [List.flatMap_eq_nil_iff, List.mem_range]
    intro k' hk' c hc r hr s hs
    exact hOther g' hg' k' hk' c hc r hr s hs fun h => hne h.1

theorem mem_forEachWeight {α : Type*} {tile : Tile} {f : Nat → Nat → Tap → α} {x : α} :
    x ∈ forEachWeight tile f ↔
      ∃ g < tile.tG, ∃ k < tile.tK, ∃ t : Tap, t.InTile tile ∧ x = f g k t := by
  simp only [forEachWeight, List.mem_flatMap, List.mem_range, List.mem_singleton]
  constructor
  · rintro ⟨g, hg, k, hk, c, hc, r, hr, s, hs, rfl⟩
    exact ⟨g, hg, k, hk, ⟨c, r, s⟩, ⟨hc, hr, hs⟩, rfl⟩
  · rintro ⟨g, hg, k, hk, ⟨c, r, s⟩, ⟨hc, hr, hs⟩, rfl⟩
    exact ⟨g, hg, k, hk, c, hc, r, hr, s, hs, rfl⟩

private theorem mem_multicastReceivers {tile : Tile} {g k m : Nat} {t : Tap} :
    m ∈ multicastReceivers tile g k t ↔
      ∃ n < tile.tN, ∃ x < tile.tX, ∃ y < tile.tY, tile.multiplier ⟨n, g, k, x, y⟩ t = m := by
  have hIndex : ∀ n x y,
      n * tile.tG * tile.tK * tile.tX * tile.tY * tile.vnSize +
          g * tile.tK * tile.tX * tile.tY * tile.vnSize + k * tile.tX * tile.tY * tile.vnSize +
          (x * tile.tY * tile.vnSize + y * tile.vnSize) + t.c * tile.tS * tile.tR +
          t.r * tile.tS + t.s + tile.foldingShift =
        tile.multiplier ⟨n, g, k, x, y⟩ t := by
    intro n x y
    rw [Tile.multiplier, Tile.currentVn, Tile.tapIndex]
    ring
  simp only [multicastReceivers, List.mem_flatMap, List.mem_map, List.mem_range, hIndex]

private theorem unicastReceiver_eq {tile : Tile} (hX : tile.tX = 1) (hY : tile.tY = 1) (g k : Nat)
    (t : Tap) : unicastReceiver tile g k t = tile.multiplier ⟨0, g, k, 0, 0⟩ t := by
  rw [unicastReceiver, Tile.multiplier, Tile.currentVn, Tile.tapIndex, hX, hY]
  ring

/-- Both branches send a weight to the same tap of the neurons that use it. -/
theorem weightPackage_addresses {numMs : Nat} {tile : Tile} (hTile : tile.Accepted numMs)
    (layer : DNNLayer) (filterAddress : Nat → Int) (cnt : Counters) {g k m : Nat}
    (hg : g < tile.tG) (hk : k < tile.tK) (t : Tap) (hm : m < numMs) :
    (weightPackage numMs layer tile filterAddress cnt g k t).addresses m = true ↔
      ∃ v : Neuron, v.InTile tile ∧ v.g = g ∧ v.k = k ∧ tile.multiplier v t = m := by
  by_cases hShared : 1 < tile.tN * tile.tX * tile.tY
  · simp only [DataPackage.addresses, weightPackage, if_pos hShared,
      destinationVector_getD hm, mem_multicastReceivers]
    constructor
    · rintro ⟨n, hn, x, hx, y, hy, rfl⟩
      exact ⟨⟨n, g, k, x, y⟩, ⟨hn, hg, hk, hx, hy⟩, rfl, rfl, rfl⟩
    · rintro ⟨v, hv, rfl, rfl, rfl⟩
      exact ⟨v.n, hv.n, v.x, hv.x, v.y, hv.y, rfl⟩
  · obtain ⟨hN, hX, hY⟩ : tile.tN = 1 ∧ tile.tX = 1 ∧ tile.tY = 1 := by
      have hOne : tile.tN * tile.tX * tile.tY = 1 :=
        le_antisymm (by omega) (Nat.mul_pos (Nat.mul_pos hTile.tN hTile.tX) hTile.tY)
      simpa [and_assoc] using hOne
    simp only [DataPackage.addresses, weightPackage, if_neg hShared, decide_eq_true_eq,
      unicastReceiver_eq hX hY]
    constructor
    · intro h
      exact ⟨⟨0, g, k, 0, 0⟩, ⟨hTile.tN, hg, hk, hTile.tX, hTile.tY⟩, rfl, rfl, h⟩
    · rintro ⟨⟨n, g, k, x, y⟩, hv, rfl, rfl, hEq⟩
      have hn : n < tile.tN := hv.n
      have hx : x < tile.tX := hv.x
      have hy : y < tile.tY := hv.y
      obtain ⟨rfl, rfl, rfl⟩ : n = 0 ∧ x = 0 ∧ y = 0 := by omega
      exact hEq

/-- The weight of a tap at its absolute indices, and zero for a tap outside the layer. -/
def expectedWeight (layer : DNNLayer) (tile : Tile) (filterAddress : Nat → Int)
    (cnt : Counters) (v : Neuron) (t : Tap) : Int :=
  if cnt.currentR * tile.tR + t.r < layer.R ∧ cnt.currentS * tile.tS + t.s < layer.S ∧
      cnt.currentC * tile.tC + t.c < layer.C ∧ cnt.currentK * tile.tK + v.k < layer.K then
    filterAddress (layer.filterIndex (cnt.currentG * tile.tG + v.g)
      (cnt.currentK * tile.tK + v.k) (cnt.currentR * tile.tR + t.r)
      (cnt.currentS * tile.tS + t.s) (cnt.currentC * tile.tC + t.c))
  else 0

private theorem weightData_eq (layer : DNNLayer) (tile : Tile) (filterAddress : Nat → Int)
    (cnt : Counters) (v : Neuron) (t : Tap) :
    weightData layer tile filterAddress cnt v.g v.k t =
      expectedWeight layer tile filterAddress cnt v t := by
  rw [weightData, expectedWeight]
  congr 2
  rw [DNNLayer.filterIndex, DNNLayer.groupSize, DNNLayer.filterSize, DNNLayer.rowFilterSize]
  ring

/-- A weight iteration only adds operands of its packages. -/
theorem operandsFor_distributeWeights {L P : Nat} (hPorts : P ≤ L) (layer : DNNLayer)
    (tile : Tile) (filterAddress : Nat → Int) (cnt : Counters) (readPorts : Nat → ReadPort)
    {m : Nat} (hm : m < 2 ^ L) :
    operandsFor (.powers L P)
        (distributeWeights (.powers L P) (2 ^ L) layer tile filterAddress cnt readPorts) m =
      operandsFor (.powers L P) readPorts m ++
        ((forEachWeight tile (weightPackage (2 ^ L) layer tile filterAddress cnt)).filter
          (·.addresses m)).map fun pck => (pck.data, pck.dataType) := by
  have hSize : (ReadPorts.powers L P).nReadPorts * (ReadPorts.powers L P).msSizePerInputPort =
      2 ^ L := Nat.mul_div_cancel' (pow_dvd_pow 2 hPorts)
  apply operandsFor_foldl
  · intro pck hMem
    obtain ⟨g, -, k, -, t, -, rfl⟩ := mem_forEachWeight.mp hMem
    simp [weightPackage]
  · exact hSize.symm ▸ hm

/-- Each tap gets its own weight. -/
theorem operandsFor_weights {L P : Nat} (hPorts : P ≤ L) {tile : Tile}
    (hTile : tile.Accepted (2 ^ L)) (layer : DNNLayer) (filterAddress : Nat → Int)
    (cnt : Counters) (readPorts : Nat → ReadPort) {v : Neuron} (hv : v.InTile tile) {t : Tap}
    (ht : t.InTile tile) :
    operandsFor (.powers L P)
        (distributeWeights (.powers L P) (2 ^ L) layer tile filterAddress cnt readPorts)
        (tile.multiplier v t) =
      operandsFor (.powers L P) readPorts (tile.multiplier v t) ++
        [(expectedWeight layer tile filterAddress cnt v t, .weight)] := by
  have hm : tile.multiplier v t < 2 ^ L := hTile.multiplier_lt hv ht
  rw [operandsFor_distributeWeights hPorts _ _ _ _ _ hm, filter_forEachWeight hv.g hv.k ht]
  · simp [weightPackage, weightData_eq]
  · rw [weightPackage_addresses hTile _ _ _ hv.g hv.k t hm]
    exact ⟨v, hv, rfl, rfl, rfl⟩
  · intro g' hg' k' hk' t' ht' hAddressed
    obtain ⟨v', hv', rfl, rfl, hSame⟩ :=
      (weightPackage_addresses hTile _ _ _ hg' hk' t' hm).mp hAddressed
    obtain ⟨rfl, rfl⟩ := Tile.multiplier_inj hv' hv ht' ht hSame
    exact ⟨rfl, rfl, rfl⟩

/-- What a weight iteration puts into the input fifos, whatever waits there: the weight of
its tap for every multiplier of a neuron but the psum multiplier, and nothing else. -/
structure WeightRoutingExact (L P : Nat) (layer : DNNLayer) (tile : Tile)
    (filterAddress : Nat → Int) (cnt : Counters) (readPorts : Nat → ReadPort) : Prop where
  taps : ∀ v : Neuron, v.InTile tile → ∀ t : Tap, t.InTile tile →
    CompilerMSN.msVnConfiguration tile (tile.multiplier v t) = some (tile.currentVn v) ∧
    CompilerMSN.forwardingPsumEnabled tile (tile.multiplier v t) = some false ∧
    operandsFor (.powers L P)
        (distributeWeights (.powers L P) (2 ^ L) layer tile filterAddress cnt readPorts)
        (tile.multiplier v t) =
      operandsFor (.powers L P) readPorts (tile.multiplier v t) ++
        [(expectedWeight layer tile filterAddress cnt v t, .weight)]
  allTaps : ∀ m, CompilerMSN.forwardingPsumEnabled tile m = some false →
    ∃ v : Neuron, ∃ t : Tap, v.InTile tile ∧ t.InTile tile ∧ tile.multiplier v t = m
  others : ∀ m < 2 ^ L, CompilerMSN.forwardingPsumEnabled tile m ≠ some false →
    operandsFor (.powers L P)
        (distributeWeights (.powers L P) (2 ^ L) layer tile filterAddress cnt readPorts) m =
      operandsFor (.powers L P) readPorts m
  psums : ∀ port < 2 ^ P,
    (distributeWeights (.powers L P) (2 ^ L) layer tile filterAddress cnt readPorts
      port).psumFifo = (readPorts port).psumFifo

/-- The weights are routed exactly, in both branches and in every weight iteration. -/
theorem weightRouting_exact {L P : Nat} (hPorts : P ≤ L) {tile : Tile}
    (hTile : tile.Accepted (2 ^ L)) (layer : DNNLayer) (filterAddress : Nat → Int)
    (cnt : Counters) (readPorts : Nat → ReadPort) :
    WeightRoutingExact L P layer tile filterAddress cnt readPorts := by
  constructor
  · intro v hv t ht
    refine ⟨?_, ?_, ?_⟩
    · rw [CompilerMSN.msVnConfiguration_eq, if_pos (Tile.multiplier_lt hv ht),
        Tile.multiplier_div ht]
    · exact CompilerMSN.forwardingPsumEnabled_eq_false_iff.mpr ⟨v, t, hv, ht, rfl⟩
    · exact operandsFor_weights hPorts hTile layer filterAddress cnt readPorts hv ht
  · intro m h
    exact CompilerMSN.forwardingPsumEnabled_eq_false_iff.mp h
  · intro m hm hOther
    have hNone : (forEachWeight tile
        (weightPackage (2 ^ L) layer tile filterAddress cnt)).filter (·.addresses m) = [] := by
      rw [List.filter_eq_nil_iff]
      intro pck hMem hAddressed
      obtain ⟨g, hg, k, hk, t, ht, rfl⟩ := mem_forEachWeight.mp hMem
      obtain ⟨v, hv, -, -, hTap⟩ :=
        (weightPackage_addresses hTile _ _ _ hg hk t hm).mp hAddressed
      exact hOther (CompilerMSN.forwardingPsumEnabled_eq_false_iff.mpr ⟨v, t, hv, ht, hTap⟩)
    rw [operandsFor_distributeWeights hPorts _ _ _ _ _ hm, hNone, List.map_nil, List.append_nil]
  · intro port hPort
    rw [distributeWeights, foldl_sendPackageToInputFifos _ _ _ hPort]
    refine List.append_right_eq_self.mpr ?_
    rw [List.filter_eq_nil_iff]
    intro copy hMem
    obtain ⟨pck, hPck, hCopy⟩ := List.mem_flatMap.mp hMem
    obtain ⟨g, -, k, -, t, -, rfl⟩ := mem_forEachWeight.mp hPck
    rw [dataType_of_mem_portPackages hCopy]
    simp [weightPackage]

/-- A tile of two filters that folds and two neurons that share the weights, on two ports. -/
theorem weightRouting_exact_two_filters :
    WeightRoutingExact 4 1
      { R := 3, S := 3, C := 2, K := 3, G := 1, N := 1, X := 5, Y := 5, strides := 1 }
      { tR := 1, tS := 3, tC := 1, tK := 2, tG := 1, tN := 1, tX := 1, tY := 2, folding := true }
      (fun a => a) { currentK := 1, currentR := 2 } (fun _ => {}) :=
  weightRouting_exact (by decide)
    ⟨by decide, by decide, by decide, by decide, by decide, by decide, by decide, by decide,
      by decide⟩ _ _ _ _

end SDMemory

end Stonne
