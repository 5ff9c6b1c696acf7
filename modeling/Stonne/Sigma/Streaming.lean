import Stonne.Lib.Schedule
import Stonne.Sigma.ClusterPacking

/-!
# The streaming matrix

`DIST_STR_MATRIX` sends every element of a streamed vector to the multipliers of the
stationary vectors that have a bit there, and a folded neuron gets its partial sum from the
output memory.  What a neuron then sums up are the products of its part of the stationary
vector, which continue the partial sum of the rounds before.

The reduction network is an ideal one that sums up every neuron.  Sizes, addresses and counters are
exact, that is those of matrices with fewer than 2^32 elements.
-/

namespace Stonne

open Dataflow

/-- A layer that `SparseSDMemory` has loaded. -/
structure SparseLayer extends SparseMemory where
  strDistElem : Nat
  strDistVector : Nat
  outDistVN : Nat
  outDistVNIteration : Nat
  strMetadata : Nat → Nat
  strAddress : Nat → Int

/-- An activation and the multipliers that get it. -/
structure Multicast where
  destinations : List Nat
  data : Int

/-- The controller with its tables and the output memory, and the networks: the weights of the
multipliers, and for every neuron the results that are on their way to `write_fifo`. -/
structure SparseGemm where
  memory : SparseSDMemory := {}
  staCountersTable : Nat → Nat
  strCountersTable : Nat → Nat
  vnatTable : Nat → Nat := fun _ => 0
  outputAddress : Nat → Int
  weights : List (Nat × Int) := []
  results : Nat → List Int := fun _ => []

/-- What the networks sum up for a neuron whose first multiplier is `first`: every weight of
the neuron times the activations that reach it, and the psum of a folded neuron. -/
def neuronResult (weights : List (Nat × Int)) (activations : List Multicast) (psum : Int)
    (first : Nat) (vn : SparseVN) : Int :=
  (if vn.folding then psum else 0) +
    ((weights.filter fun w => first ≤ w.1 ∧ w.1 < first + vn.vnSize).map fun w =>
      ((activations.filter fun a => w.1 ∈ a.destinations).map fun a => w.2 * a.data).sum).sum

namespace SparseLayer

variable (layer : SparseLayer)

/-- The index of element `j` of streamed vector `k`. -/
def strIndex (k j : Nat) : Nat :=
  k * layer.strDistVector + j * layer.strDistElem

/-- The loops that calculate `str_counters_table`. -/
def strCounters (strCountersTable : Nat → Nat) : Nat → Nat :=
  ((cells layer.dimStr layer.K).foldl
    (numberMarked (fun cell => layer.strIndex cell.1 cell.2) fun cell =>
      layer.strMetadata (layer.strIndex cell.1 cell.2) ≠ 0) (strCountersTable, 0)).1

/-- The value of an element of the streaming matrix. -/
def strValue (strCountersTable : Nat → Nat) (k j : Nat) : Int :=
  if layer.strMetadata (layer.strIndex k j) ≠ 0 then
    layer.strAddress (strCountersTable (layer.strIndex k j))
  else 0

/-- `addr_offset`, of a stationary and a streamed vector. -/
def outputIndex (i k : Nat) : Nat :=
  i * layer.outDistVN + k * layer.outDistVNIteration

/-- The activations of the current streamed vector. -/
def activations (st : SparseGemm) : List Multicast :=
  let p := st.memory.position
  (List.range' p.j (st.memory.staLastJMetadata - p.j)).map fun j =>
    { destinations := ((List.range st.memory.configurationVNs.length).filter fun v =>
        layer.bit (p.index + v) j).map fun v => st.staCountersTable (layer.staIndex (p.index + v) j)
      data := layer.strValue st.strCountersTable st.memory.strCurrentIndex j }

/-- The results of the current streamed vector. -/
def streamResults (st : SparseGemm) (v : Nat) : List Int :=
  match st.memory.configurationVNs[v]? with
  | some vn => [neuronResult st.weights (layer.activations st)
      (st.outputAddress (layer.outputIndex st.memory.position.index st.memory.strCurrentIndex))
      (SparseMemory.firstMultiplier st.memory.configurationVNs v) vn]
  | none => []

/-- The part of a cycle before the outputs are received. -/
def prepare (st : SparseGemm) : SparseGemm :=
  match st.memory.currentState with
  | .configuring =>
      let p := st.memory.position
      { st with
        staCountersTable := SparseMemory.writeCounters st.staCountersTable
          (layer.scan p.index p.j).staCounters
        strCountersTable := layer.strCounters st.strCountersTable
        vnatTable := fun _ => 0 }
  | .distStaMatrix =>
      { st with
        weights := layer.stationaryPackages st.memory.position.matrix st.memory.configurationVNs }
  | _ => st

/-- A package of neuron `vn` comes out of `write_fifo`, when there is one. -/
def receiveOne (received : SparseGemm × Nat) (vn : Nat) : SparseGemm × Nat :=
  let st := received.1
  match st.results vn with
  | [] => received
  | data :: rest =>
      ({ st with
        outputAddress := Function.update st.outputAddress
          (layer.outputIndex (st.memory.position.index + vn) (st.vnatTable vn)) data
        vnatTable := Function.update st.vnatTable vn (st.vnatTable vn + 1)
        results := Function.update st.results vn rest }, received.2 + 1)

/-- A cycle in which the neurons of `arrivals` return a package each. -/
def cycle (st : SparseGemm) (arrivals : List Nat) : SparseGemm :=
  let received := arrivals.foldl layer.receiveOne (layer.prepare st, 0)
  { received.1 with
    memory := layer.toSparseMemory.cycle st.memory received.2
    results :=
      if st.memory.currentState = .distStrMatrix then
        fun v => received.1.results v ++ layer.streamResults st v
      else received.1.results }

/-- The controller before the first cycle; the tables are not initialized. -/
def start (staCountersTable strCountersTable : Nat → Nat) (outputAddress : Nat → Int) :
    SparseGemm :=
  { staCountersTable, strCountersTable, outputAddress }

end SparseLayer

namespace SparseMemory

section

variable {mem : SparseMemory} {i j last n v : Nat}

/-! ## The weights of a round -/

/-- The ranks of the bits of a vector are consecutive. -/
theorem map_rank_bits (h : j ≤ last) :
    (mem.bits i j last).map (fun b => mem.rank b.1 b.2) =
      List.range' (mem.rank i j) (mem.ones i last - mem.ones i j) := by
  induction last, h using Nat.le_induction with
  | base => simp only [bits, Nat.sub_self, List.range'_zero, List.filter_nil, List.map_nil]
  | succ last hLast ih =>
      have hMono := @ones_mono mem i j last hLast
      have hOne : (mem.bits i last (last + 1)).map (fun b => mem.rank b.1 b.2) =
          List.range' (mem.rank i last) (if mem.bit i last then 1 else 0) := by
        rw [bits, Nat.add_sub_cancel_left, List.range'_one]
        cases hBit : mem.bit i last with
        | false => simp [hBit]
        | true => simp [hBit]
      have hRank : mem.rank i last = mem.rank i j + (mem.ones i last - mem.ones i j) := by
        rw [rank, rank]
        omega
      rw [← bits_append hLast (Nat.le_succ last), List.map_append, ih, hOne, ones_succ, hRank,
        List.range'_append_1]
      congr 1
      omega

theorem map_rank_bitsBefore (i j : Nat) :
    (mem.bitsBefore i j).map (fun b => mem.rank b.1 b.2) = List.range (mem.rank i j) := by
  have hSplit : ∀ i j, mem.bitsBefore i j = mem.bitsBefore i 0 ++ mem.bits i 0 j := by
    intro i j
    rw [bitsBefore, bitsBefore, List.append_assoc]
    congr 1
  have hInside : ∀ i j, (mem.bitsBefore i 0).map (fun b => mem.rank b.1 b.2) =
        List.range (mem.rank i 0) →
      (mem.bitsBefore i j).map (fun b => mem.rank b.1 b.2) = List.range (mem.rank i j) := by
    intro i j hBefore
    rw [hSplit, List.map_append, hBefore, map_rank_bits (Nat.zero_le j), ones_zero, Nat.sub_zero,
      List.range_eq_range', List.range_eq_range']
    have hAppend := @List.range'_append_1 0 (mem.rank i 0) (mem.ones i j)
    rw [Nat.zero_add] at hAppend
    exact hAppend
  apply hInside
  induction i with
  | zero => rfl
  | succ i ih => rw [bitsBefore_next, rank_next, hInside i mem.K ih]

/-- So are those of the bits of a round. -/
theorem Takes.map_rank (h : mem.Takes i j n last) :
    (mem.roundBits i j n last).map (fun b => mem.rank b.1 b.2) =
      List.range' (mem.rank i j) (mem.roundBits i j n last).length := by
  have hEnd : ∃ m, List.range (mem.rank i j) ++
      (mem.roundBits i j n last).map (fun b => mem.rank b.1 b.2) = List.range m := by
    have hAll := congrArg (List.map fun b => mem.rank b.1 b.2) h.bits
    rw [List.map_append, map_rank_bitsBefore] at hAll
    split at hAll
    · exact ⟨_, hAll.trans (map_rank_bitsBefore _ _)⟩
    · exact ⟨_, hAll.trans (map_rank_bitsBefore _ _)⟩
  obtain ⟨m, hm⟩ := hEnd
  have hLength := congrArg List.length hm
  rw [List.length_append, List.length_range, List.length_range, List.length_map] at hLength
  rw [← hLength, List.range_eq_range', List.range_eq_range'] at hm
  have hAppend := @List.range'_append_1 0 (mem.rank i j) (mem.roundBits i j n last).length
  rw [Nat.zero_add] at hAppend
  exact List.append_cancel_left (hm.trans hAppend.symm)

theorem Takes.length_roundBits (h : mem.Takes i j n last) :
    mem.rank i j + (mem.roundBits i j n last).length =
      if last = mem.K then mem.rank (i + n) 0 else mem.rank i last := by
  have hLength := congrArg List.length h.bits
  rw [List.length_append, length_bitsBefore, apply_ite List.length, length_bitsBefore,
    length_bitsBefore] at hLength
  exact hLength

/-- The value of every bit of the round goes to its multiplier. -/
theorem Takes.packages (h : mem.Takes i j n last) :
    mem.stationaryPackages (mem.rank i j) (mem.configure i j).configurationVNs =
      (mem.roundBits i j n last).map fun b =>
        ((if 0 < j then 1 else 0) + mem.rank b.1 b.2 - mem.rank i j,
          mem.staAddress (mem.rank b.1 b.2)) := by
  have hMap : (mem.roundBits i j n last).map (fun b =>
        ((if 0 < j then 1 else 0) + mem.rank b.1 b.2 - mem.rank i j,
          mem.staAddress (mem.rank b.1 b.2))) =
      (List.range (mem.roundBits i j n last).length).map fun k =>
        ((if 0 < j then 1 else 0) + k, mem.staAddress (mem.rank i j + k)) := by
    have hRanks := congrArg (List.map fun r =>
      ((if 0 < j then 1 else 0) + r - mem.rank i j, mem.staAddress r)) h.map_rank
    rw [List.map_map, List.range'_eq_map_range, List.map_map] at hRanks
    refine hRanks.trans ?_
    apply List.map_congr_left
    intro k _
    simp only [Function.comp_apply]
    congr 1
    omega
  have hLength := h.length_roundBits
  rw [hMap]
  rcases h.single with rfl | ⟨rfl, rfl⟩
  · have hSize : (mem.roundBits i j 1 last).length = mem.ones i last - mem.ones i j := by
      rw [roundBits, List.range_one, List.flatMap_singleton, Nat.add_zero,
        length_bits h.elements.1.le]
    rw [h.configuration, hSize, List.range_one, List.map_singleton, Nat.add_zero]
    rcases Nat.eq_zero_or_pos j with rfl | hPos
    · simp only [Nat.lt_irrefl, decide_false, if_false, Nat.zero_add]
      exact stationaryPackages_whole _ _
    · simp only [hPos, decide_true, if_true]
      exact stationaryPackages_folded _ _
  · have hVNs : (mem.configure i 0).configurationVNs = mem.clusters i (i + n) := by
      rw [h.configuration, clusters, seg, Nat.add_sub_cancel_left, List.range'_eq_map_range,
        List.map_map]
      rfl
    rw [if_pos rfl, rank_add] at hLength
    rw [hVNs, stationaryPackages, foldl_sendCluster, Nat.add_left_cancel hLength]
    simp only [Nat.lt_irrefl, if_false, Nat.zero_add]

end

end SparseMemory

namespace SparseLayer

/-- The matrices that the loaded layer describes, as their stationary and streamed vectors. -/
structure Describes (layer : SparseLayer) (sta str : Nat → Nat → Int) : Prop where
  marked : ∀ i < layer.dimSta, ∀ j < layer.K, layer.bit i j = true →
    layer.staAddress (layer.rank i j) = sta i j
  unmarked : ∀ i < layer.dimSta, ∀ j < layer.K, layer.bit i j = false → sta i j = 0
  streamed : ∀ strCountersTable, ∀ k < layer.dimStr, ∀ j < layer.K,
    layer.strValue (layer.strCounters strCountersTable) k j = str k j

/-- The product of stationary vector `i` and streamed vector `k` before element `j`. -/
def partialSum (sta str : Nat → Nat → Int) (i j k : Nat) : Int :=
  ∑ l ∈ Finset.range j, sta i l * str k l

/-- The controller as it packs the clusters. -/
def packing (layer : SparseLayer) (st : SparseGemm) : PackingMemory where
  controller := st.memory
  staCountersTable := st.staCountersTable
  consumed := layer.bitsBefore st.memory.position.index st.memory.position.j

section

variable {layer : SparseLayer} {sta str : Nat → Nat → Int} {st : SparseGemm} {i j k last n v : Nat}

/-! ## What a neuron sums up -/

/-- Every multiplier belongs to one neuron. -/
theorem neuron_unique {vns : List SparseVN} {v v' m : Nat} {vn vn' : SparseVN}
    (h : vns[v]? = some vn) (h' : vns[v']? = some vn')
    (hm : SparseMemory.firstMultiplier vns v ≤ m ∧
      m < SparseMemory.firstMultiplier vns v + vn.vnSize)
    (hm' : SparseMemory.firstMultiplier vns v' ≤ m ∧
      m < SparseMemory.firstMultiplier vns v' + vn'.vnSize) : v = v' := by
  have hMono : ∀ a b, a ≤ b →
      SparseMemory.firstMultiplier vns a ≤ SparseMemory.firstMultiplier vns b := by
    intro a b hab
    obtain ⟨d, rfl⟩ := Nat.exists_eq_add_of_le hab
    rw [SparseMemory.firstMultiplier, SparseMemory.firstMultiplier, List.take_add, List.map_append,
      List.sum_append]
    exact Nat.le_add_right _ _
  rw [← SparseMemory.firstMultiplier_succ h] at hm
  rw [← SparseMemory.firstMultiplier_succ h'] at hm'
  rcases lt_trichotomy v v' with hLess | hSame | hMore
  · have hNext := hMono _ _ (show v + 1 ≤ v' from hLess)
    omega
  · exact hSame
  · have hNext := hMono _ _ (show v' + 1 ≤ v from hMore)
    omega

/-- The products of the bits of a vector. -/
theorem sum_bits (h : layer.Describes sta str) (hi : i < layer.dimSta) (hj : j ≤ last)
    (hLast : last ≤ layer.K) (data : Nat → Int) (hData : ∀ l < layer.K, data l = str k l) :
    partialSum sta str i j k +
        ((layer.bits i j last).map fun b => layer.staAddress (layer.rank b.1 b.2) * data b.2).sum =
      partialSum sta str i last k := by
  induction last, hj using Nat.le_induction with
  | base => simp [SparseMemory.bits]
  | succ last hj ih =>
      have hOne : ((layer.bits i last (last + 1)).map fun b =>
          layer.staAddress (layer.rank b.1 b.2) * data b.2).sum = sta i last * str k last := by
        rw [SparseMemory.bits, Nat.add_sub_cancel_left, List.range'_one]
        cases hBit : layer.bit i last with
        | false => simp [hBit, h.unmarked i hi last (by omega) hBit]
        | true => simp [hBit, h.marked i hi last (by omega) hBit, hData last (by omega)]
      rw [← SparseMemory.bits_append hj (Nat.le_succ last), List.map_append, List.sum_append,
        ← add_assoc, ih (by omega), hOne, partialSum, partialSum, Finset.sum_range_succ]

section

variable (hRound : SparseMemory.InRound layer.toSparseMemory (layer.packing st))
  (hTakes : layer.Takes st.memory.position.index st.memory.position.j n last)

include hRound hTakes

theorem scheduled_eq : layer.scheduled st.memory =
    layer.roundBits st.memory.position.index st.memory.position.j n last :=
  hRound.scheduled hTakes

variable (hIndexed : layer.Indexed) (hMs : 0 < layer.numMs)
  (hMatrix : st.memory.position.matrix =
    layer.rank st.memory.position.index st.memory.position.j)

include hIndexed hMs hMatrix

theorem packed : layer.Packed (layer.packing st) := by
  apply hRound.packed hTakes hIndexed hMs
  rw [packing, SparseMemory.length_bitsBefore]
  exact hMatrix

/-- The weights are where the table says. -/
theorem weights_eq : layer.stationaryPackages st.memory.position.matrix
      st.memory.configurationVNs =
    (layer.roundBits st.memory.position.index st.memory.position.j n last).map fun b =>
      (st.staCountersTable (layer.staIndex b.1 b.2), layer.staAddress (layer.rank b.1 b.2)) := by
  have hVNs : st.memory.configurationVNs = (layer.configure st.memory.position.index
      st.memory.position.j).configurationVNs := hRound.configurationVNs
  rw [hVNs, hMatrix, hTakes.packages]
  apply List.map_congr_left
  intro b hb
  rw [← scheduled_eq hRound hTakes] at hb
  have hMultiplier : st.staCountersTable (layer.staIndex b.1 b.2) +
      layer.rank st.memory.position.index st.memory.position.j =
        (if 0 < st.memory.position.j then 1 else 0) + layer.rank b.1 b.2 :=
    hRound.multiplier hTakes hIndexed hMs hb
  rw [← hMultiplier, Nat.add_sub_cancel]

/-- The activation that reaches the multiplier of a bit is the one of its element. -/
theorem sum_activations {b : Nat × Nat} (w : Int)
    (hb : b ∈ layer.roundBits st.memory.position.index st.memory.position.j n last) :
    (((layer.activations st).filter fun a =>
        st.staCountersTable (layer.staIndex b.1 b.2) ∈ a.destinations).map fun a =>
          w * a.data).sum =
      w * layer.strValue st.strCountersTable st.memory.strCurrentIndex b.2 := by
  have hPacked := packed hRound hTakes hIndexed hMs hMatrix
  have hLength : st.memory.configurationVNs.length = n := hRound.length_eq hTakes
  have hLast : st.memory.staLastJMetadata = last := hRound.last_eq hTakes
  have hScheduled := scheduled_eq hRound hTakes
  obtain ⟨v, hv, hVector, hFrom, hTo, hBit⟩ := SparseMemory.mem_roundBits.mp hb
  have hReaches : ∀ l ∈ List.range' st.memory.position.j (last - st.memory.position.j),
      (decide (st.staCountersTable (layer.staIndex b.1 b.2) ∈
        ((List.range n).filter fun v => layer.bit (st.memory.position.index + v) l).map fun v =>
          st.staCountersTable (layer.staIndex (st.memory.position.index + v) l))) =
        decide (l = b.2) := by
    intro l hl
    have hl := List.mem_range'_1.mp hl
    rw [decide_eq_decide, List.mem_map]
    constructor
    · rintro ⟨v', hv', hSame⟩
      obtain ⟨hv', hBit'⟩ := List.mem_filter.mp hv'
      have hMem : (st.memory.position.index + v', l) ∈ layer.roundBits st.memory.position.index
          st.memory.position.j n last :=
        SparseMemory.mem_roundBits.mpr
          ⟨v', List.mem_range.mp hv', rfl, hl.1, by simp only; omega, hBit'⟩
      rw [← hScheduled] at hMem hb
      exact congrArg Prod.snd (hPacked.distinct _ hMem _ hb hSame)
    · rintro rfl
      refine ⟨v, List.mem_filter.mpr ⟨List.mem_range.mpr hv, hBit⟩, ?_⟩
      rw [hVector]
  have hOnly : (List.range' st.memory.position.j (last - st.memory.position.j)).filter
      (fun l => decide (l = b.2)) = [b.2] :=
    filter_eq_singleton (List.nodup_range' 1) (List.mem_range'_1.mpr ⟨hFrom, by omega⟩)
      fun _ _ => decide_eq_true_iff
  rw [activations]
  simp only [hLength, hLast, List.filter_map, Function.comp_def]
  rw [List.filter_congr hReaches, hOnly]
  simp

/-- A neuron sums up its part of the stationary vector, after the psum. -/
theorem streamResults_eq (h : layer.Describes sta str)
    (hWeights : st.weights = layer.stationaryPackages st.memory.position.matrix
      st.memory.configurationVNs)
    (hStr : ∀ l < layer.K, layer.strValue st.strCountersTable st.memory.strCurrentIndex l = str k l)
    (hPsum : 0 < st.memory.position.j → st.outputAddress
        (layer.outputIndex st.memory.position.index st.memory.strCurrentIndex) =
      partialSum sta str st.memory.position.index st.memory.position.j k) (hv : v < n) :
    layer.streamResults st v = [partialSum sta str (st.memory.position.index + v) last k] := by
  have hPacked := packed hRound hTakes hIndexed hMs hMatrix
  have hScheduled := scheduled_eq hRound hTakes
  obtain ⟨hPos, hInside⟩ := hTakes.vectors
  obtain ⟨hFrom, hTo⟩ := hTakes.elements
  have hVNs : st.memory.configurationVNs = (layer.configure st.memory.position.index
      st.memory.position.j).configurationVNs := hRound.configurationVNs
  have hVN := hTakes.getElem? hv
  rw [← hVNs] at hVN
  have hNeuron : ∀ b ∈ layer.roundBits st.memory.position.index st.memory.position.j n last,
      decide (SparseMemory.firstMultiplier st.memory.configurationVNs v ≤
          st.staCountersTable (layer.staIndex b.1 b.2) ∧
        st.staCountersTable (layer.staIndex b.1 b.2) <
          SparseMemory.firstMultiplier st.memory.configurationVNs v +
            (SparseVN.mk (layer.ones (st.memory.position.index + v) last -
              layer.ones (st.memory.position.index + v) st.memory.position.j)
              (decide (0 < st.memory.position.j))).vnSize) =
        decide (b.1 = st.memory.position.index + v) := by
    intro b hb
    rw [decide_eq_decide]
    obtain ⟨v', hv', hVector, -⟩ := SparseMemory.mem_roundBits.mp hb
    have hVN' := hTakes.getElem? hv'
    rw [← hVNs] at hVN'
    have hHere := hPacked.multipliers v' _ hVN' b (hScheduled ▸ hb) hVector
    constructor
    · intro hIn
      rw [hVector, neuron_unique hVN hVN' hIn ⟨(Nat.le_add_right _ _).trans hHere.1, hHere.2⟩]
    · intro hSame
      obtain rfl : v' = v := by omega
      exact ⟨(Nat.le_add_right _ _).trans hHere.1, hHere.2⟩
  have hBits : ∀ b ∈ layer.bits (st.memory.position.index + v) st.memory.position.j last,
      b ∈ layer.roundBits st.memory.position.index st.memory.position.j n last := by
    intro b hb
    exact List.mem_flatMap.mpr ⟨v, List.mem_range.mpr hv, hb⟩
  rw [streamResults, hVN]
  simp only [neuronResult, hWeights, weights_eq hRound hTakes hIndexed hMs hMatrix,
    List.filter_map, Function.comp_def]
  rw [List.filter_congr hNeuron, SparseMemory.filter_roundBits hv, List.map_map]
  have hSum : ((layer.bits (st.memory.position.index + v) st.memory.position.j last).map
      ((fun w : Nat × Int => (((layer.activations st).filter fun a =>
          decide (w.1 ∈ a.destinations)).map fun a => w.2 * a.data).sum) ∘ fun b =>
        (st.staCountersTable (layer.staIndex b.1 b.2), layer.staAddress (layer.rank b.1 b.2)))) =
      (layer.bits (st.memory.position.index + v) st.memory.position.j last).map fun b =>
        layer.staAddress (layer.rank b.1 b.2) *
          layer.strValue st.strCountersTable st.memory.strCurrentIndex b.2 := by
    apply List.map_congr_left
    intro b hb
    exact sum_activations hRound hTakes hIndexed hMs hMatrix _ (hBits b hb)
  rw [hSum]
  have hPart := sum_bits h (show st.memory.position.index + v < layer.dimSta by omega) hFrom.le hTo
    _ hStr
  rw [← hPart]
  congr 2
  rcases Nat.eq_zero_or_pos st.memory.position.j with hZero | hFold
  · rw [hZero, partialSum]
    simp
  · obtain rfl : v = 0 := by
      rcases hTakes.single with hOne | ⟨hZero, -⟩
      · omega
      · omega
    rw [if_pos (by simpa using hFold), hPsum hFold, Nat.add_zero]

end

end

end SparseLayer

end Stonne
