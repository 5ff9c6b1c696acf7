import Stonne.Sigma.PackingMemory

/-!
# Cluster packing on arbitrary bitmaps

A vector without a set bit has no cluster, so the neurons of its round stand for other vectors
than theirs.  And when a round ends with the last vector, the search for a last cluster reads
the bits of a vector behind it.  Without these two cases the rounds part the set bits, and
every bit has its own multiplier.
-/

namespace Stonne

open Dataflow

namespace SparseMemory

variable (mem : SparseMemory)

/-- The networks are configured for the stationary vectors at the index of the controller. -/
structure Packed (st : PackingMemory) : Prop where
  fits : firstMultiplier st.controller.configurationVNs st.controller.configurationVNs.length ≤
    mem.numMs
  neurons : ∀ v vn, st.controller.configurationVNs[v]? = some vn →
    vn.size = ((mem.scheduled st.controller).filter fun bit =>
      bit.1 = st.controller.position.index + v).length
  /-- The first multiplier of a folded neuron is left to the psum. -/
  multipliers : ∀ v vn, st.controller.configurationVNs[v]? = some vn →
    ∀ bit ∈ mem.scheduled st.controller, bit.1 = st.controller.position.index + v →
      let first := firstMultiplier st.controller.configurationVNs v
      let multiplier := st.staCountersTable (mem.staIndex bit.1 bit.2)
      first + (if vn.folding then 1 else 0) ≤ multiplier ∧ multiplier < first + vn.vnSize
  distinct : ∀ bit ∈ mem.scheduled st.controller, ∀ bit' ∈ mem.scheduled st.controller,
    st.staCountersTable (mem.staIndex bit.1 bit.2) =
      st.staCountersTable (mem.staIndex bit'.1 bit'.2) → bit = bit'
  matrix : st.controller.position.matrix = st.consumed.length

/-- In every run the rounds part the set bits. -/
structure ClusterPacking (heap : Nat → Nat) : Prop where
  /-- Right after `CONFIGURING`. -/
  packed : ∀ outputs, (mem.packingRun heap outputs).controller.currentState = .distStaMatrix →
    mem.Packed (mem.packingRun heap outputs)
  once : ∀ outputs, (mem.packingRun heap outputs).controller.executionFinished = true →
    ∀ i < mem.dimSta, ∀ j < mem.K, mem.bit i j = true →
      (mem.packingRun heap outputs).consumed.count (i, j) = 1
  finishes : ∃ outputs, (mem.packingRun heap outputs).controller.executionFinished = true
  inside : ∀ outputs, ∀ a ∈ (mem.packingRun heap outputs).reads, a < mem.dimSta * mem.K

/-- The multipliers are used up before the end of the matrix: the last vector does not fit, or
the last run takes all of them and the last element is not set. -/
def UsedUp : Prop :=
  mem.numMs < mem.size (mem.dimSta - 1) ∨
    lastLoad mem.numMs mem.size mem.dimSta = mem.numMs ∧
      mem.bit (mem.dimSta - 1) (mem.K - 1) = false

/-- Every vector has a set bit, and the search for a last cluster stays inside. -/
structure PacksCleanly : Prop where
  vectors : ∀ i < mem.dimSta, 0 < mem.size i
  last : mem.UsedUp

section

variable {mem} {i j n last : Nat} {heap : Nat → Nat} {st : PackingMemory}

/-! ## Inside the metadata -/

/-- The loop over whole vectors ends behind the matrix only when it has not used up the
multipliers before the last element. -/
theorem scanWhole_behind (hK : 0 < mem.K) (hi : i < mem.dimSta)
    (hEnd : (mem.scan i 0).i = mem.dimSta) :
    load mem.size i (mem.dimSta - i) ≤ mem.numMs ∧
      (load mem.size i (mem.dimSta - i) = mem.numMs →
        mem.bit (mem.dimSta - 1) (mem.K - 1) = true) := by
  have hScan : mem.scan i 0 = mem.scanWhole { i, j := 0 } := if_neg (Nat.lt_irrefl 0)
  obtain ⟨h, -, hFree⟩ := @scanWhole_induction mem i
    (fun s => s.i = mem.dimSta → mem.bit (mem.dimSta - 1) (mem.K - 1) = true ∨ s.nMs < mem.numMs)
    hK hi (fun hNot => absurd hNot hi.ne) fun s hFilling hFree hVector _ => by
      obtain ⟨hI, hJ, -, -, hMs⟩ := @assign_spec mem s
      unfold wholeStep
      simp only [hI, hJ]
      split
      · rename_i hLast
        intro hOver
        simp only at hOver
        obtain ⟨hI', hJ'⟩ : s.i = mem.dimSta - 1 ∧ s.j = mem.K - 1 := ⟨by omega, by omega⟩
        rw [← hI', ← hJ']
        cases hBit : mem.bit s.i s.j with
        | true => exact Or.inl rfl
        | false =>
            right
            simp only [hMs, hBit, Bool.false_eq_true, if_false, Nat.add_zero]
            exact hFree
      · intro hNot
        exact absurd hNot hVector.ne
  rw [← hScan] at h hFree
  have hUsed := h.used
  have hFits := h.fits
  have hCluster := h.cluster
  rw [h.last hEnd, ones_zero] at hCluster
  rw [hEnd, hCluster, Nat.add_zero] at hUsed
  refine ⟨hUsed ▸ hFits, fun hFull => ?_⟩
  rcases hFree hEnd with hBit | hLess
  · exact hBit
  · omega

/-- The loop over a folded vector does not leave it. -/
theorem scan_folded (hMs : 0 < mem.numMs) (hPos : 0 < j) (hj : j < mem.K) :
    (mem.scan i j).i = i := by
  rw [scan, if_pos hPos]
  exact (scanFolded_spec hMs hj.le).1.vector

theorem PacksCleanly.scan_lt (h : mem.PacksCleanly) (hMs : 0 < mem.numMs) (hK : 0 < mem.K)
    {p : Position} (hAligned : mem.Aligned p) (hInside : p.index < mem.dimSta) :
    (mem.scan p.index p.j).i < mem.dimSta := by
  rcases hAligned.unfinished with hZero | ⟨hPos, hj, -⟩
  · rw [hZero]
    by_contra hNot
    have hScan : mem.scan p.index 0 = mem.scanWhole { i := p.index, j := 0 } :=
      if_neg (Nat.lt_irrefl 0)
    have hVector := (scanWhole_spec hK hInside).1.vector
    rw [← hScan] at hVector
    obtain ⟨hFits, hFull⟩ := scanWhole_behind hK hInside (Nat.le_antisymm hVector.2 (by omega))
    have hLoad := (hAligned.begins hZero hInside).lastLoad_add (m := mem.dimSta - p.index)
      (by omega) hFits
    rw [Nat.add_sub_cancel' hInside.le] at hLoad
    rcases h.last with hOver | ⟨hUsed, hBit⟩
    · -- The last vector is in this run.
      have hSplit : load mem.size p.index (mem.dimSta - p.index) =
          load mem.size p.index (mem.dimSta - p.index - 1) + mem.size (mem.dimSta - 1) := by
        have hSucc := @load_succ mem.size p.index (mem.dimSta - p.index - 1)
        rw [show mem.dimSta - p.index - 1 + 1 = mem.dimSta - p.index by omega,
          show p.index + (mem.dimSta - p.index - 1) = mem.dimSta - 1 by omega] at hSucc
        exact hSucc
      omega
    · rw [hFull (hLoad ▸ hUsed)] at hBit
      exact nomatch hBit
  · rw [scan_folded hMs hPos hj]
    exact hInside

theorem metadataReads_lt (hIndexed : mem.Indexed) (hMs : 0 < mem.numMs) (hi : i < mem.dimSta)
    (hj : j < mem.K) (hScan : (mem.scan i j).i < mem.dimSta) :
    ∀ a ∈ mem.metadataReads i j, a < mem.dimSta * mem.K := by
  intro a ha
  simp only [metadataReads, List.mem_append, List.mem_map, List.mem_range'_1] at ha
  rcases ha with hLoop | ⟨r, hr, rfl⟩
  · obtain ⟨i', hi', j', hj', rfl⟩ := (recorded_scan hMs (by omega) hi hj).reads a hLoop
    exact hIndexed.inside i' hi' j' hj'
  · exact hIndexed.inside _ hScan r (by omega)

/-- Behind the matrix the remaining values are outside. -/
theorem exists_metadataReads_ge (hIndexed : mem.Indexed) (hK : 0 < mem.K) (hi : i < mem.dimSta)
    (hEnd : (mem.scan i 0).i = mem.dimSta) :
    ∃ a ∈ mem.metadataReads i 0, mem.dimSta * mem.K ≤ a := by
  have hScan : mem.scan i 0 = mem.scanWhole { i, j := 0 } := if_neg (Nat.lt_irrefl 0)
  have hFilling := (scanWhole_spec hK hi).1
  rw [← hScan] at hFilling
  refine ⟨mem.staIndex mem.dimSta (mem.K - 1), ?_, hIndexed.behind hK⟩
  simp only [metadataReads, List.mem_append, List.mem_map, List.mem_range'_1]
  refine Or.inr ⟨mem.K - 1, ?_, ?_⟩
  · rw [hFilling.last hEnd]
    omega
  · rw [hEnd]

/-! ## A round -/

section

variable (hRound : InRound mem st)
  (hTakes : mem.Takes st.controller.position.index st.controller.position.j n last)

include hRound hTakes

theorem InRound.length_eq : st.controller.configurationVNs.length = n := by
  rw [hRound.configurationVNs, hTakes.length]

theorem InRound.last_eq : st.controller.staLastJMetadata = last := by
  rw [hRound.staLastJMetadata, hTakes.configuration]

theorem InRound.scheduled : mem.scheduled st.controller =
    mem.roundBits st.controller.position.index st.controller.position.j n last := by
  rw [SparseMemory.scheduled, hRound.length_eq hTakes, hRound.last_eq hTakes]
  rfl

theorem InRound.distStrReads_lt (hIndexed : mem.Indexed) :
    ∀ a ∈ mem.distStrReads st.controller, a < mem.dimSta * mem.K := by
  obtain ⟨-, hInside⟩ := hTakes.vectors
  obtain ⟨-, hLast⟩ := hTakes.elements
  intro a ha
  simp only [distStrReads, hRound.length_eq hTakes, hRound.last_eq hTakes, List.mem_flatMap,
    List.mem_range'_1, List.mem_map, List.mem_range] at ha
  obtain ⟨j, hj, v, hv, rfl⟩ := ha
  exact hIndexed.inside _ (by omega) _ (by omega)

/-- The multiplier of a bit of the round. -/
theorem InRound.multiplier (hIndexed : mem.Indexed) (hMs : 0 < mem.numMs) {bit : Nat × Nat}
    (hBit : bit ∈ mem.scheduled st.controller) :
    st.staCountersTable (mem.staIndex bit.1 bit.2) +
        mem.rank st.controller.position.index st.controller.position.j =
      (if 0 < st.controller.position.j then 1 else 0) + mem.rank bit.1 bit.2 := by
  rw [hRound.scheduled hTakes, mem_roundBits] at hBit
  obtain ⟨v, hv, hVector, hFrom, hTo, hSet⟩ := hBit
  obtain ⟨table, hTable⟩ := hRound.counters
  rw [hTable, hVector]
  exact hTakes.counter hIndexed hMs table hv hSet hFrom hTo

theorem InRound.packed (hIndexed : mem.Indexed) (hMs : 0 < mem.numMs)
    (hMatrix : st.controller.position.matrix = st.consumed.length) : mem.Packed st := by
  obtain ⟨hPos, hInside⟩ := hTakes.vectors
  obtain ⟨hFrom, hTo⟩ := hTakes.elements
  have hVNs := hRound.configurationVNs
  have hMember : ∀ v vn, st.controller.configurationVNs[v]? = some vn →
      v < n ∧ vn = ⟨mem.ones (st.controller.position.index + v) last -
        mem.ones (st.controller.position.index + v) st.controller.position.j,
        decide (0 < st.controller.position.j)⟩ := by
    intro v vn hGet
    have hv : v < n := by
      rw [← hRound.length_eq hTakes]
      exact (List.getElem?_eq_some_iff.mp hGet).1
    rw [hVNs, hTakes.getElem? hv] at hGet
    exact ⟨hv, (Option.some.inj hGet).symm⟩
  refine ⟨?_, fun v vn hGet => ?_, fun v vn hGet bit hBit hVector => ?_,
    fun bit hBit bit' hBit' hSame => ?_, hMatrix⟩
  · rw [hRound.length_eq hTakes, hVNs]
    exact hTakes.total
  · obtain ⟨hv, rfl⟩ := hMember v vn hGet
    rw [hRound.scheduled hTakes, filter_roundBits hv, length_bits hFrom.le]
  · obtain ⟨hv, hVN⟩ := hMember v vn hGet
    obtain ⟨vn', hGet', hFolding, hSize⟩ := hTakes.vnSize hv
    rw [← hVNs, hGet] at hGet'
    obtain rfl := Option.some.inj hGet'
    have hFirst := hTakes.firstMultiplier hv
    have hMultiplier := hRound.multiplier hTakes hIndexed hMs hBit
    rw [hRound.scheduled hTakes, mem_roundBits] at hBit
    obtain ⟨v', hv', hVector', hStart, hEnd, hSet⟩ := hBit
    obtain rfl : v' = v := by omega
    have hRankFrom : mem.rank bit.1 st.controller.position.j ≤ mem.rank bit.1 bit.2 :=
      rank_mono hStart
    have hRankTo : mem.rank bit.1 (bit.2 + 1) ≤ mem.rank bit.1 last := rank_mono hEnd
    rw [rank_succ, hVector', if_pos hSet] at hRankTo
    rw [hVector'] at hRankFrom hMultiplier
    simp only [hVNs, hVector', hFolding, decide_eq_true_eq]
    rcases Nat.eq_zero_or_pos st.controller.position.j with hZero | hFold
    · simp only [hZero, Nat.lt_irrefl, if_false] at *
      omega
    · simp only [hFold, if_true] at *
      rcases hTakes.single with rfl | ⟨hZero, -⟩
      · obtain rfl : v' = 0 := by omega
        simp only [Nat.add_zero] at *
        omega
      · omega
  · -- The ranks of two set bits differ.
    have hMultiplier := hRound.multiplier hTakes hIndexed hMs hBit
    have hMultiplier' := hRound.multiplier hTakes hIndexed hMs hBit'
    rw [hRound.scheduled hTakes, mem_roundBits] at hBit hBit'
    obtain ⟨v, hv, hVector, hStart, hEnd, hSet⟩ := hBit
    obtain ⟨v', hv', hVector', hStart', hEnd', hSet'⟩ := hBit'
    rw [← hVector] at hSet
    rw [← hVector'] at hSet'
    have hRank : mem.rank bit.1 bit.2 = mem.rank bit'.1 bit'.2 := by omega
    have hPlace : bit.1 * mem.K + bit.2 = bit'.1 * mem.K + bit'.2 := by
      rcases lt_trichotomy (bit.1 * mem.K + bit.2) (bit'.1 * mem.K + bit'.2) with
        hLess | hEq | hMore
      · have hNot := rank_lt hSet hLess (by omega) (by omega)
        omega
      · exact hEq
      · have hNot := rank_lt hSet' hMore (by omega) (by omega)
        omega
    obtain ⟨hI, hJ⟩ := radix_inj (show bit.2 < mem.K by omega) (show bit'.2 < mem.K by omega) hPlace
    exact Prod.ext hI hJ

end

/-! ## Bitmaps that are packed -/

/-- From every position the rounds reach the end of the matrix. -/
theorem Aligned.exists_executes (hMs : 2 ≤ mem.numMs) (hK : 0 < mem.K)
    (hSizes : ∀ i < mem.dimSta, 0 < mem.size i) {p : Position} (h : mem.Aligned p) :
    ∃ rounds, mem.Executes p rounds := by
  induction hLeft : mem.dimSta * mem.K - (p.index * mem.K + p.j) using
    Nat.strong_induction_on generalizing p with
  | _ left ih =>
      rcases Nat.lt_or_ge p.index mem.dimSta with hInside | hEnd
      · obtain ⟨n, last, hTakes⟩ := exists_takes hMs hK hSizes hInside h.unfinished
        obtain ⟨hAligned, hNext⟩ := h.next hTakes
        obtain ⟨hPos, -⟩ := hTakes.vectors
        obtain ⟨hFrom, hTo⟩ := hTakes.elements
        have hHere : p.index * mem.K + p.j < mem.dimSta * mem.K :=
          radix_lt hInside (show p.j < mem.K by omega)
        have hLater : p.index * mem.K + p.j < (mem.next p).index * mem.K + (mem.next p).j := by
          rw [hNext]
          split
          · have hBehind := Nat.mul_le_mul_right mem.K (show p.index + 1 ≤ p.index + n by omega)
            rw [Nat.succ_mul] at hBehind
            simp only
            omega
          · simp only
            omega
        obtain ⟨rounds, hRounds⟩ := ih _ (by omega) hAligned rfl
        exact ⟨mem.roundAt p :: rounds, Executes.round hInside hRounds⟩
      · exact ⟨[], Executes.finished hEnd⟩

/-- The set bits before the position are distributed, and all that is read is inside. -/
structure Cleanly (mem : SparseMemory) (p : Position) (consumed : List (Nat × Nat))
    (reads : List Nat) : Prop where
  aligned : mem.Aligned p
  consumed : consumed = mem.bitsBefore p.index p.j
  inside : ∀ a ∈ reads, a < mem.dimSta * mem.K

theorem PacksCleanly.trackingRule (h : mem.PacksCleanly) (hIndexed : mem.Indexed)
    (hMs : 2 ≤ mem.numMs) (hK : 0 < mem.K) (heap : Nat → Nat) :
    mem.TrackingRule heap mem.Cleanly mem.Cleanly := by
  have hTakes : ∀ p : Position, mem.Aligned p → p.index < mem.dimSta →
      ∃ n last, mem.Takes p.index p.j n last := fun p hAligned hInside =>
    exists_takes hMs hK h.vectors hInside hAligned.unfinished
  refine ⟨⟨aligned_start, rfl, nofun⟩, fun outputs _ _ hInside reads hReads hStart => ?_,
    fun st hRound hInside hHere => ?_, fun st hRound hInside hHere => ?_⟩
  · obtain ⟨n, last, hTakes⟩ := hTakes _ hStart.aligned hInside
    obtain ⟨hFrom, hTo⟩ := hTakes.elements
    refine ⟨hStart.aligned, hStart.consumed, fun a ha => ?_⟩
    rw [hReads, List.mem_append] at ha
    rcases ha with hOld | hNew
    · exact hStart.inside a hOld
    · exact metadataReads_lt hIndexed (by omega) hInside (by omega)
        (h.scan_lt (by omega) hK hStart.aligned hInside) a hNew
  · obtain ⟨n, last, hTakes⟩ := hTakes _ hHere.aligned hInside
    refine ⟨hHere.aligned, hHere.consumed, fun a ha => ?_⟩
    rw [List.mem_append] at ha
    rcases ha with hOld | hNew
    · exact hHere.inside a hOld
    · exact hRound.distStrReads_lt hTakes hIndexed a hNew
  · obtain ⟨n, last, hTakes⟩ := hTakes _ hHere.aligned hInside
    obtain ⟨hAligned, hNext⟩ := hHere.aligned.next hTakes
    refine ⟨hAligned, ?_, hHere.inside⟩
    rw [hHere.consumed, hRound.scheduled hTakes, hTakes.bits, hNext]
    split
    · rfl
    · rfl

theorem PacksCleanly.clusterPacking (h : mem.PacksCleanly) (hIndexed : mem.Indexed)
    (hMs : 2 ≤ mem.numMs) (hK : 0 < mem.K) (hPos : 0 < mem.dimSta) (hStr : 0 < mem.dimStr)
    (heap : Nat → Nat) : mem.ClusterPacking heap := by
  have hRun := fun outputs =>
    tracked_run (h.trackingRule hIndexed hMs hK heap) hPos outputs
  refine ⟨fun outputs hState => ?_, fun outputs hDone i hi j hj hBit => ?_, ?_,
    fun outputs a ha => ?_⟩
  · obtain ⟨hInside, hRound, hHere⟩ := (hRun outputs).goesOn (by simp [hState]) (by simp [hState])
    obtain ⟨n, last, hTakes⟩ := exists_takes hMs hK h.vectors hInside hHere.aligned.unfinished
    apply hRound.packed hTakes hIndexed (by omega)
    rw [hHere.aligned.matrix, hHere.consumed, length_bitsBefore]
  · obtain ⟨hEnd, hStart⟩ := (hRun outputs).ends ((hRun outputs).finished hDone)
    have hLast := Nat.le_antisymm hStart.aligned.inside hEnd
    rw [hStart.consumed, hLast, hStart.aligned.ended hLast]
    exact count_bitsBefore hi hj hBit
  · obtain ⟨rounds, hRounds⟩ := aligned_start.exists_executes hMs hK h.vectors
    obtain ⟨outputs, hFinished⟩ := exists_finished hPos hStr hRounds
    exact ⟨outputs, by rwa [packingRun_controller]⟩
  · cases hState : (mem.packingRun heap outputs).controller.currentState with
    | configuring => exact ((hRun outputs).begins hState).2.inside a ha
    | allDataSent => exact ((hRun outputs).ends hState).2.inside a ha
    | _ => exact ((hRun outputs).goesOn (by simp [hState]) (by simp [hState])).2.2.inside a ha

/-! ## What packing requires -/

/-- The clusters of a round that stays inside the matrix are not empty. -/
theorem size_pos_of_configure (hMs : 0 < mem.numMs) (hK : 0 < mem.K) (hi : i < mem.dimSta)
    (hScan : (mem.scan i 0).i < mem.dimSta) :
    (∀ vn ∈ (mem.configure i 0).configurationVNs, 0 < vn.size) ∧
      (mem.configure i 0).staLastJMetadata ≤ mem.K := by
  rw [scan, if_neg (Nat.lt_irrefl 0)] at hScan
  obtain ⟨h, hEnd⟩ := scanWhole_spec hK hi
  rw [configure, if_neg (Nat.lt_irrefl 0), configureWhole]
  generalize mem.scanWhole { i, j := 0 } = s at *
  have hFull : s.nMs = mem.numMs := hEnd.resolve_right hScan.ne
  have hFound : ∀ vn ∈ s.configurationVNs, 0 < vn.size := by
    intro vn hvn
    rw [h.clusters, foundClusters, List.mem_map] at hvn
    obtain ⟨k, hk, rfl⟩ := hvn
    exact of_decide_eq_true (List.mem_filter.mp hk).2
  have hNone : s.configurationVNs = [] → 0 < s.nCurrentCluster := by
    intro hEmpty
    have hUsed := h.used
    have hLoad : load mem.size i (s.i - i) = 0 := by
      rw [h.clusters, foundClusters, List.map_eq_nil_iff, List.filter_eq_nil_iff] at hEmpty
      apply Finset.sum_eq_zero
      intro k hk
      have hZero := hEmpty (i + k) (List.mem_range'_1.mpr ⟨Nat.le_add_right i k, by
        have hk := Finset.mem_range.mp hk
        omega⟩)
      rw [decide_eq_true_eq] at hZero
      omega
    omega
  have hLast : mem.lastJ s.i s.j ≤ mem.K := by
    unfold lastJ
    split
    · exact h.element.le
    · exact le_rfl
  unfold closeWhole
  extract_lets configurationVNs
  split
  · refine ⟨fun vn hvn => ?_, hLast⟩
    obtain rfl := List.mem_singleton.mp hvn
    apply hNone
    rename_i hEmpty
    have hEmpty := List.length_eq_zero_iff.mp hEmpty
    simp only [configurationVNs] at hEmpty
    split at hEmpty
    · split at hEmpty
      · exact absurd hEmpty (List.append_ne_nil_of_right_ne_nil _ (List.cons_ne_nil _ _))
      · exact hEmpty
    · exact hEmpty
  · refine ⟨fun vn hvn => ?_, le_rfl⟩
    simp only [configurationVNs] at hvn
    split at hvn
    · split at hvn
      · rename_i hCluster
        rcases List.mem_append.mp hvn with hOld | hNew
        · exact hFound vn hOld
        · obtain rfl := List.mem_singleton.mp hNew
          exact hCluster.2
      · exact hFound vn hvn
    · exact hFound vn hvn

theorem size_pos_of_bit (hj : j < mem.K) (hBit : mem.bit i j = true) : 0 < mem.size i := by
  have hMono := @ones_mono mem i (j + 1) mem.K hj
  rw [ones_succ, if_pos hBit] at hMono
  exact Nat.lt_of_lt_of_le (Nat.succ_pos _) hMono

/-- In a run that reads inside the metadata no round ends behind the matrix. -/
theorem ClusterPacking.scan_lt (h : mem.ClusterPacking heap) (hIndexed : mem.Indexed)
    (hK : 0 < mem.K) {outputs reads : List Nat} (hi : i < mem.dimSta)
    (hReads : (mem.packingRun heap outputs).reads = reads ++ mem.metadataReads i 0) :
    (mem.scan i 0).i < mem.dimSta := by
  have hScan : mem.scan i 0 = mem.scanWhole { i, j := 0 } := if_neg (Nat.lt_irrefl 0)
  have hVector := (scanWhole_spec hK hi).1.vector
  rw [← hScan] at hVector
  refine Nat.lt_of_le_of_ne hVector.2 fun hEnd => ?_
  obtain ⟨a, ha, hOutside⟩ := exists_metadataReads_ge hIndexed hK hi hEnd
  have hInside := h.inside outputs a (hReads ▸ List.mem_append_right _ ha)
  omega

/-- The vectors before the position have a set bit. -/
structure NoneEmpty (mem : SparseMemory) (p : Position) : Prop where
  before : ∀ i < p.index, 0 < mem.size i
  here : 0 < p.j → 0 < mem.size p.index

/-- So have those of the round. -/
structure RoundNotEmpty (mem : SparseMemory) (p : Position) : Prop where
  noneEmpty : mem.NoneEmpty p
  round : ∀ v < (mem.configure p.index p.j).configurationVNs.length, 0 < mem.size (p.index + v)

theorem RoundNotEmpty.next {p : Position} (h : mem.RoundNotEmpty p) :
    mem.NoneEmpty (mem.next p) := by
  have hPos := @configure_pos mem p.index p.j
  have hHere := h.round 0 hPos
  have hBefore : ∀ i < p.index + (mem.configure p.index p.j).configurationVNs.length,
      0 < mem.size i := by
    intro i hi
    rcases Nat.lt_or_ge i p.index with hEarlier | hRound
    · exact h.noneEmpty.before i hEarlier
    · have hVector := h.round (i - p.index) (by omega)
      rwa [Nat.add_sub_cancel' hRound] at hVector
  simp only [SparseMemory.next, advance]
  split
  · rename_i hOne
    split
    · exact ⟨fun i hi => hBefore i (by simp only at hi; omega),
        fun hNot => absurd hNot (Nat.lt_irrefl 0)⟩
    · exact ⟨h.noneEmpty.before, fun _ => hHere⟩
  · exact ⟨hBefore, fun hNot => absurd hNot (Nat.lt_irrefl 0)⟩

theorem ClusterPacking.noneEmpty (h : mem.ClusterPacking heap) (hIndexed : mem.Indexed)
    (hMs : 0 < mem.numMs) (hK : 0 < mem.K) :
    mem.TrackingRule heap (fun p _ _ => mem.NoneEmpty p) fun p _ _ => mem.RoundNotEmpty p := by
  refine ⟨⟨nofun, nofun⟩, fun outputs => ?_, fun _ _ _ hHere => hHere,
    fun _ _ _ hHere => hHere.next⟩
  intro st hState hRound hInside reads hReads hStart
  refine ⟨hStart, fun v hv => ?_⟩
  rcases Nat.eq_zero_or_pos st.controller.position.j with hZero | hPos
  · rw [hZero] at hReads hv
    have hScan := h.scan_lt hIndexed hK hInside hReads
    obtain ⟨hSizes, hLast⟩ := size_pos_of_configure hMs hK hInside hScan
    have hVNs := hRound.configurationVNs
    have hLastJ := hRound.staLastJMetadata
    rw [hZero] at hVNs hLastJ
    rw [← hVNs] at hSizes hv
    have hSize := hSizes _ (List.getElem_mem hv)
    rw [(h.packed outputs hState).neurons v _ (List.getElem?_eq_getElem hv),
      List.length_pos_iff_exists_mem] at hSize
    -- The neuron has a bit, and this is one of the vector.
    obtain ⟨bit, hBit⟩ := hSize
    obtain ⟨hBit, hVector⟩ := List.mem_filter.mp hBit
    rw [decide_eq_true_eq] at hVector
    simp only [SparseMemory.scheduled, List.mem_flatMap, mem_bits] at hBit
    obtain ⟨v', -, hVector', -, hTo, hSet⟩ := hBit
    rw [← hVector', hVector] at hSet
    exact size_pos_of_bit (hTo.trans_le (hLastJ.le.trans hLast)) hSet
  · have hOne : (mem.configure st.controller.position.index
        st.controller.position.j).configurationVNs.length = 1 := by
      rw [configure, if_pos hPos]
      rfl
    rw [hOne] at hv
    obtain rfl : v = 0 := by omega
    exact hStart.here hPos

/-- The last run has used up the multipliers before the last element. -/
theorem Takes.last_run (h : mem.Takes i 0 n mem.K) (hSizes : ∀ i < mem.dimSta, 0 < mem.size i)
    (hEnd : i + n = mem.dimSta) (hScan : (mem.scan i 0).i < mem.dimSta) :
    load mem.size i n = mem.numMs ∧ mem.bit (mem.dimSta - 1) (mem.K - 1) = false := by
  obtain ⟨hPos, -⟩ := h.vectors
  have hK := h.elements.1
  have hFits := (h.run rfl rfl).fits
  rw [scan, if_neg (Nat.lt_irrefl 0)] at hScan
  obtain ⟨hFilling, hFull⟩ := scanWhole_spec hK (show i < mem.dimSta by omega)
  generalize mem.scanWhole { i, j := 0 } = s at *
  have hFull : s.nMs = mem.numMs := hFull.resolve_right hScan.ne
  have hUsed := hFilling.used
  have hCluster := hFilling.cluster
  have hElement := hFilling.element
  have hVector := hFilling.vector.1
  have hOnes := @ones_le_size mem s.i s.j hElement.le
  have hHere : load mem.size i (s.i - i + 1) = load mem.size i (s.i - i) + mem.size s.i := by
    rw [load_succ, Nat.add_sub_cancel' hVector]
  have hLoad : load mem.size i (s.i - i + 1) ≤ load mem.size i n := load_mono (by omega)
  have hLast : s.i = mem.dimSta - 1 := by
    by_contra hNot
    have hMore : load mem.size i (s.i - i + 1 + 1) ≤ load mem.size i n := load_mono (by omega)
    have hNext := hSizes (i + (s.i - i + 1)) (by omega)
    rw [load_succ] at hMore
    omega
  refine ⟨by omega, ?_⟩
  rw [← hLast]
  by_contra hBit
  rw [Bool.not_eq_false] at hBit
  have hBefore := @ones_mono mem s.i s.j (mem.K - 1) (by omega)
  have hSize := @ones_succ mem s.i (mem.K - 1)
  rw [if_pos hBit, Nat.sub_add_cancel hK] at hSize
  have hAll : mem.ones s.i mem.K = mem.size s.i := rfl
  omega

theorem ClusterPacking.usedUp (h : mem.ClusterPacking heap) (hIndexed : mem.Indexed)
    (hMs : 2 ≤ mem.numMs) (hK : 0 < mem.K) (hPos : 0 < mem.dimSta)
    (hSizes : ∀ i < mem.dimSta, 0 < mem.size i) :
    mem.TrackingRule heap
      (fun p _ _ => mem.Aligned p ∧ (p.index = mem.dimSta → mem.UsedUp))
      fun p _ _ => mem.Aligned p ∧ (p.j = 0 → (mem.scan p.index 0).i < mem.dimSta) := by
  refine ⟨⟨aligned_start, fun hNot => absurd hNot hPos.ne⟩, fun outputs => ?_,
    fun _ _ _ hHere => hHere, fun st _ hInside hHere => ?_⟩
  · intro st _ _ hInside reads hReads hStart
    refine ⟨hStart.1, fun hZero => ?_⟩
    rw [hZero] at hReads
    exact h.scan_lt hIndexed hK hInside hReads
  · obtain ⟨hAligned, hScan⟩ := hHere
    obtain ⟨n, last, hTakes⟩ := exists_takes hMs hK hSizes hInside hAligned.unfinished
    obtain ⟨hNextAligned, hNext⟩ := hAligned.next hTakes
    refine ⟨hNextAligned, fun hEnd => ?_⟩
    rw [hNext] at hEnd
    split at hEnd
    · rename_i hLast
      simp only at hEnd
      rcases hAligned.unfinished with hZero | ⟨hFold, -, -, hOver⟩
      · rw [hZero, hLast] at hTakes
        obtain ⟨hUsed, hBit⟩ := hTakes.last_run hSizes hEnd (hScan hZero)
        have hLoad := (hAligned.begins hZero hInside).lastLoad_add hTakes.vectors.1 hUsed.le
        rw [hEnd, hUsed] at hLoad
        exact Or.inr ⟨hLoad, hBit⟩
      · rcases hTakes.single with rfl | ⟨hZero, -⟩
        · left
          rwa [← hEnd, Nat.add_sub_cancel]
        · exact absurd hZero hFold.ne'
    · exact absurd hEnd hInside.ne

/-- What a finished run has tracked. -/
theorem ClusterPacking.start_of_finished
    {start within : Position → List (Nat × Nat) → List Nat → Prop} (h : mem.ClusterPacking heap)
    (rule : mem.TrackingRule heap start within)
    (hPos : 0 < mem.dimSta) :
    ∃ p consumed reads, mem.dimSta ≤ p.index ∧ start p consumed reads := by
  obtain ⟨outputs, hDone⟩ := h.finishes
  have hRun := tracked_run rule hPos outputs
  obtain ⟨hEnd, hStart⟩ := hRun.ends (hRun.finished hDone)
  exact ⟨_, _, _, hEnd, hStart⟩

theorem ClusterPacking.packsCleanly (h : mem.ClusterPacking heap) (hIndexed : mem.Indexed)
    (hMs : 2 ≤ mem.numMs) (hK : 0 < mem.K) (hPos : 0 < mem.dimSta) : mem.PacksCleanly := by
  have hSizes : ∀ i < mem.dimSta, 0 < mem.size i := by
    obtain ⟨p, -, -, hEnd, hStart⟩ :=
      h.start_of_finished (h.noneEmpty hIndexed (by omega) hK) hPos
    exact fun i hi => hStart.before i (by omega)
  obtain ⟨p, -, -, hEnd, hAligned, hUsed⟩ :=
    h.start_of_finished (h.usedUp hIndexed hMs hK hPos hSizes) hPos
  exact ⟨hSizes, hUsed (Nat.le_antisymm hAligned.inside hEnd)⟩

end

end SparseMemory

/-! ## The dataflows -/

/-- In both dataflows every element has its own place in the bitmap. -/
theorem indexed_setLayer (dataflow : SparseDataflow) (numMs M N K : Nat) (staMetadata : Nat → Nat)
    (staAddress : Nat → Int) :
    (dataflow.setLayer numMs M N K staMetadata staAddress).Indexed := by
  cases dataflow with
  | mkStaKnStr =>
      refine ⟨fun i hi j hj => ?_, fun i hi j hj i' hi' j' hj' h => ?_, fun _ => ?_⟩
      · simp only [SparseMemory.staIndex, SparseDataflow.setLayer, Nat.mul_one]
        exact radix_lt hi hj
      · simp only [SparseMemory.staIndex, SparseDataflow.setLayer, Nat.mul_one] at h
        exact radix_inj hj hj' h
      · simp only [SparseMemory.staIndex, SparseDataflow.setLayer]
        exact Nat.le_add_right _ _
  | mkStrKnSta =>
      refine ⟨fun i hi j hj => ?_, fun i hi j hj i' hi' j' hj' h => ?_, fun hK => ?_⟩
      · simp only [SparseMemory.staIndex, SparseDataflow.setLayer, Nat.mul_one]
        rw [Nat.add_comm, Nat.mul_comm N K]
        exact radix_lt hj hi
      · simp only [SparseMemory.staIndex, SparseDataflow.setLayer, Nat.mul_one] at h
        rw [Nat.add_comm, Nat.add_comm i'] at h
        exact (radix_inj hi hi' h).symm
      · simp only [SparseMemory.staIndex, SparseDataflow.setLayer, Nat.mul_one] at hK ⊢
        rw [Nat.add_comm, radix_last hK, Nat.mul_comm]

/-- The clusters part the set bits exactly when every vector has one and the multipliers are
used up before the end of the matrix. -/
theorem clusterPacking_iff (dataflow : SparseDataflow) {numMs M N K : Nat} (hMs : 4 ≤ numMs)
    (hM : 0 < M) (hN : 0 < N) (hK : 0 < K) (staMetadata : Nat → Nat) (staAddress : Nat → Int)
    (heap : Nat → Nat) :
    (dataflow.setLayer numMs M N K staMetadata staAddress).ClusterPacking heap ↔
      (dataflow.setLayer numMs M N K staMetadata staAddress).PacksCleanly := by
  have hIndexed := indexed_setLayer dataflow numMs M N K staMetadata staAddress
  have hDims : 2 ≤ (dataflow.setLayer numMs M N K staMetadata staAddress).numMs ∧
      0 < (dataflow.setLayer numMs M N K staMetadata staAddress).K ∧
      0 < (dataflow.setLayer numMs M N K staMetadata staAddress).dimSta ∧
      0 < (dataflow.setLayer numMs M N K staMetadata staAddress).dimStr := by
    cases dataflow with
    | mkStaKnStr => exact ⟨by simp only [SparseDataflow.setLayer]; omega, hK, hM, hN⟩
    | mkStrKnSta => exact ⟨by simp only [SparseDataflow.setLayer]; omega, hK, hN, hM⟩
  obtain ⟨hNumMs, hElements, hVectors, hStr⟩ := hDims
  exact ⟨fun h => h.packsCleanly hIndexed hNumMs hElements hVectors,
    fun h => h.clusterPacking hIndexed hNumMs hElements hVectors hStr heap⟩

/-- A vector of five bits, on four multipliers. -/
theorem clusterPacking_five_bits :
    (SparseDataflow.mkStaKnStr.setLayer 4 1 1 5 (fun _ => 1) fun _ => 0).ClusterPacking
      fun _ => 0 := by
  apply (clusterPacking_iff .mkStaKnStr (by decide) (by decide) (by decide) (by decide) _ _ _).mpr
  refine ⟨fun i hi => ?_, Or.inl (by decide)⟩
  obtain rfl : i = 0 := Nat.lt_one_iff.mp hi
  decide

/-- The first of two vectors has no set bit, and the cluster of the second one is taken for it. -/
theorem cluster_of_other_vector :
    ¬(SparseDataflow.mkStaKnStr.setLayer 4 2 1 3 (fun a => if a < 3 then 0 else 1)
      fun _ => 0).ClusterPacking fun _ => 0 := by
  intro h
  have hNeuron := (h.packed [0] (by decide)).neurons 0 ⟨3, false⟩ (by decide)
  revert hNeuron
  decide

end Stonne
