import Stonne.Lib.Table
import Stonne.Sigma.SparseSDMemory

/-!
# The counters table

`CONFIGURING` writes the multiplier of every set bit that it visits to
`sta_counters_table`.  The rank of an element is the number of set bits before it, and a
round numbers its bits by their ranks.  Vectors that all have a set bit are taken in their
order: a round takes the elements from its position up to the next one, and it ends neither
before these nor behind the matrix.
-/

namespace Stonne

open Dataflow

namespace SparseMemory

variable (mem : SparseMemory)

/-- The set bits before element `j` of vector `i`. -/
def rank (i j : Nat) : Nat :=
  load mem.size 0 i + mem.ones i j

/-- The layout of the stationary metadata. -/
structure Indexed : Prop where
  inside : ∀ i < mem.dimSta, ∀ j < mem.K, mem.staIndex i j < mem.dimSta * mem.K
  inj : ∀ i < mem.dimSta, ∀ j < mem.K, ∀ i' < mem.dimSta, ∀ j' < mem.K,
    mem.staIndex i j = mem.staIndex i' j' → i = i' ∧ j = j'
  /-- The vector behind the last one is not inside. -/
  behind : 0 < mem.K → mem.dimSta * mem.K ≤ mem.staIndex mem.dimSta (mem.K - 1)

/-- The table after the loop. -/
def writeCounters (staCountersTable : Nat → Nat) (staCounters : List (Nat × Nat)) : Nat → Nat :=
  staCounters.foldl (fun table counter => Function.update table counter.1 counter.2)
    staCountersTable

/-- What a loop has written and read that began with element `j` of vector `i` and had given
away `fold` multipliers. -/
structure Recorded (i j fold : Nat) (s : Scan) : Prop where
  used : s.nMs + mem.rank i j = fold + mem.rank s.i s.j
  written : ∀ i' j', mem.bit i' j' = true → j' < mem.K → i * mem.K + j ≤ i' * mem.K + j' →
    i' * mem.K + j' < s.i * mem.K + s.j → ∃ n, (mem.staIndex i' j', n) ∈ s.staCounters
  only : ∀ c ∈ s.staCounters, ∃ i' < mem.dimSta, ∃ j' < mem.K,
    c.1 = mem.staIndex i' j' ∧ c.2 + mem.rank i j = fold + mem.rank i' j'
  reads : ∀ a ∈ s.reads, ∃ i' < mem.dimSta, ∃ j' < mem.K, a = mem.staIndex i' j'

section

variable {mem} {i j i' j' fold : Nat} {s s' : Scan}

/-! ## Ranks -/

theorem rank_succ (i j : Nat) :
    mem.rank i (j + 1) = mem.rank i j + if mem.bit i j then 1 else 0 := by
  rw [rank, rank, ones_succ, Nat.add_assoc]

/-- The next vector begins where this one ends. -/
theorem rank_next (i : Nat) : mem.rank (i + 1) 0 = mem.rank i mem.K := by
  rw [rank, rank, load_succ, Nat.zero_add, ones_zero, Nat.add_zero]
  rfl

theorem rank_add (i m : Nat) : mem.rank (i + m) 0 = mem.rank i 0 + load mem.size i m := by
  induction m with
  | zero => rfl
  | succ m ih => rw [← Nat.add_assoc, rank_next, load_succ, ← Nat.add_assoc, ← ih]; rfl

theorem ones_mono (h : j ≤ j') : mem.ones i j ≤ mem.ones i j' := by
  induction j', h using Nat.le_induction with
  | base => exact le_rfl
  | succ j' _ ih =>
      rw [ones_succ]
      exact ih.trans (Nat.le_add_right _ _)

theorem rank_mono (h : j ≤ j') : mem.rank i j ≤ mem.rank i j' :=
  Nat.add_le_add_left (ones_mono h) _

theorem rank_mono_vector (h : i < i') (hj : j ≤ mem.K) : mem.rank i j ≤ mem.rank i' j' :=
  calc mem.rank i j ≤ mem.rank i mem.K := rank_mono hj
    _ = mem.rank (i + 1) 0 := (rank_next i).symm
    _ ≤ mem.rank i' 0 := Nat.add_le_add_right (load_mono h) _
    _ ≤ mem.rank i' j' := rank_mono (Nat.zero_le j')

/-- The ranks do not fall from place to place. -/
theorem rank_le (hj : j ≤ mem.K) (hPlace : i * mem.K + j ≤ i' * mem.K + j') (hj' : j' < mem.K) :
    mem.rank i j ≤ mem.rank i' j' := by
  rcases lt_trichotomy i i' with hLess | rfl | hMore
  · exact rank_mono_vector hLess hj
  · exact rank_mono (by omega)
  · have hBefore := Nat.mul_le_mul_right mem.K hMore
    rw [Nat.succ_mul] at hBefore
    omega

/-- A set bit counts for every place behind it. -/
theorem rank_lt (hBit : mem.bit i j = true) (hPlace : i * mem.K + j < i' * mem.K + j')
    (hj : j < mem.K) (hj' : j' < mem.K) : mem.rank i j < mem.rank i' j' := by
  have hSucc := @rank_succ mem i j
  rw [if_pos hBit] at hSucc
  have hLater := rank_le (show j + 1 ≤ mem.K from hj)
    (show i * mem.K + (j + 1) ≤ i' * mem.K + j' by omega) hj'
  omega

/-! ## What the loops record -/

/-- The bit that a step visits is recorded. -/
theorem Recorded.step (h : mem.Recorded i j fold s) (hi : s.i < mem.dimSta) (hj : s.j < mem.K)
    (hMs : s'.nMs = (mem.assign s).nMs) (hCounters : s'.staCounters = (mem.assign s).staCounters)
    (hReads : s'.reads = (mem.assign s).reads)
    (hPlace : s'.i * mem.K + s'.j = s.i * mem.K + s.j + 1)
    (hRank : mem.rank s'.i s'.j = mem.rank s.i (s.j + 1)) : mem.Recorded i j fold s' := by
  obtain ⟨-, -, -, -, hUsed⟩ := @assign_spec mem s
  have hBefore := h.used
  have hAssigned : (mem.assign s).staCounters =
      s.staCounters ++ if mem.bit s.i s.j then [(mem.staIndex s.i s.j, s.nMs)] else [] := by
    cases hBit : mem.bit s.i s.j with
    | false => simp [assign, hBit]
    | true => simp [assign, hBit]
  have hRead : (mem.assign s).reads = s.reads ++ [mem.staIndex s.i s.j] := by
    cases hBit : mem.bit s.i s.j with
    | false => simp [assign, hBit]
    | true => simp [assign, hBit]
  refine ⟨?_, fun i' j' hBit hj' hFrom hTo => ?_, fun c hc => ?_, fun a ha => ?_⟩
  · rw [hMs, hUsed, hRank, rank_succ]
    omega
  · rw [hCounters, hAssigned]
    rcases Nat.lt_succ_iff_lt_or_eq.mp (hPlace ▸ hTo) with hLess | hHere
    · obtain ⟨n, hn⟩ := h.written i' j' hBit hj' hFrom hLess
      exact ⟨n, List.mem_append_left _ hn⟩
    · obtain ⟨rfl, rfl⟩ := radix_inj hj' hj hHere
      exact ⟨s.nMs, List.mem_append_right _ (by simp [hBit])⟩
  · rw [hCounters, hAssigned, List.mem_append] at hc
    rcases hc with hOld | hNew
    · exact h.only c hOld
    · cases hBit : mem.bit s.i s.j with
      | false => simp [hBit] at hNew
      | true =>
          rw [hBit, if_pos rfl, List.mem_singleton] at hNew
          obtain rfl := hNew
          exact ⟨s.i, hi, s.j, hj, rfl, hBefore⟩
  · rw [hReads, hRead, List.mem_append, List.mem_singleton] at ha
    rcases ha with hOld | rfl
    · exact h.reads a hOld
    · exact ⟨s.i, hi, s.j, hj, rfl⟩

theorem Recorded.start (i j fold : Nat) : mem.Recorded i j fold { i, j, nMs := fold } := by
  refine ⟨rfl, fun i' j' _ _ hFrom hTo => ?_, fun c hc => (by cases hc), fun a ha => (by cases ha)⟩
  simp only at hTo
  omega

/-- The loop of a round. -/
theorem recorded_scan (hMs : 0 < mem.numMs) (hK : 0 < mem.K) (hi : i < mem.dimSta)
    (hj : j < mem.K) :
    mem.Recorded i j (if 0 < j then 1 else 0) (mem.scan i j) := by
  rw [scan]
  split
  · obtain ⟨-, -, hRecorded⟩ := @scanFolded_induction mem i j (mem.Recorded i j 1) hMs hj.le
      (Recorded.start i j 1) fun s hFolding _ hInside h => by
        obtain ⟨hI, hJ, -⟩ := @assign_spec mem s
        have hVector := hFolding.vector
        refine h.step (by omega) hInside rfl rfl rfl ?_ ?_
        · simp only [foldStep, hI]
          omega
        · simp only [foldStep, hI]
    exact hRecorded
  · rename_i hZero
    obtain rfl : j = 0 := by omega
    obtain ⟨-, -, hRecorded⟩ := @scanWhole_induction mem i (mem.Recorded i 0 0) hK hi
      (Recorded.start i 0 0) fun s hFilling _ hInside h => by
        obtain ⟨hI, hJ, -⟩ := @assign_spec mem s
        refine h.step hInside hFilling.element ?_ ?_ ?_ (wholeStep_place s) ?_
        · simp only [wholeStep, apply_ite Scan.nMs, ite_self]
        · simp only [wholeStep, apply_ite Scan.staCounters, ite_self]
        · simp only [wholeStep, apply_ite Scan.reads, ite_self]
        · unfold wholeStep
          simp only [hI, hJ]
          split
          · rename_i hEnd
            rw [hEnd]
            exact rank_next s.i
          · rfl
    exact hRecorded

/-- The multiplier in the table of a bit that the loop has visited. -/
theorem Recorded.counter (h : mem.Recorded i j fold s) (hIndexed : mem.Indexed)
    (staCountersTable : Nat → Nat) (hBit : mem.bit i' j' = true) (hi' : i' < mem.dimSta)
    (hj' : j' < mem.K) (hFrom : i * mem.K + j ≤ i' * mem.K + j')
    (hTo : i' * mem.K + j' < s.i * mem.K + s.j) :
    writeCounters staCountersTable s.staCounters (mem.staIndex i' j') + mem.rank i j =
      fold + mem.rank i' j' := by
  obtain ⟨n, hn⟩ := h.written i' j' hBit hj' hFrom hTo
  have hValue : ∀ c ∈ s.staCounters, c.1 = mem.staIndex i' j' →
      c.2 + mem.rank i j = fold + mem.rank i' j' := by
    intro c hc hSame
    obtain ⟨a, ha, b, hb, hIndex, hCounter⟩ := h.only c hc
    obtain ⟨rfl, rfl⟩ := hIndexed.inj a ha b hb i' hi' j' hj' (hIndex.symm.trans hSame)
    exact hCounter
  have hTable : writeCounters staCountersTable s.staCounters (mem.staIndex i' j') = n := by
    apply foldl_update_of_exists Prod.fst Prod.snd
    · exact ⟨_, hn, rfl⟩
    · intro c hc hSame
      have hHere := hValue _ hn rfl
      have hOther := hValue c hc hSame
      omega
  rw [hTable]
  exact hValue _ hn rfl

/-! ## What a round takes -/

/-- The round at element `j` of vector `i` takes `n` vectors from that element to `last`. -/
structure Takes (mem : SparseMemory) (i j n last : Nat) : Prop where
  configuration : mem.configure i j =
    ⟨(List.range n).map fun v => ⟨mem.ones (i + v) last - mem.ones (i + v) j, decide (0 < j)⟩, last⟩
  vectors : 0 < n ∧ i + n ≤ mem.dimSta
  elements : j < last ∧ last ≤ mem.K
  single : n = 1 ∨ j = 0 ∧ last = mem.K
  /-- Only a vector that does not fit goes on, and when there is a set bit left. -/
  more : last < mem.K → mem.ones i last < mem.size i ∧ mem.numMs < mem.size i
  run : j = 0 → last = mem.K → IsMaximalRun mem.numMs mem.size mem.dimSta i n
  scanned : (if 0 < j then 1 else 0) + mem.rank (i + (n - 1)) last ≤
    (mem.scan i j).nMs + mem.rank i j
  fits : (mem.scan i j).nMs ≤ mem.numMs

/-- Before element `j` of vector `i` a round may begin. -/
def Unfinished (mem : SparseMemory) (i j : Nat) : Prop :=
  j = 0 ∨ 0 < j ∧ j < mem.K ∧ mem.ones i j < mem.size i ∧ mem.numMs < mem.size i

theorem takes_folded (hMs : 2 ≤ mem.numMs) (hi : i < mem.dimSta) (hPos : 0 < j) (hj : j < mem.K)
    (hMore : mem.ones i j < mem.size i) (hOver : mem.numMs < mem.size i) :
    ∃ last, mem.Takes i j 1 last := by
  have hScan : mem.scan i j = mem.scanFolded { i, j, nMs := 1 } := if_pos hPos
  obtain ⟨h, hEnd⟩ := @scanFolded_spec mem i j (by omega) hj.le
  have hForm : mem.configure i j =
      ⟨[⟨(mem.scan i j).nCurrentCluster, true⟩], mem.lastJ i (mem.scan i j).j⟩ := by
    rw [configure, if_pos hPos, configureFolded, hScan]
  rw [← hScan] at h
  have hUsed := h.used
  obtain ⟨n, ⟨hRest, hFits, hConfigure⟩ | ⟨rfl, j', hj', hLater, hOnes, hAgain, hConfigure⟩⟩ :=
    @configure_of_folded mem i j hMs hPos hj
  · have hSize : n = (mem.scan i j).nCurrentCluster := by
      rw [hForm] at hConfigure
      simp only [Configuration.mk.injEq, List.cons.injEq, SparseVN.mk.injEq] at hConfigure
      exact hConfigure.1.1.1.symm
    have hAll : mem.ones i mem.K = mem.size i := rfl
    refine ⟨mem.K, ?_, ⟨Nat.one_pos, hi⟩, ⟨hj, le_rfl⟩, Or.inl rfl,
      fun hLess => absurd hLess (Nat.lt_irrefl _), fun hZero => absurd hZero hPos.ne', ?_, h.fits⟩
    · simp [hConfigure, hRest, hPos, hAll]
    · rw [if_pos hPos, Nat.sub_self, Nat.add_zero, rank, rank, hAll]
      omega
  · have hSize : mem.numMs - 1 = (mem.scan i j).nCurrentCluster := by
      rw [hForm] at hConfigure
      simp only [Configuration.mk.injEq, List.cons.injEq, SparseVN.mk.injEq] at hConfigure
      exact hConfigure.1.1.1.symm
    refine ⟨j', ?_, ⟨Nat.one_pos, hi⟩, ⟨hLater, hj'.le⟩, Or.inl rfl, fun _ => ⟨hAgain, hOver⟩,
      fun hZero => absurd hZero hPos.ne', ?_, h.fits⟩
    · simp [hConfigure, hOnes, hPos]
    · rw [if_pos hPos, Nat.sub_self, Nat.add_zero, rank, rank]
      omega

theorem takes_oversize (hMs : 0 < mem.numMs) (hK : 0 < mem.K) (hi : i < mem.dimSta)
    (hOver : mem.numMs < mem.size i) : ∃ last < mem.K, mem.Takes i 0 1 last := by
  have hScan : mem.scan i 0 = mem.scanWhole { i, j := 0 } := if_neg (Nat.lt_irrefl 0)
  obtain ⟨h, hEnd⟩ := @scanWhole_spec mem i hK hi
  obtain ⟨last, hLast, hPos, hOnes, hConfigure⟩ := configure_of_oversize hMs hK hi hOver
  rw [← hScan] at h hEnd
  have hFits := h.fits
  have hUsed := h.used
  refine ⟨last, hLast, ?_, ⟨Nat.one_pos, hi⟩, ⟨hPos, hLast.le⟩, Or.inl rfl,
    fun _ => ⟨by omega, hOver⟩, fun _ hEnd => absurd hEnd hLast.ne, ?_, hFits⟩
  · simp [hConfigure, hOnes]
  · rw [if_neg (Nat.lt_irrefl 0), Nat.sub_self, Nat.add_zero, rank, rank, hOnes, ones_zero]
    rcases hEnd with hFull | hOver'
    · omega
    · have hOne : load mem.size i 1 ≤ load mem.size i ((mem.scan i 0).i - i) :=
        load_mono (by omega)
      rw [load_succ, load_zero, Nat.zero_add, Nat.add_zero] at hOne
      omega

theorem takes_run (hK : 0 < mem.K) (hSizes : ∀ i < mem.dimSta, 0 < mem.size i) {m : Nat}
    (hm : 0 < m) (hRun : IsMaximalRun mem.numMs mem.size mem.dimSta i m) :
    mem.Takes i 0 m mem.K := by
  have hInside := hRun.inside
  have hScan : mem.scan i 0 = mem.scanWhole { i, j := 0 } := if_neg (Nat.lt_irrefl 0)
  obtain ⟨h, hEnd⟩ := @scanWhole_spec mem i hK (by omega)
  rw [← hScan] at h hEnd
  refine ⟨?_, ⟨hm, hInside⟩, ⟨hK, le_rfl⟩, Or.inr ⟨rfl, rfl⟩,
    fun hLess => absurd hLess (Nat.lt_irrefl _), fun _ _ => hRun, ?_, h.fits⟩
  · rw [configure_of_run hK hSizes hm hRun, clusters, seg, Nat.add_sub_cancel_left,
      List.range'_eq_map_range, List.map_map]
    rfl
  · have hLast : mem.rank (i + (m - 1)) mem.K = mem.rank i 0 + load mem.size i m := by
      rw [← rank_next, ← rank_add, show i + (m - 1) + 1 = i + m by omega]
    have hUsed := h.used
    have hFits := hRun.fits
    rw [if_neg (Nat.lt_irrefl 0), hLast]
    rcases hEnd with hFull | hOver
    · omega
    · have hMore : load mem.size i m ≤ load mem.size i ((mem.scan i 0).i - i) :=
        load_mono (by omega)
      omega

/-- Every round takes something. -/
theorem exists_takes (hMs : 2 ≤ mem.numMs) (hK : 0 < mem.K)
    (hSizes : ∀ i < mem.dimSta, 0 < mem.size i) (hi : i < mem.dimSta)
    (hUnfinished : mem.Unfinished i j) : ∃ n last, mem.Takes i j n last := by
  rcases hUnfinished with rfl | ⟨hPos, hj, hMore, hOver⟩
  · rcases Nat.lt_or_ge mem.numMs (mem.size i) with hOver | hFits
    · obtain ⟨last, -, hTakes⟩ := takes_oversize (by omega) hK hi hOver
      exact ⟨1, last, hTakes⟩
    · obtain ⟨m, hm, hRun⟩ := exists_isMaximalRun hi hFits
      exact ⟨m, mem.K, takes_run hK hSizes hm hRun⟩
  · obtain ⟨last, hTakes⟩ := takes_folded hMs hi hPos hj hMore hOver
    exact ⟨1, last, hTakes⟩

/-- The number of clusters. -/
theorem Takes.length {n last : Nat} (h : mem.Takes i j n last) :
    (mem.configure i j).configurationVNs.length = n := by
  rw [h.configuration]
  simp only [List.length_map, List.length_range]

/-- Where the round ends the next one begins. -/
theorem Takes.next {n last : Nat} (h : mem.Takes i j n last) :
    mem.next ⟨i, j, mem.rank i j⟩ =
      if last = mem.K then ⟨i + n, 0, mem.rank (i + n) 0⟩ else ⟨i, last, mem.rank i last⟩ := by
  have hPos := h.vectors.1
  rcases h.single with rfl | ⟨rfl, rfl⟩
  · have hSize :
        totalSize (mem.configure i j).configurationVNs + mem.ones i j = mem.ones i last := by
      have hMono := @ones_mono mem i j last h.elements.1.le
      rw [h.configuration]
      cases hFold : decide (0 < j) with
      | false =>
          simp only [List.range_one, List.map_singleton, Nat.add_zero, totalSize_whole]
          omega
      | true =>
          simp only [List.range_one, List.map_singleton, Nat.add_zero, totalSize_folded]
          omega
    have hRank :
        mem.rank i j + totalSize (mem.configure i j).configurationVNs = mem.rank i last := by
      rw [rank, rank]
      omega
    have hLast : (mem.configure i j).staLastJMetadata = last := by rw [h.configuration]
    simp only [SparseMemory.next, advance, h.length, hLast, if_true, hRank]
    split
    · rename_i hEnd
      rw [hEnd, rank_next]
    · rfl
  · have hVNs : (mem.configure i 0).configurationVNs = mem.clusters i (i + n) := by
      rw [h.configuration, clusters, seg, Nat.add_sub_cancel_left, List.range'_eq_map_range,
        List.map_map]
      rfl
    have hLast : (mem.configure i 0).staLastJMetadata = mem.K := by rw [h.configuration]
    have hTotal : mem.rank i 0 + totalSize (mem.configure i 0).configurationVNs =
        mem.rank (i + n) 0 := by
      rw [hVNs, totalSize_clusters, rank_add]
    simp only [SparseMemory.next, advance, h.length, hLast, if_true, hTotal]
    split
    · rename_i hOne
      rw [hOne]
    · rfl

/-- A position where a round may begin, or the end of the matrix. -/
structure Aligned (mem : SparseMemory) (p : Position) : Prop where
  inside : p.index ≤ mem.dimSta
  ended : p.index = mem.dimSta → p.j = 0
  unfinished : mem.Unfinished p.index p.j
  begins : p.j = 0 → p.index < mem.dimSta → BeginsRun mem.numMs mem.size p.index
  matrix : p.matrix = mem.rank p.index p.j

theorem aligned_start : mem.Aligned {} :=
  ⟨Nat.zero_le _, fun _ => rfl, Or.inl rfl, fun _ _ => beginsRun_zero, rfl⟩

/-- Behind the last element of a vector the next one begins, and inside it goes on. -/
theorem Aligned.next {p : Position} {n last : Nat} (h : mem.Aligned p)
    (hTakes : mem.Takes p.index p.j n last) :
    mem.Aligned (mem.next p) ∧
      mem.next p = if last = mem.K then ⟨p.index + n, 0, mem.rank (p.index + n) 0⟩
        else ⟨p.index, last, mem.rank p.index last⟩ := by
  have hPosition : p = ⟨p.index, p.j, mem.rank p.index p.j⟩ := by
    rw [← h.matrix]
  have hNext : mem.next p = if last = mem.K then ⟨p.index + n, 0, mem.rank (p.index + n) 0⟩
      else ⟨p.index, last, mem.rank p.index last⟩ := by
    rw [← hTakes.next, ← hPosition]
  refine ⟨?_, hNext⟩
  obtain ⟨hPos, hInside⟩ := hTakes.vectors
  obtain ⟨hFrom, hTo⟩ := hTakes.elements
  rw [hNext]
  split
  · rename_i hEnd
    refine ⟨hInside, fun _ => rfl, Or.inl rfl, fun _ hMore => ?_, rfl⟩
    rcases h.unfinished with hZero | ⟨hFold, -, -, hOver⟩
    · exact (hTakes.run hZero hEnd).beginsRun (h.begins hZero (by omega)) hPos hMore
    · rcases hTakes.single with rfl | ⟨hZero, -⟩
      · exact beginsRun_of_oversize hOver
      · exact absurd hZero hFold.ne'
  · rename_i hEnd
    have hLess := Nat.lt_of_le_of_ne hTo hEnd
    exact ⟨by simp only; omega, fun hAll => absurd hAll (by simp only; omega),
      Or.inr ⟨by simp only; omega, hLess, hTakes.more hLess⟩,
      fun hZero => absurd hZero (by simp only; omega), rfl⟩

/-! ## The multipliers of a round -/

/-- The loop does not leave the matrix. -/
theorem scan_element (hMs : 0 < mem.numMs) (hK : 0 < mem.K) (hi : i < mem.dimSta) (hj : j < mem.K) :
    (mem.scan i j).j ≤ mem.K := by
  rw [scan]
  split
  · exact (scanFolded_spec hMs hj.le).1.element.2
  · exact (scanWhole_spec hK hi).1.element.le

/-- The multipliers before those of neuron `v`. -/
def firstMultiplier (vns : List SparseVN) (v : Nat) : Nat :=
  ((vns.take v).map SparseVN.vnSize).sum

theorem firstMultiplier_succ {vns : List SparseVN} {v : Nat} {vn : SparseVN}
    (h : vns[v]? = some vn) : firstMultiplier vns (v + 1) = firstMultiplier vns v + vn.vnSize := by
  rw [firstMultiplier, List.take_add_one, h, List.map_append, List.sum_append, Option.toList_some,
    List.map_singleton, List.sum_singleton]
  rfl

section

variable {n last v : Nat}

theorem Takes.getElem? (h : mem.Takes i j n last) (hv : v < n) :
    (mem.configure i j).configurationVNs[v]? =
      some ⟨mem.ones (i + v) last - mem.ones (i + v) j, decide (0 < j)⟩ := by
  rw [h.configuration]
  simp only [List.getElem?_map, List.getElem?_range hv, Option.map_some]

theorem Takes.vnSize (h : mem.Takes i j n last) (hv : v < n) :
    ∃ vn, (mem.configure i j).configurationVNs[v]? = some vn ∧ vn.folding = decide (0 < j) ∧
      vn.vnSize + mem.rank (i + v) j = (if 0 < j then 1 else 0) + mem.rank (i + v) last := by
  have hMono := @ones_mono mem (i + v) j last h.elements.1.le
  refine ⟨_, h.getElem? hv, rfl, ?_⟩
  rw [SparseVN.vnSize, rank, rank]
  rcases Nat.eq_zero_or_pos j with rfl | hPos
  · simp only [Nat.lt_irrefl, decide_false, Bool.false_eq_true, if_false]
    omega
  · simp only [hPos, decide_true, if_true]
    omega

/-- A neuron begins with the rank of its vector. -/
theorem Takes.firstMultiplier (h : mem.Takes i j n last) (hv : v < n) :
    SparseMemory.firstMultiplier (mem.configure i j).configurationVNs v + mem.rank i j =
      mem.rank (i + v) j := by
  induction v with
  | zero => exact Nat.zero_add _
  | succ v ih =>
      obtain ⟨vn, hGet, -, hSize⟩ := h.vnSize (show v < n by omega)
      have hBefore := ih (by omega)
      rcases h.single with rfl | ⟨rfl, rfl⟩
      · omega
      · rw [firstMultiplier_succ hGet]
        rw [if_neg (Nat.lt_irrefl 0), ← rank_next] at hSize
        rw [← Nat.add_assoc]
        omega

/-- All multipliers of a round. -/
theorem Takes.total (h : mem.Takes i j n last) :
    SparseMemory.firstMultiplier (mem.configure i j).configurationVNs n ≤ mem.numMs := by
  have hPos := h.vectors.1
  obtain ⟨vn, hGet, -, hSize⟩ := h.vnSize (show n - 1 < n by omega)
  have hBefore := h.firstMultiplier (show n - 1 < n by omega)
  have hScanned := h.scanned
  have hFits := h.fits
  have hLast := firstMultiplier_succ hGet
  rw [Nat.sub_add_cancel hPos] at hLast
  omega

/-- The multiplier of a bit that the round takes. -/
theorem Takes.counter (h : mem.Takes i j n last) (hIndexed : mem.Indexed) (hMs : 0 < mem.numMs)
    (staCountersTable : Nat → Nat) (hv : v < n) (hBit : mem.bit (i + v) j' = true)
    (hFrom : j ≤ j') (hTo : j' < last) :
    writeCounters staCountersTable (mem.scan i j).staCounters (mem.staIndex (i + v) j') +
      mem.rank i j = (if 0 < j then 1 else 0) + mem.rank (i + v) j' := by
  obtain ⟨hPos, hInside⟩ := h.vectors
  obtain ⟨hStart, hLast⟩ := h.elements
  have hRecorded := @recorded_scan mem i j hMs (by omega) (by omega) (by omega)
  refine hRecorded.counter hIndexed staCountersTable hBit (by omega) (by omega) ?_ ?_
  · have hVectors := Nat.mul_le_mul_right mem.K (Nat.le_add_right i v)
    omega
  · -- The bit is before the end of the round, and so is its rank.
    have hBefore : mem.rank (i + v) j' < mem.rank (i + (n - 1)) last := by
      have hHere : mem.rank (i + v) (j' + 1) ≤ mem.rank (i + (n - 1)) last := by
        rcases Nat.lt_or_ge v (n - 1) with hEarlier | hSame
        · exact rank_mono_vector (by omega) (by omega)
        · rw [show v = n - 1 by omega]
          exact rank_mono hTo
      rw [rank_succ, if_pos hBit] at hHere
      omega
    have hScanned := h.scanned
    have hUsed := hRecorded.used
    by_contra hNot
    have hElement := @scan_element mem i j hMs (by omega) (by omega) (by omega)
    have hLater := rank_le hElement (Nat.le_of_not_lt hNot) (show j' < mem.K by omega)
    omega

end

end

end SparseMemory

end Stonne
