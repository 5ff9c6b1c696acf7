import Stonne.Lib.Packing
import Stonne.Lib.Radix
import Stonne.Lib.While
import Stonne.Tile

/-!
# The rounds of the sparse memory controller

In `CONFIGURING` the controller of SIGMA walks over the bits of the stationary vectors and
gives every set bit a multiplier.  It stops when the multipliers or the vectors are used up.
The vectors that it has seen to their end are the clusters of the round: a maximal run.  When
there is none the first vector does not fit and is folded over several rounds.
-/

namespace Stonne

open Dataflow

/-- What a `SparseSDMemory` has loaded. -/
structure SparseMemory where
  numMs : Nat
  K : Nat
  dimSta : Nat
  dimStr : Nat
  staDistElem : Nat
  staDistVector : Nat
  staMetadata : Nat → Nat
  staAddress : Nat → Int

/-- The variables of the loops in `CONFIGURING`. -/
structure Scan where
  i : Nat
  j : Nat
  nMs : Nat := 0
  nCurrentCluster : Nat := 0
  configurationVNs : List SparseVN := []
  /-- What is written to `sta_counters_table`, and where. -/
  staCounters : List (Nat × Nat) := []
  /-- The indices of `STA_metadata` that are read. -/
  reads : List Nat := []

/-- The clusters of a round, and where the stationary vector ends in it. -/
structure Configuration where
  configurationVNs : List SparseVN
  staLastJMetadata : Nat

namespace SparseMemory

variable (mem : SparseMemory)

/-- The index of element `j` of stationary vector `i`. -/
def staIndex (i j : Nat) : Nat :=
  i * mem.staDistVector + j * mem.staDistElem

/-- The bit of element `j` of stationary vector `i`. -/
def bit (i j : Nat) : Bool :=
  mem.staMetadata (mem.staIndex i j) ≠ 0

/-- `remaining_values` -/
def remainingValues (i j : Nat) : Nat :=
  (List.range' j (mem.K - j)).countP (mem.bit i)

/-- A set bit gets the next multiplier. -/
def assign (s : Scan) : Scan :=
  let s := { s with reads := s.reads ++ [mem.staIndex s.i s.j] }
  if mem.bit s.i s.j then
    { s with
      nMs := s.nMs + 1
      nCurrentCluster := s.nCurrentCluster + 1
      staCounters := s.staCounters ++ [(mem.staIndex s.i s.j, s.nMs)] }
  else s

/-- A step of the loop over a folded vector. -/
def foldStep (s : Scan) : Scan :=
  { mem.assign s with j := s.j + 1 }

/-- A step of the loop over whole vectors. -/
def wholeStep (s : Scan) : Scan :=
  let s := mem.assign s
  let s := { s with j := s.j + 1 }
  if s.j = mem.K then
    { s with
      i := s.i + 1
      j := 0
      nCurrentCluster := 0
      configurationVNs :=
        if 0 < s.nCurrentCluster then s.configurationVNs ++ [⟨s.nCurrentCluster, false⟩]
        else s.configurationVNs }
  else s

/-- `sta_last_j_metadata` of a vector that is folded. -/
def lastJ (i j : Nat) : Nat :=
  if 0 < mem.remainingValues i j then j else mem.K

def scanFolded (s : Scan) : Scan :=
  (whileLoop (fun s => s.nMs < mem.numMs && s.j < mem.K) mem.foldStep mem.K s).getD s

def scanWhole (s : Scan) : Scan :=
  (whileLoop (fun s => s.nMs < mem.numMs && s.i * mem.K + s.j < mem.dimSta * mem.K)
    mem.wholeStep (mem.dimSta * mem.K) s).getD s

/-- One cluster with folding. -/
def configureFolded (i j : Nat) : Configuration :=
  let s := mem.scanFolded { i, j, nMs := 1 }
  { configurationVNs := [⟨s.nCurrentCluster, true⟩], staLastJMetadata := mem.lastJ i s.j }

/-- After the loop over whole vectors: a last cluster, or none at all. -/
def closeWhole (s : Scan) : Configuration :=
  let configurationVNs :=
    if 0 < s.configurationVNs.length ∧ s.j < mem.K then
      if mem.remainingValues s.i s.j = 0 ∧ 0 < s.nCurrentCluster then
        s.configurationVNs ++ [⟨s.nCurrentCluster, false⟩]
      else s.configurationVNs
    else s.configurationVNs
  if configurationVNs.length = 0 then
    { configurationVNs := [⟨s.nCurrentCluster, false⟩], staLastJMetadata := mem.lastJ s.i s.j }
  else { configurationVNs, staLastJMetadata := mem.K }

/-- Whole rows. -/
def configureWhole (i : Nat) : Configuration :=
  mem.closeWhole (mem.scanWhole { i, j := 0 })

/-- `CONFIGURING`, for the current stationary vector and its current element. -/
def configure (i j : Nat) : Configuration :=
  if 0 < j then mem.configureFolded i j else mem.configureWhole i

/-- The loop of `CONFIGURING` for the current stationary vector and its current element. -/
def scan (i j : Nat) : Scan :=
  if 0 < j then mem.scanFolded { i, j, nMs := 1 } else mem.scanWhole { i, j := 0 }

/-- The indices of `STA_metadata` that `CONFIGURING` reads: in every branch the remaining values
are counted once. -/
def metadataReads (i j : Nat) : List Nat :=
  let s := mem.scan i j
  s.reads ++ (List.range' s.j (mem.K - s.j)).map (mem.staIndex s.i)

/-! ## Counts of bits -/

/-- The set bits of a vector before element `j`. -/
def ones (i j : Nat) : Nat :=
  (List.range j).countP (mem.bit i)

/-- The cluster size of a vector. -/
def size (i : Nat) : Nat :=
  mem.ones i mem.K

section

variable {mem} {a i j m : Nat} {s : Scan}

@[simp] theorem ones_zero : mem.ones i 0 = 0 := rfl

theorem ones_succ (i j : Nat) :
    mem.ones i (j + 1) = mem.ones i j + if mem.bit i j then 1 else 0 := by
  rw [ones, List.range_succ, List.countP_append, List.countP_singleton]
  rfl

theorem ones_add_remainingValues (hj : j ≤ mem.K) :
    mem.ones i j + mem.remainingValues i j = mem.size i := by
  have hSplit : List.range mem.K = List.range j ++ List.range' j (mem.K - j) := by
    have hAppend := List.range'_append_1 (s := 0) (m := j) (n := mem.K - j)
    rw [Nat.zero_add, Nat.add_sub_cancel' hj] at hAppend
    rw [List.range_eq_range', List.range_eq_range', hAppend]
  rw [size, ones, ones, remainingValues, hSplit, List.countP_append]

theorem ones_le_size (hj : j ≤ mem.K) : mem.ones i j ≤ mem.size i := by
  have hAll := @ones_add_remainingValues mem i j hj
  omega

theorem lastJ_of_lt (hj : j ≤ mem.K) (h : mem.ones i j < mem.size i) : mem.lastJ i j = j := by
  have hAll := @ones_add_remainingValues mem i j hj
  exact if_pos (by omega)

theorem lastJ_of_eq (hj : j ≤ mem.K) (h : mem.ones i j = mem.size i) :
    mem.lastJ i j = mem.K := by
  have hAll := @ones_add_remainingValues mem i j hj
  exact if_neg (by omega)

/-- A set bit takes a multiplier. -/
theorem assign_spec (s : Scan) :
    (mem.assign s).i = s.i ∧ (mem.assign s).j = s.j ∧
      (mem.assign s).configurationVNs = s.configurationVNs ∧
      (mem.assign s).nCurrentCluster = s.nCurrentCluster + (if mem.bit s.i s.j then 1 else 0) ∧
      (mem.assign s).nMs = s.nMs + if mem.bit s.i s.j then 1 else 0 := by
  cases hBit : mem.bit s.i s.j with
  | false => simp [assign, hBit]
  | true => simp [assign, hBit]

/-! ## A folded vector -/

/-- The invariant of the loop over a folded vector, which starts at element `j`. -/
structure Folding (mem : SparseMemory) (i j : Nat) (s : Scan) : Prop where
  vector : s.i = i
  element : j ≤ s.j ∧ s.j ≤ mem.K
  cluster : mem.ones i j + s.nCurrentCluster = mem.ones i s.j
  used : s.nMs = s.nCurrentCluster + 1
  fits : s.nMs ≤ mem.numMs

theorem Folding.next (h : mem.Folding i j s) (hFree : s.nMs < mem.numMs) (hInside : s.j < mem.K) :
    mem.Folding i j (mem.foldStep s) := by
  obtain ⟨hi, hj, -, hCluster, hMs⟩ := @assign_spec mem s
  obtain ⟨hStart, hEnd⟩ := h.element
  have hBefore := h.cluster
  have hUsed := h.used
  have hSucc := mem.ones_succ i s.j
  obtain rfl := h.vector
  unfold foldStep
  refine ⟨hi, by simp only; omega, ?_, by simp only; omega, ?_⟩
  · simp only [hCluster]
    omega
  · simp only [hMs]
    split
    · exact hFree
    · exact h.fits

/-- The induction rule of the loop over a folded vector. -/
theorem scanFolded_induction {I : Scan → Prop} (hMs : 0 < mem.numMs) (hj : j ≤ mem.K)
    (hInit : I { i, j, nMs := 1 })
    (hStep : ∀ s, mem.Folding i j s → s.nMs < mem.numMs → s.j < mem.K → I s →
      I (mem.foldStep s)) :
    let s := mem.scanFolded { i, j, nMs := 1 }
    mem.Folding i j s ∧ (s.nMs = mem.numMs ∨ s.j = mem.K) ∧ I s := by
  have hStart : mem.Folding i j { i, j, nMs := 1 } := ⟨rfl, ⟨le_rfl, hj⟩, rfl, rfl, hMs⟩
  have hBoth : ∀ s : Scan, (decide (s.nMs < mem.numMs) && decide (s.j < mem.K)) = true →
      mem.Folding i j s ∧ I s → mem.Folding i j (mem.foldStep s) ∧ I (mem.foldStep s) := by
    rintro s hMore ⟨h, hI⟩
    rw [Bool.and_eq_true, decide_eq_true_eq, decide_eq_true_eq] at hMore
    exact ⟨h.next hMore.1 hMore.2, hStep s h hMore.1 hMore.2 hI⟩
  obtain ⟨s, hs⟩ := exists_whileLoop (fun s => mem.K - s.j) hBoth (by
    intro s hMore _
    rw [Bool.and_eq_true, decide_eq_true_eq, decide_eq_true_eq] at hMore
    simp only [foldStep]
    omega) ⟨hStart, hInit⟩ (Nat.sub_le mem.K j)
  obtain ⟨⟨h, hI⟩, hEnd⟩ := whileLoop_invariant hBoth ⟨hStart, hInit⟩ hs
  rw [scanFolded, hs, Option.getD_some]
  refine ⟨h, ?_, hI⟩
  rw [Bool.and_eq_false_iff, decide_eq_false_iff_not, decide_eq_false_iff_not] at hEnd
  have hInside := h.element
  have hFits := h.fits
  omega

theorem scanFolded_spec (hMs : 0 < mem.numMs) (hj : j ≤ mem.K) :
    let s := mem.scanFolded { i, j, nMs := 1 }
    mem.Folding i j s ∧ (s.nMs = mem.numMs ∨ s.j = mem.K) := by
  obtain ⟨h, hEnd, -⟩ :=
    @scanFolded_induction mem i j (fun _ => True) hMs hj trivial fun _ _ _ _ _ => trivial
  exact ⟨h, hEnd⟩

/-- A fold round takes all multipliers but one, or the rest of the vector. -/
theorem configure_of_folded (hMs : 2 ≤ mem.numMs) (hPos : 0 < j) (hj : j < mem.K) :
    ∃ n, (n = mem.size i - mem.ones i j ∧ n ≤ mem.numMs - 1 ∧
        mem.configure i j = ⟨[⟨n, true⟩], mem.K⟩) ∨
      n = mem.numMs - 1 ∧ ∃ j' < mem.K, j < j' ∧ mem.ones i j' = mem.ones i j + n ∧
        mem.ones i j' < mem.size i ∧ mem.configure i j = ⟨[⟨n, true⟩], j'⟩ := by
  obtain ⟨h, hEnd⟩ := @scanFolded_spec mem i j (by omega) hj.le
  have hInside := h.element
  have hCluster := h.cluster
  have hUsed := h.used
  have hFits := h.fits
  have hLess := @ones_le_size mem i _ hInside.2
  rw [configure, if_pos hPos, configureFolded]
  generalize mem.scanFolded { i, j, nMs := 1 } = s at *
  refine ⟨s.nCurrentCluster, ?_⟩
  rcases hLess.lt_or_eq with hMore | hAll
  · have hBefore : s.j ≠ mem.K := fun hSame => by
      rw [hSame] at hMore
      exact absurd hMore (Nat.lt_irrefl _)
    have hOther : s.j ≠ j := fun hSame => by
      rw [hSame] at hCluster
      omega
    refine Or.inr ⟨by omega, s.j, by omega, by omega, hCluster.symm, hMore, ?_⟩
    simp only [lastJ_of_lt hInside.2 hMore]
  · refine Or.inl ⟨by omega, by omega, ?_⟩
    simp only [lastJ_of_eq hInside.2 hAll]

/-! ## Whole vectors -/

/-- The clusters of the vectors from `a` to `b`. -/
def clusters (mem : SparseMemory) (a b : Nat) : List SparseVN :=
  seg (fun k => ⟨mem.size k, false⟩) a b

/-- The clusters that the loop finds there: a vector without a set bit has none. -/
def foundClusters (mem : SparseMemory) (a b : Nat) : List SparseVN :=
  ((List.range' a (b - a)).filter fun k => 0 < mem.size k).map fun k => ⟨mem.size k, false⟩

theorem foundClusters_succ {b : Nat} (h : a ≤ b) :
    mem.foundClusters a (b + 1) =
      mem.foundClusters a b ++ if 0 < mem.size b then [⟨mem.size b, false⟩] else [] := by
  have hLast : List.range' a (b + 1 - a) = List.range' a (b - a) ++ [b] := by
    rw [Nat.succ_sub h, List.range'_1_concat, Nat.add_sub_cancel' h]
  rw [foundClusters, foundClusters, hLast, List.filter_append, List.map_append]
  congr 1
  rcases Nat.eq_zero_or_pos (mem.size b) with hNone | hSome
  · simp [hNone]
  · simp [hSome]

theorem foundClusters_of_pos {b : Nat} (h : ∀ k, a ≤ k → k < b → 0 < mem.size k) :
    mem.foundClusters a b = mem.clusters a b := by
  rw [foundClusters, clusters, seg, List.filter_eq_self.mpr]
  intro k hk
  have hk := List.mem_range'_1.mp hk
  exact decide_eq_true (h k hk.1 (by omega))

/-- The invariant of the loop over whole vectors, which starts with vector `a`. -/
structure Filling (mem : SparseMemory) (a : Nat) (s : Scan) : Prop where
  vector : a ≤ s.i ∧ s.i ≤ mem.dimSta
  element : s.j < mem.K
  last : s.i = mem.dimSta → s.j = 0
  cluster : s.nCurrentCluster = mem.ones s.i s.j
  clusters : s.configurationVNs = mem.foundClusters a s.i
  used : s.nMs = load mem.size a (s.i - a) + s.nCurrentCluster
  fits : s.nMs ≤ mem.numMs

theorem vector_lt (hMore : s.i * mem.K + s.j < mem.dimSta * mem.K) : s.i < mem.dimSta := by
  apply @Nat.lt_of_mul_lt_mul_right mem.K
  exact (Nat.le_add_right _ _).trans_lt hMore

/-- The loop ends a vector, and with it a cluster, or it goes on to the next bit. -/
theorem Filling.next (h : mem.Filling a s) (hFree : s.nMs < mem.numMs)
    (hVector : s.i < mem.dimSta) : mem.Filling a (mem.wholeStep s) := by
  obtain ⟨hi, hj, hVNs, hCluster, hMs⟩ := @assign_spec mem s
  obtain ⟨hStart, -⟩ := h.vector
  have hElement := h.element
  have hBefore := h.cluster
  have hUsed := h.used
  have hFits : (mem.assign s).nMs ≤ mem.numMs := by
    rw [hMs]
    split
    · exact hFree
    · exact h.fits
  rw [hBefore, ← mem.ones_succ] at hCluster
  have hAll : (mem.assign s).nMs = load mem.size a (s.i - a) + mem.ones s.i (s.j + 1) := by
    rw [hMs, hUsed, hBefore, mem.ones_succ, Nat.add_assoc]
  unfold wholeStep
  simp only [hi, hj, hVNs, hCluster, h.clusters]
  split
  · rename_i hEnd
    rw [hEnd] at hAll ⊢
    refine ⟨⟨by simp only; omega, hVector⟩, by simp only; omega, fun _ => rfl, rfl, ?_, ?_, hFits⟩
    · simp only
      rw [foundClusters_succ hStart]
      split
      · rename_i hSome
        rw [if_pos (show 0 < mem.size s.i from hSome)]
        rfl
      · rename_i hNone
        rw [if_neg (show ¬0 < mem.size s.i from hNone), List.append_nil]
    · simp only [Nat.add_zero, hAll]
      rw [show s.i + 1 - a = s.i - a + 1 by omega, load_succ, Nat.add_sub_cancel' hStart]
      rfl
  · rename_i hInside
    exact ⟨⟨hStart, hVector.le⟩, by simp only; omega, fun hLast => absurd hLast hVector.ne, rfl,
      rfl, hAll, hFits⟩

theorem wholeStep_place (s : Scan) :
    (mem.wholeStep s).i * mem.K + (mem.wholeStep s).j = s.i * mem.K + s.j + 1 := by
  obtain ⟨hi, hj, -⟩ := @assign_spec mem s
  unfold wholeStep
  simp only [hi, hj]
  split
  · rename_i hEnd
    simp only
    rw [← hEnd]
    ring
  · rfl

/-- The induction rule of the loop over whole vectors. -/
theorem scanWhole_induction {I : Scan → Prop} (hK : 0 < mem.K) (ha : a < mem.dimSta)
    (hInit : I { i := a, j := 0 })
    (hStep : ∀ s, mem.Filling a s → s.nMs < mem.numMs → s.i < mem.dimSta → I s →
      I (mem.wholeStep s)) :
    let s := mem.scanWhole { i := a, j := 0 }
    mem.Filling a s ∧ (s.nMs = mem.numMs ∨ s.i = mem.dimSta) ∧ I s := by
  have hStart : mem.Filling a { i := a, j := 0 } := by
    refine ⟨⟨le_rfl, ha.le⟩, hK, fun _ => rfl, rfl, ?_, ?_, Nat.zero_le _⟩
    · simp only [foundClusters, Nat.sub_self]
      rfl
    · simp only [Nat.sub_self, load_zero]
  have hBoth : ∀ s : Scan, (decide (s.nMs < mem.numMs) &&
      decide (s.i * mem.K + s.j < mem.dimSta * mem.K)) = true → mem.Filling a s ∧ I s →
      mem.Filling a (mem.wholeStep s) ∧ I (mem.wholeStep s) := by
    rintro s hMore ⟨h, hI⟩
    rw [Bool.and_eq_true, decide_eq_true_eq, decide_eq_true_eq] at hMore
    have hVector := vector_lt hMore.2
    exact ⟨h.next hMore.1 hVector, hStep s h hMore.1 hVector hI⟩
  obtain ⟨s, hs⟩ := exists_whileLoop (fun s => mem.dimSta * mem.K - (s.i * mem.K + s.j)) hBoth (by
    intro s hMore _
    rw [Bool.and_eq_true, decide_eq_true_eq, decide_eq_true_eq] at hMore
    rw [wholeStep_place]
    omega) ⟨hStart, hInit⟩ (Nat.sub_le _ _)
  obtain ⟨⟨h, hI⟩, hEnd⟩ := whileLoop_invariant hBoth ⟨hStart, hInit⟩ hs
  rw [scanWhole, hs, Option.getD_some]
  refine ⟨h, ?_, hI⟩
  rw [Bool.and_eq_false_iff, decide_eq_false_iff_not, decide_eq_false_iff_not] at hEnd
  rcases hEnd with hFull | hOver
  · exact Or.inl (Nat.le_antisymm h.fits (Nat.le_of_not_lt hFull))
  · refine Or.inr (Nat.le_antisymm h.vector.2 ?_)
    by_contra hLess
    exact hOver (radix_lt (Nat.lt_of_not_le hLess) h.element)

theorem scanWhole_spec (hK : 0 < mem.K) (ha : a < mem.dimSta) :
    let s := mem.scanWhole { i := a, j := 0 }
    mem.Filling a s ∧ (s.nMs = mem.numMs ∨ s.i = mem.dimSta) := by
  obtain ⟨h, hEnd, -⟩ :=
    @scanWhole_induction mem a (fun _ => True) hK ha trivial fun _ _ _ _ _ => trivial
  exact ⟨h, hEnd⟩

theorem length_clusters (a b : Nat) : (mem.clusters a b).length = b - a :=
  length_seg _ a b

/-- No cluster is added to those of the loop. -/
theorem closeWhole_of_some (hSome : 0 < s.configurationVNs.length)
    (hRest : mem.remainingValues s.i s.j = 0 → s.nCurrentCluster = 0) :
    mem.closeWhole s = ⟨s.configurationVNs, mem.K⟩ := by
  have hNone : ¬(mem.remainingValues s.i s.j = 0 ∧ 0 < s.nCurrentCluster) := by
    rintro ⟨hEnd, hCluster⟩
    have hZero := hRest hEnd
    omega
  simp only [closeWhole, if_neg hNone, ite_self, if_neg hSome.ne']

/-- The loop stopped behind the last bit of a vector. -/
theorem closeWhole_of_last (hj : s.j < mem.K) (hRest : mem.remainingValues s.i s.j = 0)
    (hCluster : 0 < s.nCurrentCluster) :
    mem.closeWhole s = ⟨s.configurationVNs ++ [⟨s.nCurrentCluster, false⟩], mem.K⟩ := by
  have hLast : mem.lastJ s.i s.j = mem.K := if_neg (by omega)
  cases hVNs : s.configurationVNs with
  | nil => simp [closeWhole, hVNs, hLast]
  | cons vn vns => simp [closeWhole, hVNs, hj, hRest, hCluster]

/-- The loop stopped inside its first vector. -/
theorem closeWhole_of_none (hNone : s.configurationVNs = [])
    (hRest : 0 < mem.remainingValues s.i s.j) :
    mem.closeWhole s = ⟨[⟨s.nCurrentCluster, false⟩], s.j⟩ := by
  have hLast : mem.lastJ s.i s.j = s.j := if_pos hRest
  simp [closeWhole, hNone, hLast]

/-- With a maximal run of vectors at `a` the round has their clusters. -/
theorem configure_of_run (hK : 0 < mem.K) (hSizes : ∀ i < mem.dimSta, 0 < mem.size i) (hm : 0 < m)
    (hRun : IsMaximalRun mem.numMs mem.size mem.dimSta a m) :
    mem.configure a 0 = ⟨mem.clusters a (a + m), mem.K⟩ := by
  have hInside := hRun.inside
  obtain ⟨h, hEnd⟩ := scanWhole_spec hK (show a < mem.dimSta by omega)
  rw [configure, if_neg (Nat.lt_irrefl 0), configureWhole]
  generalize mem.scanWhole { i := a, j := 0 } = s at *
  obtain ⟨hStart, hLast⟩ := h.vector
  have hElement := h.element
  have hUsed := h.used
  have hFits := h.fits
  have hCluster := h.cluster
  have hLoad : load mem.size a (s.i - a + 1) = load mem.size a (s.i - a) + mem.size s.i := by
    rw [load_succ, Nat.add_sub_cancel' hStart]
  have hBits := @ones_add_remainingValues mem s.i s.j hElement.le
  have hVNs : s.configurationVNs = mem.clusters a s.i := by
    rw [h.clusters, foundClusters_of_pos fun k _ hk => hSizes k (by omega)]
  have hLength : s.configurationVNs.length = s.i - a := by
    rw [hVNs, length_clusters]
  rcases hLast.lt_or_eq with hVector | hVector
  · have hSize := hSizes s.i hVector
    have hFull : s.nMs = mem.numMs := by omega
    rcases Nat.eq_zero_or_pos (mem.remainingValues s.i s.j) with hNone | hSome
    · -- The multipliers are used up with the last bit of a vector.
      have hHere : IsMaximalRun mem.numMs mem.size mem.dimSta a (s.i - a + 1) := by
        refine ⟨by omega, by omega, fun hMore => ?_⟩
        have hNext := hSizes (a + (s.i - a + 1)) hMore
        rw [load_succ]
        omega
      obtain rfl := hRun.unique hHere
      rw [closeWhole_of_last hElement hNone (by omega), hVNs,
        show a + (s.i - a + 1) = s.i + 1 by omega, clusters, clusters, seg_succ _ hStart,
        show s.nCurrentCluster = mem.size s.i by omega]
    · -- They are used up inside a vector, which is left to the next round.
      have hHere : IsMaximalRun mem.numMs mem.size mem.dimSta a (s.i - a) :=
        ⟨by omega, by omega, fun _ => by omega⟩
      obtain rfl := hRun.unique hHere
      rw [closeWhole_of_some (by omega) fun hNone => absurd hNone hSome.ne', hVNs,
        Nat.add_sub_cancel' hStart]
  · -- The vectors are used up.
    have hBegin : s.j = 0 := h.last hVector
    rw [hBegin, ones_zero] at hCluster
    have hHere : IsMaximalRun mem.numMs mem.size mem.dimSta a (s.i - a) :=
      ⟨by omega, by omega, fun hMore => absurd hMore (by omega)⟩
    obtain rfl := hRun.unique hHere
    rw [closeWhole_of_some (by omega) fun _ => hCluster, hVNs, Nat.add_sub_cancel' hStart]

/-- A vector that does not fit has the round for itself, and it is not at its end. -/
theorem configure_of_oversize (hMs : 0 < mem.numMs) (hK : 0 < mem.K) (ha : a < mem.dimSta)
    (hOver : mem.numMs < mem.size a) :
    ∃ j < mem.K, 0 < j ∧ mem.ones a j = mem.numMs ∧
      mem.configure a 0 = ⟨[⟨mem.numMs, false⟩], j⟩ := by
  obtain ⟨h, hEnd⟩ := scanWhole_spec hK ha
  rw [configure, if_neg (Nat.lt_irrefl 0), configureWhole]
  generalize mem.scanWhole { i := a, j := 0 } = s at *
  obtain ⟨hStart, hLast⟩ := h.vector
  have hUsed := h.used
  have hFits := h.fits
  have hCluster := h.cluster
  have hFirst : s.i = a := by
    by_contra hLater
    have hOne : load mem.size a 1 ≤ load mem.size a (s.i - a) := load_mono (by omega)
    rw [load_succ, load_zero, Nat.zero_add, Nat.add_zero] at hOne
    omega
  have hNone : s.configurationVNs = [] := by
    rw [h.clusters, hFirst, foundClusters, Nat.sub_self]
    rfl
  rw [hFirst, Nat.sub_self, load_zero, Nat.zero_add] at hUsed
  rw [hFirst] at hCluster
  have hOnes : mem.ones a s.j = mem.numMs := by omega
  have hBits := @ones_add_remainingValues mem a s.j h.element.le
  refine ⟨s.j, h.element, Nat.pos_of_ne_zero ?_, hOnes, ?_⟩
  · intro hZero
    rw [hZero, ones_zero] at hOnes
    omega
  · rw [closeWhole_of_none hNone (by rw [hFirst]; omega), hCluster, hOnes]

end

end SparseMemory

end Stonne
