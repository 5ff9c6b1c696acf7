import Mathlib.Algebra.BigOperators.Intervals
import Stonne.Lib.Segment

/-!
# Packing a sequence

Items of given sizes are packed in their order.  A maximal run takes as many of them as fit
into a capacity, so there is one for every start.  `Cuts` cuts a sequence into runs, and
`chunks` cuts a list that fits nowhere into parts of one length.
-/

namespace Dataflow

/-- The size of the run of `m` items that starts at `a`. -/
def load (size : Nat → Nat) (a m : Nat) : Nat :=
  ∑ k ∈ Finset.range m, size (a + k)

section

variable {size size' : Nat → Nat} {capacity n a m m' : Nat}

@[simp] theorem load_zero : load size a 0 = 0 := rfl

theorem load_succ : load size a (m + 1) = load size a m + size (a + m) :=
  Finset.sum_range_succ _ m

theorem load_mono (h : m ≤ m') : load size a m ≤ load size a m' :=
  Finset.sum_le_sum_of_subset (Finset.range_subset_range.mpr h)

theorem load_congr (h : ∀ k, a ≤ k → k < a + m → size k = size' k) :
    load size a m = load size' a m := by
  apply Finset.sum_congr rfl
  intro k hk
  have hk := Finset.mem_range.mp hk
  exact h (a + k) (Nat.le_add_right a k) (by omega)

/-- The run of `m` items that starts at `a` fits, and no longer one does. -/
structure IsMaximalRun (capacity : Nat) (size : Nat → Nat) (n a m : Nat) : Prop where
  inside : a + m ≤ n
  fits : load size a m ≤ capacity
  full : a + m < n → capacity < load size a (m + 1)

private theorem IsMaximalRun.le (h : IsMaximalRun capacity size n a m)
    (h' : IsMaximalRun capacity size n a m') : m ≤ m' := by
  by_contra hMore
  have hInside := h.inside
  have hFull := h'.full (by omega)
  have hFits := (load_mono (show m' + 1 ≤ m by omega)).trans h.fits
  omega

/-- An item that fits begins a run. -/
theorem exists_isMaximalRun (ha : a < n) (hFits : size a ≤ capacity) :
    ∃ m, 0 < m ∧ IsMaximalRun capacity size n a m := by
  let P : Nat → Prop := fun m => a + m ≤ n ∧ load size a m ≤ capacity
  have hOne : P 1 := by
    refine ⟨ha, ?_⟩
    rw [load_succ, load_zero, Nat.zero_add, Nat.add_zero]
    exact hFits
  have hBound : 1 ≤ n - a := by omega
  have hSpec : P (Nat.findGreatest P (n - a)) := Nat.findGreatest_spec hBound hOne
  refine ⟨Nat.findGreatest P (n - a), Nat.le_findGreatest hBound hOne, hSpec.1, hSpec.2,
    fun hMore => ?_⟩
  by_contra hNot
  have hNext : P (Nat.findGreatest P (n - a) + 1) := ⟨hMore, Nat.le_of_not_lt hNot⟩
  exact Nat.findGreatest_is_greatest (Nat.lt_succ_self _) (by omega) hNext

theorem IsMaximalRun.unique (h : IsMaximalRun capacity size n a m)
    (h' : IsMaximalRun capacity size n a m') : m = m' :=
  Nat.le_antisymm (h.le h') (h'.le h)

end

/-! ## The last run -/

section

variable {size : Nat → Nat} {capacity n a m : Nat}

/-- The load of the last run when the first `n` items are packed one after the other; an item
that does not fit is in no run. -/
def lastLoad (capacity : Nat) (size : Nat → Nat) : Nat → Nat
  | 0 => 0
  | n + 1 =>
      if capacity < size n then 0
      else if lastLoad capacity size n + size n ≤ capacity then lastLoad capacity size n + size n
      else size n

/-- The next item begins a run. -/
def BeginsRun (capacity : Nat) (size : Nat → Nat) (a : Nat) : Prop :=
  lastLoad capacity size a = 0 ∨ capacity < lastLoad capacity size a + size a

theorem beginsRun_zero : BeginsRun capacity size 0 :=
  Or.inl rfl

theorem beginsRun_of_oversize (h : capacity < size a) : BeginsRun capacity size (a + 1) :=
  Or.inl (if_pos h)

/-- As long as the items fit they are in one run. -/
theorem BeginsRun.lastLoad_add (h : BeginsRun capacity size a) (hm : 0 < m)
    (hFits : load size a m ≤ capacity) : lastLoad capacity size (a + m) = load size a m := by
  induction m with
  | zero => exact absurd hm (Nat.lt_irrefl 0)
  | succ m ih =>
      rw [load_succ] at hFits ⊢
      rw [← Nat.add_assoc, lastLoad, if_neg (by omega)]
      rcases Nat.eq_zero_or_pos m with rfl | hPos
      · rw [load_zero, Nat.zero_add, Nat.add_zero]
        rcases h with hZero | hFull
        · rw [hZero, Nat.zero_add]
          exact ite_self _
        · exact if_neg (by omega)
      · rw [ih hPos (by omega), if_pos hFits]

/-- A run ends where the next one begins. -/
theorem IsMaximalRun.beginsRun (h : IsMaximalRun capacity size n a m)
    (hBegin : BeginsRun capacity size a) (hm : 0 < m) (hMore : a + m < n) :
    BeginsRun capacity size (a + m) := by
  refine Or.inr ?_
  rw [hBegin.lastLoad_add hm h.fits, ← load_succ]
  exact h.full hMore

end

/-! ## Cuts -/

section

variable {α : Type*}

/-- The items from `a` to `b` are cut into `parts`, and `R` holds of the start and the length
of each of them. -/
inductive Cuts (R : Nat → Nat → Prop) (f : Nat → α) : Nat → List (List α) → Nat → Prop
  | nil (a : Nat) : Cuts R f a [] a
  | cons {a m b : Nat} {parts : List (List α)} (hFirst : R a m) (hRest : Cuts R f (a + m) parts b) :
      Cuts R f a (seg f a (a + m) :: parts) b

namespace Cuts

variable {R R' : Nat → Nat → Prop} {f g : Nat → α} {a b m : Nat} {parts : List (List α)}

theorem le (h : Cuts R f a parts b) : a ≤ b := by
  induction h with
  | nil a => exact le_rfl
  | cons hFirst hRest ih => omega

/-- One more run at the end. -/
theorem snoc (h : Cuts R f a parts b) (hLast : R b m) :
    Cuts R f a (parts ++ [seg f b (b + m)]) (b + m) := by
  induction h with
  | nil a => exact cons hLast (nil _)
  | cons hFirst hRest ih => exact cons hFirst (ih hLast)

/-- What lies behind the runs may change. -/
theorem imp (h : Cuts R f a parts b) (hItems : ∀ k < b, f k = g k)
    (hRuns : ∀ a m, a + m ≤ b → R a m → R' a m) : Cuts R' g a parts b := by
  induction h with
  | nil a => exact nil a
  | @cons a m b parts hFirst hRest ih =>
      have hEnd := hRest.le
      have hSame : seg f a (a + m) = seg g a (a + m) := by
        apply List.map_congr_left
        intro k hk
        have hk := List.mem_range'_1.mp hk
        exact hItems k (by omega)
      rw [hSame]
      exact cons (hRuns a m hEnd hFirst) (ih hItems hRuns)

end Cuts

end

/-! ## Chunks -/

section

variable {α : Type*} {n : Nat} {l : List α}

/-- The parts of length `n`, the last one may be shorter. -/
def chunks (n : Nat) (l : List α) : List (List α) :=
  (List.range ((l.length + n - 1) / n)).map fun k => (l.drop (k * n)).take n

theorem chunks_nil (hn : 0 < n) : chunks n ([] : List α) = [] := by
  have hNone : (([] : List α).length + n - 1) / n = 0 := Nat.div_eq_of_lt (by simp; omega)
  rw [chunks, hNone]
  rfl

theorem chunks_of_ne_nil (hn : 0 < n) (h : l ≠ []) :
    chunks n l = l.take n :: chunks n (l.drop n) := by
  have hPos : 0 < l.length := List.length_pos_iff.mpr h
  have hCount : (l.length + n - 1) / n = ((l.drop n).length + n - 1) / n + 1 := by
    rw [List.length_drop]
    rcases Nat.le_total n l.length with hMore | hLess
    · rw [show l.length + n - 1 = l.length - n + n - 1 + n by omega, Nat.add_div_right _ hn]
    · have hLast : l.length + n - 1 = l.length - 1 + n := by omega
      rw [hLast, Nat.add_div_right _ hn, Nat.div_eq_of_lt (by omega),
        Nat.div_eq_of_lt (by omega)]
  rw [chunks, hCount, List.range_succ_eq_map, List.map_cons, List.map_map, Nat.zero_mul,
    List.drop_zero]
  congr 1
  apply List.map_congr_left
  intro k _
  rw [Function.comp_apply, List.drop_drop, Nat.succ_mul, Nat.add_comm]

end

end Dataflow
