import Mathlib.Algebra.BigOperators.Intervals
import Mathlib.Tactic

/-!
# Sums over the cells of a grid

A grid with `b` columns numbers its cells row by row.  A sum over the numbers of
`a` rows is a double sum over the cells, and numbering the cells of a grid column
by column deals the numbers out to the columns in turn.
-/

namespace Dataflow

variable {α : Type*} [AddCommMonoid α]

/-- Summing over all cells, row by row. -/
theorem sum_range_mul (f : Nat → α) (a b : Nat) :
    ∑ n ∈ Finset.range (a * b), f n =
      ∑ i ∈ Finset.range a, ∑ j ∈ Finset.range b, f (i * b + j) := by
  induction a with
  | zero => simp
  | succ a ih =>
      rw [Finset.sum_range_succ, ← ih, Nat.succ_mul, Finset.sum_range_add]

/-- A sum in chunks of `b`, the last one shorter. -/
theorem sum_chunks (f : Nat → α) {n b : Nat} (a : Nat) :
    ∑ i ∈ Finset.range a, ∑ j ∈ Finset.range (min (n - i * b) b), f (i * b + j) =
      ∑ k ∈ Finset.range (min n (a * b)), f k := by
  induction a with
  | zero => simp
  | succ a ih =>
      have hSplit : min n ((a + 1) * b) = min n (a * b) + min (n - a * b) b := by
        rw [Nat.succ_mul]
        omega
      rw [Finset.sum_range_succ, ih, hSplit, Finset.sum_range_add]
      congr 1
      by_cases hMore : a * b ≤ n
      · rw [Nat.min_eq_right hMore]
      · have hNone : n - a * b = 0 := by omega
        simp [hNone]

/-- A sum over a corner of the grid. -/
theorem sum_corner (f : Nat → Nat → α) {a a' b b' : Nat} (ha : a' ≤ a) (hb : b' ≤ b) :
    ∑ i ∈ Finset.range a, ∑ j ∈ Finset.range b, (if i < a' ∧ j < b' then f i j else 0) =
      ∑ i ∈ Finset.range a', ∑ j ∈ Finset.range b', f i j := by
  refine (Finset.sum_subset (Finset.range_subset_range.mpr ha) ?_).symm.trans ?_
  · intro i _ hOut
    have hOut : ¬i < a' := by simpa using hOut
    simp [hOut]
  · refine Finset.sum_congr rfl fun i hi => ?_
    have hi := Finset.mem_range.mp hi
    refine (Finset.sum_subset (Finset.range_subset_range.mpr hb) ?_).symm.trans ?_
    · intro j _ hOut
      have hOut : ¬j < b' := by simpa using hOut
      simp [hOut]
    · refine Finset.sum_congr rfl fun j hj => ?_
      rw [if_pos ⟨hi, Finset.mem_range.mp hj⟩]

/-- A sum over a table whose entries are dealt out to `b` columns in turn: entry `n`
lies in column `n % b`, row `n / b`. -/
theorem sum_dealt (g : Nat → Nat → α) {n a b : Nat} (hb : 0 < b) (hn : n ≤ a * b)
    (hZero : ∀ j < b, ∀ i < a, n ≤ i * b + j → g j i = 0) :
    ∑ j ∈ Finset.range b, ∑ i ∈ Finset.range a, g j i =
      ∑ k ∈ Finset.range n, g (k % b) (k / b) := by
  have hAll : ∑ k ∈ Finset.range (a * b), g (k % b) (k / b) =
      ∑ i ∈ Finset.range a, ∑ j ∈ Finset.range b, g j i := by
    rw [sum_range_mul]
    refine Finset.sum_congr rfl fun i _ => Finset.sum_congr rfl fun j hj => ?_
    have hj := Finset.mem_range.mp hj
    have hMod : (i * b + j) % b = j := by
      rw [Nat.mul_comm, Nat.mul_add_mod, Nat.mod_eq_of_lt hj]
    have hDiv : (i * b + j) / b = i := by
      rw [Nat.mul_comm, Nat.mul_add_div hb, Nat.div_eq_of_lt hj, Nat.add_zero]
    rw [hMod, hDiv]
  rw [Finset.sum_comm, ← hAll]
  refine (Finset.sum_subset (Finset.range_subset_range.mpr hn) ?_).symm
  intro k hk hOut
  have hk := Finset.mem_range.mp hk
  have hOut : n ≤ k := by simpa using hOut
  have hSplit : k / b * b + k % b = k := Nat.div_add_mod' k b
  refine hZero _ (Nat.mod_lt k hb) _ ?_ (hSplit.symm ▸ hOut)
  rwa [Nat.div_lt_iff_lt_mul hb]

end Dataflow
