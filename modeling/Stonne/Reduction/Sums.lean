import Mathlib.Algebra.BigOperators.Intervals
import Stonne.Reduction.Layout

/-!
# The sums of a neuron

At every height the bits of a neuron carry parts of its sum.  An adder that is kept adds up what
its own bits carry, and a receiver also what its neighbour sends, so that the parts always add up
to the sum over the multipliers of the neuron.
-/

namespace Stonne

open Dataflow LevelState

/-- The other adder of the pair to which `p` belongs. -/
def partner (p : Nat) : Nat :=
  if p % 2 = 1 then p + 1 else p - 1

namespace Layout

variable {L : Nat}

/-- The adder to which the bit `c` of a neuron contributes. -/
def into (layout : Layout L) (v k c : Nat) : Nat :=
  max (layout.span v (k + 1)).1 (min (layout.span v (k + 1)).2 (c / 2))

/-- What the bit `c` of a neuron carries at height `k`, if `x` stands at the multipliers. -/
def value (layout : Layout L) (x : Nat → Int) (v : Nat) : Nat → Nat → Int
  | 0, c => x c
  | k + 1, p =>
      ∑ c ∈ Finset.Icc (layout.span v k).1 (layout.span v k).2 with layout.into v k c = p,
        layout.value x v k c

/-- What the bits of a neuron below the adder `p` carry. -/
def below (layout : Layout L) (x : Nat → Int) (v k p : Nat) : Int :=
  ∑ c ∈ Finset.Icc (layout.span v k).1 (layout.span v k).2 with c / 2 = p,
    layout.value x v k c

section

variable {layout : Layout L} {x : Nat → Int} {v k p : Nat}

/-- The adders that a neuron enters. -/
theorem roleAt_cases (hv : v < layout.numVNs)
    (h : layout.Covers v k (2 * p) ∨ layout.Covers v k (2 * p + 1)) :
    layout.roleAt v k p = .send ∧ ¬layout.Covers v (k + 1) p ∨
      layout.roleAt v k p = .receive ∧ layout.Covers v (k + 1) p ∨
      layout.roleAt v k p = .plain ∧ layout.Covers v (k + 1) p := by
  have hOrder := span_ordered hv k
  have hHit : ¬(p < (layout.span v k).1 / 2 ∨ (layout.span v k).2 / 2 < p) := by
    unfold Covers at h
    omega
  have hCovers : layout.Covers v (k + 1) p ↔
      ¬(p < firstKept (layout.span v k).1 (layout.span v k).2 ∨
        lastKept (layout.span v k).1 (layout.span v k).2 < p) := by
    rw [Covers, span_succ]
    change firstKept _ _ ≤ p ∧ p ≤ lastKept _ _ ↔ _
    omega
  rw [roleAt, role, roleOf, if_neg hHit, hCovers]
  split
  · rename_i hSends
    exact .inl ⟨rfl, not_not.mpr hSends⟩
  · rename_i hKept
    split
    · exact .inr (.inl ⟨rfl, hKept⟩)
    · exact .inr (.inr ⟨rfl, hKept⟩)

/-- A neuron that is given a role at an adder has bits below it. -/
theorem covers_of_role (hv : v < layout.numVNs) (h : layout.roleAt v k p ≠ .absent) :
    layout.Covers v k (2 * p) ∨ layout.Covers v k (2 * p + 1) := by
  by_contra hNone
  rw [not_or] at hNone
  exact h (roleAt_absent hv hNone.1 hNone.2)

theorem into_plain (hv : v < layout.numVNs) (hRole : layout.roleAt v k p = .plain) {c : Nat}
    (hc : layout.Covers v k c) : layout.into v k c = p ↔ c / 2 = p := by
  obtain ⟨hFrom, hOrder, hTo, hRight, hLeft⟩ := kept_bounds (span_ordered hv k)
  rw [roleAt, role, roleOf] at hRole
  split_ifs at hRole with hHit hKept hMoved
  rw [into, span_succ]
  change max (firstKept _ _) (min (lastKept _ _) _) = p ↔ _
  unfold Covers at hc
  omega

theorem into_receive (hv : v < layout.numVNs) (hRole : layout.roleAt v k p = .receive) {c : Nat}
    (hc : layout.Covers v k c) : layout.into v k c = p ↔ c / 2 = p ∨ c / 2 = partner p := by
  obtain ⟨hFrom, hOrder, hTo, hRight, hLeft⟩ := kept_bounds (span_ordered hv k)
  rw [roleAt, role, roleOf] at hRole
  split_ifs at hRole with hHit hKept hMoved
  rw [into, span_succ]
  change max (firstKept _ _) (min (lastKept _ _) _) = p ↔ _
  unfold Covers at hc
  unfold partner
  split <;> omega

theorem value_plain (hv : v < layout.numVNs) (hRole : layout.roleAt v k p = .plain) :
    layout.value x v (k + 1) p = layout.below x v k p := by
  refine Finset.sum_congr (Finset.filter_congr fun c hc => ?_) fun _ _ => rfl
  exact into_plain hv hRole (Finset.mem_Icc.mp hc)

theorem value_receive (hv : v < layout.numVNs) (hRole : layout.roleAt v k p = .receive) :
    layout.value x v (k + 1) p = layout.below x v k p + layout.below x v k (partner p) := by
  have hOther : p ≠ partner p := by
    unfold partner
    obtain ⟨hFrom, hOrder, hTo, hRight, hLeft⟩ := kept_bounds (span_ordered hv k)
    rw [roleAt, role, roleOf] at hRole
    split_ifs at hRole with hHit hKept hMoved
    split <;> omega
  rw [value, below, below, ← Finset.sum_union]
  · rw [← Finset.filter_or]
    refine Finset.sum_congr (Finset.filter_congr fun c hc => ?_) fun _ _ => rfl
    exact into_receive hv hRole (Finset.mem_Icc.mp hc)
  · refine Finset.disjoint_filter.mpr fun c _ hSame hPartner => ?_
    exact hOther (hSame.symm.trans hPartner)

/-- A level passes on what its bits carry. -/
theorem value_total (hv : v < layout.numVNs) (k : Nat) :
    ∑ p ∈ Finset.Icc (layout.span v (k + 1)).1 (layout.span v (k + 1)).2,
        layout.value x v (k + 1) p =
      ∑ c ∈ Finset.Icc (layout.span v k).1 (layout.span v k).2, layout.value x v k c := by
  have hOrder := span_ordered hv (k + 1)
  refine Finset.sum_fiberwise_of_maps_to (fun c _ => ?_) _
  rw [Finset.mem_Icc, into]
  omega

theorem value_sum (hv : v < layout.numVNs) (k : Nat) :
    ∑ c ∈ Finset.Icc (layout.span v k).1 (layout.span v k).2, layout.value x v k c =
      ∑ m ∈ Finset.range (layout.size v), x (layout.shift v + m) := by
  induction k with
  | zero =>
      have hSize := layout.size_pos v hv
      have hIcc : Finset.Icc (layout.span v 0).1 (layout.span v 0).2 =
          Finset.Ico (layout.shift v) (layout.shift v + layout.size v) := by
        obtain ⟨hFirst, hLast⟩ := span_zero hv
        rw [shift_succ] at hLast
        ext m
        rw [Finset.mem_Icc, Finset.mem_Ico]
        omega
      rw [hIcc, Finset.sum_Ico_eq_sum_range, Nat.add_sub_cancel_left]
      rfl
  | succ k ih => rw [value_total hv, ih]

/-- The last adder of a neuron has its sum. -/
theorem value_complete (hv : v < layout.numVNs) (h : layout.span v k = (p, p)) :
    layout.value x v k p =
      ∑ m ∈ Finset.range (layout.size v), x (layout.shift v + m) := by
  rw [← value_sum hv k, h, Finset.Icc_self, Finset.sum_singleton]

theorem below_filter :
    layout.below x v k p =
      (if layout.Covers v k (2 * p) then layout.value x v k (2 * p) else 0) +
        if layout.Covers v k (2 * p + 1) then layout.value x v k (2 * p + 1) else 0 := by
  have hPair : (Finset.Icc (layout.span v k).1 (layout.span v k).2).filter (fun c => c / 2 = p) =
      ({2 * p, 2 * p + 1} : Finset Nat).filter fun c => layout.Covers v k c := by
    ext c
    rw [Finset.mem_filter, Finset.mem_filter, Finset.mem_Icc, Finset.mem_insert,
      Finset.mem_singleton, Covers]
    omega
  rw [below, hPair, Finset.sum_filter, Finset.sum_pair (by omega)]

end

end Layout

end Stonne
