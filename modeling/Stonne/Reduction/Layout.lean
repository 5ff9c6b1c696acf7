import Mathlib.Algebra.BigOperators.Intervals
import Stonne.Reduction.Roles

/-!
# Neurons side by side

Neurons that follow each other over the multipliers share adders of the first level only: there
one of two neighbours sends its bit over a forwarding link and leaves the adder to the other.
Above the first level a neuron that is not complete begins at the left child of an adder and ends
at the right child of another, so its adders are its own.
-/

namespace Stonne

open Dataflow LevelState

/-! ## One neuron -/

section

variable {x y p : Nat}

/-- A neuron that is not complete keeps whole pairs of bits. -/
theorem kept_even_odd (hxy : x ≤ y) (h : firstKept x y < lastKept x y) :
    firstKept x y % 2 = 0 ∧ lastKept x y % 2 = 1 := by
  have hBounds := kept_bounds hxy
  have hFirst := firstKept_cases x y
  have hLast := lastKept_cases x y
  generalize firstKept x y = F at *
  generalize lastKept x y = K at *
  unfold JoinsRight JoinsLeft at *
  constructor
  · omega
  · omega

/-- The last bit leaves an adder of even number that it shares. -/
theorem lastKept_shared (hxy : x < y) (hLast : y = 2 * p) (hEven : p % 2 = 0) :
    lastKept x y + 1 = p := by
  have hBounds := kept_bounds hxy.le
  have hFirst := firstKept_cases x y
  have hLast := lastKept_cases x y
  generalize firstKept x y = F at *
  generalize lastKept x y = K at *
  unfold JoinsRight JoinsLeft at *
  omega

/-- The first bit leaves an adder of odd number that it shares. -/
theorem firstKept_shared (hxy : x + 2 ≤ y) (hFirst : x = 2 * p + 1) (hOdd : p % 2 = 1) :
    firstKept x y = p + 1 := by
  have hFirst := firstKept_cases x y
  generalize firstKept x y = F at *
  unfold JoinsRight at *
  omega

/-- An adder of even number stays with the neuron that begins at its right child. -/
theorem plain_of_first (hxy : x ≤ y) (hFirst : x = 2 * p + 1) (hEven : p % 2 = 0) :
    firstKept x y = p ∧ roleOf x y p = .plain := by
  obtain ⟨hFrom, hOrder, hTo, hRight, hLeft⟩ := kept_bounds hxy
  have hKept : firstKept x y = p := by omega
  exact ⟨hKept, roleOf_kept hKept.le (by omega) (by omega) (by omega) hxy⟩

/-- An adder of odd number stays with the neuron that ends at its left child. -/
theorem plain_of_last (hxy : x ≤ y) (hLast : y = 2 * p) (hOdd : p % 2 = 1) :
    lastKept x y = p ∧ roleOf x y p = .plain := by
  obtain ⟨hFrom, hOrder, hTo, hRight, hLeft⟩ := kept_bounds hxy
  have hKept : lastKept x y = p := by omega
  exact ⟨hKept, roleOf_kept (by omega) hKept.ge (by omega) (by omega) hxy⟩

end

/-! ## The neurons of a mapping -/

/-- Two neighbours below one adder of the first level, the first with its last bit and the second
with its first: one of them can send this bit to another adder, or both are single bits. -/
def PartsAdder (boundary before after : Nat) : Prop :=
  (boundary % 4 = 1 → 2 ≤ before) ∧ (boundary % 4 = 3 → 3 ≤ after) ∨ before = 1 ∧ after = 1

/-- Neurons that follow each other over the multipliers of a tree with `L` levels. -/
structure Layout (L : Nat) where
  numVNs : Nat
  size : Nat → Nat
  size_pos : ∀ v < numVNs, 0 < size v
  fits : ∑ v ∈ Finset.range numVNs, size v ≤ 2 ^ L
  parts : ∀ v, v + 1 < numVNs →
    PartsAdder (∑ u ∈ Finset.range (v + 1), size u) (size v) (size (v + 1))

namespace Layout

variable {L : Nat}

/-- The first multiplier of a neuron. -/
def shift (layout : Layout L) (v : Nat) : Nat :=
  ∑ u ∈ Finset.range v, layout.size u

/-- The neurons as the compiler goes through them. -/
def neurons (layout : Layout L) : List (Nat × Nat) :=
  (List.range layout.numVNs).map fun v => (layout.shift v, layout.size v)

/-- The bits of a neuron `k` levels above the multipliers. -/
def span (layout : Layout L) (v k : Nat) : Bits :=
  reach (neuronSpan (layout.shift v, layout.size v)) k

/-- The neuron has the bit `c` at height `k`. -/
def Covers (layout : Layout L) (v k c : Nat) : Prop :=
  (layout.span v k).1 ≤ c ∧ c ≤ (layout.span v k).2

instance (layout : Layout L) (v k c : Nat) : Decidable (layout.Covers v k c) :=
  inferInstanceAs (Decidable (_ ∧ _))

/-- The sum of the neuron is not complete at height `k`. -/
def Live (layout : Layout L) (v k : Nat) : Prop :=
  k = 0 ∨ (layout.span v k).1 < (layout.span v k).2

instance (layout : Layout L) (v k : Nat) : Decidable (layout.Live v k) :=
  inferInstanceAs (Decidable (_ ∨ _))

section

variable {layout : Layout L} {u v k c p : Nat}

theorem shift_succ (layout : Layout L) (v : Nat) :
    layout.shift (v + 1) = layout.shift v + layout.size v :=
  Finset.sum_range_succ _ _

theorem shift_mono (layout : Layout L) (h : u ≤ v) : layout.shift u ≤ layout.shift v :=
  Finset.sum_le_sum_of_subset (Finset.range_subset_range.mpr h)

theorem neuronFits (hv : v < layout.numVNs) :
    NeuronFits L (layout.shift v, layout.size v) where
  size := layout.size_pos v hv
  fits := by
    rw [← shift_succ]
    exact (layout.shift_mono hv).trans layout.fits

theorem neurons_fit : ∀ neuron ∈ layout.neurons, NeuronFits L neuron := by
  intro neuron hNeuron
  obtain ⟨v, hv, rfl⟩ := List.mem_map.mp hNeuron
  exact neuronFits (List.mem_range.mp hv)

theorem span_succ (v k : Nat) : layout.span v (k + 1) = parents (layout.span v k) :=
  reach_succ k

theorem span_ordered (hv : v < layout.numVNs) (k : Nat) :
    (layout.span v k).1 ≤ (layout.span v k).2 :=
  reach_ordered (neuronFits hv).ordered k

theorem span_lt (hv : v < layout.numVNs) (hk : k ≤ L) :
    (layout.span v k).2 < 2 ^ (L - k) := by
  apply reach_lt (neuronFits hv).ordered
  rw [Nat.sub_add_cancel hk]
  exact (neuronFits hv).last_lt

theorem covers_zero (hv : v < layout.numVNs) :
    layout.Covers v 0 c ↔ layout.shift v ≤ c ∧ c < layout.shift (v + 1) := by
  have hSize := layout.size_pos v hv
  rw [shift_succ]
  change layout.shift v ≤ c ∧ c ≤ layout.shift v + layout.size v - 1 ↔ _
  omega

theorem bounds (hv : v < layout.numVNs) (k : Nat) :
    (layout.span v k).1 / 2 ≤ (layout.span v (k + 1)).1 ∧
      (layout.span v (k + 1)).2 ≤ (layout.span v k).2 / 2 := by
  obtain ⟨hFrom, -, hTo, -⟩ := kept_bounds (span_ordered hv k)
  rw [span_succ]
  exact ⟨hFrom, hTo⟩

/-- A neuron that is complete stays so. -/
theorem Live.pred (hv : v < layout.numVNs) (h : layout.Live v (k + 1)) : layout.Live v k := by
  rcases Nat.eq_zero_or_pos k with rfl | hPos
  · exact .inl rfl
  · obtain ⟨hFrom, hTo⟩ := bounds hv k
    have hLive := h.resolve_left (Nat.succ_ne_zero k)
    exact .inr (by omega)

theorem Live.even_odd (hv : v < layout.numVNs) (hPos : 0 < k) (h : layout.Live v k) :
    (layout.span v k).1 % 2 = 0 ∧ (layout.span v k).2 % 2 = 1 := by
  obtain ⟨j, rfl⟩ := Nat.exists_eq_succ_of_ne_zero hPos.ne'
  have hLive := h.resolve_left (Nat.succ_ne_zero j)
  rw [Nat.succ_eq_add_one, span_succ] at hLive ⊢
  exact kept_even_odd (span_ordered hv j) hLive

/-- An adder that is kept has a bit below it. -/
theorem Covers.child (hv : v < layout.numVNs) (h : layout.Covers v (k + 1) p) :
    layout.Covers v k (2 * p) ∨ layout.Covers v k (2 * p + 1) := by
  obtain ⟨hFrom, hTo⟩ := bounds hv k
  have hOrder := span_ordered hv k
  unfold Covers at *
  omega

theorem disjoint_zero (hu : u < layout.numVNs) (hv : v < layout.numVNs) (hNe : u ≠ v)
    (h : layout.Covers v 0 c) : ¬layout.Covers u 0 c := by
  rw [covers_zero hv] at h
  rw [covers_zero hu]
  rcases Nat.lt_or_gt_of_ne hNe with hLess | hMore
  · have hMono := layout.shift_mono (Nat.succ_le_of_lt hLess)
    rw [Nat.succ_eq_add_one] at hMono
    omega
  · have hMono := layout.shift_mono (Nat.succ_le_of_lt hMore)
    rw [Nat.succ_eq_add_one] at hMono
    omega

/-- Two neurons below one adder of the first level follow each other. -/
theorem neighbours (hu : u < layout.numVNs) (hv : v < layout.numVNs) (hNe : u ≠ v)
    (hLeft : layout.Covers v 0 (2 * p)) (hRight : layout.Covers u 0 (2 * p + 1)) :
    u = v + 1 ∧ layout.shift (v + 1) = 2 * p + 1 := by
  rw [covers_zero hv] at hLeft
  rw [covers_zero hu] at hRight
  rcases Nat.lt_or_gt_of_ne hNe with hLess | hMore
  · have hMono := layout.shift_mono (Nat.succ_le_of_lt hLess)
    rw [Nat.succ_eq_add_one] at hMono
    omega
  · have hMono := layout.shift_mono (Nat.succ_le_of_lt hMore)
    rw [Nat.succ_eq_add_one] at hMono
    refine ⟨?_, by omega⟩
    by_contra hOther
    have hBetween : v + 2 ≤ u := by omega
    have hMono' := layout.shift_mono hBetween
    have hSize := layout.size_pos (v + 1) (by omega)
    rw [show v + 2 = v + 1 + 1 from rfl, shift_succ] at hMono'
    omega

/-- What a neuron wants of the adder `p` above its bits at height `k`. -/
abbrev roleAt (layout : Layout L) (v k p : Nat) : Role :=
  role (layout.span v k) p

theorem span_zero (hv : v < layout.numVNs) :
    (layout.span v 0).1 = layout.shift v ∧ (layout.span v 0).2 + 1 = layout.shift (v + 1) := by
  have hSize := layout.size_pos v hv
  rw [shift_succ]
  change layout.shift v = layout.shift v ∧ layout.shift v + layout.size v - 1 + 1 = _
  omega

/-- A bit that is alone is kept by the adder above it. -/
theorem single_kept (h : layout.span v k = (c, c)) :
    layout.span v (k + 1) = (c / 2, c / 2) ∧ layout.roleAt v k (c / 2) = .plain := by
  obtain ⟨hFrom, hOrder, hTo, -⟩ := kept_bounds (Nat.le_refl c)
  have hFirst : firstKept c c = c / 2 := by omega
  have hLast : lastKept c c = c / 2 := by omega
  rw [span_succ, roleAt, h]
  refine ⟨Prod.ext hFirst hLast, ?_⟩
  exact roleOf_kept hFirst.le hLast.ge (by omega) (by omega) (Nat.le_refl c)

/-- Two neighbours at one adder of the first level. -/
theorem shared_zero (hv : v + 1 < layout.numVNs)
    (hBoundary : layout.shift (v + 1) = 2 * p + 1) :
    (p % 2 = 0 ∧ layout.roleAt v 0 p = .send ∧ layout.roleAt (v + 1) 0 p = .plain ∧
        ¬layout.Covers v 1 p) ∨
      (p % 2 = 1 ∧ layout.roleAt v 0 p = .plain ∧ layout.roleAt (v + 1) 0 p = .send ∧
        ¬layout.Covers (v + 1) 1 p) ∨
      (layout.roleAt v 0 p = .plain ∧ layout.roleAt (v + 1) 0 p = .plain ∧
        layout.span v 1 = (p, p) ∧ layout.span (v + 1) 1 = (p, p) ∧
          layout.size v = 1 ∧ layout.size (v + 1) = 1) := by
  have hv' : v < layout.numVNs := Nat.lt_of_succ_lt hv
  obtain ⟨hFirst, hLast⟩ := span_zero hv'
  obtain ⟨hFirst', hLast'⟩ := span_zero hv
  have hShift := layout.shift_succ v
  have hShift' := layout.shift_succ (v + 1)
  have hParts := layout.parts v hv
  have hOrder := span_ordered hv' 0
  have hOrder' := span_ordered hv 0
  change PartsAdder (layout.shift (v + 1)) _ _ at hParts
  rw [hBoundary] at hParts
  rcases hParts with ⟨hEvenOne, hOddOne⟩ | ⟨hSingle, hSingle'⟩
  · rcases Nat.mod_two_eq_zero_or_one p with hEven | hOdd
    · have hSize := hEvenOne (by omega)
      have hSends := lastKept_shared (x := (layout.span v 0).1) (by omega)
        (by omega : (layout.span v 0).2 = 2 * p) hEven
      refine .inl ⟨hEven, ?_, (plain_of_first hOrder' (by omega) hEven).2, fun hCovers => ?_⟩
      · rw [roleAt, role, roleOf, if_neg (by omega), if_pos (.inr (by omega))]
      · rw [Covers, span_succ] at hCovers
        change _ ∧ p ≤ lastKept _ _ at hCovers
        omega
    · have hSize := hOddOne (by omega)
      have hSends := firstKept_shared (y := (layout.span (v + 1) 0).2) (by omega)
        (by omega : (layout.span (v + 1) 0).1 = 2 * p + 1) hOdd
      refine .inr (.inl ⟨hOdd, (plain_of_last hOrder (by omega) hOdd).2, ?_, fun hCovers => ?_⟩)
      · rw [roleAt, role, roleOf, if_neg (by omega), if_pos (.inl (by omega))]
      · rw [Covers, span_succ] at hCovers
        change firstKept _ _ ≤ p ∧ _ at hCovers
        omega
  · have hAlone : layout.span v 0 = (2 * p, 2 * p) := Prod.ext (by omega) (by omega)
    have hAlone' : layout.span (v + 1) 0 = (2 * p + 1, 2 * p + 1) :=
      Prod.ext (by omega) (by omega)
    obtain ⟨hSpan, hRole⟩ := single_kept hAlone
    obtain ⟨hSpan', hRole'⟩ := single_kept hAlone'
    have hHalf : 2 * p / 2 = p := by omega
    have hHalf' : (2 * p + 1) / 2 = p := by omega
    rw [hHalf] at hSpan hRole
    rw [hHalf'] at hSpan' hRole'
    exact .inr (.inr ⟨hRole, hRole', hSpan, hSpan', hSingle, hSingle'⟩)

/-- Above the first level the bits of an incomplete neuron are its own. -/
theorem disjoint (hu : u < layout.numVNs) (hv : v < layout.numVNs) (hNe : u ≠ v)
    (hLive : layout.Live v k) (h : layout.Covers v k c) : ¬layout.Covers u k c := by
  induction k generalizing c with
  | zero => exact disjoint_zero hu hv hNe h
  | succ k ih =>
      intro hOther
      have hBefore := Live.pred hv hLive
      rcases Nat.eq_zero_or_pos k with rfl | hPos
      · have hNotSingle : layout.span v 1 ≠ (c, c) := by
          intro hSpan
          have hLess := hLive.resolve_left Nat.one_ne_zero
          rw [hSpan] at hLess
          exact Nat.lt_irrefl c hLess
        rcases h.child hv with hLeft | hRight
        · have hRight := (hOther.child hu).resolve_left (ih hBefore hLeft)
          obtain ⟨rfl, hBoundary⟩ := neighbours hu hv hNe hLeft hRight
          rcases shared_zero hu hBoundary with
            ⟨-, -, -, hNot⟩ | ⟨-, -, -, hNot⟩ | ⟨-, -, hSpan, -⟩
          · exact hNot h
          · exact hNot hOther
          · exact hNotSingle hSpan
        · have hLeft := (hOther.child hu).resolve_right (ih hBefore hRight)
          obtain ⟨rfl, hBoundary⟩ := neighbours hv hu hNe.symm hLeft hRight
          rcases shared_zero hv hBoundary with
            ⟨-, -, -, hNot⟩ | ⟨-, -, -, hNot⟩ | ⟨-, -, -, hSpan, -⟩
          · exact hNot hOther
          · exact hNot h
          · exact hNotSingle hSpan
      · obtain ⟨hEven, hOdd⟩ := Live.even_odd hv hPos hBefore
        have hBoth : layout.Covers v k (2 * c) ∧ layout.Covers v k (2 * c + 1) := by
          have hChild := h.child hv
          unfold Covers at *
          omega
        exact (hOther.child hu).elim (ih hBefore hBoth.1) (ih hBefore hBoth.2)

/-! ## The entries of an adder -/

theorem foldl_absent {l : List Nat} {roles : Nat → Role} (h : ∀ u ∈ l, roles u = .absent)
    (entries : Entries) :
    l.foldl (fun entries u => (roles u).enter entries) entries = entries := by
  induction l generalizing entries with
  | nil => rfl
  | cons u l ih =>
      rw [List.foldl_cons, h u List.mem_cons_self]
      exact ih (fun u' hu' => h u' (List.mem_cons_of_mem _ hu')) entries

theorem entered_eq (layout : Layout L) (k p : Nat) :
    entered layout.neurons (k + 1) p =
      (List.range layout.numVNs).foldl (fun entries v => (layout.roleAt v k p).enter entries)
        (none, none) := by
  rw [entered, neurons, List.foldl_map]
  rfl

/-- The entries of an adder that one neuron enters. -/
theorem entered_one (hv : v < layout.numVNs)
    (hOthers : ∀ u < layout.numVNs, u ≠ v → layout.roleAt u k p = .absent) :
    entered layout.neurons (k + 1) p = (layout.roleAt v k p).enter (none, none) := by
  obtain ⟨rest, hRest⟩ := Nat.exists_eq_add_of_lt hv
  have hSplit : List.range layout.numVNs =
      List.range v ++ v :: List.range' (v + 1) rest := by
    rw [hRest, Nat.add_assoc, List.range_eq_range', ← List.range'_append_1, Nat.zero_add,
      Nat.add_comm rest, ← List.range'_append_1, List.range_eq_range']
    rfl
  rw [entered_eq, hSplit, List.foldl_append, List.foldl_cons, foldl_absent, foldl_absent]
  · intro u hu
    have hu := List.mem_range.mp hu
    exact hOthers u (by omega) (by omega)
  · intro u hu
    have hu := List.mem_range'_1.mp hu
    exact hOthers u (by omega) (by omega)

/-- The entries of an adder that two neighbours enter. -/
theorem entered_two (hv : v + 1 < layout.numVNs)
    (hOthers : ∀ u < layout.numVNs, u ≠ v → u ≠ v + 1 → layout.roleAt u k p = .absent) :
    entered layout.neurons (k + 1) p =
      (layout.roleAt (v + 1) k p).enter ((layout.roleAt v k p).enter (none, none)) := by
  obtain ⟨rest, hRest⟩ := Nat.exists_eq_add_of_lt hv
  have hSplit : List.range layout.numVNs =
      List.range v ++ v :: (v + 1) :: List.range' (v + 2) rest := by
    rw [hRest, Nat.add_assoc v 1, Nat.add_assoc v, List.range_eq_range', ← List.range'_append_1,
      Nat.zero_add, Nat.add_right_comm 1, Nat.add_comm (1 + 1), Nat.add_comm rest,
      ← List.range'_append_1, List.range_eq_range']
    rfl
  rw [entered_eq, hSplit, List.foldl_append, List.foldl_cons, List.foldl_cons, foldl_absent,
    foldl_absent]
  · intro u hu
    have hu := List.mem_range.mp hu
    exact hOthers u (by omega) (by omega) (by omega)
  · intro u hu
    have hu := List.mem_range'_1.mp hu
    exact hOthers u (by omega) (by omega) (by omega)

/-- The entries of an adder that only complete neurons enter. -/
theorem entered_complete
    (h : ∀ u < layout.numVNs, layout.roleAt u k p = .absent ∨ layout.roleAt u k p = .plain) :
    (entered layout.neurons (k + 1) p).2 = none ∧
      ((entered layout.neurons (k + 1) p).1 = none ∨
        (entered layout.neurons (k + 1) p).1 = some .add21 ∨
        (entered layout.neurons (k + 1) p).1 = some .fw22) := by
  rw [entered_eq]
  have hList : ∀ u ∈ List.range layout.numVNs,
      layout.roleAt u k p = .absent ∨ layout.roleAt u k p = .plain :=
    fun u hu => h u (List.mem_range.mp hu)
  generalize List.range layout.numVNs = l at hList
  induction l using List.reverseRecOn with
  | nil => exact ⟨rfl, .inl rfl⟩
  | append_singleton l u ih =>
      obtain ⟨hLink, hMode⟩ := ih fun u' hu' => hList u' (List.mem_append_left _ hu')
      rw [List.foldl_append, List.foldl_cons, List.foldl_nil]
      generalize l.foldl (fun entries v => (layout.roleAt v k p).enter entries)
        (none, none) = entries at *
      obtain ⟨cfg, link⟩ := entries
      simp only at hLink hMode
      subst hLink
      rcases hList u (List.mem_append_right _ List.mem_cons_self) with hAbsent | hPlain
      · rw [hAbsent]
        exact ⟨rfl, hMode⟩
      · rw [hPlain]
        refine ⟨rfl, .inr ?_⟩
        cases cfg
        · exact .inl rfl
        · exact .inr rfl

/-- A neuron without bits below an adder does not enter it. -/
theorem roleAt_absent (hv : v < layout.numVNs) (hLeft : ¬layout.Covers v k (2 * p))
    (hRight : ¬layout.Covers v k (2 * p + 1)) : layout.roleAt v k p = .absent := by
  have hOrder := span_ordered hv k
  unfold Covers at *
  exact roleOf_absent (by omega)

end

end Layout

end Stonne
