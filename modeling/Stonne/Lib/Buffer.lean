import Mathlib.Tactic

/-!
# Buffers with bounds

A buffer is the list of its cells.  An access outside of the buffer has no result, so a loop
that has one stays inside.  `rangeLoop_invariant` is the rule for a counting loop whose body
may fail.
-/

namespace Dataflow

variable {α σ : Type*}

/-- Writing a cell of a buffer. -/
def writeCell (buffer : List α) (i : Nat) (x : α) : Option (List α) :=
  if i < buffer.length then some (buffer.set i x) else none

theorem writeCell_of_lt {buffer : List α} {i : Nat} (hi : i < buffer.length) (x : α) :
    writeCell buffer i x = some (buffer.set i x) :=
  if_pos hi

/-- The loop `for (i = 0; i < n; i++)`. -/
def rangeLoop (body : σ → Nat → Option σ) (n : Nat) (s : σ) : Option σ :=
  (List.range n).foldlM body s

/-- The invariant rule: a body that succeeds and moves the invariant by one round. -/
theorem rangeLoop_invariant {body : σ → Nat → Option σ} (I : Nat → σ → Prop) {n : Nat} {s : σ}
    (hInit : I 0 s) (hBody : ∀ i < n, ∀ s, I i s → ∃ s', body s i = some s' ∧ I (i + 1) s') :
    ∃ s', rangeLoop body n s = some s' ∧ I n s' := by
  induction n with
  | zero => exact ⟨s, rfl, hInit⟩
  | succ n ih =>
      obtain ⟨t, hRun, ht⟩ := ih fun i hi => hBody i (Nat.lt_succ_of_lt hi)
      obtain ⟨s', hLast, hs'⟩ := hBody n (Nat.lt_succ_self n) t ht
      refine ⟨s', ?_, hs'⟩
      rw [rangeLoop] at hRun ⊢
      rw [List.range_succ, List.foldlM_append, hRun]
      simp [hLast]

/-- The cells in front of `i` hold the values of `f`. -/
structure FilledTo (n : Nat) (f : Nat → α) (i : Nat) (buffer : List α) : Prop where
  length : buffer.length = n
  cell : ∀ j < i, buffer[j]? = some (f j)

variable {n : Nat} {f : Nat → α} {buffer : List α}

theorem FilledTo.zero (hLength : buffer.length = n) : FilledTo n f 0 buffer :=
  ⟨hLength, fun _ hj => absurd hj (Nat.not_lt_zero _)⟩

theorem FilledTo.write {i : Nat} (h : FilledTo n f i buffer) (hi : i < n) :
    writeCell buffer i (f i) = some (buffer.set i (f i)) ∧
      FilledTo n f (i + 1) (buffer.set i (f i)) := by
  have hInside : i < buffer.length := h.length ▸ hi
  refine ⟨writeCell_of_lt hInside _, ?_, ?_⟩
  · rw [List.length_set, h.length]
  · intro j hj
    rcases eq_or_ne j i with rfl | hOther
    · exact List.getElem?_set_self hInside
    · rw [List.getElem?_set_ne hOther.symm]
      exact h.cell j (by omega)

theorem FilledTo.eq_map (h : FilledTo n f n buffer) : buffer = (List.range n).map f := by
  apply List.ext_getElem?
  intro j
  rcases Nat.lt_or_ge j n with hInside | hOutside
  · rw [h.cell j hInside, List.getElem?_map, List.getElem?_range hInside]
    rfl
  · rw [List.getElem?_eq_none (h.length.symm ▸ hOutside), List.getElem?_eq_none (by simpa)]

end Dataflow
