import Mathlib.Data.List.Range
import Mathlib.Tactic

/-!
# Parts of a stream

A stream is given by its values `f 0, f 1, ...`.  `picked P f n` is the part of its
first `n` values at the positions in `P`, in order.  A consumer that takes the values
of a stream from two channels in turn sees such a part on each of them; the lemmas say
what it finds next on a channel.
-/

namespace Dataflow

variable {α : Type*}

/-- The first `n` values of a stream at the positions in `P`. -/
def picked (P : Nat → Bool) (f : Nat → α) (n : Nat) : List α :=
  ((List.range n).filter P).map f

section

variable {P Q : Nat → Bool} {f g : Nat → α} {n N : Nat}

@[simp]
theorem picked_zero : picked P f 0 = [] := rfl

theorem picked_succ (P : Nat → Bool) (f : Nat → α) (n : Nat) :
    picked P f (n + 1) = picked P f n ++ if P n then [f n] else [] := by
  rw [picked, List.range_succ, List.filter_append, List.map_append]
  congr 1
  cases h : P n with
  | true => simp [h]
  | false => simp [h]

theorem picked_succ_of_true (f : Nat → α) (h : P n = true) :
    picked P f (n + 1) = picked P f n ++ [f n] := by
  rw [picked_succ, if_pos h]

theorem picked_succ_of_false (f : Nat → α) (h : P n = false) :
    picked P f (n + 1) = picked P f n := by
  rw [picked_succ, h]
  simp

theorem picked_all (f : Nat → α) (n : Nat) :
    picked (fun _ => true) f n = (List.range n).map f := by
  simp [picked]

theorem picked_none (f : Nat → α) (n : Nat) : picked (fun _ => false) f n = [] := by
  simp [picked]

theorem picked_congr (hP : ∀ j < n, P j = Q j) (hf : ∀ j < n, P j = true → f j = g j) :
    picked P f n = picked Q g n := by
  induction n with
  | zero => rfl
  | succ n ih =>
      rw [picked_succ, picked_succ, ih (fun j hj => hP j (by omega)) fun j hj => hf j (by omega),
        ← hP n (by omega)]
      cases h : P n with
      | true => simp [hf n (by omega) h]
      | false => simp

/-- The part of a stream whose beginning is cut off. -/
theorem picked_add (P : Nat → Bool) (f : Nat → α) (a n : Nat) :
    picked P f (a + n) = picked P f a ++ picked (fun j => P (a + j)) (fun j => f (a + j)) n := by
  induction n with
  | zero => simp
  | succ n ih => rw [← Nat.add_assoc, picked_succ, ih, picked_succ, List.append_assoc]

theorem picked_mono (P : Nat → Bool) (f : Nat → α) (h : n ≤ N) :
    picked P f n <+: picked P f N := by
  obtain ⟨k, rfl⟩ := Nat.exists_eq_add_of_le h
  rw [picked_add]
  exact List.prefix_append _ _

theorem picked_sublist (P : Nat → Bool) (f : Nat → α) (n : Nat) :
    (picked P f n).Sublist ((List.range n).map f) :=
  List.filter_sublist.map f

/-- A channel that is not drained holds a value of a later position. -/
theorem lt_of_picked_append_cons {a : α} {rest : List α}
    (h : picked P f n ++ a :: rest <+: picked P f N) : n < N := by
  by_contra hMore
  have hLength := (h.trans (picked_mono P f (show N ≤ n by omega))).length_le
  rw [List.length_append, List.length_cons] at hLength
  omega

/-- The next value on a channel is the one of the next position. -/
theorem eq_of_picked_append_cons {a : α} {rest : List α}
    (h : picked P f n ++ a :: rest <+: picked P f N) (hP : P n = true) : a = f n := by
  have hNext := picked_mono P f (lt_of_picked_append_cons h)
  rw [Nat.succ_eq_add_one, picked_succ_of_true f hP] at hNext
  obtain ⟨t, ht⟩ := h
  obtain ⟨t', ht'⟩ := hNext
  have hEq := ht.trans ht'.symm
  rw [List.append_assoc, List.append_assoc, List.append_cancel_left_eq] at hEq
  exact (List.cons.inj hEq).1

/-- A drained channel on which the next position is due has seen all positions. -/
theorem le_of_picked_eq (h : picked P f n = picked P f N) (hP : P n = true) : N ≤ n := by
  by_contra hMore
  have hNext := (picked_mono P f (show n + 1 ≤ N by omega)).length_le
  rw [picked_succ_of_true f hP, h, List.length_append, List.length_singleton] at hNext
  omega

end

end Dataflow
