import Mathlib.Data.List.Range

/-!
# Places in a stream

A stream that keeps some elements of a list, or joins the streams of several parts, has
every element at a place that can be counted: by the kept elements before it, or by the
lengths of the parts before its own.
-/

namespace Dataflow

section

variable {α : Type*}

/-- A list without repetitions in which only `a` is kept. -/
theorem filter_eq_singleton {l : List α} {p : α → Bool} {a : α} (hNodup : l.Nodup) (ha : a ∈ l)
    (h : ∀ b ∈ l, p b = true ↔ b = a) : l.filter p = [a] := by
  induction l with
  | nil => cases ha
  | cons b l ih =>
      obtain ⟨hFirst, hNodup⟩ := List.nodup_cons.mp hNodup
      rcases List.mem_cons.mp ha with rfl | hLater
      · rw [List.filter_cons_of_pos ((h a List.mem_cons_self).mpr rfl), List.filter_eq_nil_iff.mpr]
        intro b hb hMark
        rw [(h b (List.mem_cons_of_mem _ hb)).mp hMark] at hb
        exact hFirst hb
      · have hOther : ¬p b = true := by
          intro hMark
          rw [(h b List.mem_cons_self).mp hMark] at hFirst
          exact hFirst hLater
        rw [List.filter_cons_of_neg hOther,
          ih hNodup hLater fun c hc => h c (List.mem_cons_of_mem _ hc)]

/-- Where an element stands among those that are filtered out. -/
theorem getElem?_filter_take {l : List α} {p : α → Bool} {n : Nat} {a : α}
    (h : l[n]? = some a) (ha : p a = true) :
    (l.filter p)[((l.take n).filter p).length]? = some a := by
  obtain ⟨hLess, hGet⟩ := List.getElem?_eq_some_iff.mp h
  have hSplit : l = l.take n ++ a :: l.drop (n + 1) := by
    rw [← hGet, List.getElem_cons_drop, List.take_append_drop]
  nth_rewrite 1 [hSplit]
  rw [List.filter_append, List.filter_cons_of_pos ha, List.getElem?_append_right le_rfl,
    Nat.sub_self, List.getElem?_cons_zero]

end

theorem getD_map_range {α : Type*} {n i : Nat} (hi : i < n) (f : Nat → α) (d : α) :
    ((List.range n).map f).getD i d = f i := by
  rw [List.getD_eq_getElem?_getD, List.getElem?_map, List.getElem?_range hi, Option.map_some,
    Option.getD_some]

section

variable {α : Type*} (part : Nat → List α)

/-- Where part `i` begins in the stream of all parts. -/
def offset (i : Nat) : Nat :=
  ((List.range i).flatMap part).length

@[simp] theorem offset_zero : offset part 0 = 0 := rfl

theorem offset_succ (i : Nat) : offset part (i + 1) = offset part i + (part i).length := by
  rw [offset, List.range_succ, List.flatMap_append, List.length_append, List.flatMap_singleton]
  rfl

theorem offset_le_mul {b : Nat} (h : ∀ i, (part i).length ≤ b) (n : Nat) :
    offset part n ≤ n * b := by
  induction n with
  | zero => exact Nat.zero_le _
  | succ n ih =>
      rw [offset_succ, Nat.succ_mul]
      exact Nat.add_le_add ih (h n)

/-- An element of a part in the stream of all parts. -/
theorem getElem?_flatMap_range {i n r : Nat} (hi : i < n) (hr : r < (part i).length) :
    ((List.range n).flatMap part)[offset part i + r]? = (part i)[r]? := by
  obtain ⟨k, rfl⟩ := Nat.exists_eq_add_of_lt hi
  have hSplit : (List.range (i + k + 1)).flatMap part =
      (List.range i).flatMap part ++ (part i ++
        ((List.range k).map fun j => i + 1 + j).flatMap part) := by
    rw [show i + k + 1 = i + 1 + k by omega, List.range_add, List.flatMap_append, List.range_succ,
      List.flatMap_append, List.flatMap_singleton, List.append_assoc]
  rw [hSplit, offset, List.getElem?_append_right (Nat.le_add_right _ _),
    Nat.add_sub_cancel_left, List.getElem?_append_left hr]

end

end Dataflow
