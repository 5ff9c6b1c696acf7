import Mathlib.Algebra.BigOperators.Intervals
import Mathlib.Tactic

/-!
# Segments of a stream

A queue between a producer and a consumer of one stream holds the items that
were produced and not yet consumed.  `seg f a b` is that content for the stream
`f` when `a` items were consumed and `b` were produced.  The lemmas say how a
segment changes when either counter moves.
-/

namespace Dataflow

variable {α β : Type*}

/-- The items `f a, …, f (b - 1)` of the stream `f`. -/
def seg (f : Nat → α) (a b : Nat) : List α :=
  (List.range' a (b - a)).map f

@[simp]
theorem length_seg (f : Nat → α) (a b : Nat) :
    (seg f a b).length = b - a := by
  simp [seg]

@[simp]
theorem seg_self (f : Nat → α) (a : Nat) :
    seg f a a = [] := by
  simp [seg]

theorem seg_of_le (f : Nat → α) {a b : Nat} (h : b ≤ a) :
    seg f a b = [] := by
  simp [seg, Nat.sub_eq_zero_of_le h]

theorem seg_eq_nil_iff (f : Nat → α) (a b : Nat) :
    seg f a b = [] ↔ b ≤ a := by
  rw [← List.length_eq_zero_iff, length_seg]
  omega

/-- Consuming takes the oldest item. -/
theorem seg_cons (f : Nat → α) {a b : Nat} (h : a < b) :
    seg f a b = f a :: seg f (a + 1) b := by
  have hLength : b - a = (b - (a + 1)) + 1 := by omega
  rw [seg, hLength, List.range'_succ, List.map_cons, seg]

/-- Segments of adjacent ranges concatenate. -/
theorem seg_append (f : Nat → α) {a b c : Nat} (hab : a ≤ b) (hbc : b ≤ c) :
    seg f a b ++ seg f b c = seg f a c := by
  have hLength : c - a = (b - a) + (c - b) := by omega
  have hMiddle : a + (b - a) = b := by omega
  rw [seg, seg, seg, hLength, ← List.map_append, ← List.range'_append_1, hMiddle]

/-- Producing appends the next item. -/
theorem seg_succ (f : Nat → α) {a b : Nat} (h : a ≤ b) :
    seg f a (b + 1) = seg f a b ++ [f b] := by
  rw [← seg_append f h (Nat.le_succ b), seg_cons f (Nat.lt_succ_self b), seg_self]

theorem seg_singleton (f : Nat → α) (a : Nat) :
    seg f a (a + 1) = [f a] := by
  rw [seg_succ f le_rfl, seg_self, List.nil_append]

@[simp]
theorem map_seg (g : α → β) (f : Nat → α) (a b : Nat) :
    (seg f a b).map g = seg (fun n => g (f n)) a b := by
  simp [seg, Function.comp_def]

theorem seg_zero_eq_map_range (f : Nat → α) (b : Nat) :
    seg f 0 b = (List.range b).map f := by
  simp [seg, List.range_eq_range']

/-- What has come first of a stream. -/
theorem seg_prefix {f : Nat → α} {l l' : List α} {n : Nat} (h : l ++ l' = seg f 0 n) :
    l = seg f 0 l.length := by
  have hLength : l.length ≤ n := by
    have hAll := congrArg List.length h
    rw [List.length_append, length_seg] at hAll
    omega
  rw [← seg_append f (Nat.zero_le l.length) hLength] at h
  exact (List.append_inj h (by rw [length_seg, Nat.sub_zero])).1

/-- What waits at a consumer that has used `n` items of the stream `f`, after `r` has come. -/
structure Waiting (f : Nat → α) (n : Nat) (r queue : List α) : Prop where
  stream : r = seg f 0 r.length
  queue_eq : queue = seg f n r.length
  used : n ≤ r.length

section

variable {f : Nat → α} {n : Nat} {r queue : List α}

theorem Waiting.start (f : Nat → α) : Waiting f 0 [] [] :=
  ⟨rfl, rfl, le_rfl⟩

/-- More of the stream arrives. -/
theorem Waiting.arrive (h : Waiting f n r queue) {new : List α}
    (hNew : r ++ new = seg f 0 (r ++ new).length) : Waiting f n (r ++ new) (queue ++ new) := by
  have hMore : r.length ≤ (r ++ new).length := by
    rw [List.length_append]
    exact Nat.le_add_right _ _
  have hRest : new = seg f r.length (r ++ new).length := by
    refine List.append_cancel_left (?_ : r ++ new = r ++ _)
    nth_rewrite 2 [h.stream]
    rw [seg_append f (Nat.zero_le _) hMore, ← hNew]
  refine ⟨hNew, ?_, h.used.trans hMore⟩
  nth_rewrite 1 [hRest]
  rw [h.queue_eq, seg_append f h.used hMore]

/-- A consumer has used everything, or it finds the next item. -/
theorem Waiting.cases (h : Waiting f n r queue) : n = r.length ∧ queue = [] ∨
    n < r.length ∧ ∃ rest, queue = f n :: rest ∧ Waiting f (n + 1) r rest := by
  obtain ⟨hStream, hQueue, hUsed⟩ := h
  rcases Nat.lt_or_ge n r.length with hLess | hAll
  · exact .inr ⟨hLess, seg f (n + 1) r.length, by rw [hQueue, seg_cons f hLess],
      hStream, rfl, hLess⟩
  · exact .inl ⟨Nat.le_antisymm hUsed hAll, by rw [hQueue, seg_of_le f hAll]⟩

/-- A consumer that uses the next item, if it has come. -/
theorem Waiting.next (h : Waiting f n r queue) : ∃ n', n ≤ n' ∧ min (n + 1) r.length ≤ n' ∧
    Waiting f n' r queue.tail ∧ queue.take 1 = seg f n n' := by
  rcases h.cases with ⟨hAll, rfl⟩ | ⟨hLess, rest, rfl, hRest⟩
  · refine ⟨n, le_rfl, by omega, h, ?_⟩
    rw [seg_self]
    rfl
  · refine ⟨n + 1, Nat.le_succ n, Nat.min_le_left _ _, hRest, ?_⟩
    rw [seg_singleton]
    rfl

/-- A consumer that uses everything that has come. -/
theorem Waiting.all (h : Waiting f n r queue) : Waiting f r.length r [] :=
  ⟨h.stream, (seg_self f _).symm, le_rfl⟩

end

end Dataflow
