import Mathlib.Tactic

/-!
# Round-robin service

`count` queues are served in turn: a search starts at a cursor, takes the head of the first
queue that is not empty and leaves the cursor behind that queue.  Elements may arrive at any
queue before every search.

Nothing is lost and every queue keeps its order (`left_append_queue`).  A queue that is never
empty is served within `count` searches (`exists_served_within`), since every search that
serves another queue moves the cursor towards it.
-/

namespace Dataflow

structure RoundRobin (α : Type*) where
  queues : Nat → List α := fun _ => []
  cursor : Nat := 0

namespace RoundRobin

variable {α : Type*} {count : Nat}

/-- The queue that a search finds. -/
def found (count : Nat) (a : RoundRobin α) : Option Nat :=
  ((List.range count).map fun k => (a.cursor + k) % count).find? fun i => !(a.queues i).isEmpty

/-- The state behind a search. -/
def serve (count : Nat) (a : RoundRobin α) : RoundRobin α :=
  match a.found count with
  | none => a
  | some i =>
    { queues := Function.update a.queues i (a.queues i).tail
      cursor := (i + 1) % count }

/-- The elements that a search takes. -/
def taken (count : Nat) (a : RoundRobin α) : List α :=
  match a.found count with
  | none => []
  | some i => (a.queues i).head?.toList

def arrive (count : Nat) (a : RoundRobin α) (arrived : Nat → List α) : RoundRobin α :=
  { a with queues := fun i => if i < count then a.queues i ++ arrived i else a.queues i }

/-! ## One search -/

theorem found_spec {a : RoundRobin α} {i : Nat} (h : a.found count = some i) :
    a.queues i ≠ [] ∧ ∃ k < count, i = (a.cursor + k) % count ∧
      ∀ j < k, a.queues ((a.cursor + j) % count) = [] := by
  obtain ⟨hFull, before, after, hSplit, hEmpty⟩ := List.find?_eq_some_iff_append.mp h
  have hLength := congrArg List.length hSplit
  simp only [List.length_map, List.length_range, List.length_append, List.length_cons] at hLength
  have hAt : ∀ j < count, (before ++ i :: after)[j]? = some ((a.cursor + j) % count) := by
    intro j hj
    rw [← hSplit, List.getElem?_map, List.getElem?_range hj]
    rfl
  refine ⟨by simpa using hFull, before.length, by omega, ?_, ?_⟩
  · have hHere := hAt before.length (by omega)
    rw [List.getElem?_append_right (Nat.le_refl _), Nat.sub_self] at hHere
    exact Option.some.inj hHere
  · intro j hj
    have hThere := hAt j (by omega)
    rw [List.getElem?_append_left hj] at hThere
    simpa using hEmpty _ (List.mem_of_getElem? hThere)

/-- Every queue is some places behind the cursor. -/
theorem exists_offset {cursor i : Nat} (hCursor : cursor < count) (hi : i < count) :
    ∃ d < count, i = (cursor + d) % count := by
  rcases Nat.lt_or_ge i cursor with hBefore | hBehind
  · refine ⟨i + count - cursor, by omega, ?_⟩
    rw [show cursor + (i + count - cursor) = i + count by omega, Nat.add_mod_right,
      Nat.mod_eq_of_lt hi]
  · refine ⟨i - cursor, by omega, ?_⟩
    rw [Nat.add_sub_of_le hBehind, Nat.mod_eq_of_lt hi]

theorem found_eq_none_iff {a : RoundRobin α} (hCursor : a.cursor < count) :
    a.found count = none ↔ ∀ i < count, a.queues i = [] := by
  rw [found, List.find?_eq_none]
  constructor
  · intro h i hi
    obtain ⟨d, hd, hAt⟩ := exists_offset hCursor hi
    have hEmpty := h i (List.mem_map.mpr ⟨d, List.mem_range.mpr hd, hAt.symm⟩)
    simpa using hEmpty
  · intro h i hMem
    obtain ⟨d, -, rfl⟩ := List.mem_map.mp hMem
    simp [h _ (Nat.mod_lt _ (Nat.zero_lt_of_lt hCursor))]

theorem found_lt {a : RoundRobin α} {i : Nat} (h : a.found count = some i) : i < count := by
  obtain ⟨-, k, hk, rfl, -⟩ := found_spec h
  exact Nat.mod_lt _ (Nat.zero_lt_of_lt hk)

theorem serve_cursor {a : RoundRobin α} (hCursor : a.cursor < count) :
    (a.serve count).cursor < count := by
  rw [serve]
  split
  · exact hCursor
  · exact Nat.mod_lt _ (Nat.zero_lt_of_lt hCursor)

/-- What a search takes from a queue is its head. -/
theorem taken_append_tail (a : RoundRobin α) (i : Nat) :
    (if a.found count = some i then a.taken count else []) ++ (a.serve count).queues i =
      a.queues i := by
  rw [taken, serve]
  cases h : a.found count with
  | none => rfl
  | some j =>
      rcases eq_or_ne j i with rfl | hOther
      · obtain ⟨hFull, -⟩ := found_spec h
        simp only [if_true, Function.update_self]
        cases hQueue : a.queues j with
        | nil => exact absurd hQueue hFull
        | cons x rest => rfl
      · simp [hOther, hOther.symm]

theorem length_taken (count : Nat) (a : RoundRobin α) :
    (a.taken count).length = if (a.found count).isSome then 1 else 0 := by
  rw [taken]
  cases h : a.found count with
  | none => rfl
  | some j =>
      obtain ⟨hFull, -⟩ := found_spec h
      cases hQueue : a.queues j with
      | nil => exact absurd hQueue hFull
      | cons x rest => simp [hQueue]

/-- A search that serves another queue than one that waits moves the cursor towards it. -/
theorem serve_approaches {a : RoundRobin α} {i d : Nat} (hd : d < count)
    (hAt : i = (a.cursor + d) % count) (hFull : a.queues i ≠ []) :
    a.found count = some i ∨
      ∃ d' < d, i = ((a.serve count).cursor + d') % count := by
  cases h : a.found count with
  | none =>
      have hEmpty := List.find?_eq_none.mp h i
        (List.mem_map.mpr ⟨d, List.mem_range.mpr hd, hAt.symm⟩)
      exact absurd (by simpa using hEmpty) hFull
  | some j =>
      obtain ⟨-, k, hk, rfl, hBefore⟩ := found_spec h
      rcases Nat.lt_trichotomy d k with hLess | rfl | hMore
      · exact absurd (hAt ▸ hBefore d hLess) hFull
      · exact Or.inl (congrArg some hAt.symm)
      · refine Or.inr ⟨d - k - 1, by omega, ?_⟩
        have hCursor : (a.serve count).cursor = ((a.cursor + k) % count + 1) % count := by
          rw [serve, h]
        rw [hCursor, Nat.mod_add_mod, Nat.add_assoc, Nat.mod_add_mod, hAt]
        congr 1
        omega

/-! ## Runs -/

section

variable (count) (arrivals : Nat → Nat → List α)

/-- The state behind `n` searches, with the elements of `arrivals m` before search `m`. -/
def after : Nat → RoundRobin α
  | 0 => {}
  | n + 1 => ((after n).arrive count (arrivals n)).serve count

/-- The state in which search `n` looks for a queue. -/
def before (n : Nat) : RoundRobin α :=
  (after count arrivals n).arrive count (arrivals n)

/-- What arrived at a queue before the first `n` searches. -/
def arrivedUpTo (i n : Nat) : List α :=
  (List.range n).flatMap fun m => arrivals m i

/-- What the first `n` searches took from a queue. -/
def leftUpTo (i n : Nat) : List α :=
  (List.range n).flatMap fun m =>
    if (before count arrivals m).found count = some i then (before count arrivals m).taken count
    else []

variable {count arrivals}

theorem after_succ (n : Nat) :
    after count arrivals (n + 1) = (before count arrivals n).serve count := rfl

theorem after_cursor (hCount : 1 ≤ count) (arrivals : Nat → Nat → List α) (n : Nat) :
    (after count arrivals n).cursor < count := by
  induction n with
  | zero => exact hCount
  | succ n ih => exact serve_cursor (show (before count arrivals n).cursor < count from ih)

theorem leftUpTo_succ (i n : Nat) :
    leftUpTo count arrivals i (n + 1) = leftUpTo count arrivals i n ++
      if (before count arrivals n).found count = some i then (before count arrivals n).taken count
      else [] := by
  rw [leftUpTo, List.range_succ, List.flatMap_append, List.flatMap_singleton]
  rfl

theorem arrivedUpTo_succ (i n : Nat) :
    arrivedUpTo arrivals i (n + 1) = arrivedUpTo arrivals i n ++ arrivals n i := by
  rw [arrivedUpTo, List.range_succ, List.flatMap_append, List.flatMap_singleton]
  rfl

/-- What left a queue, followed by what waits in it, is what arrived at it. -/
theorem left_append_queue (arrivals : Nat → Nat → List α) {i : Nat} (hi : i < count) (n : Nat) :
    leftUpTo count arrivals i n ++ (after count arrivals n).queues i =
      arrivedUpTo arrivals i n := by
  induction n with
  | zero => rfl
  | succ n ih =>
      have hBefore : (before count arrivals n).queues i =
          (after count arrivals n).queues i ++ arrivals n i := if_pos hi
      rw [leftUpTo_succ, after_succ, List.append_assoc, taken_append_tail, hBefore,
        ← List.append_assoc, ih, arrivedUpTo_succ]

/-- A queue that waits `d` places behind the cursor is served by one of `d + 1` searches. -/
theorem exists_served {i d n : Nat} (hd : d < count)
    (hAt : i = ((after count arrivals n).cursor + d) % count)
    (hFull : ∀ m, n ≤ m → m ≤ n + d → (before count arrivals m).queues i ≠ []) :
    ∃ m, n ≤ m ∧ m ≤ n + d ∧ (before count arrivals m).found count = some i := by
  induction d using Nat.strong_induction_on generalizing n with
  | _ d ih =>
      have hNow := hFull n (Nat.le_refl n) (Nat.le_add_right n d)
      rcases @serve_approaches _ _ (before count arrivals n) _ _ hd hAt hNow with
        hServed | ⟨d', hCloser, hNext⟩
      · exact ⟨n, Nat.le_refl n, Nat.le_add_right n d, hServed⟩
      · obtain ⟨m, hFrom, hTo, hServed⟩ := ih d' hCloser (n := n + 1) (hCloser.trans hd) hNext
          fun m hFrom hTo => hFull m (by omega) (by omega)
        exact ⟨m, by omega, by omega, hServed⟩

/-- A queue that waits before each of `count` searches is served by one of them. -/
theorem exists_served_within (hCount : 1 ≤ count) {i n : Nat} (hi : i < count)
    (hFull : ∀ m, n ≤ m → m < n + count → (before count arrivals m).queues i ≠ []) :
    ∃ m, n ≤ m ∧ m < n + count ∧ (before count arrivals m).found count = some i := by
  obtain ⟨d, hd, hAt⟩ := exists_offset (after_cursor hCount arrivals n) hi
  obtain ⟨m, hFrom, hTo, hServed⟩ := exists_served hd hAt fun m hFrom hTo =>
    hFull m hFrom (by omega)
  exact ⟨m, hFrom, by omega, hServed⟩

theorem leftUpTo_mono (count : Nat) (arrivals : Nat → Nat → List α) (i : Nat) {n m : Nat}
    (h : n ≤ m) :
    (leftUpTo count arrivals i n).length ≤ (leftUpTo count arrivals i m).length := by
  induction m, h using Nat.le_induction with
  | base => exact Nat.le_refl _
  | succ m _ ih =>
      rw [leftUpTo_succ, List.length_append]
      omega

theorem arrivedUpTo_mono (arrivals : Nat → Nat → List α) (i : Nat) {n m : Nat} (h : n ≤ m) :
    (arrivedUpTo arrivals i n).length ≤ (arrivedUpTo arrivals i m).length := by
  induction m, h using Nat.le_induction with
  | base => exact Nat.le_refl _
  | succ m _ ih =>
      rw [arrivedUpTo_succ, List.length_append]
      omega

/-- Either everything that arrived has left, or one more element leaves. -/
theorem exists_one_more (arrivals : Nat → Nat → List α) (hCount : 1 ≤ count) {i : Nat}
    (hi : i < count) (n : Nat) :
    ∃ m, n ≤ m ∧ ((leftUpTo count arrivals i m).length = (arrivedUpTo arrivals i m).length ∨
      (leftUpTo count arrivals i n).length < (leftUpTo count arrivals i m).length) := by
  by_cases hFull : ∀ m, n ≤ m → m < n + count → (before count arrivals m).queues i ≠ []
  · obtain ⟨m, hFrom, -, hServed⟩ := exists_served_within hCount hi hFull
    refine ⟨m + 1, by omega, Or.inr ?_⟩
    have hTaken := length_taken count (before count arrivals m)
    rw [hServed] at hTaken
    have hMono := leftUpTo_mono count arrivals i hFrom
    rw [leftUpTo_succ, if_pos hServed, List.length_append, hTaken]
    exact Nat.lt_succ_of_le hMono
  · push Not at hFull
    obtain ⟨m, hFrom, -, hEmpty⟩ := hFull
    refine ⟨m, hFrom, Or.inl ?_⟩
    have hSplit := congrArg List.length (left_append_queue arrivals hi m)
    have hBefore : (before count arrivals m).queues i =
        (after count arrivals m).queues i ++ arrivals m i := if_pos hi
    rw [hEmpty] at hBefore
    rw [(List.append_eq_nil_iff.mp hBefore.symm).1, List.append_nil] at hSplit
    exact hSplit

/-- An element that arrived leaves. -/
theorem exists_left (hCount : 1 ≤ count) {i : Nat} (hi : i < count) {n k : Nat}
    (hArrived : k < (arrivedUpTo arrivals i n).length) :
    ∃ m, k < (leftUpTo count arrivals i m).length := by
  -- `k` elements have left at some time, and one more leaves or all that arrived have left
  have hBefore : ∀ j ≤ k, ∃ m, n ≤ m ∧ j ≤ (leftUpTo count arrivals i m).length := by
    intro j
    induction j with
    | zero => exact fun _ => ⟨n, Nat.le_refl n, Nat.zero_le _⟩
    | succ j ih =>
        intro hj
        obtain ⟨m, hFrom, hLeft⟩ := ih (by omega)
        obtain ⟨m', hLater, hAll | hMore⟩ := exists_one_more arrivals hCount hi m
        · have hMono := arrivedUpTo_mono arrivals i (hFrom.trans hLater)
          exact ⟨m', hFrom.trans hLater, by omega⟩
        · exact ⟨m', hFrom.trans hLater, by omega⟩
  obtain ⟨m, hFrom, hLeft⟩ := hBefore k (Nat.le_refl k)
  obtain ⟨m', hLater, hAll | hMore⟩ := exists_one_more arrivals hCount hi m
  · have hMono := arrivedUpTo_mono arrivals i (hFrom.trans hLater)
    exact ⟨m', by omega⟩
  · exact ⟨m', by omega⟩

end

end RoundRobin

end Dataflow
