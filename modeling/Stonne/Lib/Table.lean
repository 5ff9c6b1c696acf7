import Mathlib.Data.List.Range
import Mathlib.Logic.Function.Basic

/-!
# Loops over a table

The components of a machine stand in tables.  A loop over such a table that changes
the entry of each round and nothing else is a change of every entry at once.
-/

namespace Dataflow

variable {α : Type*}

/-- A loop whose round `i` applies `update i` to entry `i`. -/
theorem foldl_range_table {round : (Nat → α) → Nat → Nat → α} (update : Nat → α → α)
    (hRound : ∀ table i, round table i = Function.update table i (update i (table i)))
    (n : Nat) (table : Nat → α) (j : Nat) :
    (List.range n).foldl round table j =
      if j < n then update j (table j) else table j := by
  induction n generalizing j with
  | zero => simp
  | succ n ih =>
      rw [List.range_succ, List.foldl_append, List.foldl_cons, List.foldl_nil, hRound]
      rcases lt_trichotomy j n with hLess | rfl | hMore
      · rw [Function.update_of_ne (by omega), ih, if_pos hLess, if_pos (by omega)]
      · rw [Function.update_self, ih, if_neg (by omega), if_pos (by omega)]
      · rw [Function.update_of_ne (by omega), ih, if_neg (by omega), if_neg (by omega)]

section

variable {ι κ : Type*} [DecidableEq κ] (key : ι → κ) (value : ι → α)

/-- A loop that writes entries: an entry that is never written keeps its value. -/
theorem foldl_update_of_forall_ne {entries : List ι} (table : κ → α) {k : κ}
    (h : ∀ a ∈ entries, key a ≠ k) :
    entries.foldl (fun table a => Function.update table (key a) (value a)) table k = table k := by
  induction entries generalizing table with
  | nil => rfl
  | cons a entries ih =>
      rw [List.foldl_cons, ih _ fun b hb => h b (List.mem_cons_of_mem _ hb),
        Function.update_of_ne (h a List.mem_cons_self).symm]

/-- An entry that is written, and always with the same value, has this value. -/
theorem foldl_update_of_exists {entries : List ι} (table : κ → α) {k : κ} {b : α}
    (hWritten : ∃ a ∈ entries, key a = k) (hValue : ∀ a ∈ entries, key a = k → value a = b) :
    entries.foldl (fun table a => Function.update table (key a) (value a)) table k = b := by
  induction entries generalizing table with
  | nil =>
      obtain ⟨a, ha, -⟩ := hWritten
      cases ha
  | cons a entries ih =>
      rw [List.foldl_cons]
      have hLater : ∀ c ∈ entries, key c = k → value c = b := fun c hc =>
        hValue c (List.mem_cons_of_mem _ hc)
      by_cases hAgain : ∃ c ∈ entries, key c = k
      · exact ih _ hAgain hLater
      · obtain ⟨c, hc, hKey⟩ := hWritten
        rcases List.mem_cons.mp hc with rfl | hMem
        · rw [foldl_update_of_forall_ne key value _ fun d hd hSame => hAgain ⟨d, hd, hSame⟩, ← hKey,
            Function.update_self, hValue c List.mem_cons_self hKey]
        · exact absurd ⟨c, hMem, hKey⟩ hAgain

/-- A loop that gives the marked entries consecutive numbers. -/
def numberMarked (marked : ι → Bool) (st : (κ → Nat) × Nat) (a : ι) : (κ → Nat) × Nat :=
  if marked a then (Function.update st.1 (key a) st.2, st.2 + 1) else st

theorem foldl_numberMarked_of_forall_ne {marked : ι → Bool} {entries : List ι}
    (st : (κ → Nat) × Nat) {k : κ} (h : ∀ a ∈ entries, key a ≠ k) :
    (entries.foldl (numberMarked key marked) st).1 k = st.1 k := by
  induction entries generalizing st with
  | nil => rfl
  | cons a entries ih =>
      rw [List.foldl_cons, ih _ fun b hb => h b (List.mem_cons_of_mem _ hb), numberMarked]
      split
      · exact Function.update_of_ne (h a List.mem_cons_self).symm _ _
      · rfl

/-- The number of a marked entry: how many marked entries come before it. -/
theorem foldl_numberMarked_apply {marked : ι → Bool} {before after : List ι} {a : ι}
    (table : κ → Nat) (n : Nat) (hMarked : marked a = true) (hAfter : ∀ b ∈ after, key b ≠ key a) :
    ((before ++ a :: after).foldl (numberMarked key marked) (table, n)).1 (key a) =
      n + before.countP marked := by
  induction before generalizing table n with
  | nil =>
      rw [List.nil_append, List.foldl_cons, foldl_numberMarked_of_forall_ne key _ hAfter,
        numberMarked,
        if_pos hMarked]
      exact Function.update_self _ _ _
  | cons b before ih =>
      rw [List.cons_append, List.foldl_cons, numberMarked, List.countP_cons]
      split
      · rw [ih, Nat.add_assoc, Nat.add_comm 1]
      · rw [ih, Nat.add_zero]

end

end Dataflow
