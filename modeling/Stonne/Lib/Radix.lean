import Mathlib.Tactic

/-!
# Numbers in a mixed radix

Nested loops number their rounds by `a * b + c` with `c < b`.  Two digits determine
such a number and the number determines its digits, and a loop all of whose rounds but
one contribute nothing is that round.
-/

namespace Dataflow

theorem radix_lt {a b c n : Nat} (ha : a < n) (hc : c < b) : a * b + c < n * b :=
  calc a * b + c < a * b + b := Nat.add_lt_add_left hc _
    _ = (a + 1) * b := (Nat.succ_mul a b).symm
    _ ≤ n * b := Nat.mul_le_mul_right b ha

/-- The last of `n` rows ends with the grid. -/
theorem radix_last {n : Nat} (hn : 0 < n) (b : Nat) : (n - 1) * b + b = n * b := by
  rw [← Nat.succ_mul]
  congr 1
  exact Nat.succ_pred_eq_of_pos hn

/-- The last number has the last digits. -/
theorem radix_last_digit {n b : Nat} (hn : 0 < n) (hb : 0 < b) :
    (n - 1) * b + (b - 1) = n * b - 1 := by
  have hLast := radix_last hn b
  omega

theorem radix_div {a b c : Nat} (hc : c < b) : (a * b + c) / b = a := by
  rw [Nat.mul_comm, Nat.mul_add_div (by omega), Nat.div_eq_of_lt hc, Nat.add_zero]

theorem radix_mod {a b c : Nat} (hc : c < b) : (a * b + c) % b = c := by
  rw [Nat.mul_comm, Nat.mul_add_mod, Nat.mod_eq_of_lt hc]

theorem radix_inj {a b c a' c' : Nat} (hc : c < b) (hc' : c' < b)
    (h : a * b + c = a' * b + c') : a = a' ∧ c = c' := by
  constructor
  · rw [← @radix_div a b c hc, h, radix_div hc']
  · rw [← @radix_mod a b c hc, h, radix_mod hc']

/-- The two digits of a number are its quotient and its remainder. -/
theorem radix_eq_iff {a b c m : Nat} (hc : c < b) : a * b + c = m ↔ c = m % b ∧ a = m / b := by
  constructor
  · rintro rfl
    exact ⟨(radix_mod hc).symm, (radix_div hc).symm⟩
  · rintro ⟨rfl, rfl⟩
    rw [Nat.mul_comm]
    exact Nat.div_add_mod m b

/-- Every number below `n * b` has two digits. -/
theorem exists_radix {b n m : Nat} (h : m < n * b) : ∃ a < n, ∃ c < b, m = a * b + c := by
  have hb : 0 < b := by
    apply Nat.pos_of_ne_zero
    rintro rfl
    omega
  refine ⟨m / b, (Nat.div_lt_iff_lt_mul hb).mpr h, m % b, Nat.mod_lt m hb, ?_⟩
  rw [Nat.mul_comm]
  exact (Nat.div_add_mod m b).symm

/-- The next number when the last digit is not yet the largest. -/
theorem succ_of_lt {b q : Nat} (h : q % b + 1 < b) :
    (q + 1) % b = q % b + 1 ∧ (q + 1) / b = q / b := by
  have hSplit := Nat.div_add_mod q b
  have hNext : q + 1 = q / b * b + (q % b + 1) := by
    rw [Nat.mul_comm]
    omega
  rw [hNext]
  exact ⟨radix_mod h, radix_div h⟩

/-- The next number when the last digit is the largest: it starts again with a carry. -/
theorem succ_of_eq {b q : Nat} (h : q % b + 1 = b) :
    (q + 1) % b = 0 ∧ (q + 1) / b = q / b + 1 := by
  have hb : 0 < b := by omega
  have hSplit := Nat.div_add_mod q b
  have hNext : q + 1 = (q / b + 1) * b + 0 := by
    rw [Nat.succ_mul, Nat.mul_comm]
    omega
  rw [hNext]
  exact ⟨radix_mod hb, radix_div hb⟩

/-- A loop in which only round `j` contributes. -/
theorem flatMap_range_single {α : Type*} {f : Nat → List α} {n j : Nat} (hj : j < n)
    (h : ∀ i < n, i ≠ j → f i = []) : (List.range n).flatMap f = f j := by
  induction n with
  | zero => omega
  | succ n ih =>
      rw [List.range_succ, List.flatMap_append, List.flatMap_singleton]
      rcases Nat.lt_succ_iff_lt_or_eq.mp hj with hBefore | rfl
      · rw [ih hBefore fun i hi hne => h i (by omega) hne, h n (by omega) (by omega),
          List.append_nil]
      · have hNone : (List.range j).flatMap f = [] := by
          rw [List.flatMap_eq_nil_iff]
          intro i hi
          have hLess := List.mem_range.mp hi
          exact h i (by omega) (by omega)
        rw [hNone, List.nil_append]

/-- Two nested loops that fill a table block by block. -/
theorem foldl_radix_update {α : Type*} {n b : Nat} (f : Nat → Nat → α) (table : Nat → α)
    (m : Nat) :
    (List.range n).foldl (fun table i => (List.range b).foldl
        (fun table j => Function.update table (i * b + j) (f i j)) table) table m =
      if m < n * b then f (m / b) (m % b) else table m := by
  have hBlock : ∀ (i k : Nat) (table : Nat → α), k ≤ b →
      (List.range k).foldl (fun table j => Function.update table (i * b + j) (f i j)) table m =
        if i * b ≤ m ∧ m < i * b + k then f i (m % b) else table m := by
    intro i k table hk
    induction k with
    | zero =>
        rw [if_neg (by omega)]
        rfl
    | succ k ih =>
        rw [List.range_succ, List.foldl_append, List.foldl_cons, List.foldl_nil]
        by_cases hm : m = i * b + k
        · have hMod : m % b = k := by
            rw [hm]
            exact radix_mod (by omega)
          rw [hm, Function.update_self, ← hm, if_pos (by omega), hMod]
        · rw [Function.update_of_ne hm, ih (by omega)]
          congr 1
          apply propext
          omega
  induction n with
  | zero => simp
  | succ n ih =>
      rw [List.range_succ, List.foldl_append, List.foldl_cons, List.foldl_nil,
        hBlock n b _ le_rfl, ih]
      have hNext : (n + 1) * b = n * b + b := Nat.succ_mul n b
      rcases lt_or_ge m (n * b) with hBefore | hAfter
      · rw [if_neg (by omega), if_pos hBefore, if_pos (by omega)]
      · by_cases hHere : m < n * b + b
        · have hDiv : m / b = n := by
            rw [Nat.div_eq_of_lt_le hAfter (by omega)]
          rw [if_pos ⟨hAfter, hHere⟩, if_pos (by omega), hDiv]
        · rw [if_neg (by omega), if_neg (by omega), if_neg (by omega)]

end Dataflow
