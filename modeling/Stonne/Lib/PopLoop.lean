import Mathlib.Tactic

/-!
# Loops that pop a queue

Two loops pop an element in every round and count the rounds up to the size of the queue.
`popTimes` keeps the size that the queue had before the loop.  `popBelow` reads the size in
every round: it falls while the index rises, so the loop stops half way.

A pop of the empty queue is `none`.
-/

namespace Dataflow

variable {σ α : Type*} {apply : σ → α → σ}

/-- `for (i = 0; i < count; i++)` with a pop in every round. -/
def popTimes (apply : σ → α → σ) : Nat → List α → σ → Option (List α × σ)
  | 0, queue, s => some (queue, s)
  | _ + 1, [], _ => none
  | count + 1, x :: queue, s => popTimes apply count queue (apply s x)

/-- `for (; i < queue.size(); i++)` with a pop in every round. -/
def popBelow (apply : σ → α → σ) : Nat → List α → σ → Option (List α × σ)
  | _, [], s => some ([], s)
  | i, x :: queue, s =>
    if i < queue.length + 1 then popBelow apply (i + 1) queue (apply s x)
    else some (x :: queue, s)

/-- The loop whose bound is the size before it. -/
def popAll (apply : σ → α → σ) (queue : List α) (s : σ) : Option (List α × σ) :=
  popTimes apply queue.length queue s

/-- A bound that was read before the loop reaches every element. -/
theorem popAll_eq (queue : List α) (s : σ) :
    popAll apply queue s = some ([], queue.foldl apply s) := by
  induction queue generalizing s with
  | nil => rfl
  | cons x queue ih => exact ih (apply s x)

/-- A bound that is read in every round: index and size meet half way. -/
theorem popBelow_eq (i : Nat) (queue : List α) (s : σ) :
    popBelow apply i queue s =
      some (queue.drop ((queue.length + 1 - i) / 2),
        (queue.take ((queue.length + 1 - i) / 2)).foldl apply s) := by
  induction queue generalizing i s with
  | nil => simp [popBelow]
  | cons x queue ih =>
      rw [popBelow]
      rcases Nat.lt_or_ge i (queue.length + 1) with hBelow | hReached
      · have hRounds : ((x :: queue).length + 1 - i) / 2 =
            (queue.length + 1 - (i + 1)) / 2 + 1 := by
          rw [List.length_cons]
          omega
        rw [if_pos hBelow, ih, hRounds, List.drop_succ_cons, List.take_succ_cons,
          List.foldl_cons]
      · have hNone : ((x :: queue).length + 1 - i) / 2 = 0 := by
          rw [List.length_cons]
          omega
        rw [if_neg (Nat.not_lt.mpr hReached), hNone]
        rfl

/-- A loop over a queue takes all of it and applies it in its order. -/
def Drains (loop : List α → σ → Option (List α × σ)) (apply : σ → α → σ) (queue : List α)
    (s : σ) : Prop :=
  loop queue s = some ([], queue.foldl apply s)

theorem drains_popAll (queue : List α) (s : σ) :
    Drains (popAll apply) apply queue s :=
  popAll_eq queue s

theorem drains_popBelow_iff (queue : List α) (s : σ) :
    Drains (popBelow apply 0) apply queue s ↔ queue.length ≤ 1 := by
  rw [Drains, popBelow_eq]
  constructor
  · intro h
    have hLeft := congrArg List.length (congrArg Prod.fst (Option.some.inj h))
    rw [List.length_drop, List.length_nil] at hLeft
    omega
  · intro hFew
    rw [List.drop_eq_nil_of_le (by omega)]
    rcases Nat.eq_zero_or_pos queue.length with hNone | hOne
    · rw [List.length_eq_zero_iff.mp hNone, List.take_nil]
    · rw [List.take_of_length_le (by omega)]

/-! ## Phases -/

/-- A phase of a run: elements arrive behind those that are left, and the loop runs. -/
def popPhase (loop : List α → σ → Option (List α × σ)) (st : List α × σ) (arrived : List α) :
    Option (List α × σ) :=
  loop (st.1 ++ arrived) st.2

/-- No phase of a run leaves an element for the next one. -/
def KeepsUp (loop : List α → σ → Option (List α × σ)) (apply : σ → α → σ)
    (trace : List (List α)) (s : σ) : Prop :=
  ∀ n, (trace.take n).foldlM (popPhase loop) ([], s) =
    some ([], (trace.take n).flatten.foldl apply s)

theorem keepsUp_cons_iff {loop : List α → σ → Option (List α × σ)} {arrived : List α}
    {trace : List (List α)} {s : σ} :
    KeepsUp loop apply (arrived :: trace) s ↔
      Drains loop apply arrived s ∧ KeepsUp loop apply trace (arrived.foldl apply s) := by
  have hPhase : popPhase loop ([], s) arrived = loop arrived s := rfl
  constructor
  · intro h
    have hFirst : Drains loop apply arrived s := by
      have hOne := h 1
      rw [Drains]
      simpa [List.foldlM_cons, hPhase] using hOne
    refine ⟨hFirst, ?_⟩
    intro n
    have hNext := h (n + 1)
    rw [List.take_succ_cons, List.foldlM_cons, hPhase, hFirst, List.flatten_cons,
      List.foldl_append] at hNext
    exact hNext
  · rintro ⟨hFirst, hRest⟩ n
    cases n with
    | zero => rfl
    | succ n =>
        rw [List.take_succ_cons, List.foldlM_cons, hPhase, hFirst, List.flatten_cons,
          List.foldl_append]
        exact hRest n

theorem keepsUp_popAll (trace : List (List α)) (s : σ) :
    KeepsUp (popAll apply) apply trace s := by
  induction trace generalizing s with
  | nil => exact fun n => by simp
  | cons arrived trace ih => exact keepsUp_cons_iff.mpr ⟨drains_popAll arrived s, ih _⟩

theorem keepsUp_popBelow_iff (trace : List (List α)) (s : σ) :
    KeepsUp (popBelow apply 0) apply trace s ↔ ∀ arrived ∈ trace, arrived.length ≤ 1 := by
  induction trace generalizing s with
  | nil => exact ⟨fun _ => by simp, fun _ n => by simp⟩
  | cons arrived trace ih =>
      rw [keepsUp_cons_iff, drains_popBelow_iff, ih, List.forall_mem_cons]

/-- Nothing is left of a queue after `n` phases without arrivals. -/
def EmptyAfter (loop : List α → σ → Option (List α × σ)) (n : Nat) (queue : List α) (s : σ) :
    Prop :=
  ∃ s', (List.replicate n []).foldlM (popPhase loop) (queue, s) = some ([], s')

theorem emptyAfter_succ_iff {loop : List α → σ → Option (List α × σ)} {n : Nat}
    {queue rest : List α} {s s' : σ} (hLoop : loop queue s = some (rest, s')) :
    EmptyAfter loop (n + 1) queue s ↔ EmptyAfter loop n rest s' := by
  rw [EmptyAfter, EmptyAfter, List.replicate_succ, List.foldlM_cons, popPhase,
    List.append_nil, hLoop]
  rfl

/-- Every phase halves what is left. -/
theorem emptyAfter_popBelow_iff (n : Nat) (queue : List α) (s : σ) :
    EmptyAfter (popBelow apply 0) n queue s ↔ queue.length < 2 ^ n := by
  induction n generalizing queue s with
  | zero => simp [EmptyAfter]
  | succ n ih =>
      rw [emptyAfter_succ_iff (popBelow_eq 0 queue s), ih, List.length_drop, pow_succ]
      omega

theorem emptyAfter_popAll_iff (n : Nat) (queue : List α) (s : σ) :
    EmptyAfter (popAll apply) n queue s ↔
      queue = [] ∨ 0 < n := by
  induction n generalizing queue s with
  | zero => simp [EmptyAfter]
  | succ n ih =>
      rw [emptyAfter_succ_iff (popAll_eq queue s), ih]
      simp

/-- The two loops need the same number of phases exactly for a queue of at most one element. -/
theorem emptyAfter_agree_iff {τ : Type*} {apply' : τ → α → τ} (queue : List α) (s : σ) (t : τ) :
    (∀ n, EmptyAfter (popBelow apply 0) n queue s ↔
        EmptyAfter (popAll apply') n queue t) ↔
      queue.length ≤ 1 := by
  constructor
  · intro h
    have hOne := (h 1).mpr ((emptyAfter_popAll_iff 1 queue t).mpr (Or.inr Nat.one_pos))
    have hFew := (emptyAfter_popBelow_iff 1 queue s).mp hOne
    omega
  · intro hFew n
    rw [emptyAfter_popBelow_iff, emptyAfter_popAll_iff]
    rcases Nat.eq_zero_or_pos n with rfl | hn
    · rw [pow_zero, Nat.lt_one_iff, List.length_eq_zero_iff]
      simp
    · have hTwo := Nat.one_lt_two_pow (Nat.pos_iff_ne_zero.mp hn)
      exact ⟨fun _ => Or.inr hn, fun _ => hFew.trans_lt hTwo⟩

end Dataflow
