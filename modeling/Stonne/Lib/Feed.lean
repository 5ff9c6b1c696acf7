import Mathlib.Tactic

/-!
# Components that are called once per input

A component takes an input in every call, moves to its next state and emits a list of
outputs.  `feed` is the sequence of its calls: the state after the last one and everything
that was emitted.
-/

namespace Dataflow

variable {σ τ ι κ ο π : Type*} {fire : σ → ι → σ × List ο}

/-- The calls with the inputs `xs`. -/
def feed (fire : σ → ι → σ × List ο) : σ → List ι → σ × List ο
  | s, [] => (s, [])
  | s, x :: xs =>
    let rest := feed fire (fire s x).1 xs
    (rest.1, (fire s x).2 ++ rest.2)

@[simp]
theorem feed_nil (s : σ) : feed fire s [] = (s, []) := rfl

theorem feed_cons (s : σ) (x : ι) (xs : List ι) :
    feed fire s (x :: xs) =
      ((feed fire (fire s x).1 xs).1, (fire s x).2 ++ (feed fire (fire s x).1 xs).2) := rfl

theorem feed_append (s : σ) (xs ys : List ι) :
    feed fire s (xs ++ ys) =
      ((feed fire (feed fire s xs).1 ys).1,
        (feed fire s xs).2 ++ (feed fire (feed fire s xs).1 ys).2) := by
  induction xs generalizing s with
  | nil => rfl
  | cons x xs ih =>
      rw [List.cons_append, feed_cons, ih, feed_cons, List.append_assoc]

/-- One more call. -/
theorem feed_concat (s : σ) (xs : List ι) (x : ι) :
    feed fire s (xs ++ [x]) =
      ((fire (feed fire s xs).1 x).1, (feed fire s xs).2 ++ (fire (feed fire s xs).1 x).2) := by
  simp [feed_append, feed_cons]

/-- The invariant rule: what holds at first and is kept by every call, for the inputs and the
outputs so far. -/
theorem feed_invariant {I : List ι → σ → List ο → Prop} {s : σ} (hInit : I [] s [])
    (hCall : ∀ xs t out x, I xs t out → I (xs ++ [x]) (fire t x).1 (out ++ (fire t x).2))
    (xs : List ι) :
    I xs (feed fire s xs).1 (feed fire s xs).2 := by
  induction xs using List.reverseRecOn with
  | nil => exact hInit
  | append_singleton xs x ih =>
      rw [feed_concat]
      exact hCall xs _ _ x ih

/-- A call that one component simulates on another is simulated in every sequence of calls.
The relation `Good` is kept by the simulated component. -/
theorem feed_simulates (Good : σ → Prop) {fire' : τ → κ → τ × List π} {f : σ → τ} {g : ι → κ}
    {h : ο → π} (hKept : ∀ s x, Good s → Good (fire s x).1)
    (hCall : ∀ s x, Good s → fire' (f s) (g x) = (f (fire s x).1, (fire s x).2.map h))
    {s : σ} (hGood : Good s) (xs : List ι) :
    feed fire' (f s) (xs.map g) = (f (feed fire s xs).1, (feed fire s xs).2.map h) := by
  induction xs generalizing s with
  | nil => rfl
  | cons x xs ih =>
      have hRest := ih (hKept s x hGood)
      rw [List.map_cons, feed_cons, hCall s x hGood, feed_cons, hRest, List.map_append]

end Dataflow
