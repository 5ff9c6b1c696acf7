import Mathlib.Logic.Function.Iterate
import Mathlib.Tactic

/-!
# Runs of a deterministic machine

A machine is a step function and a test that stops it.  `Reachable` collects the
states of its run up to and including the first stopped one, and `LeadsTo` says
that a class of states is left for another one after finitely many steps.
-/

namespace Dataflow

variable {σ : Type*}

/-- The states of the run from `init`, the last of them the first that satisfies
`halted`. -/
def Reachable (step : σ → σ) (halted : σ → Prop) (init s : σ) : Prop :=
  ∃ n, (∀ m < n, ¬halted (step^[m] init)) ∧ step^[n] init = s

section

variable {step : σ → σ} {halted : σ → Prop} {init : σ}

theorem Reachable.refl : Reachable step halted init init :=
  ⟨0, by simp, rfl⟩

theorem Reachable.next {s : σ} (h : Reachable step halted init s)
    (hRunning : ¬halted s) :
    Reachable step halted init (step s) := by
  obtain ⟨n, hBefore, rfl⟩ := h
  refine ⟨n + 1, ?_, Function.iterate_succ_apply' step n init⟩
  intro m hm
  rcases Nat.lt_succ_iff_lt_or_eq.mp hm with hLt | rfl
  · exact hBefore m hLt
  · exact hRunning

/-- The induction principle of a run: the initial state has the property and
every step from a state that is not stopped keeps it. -/
theorem Reachable.invariant {P : σ → Prop} (hInit : P init)
    (hStep : ∀ s, ¬halted s → P s → P (step s)) {s : σ}
    (h : Reachable step halted init s) :
    P s := by
  obtain ⟨n, hBefore, rfl⟩ := h
  induction n with
  | zero => exact hInit
  | succ n ih =>
      rw [Function.iterate_succ_apply']
      have hPrefix := ih fun m hm => hBefore m (Nat.lt_succ_of_lt hm)
      exact hStep _ (hBefore n (Nat.lt_succ_self n)) hPrefix

end

/-- From every state of `P` the machine is in a state of `Q` after finitely many
steps. -/
def LeadsTo (step : σ → σ) (P Q : σ → Prop) : Prop :=
  ∀ s, P s → ∃ n, Q (step^[n] s)

namespace LeadsTo

variable {step : σ → σ} {P Q R : σ → Prop}

theorem trans (hPQ : LeadsTo step P Q) (hQR : LeadsTo step Q R) :
    LeadsTo step P R := by
  intro s hs
  obtain ⟨n, hn⟩ := hPQ s hs
  obtain ⟨m, hm⟩ := hQR _ hn
  refine ⟨m + n, ?_⟩
  rw [Function.iterate_add_apply]
  exact hm

end LeadsTo

end Dataflow
