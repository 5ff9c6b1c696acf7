import Mathlib.Tactic

/-!
# Sequences of assignments

A list of assignments is carried out from left to right.  A part of the state that all of
them leave alone is kept, a part that one of them writes and the others leave alone holds
what was written, and assignments that commute may be carried out in any order.
-/

namespace Dataflow

variable {σ ι γ : Type*} {assign : σ → ι → σ} {read : σ → γ}

theorem foldl_keeps {xs : List ι} (hKeeps : ∀ x ∈ xs, ∀ s, read (assign s x) = read s) (s : σ) :
    read (xs.foldl assign s) = read s := by
  induction xs generalizing s with
  | nil => rfl
  | cons x xs ih =>
      rw [List.foldl_cons, ih fun y hMem => hKeeps y (List.mem_cons_of_mem x hMem)]
      exact hKeeps x List.mem_cons_self s

/-- An assignment that turns `P` into `Q` leaves `Q` behind when all assignments keep both. -/
theorem foldl_establishes {P Q : σ → Prop} {xs : List ι} {x : ι} (hMem : x ∈ xs)
    (hTurns : ∀ s, P s → Q (assign s x)) (hP : ∀ y ∈ xs, ∀ s, P s → P (assign s y))
    (hQ : ∀ y ∈ xs, ∀ s, Q s → Q (assign s y)) {s : σ} (h : P s) : Q (xs.foldl assign s) := by
  induction xs generalizing s with
  | nil => exact absurd hMem List.not_mem_nil
  | cons y xs ih =>
      rw [List.foldl_cons]
      have hLater : ∀ s, Q s → Q (xs.foldl assign s) := fun s hs =>
        List.foldlRecOn xs assign hs fun t ht z hz => hQ z (List.mem_cons_of_mem y hz) t ht
      rcases List.mem_cons.mp hMem with rfl | hMem
      · exact hLater _ (hTurns s h)
      · exact ih hMem (fun z hz => hP z (List.mem_cons_of_mem y hz))
          (fun z hz => hQ z (List.mem_cons_of_mem y hz)) (hP y List.mem_cons_self s h)

/-- The only assignment that writes a part of the state determines it. -/
theorem foldl_writes {xs : List ι} {x : ι} {value : γ} (hMem : x ∈ xs)
    (hWrites : ∀ s, read (assign s x) = value)
    (hKeeps : ∀ y ∈ xs, y ≠ x → ∀ s, read (assign s y) = read s) (s : σ) :
    read (xs.foldl assign s) = value := by
  refine @foldl_establishes _ _ assign (fun _ => True) (fun s => read s = value) xs x hMem
    (fun s _ => hWrites s) (fun _ _ _ h => h) (fun y hy t ht => ?_) s trivial
  rcases eq_or_ne y x with rfl | hOther
  · exact hWrites t
  · rw [hKeeps y hy hOther, ht]

/-- The order of assignments does not matter to a part of the state in which they commute. -/
theorem foldl_perm {assign' : γ → ι → γ} (hRead : ∀ s x, read (assign s x) = assign' (read s) x)
    {xs ys : List ι} (hPerm : xs.Perm ys)
    (hCommutes : ∀ x ∈ xs, ∀ y ∈ xs, ∀ t, assign' (assign' t x) y = assign' (assign' t y) x)
    (s : σ) : read (xs.foldl assign s) = read (ys.foldl assign s) := by
  have hHom : ∀ zs : List ι, read (zs.foldl assign s) = zs.foldl assign' (read s) := fun zs =>
    (List.foldl_hom read fun s x => (hRead s x).symm).symm
  rw [hHom, hHom]
  exact hPerm.foldl_eq' (fun x hx y hy t => hCommutes x hx y hy t) (read s)

end Dataflow
