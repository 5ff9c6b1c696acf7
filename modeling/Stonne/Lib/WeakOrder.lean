import Mathlib.Tactic

/-!
# Strict weak orders on a set

A comparison is used as an order of the elements that occur, which need not be all elements of
its type.  `tolerantLess` compares two values and breaks the tie of near values by another
order.  Nearness is not transitive, so this is an order only if no chain of near elements leads
the tie-break against the values.

`insertUnique` is the insertion into a sorted sequence without equivalent elements, and
`selectMax` the loop that keeps the greatest element so far.
-/

namespace Dataflow

variable {α : Type*}

/-! ## Weak orders -/

/-- Neither of two elements is less than the other. -/
def Incomparable (less : α → α → Prop) (a b : α) : Prop :=
  ¬less a b ∧ ¬less b a

structure StrictWeakOrderOn (less : α → α → Prop) (S : Set α) : Prop where
  irrefl : ∀ a ∈ S, ¬less a a
  asymm : ∀ a ∈ S, ∀ b ∈ S, less a b → ¬less b a
  trans : ∀ a ∈ S, ∀ b ∈ S, ∀ c ∈ S, less a b → less b c → less a c
  incomparable_trans : ∀ a ∈ S, ∀ b ∈ S, ∀ c ∈ S,
    Incomparable less a b → Incomparable less b c → Incomparable less a c

/-- An asymmetric comparison in which a third element is never between the two sides of a pair
without separating it. -/
structure SeparatesOn (less : α → α → Prop) (S : Set α) : Prop where
  asymm : ∀ a ∈ S, ∀ b ∈ S, less a b → ¬less b a
  separates : ∀ a ∈ S, ∀ b ∈ S, ∀ c ∈ S, less a c → less a b ∨ less b c

variable {less : α → α → Prop} {S : Set α}

theorem strictWeakOrderOn_iff : StrictWeakOrderOn less S ↔ SeparatesOn less S := by
  constructor
  · intro h
    refine ⟨h.asymm, ?_⟩
    intro a ha b hb c hc hac
    by_contra hNeither
    obtain ⟨hab, hbc⟩ := not_or.mp hNeither
    have hba : ¬less b a := fun hba => hbc (h.trans b hb a ha c hc hba hac)
    have hcb : ¬less c b := fun hcb => hab (h.trans a ha c hc b hb hac hcb)
    exact (h.incomparable_trans a ha b hb c hc ⟨hab, hba⟩ ⟨hbc, hcb⟩).1 hac
  · intro h
    refine ⟨?_, h.asymm, ?_, ?_⟩
    · intro a ha haa
      exact h.asymm a ha a ha haa haa
    · intro a ha b hb c hc hab hbc
      rcases h.separates a ha c hc b hb hab with hac | hcb
      · exact hac
      · exact absurd hcb (h.asymm b hb c hc hbc)
    · rintro a ha b hb c hc ⟨hab, hba⟩ ⟨hbc, hcb⟩
      constructor
      · intro hac
        exact (h.separates a ha b hb c hc hac).elim hab hbc
      · intro hca
        exact (h.separates c hc b hb a ha hca).elim hcb hba

theorem StrictWeakOrderOn.congr {less' : α → α → Prop} (h : StrictWeakOrderOn less S)
    (hSame : ∀ a ∈ S, ∀ b ∈ S, less a b ↔ less' a b) :
    StrictWeakOrderOn less' S := by
  have hSeparates := strictWeakOrderOn_iff.mp h
  apply strictWeakOrderOn_iff.mpr
  constructor
  · intro a ha b hb
    rw [← hSame a ha b hb, ← hSame b hb a ha]
    exact hSeparates.asymm a ha b hb
  · intro a ha b hb c hc
    rw [← hSame a ha c hc, ← hSame a ha b hb, ← hSame b hb c hc]
    exact hSeparates.separates a ha b hb c hc

/-- The comparison of a key in a linear order. -/
theorem strictWeakOrderOn_key {β : Type*} [LinearOrder β] (key : α → β) (S : Set α) :
    StrictWeakOrderOn (fun a b => key a < key b) S := by
  apply strictWeakOrderOn_iff.mpr
  constructor
  · intro a _ b _ hab hba
    exact lt_asymm hab hba
  · intro a _ b _ c _ hac
    exact (lt_or_ge (key a) (key b)).imp_right fun hba => hba.trans_lt hac

/-! ## Comparisons with a tolerance -/

section

variable {R : Type*} [Field R] [LinearOrder R] [IsStrictOrderedRing R]

/-- The values of two elements differ by less than the tolerance. -/
def Near (tolerance : R) (value : α → R) (a b : α) : Prop :=
  |value a - value b| < tolerance

/-- Near elements are compared by the tie-break, the others by their values. -/
def tolerantLess (tolerance : R) (value : α → R) (tie : α → α → Prop) (a b : α) : Prop :=
  (Near tolerance value a b ∧ tie a b) ∨ (¬Near tolerance value a b ∧ value a < value b)

/-- The tie-break does not lead against the values along two near pairs. -/
def ChainsAgree (tolerance : R) (value : α → R) (tie : α → α → Prop) (S : Set α) : Prop :=
  ∀ a ∈ S, ∀ b ∈ S, ∀ c ∈ S, Near tolerance value a b → Near tolerance value b c →
    ¬Near tolerance value a c → value a < value c → tie a b ∨ tie b c

variable {tolerance : R} {value : α → R} {tie : α → α → Prop}

omit [IsStrictOrderedRing R] in
theorem near_comm {a b : α} : Near tolerance value a b ↔ Near tolerance value b a := by
  rw [Near, Near, abs_sub_comm]

private theorem gap_of_not_near {a b : α} (hFar : ¬Near tolerance value a b)
    (hLess : value a < value b) : value a + tolerance ≤ value b := by
  rw [Near, not_lt, abs_sub_comm, abs_of_pos (sub_pos.mpr hLess)] at hFar
  linarith

private theorem close_of_near {a b : α} (hNear : Near tolerance value a b) :
    value a < value b + tolerance ∧ value b < value a + tolerance := by
  obtain ⟨hLow, hHigh⟩ := abs_lt.mp hNear
  constructor <;> linarith

private theorem lt_or_gt_of_not_near (hTolerance : 0 < tolerance) {a b : α}
    (hFar : ¬Near tolerance value a b) : value a < value b ∨ value b < value a := by
  rcases lt_trichotomy (value a) (value b) with hLess | hEq | hMore
  · exact Or.inl hLess
  · exact absurd (by rwa [Near, hEq, sub_self, abs_zero]) hFar
  · exact Or.inr hMore

omit [IsStrictOrderedRing R] in
theorem tolerantLess_asymm (hTie : ∀ a ∈ S, ∀ b ∈ S, tie a b → ¬tie b a) :
    ∀ a ∈ S, ∀ b ∈ S, tolerantLess tolerance value tie a b →
      ¬tolerantLess tolerance value tie b a := by
  rintro a ha b hb (⟨hNear, hab⟩ | ⟨hFar, hab⟩) (⟨hNear', hba⟩ | ⟨hFar', hba⟩)
  · exact hTie a ha b hb hab hba
  · exact hFar' (near_comm.mp hNear)
  · exact hFar (near_comm.mp hNear')
  · exact lt_asymm hab hba

/-- A near pair and a far one: the third element is outside the pair, on one of its sides. -/
private theorem separates_near (hTolerance : 0 < tolerance)
    (hTie : StrictWeakOrderOn tie S) (hChains : ChainsAgree tolerance value tie S)
    {a b c : α} (ha : a ∈ S) (hb : b ∈ S) (hc : c ∈ S) (hNear : Near tolerance value a c)
    (hac : tie a c) :
    tolerantLess tolerance value tie a b ∨ tolerantLess tolerance value tie b c := by
  have hSeparates := strictWeakOrderOn_iff.mp hTie
  by_cases hab : Near tolerance value a b
  · by_cases hbc : Near tolerance value b c
    · exact (hSeparates.separates a ha b hb c hc hac).imp (fun h => Or.inl ⟨hab, h⟩)
        fun h => Or.inl ⟨hbc, h⟩
    · rcases lt_or_gt_of_not_near hTolerance hbc with hLess | hMore
      · exact Or.inr (Or.inr ⟨hbc, hLess⟩)
      · have hChain := hChains c hc a ha b hb (near_comm.mp hNear) hab
          (fun h => hbc (near_comm.mp h)) hMore
        exact Or.inl (Or.inl ⟨hab, hChain.resolve_left (hTie.asymm a ha c hc hac)⟩)
  · rcases lt_or_gt_of_not_near hTolerance hab with hLess | hMore
    · exact Or.inl (Or.inr ⟨hab, hLess⟩)
    · by_cases hbc : Near tolerance value b c
      · have hChain := hChains b hb c hc a ha hbc (near_comm.mp hNear)
          (fun h => hab (near_comm.mp h)) hMore
        exact Or.inr (Or.inl ⟨hbc, hChain.resolve_right (hTie.asymm a ha c hc hac)⟩)
      · rcases lt_or_gt_of_not_near hTolerance hbc with hLess | hBelow
        · exact Or.inr (Or.inr ⟨hbc, hLess⟩)
        · have hGap := gap_of_not_near (fun h => hab (near_comm.mp h)) hMore
          have hGap' := gap_of_not_near (fun h => hbc (near_comm.mp h)) hBelow
          have hClose := close_of_near hNear
          linarith [hClose.1]

/-- A comparison with a tolerance is a strict weak order exactly when the chains agree. -/
theorem tolerantLess_iff (hTolerance : 0 < tolerance) (hTie : StrictWeakOrderOn tie S) :
    StrictWeakOrderOn (tolerantLess tolerance value tie) S ↔
      ChainsAgree tolerance value tie S := by
  constructor
  · intro h a ha b hb c hc hab hbc hFar hLess
    rcases (strictWeakOrderOn_iff.mp h).separates a ha b hb c hc (Or.inr ⟨hFar, hLess⟩) with
      (⟨-, hTied⟩ | ⟨hNot, -⟩) | (⟨-, hTied⟩ | ⟨hNot, -⟩)
    · exact Or.inl hTied
    · exact absurd hab hNot
    · exact Or.inr hTied
    · exact absurd hbc hNot
  · intro hChains
    apply strictWeakOrderOn_iff.mpr
    refine ⟨tolerantLess_asymm hTie.asymm, ?_⟩
    rintro a ha b hb c hc (⟨hNear, hac⟩ | ⟨hFar, hac⟩)
    · exact separates_near hTolerance hTie hChains ha hb hc hNear hac
    · by_cases hab : Near tolerance value a b
      · by_cases hbc : Near tolerance value b c
        · exact (hChains a ha b hb c hc hab hbc hFar hac).imp (fun h => Or.inl ⟨hab, h⟩)
            fun h => Or.inl ⟨hbc, h⟩
        · rcases lt_or_gt_of_not_near hTolerance hbc with hLess | hMore
          · exact Or.inr (Or.inr ⟨hbc, hLess⟩)
          · have hGap := gap_of_not_near hFar hac
            have hClose := close_of_near hab
            linarith [hClose.2]
      · rcases lt_or_gt_of_not_near hTolerance hab with hLess | hMore
        · exact Or.inl (Or.inr ⟨hab, hLess⟩)
        · by_cases hbc : Near tolerance value b c
          · have hGap := gap_of_not_near hFar hac
            have hClose := close_of_near hbc
            linarith [hClose.2]
          · exact Or.inr (Or.inr ⟨hbc, hMore.trans hac⟩)

end

/-! ## Sorted sequences without equivalent elements -/

/-- Insertion, unless an equivalent element is there. -/
def insertUnique (less : α → α → Bool) (x : α) : List α → List α
  | [] => [x]
  | y :: ys =>
    if less x y then x :: y :: ys
    else if less y x then y :: insertUnique less x ys
    else y :: ys

section

variable {less : α → α → Bool}

theorem mem_insertUnique {x y : α} {ys : List α} (h : y ∈ insertUnique less x ys) :
    y = x ∨ y ∈ ys := by
  induction ys with
  | nil => exact Or.inl (List.mem_singleton.mp h)
  | cons z zs ih =>
      rw [insertUnique] at h
      split at h
      · exact List.mem_cons.mp h
      · split at h
        · rcases List.mem_cons.mp h with rfl | hTail
          · exact Or.inr List.mem_cons_self
          · exact (ih hTail).imp_right (List.mem_cons_of_mem z)
        · exact Or.inr h

theorem insertUnique_keeps {x y : α} {ys : List α} (h : y ∈ ys) :
    y ∈ insertUnique less x ys := by
  induction ys with
  | nil => cases h
  | cons z zs ih =>
      rw [insertUnique]
      split
      · exact List.mem_cons_of_mem x h
      · split
        · rcases List.mem_cons.mp h with rfl | hTail
          · exact List.mem_cons_self
          · exact List.mem_cons_of_mem z (ih hTail)
        · exact h

/-- The element is there afterwards when only itself is equivalent to it. -/
theorem insertUnique_self {x : α} {ys : List α}
    (hOnly : ∀ y ∈ ys, Incomparable (fun a b => less a b = true) x y → y = x) :
    x ∈ insertUnique less x ys := by
  induction ys with
  | nil => exact List.mem_singleton.mpr rfl
  | cons z zs ih =>
      rw [insertUnique]
      split
      · exact List.mem_cons_self
      · rename_i hxz
        split
        · exact List.mem_cons_of_mem z (ih fun y hy => hOnly y (List.mem_cons_of_mem z hy))
        · rename_i hzx
          obtain rfl := hOnly z List.mem_cons_self ⟨hxz, hzx⟩
          exact List.mem_cons_self

theorem pairwise_insertUnique {S : Set α}
    (hOrder : StrictWeakOrderOn (fun a b => less a b = true) S) {x : α} {ys : List α}
    (hx : x ∈ S) (hys : ∀ y ∈ ys, y ∈ S)
    (hSorted : ys.Pairwise fun a b => less a b = true) :
    (insertUnique less x ys).Pairwise fun a b => less a b = true := by
  induction ys with
  | nil => exact List.pairwise_singleton _ x
  | cons z zs ih =>
      have hz := hys z List.mem_cons_self
      have hzs : ∀ y ∈ zs, y ∈ S := fun y hy => hys y (List.mem_cons_of_mem z hy)
      obtain ⟨hHead, hTail⟩ := List.pairwise_cons.mp hSorted
      rw [insertUnique]
      split
      · rename_i hxz
        refine List.pairwise_cons.mpr ⟨?_, hSorted⟩
        intro y hy
        rcases List.mem_cons.mp hy with rfl | hLater
        · exact hxz
        · exact hOrder.trans x hx z hz y (hzs y hLater) hxz (hHead y hLater)
      · split
        · rename_i hzx
          refine List.pairwise_cons.mpr ⟨?_, ih hzs hTail⟩
          intro y hy
          rcases mem_insertUnique hy with rfl | hLater
          · exact hzx
          · exact hHead y hLater
        · exact hSorted

/-- The set that is filled by inserting the elements of a list. -/
def sortedSet (less : α → α → Bool) (xs : List α) : List α :=
  xs.foldl (fun s x => insertUnique less x s) []

theorem sortedSet_concat (xs : List α) (x : α) :
    sortedSet less (xs ++ [x]) = insertUnique less x (sortedSet less xs) := by
  rw [sortedSet, List.foldl_concat]
  rfl

theorem mem_of_mem_sortedSet {xs : List α} {y : α} (h : y ∈ sortedSet less xs) : y ∈ xs := by
  induction xs using List.reverseRecOn with
  | nil => exact h
  | append_singleton xs x ih =>
      rw [sortedSet_concat] at h
      rcases mem_insertUnique h with rfl | hEarlier
      · simp
      · exact List.mem_append_left _ (ih hEarlier)

theorem mem_sortedSet {xs : List α}
    (hOnly : ∀ x ∈ xs, ∀ y ∈ xs, Incomparable (fun a b => less a b = true) x y → y = x)
    {y : α} (h : y ∈ xs) : y ∈ sortedSet less xs := by
  induction xs using List.reverseRecOn with
  | nil => exact h
  | append_singleton xs x ih =>
      rw [sortedSet_concat]
      rcases List.mem_append.mp h with hEarlier | hLast
      · apply insertUnique_keeps
        apply ih _ hEarlier
        intro x' hx' y' hy'
        exact hOnly x' (List.mem_append_left _ hx') y' (List.mem_append_left _ hy')
      · obtain rfl := List.mem_singleton.mp hLast
        apply insertUnique_self
        intro z hz
        exact hOnly y (by simp) z (List.mem_append_left _ (mem_of_mem_sortedSet hz))

theorem pairwise_sortedSet {xs : List α}
    (hOrder : StrictWeakOrderOn (fun a b => less a b = true) {x | x ∈ xs}) :
    (sortedSet less xs).Pairwise fun a b => less a b = true := by
  have hFilled : ∀ ys : List α, (∀ y ∈ ys, y ∈ xs) →
      (sortedSet less ys).Pairwise fun a b => less a b = true := by
    intro ys hys
    induction ys using List.reverseRecOn with
    | nil => exact List.Pairwise.nil
    | append_singleton ys y ih =>
        rw [sortedSet_concat]
        refine pairwise_insertUnique hOrder (hys y (by simp)) ?_
          (ih fun z hz => hys z (List.mem_append_left _ hz))
        intro z hz
        exact hys z (List.mem_append_left _ (mem_of_mem_sortedSet hz))
  exact hFilled xs fun y hy => hy

end

/-! ## The greatest element -/

/-- The first element, replaced by every element that is greater. -/
def selectMax (greater : α → α → Bool) (xs : List α) : Option α :=
  xs.head?.map fun first => xs.foldl (fun best x => if greater x best then x else best) first

/-- For a transitive comparison nothing that was looked at is greater than the result. -/
theorem selectMax_spec {greater : α → α → Bool} {xs : List α} {best : α}
    (hIrrefl : ∀ a ∈ xs, ¬greater a a)
    (hTrans : ∀ a ∈ xs, ∀ b ∈ xs, ∀ c ∈ xs, greater a b → greater b c → greater a c)
    (h : selectMax greater xs = some best) :
    best ∈ xs ∧ ∀ x ∈ xs, ¬greater x best := by
  obtain ⟨first, hFirst, rfl⟩ := Option.map_eq_some_iff.mp h
  have hLoop : ∀ ys : List α, (∀ y ∈ ys, y ∈ xs) →
      ys.foldl (fun best x => if greater x best then x else best) first ∈ xs ∧
        ∀ y ∈ ys, ¬greater y
          (ys.foldl (fun best x => if greater x best then x else best) first) := by
    intro ys hys
    induction ys using List.reverseRecOn with
    | nil => exact ⟨List.mem_of_mem_head? hFirst, by simp⟩
    | append_singleton ys y ih =>
        have hy := hys y (by simp)
        obtain ⟨hMem, hNone⟩ := ih fun z hz => hys z (List.mem_append_left _ hz)
        rw [List.foldl_concat]
        split
        · rename_i hGreater
          refine ⟨hy, ?_⟩
          intro z hz hzy
          rcases List.mem_append.mp hz with hEarlier | hLast
          · exact hNone z hEarlier (hTrans z (hys z hz) y hy _ hMem hzy hGreater)
          · obtain rfl := List.mem_singleton.mp hLast
            exact hIrrefl z hy hzy
        · rename_i hNot
          refine ⟨hMem, ?_⟩
          intro z hz
          rcases List.mem_append.mp hz with hEarlier | hLast
          · exact hNone z hEarlier
          · obtain rfl := List.mem_singleton.mp hLast
            exact hNot
  exact hLoop xs fun y hy => hy

end Dataflow
