import Stonne.Lib.WeakOrder
import Stonne.TileGenerator.StonneMapper

/-!
# The order of the dense tile options

`generateDenseGemmTile` collects its candidates in a `std::set`, which is ordered by
`TileOptionDenseGemm::operator<`, and keeps the greatest of them by `operator>`.  Both
comparisons treat heuristic values as equal that differ by less than `heuristicEpsilon` and
then compare the edges.

The heuristic values are exact here.  The set is the sorted sequence that a consistent
comparison gives.
-/

namespace Stonne

namespace StonneMapper

open Dataflow

/-- `0.025f` -/
def heuristicEpsilon : ℚ := 25 / 1000

/-- `0.1f` -/
def factorHeuristicN : ℚ := 1 / 10

/-- `0.05f` -/
def factorHeuristicK : ℚ := 5 / 100

structure TileOptionDenseGemm where
  tM : Nat
  tN : Nat
  tK : Nat
  msUtilization : ℚ
  edgeUtilization : ℚ
  heuristic : ℚ
  deriving DecidableEq

def getEdgeUtilization (X tX : Nat) : ℚ :=
  X / (⌈(X : ℚ) / tX⌉ * tX)

namespace TileOptionDenseGemm

/-- The constructor. -/
def make (numMs M N K tM tN tK : Nat) : TileOptionDenseGemm :=
  let msUtilization : ℚ := uint (tM * tN * tK) / numMs
  let edgeUtilization : ℚ :=
    (getEdgeUtilization M tM + getEdgeUtilization N tN + getEdgeUtilization K tK) / 3
  let heuristicN := min factorHeuristicN (tN / min (N : ℚ) numMs * factorHeuristicN)
  let heuristicK := min factorHeuristicK (tK / min (K : ℚ) numMs * factorHeuristicK)
  { tM := min M tM
    tN := min N tN
    tK := min K tK
    msUtilization := msUtilization
    edgeUtilization := edgeUtilization
    heuristic := msUtilization + edgeUtilization + heuristicN + heuristicK }

/-- `operator==` -/
def equal (a val : TileOptionDenseGemm) : Bool :=
  if a.tM ≠ val.tM then false
  else if a.tN ≠ val.tN then false
  else if a.tK ≠ val.tK then false
  else true

/-- `operator<`.  The second test of `T_N` repeats the first one. -/
def lessThan (a val : TileOptionDenseGemm) : Bool :=
  if |a.heuristic - val.heuristic| < heuristicEpsilon then
    if a.tN < val.tN then true
    else if a.tN < val.tN then false
    else if a.tK < val.tK then true
    else if a.tK > val.tK then false
    else decide (a.tM < val.tM)
  else if a.heuristic < val.heuristic then true
  else false

/-- `operator>` -/
def greaterThan (a val : TileOptionDenseGemm) : Bool :=
  if |a.heuristic - val.heuristic| < heuristicEpsilon then
    if a.tN > val.tN then true
    else if a.tN < val.tN then false
    else if a.tK > val.tK then true
    else if a.tK < val.tK then false
    else decide (a.tM > val.tM)
  else if a.heuristic > val.heuristic then true
  else false

end TileOptionDenseGemm

/-- The options that `addTilesPowersOfTwo` inserts, in the order of its loops. -/
def optionsPowersOfTwo (M N K numMs : Nat) : List TileOptionDenseGemm :=
  (doublings M 33 1).flatMap fun tM =>
    (doublings N 33 1).flatMap fun tN =>
      (doublings K 33 (if K = 1 then 1 else 2)).flatMap fun tK =>
        if tM ≤ uint (M * 2) ∧ tN ≤ uint (N * 2) ∧ tK ≤ uint (K * 2) ∧
            ull (tM * tN * tK) ≤ numMs then
          [TileOptionDenseGemm.make numMs M N K (uint tM) (uint tN) (uint tK)]
        else []

/-- The set and the loop of `generateDenseGemmTile`. -/
def bestTile (inserted : List TileOptionDenseGemm) : Option TileOptionDenseGemm :=
  selectMax TileOptionDenseGemm.greaterThan (sortedSet TileOptionDenseGemm.lessThan inserted)

/-! ## The comparisons -/

namespace TileOptionDenseGemm

/-- The edges in the order in which the comments of the source name them. -/
def edges (o : TileOptionDenseGemm) : ℕ ×ₗ ℕ ×ₗ ℕ :=
  toLex (o.tN, toLex (o.tK, o.tM))

/-- The comparison of the edges behind `T_N`. -/
def innerEdges (o : TileOptionDenseGemm) : ℕ ×ₗ ℕ :=
  toLex (o.tK, o.tM)

/-- Options whose heuristic values count as equal. -/
abbrev Similar (a b : TileOptionDenseGemm) : Prop :=
  Near heuristicEpsilon heuristic a b

instance (a b : TileOptionDenseGemm) : Decidable (Similar a b) :=
  inferInstanceAs (Decidable (|a.heuristic - b.heuristic| < heuristicEpsilon))

/-- The comparison that the comments of the source describe. -/
abbrev Intended (a b : TileOptionDenseGemm) : Prop :=
  tolerantLess heuristicEpsilon heuristic (fun a b => a.edges < b.edges) a b

theorem edges_lt_iff {a b : TileOptionDenseGemm} :
    a.edges < b.edges ↔ a.tN < b.tN ∨ a.tN = b.tN ∧ a.innerEdges < b.innerEdges :=
  Prod.Lex.toLex_lt_toLex

theorem innerEdges_lt_iff {a b : TileOptionDenseGemm} :
    a.innerEdges < b.innerEdges ↔ a.tK < b.tK ∨ a.tK = b.tK ∧ a.tM < b.tM :=
  Prod.Lex.toLex_lt_toLex

theorem equal_iff {a b : TileOptionDenseGemm} :
    a.equal b = true ↔ a.tM = b.tM ∧ a.tN = b.tN ∧ a.tK = b.tK := by
  simp [equal]

theorem similar_iff {a b : TileOptionDenseGemm} :
    Similar a b ↔ |a.heuristic - b.heuristic| < heuristicEpsilon :=
  Iff.rfl

theorem similar_comm {a b : TileOptionDenseGemm} : Similar a b ↔ Similar b a :=
  near_comm

theorem intended_iff {a b : TileOptionDenseGemm} :
    Intended a b ↔ (Similar a b ∧ a.edges < b.edges) ∨
      (¬Similar a b ∧ a.heuristic < b.heuristic) :=
  Iff.rfl

theorem lessThan_iff {a b : TileOptionDenseGemm} :
    a.lessThan b = true ↔
      (Similar a b ∧ (a.tN < b.tN ∨ a.innerEdges < b.innerEdges)) ∨
        (¬Similar a b ∧ a.heuristic < b.heuristic) := by
  rw [innerEdges_lt_iff, similar_iff, lessThan]
  by_cases hSimilar : |a.heuristic - b.heuristic| < heuristicEpsilon
  · by_cases hN : a.tN < b.tN
    · simp [hSimilar, hN]
    · rcases lt_trichotomy a.tK b.tK with hLess | hEq | hMore
      · simp [hSimilar, hN, hLess]
      · simp [hSimilar, hN, hEq]
      · simp [hSimilar, hN, hMore, Nat.lt_asymm hMore, hMore.ne']
  · simp [hSimilar]

theorem greaterThan_iff {a b : TileOptionDenseGemm} :
    a.greaterThan b = true ↔ Intended b a := by
  rw [intended_iff, similar_comm, similar_iff, edges_lt_iff, innerEdges_lt_iff, greaterThan]
  by_cases hSimilar : |a.heuristic - b.heuristic| < heuristicEpsilon
  · rcases lt_trichotomy a.tN b.tN with hLessN | hEqN | hMoreN
    · simp [hSimilar, hLessN, Nat.lt_asymm hLessN, hLessN.ne']
    · rcases lt_trichotomy a.tK b.tK with hLess | hEq | hMore
      · simp [hSimilar, hEqN, hLess, Nat.lt_asymm hLess, hLess.ne']
      · simp [hSimilar, hEqN, hEq]
      · simp [hSimilar, hEqN, hMore]
    · simp [hSimilar, hMoreN]
  · simp [hSimilar]

/-- Options that `operator<` does not order have the same edges. -/
theorem equal_of_incomparable {a b : TileOptionDenseGemm}
    (h : Incomparable (fun a b => lessThan a b = true) a b) : a.equal b = true := by
  have hSimilar : Similar a b := by
    by_contra hFar
    rcases lt_trichotomy a.heuristic b.heuristic with hLess | hEq | hMore
    · exact h.1 (lessThan_iff.mpr (Or.inr ⟨hFar, hLess⟩))
    · apply hFar
      rw [similar_iff, hEq, sub_self, abs_zero]
      norm_num [heuristicEpsilon]
    · exact h.2 (lessThan_iff.mpr (Or.inr ⟨fun hNear => hFar (similar_comm.mp hNear), hMore⟩))
  have hNot : ∀ {a b : TileOptionDenseGemm}, Similar a b → ¬lessThan a b = true →
      b.tN ≤ a.tN ∧ b.innerEdges ≤ a.innerEdges := by
    intro a b hSimilar hNot
    constructor
    · exact not_lt.mp fun hN => hNot (lessThan_iff.mpr (Or.inl ⟨hSimilar, Or.inl hN⟩))
    · exact not_lt.mp fun hInner => hNot (lessThan_iff.mpr (Or.inl ⟨hSimilar, Or.inr hInner⟩))
  obtain ⟨hN, hInner⟩ := hNot hSimilar h.1
  obtain ⟨hN', hInner'⟩ := hNot (similar_comm.mp hSimilar) h.2
  have hSame : a.innerEdges = b.innerEdges := le_antisymm hInner' hInner
  have hEdges := Prod.mk.inj (toLex.injective hSame)
  exact equal_iff.mpr ⟨hEdges.2, le_antisymm hN' hN, hEdges.1⟩

/-! ## The condition -/

/-- No two similar options have a smaller `T_N` on one side and the smaller other edges on the
other. -/
def EdgesAgree (S : Set TileOptionDenseGemm) : Prop :=
  ∀ a ∈ S, ∀ b ∈ S, Similar a b → a.tN < b.tN → ¬b.innerEdges < a.innerEdges

/-- The options of a set can be ordered by the comparisons of the source. -/
structure Orderly (S : Set TileOptionDenseGemm) : Prop where
  edges : EdgesAgree S
  chains : ChainsAgree heuristicEpsilon heuristic (fun a b => a.edges < b.edges) S

instance (options : List TileOptionDenseGemm) : Decidable (Orderly {o | o ∈ options}) :=
  decidable_of_iff
    ((∀ a ∈ options, ∀ b ∈ options, Similar a b → a.tN < b.tN → ¬b.innerEdges < a.innerEdges) ∧
      ∀ a ∈ options, ∀ b ∈ options, ∀ c ∈ options, Similar a b → Similar b c → ¬Similar a c →
        a.heuristic < c.heuristic → a.edges < b.edges ∨ b.edges < c.edges)
    ⟨fun h => ⟨h.1, h.2⟩, fun h => ⟨h.edges, h.chains⟩⟩

/-- The laws of the comparisons. -/
structure ConsistentOn (S : Set TileOptionDenseGemm) : Prop where
  order : StrictWeakOrderOn (fun a b => lessThan a b = true) S
  converse : ∀ a ∈ S, ∀ b ∈ S, lessThan a b = true ↔ greaterThan b a = true
  equal : ∀ a ∈ S, ∀ b ∈ S,
    Incomparable (fun a b => lessThan a b = true) a b → equal a b = true

variable {S : Set TileOptionDenseGemm}

/-- Where the edges agree, `operator<` is the comparison that is intended. -/
theorem EdgesAgree.lessThan_iff (h : EdgesAgree S) {a b : TileOptionDenseGemm} (ha : a ∈ S)
    (hb : b ∈ S) : a.lessThan b = true ↔ Intended a b := by
  rw [TileOptionDenseGemm.lessThan_iff, intended_iff, edges_lt_iff]
  refine or_congr (and_congr_right fun hSimilar => ?_) Iff.rfl
  constructor
  · rintro (hN | hInner)
    · exact Or.inl hN
    · rcases lt_trichotomy a.tN b.tN with hLess | hEq | hMore
      · exact Or.inl hLess
      · exact Or.inr ⟨hEq, hInner⟩
      · exact absurd hInner (h b hb a ha (similar_comm.mp hSimilar) hMore)
  · exact Or.imp_right And.right

/-- An asymmetric `operator<` has no similar options with disagreeing edges. -/
theorem edgesAgree_of_asymm
    (hAsymm : ∀ a ∈ S, ∀ b ∈ S, lessThan a b = true → ¬lessThan b a = true) :
    EdgesAgree S := by
  intro a ha b hb hSimilar hN hInner
  apply hAsymm a ha b hb
  · exact TileOptionDenseGemm.lessThan_iff.mpr (Or.inl ⟨hSimilar, Or.inl hN⟩)
  · exact TileOptionDenseGemm.lessThan_iff.mpr
      (Or.inl ⟨similar_comm.mp hSimilar, Or.inr hInner⟩)

theorem consistentOn_iff : ConsistentOn S ↔ Orderly S := by
  have hTie := strictWeakOrderOn_key edges S
  have hIntended : StrictWeakOrderOn Intended S ↔ _ :=
    tolerantLess_iff (show (0 : ℚ) < heuristicEpsilon by norm_num [heuristicEpsilon]) hTie
  constructor
  · intro h
    have hEdges := edgesAgree_of_asymm h.order.asymm
    refine ⟨hEdges, ?_⟩
    apply hIntended.mp
    exact h.order.congr fun a ha b hb => hEdges.lessThan_iff ha hb
  · intro h
    have hOrder := (hIntended.mpr h.chains).congr fun a ha b hb => (h.edges.lessThan_iff ha hb).symm
    refine ⟨hOrder, ?_, ?_⟩
    · intro a ha b hb
      rw [h.edges.lessThan_iff ha hb, greaterThan_iff]
    · intro a _ b _ hNeither
      exact equal_of_incomparable hNeither

/-! ## The candidates -/

theorem make_edges {numMs M N K tM tN tK : Nat} (hM : tM ≤ M) (hN : tN ≤ N) (hK : tK ≤ K) :
    (make numMs M N K tM tN tK).tM = tM ∧ (make numMs M N K tM tN tK).tN = tN ∧
      (make numMs M N K tM tN tK).tK = tK :=
  ⟨Nat.min_eq_right hM, Nat.min_eq_right hN, Nat.min_eq_right hK⟩

/-- A candidate is what the constructor makes of its edges. -/
theorem eq_make_of_mem {M N K numMs : Nat} (hM : M < 2 ^ 32) (hN : N < 2 ^ 32)
    (hK : K < 2 ^ 32) {o : TileOptionDenseGemm} (h : o ∈ optionsPowersOfTwo M N K numMs) :
    o = make numMs M N K o.tM o.tN o.tK := by
  have hUint : ∀ {dim t : Nat}, dim < 2 ^ 32 → t ≤ dim → uint t = t := by
    intro dim t hDim ht
    exact Nat.mod_eq_of_lt (ht.trans_lt hDim)
  simp only [optionsPowersOfTwo, List.mem_flatMap, mem_doublings hM, mem_doublings hN,
    mem_doublings hK] at h
  obtain ⟨tM, ⟨-, -, -, htM⟩, tN, ⟨-, -, -, htN⟩, tK, ⟨-, -, -, htK⟩, hMem⟩ := h
  split at hMem
  · rw [hUint hM htM, hUint hN htN, hUint hK htK] at hMem
    obtain rfl := List.mem_singleton.mp hMem
    obtain ⟨hEdgeM, hEdgeN, hEdgeK⟩ := @make_edges numMs M N K tM tN tK htM htN htK
    rw [hEdgeM, hEdgeN, hEdgeK]
  · cases hMem

/-- The edges of the options are the tiles of `addTilesPowersOfTwo`. -/
theorem map_optionsPowersOfTwo (M N K numMs : Nat) :
    (optionsPowersOfTwo M N K numMs).map (fun o => (⟨o.tM, o.tN, o.tK⟩ : DenseGemmTile)) =
      addTilesPowersOfTwo M N K numMs := by
  simp only [optionsPowersOfTwo, addTilesPowersOfTwo, List.map_flatMap]
  congr! 7
  split <;> rfl

/-- What is expected of the options that were inserted, in the order of `inserted`. -/
structure SelectionSound (inserted : List TileOptionDenseGemm) : Prop where
  consistent : ConsistentOn {o | o ∈ inserted}
  keeps : ∀ o ∈ inserted, o ∈ sortedSet lessThan inserted
  sorted : (sortedSet lessThan inserted).Pairwise fun a b => lessThan a b = true
  best : ∀ o, bestTile inserted = some o → ∀ c ∈ inserted, ¬greaterThan c o

/-- A consistent comparison gives a sorted set with every candidate and a greatest one, if
options with the same edges are the same. -/
theorem ConsistentOn.selectionSound {inserted : List TileOptionDenseGemm}
    (h : ConsistentOn {o | o ∈ inserted})
    (hSame : ∀ a ∈ inserted, ∀ b ∈ inserted, a.equal b = true → b = a) :
    SelectionSound inserted where
  consistent := h
  keeps o ho :=
    mem_sortedSet (fun a ha b hb hNeither => hSame a ha b hb (h.equal a ha b hb hNeither)) ho
  sorted := pairwise_sortedSet h.order
  best := by
    intro o hBest c hc
    have hIn : ∀ a ∈ sortedSet lessThan inserted, a ∈ inserted := fun a ha =>
      mem_of_mem_sortedSet ha
    have hIrrefl : ∀ a ∈ sortedSet lessThan inserted, ¬greaterThan a a := by
      intro a ha hGreater
      have ha := hIn a ha
      exact h.order.irrefl a ha ((h.converse a ha a ha).mpr hGreater)
    have hTrans : ∀ a ∈ sortedSet lessThan inserted, ∀ b ∈ sortedSet lessThan inserted,
        ∀ c ∈ sortedSet lessThan inserted,
          greaterThan a b → greaterThan b c → greaterThan a c := by
      intro a ha b hb c hc hab hbc
      have ha := hIn a ha
      have hb := hIn b hb
      have hc := hIn c hc
      have hba := (h.converse b hb a ha).mpr hab
      have hcb := (h.converse c hc b hb).mpr hbc
      exact (h.converse c hc a ha).mp (h.order.trans c hc b hb a ha hcb hba)
    have hSpec := selectMax_spec hIrrefl hTrans hBest
    have hKept := mem_sortedSet
      (fun a ha b hb hNeither => hSame a ha b hb (h.equal a ha b hb hNeither)) hc
    exact hSpec.2 c hKept

/-- The comparisons are consistent on a set of options exactly when the set is orderly.  The
set that is filled with the candidates, in any order, and the option that is chosen from it are
then as expected. -/
theorem options_ordered_iff (S : Set TileOptionDenseGemm) {M N K numMs : Nat}
    (hM : M < 2 ^ 32) (hN : N < 2 ^ 32) (hK : K < 2 ^ 32)
    {inserted : List TileOptionDenseGemm}
    (hPerm : inserted.Perm (optionsPowersOfTwo M N K numMs)) :
    (ConsistentOn S ↔ Orderly S) ∧
      (SelectionSound inserted ↔ Orderly {o | o ∈ inserted}) := by
  refine ⟨consistentOn_iff, ?_⟩
  constructor
  · intro h
    exact consistentOn_iff.mp h.consistent
  · intro h
    apply (consistentOn_iff.mpr h).selectionSound
    intro a ha b hb hEqual
    obtain ⟨hEdgeM, hEdgeN, hEdgeK⟩ := equal_iff.mp hEqual
    have hMakeA := eq_make_of_mem hM hN hK (hPerm.mem_iff.mp ha)
    have hMakeB := eq_make_of_mem hM hN hK (hPerm.mem_iff.mp hb)
    rw [hMakeA, hMakeB, hEdgeM, hEdgeN, hEdgeK]

/-- Fourteen candidates of which some are near, and four that are inserted from the last to the
first, of which the first is near to two that are not near to each other. -/
theorem options_ordered_several :
    (optionsPowersOfTwo 4 5 4 16).length = 14 ∧
      ConsistentOn {o | o ∈ optionsPowersOfTwo 4 5 4 16} ∧
      (optionsPowersOfTwo 3 3 1 16).length = 4 ∧
      Similar (make 16 3 3 1 1 1 1) (make 16 3 3 1 1 2 1) ∧
      Similar (make 16 3 3 1 1 1 1) (make 16 3 3 1 2 1 1) ∧
      SelectionSound (optionsPowersOfTwo 3 3 1 16).reverse ∧
      bestTile (optionsPowersOfTwo 3 3 1 16).reverse = some (make 16 3 3 1 2 2 1) := by
  obtain ⟨hConsistent, hSound⟩ := options_ordered_iff {o | o ∈ optionsPowersOfTwo 4 5 4 16}
    (by decide) (by decide) (by decide) (List.reverse_perm (optionsPowersOfTwo 3 3 1 16))
  exact ⟨by decide +kernel, hConsistent.mpr (by decide +kernel), by decide +kernel,
    by decide +kernel, by decide +kernel, hSound.mpr (by decide +kernel), by decide +kernel⟩

/-- Two candidates of which each is less than the other, and three candidates in a circle,
each greater than the one before: the choice among them is exceeded by the last one. -/
theorem options_disagree :
    (∃ a ∈ optionsPowersOfTwo 4 4 4 4, ∃ b ∈ optionsPowersOfTwo 4 4 4 4,
        lessThan a b = true ∧ lessThan b a = true ∧ greaterThan b a = false) ∧
      bestTile (optionsPowersOfTwo 5 1 1 32) = some (make 32 5 1 1 2 1 1) ∧
      ¬SelectionSound (optionsPowersOfTwo 5 1 1 32) := by
  have hBest : bestTile (optionsPowersOfTwo 5 1 1 32) = some (make 32 5 1 1 2 1 1) := by
    decide +kernel
  refine ⟨?_, hBest, ?_⟩
  · exact ⟨make 4 4 4 4 1 2 2, by decide +kernel, make 4 4 4 4 1 1 4, by decide +kernel,
      by decide +kernel⟩
  · intro h
    have hMem : make 32 5 1 1 4 1 1 ∈ optionsPowersOfTwo 5 1 1 32 := by decide +kernel
    have hExceeds : greaterThan (make 32 5 1 1 4 1 1) (make 32 5 1 1 2 1 1) = true := by
      decide +kernel
    exact h.best _ hBest _ hMem hExceeds

end TileOptionDenseGemm

end StonneMapper

end Stonne
