import Stonne.TileGenerator.DenseOptions

/-!
# The sparse-dense tile

`generateSparseDenseTile` takes a power of two for `T_K`, gives the rest of the multipliers to
`T_N`, and what is then left to `T_K` again.  The power comes from a floating-point
approximation, which is a parameter here: `approximated` is what `round` returns.

A division by zero is `none`.
-/

namespace Stonne

namespace StonneMapper

open Dataflow

structure SparseDenseTile where
  tN : Nat
  tK : Nat
  deriving DecidableEq, Repr

structure TileOptionSparseDense where
  tN : Nat
  tK : Nat
  msUtilization : ℚ
  edgeUtilization : ℚ
  heuristic : ℚ
  deriving DecidableEq

namespace TileOptionSparseDense

/-- The constructor. -/
def make (numMs N K tN tK : Nat) : TileOptionSparseDense :=
  let msUtilization : ℚ := uint (tN * tK) / numMs
  let edgeUtilization : ℚ := (getEdgeUtilization N tN + getEdgeUtilization K tK) / 2
  { tN := min N tN
    tK := min K tK
    msUtilization := msUtilization
    edgeUtilization := edgeUtilization
    heuristic := msUtilization + edgeUtilization }

/-- `operator<` -/
def lessThan (a val : TileOptionSparseDense) : Bool :=
  decide (a.heuristic < val.heuristic)

/-- `operator>` -/
def greaterThan (a val : TileOptionSparseDense) : Bool :=
  decide (a.heuristic > val.heuristic)

end TileOptionSparseDense

/-- The division of an `unsigned int`. -/
def divide (a b : Nat) : Option Nat :=
  if b = 0 then none else some (a / b)

theorem divide_of_pos {a b : Nat} (hPos : 0 < b) : divide a b = some (a / b) :=
  if_neg (Nat.pos_iff_ne_zero.mp hPos)

/-- `power` -/
def powerOfTK (K approximated : Nat) : Nat :=
  if K = 1 then 0 else approximated + 1

/-- The edges before the options are compared. -/
def sparseDenseEdges (numMs N K approximated : Nat) : Option SparseDenseTile := do
  let tK := min K (2 ^ powerOfTK K approximated)
  let rest ← divide numMs tK
  let tN := min N rest
  let again ← divide numMs (uint (tK * tN))
  return { tN := tN, tK := min K (uint (tK * again)) }

def generateSparseDenseTile (numMs N K approximated : Nat) : Option SparseDenseTile := do
  let edges ← sparseDenseEdges numMs N K approximated
  let options := sortedSet TileOptionSparseDense.lessThan
    [TileOptionSparseDense.make numMs N K edges.tN edges.tK]
  let bestTile ← selectMax TileOptionSparseDense.greaterThan options
  return { tN := bestTile.tN, tK := bestTile.tK }

/-- A quotient loses less than a divisor, which is at most half of what is used. -/
private theorem lt_two_mul_div {x numMs : Nat} (hPos : 0 < x) (hFits : x ≤ numMs) :
    numMs < 2 * (x * (numMs / x)) := by
  have hQuotient : 1 ≤ numMs / x := (Nat.one_le_div_iff hPos).mpr hFits
  have hSplit := Nat.div_add_mod numMs x
  have hRest := Nat.mod_lt numMs hPos
  have hUsed : x * 1 ≤ x * (numMs / x) := Nat.mul_le_mul_left x hQuotient
  omega

/-- The first `T_K` is at least 1 and leaves a multiplier for every column of `T_N`. -/
private theorem firstTK_bounds {L K approximated : Nat} (hK : 1 ≤ K)
    (hRange : K ≠ 1 → approximated < L) :
    1 ≤ min K (2 ^ powerOfTK K approximated) ∧
      min K (2 ^ powerOfTK K approximated) ≤ 2 ^ L := by
  constructor
  · exact le_min hK Nat.one_le_two_pow
  · unfold powerOfTK
    split
    · exact (min_le_right _ _).trans Nat.one_le_two_pow
    · rename_i hMany
      exact (min_le_right _ _).trans (Nat.pow_le_pow_right (by omega) (hRange hMany))

/-- Growing `T_K` again: the tile fits, and leaves less than half of the multipliers unless
both edges are those of the operands. -/
private theorem tile_of_firstTK {numMs N K tK : Nat} (hN : 1 ≤ N) (hPos : 1 ≤ tK)
    (hLeK : tK ≤ K) (hFits : tK ≤ numMs) :
    let tN := min N (numMs / tK)
    let grown := min K (tK * (numMs / (tK * tN)))
    1 ≤ tN ∧ tK * tN ≤ numMs ∧ 1 ≤ grown ∧ tN * grown ≤ numMs ∧
      (¬(tN = N ∧ grown = K) → numMs < 2 * tN * grown) := by
  intro tN grown
  have hRest : 1 ≤ numMs / tK := (Nat.one_le_div_iff hPos).mpr hFits
  have hTN : 1 ≤ tN := le_min hN hRest
  have hArea : tK * tN ≤ numMs :=
    (Nat.mul_le_mul_left tK (min_le_right N _)).trans (Nat.mul_div_le numMs tK)
  have hAreaPos : 0 < tK * tN := Nat.mul_pos hPos hTN
  have hAgain : 1 ≤ numMs / (tK * tN) := (Nat.one_le_div_iff hAreaPos).mpr hArea
  have hGrows : tK ≤ grown := le_min hLeK (Nat.le_mul_of_pos_right tK hAgain)
  have hUsed : tN * (tK * (numMs / (tK * tN))) = tK * tN * (numMs / (tK * tN)) := by ring
  refine ⟨hTN, hArea, hPos.trans hGrows, ?_, ?_⟩
  · calc tN * grown ≤ tN * (tK * (numMs / (tK * tN))) :=
          Nat.mul_le_mul_left tN (min_le_right K _)
      _ = tK * tN * (numMs / (tK * tN)) := hUsed
      _ ≤ numMs := Nat.mul_div_le numMs (tK * tN)
  · intro hSmaller
    rw [mul_assoc]
    rcases min_cases K (tK * (numMs / (tK * tN))) with ⟨hGrown, -⟩ | ⟨hGrown, -⟩
    · -- `T_K` is `K`, so `T_N` is what the first division left
      have hTN' : tN = numMs / tK := by
        rcases min_cases N (numMs / tK) with ⟨hAll, -⟩ | ⟨hPart, -⟩
        · exact absurd ⟨hAll, hGrown⟩ hSmaller
        · exact hPart
      calc numMs < 2 * (tK * (numMs / tK)) := lt_two_mul_div hPos hFits
        _ = 2 * (tN * tK) := by rw [← hTN', mul_comm tK]
        _ ≤ 2 * (tN * grown) := Nat.mul_le_mul_left 2 (Nat.mul_le_mul_left tN hGrows)
    · have hEq : grown = tK * (numMs / (tK * tN)) := hGrown
      rw [hEq, hUsed]
      exact lt_two_mul_div hAreaPos hArea

/-- There is only one option. -/
private theorem selectMax_single
    (greater less : TileOptionSparseDense → TileOptionSparseDense → Bool)
    (option : TileOptionSparseDense) :
    selectMax greater (sortedSet less [option]) = some option := by
  have hSet : sortedSet less [option] = [option] := rfl
  rw [hSet, selectMax]
  simp

/-- What is generated from edges within the operands are these edges. -/
private theorem generate_of_edges {numMs N K approximated : Nat} {edges : SparseDenseTile}
    (hEdges : sparseDenseEdges numMs N K approximated = some edges) (hN : edges.tN ≤ N)
    (hK : edges.tK ≤ K) :
    generateSparseDenseTile numMs N K approximated = some edges := by
  have hMakeN : (TileOptionSparseDense.make numMs N K edges.tN edges.tK).tN = edges.tN :=
    min_eq_right hN
  have hMakeK : (TileOptionSparseDense.make numMs N K edges.tN edges.tK).tK = edges.tK :=
    min_eq_right hK
  simp only [generateSparseDenseTile, hEdges, Option.bind_eq_bind, Option.bind_some,
    selectMax_single, hMakeN, hMakeK, pure]

/-- For every power that the approximation yields in its range, the tile is admissible and
uses more than half of the multipliers unless it is the whole operand. -/
theorem sparseDenseTile_fits {L N K approximated : Nat} (hWord : L < 32) (hN : 1 ≤ N)
    (hK : 1 ≤ K) (hRange : K ≠ 1 → approximated < L) :
    ∃ tile, generateSparseDenseTile (2 ^ L) N K approximated = some tile ∧
      1 ≤ tile.tN ∧ tile.tN ≤ N ∧ 1 ≤ tile.tK ∧ tile.tK ≤ K ∧
      tile.tN * tile.tK ≤ 2 ^ L ∧
      (¬(tile.tN = N ∧ tile.tK = K) → 2 ^ L < 2 * tile.tN * tile.tK) := by
  obtain ⟨hPos, hFits⟩ := firstTK_bounds hK hRange
  obtain ⟨hTN, hArea, hTK, hTile, hHalf⟩ := tile_of_firstTK hN hPos (min_le_left _ _) hFits
  have hWordSize : 2 ^ L < 2 ^ 32 := Nat.pow_lt_pow_right (by omega) hWord
  generalize hFirst : min K (2 ^ powerOfTK K approximated) = tK at *
  have hAreaPos := Nat.mul_pos hPos hTN
  have hUintArea : uint (tK * min N (2 ^ L / tK)) = tK * min N (2 ^ L / tK) :=
    Nat.mod_eq_of_lt (hArea.trans_lt hWordSize)
  have hGrownFits : tK * (2 ^ L / (tK * min N (2 ^ L / tK))) ≤ 2 ^ L := by
    calc tK * (2 ^ L / (tK * min N (2 ^ L / tK))) ≤ tK * (2 ^ L / tK) :=
          Nat.mul_le_mul_left tK
            (Nat.div_le_div_left (Nat.le_mul_of_pos_right tK hTN) hPos)
      _ ≤ 2 ^ L := Nat.mul_div_le (2 ^ L) tK
  have hUintGrown : uint (tK * (2 ^ L / (tK * min N (2 ^ L / tK)))) =
      tK * (2 ^ L / (tK * min N (2 ^ L / tK))) :=
    Nat.mod_eq_of_lt (hGrownFits.trans_lt hWordSize)
  have hEdges : sparseDenseEdges (2 ^ L) N K approximated =
      some ⟨min N (2 ^ L / tK), min K (tK * (2 ^ L / (tK * min N (2 ^ L / tK))))⟩ := by
    simp only [sparseDenseEdges, hFirst, divide_of_pos (show 0 < tK from hPos), hUintArea,
      divide_of_pos hAreaPos, hUintGrown, Option.bind_eq_bind, Option.bind_some, pure]
  refine ⟨_, generate_of_edges hEdges (min_le_left _ _) (min_le_left _ _), hTN,
    min_le_left _ _, hTK, min_le_left _ _, hTile, hHalf⟩

/-- An operand with edges that are no powers of two. -/
theorem sparseDenseTile_fits_small :
    ∃ tile, generateSparseDenseTile (2 ^ 8) 100 7 1 = some tile ∧
      1 ≤ tile.tN ∧ tile.tN ≤ 100 ∧ 1 ≤ tile.tK ∧ tile.tK ≤ 7 ∧
      tile.tN * tile.tK ≤ 2 ^ 8 ∧
      (¬(tile.tN = 100 ∧ tile.tK = 7) → 2 ^ 8 < 2 * tile.tN * tile.tK) :=
  sparseDenseTile_fits (by decide) (by decide) (by decide) (fun _ => by decide)

end StonneMapper

end Stonne
