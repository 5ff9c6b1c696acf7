import Stonne.Linker.SparseGemm

/-!
# Groups of compressed operands

`simulateSparseGemmWithBitmapsForward` finds the values of group `g` as far behind the first
value as the bits of group `g` are behind the first bit.  That is the place of its values
exactly if all groups before it are full.  A group without values needs none, so the entry
point is right as long as every group in front of some value is full, and otherwise the last
group with values is read beyond the end.
-/

namespace Stonne

open Dataflow

section

variable (gen : GenerationType) (rows cols : Nat)

/-- The number of set bits. -/
def marked (bitmap : Nat → Nat) : Nat :=
  ((gen.elements rows cols).filter fun element =>
    bitmap (gen.index cols element.1 element.2) ≠ 0).length

/-- The compressed values of a group. -/
def groupValues (dense : Nat → Nat → Int) (bitmaps : Nat → Nat → Nat) (g : Nat) : List Int :=
  generateMatrixSparseFromDense gen rows cols (dense g) (bitmaps g)

/-- All groups in front of a value are full. -/
def Packed (bitmaps : Nat → Nat → Nat) (G : Nat) : Prop :=
  ∀ g < G, 0 < marked gen rows cols (bitmaps g) →
    ∀ g' < g, marked gen rows cols (bitmaps g') = rows * cols

end

section

variable {gen : GenerationType} {rows cols : Nat} {dense : Nat → Nat → Int}
  {bitmaps : Nat → Nat → Nat}

theorem length_groupValues (g : Nat) :
    (groupValues gen rows cols dense bitmaps g).length = marked gen rows cols (bitmaps g) :=
  List.length_map _

private theorem offset_of_full {n : Nat}
    (h : ∀ g < n, marked gen rows cols (bitmaps g) = rows * cols) :
    offset (groupValues gen rows cols dense bitmaps) n = rows * cols * n := by
  induction n with
  | zero => rfl
  | succ n ih =>
      rw [offset_succ, length_groupValues, Nat.mul_succ, ih fun g hg => h g (by omega),
        h n (Nat.lt_succ_self n)]

theorem Packed.offset {G : Nat} (h : Packed gen rows cols bitmaps G) {g : Nat} (hg : g < G)
    (hSome : 0 < marked gen rows cols (bitmaps g)) :
    offset (groupValues gen rows cols dense bitmaps) g = rows * cols * g :=
  offset_of_full (h g hg hSome)

end

end Stonne
