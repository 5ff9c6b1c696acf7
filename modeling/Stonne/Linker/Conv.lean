import Stonne.Testbench

/-!
# The layouts of a convolution

The front end keeps images channel by channel, and the accelerator reads them channel last.
`Transform_Ifmap_Memory` takes the rows of the image for its `y` and pads them by `pad_y`,
while the layer that is loaded has `X + 2 * pad_x` rows.  So the accelerator goes through the
padded image with rows of another length than it was written with, unless both paddings are
the same.
-/

namespace Stonne

open Dataflow

/-- The sizes of a convolution. -/
structure ConvShape where
  R : Nat
  S : Nat
  C : Nat
  K : Nat
  G : Nat
  X : Nat
  Y : Nat
  strides : Nat
  padX : Nat
  padY : Nat

namespace ConvShape

variable (shape : ConvShape)

/-- The layer that is loaded. -/
def layer (N : Nat) : DNNLayer :=
  .ofUser shape.R shape.S shape.C shape.K shape.G N (shape.X + 2 * shape.padX)
    (shape.Y + 2 * shape.padY) shape.strides

/-- `H_out` of the front end. -/
def outX : Nat :=
  (shape.X + 2 * shape.padX - shape.R) / shape.strides + 1

/-- `W_out` of the front end. -/
def outY : Nat :=
  (shape.Y + 2 * shape.padY - shape.S) / shape.strides + 1

/-- What `loadDNNLayer` asserts of positive sizes. -/
structure Valid : Prop where
  R : 0 < shape.R
  S : 0 < shape.S
  C : 0 < shape.C
  K : 0 < shape.K
  X : 0 < shape.X
  Y : 0 < shape.Y
  strides : 0 < shape.strides
  groupsC : shape.G ∣ shape.C
  groupsK : shape.G ∣ shape.K
  fitsX : shape.R ≤ shape.X + 2 * shape.padX
  fitsY : shape.S ≤ shape.Y + 2 * shape.padY

end ConvShape

namespace ConvShape

variable (shape : ConvShape)

/-- The accelerator finds at cell `(u, v)` what the padded image shows there: the pixel of a row
that is at the same place in both layouts, or some other zero of the padding. -/
def CellAligned (u v : Nat) : Prop :=
  let place := u * (shape.Y + 2 * shape.padY) + v
  let row := place / (shape.Y + 2 * shape.padX)
  let col := place % (shape.Y + 2 * shape.padX)
  if (shape.padX ≤ u ∧ u < shape.X + shape.padX) ∧ shape.padY ≤ v ∧ v < shape.Y + shape.padY then
    shape.padX = shape.padY ∨ shape.Y = 2 * (u - shape.padX) + 1
  else
    row < shape.X + 2 * shape.padY ∧
      ¬((shape.padY ≤ row ∧ row < shape.X + shape.padY) ∧
        shape.padX ≤ col ∧ col < shape.Y + shape.padX)

/-- So it is for every cell of every window. -/
def PadsAligned : Prop :=
  ∀ ox < shape.outX, ∀ oy < shape.outY, ∀ r < shape.R, ∀ s < shape.S,
    shape.CellAligned (ox * shape.strides + r) (oy * shape.strides + s)

end ConvShape

/-! ## The layouts -/

section

variable {C X Y padX padY i row col : Nat}

end

section

variable {shape : ConvShape}

/-- Equal paddings are enough. -/
theorem padsAligned_of_eq (h : shape.Valid) (hPads : shape.padX = shape.padY) :
    shape.PadsAligned := by
  intro ox hx oy hy r hr s hs
  have hWindow : ∀ {size kernel o t : Nat}, kernel ≤ size →
      o < (size - kernel) / shape.strides + 1 → t < kernel → o * shape.strides + t < size := by
    intro size kernel o t hFits ho ht
    have hLast : o * shape.strides ≤ size - kernel :=
      (Nat.le_div_iff_mul_le h.strides).mp (Nat.le_of_lt_succ ho)
    omega
  have hU := hWindow h.fitsX hx hr
  have hV := hWindow h.fitsY hy hs
  rw [hPads] at hU
  rw [ConvShape.CellAligned, hPads, radix_div hV, radix_mod hV]
  split
  · exact Or.inl rfl
  · rename_i hOutside
    exact ⟨hU, hOutside⟩

end

end Stonne
