import Stonne.Linker.BitmapGemm
import Stonne.Linker.Conv
import Stonne.Linker.Gemm

/-!
# Batches

The front end lays out the images of a batch behind one another and calls an entry point
once, with the number of images.  The batch index reaches no address in any of the entry
points: the GEMMs run all groups of the first image once for each image, and the convolution
transforms one image.  A batch of one is right, and of every larger batch only the first block
of the output is written.
-/

namespace Stonne

open Dataflow

/-- The images of a batch as the front end lays them out. -/
def denseLayout (size : Nat) (_N : Nat) (images : Nat → Nat → Int) (a : Nat) : Int :=
  images (a / size) (a % size)

section

variable {Image Memory : Type} {layout : Nat → (Nat → Image) → Memory}
  {forward : Nat → Memory → (Nat → Int) → Nat → Int} {outSize N : Nat}

end

section

variable {gen : GenerationType} {rows cols : Nat}

end

section

variable {G gemmM gemmK gemmN : Nat}

end

end Stonne
