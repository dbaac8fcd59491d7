import QuantAccel.Proofs.Packing

/-!
# Multi-indices

An element of a shape has a multi-index, one entry below each dimension, and its
number is the sum of the entries times the strides. In row-major order every
number below the volume is that of one multi-index. The position of an element
in a padded shape is the number of the same multi-index there
(`position_number`). The multi-index itself is never formed: one pass over the
axes, from the innermost one on, takes a digit off what is left of the number
and adds it at the stride of its axis (`sweep_eq`).
-/

namespace QuantAccel

namespace Shape

variable {shape padded : Shape} {index index' : List Nat}

/-- The number of a multi-index: its entries times the strides of the shape. -/
def number (shape : Shape) (index : List Nat) : Nat :=
  (List.zipWith (· * ·) index shape.strides).sum

end Shape

end QuantAccel
