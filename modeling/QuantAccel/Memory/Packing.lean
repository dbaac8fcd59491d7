import QuantAccel.Memory.BitField
import QuantAccel.Number.Word
import QuantAccel.Tensor.Shape

/-!
# Packed tensors

The elements of a tensor are packed without gaps: slot `i` of `width` bits
begins at bit `i * width`. A logical element occupies the slot of its position
in the padded shape, and all other slots stay zero.

A program that has words of 64 bits stops where a slot is not in its buffer, or
where an axis has no stride in the padded shape.
-/

namespace QuantAccel

/-- Bytes that `elements` slots of `width` bits take. -/
def packedLength (elements width : Nat) : Nat :=
  (elements * width + 7) / 8

/-- The packed bytes of logical values. -/
def pack (values : Array Int) (shape padded : Shape) (width : Nat) : Bytes :=
  (List.range values.size).foldl
    (fun buffer i => buffer.writeField (shape.position padded i * width) width (values.getD i 0))
    (Array.replicate (packedLength padded.volume width) 0)

/-- The logical values in packed bytes. -/
def unpack (buffer : Bytes) (shape padded : Shape) (width : Nat) (signed : Bool) : Array Int :=
  ((List.range shape.volume).map fun i =>
    buffer.readField (shape.position padded i * width) width signed).toArray

/-! ## Packing in words -/

end QuantAccel
