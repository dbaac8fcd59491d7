import QuantAccel.Operator

/-!
# Fixed-point kernels

What each hardware block computes on integers. Products are summed in a
saturating accumulator, the activation acts on the accumulator, and the result
is rescaled once and saturated to its element type. Buffers are row-major over
logical shapes.
-/

namespace QuantAccel

/-- Size of a matrix product, and how its right operand is stored. -/
structure MatmulDims where
  m : Nat
  k : Nat
  n : Nat
  transposed : Bool
  deriving Repr, DecidableEq

/-- Where the right operand stores its element at row `k` and column `n`. -/
def MatmulDims.rightIndex (d : MatmulDims) (row column : Nat) : Nat :=
  if d.transposed then column * d.k + row else row * d.n + column

namespace Kernel

/-- An accumulator after the activation. -/
def activated (acc : Int) (rescale : Rescale) : Option Activation → Int
  | none => acc
  | some .relu => max acc 0
  | some (.leakyRelu _) =>
    if acc < 0 then
      match rescale.slope with
      | some slope => slope.apply acc
      | none => 0
    else acc

/-- The element that an accumulator becomes. -/
def finish (acc : Int) (rescale : Rescale) (activation : Option Activation)
    (t : ElementType) : Int :=
  t.saturate (rescale.out.apply (activated acc rescale activation))

/-- The sum of products of one output position, before the bias. -/
def dotProduct (left right : Array Int) (d : MatmulDims) (row column : Nat) : Int :=
  (List.range d.k).foldl
    (fun acc i =>
      Accumulator.add acc (left.getD (row * d.k + i) 0 * right.getD (d.rightIndex i column) 0))
    0

/-- The accumulator with the rescaled bias added. -/
def withBias (acc : Int) (bias : Option Int) (rescale : Rescale) : Int :=
  match bias, rescale.bias with
  | some b, some mul => Accumulator.add acc (mul.apply b)
  | _, _ => acc

/-- One output element of a matrix product. -/
def matmulElement (left right : Array Int) (bias : Option (Array Int)) (d : MatmulDims)
    (rescale : Rescale) (activation : Option Activation) (t : ElementType)
    (row column : Nat) : Int :=
  let acc := dotProduct left right d row column
  finish (withBias acc (bias.map fun b => b.getD column 0) rescale) rescale activation t

/-- A matrix product in a buffer of `size` elements, zero after the last row. -/
def matmul (left right : Array Int) (bias : Option (Array Int)) (d : MatmulDims)
    (rescale : Rescale) (activation : Option Activation) (t : ElementType) (size : Nat) :
    Array Int :=
  Array.ofFn fun i : Fin size =>
    if i / d.n < d.m then matmulElement left right bias d rescale activation t (i / d.n) (i % d.n)
    else 0

/-- One element of a sum. -/
def addElement (left right : Int) (rescale : PairRescale) (t : ElementType) : Int :=
  t.saturate (roundShift (Accumulator.add (left * rescale.left) (right * rescale.right))
    rescale.shift)

/-- A sum of `size` elements; a shorter right operand repeats. -/
def add (left right : Array Int) (rescale : PairRescale) (t : ElementType) (size : Nat) :
    Array Int :=
  Array.ofFn fun i : Fin size =>
    addElement (left.getD i 0) (right.getD (i % right.size) 0) rescale t

/-- One element of a normalization. -/
def normalizeElement (x gain offset : Int) (rescale : Rescale) (activation : Option Activation)
    (t : ElementType) : Int :=
  finish (withBias (x * gain) (some offset) rescale) rescale activation t

/-- A normalization of `size` elements with one gain and offset for each
channel. -/
def normalize (input gain offset : Array Int) (channels : Nat) (rescale : Rescale)
    (activation : Option Activation) (t : ElementType) (size : Nat) : Array Int :=
  Array.ofFn fun i : Fin size =>
    normalizeElement (input.getD i 0) (gain.getD (i % channels) 0) (offset.getD (i % channels) 0)
      rescale activation t

/-- An activation of `size` elements; the accumulator is the input itself. -/
def activate (input : Array Int) (activation : Activation) (rescale : Rescale) (t : ElementType)
    (size : Nat) : Array Int :=
  Array.ofFn fun i : Fin size => finish (input.getD i 0) rescale (some activation) t

end Kernel

end QuantAccel
