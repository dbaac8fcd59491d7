import QuantAccel.Number.Word
import QuantAccel.Tensor.ElementType
import QuantAccel.Tensor.Shape

/-!
# Tensors

A tensor is declared with a name, a shape and an element type. Compilation adds
to it: quantization its scale and integer values, scheduling its padded layout,
the memory plan its address.

The size of a tensor is an exact number here, as are all sizes that are made of
it: the regions of a memory plan, the cycles of a fetch. `memorySize?` is what a
program finds that has words of 64 bits.
-/

namespace QuantAccel

/-- Position of a tensor in its graph. -/
abbrev TensorId := Nat

/-- Real interval of the values of a tensor. -/
structure ValueRange where
  lo : Float
  hi : Float
  deriving Repr, Inhabited

/-- What a tensor is to its graph. -/
inductive TensorKind where
  /-- Input, bound afresh on every run. -/
  | placeholder
  /-- Trained parameter. -/
  | trained (values : Array Float)
  /-- Constant parameter, stored after the trained ones. -/
  | fixed (values : Array Float)
  /-- Operator result that stays inside the graph. -/
  | intermediate
  /-- Operator result returned to the caller. -/
  | output
  deriving Repr, Inhabited

namespace TensorKind

/-- The real values of a parameter. -/
def values? : TensorKind → Option (Array Float)
  | trained values | fixed values => some values
  | placeholder | intermediate | output => none

def isParameter (k : TensorKind) : Bool := k.values?.isSome

def isPlaceholder : TensorKind → Bool
  | placeholder => true
  | _ => false

def isTrained : TensorKind → Bool
  | trained _ => true
  | _ => false

def isFixed : TensorKind → Bool
  | fixed _ => true
  | _ => false

def isIntermediate : TensorKind → Bool
  | intermediate => true
  | _ => false

def isOutput : TensorKind → Bool
  | output => true
  | _ => false

end TensorKind

/-- Where the range of a tensor came from. -/
inductive RangeSource where
  /-- Given by the caller. -/
  | declared
  /-- Read off the values of a parameter. -/
  | observed
  /-- Derived from the operands of the producing operator. -/
  | propagated
  deriving Repr, DecidableEq, Inhabited

def RangeSource.name : RangeSource → String
  | declared => "Declared"
  | observed => "Observed"
  | propagated => "Propagated"

/-- Numeric meaning of the integers of a tensor: an integer stands for itself
divided by `scale`. -/
structure QuantParams where
  scale : Float
  /-- Effective width in bits, at most that of the element type. -/
  width : Nat
  range : ValueRange
  source : RangeSource
  deriving Repr, Inhabited

/-- A tensor of a graph, with what compilation has found out about it so far. -/
structure Tensor where
  id : TensorId
  name : String
  shape : Shape
  element : ElementType
  kind : TensorKind
  /-- Order of the axes relative to the model that the tensor was taken from. -/
  axes : Option (List Nat) := none
  quant : Option QuantParams := none
  /-- Integer values of a quantized parameter. -/
  ints : Option (Array Int) := none
  layout : Option Layout := none
  address : Option Nat := none
  deriving Repr, Inhabited

namespace Tensor

/-- Number of logical elements. -/
def volume (t : Tensor) : Nat := t.shape.volume

def scale? (t : Tensor) : Option Float := t.quant.map (·.scale)

/-- Last dimension of the logical shape. -/
def innermost (t : Tensor) : Nat := t.shape.innermost

/-- The order of the axes that leads back to the model that the tensor was taken
from. -/
def reversedAxes (t : Tensor) : Option (List Nat) := t.axes.bind inverseAxes?

/-- Bytes in memory: the elements of the layout, or of the logical shape before
there is one, packed bit by bit. -/
def memorySize (t : Tensor) : Nat :=
  let elements := (t.layout.map (·.shape.volume)).getD t.volume
  (elements * t.element.width + 7) / 8

end Tensor

end QuantAccel
