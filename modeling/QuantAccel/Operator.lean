import QuantAccel.Number.Binary64
import QuantAccel.Number.Multiplier
import QuantAccel.Tensor.Basic

/-!
# Operators

Each operator maps to one block of hardware. It names its operand and result
tensors; quantization adds the multipliers that bring its accumulator to the
scale of the result, and scheduling adds its parallelism.
-/

namespace QuantAccel

/-- Position of an operator in its graph. -/
abbrev OperatorId := Nat

/-- Activation functions. -/
inductive Activation where
  | relu
  | leakyRelu (slope : Float)
  deriving Repr, Inhabited

namespace Activation

/-- The activation on real numbers. What is not positive rectifies to the
positive zero, a negative zero and a NaN included. -/
def real : Activation → Float → Float
  | relu, x => Binary64.maximum x 0
  | leakyRelu slope, x => if x < 0 then x * slope else x

/-- The range of the activation over a range of its argument. -/
def range (f : Activation) (r : ValueRange) : ValueRange :=
  ⟨f.real r.lo, f.real r.hi⟩

end Activation

/-- Which matmul operand stays in place while the other streams. -/
inductive Stationary where
  | left
  | right
  deriving Repr, DecidableEq, Inhabited

def Stationary.name : Stationary → String
  | left => "Left"
  | right => "Right"

/-- Parallelism of a matrix product. -/
structure MatmulFactors where
  /-- Reduction elements consumed per cycle. -/
  leftColumns : Nat
  /-- Left rows processed together. -/
  leftRows : Nat
  /-- Output columns produced per cycle. -/
  outColumns : Nat
  /-- Output columns held in flight. -/
  inFlight : Nat
  stationary : Stationary
  deriving Repr, DecidableEq, Inhabited

/-- No parallelism at all. -/
def MatmulFactors.serial : MatmulFactors := ⟨1, 1, 1, 1, .right⟩

/-- Multipliers around one accumulator. -/
structure Rescale where
  /-- From the scale of the accumulator to that of the result. -/
  out : Multiplier
  /-- From the scale of the bias to that of the accumulator. -/
  bias : Option Multiplier
  /-- Slope of a leaky activation below zero, in the scale of the
  accumulator. -/
  slope : Option Multiplier
  deriving Repr, DecidableEq, Inhabited

/-- Multipliers of a sum: two factors that share one shift. -/
structure PairRescale where
  left : Int
  right : Int
  shift : Nat
  deriving Repr, DecidableEq, Inhabited

/-- The product `output = activation (left * right + bias)`, where `left` is
`[m, k]` and `right` is `[k, n]`, or `[n, k]` when transposed. -/
structure Matmul where
  left : TensorId
  right : TensorId
  bias : Option TensorId
  output : TensorId
  transposed : Bool
  activation : Option Activation
  factors : Option MatmulFactors := none
  rescale : Option Rescale := none
  deriving Repr, Inhabited

/-- The sum `output = left + right`, where `right` has the shape of `left` or is
one innermost row. -/
structure Addition where
  left : TensorId
  right : TensorId
  output : TensorId
  lanes : Option Nat := none
  rescale : Option PairRescale := none
  deriving Repr, Inhabited

/-- The affine map `output = activation (input * gain + offset)` of each
innermost channel. -/
structure Normalization where
  input : TensorId
  gain : TensorId
  offset : TensorId
  output : TensorId
  activation : Option Activation
  lanes : Option Nat := none
  rescale : Option Rescale := none
  deriving Repr, Inhabited

/-- The map `output = activation input`. -/
structure Rectification where
  input : TensorId
  output : TensorId
  activation : Activation
  lanes : Option Nat := none
  rescale : Option Rescale := none
  deriving Repr, Inhabited

/-- What an operator computes, and on which tensors. -/
inductive Operation where
  | matmul (m : Matmul)
  | add (a : Addition)
  | normalize (n : Normalization)
  | activate (r : Rectification)
  deriving Repr, Inhabited

namespace Operation

/-- Operands, in the order in which the hardware fetches them. -/
def inputs : Operation → List TensorId
  | matmul m => [m.left, m.right] ++ m.bias.toList
  | add a => [a.left, a.right]
  | normalize n => [n.input, n.gain, n.offset]
  | activate r => [r.input]

/-- Result. -/
def output : Operation → TensorId
  | matmul m => m.output
  | add a => a.output
  | normalize n => n.output
  | activate r => r.output

/-- Operands and then the result. -/
def tensors (o : Operation) : List TensorId :=
  o.inputs ++ [o.output]

/-- Name of the hardware block. -/
def blockName : Operation → String
  | matmul _ => "matmul"
  | add _ => "add"
  | normalize _ => "normalize"
  | activate _ => "activation"

/-- Activation folded into the operator. -/
def activation? : Operation → Option Activation
  | matmul m => m.activation
  | add _ => none
  | normalize n => n.activation
  | activate r => some r.activation

/-- Whether the operator reads its right operand by columns. -/
def isTransposed : Operation → Bool
  | matmul m => m.transposed
  | add _ | normalize _ | activate _ => false

/-- Lane factor of an elementwise operator, once scheduled. -/
def lanes? : Operation → Option Nat
  | matmul _ => none
  | add a => a.lanes
  | normalize n => n.lanes
  | activate r => r.lanes

/-- Output columns per cycle; one before scheduling. -/
def outColumns : Operation → Nat
  | matmul m => (m.factors.getD .serial).outColumns
  | o => o.lanes?.getD 1

/-- Whether the operator has its parallelism. -/
def isScheduled : Operation → Bool
  | matmul m => m.factors.isSome
  | o => o.lanes?.isSome

/-- The elementwise operator with its lane factor; a matmul has none. -/
def withLanes (lanes : Nat) : Operation → Operation
  | matmul m => matmul m
  | add a => add { a with lanes := some lanes }
  | normalize n => normalize { n with lanes := some lanes }
  | activate r => activate { r with lanes := some lanes }

end Operation

/-- A named operator of a graph. -/
structure Operator where
  id : OperatorId
  name : String
  operation : Operation
  deriving Repr, Inhabited

namespace Operator

def inputs (o : Operator) : List TensorId := o.operation.inputs

def output (o : Operator) : TensorId := o.operation.output

end Operator

end QuantAccel
