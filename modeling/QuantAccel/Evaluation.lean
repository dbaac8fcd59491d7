import QuantAccel.Graph.Order
import QuantAccel.Kernel.Fixed
import QuantAccel.Kernel.Real

/-!
# Evaluation of graphs

A graph is evaluated operator by operator in dependency order: on integers,
which is the reference that hardware is compared with, and on real numbers,
which shows how far quantization drifts.
-/

namespace QuantAccel

/-- Values of some of the tensors of a graph. -/
abbrev Valuation (α : Type) := TensorId → Option (Array α)

namespace Valuation

variable {α : Type}

def empty : Valuation α := fun _ => none

/-- The valuation with one tensor bound to new values. -/
def bind (v : Valuation α) (id : TensorId) (values : Array α) : Valuation α :=
  fun other => if other = id then some values else v other

/-- The valuation with one tensor unbound. -/
def erase (v : Valuation α) (id : TensorId) : Valuation α :=
  fun other => if other = id then none else v other

end Valuation

namespace Graph

variable (g : Graph) {α : Type}

/-- Values by the names of their tensors, in the order of declaration. -/
def namedValues (v : Valuation α) : List (String × Array α) :=
  g.tensors.toList.filterMap fun t => (v t.id).map fun values => (t.name, values)

/-- The valuation with values bound to tensors by name, or unbound where none
are given; names of no tensor are skipped. -/
def bindNamed (v : Valuation α) (entries : List (String × Option (Array α))) : Valuation α :=
  entries.foldl
    (fun v (name, values) =>
      match g.tensorNamed? name, values with
      | some id, some values => v.bind id values
      | some id, none => v.erase id
      | none, _ => v)
    v

/-- The bound value of an operand. -/
def fetch (v : Valuation α) (id : TensorId) : Except GraphFault (Array α) :=
  match v id with
  | some values => .ok values
  | none => .error (.unboundValue (g.tensor id).name)

/-- Binds every placeholder to its input, which has one value for each
element. -/
def bindInputs (inputs : Valuation α) : Except GraphFault (Valuation α) :=
  g.placeholders.foldlM
    (fun v id => do
      let t := g.tensor id
      let some values := inputs id | throw (.missingInput t.name)
      if values.size ≠ t.volume then throw (.inputCount t.name values.size t.volume)
      return v.bind id values)
    .empty

/-- The size of a matrix product. -/
def matmulDims (o : Matmul) : MatmulDims :=
  let left := (g.tensor o.left).shape
  let out := (g.tensor o.output).shape
  { m := left.getD 0 0, k := left.getD 1 0, n := out.getD 1 0, transposed := o.transposed }

/-! ## Integers -/

/-- Binds every parameter to its integers. -/
def bindParameters (v : Valuation Int) : Except GraphFault (Valuation Int) :=
  g.tensors.toList.foldlM
    (fun v t => do
      if t.kind.isParameter then
        let some ints := t.ints | throw (.parameterNotQuantized t.name)
        return v.bind t.id ints
      else return v)
    v

/-- Multipliers that quantization has given. -/
def required {β : Type} (name : String) (rescale : Option β) : Except GraphFault β :=
  match rescale with
  | some r => .ok r
  | none => .error (.operatorNotQuantized name)

/-- The result of one operator on bound operands. -/
def operatorResult (v : Valuation Int) (op : Operator) : Except GraphFault (Array Int) := do
  let out := g.tensor op.output
  match op.operation with
  | .matmul o =>
    let rescale ← required op.name o.rescale
    let bias ← o.bias.mapM (g.fetch v)
    let left ← g.fetch v o.left
    let right ← g.fetch v o.right
    return Kernel.matmul left right bias
      (g.matmulDims o) rescale o.activation out.element out.volume
  | .add o =>
    let rescale ← required op.name o.rescale
    let left ← g.fetch v o.left
    let right ← g.fetch v o.right
    return Kernel.add left right rescale out.element out.volume
  | .normalize o =>
    let rescale ← required op.name o.rescale
    let input ← g.fetch v o.input
    let gain ← g.fetch v o.gain
    let offset ← g.fetch v o.offset
    return Kernel.normalize input gain offset out.innermost rescale o.activation
      out.element out.volume
  | .activate o =>
    let rescale ← required op.name o.rescale
    let input ← g.fetch v o.input
    return Kernel.activate input o.activation rescale out.element out.volume

/-- The integers of every tensor. -/
def evaluate (inputs : Valuation Int) : Except GraphFault (Valuation Int) := do
  let v ← g.bindInputs inputs
  let v ← g.bindParameters v
  let order ← g.order
  order.foldlM
    (fun v id => do
      let op := g.operator id
      return v.bind op.output (← g.operatorResult v op))
    v

/-! ## Real numbers -/

/-- The result of one operator on bound real operands. -/
def realResult (v : Valuation Float) (op : Operator) : Except GraphFault (Array Float) := do
  let out := g.tensor op.output
  match op.operation with
  | .matmul o =>
    let bias ← o.bias.mapM (g.fetch v)
    let left ← g.fetch v o.left
    let right ← g.fetch v o.right
    return Kernel.Real.matmul left right bias (g.matmulDims o) o.activation out.volume
  | .add o =>
    let left ← g.fetch v o.left
    let right ← g.fetch v o.right
    return Kernel.Real.add left right out.volume
  | .normalize o =>
    let input ← g.fetch v o.input
    let gain ← g.fetch v o.gain
    let offset ← g.fetch v o.offset
    return Kernel.Real.normalize input gain offset o.activation out.volume
  | .activate o =>
    let input ← g.fetch v o.input
    return Kernel.Real.activate input o.activation out.volume

/-- The real values of every tensor, from the values of the parameters before
quantization. -/
def evaluateReal (inputs : Valuation Float) : Except GraphFault (Valuation Float) := do
  let v ← g.bindInputs inputs
  let v := g.tensors.toList.foldl
    (fun v t =>
      match t.kind.values? with
      | some values => v.bind t.id values
      | none => v)
    v
  let order ← g.order
  order.foldlM
    (fun v id => do
      let op := g.operator id
      return v.bind op.output (← g.realResult v op))
    v

end Graph

/-! ## Drift -/

/-- How far integer results are from real ones. -/
structure Drift where
  absolute : Float
  /-- Relative to the real result, where that is not near zero. -/
  relative : Float
  deriving Repr, Inhabited

namespace Drift

/-- The drift of integers at a scale from real values. Real values below a
thousandth of the greatest one have no relative error. -/
def measure (ints : Array Int) (scale : Float) (real : Array Float) : Drift :=
  let peak := real.toList.foldl (fun m v => Binary64.maximum m v.abs) 0
  let floor := peak * 1e-3
  (ints.toList.zip real.toList).foldl
    (fun acc (q, f) =>
      let err := (Float.ofInt q / scale - f).abs
      let rel := if f.abs > floor then err / f.abs else 0
      ⟨Binary64.maximum acc.absolute err, Binary64.maximum acc.relative rel⟩)
    ⟨0, 0⟩

end Drift

end QuantAccel
