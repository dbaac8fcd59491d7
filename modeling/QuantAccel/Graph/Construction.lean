import QuantAccel.Event
import QuantAccel.Graph.Order

/-!
# Building a graph

Tensors are declared and operators are chained onto them; each step checks the
shapes of its operands, so that later stages need not. The result of an operator
is a tensor with the operator's name, added just before the operator. A step
that fails leaves the graph as it was.
-/

namespace QuantAccel

/-- The supported element type of a width. -/
def ElementType.ofWidth (width : Nat) (signed : Bool) : Except GraphFault ElementType :=
  match ofWidth? width signed with
  | some t => .ok t
  | none => .error (.unsupportedWidth width)

namespace Graph

variable (g : Graph)

/-- The shape of an operand. -/
def shapeOf (id : TensorId) : Except GraphFault Shape :=
  match g.tensors[id]? with
  | some t => .ok t.shape
  | none => .error (.unknownTensor id)

/-- Refuses a list with an infinite or undefined value. -/
def checkFinite (name : String) (values : Array Float) : Except GraphFault Unit :=
  match values.findIdx? fun v => !v.isFinite with
  | some i => .error (.nonFiniteValue name i)
  | none => .ok ()

/-- Refuses a leaky activation whose slope is not positive and finite. -/
def checkActivation (name : String) : Option Activation → Except GraphFault Unit
  | some (.leakyRelu slope) =>
    if slope.isFinite && slope > 0 then .ok () else .error (.slopeNotPositive name slope)
  | _ => .ok ()

/-! ## Inputs and parameters -/

def addPlaceholder (name : String) (shape : Shape) (element : ElementType) : Building TensorId :=
  addTensor name shape element .placeholder

/-- A tensor with values, which have to be finite. -/
def addParameter (kind : Array Float → TensorKind) (name : String) (shape : Shape)
    (element : ElementType) (values : Array Float) : Building TensorId := do
  checkFinite name values
  addTensor name shape element (kind values)

def addTrained : String → Shape → ElementType → Array Float → Building TensorId :=
  addParameter .trained

def addFixed : String → Shape → ElementType → Array Float → Building TensorId :=
  addParameter .fixed

/-! ## Operators -/

/-- A result tensor and the operator that writes it. The shape of the result is
found from the operands, which have to fit. -/
def addResult (name : String) (shapeFrom : Graph → Except GraphFault Shape) (element : ElementType)
    (operation : TensorId → Operation) : Building TensorId := do
  let shape ← shapeFrom (← get)
  let output ← addTensor name shape element .intermediate
  addOperator name (operation output)
  return output

/-- The shape `[m, n]` of a matrix product. With `transposed`, the right operand
is stored `[n, k]`. -/
def productShape (name : String) (left right : TensorId) (bias : Option TensorId)
    (transposed : Bool) (activation : Option Activation) : Except GraphFault Shape := do
  match ← g.shapeOf left, ← g.shapeOf right with
  | [m, k], [r₀, r₁] =>
    let (depth, n) := if transposed then (r₁, r₀) else (r₀, r₁)
    if k ≠ depth then throw (.reductionMismatch name k depth)
    if let some bias := bias then
      let shape ← g.shapeOf bias
      if shape ≠ [n] then throw (.biasShape name shape n)
    checkActivation name activation
    return [m, n]
  | leftShape, rightShape => throw (.notMatrices name leftShape rightShape)

def addProduct (name : String) (left right : TensorId) (bias : Option TensorId) (transposed : Bool)
    (activation : Option Activation) (element : ElementType) : Building TensorId :=
  addResult name (fun g => g.productShape name left right bias transposed activation) element
    fun output => .matmul { left, right, bias, output, transposed, activation }

/-- The product `left [m, k] * right [k, n] + bias [n]`. -/
def addMatmul (name : String) (left right : TensorId) (bias : Option TensorId)
    (element : ElementType) : Building TensorId :=
  addProduct name left right bias false none element

/-- A dense layer with weights stored `[n, k]`. -/
def addLinear (name : String) (input weights : TensorId) (bias : Option TensorId)
    (activation : Option Activation) (element : ElementType) : Building TensorId :=
  addProduct name input weights bias true activation element

/-- The shape of an elementwise sum; the right operand has the shape of the left
one, or is one innermost row. -/
def sumShape (name : String) (left right : TensorId) : Except GraphFault Shape := do
  let leftShape ← g.shapeOf left
  let rightShape ← g.shapeOf right
  if rightShape ≠ leftShape ∧ rightShape ≠ [leftShape.innermost] then
    throw (.notBroadcastable name leftShape rightShape)
  return leftShape

/-- An elementwise sum. -/
def addSum (name : String) (left right : TensorId) (element : ElementType) : Building TensorId :=
  addResult name (fun g => g.sumShape name left right) element fun output =>
    .add { left, right, output }

/-- Refuses an operand that is not one value for each channel. -/
def checkChannels (name : String) (channels : Nat) (operand : TensorId) :
    Except GraphFault Unit := do
  let shape ← g.shapeOf operand
  if shape ≠ [channels] then throw (.channelShape name (g.tensor operand).name shape channels)

/-- The shape of a normalization along the innermost axis. -/
def normalizationShape (name : String) (input gain offset : TensorId)
    (activation : Option Activation) :
    Except GraphFault Shape := do
  let shape ← g.shapeOf input
  g.checkChannels name shape.innermost gain
  g.checkChannels name shape.innermost offset
  checkActivation name activation
  return shape

/-- A folded batch normalization along the innermost axis. -/
def addNormalization (name : String) (input gain offset : TensorId)
    (activation : Option Activation) (element : ElementType) : Building TensorId :=
  addResult name (fun g => g.normalizationShape name input gain offset activation) element
    fun output => .normalize { input, gain, offset, output, activation }

/-- The shape of an activation. -/
def activationShape (name : String) (input : TensorId) (activation : Activation) :
    Except GraphFault Shape := do
  let shape ← g.shapeOf input
  checkActivation name (some activation)
  return shape

/-- An activation by itself. -/
def addActivation (name : String) (input : TensorId) (activation : Activation)
    (element : ElementType) : Building TensorId :=
  addResult name (fun g => g.activationShape name input activation) element
    fun output => .activate { input, output, activation }

/-! ## Marks -/

/-- Marks an operator result as an output of the graph. -/
def markOutput (id : TensorId) : Building Unit := do
  let g ← get
  match g.tensors[id]? with
  | none => throw (.unknownTensor id)
  | some t =>
    if t.kind.isIntermediate || t.kind.isOutput then
      set (g.modifyTensor id fun t => { t with kind := .output })
    else throw (.notAResult t.name)

/-- Records the order of the axes of a tensor. -/
def permuteAxes (id : TensorId) (axes : List Nat) : Building Unit := do
  let g ← get
  let shape ← g.shapeOf id
  if isAxisPermutation axes shape.length then
    set (g.modifyTensor id fun t => { t with axes := some axes })
  else throw (.notAPermutation axes shape.length)

/-! ## Whole graphs -/

/-- The graph that steps build from nothing. -/
def built {α : Type} (steps : Building α) : Except GraphFault Graph :=
  let (outcome, g) := steps.run.run {}
  outcome.map fun _ => g

/-- The finished graph: it has an output and its operators can be ordered. -/
def finish : Traced GraphFault Graph := do
  if g.outputs.isEmpty then throw GraphFault.noOutputs
  let _ ← g.order
  Traced.note (.graphBuilt g.tensors.size g.operators.size)
  return g

end Graph

end QuantAccel
