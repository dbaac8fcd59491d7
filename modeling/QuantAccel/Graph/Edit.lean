import QuantAccel.Graph.Basic

/-!
# Edits

Changes to a finished graph, made without any check. They turn a graph into one
that construction would refuse, such as a cycle or a tensor with two writers.
-/

namespace QuantAccel

/-- The places of an operation that name a tensor and can be wired anew. -/
inductive Slot where
  | left
  | right
  | bias
  | input
  | output
  deriving Repr, DecidableEq

/-- The operation with a tensor in one of its slots; a slot that it does not
have changes nothing. -/
def Operation.rewire (slot : Slot) (id : TensorId) : Operation → Operation
  | matmul m => matmul <| match slot with
    | .left => { m with left := id }
    | .right => { m with right := id }
    | .bias => { m with bias := some id }
    | .output => { m with output := id }
    | .input => m
  | add a => add <| match slot with
    | .left => { a with left := id }
    | .right => { a with right := id }
    | .output => { a with output := id }
    | .bias | .input => a
  | normalize n => normalize <| match slot with
    | .input => { n with input := id }
    | .output => { n with output := id }
    | .left | .right | .bias => n
  | activate r => activate <| match slot with
    | .input => { r with input := id }
    | .output => { r with output := id }
    | .left | .right | .bias => r

inductive Edit where
  /-- Another tensor in a slot of an operator. -/
  | rewire (operator : OperatorId) (slot : Slot) (tensor : TensorId)
  /-- Another role of a tensor. -/
  | kind (tensor : TensorId) (kind : TensorKind)
  /-- Another layout of a tensor. -/
  | layout (tensor : TensorId) (layout : Layout)
  /-- No operators; their names stay in use. -/
  | clearOperators
  deriving Repr

/-- The graph after an edit. -/
def Graph.edit (g : Graph) : Edit → Graph
  | .rewire id slot tensor =>
    g.modifyOperator id fun op => { op with operation := op.operation.rewire slot tensor }
  | .kind id kind => g.modifyTensor id fun t => { t with kind }
  | .layout id layout => g.modifyTensor id fun t => { t with layout := some layout }
  | .clearOperators => { g with operators := #[] }

end QuantAccel
