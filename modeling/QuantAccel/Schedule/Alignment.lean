import QuantAccel.Schedule.Attributes

/-!
# Padded layouts

The innermost dimension of a tensor is padded to its lane unit: a multiple of
the burst minimum of its element width and of every factor by which an operator
streams it, and the same for all tensors of an elementwise operator. The
dimension before it is padded to the row unit, a multiple of every factor by
which a matrix product takes its rows together.

Units and padded dimensions are exact numbers. Nothing bounds the factors that
are asked for, so a least common multiple or a padded dimension can be too large
for a word; `layouts?` is what a program finds that has words of 64 bits.
-/

namespace QuantAccel

/-- A factor on the lanes and a factor on the rows of a tensor. -/
structure Touch where
  tensor : TensorId
  lanes : Nat
  rows : Nat
  deriving Repr, DecidableEq

/-- The factors by which an operator streams its tensors. -/
def Operation.touches : Operation → List Touch
  | .matmul o =>
    let f := o.factors.getD .serial
    [⟨o.left, f.leftColumns, f.leftRows⟩,
     if o.transposed then ⟨o.right, f.leftColumns, f.outColumns⟩ else ⟨o.right, f.outColumns, 1⟩] ++
      (o.bias.toList.map fun id => ⟨id, f.outColumns, 1⟩) ++
      [⟨o.output, f.outColumns, f.leftRows⟩]
  | o => o.tensors.map fun id => ⟨id, o.outColumns, 1⟩

/-- The tensors that have to share a lane unit. -/
def Operation.laneGroup? : Operation → Option (List TensorId)
  | .matmul _ => none
  | o => some o.tensors

/-- Raises one unit to a common multiple with a factor. -/
def raiseUnit (units : Array Nat) (id : TensorId) (factor : Nat) : Array Nat :=
  units.modify id fun unit => Nat.lcm unit factor

/-- Gives all tensors of a group the least common multiple of their units. -/
def shareUnit (units : Array Nat) (group : List TensorId) : Array Nat :=
  let unit := group.foldl (fun u id => Nat.lcm u (units.getD id 1)) 1
  group.foldl (fun units id => units.setIfInBounds id unit) units

/-- Shares units group by group until nothing changes. -/
def shareUnits (groups : List (List TensorId)) : (fuel : Nat) → Array Nat → Array Nat
  | 0, units => units
  | fuel + 1, units =>
    let units' := groups.foldl shareUnit units
    if units' = units then units else shareUnits groups fuel units'

/-- Enough passes: a pass that changes anything at least doubles some unit, and
all units divide their common multiple. -/
def sharingFuel (units : Array Nat) : Nat :=
  units.size * (units.toList.foldl Nat.lcm 1).log2 + 1

/-- A shape with its last dimension padded to `lanes` and the one before it to
`rows`. -/
def Shape.padded (lanes rows : Nat) : Shape → Shape
  | [] => []
  | [d] => [roundUp d lanes]
  | [d, e] => [roundUp d rows, roundUp e lanes]
  | d :: ds => d :: padded lanes rows ds

/-! ## Units in words

Each function answers with units, or not at all where the program stops. -/

namespace Graph

variable (g : Graph)

/-- All factors by which operators stream tensors. -/
def touches : List Touch :=
  g.operators.toList.flatMap fun op => op.operation.touches

/-- The lane unit of every tensor. -/
def laneUnits (c : HardwareConfig) : Array Nat :=
  let bursts := g.tensors.map fun t => c.burstElements t.element.width
  let units := g.touches.foldl (fun units t => raiseUnit units t.tensor t.lanes) bursts
  shareUnits (g.operators.toList.filterMap fun op => op.operation.laneGroup?)
    (sharingFuel units) units

/-- The row unit of every tensor. -/
def rowUnits : Array Nat :=
  g.touches.foldl (fun units t => raiseUnit units t.tensor t.rows) (g.tensors.map fun _ => 1)

/-- The layout of a tensor. -/
def layoutOf (lanes rows : Array Nat) (t : Tensor) : Layout :=
  let unit := lanes.getD t.id 1
  ⟨t.shape.padded unit (rows.getD t.id 1), unit⟩

/-- The graph with a layout for every tensor. -/
def withLayouts (c : HardwareConfig) : Graph :=
  let lanes := g.laneUnits c
  let rows := g.rowUnits
  g.mapTensors fun t => { t with layout := some (layoutOf lanes rows t) }

/-! ## Layouts in words -/

/-- The padding of a tensor, if it has any. -/
def paddingEvent? (t : Tensor) : Option Event := do
  let layout ← t.layout
  if layout.shape = t.shape then none else some (.tensorPadded t.name t.shape layout.shape)

/-- Refuses a request for an operator that is not there. -/
def checkRequests (requests : AttributeRequests) : Except CompileError Unit :=
  match requests.find? fun (name, _) => (g.operatorNamed? name).isNone with
  | some (name, _) => .error (.attributes name .unknownOperator)
  | none => .ok ()

/-- The graph with parallelism for every operator and a layout for every
tensor. -/
def schedule (c : HardwareConfig) (requests : AttributeRequests) : Traced CompileError Graph := do
  c.validate.mapError CompileError.config
  g.checkRequests requests
  let g ← (List.range g.operators.size).foldlM
    (fun g id =>
      g.applyAttributes c id ((requests.lookup (g.operator id).name).getD {}))
    g
  let g := g.withLayouts c
  (g.tensors.toList.filterMap paddingEvent?).forM Traced.note
  Traced.note (.graphScheduled g.operators.size c.busWidth)
  return g

end Graph

end QuantAccel
