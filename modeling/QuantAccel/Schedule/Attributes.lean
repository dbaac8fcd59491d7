import QuantAccel.Config.Hardware
import QuantAccel.Event
import QuantAccel.Graph.Basic

/-!
# Parallelism of operators

A request asks for the parallelism of one operator; what it leaves open takes a
default. A factor that streams a tensor has to fill a bus transfer with elements
of that tensor, so it is checked against the burst minimum of the element width.
Below the minimum it is refused or raised, as the configuration says.
-/

namespace QuantAccel

/-- Requested parallelism of one operator. -/
structure AttributeRequest where
  leftColumns : Option Nat := none
  leftRows : Option Nat := none
  outColumns : Option Nat := none
  inFlight : Option Nat := none
  stationary : Option Stationary := none
  deriving Repr, DecidableEq, Inhabited

/-- Requests by operator name. -/
abbrev AttributeRequests := List (String × AttributeRequest)

/-- The dimension `dim` raised to the next multiple of `unit`. -/
def roundUp (dim unit : Nat) : Nat :=
  (dim + unit - 1) / unit * unit

/-- A requested factor, or its default; zero is refused. -/
def requestedFactor (name : String) (field : AttributeField) (request : Option Nat)
    (default : Nat) :
    Except CompileError Nat :=
  match request with
  | some 0 => .error (.attributes name (.notPositive field))
  | some n => .ok n
  | none => .ok default

/-- A factor that fills a bus transfer of a tensor. -/
def burstFactor (c : HardwareConfig) (name : String) (field : AttributeField) (t : Tensor)
    (factor : Nat) : Traced CompileError Nat := do
  let minimum := c.burstElements t.element.width
  if factor < minimum then
    match c.burstPolicy with
    | .reject =>
      let fault := .belowBurst field factor c.busWidth t.element.width minimum t.name
      throw (CompileError.attributes name fault)
    | .widen =>
      Traced.note (.factorWidened name field factor minimum)
      return minimum
  else return factor

namespace Graph

variable (g : Graph)

/-- The parallelism of a matrix product. -/
def matmulFactors (c : HardwareConfig) (name : String) (o : Matmul) (request : AttributeRequest) :
    Traced CompileError MatmulFactors := do
  let out := g.tensor o.output
  let leftColumns ← requestedFactor name .leftColumns request.leftColumns 1
  let leftRows ← requestedFactor name .leftRows request.leftRows 1
  let outColumns ← requestedFactor name .outColumns request.outColumns 1
  let leftColumns ← burstFactor c name .leftColumns (g.tensor o.left) leftColumns
  let leftColumns ←
    if o.transposed then burstFactor c name .leftColumns (g.tensor o.right) leftColumns
    else pure leftColumns
  let outColumns ← burstFactor c name .outColumns out outColumns
  let inFlight ← requestedFactor name .inFlight request.inFlight outColumns
  if inFlight % outColumns ≠ 0 then
    throw (CompileError.attributes name (.notMultiple inFlight outColumns))
  let factors : MatmulFactors :=
    { leftColumns, leftRows, outColumns
      inFlight := min inFlight (roundUp out.innermost outColumns)
      stationary := request.stationary.getD .right }
  Traced.note (.matmulScheduled name factors)
  return factors

/-- Refuses what only a matrix product can be asked for. -/
def checkElementwise (name : String) (request : AttributeRequest) : Except CompileError Unit := do
  if request.leftColumns.any (· ≠ 1) then throw (.attributes name (.matmulOnly .leftColumns))
  if request.leftRows.any (· ≠ 1) then throw (.attributes name (.matmulOnly .leftRows))
  if request.stationary = some .left then throw (.attributes name .stationaryMatmulOnly)

/-- The lane factor of an elementwise operator, which streams all its operands
and its result. -/
def laneFactor (c : HardwareConfig) (name : String) (o : Operation) (request : AttributeRequest) :
    Traced CompileError Nat := do
  checkElementwise name request
  let lanes ← requestedFactor name .outColumns request.outColumns 1
  if request.inFlight.any (· ≠ lanes) then throw (CompileError.attributes name .inFlightDiffers)
  let lanes ← o.tensors.foldlM
    (fun lanes id => burstFactor c name .outColumns (g.tensor id) lanes) lanes
  Traced.note (.lanesScheduled name lanes)
  return lanes

/-- The graph with a request settled on one operator. -/
def applyAttributes (c : HardwareConfig) (id : OperatorId) (request : AttributeRequest) :
    Traced CompileError Graph := do
  let op := g.operator id
  let operation ← match op.operation with
    | .matmul o => do
      let factors ← g.matmulFactors c op.name o request
      pure (Operation.matmul { o with factors := some factors })
    | o => do
      let lanes ← g.laneFactor c op.name o request
      pure (o.withLanes lanes)
  return g.modifyOperator id fun op => { op with operation }

end Graph

end QuantAccel
