import QuantAccel.Config.Hardware
import QuantAccel.Graph.Basic
import QuantAccel.Schedule.Attributes

/-!
# Tiles and cycles

An operator runs in two phases. Its operands stream in over the bus, and then
its output is completed tile by tile. A tile of a matrix product is a block of
rows and columns; a tile of an elementwise operator is a run of elements in one
innermost row.

Bits of operands, elements and cycles are counted exactly. No sum or product of
this module is too large for a word of 64 bits as long as the operands of an
operator have fewer than `2 ^ 60` bytes together, and the latency and the
products of its factors with its dimensions are below `2 ^ 63`.
-/

namespace QuantAccel

/-- Output elements that are completed together, and the cycles that they
take. -/
structure Tile where
  cycles : Nat
  elements : List Nat
  deriving Repr, DecidableEq, Inhabited

/-- How one operator runs on its block of hardware. -/
structure OperatorPlan where
  operator : OperatorId
  /-- Identifier of the block. -/
  block : String
  fetchCycles : Nat
  tiles : List Tile
  deriving Repr, DecidableEq, Inhabited

/-- Cycles from the start of the fetch to the end of the last tile. -/
def OperatorPlan.cycles (p : OperatorPlan) : Nat :=
  p.fetchCycles + p.tiles.foldr (·.cycles + ·) 0

/-- Consecutive runs of at most `step` numbers that make up `0 .. total`. -/
def runs (total step : Nat) : List (List Nat) :=
  (List.range ((total + step - 1) / step)).map fun i =>
    List.range' (i * step) (min (i * step + step) total - i * step)

/-- Tiles of a matrix product with `m` rows, depth `k` and `n` columns. -/
def matmulTiles (m k n : Nat) (f : MatmulFactors) : List Tile :=
  let cycles := (k + f.leftColumns - 1) / f.leftColumns *
    ((f.inFlight + f.outColumns - 1) / f.outColumns)
  (runs m f.leftRows).flatMap fun rows =>
    (runs n f.inFlight).map fun columns =>
      { cycles, elements := rows.flatMap fun r => columns.map fun c => r * n + c }

/-- Tiles of an elementwise operator with `rows` rows of `columns` elements. -/
def laneTiles (rows columns lanes : Nat) : List Tile :=
  (List.range rows).flatMap fun r =>
    (runs columns lanes).map fun run =>
      { cycles := 1, elements := run.map fun c => r * columns + c }

namespace Graph

variable (g : Graph)

/-- Cycles to stream in the operands of an operator, after `latency` cycles that
fill its pipeline. -/
def fetchCycles (busWidth latency : Nat) (op : Operator) : Nat :=
  let bits := op.inputs.foldr (fun id n => (g.tensor id).memorySize * 8 + n) 0
  max ((bits + busWidth - 1) / busWidth) 1 + latency

/-- Tiles of a scheduled operator. -/
def tiles? (op : Operator) : Option (List Tile) :=
  let out := g.tensor op.output
  match op.operation with
  | .matmul o =>
    o.factors.map fun f =>
      matmulTiles (out.shape.getD 0 0) ((g.tensor o.left).shape.getD 1 0) (out.shape.getD 1 0) f
  | o => o.lanes?.map fun lanes => laneTiles (out.volume / out.innermost) out.innermost lanes

/-- The plan of a scheduled operator. -/
def planOperator (busWidth latency : Nat) (op : Operator) (block : String) :
    Except EmitFault OperatorPlan :=
  match g.tiles? op with
  | some tiles =>
    .ok { operator := op.id, block, fetchCycles := g.fetchCycles busWidth latency op, tiles }
  | none => .error (.unscheduled op.name op.operation.blockName)

end Graph

end QuantAccel
