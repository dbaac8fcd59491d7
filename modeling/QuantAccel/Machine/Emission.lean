import QuantAccel.Machine.Basic

/-!
# Emission

A backend turns a design into a product. The backend of this library emits a
`Machine`: it takes an identifier for the machine and one for the block of each
operator, and plans the operators in dependency order.
-/

namespace QuantAccel

/-- A way to turn designs into products; `emit` may change the backend. -/
class Backend (β : Type) (μ : outParam Type) where
  emit : β → Context → Design → β × Traced CompileError (μ × Context)

/-- Plans operators one after the other, each on a block with an identifier of
its own. -/
def planOperators (design : Design) (machineName : String) (latency : Nat) :
    (order : List OperatorId) → Context → Traced CompileError (List OperatorPlan × Context)
  | [], ctx => pure ([], ctx)
  | id :: rest, ctx => do
    let op := design.graph.operator id
    let (block, ctx) := ctx.reserve (op.operation.blockName ++ "_" ++ op.name)
    let plan ← (design.graph.planOperator design.config.busWidth latency op block).mapError
      (CompileError.emit machineName)
    Traced.note (.operatorPlanned block plan.tiles.length plan.cycles)
    let (plans, ctx) ← planOperators design machineName latency rest ctx
    return (plan :: plans, ctx)

/-- The machine of a design. -/
def Design.machine (design : Design) (latency : Nat) (ctx : Context) :
    Traced CompileError (Machine × Context) := do
  let (name, ctx) := ctx.reserve design.name
  let order ← design.graph.order.mapError CompileError.graph
  let (plans, ctx) ← planOperators design name latency order ctx
  Traced.note (.machineEmitted name plans.length (plans.foldr (·.cycles + ·) 0))
  return ({ name, ports := Port.standard design.config.busWidth, design, plans }, ctx)

/-- Emits machines, and counts the designs that it was given. -/
structure MachineBackend where
  /-- Cycles that every operator spends filling its pipeline. -/
  latency : Nat := 2
  emitted : Nat := 0
  deriving Repr, DecidableEq

instance : Backend MachineBackend Machine where
  emit backend ctx design :=
    ({ backend with emitted := backend.emitted + 1 }, design.machine backend.latency ctx)

end QuantAccel
