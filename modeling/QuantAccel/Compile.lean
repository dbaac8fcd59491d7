import QuantAccel.Machine.Emission
import QuantAccel.Quantization
import QuantAccel.Schedule.Alignment

/-!
# Compilation

A graph is quantized, scheduled, placed in memory and handed to a backend,
strictly in that order. The first stage that fails ends the compilation, so a
backend sees finished designs only.
-/

namespace QuantAccel

/-- An error, and the stage that was running. -/
structure Failure where
  stage : Stage
  error : CompileError

/-- A stage of a compilation. -/
def Context.during {α : Type} (ctx : Context) (stage : Stage) (x : Traced CompileError α) :
    Traced Failure α := do
  Traced.note (.stageEntered ctx.name stage)
  x.mapError (Failure.mk stage)

/-- The design of a scheduled graph: its memory plan and the bytes of its
parameters. -/
def Graph.toDesign (g : Graph) (name : String) (config : HardwareConfig) :
    Traced CompileError Design := do
  let (outcome, placed) := g.planMemory config.chunkSize config.memoryBound
  let memory ← outcome
  memory.events.forM Traced.note
  let blob ← (placed.parameterBlob memory).mapError CompileError.graph
  return { name, graph := placed, memory, config, blob }

/-- The stages before emission. -/
def Graph.prepare (g : Graph) (ctx : Context) (ranges : ValueRanges)
    (requests : AttributeRequests) :
    Traced Failure Design := do
  let quantized ← ctx.during .quantize (g.quantizeTraced ranges)
  let scheduled ← ctx.during .schedule (quantized.schedule ctx.config requests)
  ctx.during .allocate (scheduled.toDesign ctx.name ctx.config)

/-- A design and what a backend made of it. -/
structure Compilation (μ : Type) where
  design : Design
  product : μ

/-- A compilation, with the context and the backend after it. -/
structure CompileRun (β μ : Type) where
  context : Context
  backend : β
  result : Traced CompileError (Compilation μ)

/-- Compiles a graph with a backend. -/
def Graph.compile {β μ : Type} [Backend β μ] (g : Graph) (ctx : Context) (ranges : ValueRanges)
    (requests : AttributeRequests) (backend : β) : CompileRun β μ :=
  let prepared := g.prepare ctx ranges requests
  match prepared.outcome with
  | .error failure =>
    { context := { ctx with stage := some failure.stage }, backend
      result := ⟨.error failure.error, prepared.events⟩ }
  | .ok design =>
    let ctx := { ctx with stage := some .emit }
    let (backend, emission) := Backend.emit backend ctx design
    let result : Traced CompileError (Compilation μ) := do
      Traced.note (.stageEntered ctx.name .emit)
      let (product, _) ← emission
      Traced.note (.designCompiled design.name design.graph.operators.size design.memory.size)
      return { design, product }
    let context := match emission.outcome with
      | .ok (_, ctx) => ctx
      | .error _ => ctx
    { context, backend, result := ⟨result.outcome, prepared.events ++ result.events⟩ }

end QuantAccel
