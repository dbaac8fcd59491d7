import QuantAccel.Bench.Basic
import QuantAccel.Compile
import QuantAccel.Graph.Construction

/-!
# Scenarios

Built-in models with everything that their compilation needs besides the
hardware: ranges of their inputs and a parallelism for their operators. The
weights are drawn from a seed.
-/

namespace QuantAccel

structure Scenario where
  name : String
  graph : Graph
  ranges : ValueRanges
  requests : AttributeRequests

namespace Scenario

/-- Weights between `lo` and `hi`, `n` of them. -/
def weights (lo hi : Float) (n : Nat) (r : Generator) : Array Float × Generator :=
  let (values, r) := Generator.draws (Generator.realIn lo hi Generator.attempts) n r
  (values.toArray, r)

/-- A request for some output columns in each cycle. -/
def columns (n : Nat) : AttributeRequest := { outColumns := some n }

/-- The sum of a 15 by 15 matrix product with a trained matrix, and another
matrix. -/
def matmulAdd (parallelism : Nat) (seed : UInt64) : Traced GraphFault Scenario := do
  let (w, _) := weights (-1) 1 (15 * 15) (.ofSeed seed)
  let g ← Graph.built do
    let a ← Graph.addPlaceholder "a" [15, 15] .int32
    let b ← Graph.addTrained "b" [15, 15] .int32 w
    let c ← Graph.addPlaceholder "c" [15, 15] .int32
    let product ← Graph.addMatmul "matmul" a b none .int32
    let d ← Graph.addSum "add" product c .int32
    Graph.markOutput d
  let graph ← g.finish
  return {
    name := "matrix_multiply_add"
    graph
    ranges := [("a", ⟨-120, 120⟩), ("c", ⟨-120, 120⟩)]
    requests := [("matmul", columns parallelism), ("add", columns parallelism)] }

/-- A dense layer, a folded batch normalization, and a leaky activation. -/
def linear (parallelism : Nat) (seed : UInt64) : Traced GraphFault Scenario := do
  let (w, r) := weights (-1) 1 (13 * 15) (.ofSeed seed)
  let (bias, r) := weights (-1) 1 13 r
  let (gain, r) := weights 0.5 1.5 13 r
  let (offset, _) := weights (-1) 1 13 r
  let g ← Graph.built do
    let x ← Graph.addPlaceholder "act" [4, 15] .int32
    let w ← Graph.addTrained "fc.weight" [13, 15] .int32 w
    let bias ← Graph.addTrained "fc.bias" [13] .int32 bias
    let fc ← Graph.addLinear "fc" x w (some bias) none .int32
    let gain ← Graph.addTrained "bn.scale" [13] .int32 gain
    let offset ← Graph.addTrained "bn.shift" [13] .int32 offset
    let y ← Graph.addNormalization "bn" fc gain offset (some (.leakyRelu 0.1)) .int32
    Graph.markOutput y
  let graph ← g.finish
  return {
    name := "linear"
    graph
    ranges := [("act", ⟨-120, 120⟩)]
    requests := [("fc", columns parallelism), ("bn", columns parallelism)] }

/-- Names by which scenarios are chosen. -/
def names : List String := ["matmul-add", "linear"]

/-- The scenario of a name. -/
def byName (name : String) (parallelism : Nat) (seed : UInt64) : Traced SimulationError Scenario :=
  match name with
  | "matmul-add" => (matmulAdd parallelism seed).mapError .graph
  | "linear" => (linear parallelism seed).mapError .graph
  | _ => throw (.config (.unknownScenario name names))

/-- The machine of a scenario. -/
def compile (s : Scenario) (config : HardwareConfig) :
    Traced SimulationError (Compilation Machine) := do
  let ctx ← (Context.create s.name config).mapError fun fault =>
    SimulationError.compile (.config fault)
  (s.graph.compile ctx s.ranges s.requests ({} : MachineBackend)).result.mapError .compile

/-- Compiles a scenario and runs it on a bench with the stimulus of the seed. -/
def run (s : Scenario) (config : HardwareConfig) (simulation : SimulationConfig) :
    Traced SimulationError Report := do
  let compiled ← s.compile config
  let stimulus ← Stimulus.generate compiled.design.graph simulation.seed
  for (output, d) in ← stimulus.drift compiled.design.graph do
    Traced.note (.driftMeasured output d.absolute d.relative)
  let clock : CycleClock := {}
  let bench ← Bench.create compiled.design compiled.product clock stimulus simulation
  let (outcome, bench) := Bench.run.run.run bench
  bench.journal.toList.forM Traced.note
  outcome

end Scenario

end QuantAccel
