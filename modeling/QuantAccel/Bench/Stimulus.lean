import QuantAccel.Evaluation
import QuantAccel.Event
import QuantAccel.Random
import QuantAccel.SimulationError

/-!
# Stimulus

The inputs of a run and the results that are expected for them. Inputs are drawn
from a seed, within the quantized range of each placeholder; the expected
results are those of integer evaluation.
-/

namespace QuantAccel

structure Stimulus where
  inputs : Valuation Int
  /-- Expected values of each output. -/
  references : Valuation Int

/-- The integers in the quantized range of a tensor, within its element type. -/
def Tensor.intBounds (t : Tensor) : Except SimulationError (Int × Int) :=
  match t.quant with
  | none => .error (.layout t.name .notQuantized)
  | some q =>
    let lo := max (Binary64.toWord64 .up (q.range.lo * q.scale)) t.element.least
    let hi := min (Binary64.toWord64 .down (q.range.hi * q.scale)) t.element.greatest
    .ok (min lo hi, hi)

namespace Stimulus

/-- The stimulus of given inputs. -/
def ofInputs (g : Graph) (inputs : Valuation Int) : Except GraphFault Stimulus := do
  let values ← g.evaluate inputs
  return { inputs, references := fun id => if g.outputs.contains id then values id else none }

/-- Random values for placeholders, one after the other. -/
def drawInputs (g : Graph) :
    (ids : List TensorId) → Generator → Valuation Int → Traced SimulationError (Valuation Int)
  | [], _, inputs => pure inputs
  | id :: rest, r, inputs => do
    let t := g.tensor id
    let (lo, hi) ← t.intBounds
    let (values, r) := Generator.draws (Generator.intIn lo hi) t.volume r
    Traced.note (.stimulusDrawn t.name t.volume lo hi)
    drawInputs g rest r (inputs.bind id values.toArray)

/-- The stimulus of a seed. -/
def generate (g : Graph) (seed : UInt64) : Traced SimulationError Stimulus := do
  let inputs ← drawInputs g g.placeholders (.ofSeed seed) .empty
  (ofInputs g inputs).mapError SimulationError.graph

/-- The inputs as the real numbers that they stand for. -/
def realInputs (s : Stimulus) (g : Graph) : Except SimulationError (Valuation Float) :=
  (List.range g.tensors.size).foldlM
    (fun v id => do
      let some ints := s.inputs id | return v
      let t := g.tensor id
      let some scale := t.scale? | throw (.layout t.name .notQuantized)
      return v.bind id (ints.map fun n => Float.ofInt n / scale))
    .empty

/-- How far each reference is from real arithmetic on the same inputs. -/
def drift (s : Stimulus) (g : Graph) : Except SimulationError (List (String × Drift)) := do
  let real ← (g.evaluateReal (← s.realInputs g)).mapError .graph
  return (List.range g.tensors.size).filterMap fun id => do
    let ints ← s.references id
    let t := g.tensor id
    let scale ← t.scale?
    let expected ← real id
    return (t.name, Drift.measure ints scale expected)

end Stimulus

end QuantAccel
