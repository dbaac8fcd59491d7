import QuantAccel.Error

/-!
# Simulation errors

Errors of the memory image, of devices and of the bench. A difference between a
result and its reference is no error; it is part of a report.
-/

namespace QuantAccel

inductive Verdict where
  | passed
  | failed
  deriving Repr, DecidableEq

def Verdict.name : Verdict → String
  | passed => "PASSED"
  | failed => "FAILED"

/-- Where a bench is in its run. -/
inductive BenchState where
  | idle
  | addressed
  | running
  | waiting
  | verifying
  | done (verdict : Verdict)
  deriving Repr, DecidableEq

def BenchState.name : BenchState → String
  | idle => "idle"
  | addressed => "addressed"
  | running => "running"
  | waiting => "waiting"
  | verifying => "verifying"
  | done verdict => "done (" ++ verdict.name ++ ")"

/-- The actions of a bench, each possible from one state only. -/
inductive BenchAction where
  | address
  | start
  | wait
  | verify
  deriving Repr, DecidableEq

def BenchAction.name : BenchAction → String
  | address => "address"
  | start => "start"
  | wait => "wait"
  | verify => "verify"

/-- Why a tensor cannot be placed in memory or read from it. -/
inductive LayoutFault where
  | noLayout
  | valueCount (given expected : Nat)
  | noAddress
  | noStimulus
  | noReference
  | outputWithoutAddress
  | notQuantized
  deriving Repr, DecidableEq

def LayoutFault.message : LayoutFault → String
  | noLayout => "no aligned shape"
  | valueCount given expected => s!"{given} values for {expected} elements"
  | noAddress => "no address assigned"
  | noStimulus => "input has no address or no stimulus"
  | noReference => "no reference values"
  | outputWithoutAddress => "output has no address"
  | notQuantized => "not quantized"

/-- What can be wrong with the settings of a simulation. -/
inductive SimulationFault where
  | zeroMaxCycles
  | malformed
  | unreadable (path : String) (fault : ReadFault)
  | registerOverflow (what : String) (value : Nat)
  | dataWidth (port : String) (width expected : Nat)
  | unknownScenario (name : String) (known : List String)
  deriving Repr, DecidableEq

def SimulationFault.message : SimulationFault → String
  | zeroMaxCycles => "max_cycles must be > 0"
  | malformed => "malformed config JSON"
  | unreadable path fault =>
    let reason := fault.message
    s!"reading {path}: {reason}"
  | registerOverflow what value =>
    let v := hex value
    s!"{what} {v} does not fit a control register"
  | dataWidth port width expected => s!"`{port}` is {width} bits wide, design expects {expected}"
  | unknownScenario name known =>
    let names := ", ".intercalate known
    s!"unknown scenario `{name}` (expected one of {names})"

inductive SimulationError where
  | compile (error : CompileError)
  | timeout (device : String) (cycles : Nat)
  | invalidTransition (state : BenchState) (action : BenchAction)
  | missingPort (device port : String)
  | outOfBounds (address length size : Nat)
  | protectedWrite (region : String) (address : Nat)
  | unknownRegister (offset : Nat)
  | layout (tensor : String) (fault : LayoutFault)
  | config (fault : SimulationFault)
  deriving Repr

def SimulationError.message : SimulationError → String
  | compile error => error.message
  | timeout device cycles => s!"simulation of `{device}` timed out after {cycles} cycles"
  | invalidTransition state action =>
    let a := action.name
    let s := state.name
    s!"cannot {a} while the verifier is {s}"
  | missingPort device port => s!"module `{device}` has no `{port}` port"
  | outOfBounds address length size =>
    let a := hex address
    s!"access of {length} bytes at {a} is outside the {size} byte memory image"
  | protectedWrite region address =>
    let a := hex address
    s!"write at {a} hits protected `{region}`"
  | unknownRegister offset =>
    let o := hex offset
    s!"unknown control register {o}"
  | layout tensor fault => s!"layout error for tensor `{tensor}`: " ++ fault.message
  | config fault => "invalid simulation config: " ++ fault.message

/-- An error of a graph, met during simulation. -/
def SimulationError.graph (fault : GraphFault) : SimulationError :=
  .compile (.graph fault)

end QuantAccel
