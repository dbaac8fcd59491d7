import QuantAccel.Config.Hardware
import QuantAccel.Memory.Plan

/-!
# Designs

What a backend receives once a graph is quantized, scheduled and placed: the
design. The context of a compilation hands out the identifiers of the design,
each only once.
-/

namespace QuantAccel

/-! ## Ports -/

inductive PortKind where
  | control
  | data
  | clock
  | reset
  deriving Repr, DecidableEq

def PortKind.name : PortKind → String
  | control => "control"
  | data => "data"
  | clock => "clock"
  | reset => "reset"

def PortKind.ofName? (name : String) : Option PortKind :=
  [control, data, clock, reset].find? fun kind => kind.name == name

/-- A named port of a device, and its width in bits. -/
structure Port where
  name : String
  kind : PortKind
  width : Nat
  deriving Repr, DecidableEq

namespace Port

/-- The control interface. -/
def controlName : String := "saxi"

/-- The byte-addressed interface to the memory image. -/
def dataName : String := "maxi"

def clockName : String := "CLK"

/-- The reset line, active low. -/
def resetName : String := "RESETN"

/-- The ports of every accelerator. -/
def standard (busWidth : Nat) : List Port :=
  [⟨controlName, .control, 32⟩, ⟨dataName, .data, busWidth⟩, ⟨clockName, .clock, 1⟩,
   ⟨resetName, .reset, 1⟩]

end Port

/-! ## Contexts -/

/-- One run of the compiler: the name of its design, its configuration, the
identifiers in use, and the stage that runs. -/
structure Context where
  name : String
  config : HardwareConfig
  identifiers : List String
  stage : Option Stage := none
  deriving Repr

namespace Context

/-- A fresh context, in which only the name of the design is in use. -/
def create (name : String) (config : HardwareConfig) : Except ConfigFault Context := do
  if name.isEmpty then throw .emptyName
  config.validate
  return { name, config, identifiers := [name] }

def isReserved (c : Context) (identifier : String) : Bool :=
  c.identifiers.contains identifier

/-- The first of `base_n`, `base_(n+1)`, … that is not taken; one of the first
`fuel` is free. -/
def numbered (taken : List String) (base : String) : (fuel n : Nat) → String
  | 0, n => base ++ "_" ++ toString n
  | fuel + 1, n =>
    let candidate := base ++ "_" ++ toString n
    if taken.contains candidate then numbered taken base fuel (n + 1) else candidate

/-- An identifier that is not in use: `base` itself, or `base` with the least
number that is free. -/
def freeIdentifier (c : Context) (base : String) : String :=
  if c.isReserved base then numbered c.identifiers base c.identifiers.length 1 else base

/-- Takes a free identifier into use. -/
def reserve (c : Context) (base : String) : String × Context :=
  let identifier := c.freeIdentifier base
  (identifier, { c with identifiers := identifier :: c.identifiers })

end Context

/-! ## Designs -/

/-- A graph that is quantized, scheduled and placed, with the bytes of its
parameters. -/
structure Design where
  name : String
  graph : Graph
  memory : MemoryMap
  config : HardwareConfig
  blob : Bytes
  deriving Repr

namespace Design

def inputs (d : Design) : List TensorId := d.graph.placeholders

def outputs (d : Design) : List TensorId := d.graph.outputs

/-- Where the parameters begin. -/
def parameterBase (d : Design) : Except GraphFault Nat :=
  (·.base) <$> d.memory.region .parameters

/-- Where the intermediates begin. -/
def scratchBase (d : Design) : Except GraphFault Nat :=
  (·.base) <$> d.memory.region .scratch

end Design

end QuantAccel
