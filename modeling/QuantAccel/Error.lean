import QuantAccel.Directory
import QuantAccel.Number.Decimal
import QuantAccel.Number.Hex
import QuantAccel.Tensor.Basic
import QuantAccel.Operator

/-!
# Compilation errors

Every error is a cause with the names it concerns. The wording stands in the
`message` functions, and each error belongs to the stage of compilation that
raises it.
-/

namespace QuantAccel

/-- Stages of compilation, in the order in which they run. -/
inductive Stage where
  | ingest
  | quantize
  | schedule
  | allocate
  | emit
  deriving Repr, DecidableEq

def Stage.name : Stage → String
  | ingest => "ingest"
  | quantize => "quantize"
  | schedule => "schedule"
  | allocate => "allocate"
  | emit => "emit"

/-- The regions of the memory image. -/
inductive RegionKind where
  | activations
  | parameters
  | reference
  | scratch
  deriving Repr, DecidableEq

def RegionKind.name : RegionKind → String
  | activations => "Activations"
  | parameters => "Parameters"
  | reference => "Reference"
  | scratch => "Scratch"

def RegionKind.ofName? (name : String) : Option RegionKind :=
  [activations, parameters, reference, scratch].find? fun kind => kind.name == name

/-! ## Graphs -/

/-- What can be wrong with a graph or with a question about it. -/
inductive GraphFault where
  | unsupportedWidth (width : Nat)
  | duplicateTensor (name : String)
  | duplicateOperator (name : String)
  | invalidShape (name : String) (shape : Shape)
  | valueCount (name : String) (given : Nat) (shape : Shape)
  | nonFiniteValue (name : String) (index : Nat)
  | unknownTensor (id : TensorId)
  | notMatrices (name : String) (left right : Shape)
  | reductionMismatch (name : String) (left right : Nat)
  | biasShape (name : String) (shape : Shape) (columns : Nat)
  | notBroadcastable (name : String) (left right : Shape)
  | channelShape (name operand : String) (shape : Shape) (channels : Nat)
  | slopeNotPositive (name : String) (slope : Float)
  | notAResult (name : String)
  | notAPermutation (axes : List Nat) (rank : Nat)
  | noOutputs
  | writtenTwice (tensor first second : String)
  | cyclic (operator : String)
  | addressReassigned (name : String) (existing address : Nat)
  | notPackable (name : String)
  | noRegion (kind : RegionKind)
  | missingInput (name : String)
  | inputCount (name : String) (given expected : Nat)
  | unboundValue (name : String)
  | parameterNotQuantized (name : String)
  | operatorNotQuantized (name : String)
  deriving Repr

def GraphFault.message : GraphFault → String
  | unsupportedWidth width => s!"unsupported element width {width} (expected 1..=64)"
  | duplicateTensor name => s!"duplicate tensor name `{name}`"
  | duplicateOperator name => s!"duplicate operator name `{name}`"
  | invalidShape name shape =>
    let dims := shape.text
    s!"tensor `{name}` has invalid shape {dims} (dimensions must be positive)"
  | valueCount name given shape =>
    let dims := shape.text
    let elements := shape.volume
    s!"tensor `{name}` has {given} values for shape {dims} ({elements} elements)"
  | nonFiniteValue name index => s!"`{name}` has a non-finite value at index {index}"
  | unknownTensor id => s!"unknown tensor id {id}"
  | notMatrices name left right =>
    let l := left.text
    let r := right.text
    s!"`{name}`: matmul operands must be 2-D, got {l} and {r}"
  | reductionMismatch name left right => s!"`{name}`: reduction length mismatch ({left} vs {right})"
  | biasShape name shape columns =>
    let dims := shape.text
    s!"`{name}`: bias shape {dims} does not match {columns} output columns"
  | notBroadcastable name left right =>
    let l := left.text
    let r := right.text
    s!"`{name}`: cannot broadcast {r} onto {l}"
  | channelShape name operand shape channels =>
    let dims := shape.text
    s!"`{name}`: `{operand}` has shape {dims}, expected [{channels}]"
  | slopeNotPositive name slope =>
    let value := Binary64.plain slope
    s!"`{name}`: leaky relu slope must be positive, got {value}"
  | notAResult name => s!"`{name}` is not an operator result and cannot be an output"
  | notAPermutation axes rank =>
    let list := Shape.text axes
    s!"{list} is not a permutation of {rank} axes"
  | noOutputs => "graph has no outputs"
  | writtenTwice tensor first second =>
    s!"tensor `{tensor}` is written by both `{first}` and `{second}`"
  | cyclic operator => s!"operator `{operator}` is part of a dependency cycle"
  | addressReassigned name existing address =>
    let old := hex existing
    let new := hex address
    s!"address of `{name}` already assigned ({old}), refusing {new}"
  | notPackable name => s!"parameter `{name}` has not been quantized and aligned"
  | noRegion kind =>
    let region := kind.name
    s!"memory map has no {region} region"
  | missingInput name => s!"missing input `{name}`"
  | inputCount name given expected => s!"input `{name}` has {given} values, expected {expected}"
  | unboundValue name => s!"no value bound for `{name}`"
  | parameterNotQuantized name => s!"parameter `{name}` has not been quantized"
  | operatorNotQuantized name => s!"operator `{name}` has no requantization parameters"

/-! ## Configuration -/

/-- What can be wrong with a hardware configuration or the name of a design. -/
inductive ConfigFault where
  | emptyName
  | zeroBusWidth
  | zeroChunkSize
  | zeroMemoryBound
  | malformed
  | unreadable (path : String) (fault : ReadFault)
  deriving Repr, DecidableEq

def ConfigFault.message : ConfigFault → String
  | emptyName => "module name must not be empty"
  | zeroBusWidth => "bus_width must be > 0"
  | zeroChunkSize => "chunk_size must be > 0"
  | zeroMemoryBound => "memory_bound must be > 0"
  | malformed => "malformed config JSON"
  | unreadable path fault =>
    let reason := fault.message
    s!"reading {path}: {reason}"

/-! ## Quantization -/

/-- The multiplier that a ratio is wanted for. -/
inductive RatioRole where
  | output
  | bias
  | offset
  | slope
  deriving Repr, DecidableEq

def RatioRole.name : RatioRole → String
  | output => "output"
  | bias => "bias"
  | offset => "shift"
  | slope => "leaky slope"

/-- Why no range or multiplier could be found. -/
inductive RangeFault where
  | missing
  | missingFor (consumer : String)
  | invalid (range : ValueRange)
  | negative (lo : Float) (element : ElementType)
  | zeroMagnitude
  | ratio (role : RatioRole) (value : Float)
  | ratioPair (left right : Float)
  | underflow (left : Float)
  deriving Repr

def RangeFault.message : RangeFault → String
  | missing => "no declared range, no data, and no producer to propagate from"
  | missingFor consumer =>
    s!"no declared range, no data, and no producer to propagate from (consumed by `{consumer}`)"
  | invalid range =>
    let lo := Binary64.plain range.lo
    let hi := Binary64.plain range.hi
    s!"invalid range ({lo}, {hi})"
  | negative lo element =>
    let least := Binary64.plain lo
    let type := element.name
    s!"negative minimum {least} for unsigned {type}"
  | zeroMagnitude => "declared range has zero magnitude"
  | ratio role value =>
    let what := role.name
    let r := Binary64.plain value
    s!"{what} rescale ratio {r} is not representable"
  | ratioPair left right =>
    let l := Binary64.plain left
    let r := Binary64.plain right
    s!"add rescale ratios {l}, {r} not representable"
  | underflow left =>
    let l := Binary64.plain left
    s!"lhs rescale ratio {l} underflows the shared shift"

/-! ## Scheduling -/

/-- The numeric fields of an attribute request. -/
inductive AttributeField where
  | leftColumns
  | leftRows
  | outColumns
  | inFlight
  deriving Repr, DecidableEq

def AttributeField.name : AttributeField → String
  | leftColumns => "par_left_col"
  | leftRows => "par_left_row"
  | outColumns => "par_out_col"
  | inFlight => "concur_out_col"

/-- Why an attribute request is refused. -/
inductive AttributeFault where
  | unknownOperator
  | notPositive (field : AttributeField)
  | belowBurst (field : AttributeField) (factor busWidth width minimum : Nat) (tensor : String)
  | notMultiple (inFlight outColumns : Nat)
  | matmulOnly (field : AttributeField)
  | stationaryMatmulOnly
  | inFlightDiffers
  deriving Repr, DecidableEq

def AttributeFault.message : AttributeFault → String
  | unknownOperator => "no operator with this name"
  | notPositive field =>
    let f := field.name
    s!"{f} must be >= 1"
  | belowBurst field factor busWidth width minimum tensor =>
    let f := field.name
    s!"{f}={factor} is below the burst minimum ceil({busWidth}/{width})={minimum} for `{tensor}`"
  | notMultiple inFlight outColumns =>
    s!"concur_out_col={inFlight} is not a multiple of par_out_col={outColumns}"
  | matmulOnly field =>
    let f := field.name
    s!"{f} is only meaningful for matmul operators"
  | stationaryMatmulOnly => "stationary operand is only meaningful for matmul operators"
  | inFlightDiffers => "concur_out_col must equal par_out_col for elementwise operators"

/-! ## Emission -/

/-- Why a design cannot become a machine. -/
inductive EmitFault where
  | unscheduled (operator block : String)
  | unscaled
  deriving Repr, DecidableEq

def EmitFault.message : EmitFault → String
  | unscheduled operator block => s!"operator `{operator}`: {block} has not been scheduled"
  | unscaled => "operator has no requantization parameters"

/-! ## All stages -/

/-- An error of compilation. -/
inductive CompileError where
  | graph (fault : GraphFault)
  | config (fault : ConfigFault)
  | range (tensor : String) (fault : RangeFault)
  | bitWidth (tensor : String) (needed declared : Nat)
  | attributes (operator : String) (fault : AttributeFault)
  | addressOverflow (entity : String) (stop bound : Nat)
  | emit (design : String) (fault : EmitFault)
  deriving Repr

namespace CompileError

def message : CompileError → String
  | graph fault => "graph error: " ++ fault.message
  | config fault => "invalid configuration: " ++ fault.message
  | range tensor fault => s!"range inference failed for tensor `{tensor}`: " ++ fault.message
  | bitWidth tensor needed declared =>
    s!"tensor `{tensor}` needs {needed} bits for its value range but is declared {declared} bits wide"
  | attributes operator fault => s!"invalid attributes for operator `{operator}`: " ++ fault.message
  | addressOverflow entity stop bound =>
    let s := hex stop
    let b := hex bound
    s!"address overflow while placing `{entity}`: end offset {s} exceeds memory bound {b}"
  | emit design fault => s!"emission of module `{design}` failed: " ++ fault.message

/-- The stage that raises an error. -/
def stage : CompileError → Stage
  | graph _ | config _ => .ingest
  | range _ _ | bitWidth _ _ _ => .quantize
  | attributes _ _ => .schedule
  | addressOverflow _ _ _ => .allocate
  | emit _ _ => .emit

end CompileError

end QuantAccel
