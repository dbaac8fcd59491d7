import QuantAccel.Event
import QuantAccel.Graph.Order

/-!
# Quantization

Every tensor gets a range: the one declared for it, else the one observed in its
values, else the one propagated from the operator that writes it. A declared
range takes only the bits that its magnitude needs; the other ranges take the
full width of the element type. The range gives a scale, and the scales of its
tensors give an operator its multipliers. A multiplier realises a ratio only
nearly, so the result of an operator takes the scale that is realised.
-/

namespace QuantAccel

/-- Declared ranges by tensor name. -/
abbrev ValueRanges := List (String × ValueRange)

/-- The greatest absolute value in a range. -/
def ValueRange.magnitude (r : ValueRange) : Float :=
  Binary64.maximum r.lo.abs r.hi.abs

/-- Bits of an integer that holds the magnitude `m`. -/
def bitsNeeded (m : Float) (signed : Bool) : Nat :=
  let n := (Binary64.toInt .up 0 (Nat.pow 2 128 - 1) m.abs).toNat
  let bits := if n = 0 then 0 else n.log2 + 1
  if signed then bits + 1 else max bits 1

/-- The greatest magnitude of an integer of `width` bits, as a real number. -/
def quantizedMax (width : Nat) (signed : Bool) : Float :=
  Binary64.powerOfTwo (if signed then width - 1 else width) - 1

namespace QuantParams

/-- Refuses a range that is not finite and ordered, or is negative for an
unsigned type. -/
def checkRange (name : String) (t : ElementType) (r : ValueRange) : Except CompileError Unit := do
  if !(r.lo.isFinite && r.hi.isFinite) || r.lo > r.hi then throw (.range name (.invalid r))
  if !t.signed && r.lo < 0 then throw (.range name (.negative r.lo t))

/-- Parameters of a declared range. -/
def declared (name : String) (t : ElementType) (r : ValueRange) :
    Except CompileError QuantParams := do
  checkRange name t r
  let m := r.magnitude
  if m == 0 then throw (.range name .zeroMagnitude)
  let needed := bitsNeeded m t.signed
  if t.width < needed then throw (.bitWidth name needed t.width)
  return { scale := quantizedMax needed t.signed / m, width := needed, range := r
           source := .declared }

/-- Parameters that use the full width of the element type. -/
def fullWidth (name : String) (t : ElementType) (r : ValueRange) (source : RangeSource) :
    Except CompileError QuantParams := do
  checkRange name t r
  let m := if r.magnitude == 0 then 1 else r.magnitude
  return { scale := quantizedMax t.width t.signed / m, width := t.width, range := r, source }

/-- Parameters of the values of a tensor. -/
def observed (name : String) (t : ElementType) (values : Array Float) :
    Except CompileError QuantParams :=
  let infinity : Float := 1 / 0
  let lo := values.toList.foldl Binary64.minimum infinity
  let hi := values.toList.foldl Binary64.maximum (-infinity)
  fullWidth name t ⟨lo, hi⟩ .observed

end QuantParams

/-- The parameters that a tensor has before its graph is walked. -/
def Tensor.initialQuant (ranges : ValueRanges) (t : Tensor) :
    Except CompileError (Option QuantParams) :=
  match ranges.lookup t.name, t.kind.values? with
  | some r, _ => some <$> QuantParams.declared t.name t.element r
  | none, some values => some <$> QuantParams.observed t.name t.element values
  | none, none => .ok none

namespace Graph

variable (g : Graph)

/-! ## Propagation -/

def rangeOf (id : TensorId) : ValueRange :=
  match (g.tensor id).quant with
  | some q => q.range
  | none => ⟨0, 0⟩

def magnitudeOf (id : TensorId) : Float :=
  (g.rangeOf id).magnitude

def scaleOf (id : TensorId) : Float :=
  (g.tensor id).scale?.getD 1

/-- The range from `-m` to `m` after an optional activation. -/
def symmetricRange (m : Float) (activation : Option Activation) : ValueRange :=
  match activation with
  | some f => f.range ⟨-m, m⟩
  | none => ⟨-m, m⟩

/-- The range of the result of an operator, from the ranges of its operands. -/
def propagatedRange : Operation → ValueRange
  | .matmul o =>
    let k := Float.ofNat (g.tensor o.left).innermost
    let bias := match o.bias with
      | some id => g.magnitudeOf id
      | none => 0
    symmetricRange (k * g.magnitudeOf o.left * g.magnitudeOf o.right + bias) o.activation
  | .add o =>
    let l := g.rangeOf o.left
    let r := g.rangeOf o.right
    ⟨l.lo + r.lo, l.hi + r.hi⟩
  | .normalize o =>
    let m := g.magnitudeOf o.input * g.magnitudeOf o.gain + g.magnitudeOf o.offset
    symmetricRange m o.activation
  | .activate o => o.activation.range (g.rangeOf o.input)

end Graph

/-! ## Multipliers -/

/-- The multiplier of a ratio, or the error that it has none. -/
def ratioMultiplier (name : String) (role : RatioRole) (r : Float) :
    Except CompileError Multiplier :=
  match Multiplier.ofRatio? r with
  | some m => .ok m
  | none => .error (.range name (.ratio role r))

/-- The multiplier of the slope of a leaky activation. -/
def slopeMultiplier (name : String) : Option Activation → Except CompileError (Option Multiplier)
  | some (.leakyRelu slope) => some <$> ratioMultiplier name .slope slope
  | _ => .ok none

/-- Multipliers around an accumulator of scale `acc`, with the scale of the
result that they realise. -/
def accumulatorRescale (name : String) (target acc : Float) (bias : Option (RatioRole × Float))
    (activation : Option Activation) : Except CompileError (Rescale × Float) := do
  let out ← ratioMultiplier name .output (target / acc)
  let bias ← match bias with
    | some (role, scale) => some <$> ratioMultiplier name role (acc / scale)
    | none => pure none
  let slope ← slopeMultiplier name activation
  return ({ out, bias, slope }, out.ratio * acc)

/-- Factors of a sum. The smaller ratio sets the precision of the shared shift,
the larger one the room that its factor leaves in a 64-bit word. The right
operand is brought to the scale on which the left one lands. -/
def sumRescale (name : String) (target left right : Float) :
    Except CompileError (PairRescale × Float) := do
  let leftRatio := target / left
  let rightRatio := target / right
  let unrepresentable := CompileError.range name (.ratioPair leftRatio rightRatio)
  let some precise := Multiplier.shiftFor (Binary64.minimum leftRatio rightRatio)
    | throw unrepresentable
  let larger := Binary64.maximum leftRatio rightRatio
  if !larger.isFinite || larger ≥ Binary64.powerOfTwo 62 then throw unrepresentable
  let headroom := match Binary64.positive? larger with
    | some (significand, exponent) => (62 - Binary64.ceilLog2 significand exponent).toNat
    | none => 62
  let shift := min precise headroom
  let unit := Binary64.powerOfTwo shift
  let leftFactor := Binary64.toWord64 .nearest (leftRatio * unit)
  if leftFactor = 0 then throw (.range name (.underflow leftRatio))
  let realised := Float.ofInt leftFactor / unit * left
  let rightFactor := Binary64.toWord64 .nearest (realised / right * unit)
  return (⟨leftFactor, rightFactor, shift⟩, realised)

namespace Graph

variable (g : Graph)

/-- An operator with its multipliers, and the scale of its result that they
realise. -/
def rescaled (op : Operator) : Except CompileError (Operator × Float) := do
  let target := g.scaleOf op.output
  match op.operation with
  | .matmul o =>
    let acc := g.scaleOf o.left * g.scaleOf o.right
    let bias := o.bias.map fun id => (RatioRole.bias, g.scaleOf id)
    let (rescale, realised) ← accumulatorRescale op.name target acc bias o.activation
    return ({ op with operation := .matmul { o with rescale := some rescale } }, realised)
  | .add o =>
    let (rescale, realised) ← sumRescale op.name target (g.scaleOf o.left) (g.scaleOf o.right)
    return ({ op with operation := .add { o with rescale := some rescale } }, realised)
  | .normalize o =>
    let acc := g.scaleOf o.input * g.scaleOf o.gain
    let bias := some (RatioRole.offset, g.scaleOf o.offset)
    let (rescale, realised) ← accumulatorRescale op.name target acc bias o.activation
    return ({ op with operation := .normalize { o with rescale := some rescale } }, realised)
  | .activate o =>
    let acc := g.scaleOf o.input
    let (rescale, realised) ← accumulatorRescale op.name target acc none (some o.activation)
    return ({ op with operation := .activate { o with rescale := some rescale } }, realised)

/-! ## The passes -/

/-- No tensor quantized. -/
def unquantized : Graph :=
  g.mapTensors fun t => { t with quant := none, ints := none }

/-- Declared and observed ranges. -/
def withInitialQuant (ranges : ValueRanges) : Except CompileError Graph := do
  let tensors ← g.tensors.toList.mapM fun t => do
    let quant ← t.initialQuant ranges
    return { t with quant }
  return { g with tensors := tensors.toArray }

/-- Refuses an operand without a range. -/
def checkOperands (op : Operator) : Except CompileError Unit :=
  match op.inputs.find? fun id => (g.tensor id).quant.isNone with
  | some id => .error (.range (g.tensor id).name (.missingFor op.name))
  | none => .ok ()

/-- The graph whose operator results in a propagated range, unless its result
has a range already. -/
def withPropagated (op : Operator) : Except CompileError Graph := do
  let out := g.tensor op.output
  if out.quant.isSome then return g
  let quant ← QuantParams.fullWidth out.name out.element
      (g.propagatedRange op.operation) .propagated
  return g.modifyTensor op.output fun t => { t with quant := some quant }

/-- One operator quantized: its operands have scales, and its result takes the
realised one. -/
def quantizeOperator (id : OperatorId) : Except CompileError Graph := do
  let op := g.operator id
  g.checkOperands op
  let g ← g.withPropagated op
  let (op', realised) ← g.rescaled op
  let g := g.modifyOperator id fun _ => op'
  return g.modifyTensor op.output fun t =>
    { t with quant := t.quant.map fun q => { q with scale := realised } }

/-- Refuses a tensor that is left without a range. -/
def checkQuantized : Except CompileError Unit :=
  match g.tensors.toList.find? fun t => t.quant.isNone with
  | some t => .error (.range t.name .missing)
  | none => .ok ()

/-- The integers of every parameter. -/
def withParameterInts : Graph :=
  g.mapTensors fun t =>
    match t.kind.values?, t.quant with
    | some values, some q =>
      { t with ints := some (values.map fun v => t.element.saturate (quantizeValue v q.scale)) }
    | _, _ => t

/-- The graph with every tensor and operator quantized. -/
def quantize (ranges : ValueRanges) : Except CompileError Graph := do
  let g ← g.unquantized.withInitialQuant ranges
  let order ← g.order.mapError .graph
  let g ← order.foldlM (fun g id => g.quantizeOperator id) g
  g.checkQuantized
  return g.withParameterInts

/-- Quantization with its events. -/
def quantizeTraced (ranges : ValueRanges) : Traced CompileError Graph :=
  let outcome := g.quantize ranges
  let ignored := ranges.filter fun (name, _) => (g.tensorNamed? name).isNone
  let warnings := ignored.map fun (name, _) => Event.rangeIgnored name
  let details := match outcome with
    | .error _ => []
    | .ok g =>
      (g.tensors.toList.filterMap fun t => t.quant.map fun q => Event.tensorQuantized t.name q) ++
        [.graphQuantized g.tensors.size g.operators.size]
  ⟨outcome, warnings ++ details⟩

end Graph

end QuantAccel
