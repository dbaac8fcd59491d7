import QuantAccel.Evaluation
import QuantAccel.Machine.Device
import QuantAccel.Machine.Tiling

/-!
# The machine

A cycle-level model of the emitted hardware. Once started it runs its operators
one after the other: a fetch phase that ends with the operands latched and the
output cleared, and then tiles, each written at its last cycle by the
fixed-point kernels. After the last tile the completion counter goes to the
handshake word. An edge that fails leaves the machine idle with its registers as
they were, so it stays busy until it is reset.

A place in the scratch region that the host moved is a 32-bit register plus an
offset into the region. Both are exact numbers, and their sum is a word of 64
bits for a region below `2 ^ 63` bytes.
-/

namespace QuantAccel

/-- What a machine is doing. -/
inductive Phase where
  | idle
  /-- Streaming the operands of a plan, with some cycles left. -/
  | fetch (plan left : Nat)
  /-- Working on a tile of a plan, with some cycles left and some tiles to
  follow. -/
  | compute (plan left : Nat) (tile : Tile) (later : List Tile) (operands : List (Array Int))
  deriving Repr

structure Machine where
  name : String
  ports : List Port
  design : Design
  plans : List OperatorPlan
  registers : Registers := {}
  phase : Phase := .idle
  /-- Operators completed since the start. -/
  completed : Nat := 0

namespace Machine

variable (m : Machine)

/-- The plan at a position. -/
def plan (i : Nat) : OperatorPlan := m.plans.getD i default

/-- The operator of a plan. -/
def operatorAt (i : Nat) : Operator := m.design.graph.operator (m.plan i).operator

/-- Where the machine finds a tensor: its planned address, or for a tensor in
scratch the same distance from the base that the registers give. -/
def addressOf (id : TensorId) : Except SimulationError Nat := do
  let t := m.design.graph.tensor id
  let some address := t.address | throw (.layout t.name .noAddress)
  let scratch ← (m.design.memory.region .scratch).mapError .graph
  if scratch.contains address then
    return m.registers.globalAddress.toNat + (address - scratch.base)
  else return address

/-- The operands of an operator, read from the image. -/
def readOperands (image : Image) (op : Operator) : Except SimulationError (List (Array Int)) :=
  op.inputs.mapM fun id => do
    image.readTensor (← m.addressOf id) (m.design.graph.tensor id)

/-- Multipliers that quantization has given. -/
def required {β : Type} (op : Operator) (rescale : Option β) : Except SimulationError β :=
  match rescale with
  | some r => .ok r
  | none => .error (.compile (.emit op.name .unscaled))

/-- One output element of an operator on latched operands. -/
def element (op : Operator) (operands : List (Array Int)) (index : Nat) :
    Except SimulationError Int := do
  let g := m.design.graph
  let out := g.tensor op.output
  let first := operands.getD 0 #[]
  let second := operands.getD 1 #[]
  let third := operands.getD 2 #[]
  match op.operation with
  | .matmul o =>
    let rescale ← required op o.rescale
    let d := g.matmulDims o
    return Kernel.matmulElement first second (o.bias.map fun _ => third) d rescale o.activation
      out.element (index / d.n) (index % d.n)
  | .add o =>
    let rescale ← required op o.rescale
    return Kernel.addElement (first.getD index 0) (second.getD (index % second.size) 0) rescale
      out.element
  | .normalize o =>
    let rescale ← required op o.rescale
    let channel := index % out.innermost
    return Kernel.normalizeElement (first.getD index 0) (second.getD channel 0)
      (third.getD channel 0) rescale o.activation out.element
  | .activate o =>
    let rescale ← required op o.rescale
    return Kernel.finish (first.getD index 0) rescale (some o.activation) out.element

/-- Stores one output element of an operator. -/
def storeElement (op : Operator) (operands : List (Array Int)) (base : Nat) (image : Image)
    (index : Nat) : Option SimulationError × Image :=
  let out := m.design.graph.tensor op.output
  match m.element op operands index, Image.elementSpan base out index with
  | .error fault, _ => (some fault, image)
  | .ok _, .error fault => (some fault, image)
  | .ok value, .ok span =>
    image.attempt span.address span.length fun bytes =>
      bytes.writeField span.bit out.element.width value

/-- Stores output elements one after the other, up to the first that is
refused. -/
def storeElements (op : Operator) (operands : List (Array Int)) (base : Nat) :
    (indices : List Nat) → Image → Option SimulationError × Image
  | [], image => (none, image)
  | index :: rest, image =>
    match m.storeElement op operands base image index with
    | (some fault, image) => (some fault, image)
    | (none, image) => storeElements op operands base rest image

/-- Stores a tile of a plan. -/
def storeTile (i : Nat) (tile : Tile) (operands : List (Array Int)) (image : Image) :
    Option SimulationError × Image :=
  let op := m.operatorAt i
  match m.addressOf op.output with
  | .error fault => (some fault, image)
  | .ok base => m.storeElements op operands base tile.elements image

/-! ## Edges -/

/-- The edge that fails. -/
def fail (image : Image) (fault : SimulationError) : Edge Machine :=
  { device := { m with phase := .idle }, image, fault := some fault }

/-- The edge that consumes a start request. -/
def launch (image : Image) : Edge Machine :=
  let registers := { m.registers with start := false }
  let events := [Event.machineStarted m.name]
  match m.plans with
  | [] =>
    { device :=
        { m with
          registers := { registers with status := Status.done }, phase := .idle, completed := 0 }
      image, events }
  | first :: _ =>
    { device :=
        { m with
          registers := { registers with status := Status.busy }
          phase := .fetch 0 first.fetchCycles
          completed := 0 }
      image, events }

/-- The last edge of a fetch: operands are latched and the output is cleared. -/
def latch (i : Nat) (image : Image) : Edge Machine :=
  let op := m.operatorAt i
  let out := m.design.graph.tensor op.output
  match m.readOperands image op, m.addressOf op.output with
  | .error fault, _ => m.fail image fault
  | .ok _, .error fault => m.fail image fault
  | .ok operands, .ok base =>
    match image.attempt base out.memorySize fun bytes =>
        bytes.splice base (List.replicate out.memorySize 0) with
    | (some fault, image) => m.fail image fault
    | (none, image) =>
      let tiles := (m.plan i).tiles
      let first := tiles.headD default
      { device := { m with phase := .compute i first.cycles first tiles.tail operands }, image }

/-- The completion of an operator: the counter is published, and the next
operator begins. -/
def complete (i : Nat) (image : Image) : Edge Machine :=
  let m := { m with completed := m.completed + 1 }
  let address := m.registers.handshakeAddress.toNat
  match image.attempt address 4 fun bytes =>
      bytes.splice address (Bytes.ofWord (UInt32.ofNat m.completed)) with
  | (some fault, image) => m.fail image fault
  | (none, image) =>
    let events := [Event.operatorDone (m.plan i).block]
    match m.plans[i + 1]? with
    | some next => { device := { m with phase := .fetch (i + 1) next.fetchCycles }, image, events }
    | none =>
      let registers := { m.registers with status := Status.done }
      { device := { m with registers, phase := .idle }, image, events }

/-- The last edge of a tile. -/
def finishTile (i : Nat) (tile : Tile) (later : List Tile) (operands : List (Array Int))
    (image : Image) : Edge Machine :=
  match m.storeTile i tile operands image with
  | (some fault, image) => m.fail image fault
  | (none, image) =>
    match later with
    | next :: later =>
      { device := { m with phase := .compute i next.cycles next later operands }, image }
    | [] => m.complete i image

/-- One rising edge. -/
def step (image : Image) : Edge Machine :=
  if m.registers.start then m.launch image
  else
    match m.phase with
    | .idle => { device := m, image }
    | .fetch i left =>
      if 1 < left then { device := { m with phase := .fetch i (left - 1) }, image }
      else m.latch i image
    | .compute i left tile later operands =>
      if 1 < left then
        { device := { m with phase := .compute i (left - 1) tile later operands }, image }
      else m.finishTile i tile later operands image

def reset : Machine :=
  { m with registers := {}, phase := .idle, completed := 0 }

instance : Device Machine where
  name := Machine.name
  ports := Machine.ports
  reset := Machine.reset
  writeControl m offset value := .ofTraced m do
    let registers ← m.registers.write offset value
    return { m with registers }
  readControl m offset := m.registers.read offset
  step := Machine.step

end Machine

end QuantAccel
