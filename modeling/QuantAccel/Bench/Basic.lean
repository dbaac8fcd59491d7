import QuantAccel.Bench.Clock
import QuantAccel.Bench.Stimulus
import QuantAccel.Config.Simulation
import QuantAccel.Machine.Device

/-!
# The bench

A bench drives one device through a single run and compares what it wrote with
the reference results, element by element. Its actions are `address`, `start`,
`wait` and `verify`; each is possible in one state only and moves the bench on.
Addressing loads the image and protects everything that the device only reads. A
bench that fails while it waits stays in that state, so it never gives a
verdict.
-/

namespace QuantAccel

/-- An output element that differs from its reference. -/
structure Mismatch where
  output : String
  index : Nat
  expected : Int
  actual : Int
  deriving Repr, DecidableEq

/-- What a run found. -/
structure Report where
  device : String
  /-- Cycles from the start to completion. -/
  cycles : Nat
  /-- Operators that the device reported complete. -/
  handshake : UInt32
  /-- Output elements compared. -/
  checked : Nat
  mismatches : List Mismatch
  verdict : Verdict
  deriving Repr, DecidableEq

def Report.text (r : Report) : String :=
  let cycles := r.cycles
  let verdict := r.verdict.name
  s!"# execution cycles: {cycles}\n# verify: {verdict}"

/-- A device on its bench, with its clock, its memory image, and the record of
the run. -/
structure Bench (σ κ : Type) where
  design : Design
  device : σ
  clock : κ
  config : SimulationConfig
  stimulus : Stimulus
  image : Image
  state : BenchState := .idle
  startedAt : Nat := 0
  cycles : Nat := 0
  handshake : UInt32 := 0
  journal : Array Event := #[]

namespace Bench

variable {σ κ : Type} [Device σ] [Clock κ]

/-- An action on a bench, which keeps what it did when it fails. -/
abbrev Action (σ κ α : Type) := ExceptT SimulationError (StateM (Bench σ κ)) α

/-- A device on a new bench. It needs the four ports, and a data port as wide as
the bus. -/
def create (design : Design) (device : σ) (clock : κ) (stimulus : Stimulus)
    (config : SimulationConfig) : Except SimulationError (Bench σ κ) := do
  config.validate.mapError .config
  for name in [Port.controlName, Port.dataName, Port.clockName, Port.resetName] do
    if (Device.port? device name).isNone then throw (.missingPort (Device.name device) name)
  let width := ((Device.port? device Port.dataName).map (·.width)).getD 0
  if width ≠ design.config.busWidth then
    throw (.config (.dataWidth Port.dataName width design.config.busWidth))
  return { design, device, clock, config, stimulus
           image := .filled design.memory.size config.fillByte }

/-! ## Parts of actions -/

def note (e : Event) : Action σ κ Unit :=
  modify fun b => { b with journal := b.journal.push e }

/-- Fails unless the bench is in a state. -/
def require (state : BenchState) (action : BenchAction) : Action σ κ Unit := do
  let b ← get
  if b.state ≠ state then throw (.invalidTransition b.state action)

/-- Changes the image, unless the change is refused. -/
def onImage (change : Image → Except SimulationError Image) : Action σ κ Unit := do
  let b ← get
  let image ← change b.image
  set { b with image }

/-- Writes a control register of the device. -/
def writeControl (register : Register) (value : UInt32) : Action σ κ Unit := do
  let b ← get
  let w := Device.writeControl b.device register.offset value
  set { b with device := w.device, journal := b.journal ++ w.events }
  match w.fault with
  | some fault => throw fault
  | none => pure ()

/-- One edge of the clock and of the device; gives the count of cycles. The
image is taken off the bench meanwhile, so that the device can store to it in
place. -/
def edge : Action σ κ Nat := do
  let image ← modifyGet fun b => (b.image, { b with image := .filled 0 0 })
  let b ← get
  let (now, clock) := Clock.tick b.clock
  let e := Device.step b.device image
  set { b with device := e.device, image := e.image, clock, journal := b.journal ++ e.events }
  match e.fault with
  | some fault => throw fault
  | none => return now

/-- Edges one after the other, `n` in all. -/
def edges : (n : Nat) → Action σ κ Unit
  | 0 => pure ()
  | n + 1 => do
    let _ ← edge
    edges n

/-- The value of a control register, if it has one. -/
def registerValue (what : String) (value : Nat) : Except SimulationError UInt32 :=
  if value < Nat.pow 2 32 then .ok (UInt32.ofNat value)
  else .error (.config (.registerOverflow what value))

/-! ## Addressing -/

/-- Loads the stimulus of one input. -/
def loadInput (id : TensorId) : Action σ κ Unit := do
  let b ← get
  let t := b.design.graph.tensor id
  match t.address, b.stimulus.inputs id with
  | some address, some values =>
    onImage fun image => image.loadTensor address t values
    note (.inputPlaced t.name address ((t.layout.map (·.lanes)).getD 0))
  | _, _ => throw (.layout t.name .noStimulus)

/-- Loads the reference of one output. -/
def loadReference (id : TensorId) (address : Nat) : Action σ κ Unit := do
  let b ← get
  let t := b.design.graph.tensor id
  match b.stimulus.references id with
  | some values => onImage fun image => image.loadTensor address t values
  | none => throw (.layout t.name .noReference)

/-- Protects one input. -/
def protectInput (id : TensorId) : Action σ κ Unit :=
  modify fun b =>
    let t := b.design.graph.tensor id
    match t.address with
    | some address => { b with image := b.image.protect ("input " ++ t.name) address t.memorySize }
    | none => b

/-- Protects one region. -/
def protectRegion (kind : RegionKind) (name : String) : Action σ κ Unit := do
  let region ← ((← get).design.memory.region kind).mapError SimulationError.graph
  modify fun b => { b with image := b.image.protect name region.base region.size }

/-- Loads the inputs, the parameters and the references, and clears the
counter. -/
def loadImage : Action σ κ Unit := do
  let design := (← get).design
  design.inputs.forM loadInput
  let base ← design.parameterBase.mapError SimulationError.graph
  onImage fun image => image.write base design.blob
  design.memory.reference.forM fun (id, address) => loadReference id address
  onImage fun image => image.writeWord design.memory.handshake 0

/-- Tells the device where its intermediates and its counter lie. -/
def program : Action σ κ Unit := do
  let design := (← get).design
  let scratch ← design.scratchBase.mapError SimulationError.graph
  writeControl .globalAddress (← registerValue "scratch base" scratch)
  writeControl .handshakeAddress (← registerValue "handshake address" design.memory.handshake)

/-- Protects what the device only reads. -/
def protectAll : Action σ κ Unit := do
  (← get).design.inputs.forM protectInput
  protectRegion .parameters "parameters"
  protectRegion .reference "reference"

/-- Resets and warms up the device, loads the image, programs the registers, and
protects what the device only reads. -/
def address : Action σ κ Unit := do
  require .idle .address
  modify fun b => { b with device := Device.reset b.device }
  edges (← get).config.warmupCycles
  loadImage
  program
  protectAll
  note (.deviceAddressed (Device.name (← get).device))
  modify fun b => { b with state := .addressed }

/-! ## Running -/

/-- Requests the start. -/
def start : Action σ κ Unit := do
  require .addressed .start
  writeControl .start startStrobe
  modify fun b => { b with startedAt := Clock.cycles b.clock, state := .running }

/-- Edges until the device is done or its time is over; gives the cycles that
have passed. A clock that advances is over in time within `maxCycles` edges. -/
def poll : (fuel : Nat) → Action σ κ Nat
  | 0 => do
    let b ← get
    throw (.timeout (Device.name b.device) (Clock.cycles b.clock - b.startedAt))
  | fuel + 1 => do
    let now ← edge
    let b ← get
    let elapsed := now - b.startedAt
    let status ← Device.readControl b.device Register.status.offset
    if status &&& Status.done != 0 then return elapsed
    else if b.config.maxCycles ≤ elapsed then
      note (.deviceStuck (Device.name b.device) elapsed)
      throw (.timeout (Device.name b.device) elapsed)
    else poll fuel

/-- Waits for the device, and reads the word in which it counts its
operators. -/
def wait : Action σ κ Nat := do
  require .running .wait
  modify fun b => { b with state := .waiting }
  let elapsed ← poll (max (← get).config.maxCycles (Nat.pow 2 62))
  modify fun b => { b with cycles := elapsed }
  let b ← get
  let counter ← b.image.readWord b.design.memory.handshake
  let expected := b.design.graph.operators.size
  if counter.toNat ≠ expected then note (.handshakeDiffers counter.toNat expected)
  modify fun b => { b with handshake := counter, image := b.image.unprotectAll }
  note (.deviceFinished (Device.name b.device) elapsed)
  modify fun b => { b with state := .verifying }
  return elapsed

/-! ## Verifying -/

/-- The elements of an output that differ from its reference. -/
def compare (name : String) (actual expected : Array Int) : List Mismatch :=
  (List.range (min actual.size expected.size)).filterMap fun index =>
    let a := actual.getD index 0
    let e := expected.getD index 0
    if a = e then none else some { output := name, index, expected := e, actual := a }

/-- Compares one output with its reference; gives the number of elements and
those that differ. -/
def verifyOutput (id : TensorId) (reference : Nat) : Action σ κ (Nat × List Mismatch) := do
  let b ← get
  let t := b.design.graph.tensor id
  let some address := t.address | throw (.layout t.name .outputWithoutAddress)
  let actual ← b.image.readTensor address t
  let expected ← b.image.readTensor reference t
  let mismatches := compare t.name actual expected
  mismatches.forM fun m => note (.elementDiffers m.output m.index m.expected m.actual)
  return (actual.size, mismatches)

/-- Compares every output with its reference. -/
def verify : Action σ κ Report := do
  require .verifying .verify
  let b ← get
  let found ← b.design.memory.reference.mapM fun (id, address) => verifyOutput id address
  let checked := found.foldr (·.1 + ·) 0
  let mismatches := found.flatMap (·.2)
  let verdict := if mismatches.isEmpty then Verdict.passed else .failed
  if verdict = .failed then note (.elementsDiffer mismatches.length checked)
  modify fun b => { b with state := .done verdict }
  return { device := Device.name b.device, cycles := b.cycles, handshake := b.handshake, checked,
           mismatches, verdict }

/-- All four actions in order. -/
def run : Action σ κ Report := do
  address
  start
  let _ ← wait
  verify

end Bench

end QuantAccel
