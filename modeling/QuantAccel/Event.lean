import QuantAccel.Error

/-!
# Events

What compilation and co-simulation report while they work, as a list of events
in the order in which they happen. An event has a level and a text.

A computation with events is a `Traced` value: its outcome, and the events up to
its end or its failure. The outcome of a sequence is the sequence of the
outcomes, so statements about results need not mention events.
-/

namespace QuantAccel

/-- Importance of an event. -/
inductive Level where
  | error
  | warn
  | info
  | debug
  deriving Repr, DecidableEq

def Level.name : Level → String
  | error => "ERROR"
  | warn => "WARN"
  | info => "INFO"
  | debug => "DEBUG"

/-- The level of a name, in either case. -/
def Level.ofName? (name : String) : Option Level :=
  [error, warn, info, debug].find? fun level => level.name == name.toUpper

/-- Position in the order of importance, most important first. -/
def Level.rank : Level → Nat
  | error => 0
  | warn => 1
  | info => 2
  | debug => 3

inductive Event where
  | graphBuilt (tensors operators : Nat)
  | stageEntered (design : String) (stage : Stage)
  | rangeIgnored (name : String)
  | tensorQuantized (name : String) (params : QuantParams)
  | graphQuantized (tensors operators : Nat)
  | factorWidened (operator : String) (field : AttributeField) (factor minimum : Nat)
  | matmulScheduled (name : String) (factors : MatmulFactors)
  | lanesScheduled (name : String) (lanes : Nat)
  | tensorPadded (name : String) (logical padded : Shape)
  | graphScheduled (operators busWidth : Nat)
  | regionPlaced (kind : RegionKind) (base size : Nat)
  | imagePlanned (size chunkSize : Nat)
  | operatorPlanned (block : String) (tiles cycles : Nat)
  | machineEmitted (name : String) (operators cycles : Nat)
  | designCompiled (name : String) (operators size : Nat)
  | registerWritten (register : String) (value : Nat)
  | machineStarted (name : String)
  | operatorDone (block : String)
  | stimulusDrawn (name : String) (count : Nat) (lo hi : Int)
  | driftMeasured (output : String) (absolute relative : Float)
  | inputPlaced (name : String) (address lanes : Nat)
  | deviceAddressed (name : String)
  | deviceStuck (name : String) (elapsed : Nat)
  | handshakeDiffers (counter expected : Nat)
  | deviceFinished (name : String) (cycles : Nat)
  | elementDiffers (output : String) (index : Nat) (expected actual : Int)
  | elementsDiffer (count checked : Nat)
  deriving Repr

namespace Event

def level : Event → Level
  | deviceStuck _ _ => .error
  | rangeIgnored _ | factorWidened _ _ _ _ | handshakeDiffers _ _ | elementsDiffer _ _ => .warn
  | graphQuantized _ _ | graphScheduled _ _ | imagePlanned _ _ | machineEmitted _ _ _
  | designCompiled _ _ _ | driftMeasured _ _ _ | deviceAddressed _ | deviceFinished _ _ => .info
  | graphBuilt _ _ | stageEntered _ _ | tensorQuantized _ _ | matmulScheduled _ _
  | lanesScheduled _ _ | tensorPadded _ _ _ | regionPlaced _ _ _ | operatorPlanned _ _ _
  | registerWritten _ _ | machineStarted _ | operatorDone _ | stimulusDrawn _ _ _ _
  | inputPlaced _ _ _ | elementDiffers _ _ _ _ => .debug

def text : Event → String
  | graphBuilt tensors operators => s!"built graph: {tensors} tensors, {operators} operators"
  | stageEntered design stage => s!"{design}: entering " ++ stage.name
  | rangeIgnored name => s!"value range given for unknown tensor `{name}`, ignoring"
  | tensorQuantized name params =>
    let scale := Binary64.fixedPlaces 6 params.scale
    let width := params.width
    let lo := Binary64.literal params.range.lo
    let hi := Binary64.literal params.range.hi
    let source := params.source.name
    s!"{name}: scale {scale} width {width} range ({lo}, {hi}) ({source})"
  | graphQuantized tensors operators => s!"quantized {tensors} tensors, {operators} operators"
  | factorWidened operator field factor minimum =>
    let f := field.name
    s!"{operator}: widening {f} from {factor} to burst minimum {minimum}"
  | matmulScheduled name factors =>
    let a := factors.leftColumns
    let b := factors.leftRows
    let c := factors.outColumns
    let d := factors.inFlight
    let e := factors.stationary.name
    s!"{name}: MatmulAttrs \x7b par_left_col: {a}, par_left_row: {b}, par_out_col: {c}, " ++
      s!"concur_out_col: {d}, stationary: {e} \x7d"
  | lanesScheduled name lanes => s!"{name}: LaneAttrs \x7b par: {lanes} \x7d"
  | tensorPadded name logical padded =>
    let l := logical.text
    let p := padded.text
    s!"{name}: aligned {l} -> {p}"
  | graphScheduled operators busWidth => s!"scheduled {operators} operators on a {busWidth}-bit bus"
  | regionPlaced kind base size =>
    let region := kind.name
    let start := hex base
    let stop := hex (base + size)
    s!"{region}: {start}..{stop} ({size} bytes)"
  | imagePlanned size chunkSize => s!"memory image: {size} bytes, chunk {chunkSize}"
  | operatorPlanned block tiles cycles => s!"{block}: {tiles} tiles, {cycles} cycles"
  | machineEmitted name operators cycles =>
    s!"emitted behavioral module `{name}` ({operators} operators, ~{cycles} cycles)"
  | designCompiled name operators size =>
    s!"compiled `{name}`: {operators} operators, {size} byte image"
  | registerWritten register value =>
    let v := hex value
    s!"saxi write {register} = {v}"
  | machineStarted name => s!"{name}: start"
  | operatorDone block => s!"{block}: done"
  | stimulusDrawn name count lo hi => s!"stimulus `{name}`: {count} values in [{lo}, {hi}]"
  | driftMeasured output absolute relative =>
    let a := Binary64.scientificPlaces 3 absolute
    let r := Binary64.scientificPlaces 3 relative
    s!"{output}: max abs error {a}, max rel error {r}"
  | inputPlaced name address lanes =>
    let a := hex address
    s!"input `{name}` at {a}, row stride {lanes}"
  | deviceAddressed name => s!"addressed `{name}`"
  | deviceStuck name elapsed => s!"`{name}` still busy after {elapsed} cycles"
  | handshakeDiffers counter expected => s!"handshake counter is {counter}, expected {expected}"
  | deviceFinished name cycles => s!"`{name}` finished in {cycles} cycles"
  | elementDiffers output index expected actual =>
    s!"{output}[{index}]: expected {expected}, got {actual}"
  | elementsDiffer count checked => s!"{count} of {checked} elements differ"

/-- The level and the text. -/
def line (e : Event) : String :=
  e.level.name ++ " " ++ e.text

end Event

/-! ## Computations with events -/

/-- An outcome and the events on the way to it. -/
structure Traced (ε α : Type) where
  outcome : Except ε α
  events : List Event

namespace Traced

variable {ε α β : Type}

protected def pure (a : α) : Traced ε α :=
  ⟨.ok a, []⟩

protected def bind (x : Traced ε α) (f : α → Traced ε β) : Traced ε β :=
  match x.outcome with
  | .error e => ⟨.error e, x.events⟩
  | .ok a =>
    let y := f a
    ⟨y.outcome, x.events ++ y.events⟩

instance : Monad (Traced ε) where
  pure := Traced.pure
  bind := Traced.bind

instance : MonadExceptOf ε (Traced ε) where
  throw e := ⟨.error e, []⟩
  tryCatch x handler :=
    match x.outcome with
    | .error e =>
      let y := handler e
      ⟨y.outcome, x.events ++ y.events⟩
    | .ok _ => x

/-- An outcome without events. -/
def ofExcept (x : Except ε α) : Traced ε α :=
  ⟨x, []⟩

instance : MonadLift (Except ε) (Traced ε) where
  monadLift := ofExcept

/-- A single event. -/
def note (e : Event) : Traced ε Unit :=
  ⟨.ok (), [e]⟩

/-- The outcome with its error restated. -/
def mapError {δ : Type} (f : ε → δ) (x : Traced ε α) : Traced δ α :=
  ⟨x.outcome.mapError f, x.events⟩

@[simp] theorem outcome_pure (a : α) : (pure a : Traced ε α).outcome = .ok a := rfl

@[simp] theorem outcome_bind (x : Traced ε α) (f : α → Traced ε β) :
    (x >>= f).outcome = x.outcome >>= fun a => (f a).outcome := by
  show (Traced.bind x f).outcome = _
  unfold Traced.bind
  cases x.outcome <;> rfl

@[simp] theorem outcome_throw (e : ε) : (throw e : Traced ε α).outcome = .error e := rfl

@[simp] theorem outcome_ofExcept (x : Except ε α) : (ofExcept x).outcome = x := rfl

@[simp] theorem outcome_liftM (x : Except ε α) : (liftM x : Traced ε α).outcome = x := rfl

@[simp] theorem outcome_note (e : Event) : (note e : Traced ε Unit).outcome = .ok () := rfl

@[simp] theorem outcome_mapError {δ : Type} (f : ε → δ) (x : Traced ε α) :
    (x.mapError f).outcome = x.outcome.mapError f := rfl

end Traced

end QuantAccel
