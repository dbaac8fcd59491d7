import QuantAccel.Design
import QuantAccel.Machine.Registers
import QuantAccel.Memory.Image

/-!
# Devices

What a bench can drive: something with ports and control registers that works on
a memory image, one rising edge of its clock at a time.
-/

namespace QuantAccel

/-- A device and the image after an edge, what happened, and what went wrong. -/
structure Edge (σ : Type) where
  device : σ
  image : Image
  events : List Event := []
  fault : Option SimulationError := none

/-- A device after a write to one of its registers, what happened, and what went
wrong. The device may have changed although the write was refused. -/
structure ControlWrite (σ : Type) where
  device : σ
  events : List Event := []
  fault : Option SimulationError := none

namespace ControlWrite

variable {σ : Type}

/-- The device after the write, unless this was refused. -/
def outcome (w : ControlWrite σ) : Except SimulationError σ :=
  match w.fault with
  | some fault => .error fault
  | none => .ok w.device

def traced (w : ControlWrite σ) : Traced SimulationError σ :=
  ⟨w.outcome, w.events⟩

/-- A write that leaves the device as it is where it is refused. -/
def ofTraced (device : σ) (x : Traced SimulationError σ) : ControlWrite σ :=
  match x.outcome with
  | .error fault => { device, events := x.events, fault := some fault }
  | .ok device => { device, events := x.events }

/-- A write that succeeds gives the device after it. -/
theorem outcome_eq_ok {w : ControlWrite σ} {device : σ} :
    w.outcome = .ok device ↔ w.fault = none ∧ w.device = device := by
  unfold outcome
  split <;> simp [*]

@[simp] theorem outcome_ofTraced (device : σ) (x : Traced SimulationError σ) :
    (ofTraced device x).outcome = x.outcome := by
  unfold ofTraced
  split <;> simp only [outcome, *]

end ControlWrite

class Device (σ : Type) where
  name : σ → String
  ports : σ → List Port
  /-- Clears the registers and all work in flight. -/
  reset : σ → σ
  writeControl : σ → (offset value : UInt32) → ControlWrite σ
  readControl : σ → (offset : UInt32) → Except SimulationError UInt32
  /-- One rising edge of the clock. -/
  step : σ → Image → Edge σ

/-- The port of a device with a name. -/
def Device.port? {σ : Type} [Device σ] (device : σ) (name : String) : Option Port :=
  (Device.ports device).find? fun p => p.name == name

/-- Edges while a condition holds, at most `n`, and none after one that fails.
Gives the number of those that succeeded, and the device and the image after the
last with all events. -/
def Device.advance {σ : Type} [Device σ] (go : σ → Bool) : (n used : Nat) → Edge σ → Nat × Edge σ
  | 0, used, e => (used, e)
  | n + 1, used, e =>
    if e.fault.isNone && go e.device then
      let next := Device.step e.device e.image
      Device.advance go n (if next.fault.isNone then used + 1 else used)
        { next with events := e.events ++ next.events }
    else (used, e)

end QuantAccel
