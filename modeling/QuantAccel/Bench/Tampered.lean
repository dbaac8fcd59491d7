import QuantAccel.Machine.Device

/-!
# Tampered devices

A device with a fault of its own, to see that a bench notices: other ports than
it should have, or a stray word that it stores after every edge.
-/

namespace QuantAccel

/-- A word that a device stores after every edge at which its status is not
zero, or after all. -/
structure StrayWord where
  address : Nat
  value : UInt32
  always : Bool := false
  deriving Repr, DecidableEq

structure Tampered (σ : Type) where
  device : σ
  ports : Option (List Port) := none
  stray : Option StrayWord := none

namespace Tampered

variable {σ : Type} [Device σ]

/-- Stores the stray word after an edge of the device. -/
def scribble (stray : StrayWord) (e : Edge σ) : Option SimulationError × Image :=
  match Device.readControl e.device Register.status.offset with
  | .error fault => (some fault, e.image)
  | .ok status =>
    if stray.always || status != 0 then
      e.image.attempt stray.address 4 fun bytes =>
        bytes.splice stray.address (Bytes.ofWord stray.value)
    else (none, e.image)

/-- An edge of the device, and then the stray word. -/
def step (t : Tampered σ) (image : Image) : Edge (Tampered σ) :=
  let e := Device.step t.device image
  let (fault, image) := match e.fault, t.stray with
    | none, some stray => scribble stray e
    | fault, _ => (fault, e.image)
  { device := { t with device := e.device }, image, events := e.events, fault }

instance : Device (Tampered σ) where
  name t := Device.name t.device
  ports t := t.ports.getD (Device.ports t.device)
  reset t := { t with device := Device.reset t.device }
  writeControl t offset value :=
    let w := Device.writeControl t.device offset value
    { w with device := { t with device := w.device } }
  readControl t offset := Device.readControl t.device offset
  step := step

end Tampered

end QuantAccel
