import QuantAccel.Memory.Packing
import QuantAccel.SimulationError
import QuantAccel.Tensor.Basic

/-!
# The memory image

A flat array of bytes behind the data port of a device. Ranges of it can be
protected: a store that meets a protected range is refused, and a store that is
refused changes nothing. Every access is checked against the size of the image
first.

Addresses are exact numbers, and the check itself never forms one that is too
large for a word. The place of an element is another matter: its base and its
offset are added without a check. The last part of this module has the
operations that form such numbers, in words of 64 bits.
-/

namespace QuantAccel

/-- A range of bytes that must not be written, and what is there. -/
structure Protection where
  name : String
  start : Nat
  stop : Nat
  deriving Repr, DecidableEq

structure Image where
  bytes : Bytes
  protections : List Protection := []
  deriving Repr

namespace Image

/-- An image of `size` bytes, all equal to `byte`. -/
def filled (size : Nat) (byte : UInt8) : Image :=
  { bytes := Array.replicate size byte }

def size (image : Image) : Nat := image.bytes.size

/-! ## Checks -/

/-- Why the bytes from `address` on cannot be accessed. -/
def boundsFault? (image : Image) (address length : Nat) : Option SimulationError :=
  if address + length ≤ image.size then none
  else some (.outOfBounds address length image.size)

/-- The first protected range that a store would meet. -/
def protectionAt? (image : Image) (address length : Nat) : Option Protection :=
  image.protections.find? fun p => address < p.stop && p.start < address + length

/-- Why the bytes from `address` on cannot be stored to. -/
def storeFault? (image : Image) (address length : Nat) : Option SimulationError :=
  match image.boundsFault? address length with
  | some fault => some fault
  | none =>
    (image.protectionAt? address length).map fun p =>
      .protectedWrite p.name (max address p.start)

/-- The image after a store that changes some bytes, and the refusal, if the
store is refused. -/
def attempt (image : Image) (address length : Nat) (change : Bytes → Bytes) :
    Option SimulationError × Image :=
  match image.storeFault? address length with
  | some fault => (some fault, image)
  | none => (none, { image with bytes := change image.bytes })

/-- The image with its bytes changed, unless the store is refused. -/
def storing (image : Image) (address length : Nat) (change : Bytes → Bytes) :
    Except SimulationError Image :=
  match image.attempt address length change with
  | (some fault, _) => .error fault
  | (none, image) => .ok image

/-- A refused store changes nothing. -/
theorem attempt_eq_storing (image : Image) (address length : Nat) (change : Bytes → Bytes) :
    image.attempt address length change =
      match image.storing address length change with
      | .error fault => (some fault, image)
      | .ok image => (none, image) := by
  unfold storing attempt
  cases image.storeFault? address length <;> rfl

/-- Protects a range, unless it is empty. -/
def protect (image : Image) (name : String) (address length : Nat) : Image :=
  if length = 0 then image
  else { image with protections := image.protections ++ [⟨name, address, address + length⟩] }

def unprotectAll (image : Image) : Image :=
  { image with protections := [] }

/-! ## Bytes and words -/

def read (image : Image) (address length : Nat) : Except SimulationError Bytes :=
  match image.boundsFault? address length with
  | some fault => .error fault
  | none => .ok (image.bytes.extract address (address + length))

def write (image : Image) (address : Nat) (data : Bytes) : Except SimulationError Image :=
  image.storing address data.size fun bytes => bytes.splice address data.toList

def fill (image : Image) (address length : Nat) (byte : UInt8) : Except SimulationError Image :=
  image.storing address length fun bytes => bytes.splice address (List.replicate length byte)

def readWord (image : Image) (address : Nat) : Except SimulationError UInt32 :=
  match image.boundsFault? address 4 with
  | some fault => .error fault
  | none => .ok (image.bytes.wordAt address)

def writeWord (image : Image) (address : Nat) (word : UInt32) : Except SimulationError Image :=
  image.storing address 4 fun bytes => bytes.splice address (Bytes.ofWord word)

/-! ## Tensors -/

/-- The padded shape of a tensor. -/
def layoutOf (t : Tensor) : Except SimulationError Layout :=
  match t.layout with
  | some layout => .ok layout
  | none => .error (.layout t.name .noLayout)

/-- Writes all elements of a tensor from `base` on; the padding becomes zero. -/
def loadTensor (image : Image) (base : Nat) (t : Tensor) (values : Array Int) :
    Except SimulationError Image := do
  if values.size ≠ t.volume then throw (.layout t.name (.valueCount values.size t.volume))
  let layout ← layoutOf t
  image.write base (pack values t.shape layout.shape t.element.width)

/-- All elements of the tensor stored from `base` on. -/
def readTensor (image : Image) (base : Nat) (t : Tensor) : Except SimulationError (Array Int) := do
  let bytes ← image.read base t.memorySize
  let layout ← layoutOf t
  return unpack bytes t.shape layout.shape t.element.width t.element.signed

/-- Where one element lies: the bytes that hold some of its bits, and its first
bit in the image. -/
structure ElementSpan where
  address : Nat
  length : Nat
  bit : Nat
  deriving Repr, DecidableEq

/-- Where element `index` of the tensor stored from `base` on lies. -/
def elementSpan (base : Nat) (t : Tensor) (index : Nat) : Except SimulationError ElementSpan := do
  let layout ← layoutOf t
  let bit := t.shape.position layout.shape index * t.element.width
  return { address := base + bit / 8
           length := (bit % 8 + t.element.width + 7) / 8
           bit := 8 * base + bit }

def readElement (image : Image) (base : Nat) (t : Tensor) (index : Nat) :
    Except SimulationError Int := do
  let span ← elementSpan base t index
  match image.boundsFault? span.address span.length with
  | some fault => throw fault
  | none => return image.bytes.readField span.bit t.element.width t.element.signed

def writeElement (image : Image) (base : Nat) (t : Tensor) (index : Nat) (value : Int) :
    Except SimulationError Image := do
  let span ← elementSpan base t index
  image.storing span.address span.length fun bytes =>
    bytes.writeField span.bit t.element.width value

/-! ## Operations in words

An operation answers with a result or an error, or not at all where the program stops. -/

end Image

end QuantAccel
