import QuantAccel.Event
import QuantAccel.SimulationError

/-!
# Control registers

Four 32-bit registers at fixed offsets of the control port. A start is requested
by setting the low bit of the start register; a machine that is busy ignores the
request. The status register is read-only.
-/

namespace QuantAccel

inductive Register where
  | start
  | status
  /-- Base of the scratch region. -/
  | globalAddress
  /-- Address of the word that counts completed operators. -/
  | handshakeAddress
  deriving Repr, DecidableEq

namespace Register

def offset : Register → UInt32
  | start => 0x00
  | status => 0x04
  | globalAddress => 0x08
  | handshakeAddress => 0x0C

def ofOffset? (offset : UInt32) : Option Register :=
  [start, status, globalAddress, handshakeAddress].find? fun r => r.offset == offset

def name : Register → String
  | start => "START"
  | status => "STATUS"
  | globalAddress => "GLOBAL_ADDR"
  | handshakeAddress => "HANDSHAKE_ADDR"

/-- The name of the register at an offset. -/
def nameAt (offset : UInt32) : String :=
  match ofOffset? offset with
  | some r => r.name
  | none => "UNKNOWN"

end Register

/-- The value that requests a start. -/
def startStrobe : UInt32 := 1

namespace Status

/-- Work is in flight. -/
def busy : UInt32 := 1

/-- All operators are complete. -/
def done : UInt32 := 2

end Status

structure Registers where
  /-- A start was requested and is not yet consumed. -/
  start : Bool := false
  status : UInt32 := 0
  globalAddress : UInt32 := 0
  handshakeAddress : UInt32 := 0
  deriving Repr, DecidableEq, Inhabited

namespace Registers

/-- The registers after a write to one of them. -/
def set (r : Registers) (value : UInt32) : Register → Registers
  | .start =>
    { r with start := value &&& startStrobe != 0 && r.status &&& Status.busy == 0 }
  | .status => r
  | .globalAddress => { r with globalAddress := value }
  | .handshakeAddress => { r with handshakeAddress := value }

def get (r : Registers) : Register → UInt32
  | .start => if r.start then 1 else 0
  | .status => r.status
  | .globalAddress => r.globalAddress
  | .handshakeAddress => r.handshakeAddress

def write (r : Registers) (offset value : UInt32) : Traced SimulationError Registers := do
  Traced.note (.registerWritten (Register.nameAt offset) value.toNat)
  match Register.ofOffset? offset with
  | some register => return r.set value register
  | none => throw (SimulationError.unknownRegister offset.toNat)

def read (r : Registers) (offset : UInt32) : Except SimulationError UInt32 :=
  match Register.ofOffset? offset with
  | some register => .ok (r.get register)
  | none => .error (.unknownRegister offset.toNat)

end Registers

end QuantAccel
