import QuantAccel.Config.Json
import QuantAccel.Error

/-!
# Hardware configuration

The record that scheduling, the memory plan and emission share: the width of the
data bus, the granularity and size of memory, and what to do with a factor below
the burst minimum.
-/

namespace QuantAccel

/-- What becomes of a parallelism factor below the burst minimum. -/
inductive BurstPolicy where
  /-- The request is refused. -/
  | reject
  /-- The factor is raised to the minimum. -/
  | widen
  deriving Repr, DecidableEq

def BurstPolicy.name : BurstPolicy → String
  | reject => "reject"
  | widen => "widen"

def BurstPolicy.ofName? : String → Option BurstPolicy
  | "reject" => some reject
  | "widen" => some widen
  | _ => none

structure HardwareConfig where
  /-- Width of the data bus in bits. -/
  busWidth : Nat := 32
  /-- Allocation granularity in bytes. -/
  chunkSize : Nat := 64
  /-- Size of the memory image in bytes. -/
  memoryBound : Nat := Nat.pow 2 20
  burstPolicy : BurstPolicy := .reject
  deriving Repr, DecidableEq

namespace HardwareConfig

def validate (c : HardwareConfig) : Except ConfigFault Unit :=
  if c.busWidth = 0 then .error .zeroBusWidth
  else if c.chunkSize = 0 then .error .zeroChunkSize
  else if c.memoryBound = 0 then .error .zeroMemoryBound
  else .ok ()

/-- The least number of elements of `width` bits that fills a bus transfer. -/
def burstElements (c : HardwareConfig) (width : Nat) : Nat :=
  (c.busWidth + width - 1) / width

/-- The fields of the record, in order. -/
def schema : List (Json.Field HardwareConfig) :=
  [⟨"bus_width", fun c v => (v.natural? (Nat.pow 2 32 - 1)).map fun n => { c with busWidth := n }⟩,
   ⟨"chunk_size", fun c v => (v.natural? (Nat.pow 2 64 - 1)).map fun n =>
     { c with chunkSize := n }⟩,
   ⟨"memory_bound", fun c v => (v.natural? (Nat.pow 2 64 - 1)).map fun n =>
     { c with memoryBound := n }⟩,
   ⟨"burst_policy", fun c v => do
      let policy ← BurstPolicy.ofName? (← v.alternative?)
      some { c with burstPolicy := policy }⟩]

/-- A valid configuration from JSON text; fields that are not given keep their
defaults. -/
def ofText (text : String) : Except ConfigFault HardwareConfig := do
  match Json.record? schema {} text with
  | none => .error .malformed
  | some c =>
    c.validate
    return c

end HardwareConfig

end QuantAccel
