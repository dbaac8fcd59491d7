import QuantAccel.Config.Json
import QuantAccel.SimulationError

/-!
# Simulation settings

How a bench runs: how long the device is held in reset, how long it may take,
what memory is filled with at first, and the seed of the stimulus.
-/

namespace QuantAccel

structure SimulationConfig where
  /-- Cycles in reset before the device is addressed. -/
  warmupCycles : Nat := 100
  /-- Cycles that the device may run. -/
  maxCycles : Nat := 1000000
  /-- The byte that memory is filled with, so that an output that is never
  written is not right by accident. -/
  fillByte : UInt8 := 100
  /-- Seed of the stimulus. -/
  seed : UInt64 := 0
  deriving Repr, DecidableEq

namespace SimulationConfig

def validate (c : SimulationConfig) : Except SimulationFault Unit :=
  if c.maxCycles = 0 then .error .zeroMaxCycles else .ok ()

/-- The fields of the record, in order. -/
def schema : List (Json.Field SimulationConfig) :=
  [⟨"warmup_cycles", fun c v => (v.natural? (Nat.pow 2 64 - 1)).map fun n =>
    { c with warmupCycles := n }⟩,
   ⟨"max_cycles", fun c v => (v.natural? (Nat.pow 2 64 - 1)).map fun n =>
     { c with maxCycles := n }⟩,
   ⟨"fill_byte", fun c v => (v.natural? 255).map fun n => { c with fillByte := UInt8.ofNat n }⟩,
   ⟨"seed", fun c v => (v.natural? (Nat.pow 2 64 - 1)).map fun n =>
     { c with seed := UInt64.ofNat n }⟩]

/-- Valid settings from JSON text; fields that are not given keep their
defaults. -/
def ofText (text : String) : Except SimulationFault SimulationConfig := do
  match Json.record? schema {} text with
  | none => .error .malformed
  | some c =>
    c.validate
    return c

end SimulationConfig

end QuantAccel
