/-!
# Clocks

Time of a simulation. A bench asks a clock for the count of cycles; an ordinary
clock advances by one cycle at each rising edge, and a strided one by more, so
that long waits can be cut short.
-/

namespace QuantAccel

class Clock (κ : Type) where
  /-- One rising edge: the new count of cycles, and the clock after it. -/
  tick : κ → Nat × κ
  /-- The count of cycles so far. -/
  cycles : κ → Nat

/-- One cycle for each edge. -/
structure CycleClock where
  cycles : Nat := 0
  deriving Repr, DecidableEq

instance : Clock CycleClock where
  tick c := (c.cycles + 1, ⟨c.cycles + 1⟩)
  cycles c := c.cycles

/-- A fixed number of cycles for each edge. -/
structure StridedClock where
  stride : Nat
  cycles : Nat := 0
  deriving Repr, DecidableEq

instance : Clock StridedClock where
  tick c := (c.cycles + c.stride, { c with cycles := c.cycles + c.stride })
  cycles c := c.cycles

end QuantAccel
