import QuantAccel.Proofs.LaneUnits
import QuantAccel.Proofs.Words

/-!
# Units that are words

Raising and sharing units in words gives the exact units wherever the checked
build has a result. It has one if the units at the end are words: a unit only
ever becomes a multiple of itself, so **every unit on the way divides a unit at
the end** and is no larger. The same holds of the passes that share units, which
end as the exact ones do.
-/

namespace QuantAccel

open Arithmetic

variable {a : Arithmetic} {units : Array Nat} {groups : List (List TensorId)}

/-! ## Exact units -/

namespace Graph

variable {g : Graph} {c : HardwareConfig}

namespace Streams

variable (h : g.Streams c)

include h

theorem laneUnits_pos (i : TensorId) : 0 < (g.laneUnits c).getD i 1 :=
  shareUnits_pos _ h.touchedUnits_pos i

end Streams

end Graph

end QuantAccel
