import QuantAccel.Error
import QuantAccel.Schedule.Attributes

/-!
# Chunked allocation

Entities are placed one after the other from a starting offset, each at a
multiple of the chunk size. Offsets are 64-bit addresses, and no entity may end,
rounded to the next chunk, beyond the bound. Rounding is exact; it leaves the
words of 64 bits only in the last chunk of the address space.
-/

namespace QuantAccel

/-- Number of 64-bit addresses. -/
def addressSpace : Nat := Nat.pow 2 64

/-- Addresses of named entities from `running` on, which is a chunk multiple,
and the offset after the last one. -/
def allocateFrom (chunkSize bound : Nat) :
    (items : List (String × Nat)) → (running : Nat) → Except CompileError (List Nat × Nat)
  | [], running => .ok ([], running)
  | (name, size) :: rest, running => do
    let stop := running + size
    let next := roundUp stop chunkSize
    if stop < addressSpace ∧ next ≤ bound then
      let (addresses, last) ← allocateFrom chunkSize bound rest next
      return (running :: addresses, last)
    else throw (.addressOverflow name (min stop (addressSpace - 1)) bound)

/-- Addresses of named entities from the first chunk multiple at `start` or
after, and the offset after the last one. -/
def allocate (items : List (String × Nat)) (start chunkSize bound : Nat) :
    Except CompileError (List Nat × Nat) :=
  if chunkSize = 0 then .error (.config .zeroChunkSize)
  else allocateFrom chunkSize bound items (roundUp start chunkSize)

end QuantAccel
