/-!
# Shapes

A shape lists the dimensions of a tensor, outermost first. Elements are numbered
in row-major order. A layout is a padded shape of the same rank; a logical
element keeps its multi-index there, so its position is read from the digits of
its number in the logical shape and the strides of the layout.

Volumes and strides are exact numbers. Those of a shape whose elements are all
held in memory are words of 64 bits. Padding can lead out of the words;
`Tensor.memorySize?` and `slotIn?` say what becomes of a volume and a position
there.
-/

namespace QuantAccel

/-- Dimensions, outermost first. -/
abbrev Shape := List Nat

/-- Padded shape, and the lane unit that its innermost dimension is a multiple
of. -/
structure Layout where
  shape : Shape
  lanes : Nat
  deriving Repr, DecidableEq, Inhabited

namespace Shape

/-- Number of elements. -/
def volume : Shape → Nat
  | [] => 1
  | d :: ds => d * volume ds

/-- Row-major strides. -/
def strides : Shape → List Nat
  | [] => []
  | _ :: ds => volume ds :: strides ds

/-- The last dimension. -/
def innermost (s : Shape) : Nat :=
  s.getLast?.getD 1

/-- Position in the padded shape of logical element `index`. -/
def position : (logical padded : Shape) → (index : Nat) → Nat
  | d :: ds, _ :: ps, index => index / volume ds % d * volume ps + position ds ps index
  | _, _, _ => 0

/-- The dimensions in brackets, as in `[2, 3]`. -/
def text (s : Shape) : String :=
  "[" ++ ", ".intercalate (s.map toString) ++ "]"

end Shape

/-! ## Axis permutations -/

/-- Whether every axis of a list has a mark that is still clear when its turn
comes. -/
def marksEach (seen : List Bool) : (axes : List Nat) → Bool
  | [] => true
  | axis :: rest => seen[axis]? == some false && marksEach (seen.set axis true) rest

/-- Whether a list names each of `rank` axes once. -/
def isAxisPermutation (axes : List Nat) (rank : Nat) : Bool :=
  marksEach (List.replicate rank false) axes && axes.length == rank

/-- The places with `i`, `i + 1` and so on noted at the axes of a list; nothing
if there is no place for an axis. -/
def notePlaces (places : List Nat) : (axes : List Nat) → (i : Nat) → Option (List Nat)
  | [], _ => some places
  | axis :: rest, i =>
    if axis < places.length then notePlaces (places.set axis i) rest (i + 1) else none

/-- The inverse of a permutation of axes: where each axis stands. -/
def inverseAxes? (axes : List Nat) : Option (List Nat) :=
  notePlaces (List.replicate axes.length 0) axes 0

end QuantAccel
