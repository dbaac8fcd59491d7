import QuantAccel.Number.Saturating

/-!
# Element types

Tensor elements are signed or unsigned integers of 1 to 64 bits. Values are held
in 64-bit signed words, so the greatest unsigned 64-bit element that is used is
the greatest such word.
-/

namespace QuantAccel

/-- A fixed-point element type of 1 to 64 bits. -/
structure ElementType where
  width : Nat
  signed : Bool
  width_pos : 0 < width
  width_le : width ≤ 64
  deriving Repr, DecidableEq

namespace ElementType

instance : Inhabited ElementType := ⟨⟨1, true, by decide, by decide⟩⟩

/-- The element type of a width, if the width is supported. -/
def ofWidth? (width : Nat) (signed : Bool) : Option ElementType :=
  if h : 0 < width ∧ width ≤ 64 then some ⟨width, signed, h.1, h.2⟩ else none

/-- Signed 32-bit elements. -/
def int32 : ElementType := ⟨32, true, by decide, by decide⟩

/-- The greatest element. -/
def greatest (t : ElementType) : Int :=
  if t.signed then Nat.pow 2 (t.width - 1) - 1 else min (Nat.pow 2 t.width - 1) Word64.greatest

/-- The least element. -/
def least (t : ElementType) : Int :=
  if t.signed then -Nat.pow 2 (t.width - 1) else 0

/-- The element nearest to `x`. -/
def saturate (t : ElementType) (x : Int) : Int :=
  clamp t.least t.greatest x

/-- The sign and the width, as in `int8` and `uint16`. -/
def name (t : ElementType) : String :=
  (if t.signed then "int" else "uint") ++ toString t.width

theorem least_le_greatest (t : ElementType) : t.least ≤ t.greatest := by
  have hp (n : Nat) : 0 < Nat.pow 2 n := Nat.two_pow_pos n
  have h₁ := hp (t.width - 1)
  have h₂ := hp t.width
  have h₃ := hp 63
  unfold least greatest Word64.greatest
  split <;> omega

end ElementType

end QuantAccel
