import QuantAccel.Number.Binary64

/-!
# Decimal text of binary64 numbers

Messages write a number with the fewest digits that read back to it,
positionally. Event records write ranges with the same digits in literal form,
scales with a fixed number of places, and errors of quantization in scientific
form. Digits are selected by exact comparison with the interval of reals that
round to the number.
-/

namespace QuantAccel

/-- The number `digits * 10 ^ exponent`. -/
structure Decimal where
  digits : Nat
  exponent : Int
  deriving Repr, DecidableEq

namespace Decimal

/-- How `a * 10 ^ i` compares with `n * 2 ^ j`. -/
def compareScaled (a : Nat) (i : Int) (n : Nat) (j : Int) : Ordering :=
  compare (a * Nat.pow 10 i.toNat * Nat.pow 2 (-j).toNat)
    (n * Nat.pow 2 j.toNat * Nat.pow 10 (-i).toNat)

/-- Whether a decimal lies among the reals that round to
`significand * 2 ^ exponent`. The gap below a power of two is half as wide as
the gap above, and the ends belong to an even significand. -/
def readsBack (significand : Nat) (exponent : Int) (d : Decimal) : Bool :=
  let narrow := significand == Nat.pow 2 52 && decide (-1074 < exponent)
  let lower := compareScaled d.digits d.exponent
    (if narrow then 4 * significand - 1 else 4 * significand - 2) (exponent - 2)
  let upper := compareScaled d.digits d.exponent (4 * significand + 2) (exponent - 2)
  let closed := significand % 2 == 0
  (lower == .gt || (closed && lower == .eq)) && (upper == .lt || (closed && upper == .eq))

/-- The least power of ten above `significand * 2 ^ exponent`, by its
exponent. -/
def magnitude (significand : Nat) (exponent : Int) : Int :=
  let start := (exponent + significand.log2) * 30103 / 100000 - 1
  let above (k : Int) : Bool := compareScaled 1 k significand exponent == .gt
  (((List.range 6).map fun (i : Nat) => start + i).find? above).getD start

/-- The quotient of `significand * 2 ^ exponent` and `10 ^ grid`, as numerator
and denominator. -/
def onGrid (significand : Nat) (exponent grid : Int) : Nat × Nat :=
  (significand * Nat.pow 2 exponent.toNat * Nat.pow 10 (-grid).toNat,
    Nat.pow 2 (-exponent).toNat * Nat.pow 10 grid.toNat)

/-- The neighbour of the number on the grid of `10 ^ grid` that reads back, the
nearer one if both do, and the upper one if both are as near. -/
def candidate (significand : Nat) (exponent grid : Int) : Option Decimal :=
  let (num, den) := onGrid significand exponent grid
  let lower : Decimal := ⟨num / den, grid⟩
  let upper : Decimal := ⟨num / den + 1, grid⟩
  match readsBack significand exponent lower, readsBack significand exponent upper with
  | true, true => some (if 2 * (num % den) < den then lower else upper)
  | true, false => some lower
  | false, true => some upper
  | false, false => none

/-- Trailing zeros moved from the digits to the exponent, at most `fuel` of
them. -/
def strip : Nat → Decimal → Decimal
  | 0, d => d
  | fuel + 1, d =>
    if d.digits ≠ 0 ∧ d.digits % 10 = 0 then strip fuel ⟨d.digits / 10, d.exponent + 1⟩ else d

/-- The exact decimal value of `significand * 2 ^ exponent`. -/
def exact (significand : Nat) (exponent : Int) : Decimal :=
  if exponent < 0 then ⟨significand * Nat.pow 5 (-exponent).toNat, exponent⟩
  else ⟨significand * Nat.pow 2 exponent.toNat, 0⟩

/-- The shortest decimal that reads back to `significand * 2 ^ exponent`, for a
positive number. -/
def shortest (significand : Nat) (exponent : Int) : Decimal :=
  let top := magnitude significand exponent
  let found := (List.range 17).findSome? fun (n : Nat) =>
    candidate significand exponent (top - n - 1)
  strip 400 (found.getD (exact significand exponent))

/-! ## Layout -/

/-- A row of `n` zeros. -/
def zeros (n : Nat) : String :=
  String.ofList (List.replicate n '0')

/-- The digits before and after a point that stands `places` digits from the
right. -/
def pointed (digits : String) (places : Nat) : String × String :=
  let padded := (zeros (places + 1 - digits.length) ++ digits).toList
  let whole := padded.length - places
  (String.ofList (padded.take whole), String.ofList (padded.drop whole))

/-- Positional notation; an integer ends in `tail`. -/
def positional (d : Decimal) (tail : String) : String :=
  if 0 ≤ d.exponent then toString d.digits ++ zeros d.exponent.toNat ++ tail
  else
    let (whole, part) := pointed (toString d.digits) (-d.exponent).toNat
    whole ++ "." ++ part

/-- Scientific notation: one digit, the rest after a point, and the exponent. -/
def scientific (d : Decimal) : String :=
  let digits := (toString d.digits).toList
  let power := d.exponent + (digits.length - 1 : Nat)
  let part := String.ofList (digits.drop 1)
  String.ofList (digits.take 1) ++ (if part.isEmpty then "" else "." ++ part) ++ "e" ++
    toString power

/-- The quotient of two positive numbers rounded to the nearest integer, a half
to the even one. -/
def roundHalfEven (num den : Nat) : Nat :=
  let q := num / den
  let r := 2 * (num % den)
  if r < den then q else if den < r then q + 1 else q + q % 2

end Decimal

namespace Binary64

/-- The sign, and then the text of the magnitude; NaN and the infinities have
texts of their own. -/
def text (x : Float) (zero : String) (finite : Nat → Int → String) : String :=
  match decode x with
  | .nan => "NaN"
  | .infinite negative => if negative then "-inf" else "inf"
  | .finite negative significand exponent =>
    (if negative then "-" else "") ++ if significand = 0 then zero else finite significand exponent

/-- The fewest digits that read back, positionally at every magnitude. -/
def plain (x : Float) : String :=
  text x "0" fun m e => (Decimal.shortest m e).positional ""

/-- The fewest digits that read back, in literal form: positional from `10 ^ -4`
up to `10 ^ 16`, where an integer ends in `.0`, and scientific elsewhere. -/
def literal (x : Float) : String :=
  text x "0.0" fun m e =>
    let d := Decimal.shortest m e
    let top := Decimal.magnitude m e
    if -4 < top ∧ top ≤ 16 then d.positional ".0" else d.scientific

/-- Exactly `places` digits after the point, a half rounded to the even
digit. -/
def fixedPlaces (places : Nat) (x : Float) : String :=
  let layout (n : Nat) : String :=
    let (whole, part) := Decimal.pointed (toString n) places
    whole ++ "." ++ part
  text x (layout 0) fun m e =>
    let (num, den) := Decimal.onGrid m e (-(places : Int))
    layout (Decimal.roundHalfEven num den)

/-- Scientific form with exactly `places` digits after the point, a half rounded
to the even digit. -/
def scientificPlaces (places : Nat) (x : Float) : String :=
  let layout (n : Nat) (power : Int) : String :=
    let (whole, part) := Decimal.pointed (toString n) places
    whole ++ "." ++ part ++ "e" ++ toString power
  text x (layout 0 0) fun m e =>
    let top := Decimal.magnitude m e
    let (num, den) := Decimal.onGrid m e (top - 1 - places)
    let n := Decimal.roundHalfEven num den
    if n = Nat.pow 10 (places + 1) then layout (Nat.pow 10 places) top else layout n (top - 1)

end Binary64

end QuantAccel
