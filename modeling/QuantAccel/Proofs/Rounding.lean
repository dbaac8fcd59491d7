import QuantAccel.Proofs.Accumulator
import QuantAccel.Proofs.BitField

/-!
# Rounding shifts over the whole word

A rounding shift adds half a unit to the magnitude of a number and divides. Both
are done in words, and the magnitude of the least accumulator is no accumulator,
so the sum is kept at the end of the word before it is divided
(`roundedMagnitude`). The shift is therefore the quotient rounded, a half away
from zero, as long as half a unit can be added, and from there on it stays where
the end of the word is divided. Nothing in it overflows: `checkedRoundShift`
takes the same steps with a check at each, and comes to the same for every shift
of less than a word.
-/

namespace QuantAccel

namespace Accumulator

variable {x y : Int}

theorem greatest_eq : greatest = 2 ^ 127 - 1 := rfl

/-! ## Sums and opposites -/

/-- A sum of numbers that are not negative can saturate at the upper end
only. -/
theorem add_of_nonneg (hx : 0 ≤ x) (hy : 0 ≤ y) : add x y = min (x + y) greatest := by
  have hleast : least ≤ 0 := by decide
  have hgreatest : 0 ≤ greatest := by decide
  unfold add saturate clamp
  omega

theorem neg_of_nonpos (hx : x ≤ 0) : neg x = min (-x) greatest := by
  have hleast : least ≤ 0 := by decide
  have hgreatest : 0 ≤ greatest := by decide
  unfold neg saturate clamp
  omega

/-- The one magnitude that a word cannot take is past the end of the word with
anything added to it. -/
theorem add_neg_of_nonpos (hx : x ≤ 0) (hy : 0 ≤ y) : add (neg x) y = min (-x + y) greatest := by
  rw [add_of_nonneg (neg_nonneg hx) hy, neg_of_nonpos hx]
  omega

/-! ## Operations that can overflow -/

/-- The exact result of an operation, if it is an accumulator. -/
def held? (x : Int) : Option Int :=
  if least ≤ x ∧ x ≤ greatest then some x else none

/-- The shift to the left, by less than a word. -/
def shiftLeft? (x : Int) (shift : Nat) : Option Int :=
  if shift < 128 then held? (x * 2 ^ shift) else none

/-- The arithmetic shift to the right, by less than a word. -/
def shiftRight? (x : Int) (shift : Nat) : Option Int :=
  if shift < 128 then held? (x / 2 ^ shift) else none

theorem held?_of_nonneg (hx : 0 ≤ x) (h : x ≤ greatest) : held? x = some x :=
  if_pos ⟨le_trans (by decide) hx, h⟩

theorem held?_neg (hx : 0 ≤ x) (h : x ≤ greatest) : held? (-x) = some (-x) := by
  have hleast : least ≤ -greatest := by decide
  exact if_pos ⟨by omega, by omega⟩

end Accumulator

open Accumulator

variable {x q q' : Int} {shift : Nat}

/-- The rounding shift, with a check at every operation that could overflow. -/
def checkedRoundShift (x : Int) (shift : Nat) : Option Int :=
  if shift = 0 then some x
  else do
    let half ← shiftLeft? 1 (shift - 1)
    if 0 ≤ x then shiftRight? (add x half) shift
    else
      let magnitude ← shiftRight? (add (neg x) half) shift
      held? (-magnitude)

/-! ## The closed form -/

/-- What a magnitude is rounded to: half a unit more divided, and at most the
greatest accumulator divided. -/
def roundedMagnitude (magnitude : Int) (shift : Nat) : Int :=
  min ((magnitude + 2 ^ (shift - 1)) / 2 ^ shift) (greatest / 2 ^ shift)

/-- Division keeps the order, so what is kept at the end of the word is divided
there. -/
theorem min_greatest_ediv (x : Int) (shift : Nat) :
    min x greatest / 2 ^ shift = min (x / 2 ^ shift) (greatest / 2 ^ shift) := by
  have hmono : Monotone fun z : Int => z / 2 ^ shift := fun _ _ h =>
    Int.ediv_le_ediv (by positivity) h
  exact hmono.map_min

theorem add_ediv_of_nonneg (hx : 0 ≤ x) (shift : Nat) :
    add x (2 ^ (shift - 1)) / 2 ^ shift = roundedMagnitude x shift := by
  rw [add_of_nonneg hx (by positivity), min_greatest_ediv, roundedMagnitude]

theorem add_neg_ediv_of_nonpos (hx : x ≤ 0) (shift : Nat) :
    add (neg x) (2 ^ (shift - 1)) / 2 ^ shift = roundedMagnitude (-x) shift := by
  rw [add_neg_of_nonpos hx (by positivity), min_greatest_ediv, roundedMagnitude]

theorem roundedMagnitude_nonneg (hx : 0 ≤ x) (shift : Nat) : 0 ≤ roundedMagnitude x shift :=
  le_min (Int.ediv_nonneg (by positivity) (by positivity))
    (Int.ediv_nonneg (by decide) (by positivity))

theorem roundedMagnitude_le (x : Int) (shift : Nat) : roundedMagnitude x shift ≤ greatest :=
  (min_le_right _ _).trans (Int.ediv_le_self _ (by decide))

/-- A number that is not negative is shifted as its magnitude. -/
theorem roundShift_eq_roundedMagnitude (hs : 0 < shift) (hx : 0 ≤ x) :
    roundShift x shift = roundedMagnitude x shift := by
  rw [roundShift_of_nonneg hs hx, natCast_pow_two, natCast_pow_two, add_ediv_of_nonneg hx]

/-- A negative number is shifted as its magnitude, with the sign put back. -/
theorem roundShift_eq_neg_roundedMagnitude (hs : 0 < shift) (hx : x < 0) :
    roundShift x shift = -roundedMagnitude (-x) shift := by
  rw [roundShift, if_neg (by omega), if_neg (by omega), natCast_pow_two, natCast_pow_two,
    add_neg_ediv_of_nonpos hx.le]

/-- **The shift in closed form.** -/
theorem roundShift_eq_sign_mul (hs : 0 < shift) (x : Int) :
    roundShift x shift = x.sign * roundedMagnitude |x| shift := by
  rcases lt_trichotomy x 0 with hx | rfl | hx
  · rw [roundShift_eq_neg_roundedMagnitude hs hx, Int.sign_eq_neg_one_of_neg hx, abs_of_neg hx,
      Int.neg_one_mul]
  · rw [roundShift_zero, Int.sign_zero, Int.zero_mul]
  · rw [roundShift_eq_roundedMagnitude hs hx.le, Int.sign_eq_one_of_pos hx, abs_of_pos hx,
      Int.one_mul]

/-- **A shift is odd.** -/
theorem roundShift_neg (x : Int) (shift : Nat) : roundShift (-x) shift = -roundShift x shift := by
  rcases Nat.eq_zero_or_pos shift with rfl | hs
  · rfl
  · rw [roundShift_eq_sign_mul hs, roundShift_eq_sign_mul hs x, Int.sign_neg, abs_neg, Int.neg_mul]

/-- **No step of a shift overflows**, for every shift of less than a word. -/
theorem checkedRoundShift_eq (x : Int) (hs : shift ≤ 127) :
    checkedRoundShift x shift = some (roundShift x shift) := by
  rcases Nat.eq_zero_or_pos shift with rfl | hpos
  · rfl
  have hhalf : shiftLeft? 1 (shift - 1) = some (2 ^ (shift - 1)) := by
    have hle : (2 : Int) ^ (shift - 1) ≤ 2 ^ 126 := pow_le_pow_right₀ (by decide) (by omega)
    have hword : (2 : Int) ^ 126 ≤ greatest := by decide
    rw [shiftLeft?, if_pos (by omega), Int.one_mul]
    exact held?_of_nonneg (by positivity) (hle.trans hword)
  rw [checkedRoundShift, if_neg (by omega), hhalf, Option.bind_eq_bind, Option.bind_some]
  rcases le_or_gt 0 x with hx | hx
  · have hheld := held?_of_nonneg (roundedMagnitude_nonneg hx shift) (roundedMagnitude_le x shift)
    rw [if_pos hx, shiftRight?, if_pos (by omega), add_ediv_of_nonneg hx, hheld,
      roundShift_eq_roundedMagnitude hpos hx]
  · -- the quotient of a magnitude is not the least accumulator, the one that has no opposite
    have hnonneg := roundedMagnitude_nonneg (by omega : 0 ≤ -x) shift
    have hle := roundedMagnitude_le (-x) shift
    rw [if_neg (by omega), shiftRight?, if_pos (by omega), add_neg_ediv_of_nonpos hx.le,
      held?_of_nonneg hnonneg hle, Option.bind_some, held?_neg hnonneg hle,
      roundShift_eq_neg_roundedMagnitude hpos hx]

/-- Half a unit of a shift by a whole word is no accumulator. -/
example : checkedRoundShift 1 128 = none := by decide

/-! ## Rounding -/

/-- The integer is nearest to the number; of two that are equally near it is the
one farther from zero. -/
def RoundsTo (y : ℚ) (q : Int) : Prop :=
  |y - q| ≤ 1 / 2 ∧ (|y - q| = 1 / 2 → |y| < |(q : ℚ)|)

/-- Rounding half away from zero is symmetric. -/
theorem RoundsTo.neg {y : ℚ} (h : RoundsTo y q) : RoundsTo (-y) (-q) := by
  have hdist : |-y - ((-q : Int) : ℚ)| = |y - q| := by
    rw [← abs_neg]
    push_cast
    ring_nf
  have habs : |((-q : Int) : ℚ)| = |(q : ℚ)| := by
    rw [Int.cast_neg, abs_neg]
  rwa [RoundsTo, hdist, habs, abs_neg]

/-- A number is not rounded to an integer and to a greater one as well. -/
theorem RoundsTo.le {y : ℚ} (h : RoundsTo y q) (h' : RoundsTo y q') : q' ≤ q := by
  by_contra hlt
  have hstep : (q : ℚ) + 1 ≤ q' := by exact_mod_cast not_le.1 hlt
  obtain ⟨hlow, hhigh⟩ := abs_le.1 h.1
  obtain ⟨hlow', hhigh'⟩ := abs_le.1 h'.1
  -- both are half a unit away, so the number lies in the middle between two
  -- neighbours
  have hmid : y = q + 1 / 2 := by linarith
  have hnext : (q' : ℚ) = q + 1 := by linarith
  have hfar := h.2 (by rw [hmid]; norm_num)
  have hfar' := h'.2 (by rw [hmid, hnext]; norm_num)
  rw [hmid] at hfar hfar'
  rw [hnext] at hfar'
  rcases le_or_gt 0 q with hq | hq
  · have hq' : (0 : ℚ) ≤ q := by exact_mod_cast hq
    rw [abs_of_nonneg hq', abs_of_nonneg (by linarith)] at hfar
    linarith
  · have hq' : (q : ℚ) + 1 ≤ 0 := by exact_mod_cast hq
    rw [abs_of_nonpos hq', abs_of_nonpos (by linarith)] at hfar'
    linarith

/-- A number rounds to one integer. -/
theorem RoundsTo.unique {y : ℚ} (h : RoundsTo y q) (h' : RoundsTo y q') : q = q' :=
  le_antisymm (h'.le h) (h.le h')

/-- From zero on, adding half a unit and dividing rounds. -/
theorem roundsTo_of_nonneg (hs : 0 < shift) (hx : 0 ≤ x) :
    RoundsTo ((x : ℚ) / 2 ^ shift) ((x + 2 ^ (shift - 1)) / 2 ^ shift) := by
  have hunit : (2 : ℚ) ^ shift = 2 * 2 ^ (shift - 1) := by
    rw [← pow_succ', Nat.sub_add_cancel hs]
  have hsum := Int.emod_add_mul_ediv (x + 2 ^ (shift - 1)) (2 ^ shift)
  have hlow := Int.emod_nonneg (x + 2 ^ (shift - 1)) (by positivity : (2 : Int) ^ shift ≠ 0)
  have hhigh := Int.emod_lt_of_pos (x + 2 ^ (shift - 1)) (by positivity : (0 : Int) < 2 ^ shift)
  generalize (x + 2 ^ (shift - 1)) / 2 ^ shift = q at *
  generalize (x + 2 ^ (shift - 1)) % 2 ^ shift = r at *
  -- how far the quotient is from the number is how far the remainder is from
  -- half a unit
  have hdist : (x : ℚ) / 2 ^ shift - q = r / 2 ^ shift - 1 / 2 := by
    have hsum' : (r : ℚ) + 2 ^ shift * q = x + 2 ^ (shift - 1) := by exact_mod_cast hsum
    rw [hunit] at hsum' ⊢
    field_simp
    linarith
  have hpart : 0 ≤ (r : ℚ) / 2 ^ shift := div_nonneg (by exact_mod_cast hlow) (by positivity)
  have hpart' : (r : ℚ) / 2 ^ shift < 1 := (div_lt_one (by positivity)).2 (by exact_mod_cast hhigh)
  refine ⟨by rw [hdist, abs_le]; constructor <;> linarith, fun htie => ?_⟩
  have hx' : 0 ≤ (x : ℚ) / 2 ^ shift := div_nonneg (by exact_mod_cast hx) (by positivity)
  have hq := le_abs_self (q : ℚ)
  rw [abs_of_nonneg hx']
  rcases (abs_eq (by norm_num)).1 htie with h | h <;> linarith

/-- **A shift rounds the quotient**, where half a unit can be added to the
magnitude within the word. -/
theorem roundsTo_roundShift (hs : 0 < shift) (hfit : |x| + 2 ^ (shift - 1) ≤ greatest) :
    RoundsTo ((x : ℚ) / 2 ^ shift) (roundShift x shift) := by
  have hrounded : roundedMagnitude |x| shift = (|x| + 2 ^ (shift - 1)) / 2 ^ shift :=
    min_eq_left (Int.ediv_le_ediv (by positivity) hfit)
  rcases le_or_gt 0 x with hx | hx
  · rw [abs_of_nonneg hx] at hrounded
    rw [roundShift_eq_roundedMagnitude hs hx, hrounded]
    exact roundsTo_of_nonneg hs hx
  · rw [abs_of_neg hx] at hrounded
    have hneg := (roundsTo_of_nonneg hs (by omega : 0 ≤ -x)).neg
    rw [roundShift_eq_neg_roundedMagnitude hs hx, hrounded]
    rwa [Int.cast_neg, neg_div, neg_neg] at hneg

/-- **A rounding shift over the whole word.** For every shift of less than a
word, no step overflows, and the result has the sign of the number and for its
magnitude that of the number with half a unit added, divided, but at most the
greatest accumulator divided. While half a unit can be added within the word,
the result is the one integer that the quotient rounds to, a half away from
zero. A shift is odd and keeps the order, and one by nothing changes nothing. -/
theorem roundShift_rounds (x : Int) (hs : 0 < shift) (hs' : shift ≤ 127) :
    checkedRoundShift x shift = some (roundShift x shift) ∧
    roundShift x shift = x.sign * min ((|x| + 2 ^ (shift - 1)) / 2 ^ shift)
      ((2 ^ 127 - 1) / 2 ^ shift) ∧
    (|x| + 2 ^ (shift - 1) ≤ 2 ^ 127 - 1 → ∀ q, RoundsTo ((x : ℚ) / 2 ^ shift) q ↔
      q = roundShift x shift) ∧
    roundShift (-x) shift = -roundShift x shift ∧
    (∀ y, x ≤ y → roundShift x shift ≤ roundShift y shift) ∧
    roundShift x 0 = x := by
  refine ⟨checkedRoundShift_eq x hs', roundShift_eq_sign_mul hs x, fun hfit q => ?_,
    roundShift_neg x shift, fun y hxy => roundShift_mono shift hxy, rfl⟩
  have hrounds := roundsTo_roundShift hs hfit
  exact ⟨fun h => h.unique hrounds, fun h => h ▸ hrounds⟩

/-- Two and a half is rounded to three and its opposite to minus three. Where
half a unit does not fit, the magnitude is one less than the rounded one: so for
the least accumulator and the next when they are halved, and for the least
accumulator when it is shifted to its sign. -/
theorem roundShift_rounds_ends :
    roundShift 5 1 = 3 ∧ RoundsTo (5 / 2) 3 ∧ roundShift (-5) 1 = -3 ∧
    checkedRoundShift least 1 = some (1 - 2 ^ 126) ∧ roundShift (least + 1) 1 = 1 - 2 ^ 126 ∧
    roundShift least 127 = 0 := by
  have hfive : roundShift 5 1 = 3 := by decide
  obtain ⟨-, -, hrounds, hodd, -, -⟩ := roundShift_rounds 5 (by decide : 0 < 1) (by decide)
  obtain ⟨hchecked, -, -, -, -, -⟩ := roundShift_rounds least (by decide : 0 < 1) (by decide)
  refine ⟨hfive, ?_, hodd.trans (by rw [hfive]), hchecked.trans (by decide), by decide, by decide⟩
  simpa using (hrounds (by decide) 3).2 hfive.symm

end QuantAccel
