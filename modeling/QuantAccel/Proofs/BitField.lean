import Mathlib
import QuantAccel.Memory.BitField
import QuantAccel.Tensor.ElementType

/-!
# Bit fields, bit by bit

A buffer is determined by its size and its bits. Writing a field sets the bits
of the field and leaves every other bit alone, and reading a field looks at the
bits of the field only; the round trip and the frame of every later store are
read off these two facts.
-/

namespace QuantAccel

/-! ## Powers of two -/

/-- Powers of two are the same as natural numbers and as integers. -/
theorem natCast_pow_two (n : Nat) : ((Nat.pow 2 n : Nat) : Int) = 2 ^ n := by
  rw [Nat.pow_eq]
  push_cast
  rfl

theorem Word64.greatest_eq : Word64.greatest = 2 ^ 63 - 1 := rfl

theorem Word64.wrap_eq (x : Int) : Word64.wrap x = (x + 2 ^ 63) % 2 ^ 64 - 2 ^ 63 := rfl

/-- The greatest element as a power of two, up to the end of the word. -/
theorem ElementType.greatest_eq (t : ElementType) : t.greatest =
    if t.signed then 2 ^ (t.width - 1) - 1 else min (2 ^ t.width - 1) Word64.greatest := by
  rw [greatest, natCast_pow_two, natCast_pow_two]

theorem ElementType.least_eq (t : ElementType) :
    t.least = if t.signed then -2 ^ (t.width - 1) else 0 := by
  rw [least, natCast_pow_two]

theorem Bytes.fieldBits_eq (width : Nat) (value : Int) :
    fieldBits width value = (value % 2 ^ width).toNat := by
  rw [fieldBits, natCast_pow_two]

/-- A field with its sign bit set is negative if it is signed and narrower than
a word; a word is its own two's complement. -/
theorem Bytes.fieldValue_eq (width : Nat) (signed : Bool) (raw : Nat) :
    fieldValue width signed raw =
    if signed && decide (width < 64) && raw.testBit (width - 1) then (raw : Int) - 2 ^ width
    else Word64.wrap raw := by
  rw [fieldValue, natCast_pow_two]

namespace Bytes

variable {b b' : Bytes} {offset width position p : Nat}

/-! ## Sizes -/

@[simp] theorem size_setBit (b : Bytes) (position : Nat) (value : Bool) :
    (b.setBit position value).size = b.size := by
  simp [setBit]

@[simp] theorem size_setBits (b : Bytes) (offset width raw : Nat) :
    (b.setBits offset width raw).size = b.size := by
  induction width generalizing b offset raw with
  | zero => rfl
  | succ width ih => rw [setBits, ih, size_setBit]

@[simp] theorem size_writeField (b : Bytes) (offset width : Nat) (value : Int) :
    (b.writeField offset width value).size = b.size := by
  simp [writeField]

@[simp] theorem size_splice (b : Bytes) (start : Nat) (data : List UInt8) :
    (b.splice start data).size = b.size := by
  induction data generalizing b start with
  | nil => rfl
  | cons byte rest ih => simp [splice, ih]

/-! ## One bit -/

/-- A byte with one bit set or cleared, read bit by bit. -/
theorem testBit_masked (byte : UInt8) {k : Nat} (hk : k < 8) (value : Bool) (j : Nat) (hj : j < 8) :
    (if value then byte ||| (1 <<< UInt8.ofNat k)
      else byte &&& ~~~(1 <<< UInt8.ofNat k)).toNat.testBit j
      = if j = k then value else byte.toNat.testBit j := by
  have hmask : ∀ k < 8, ∀ j < 8,
      ((1 : UInt8) <<< UInt8.ofNat k).toNat.testBit j = decide (j = k) := by decide
  have hclear : ∀ k < 8, ∀ j < 8,
      (~~~((1 : UInt8) <<< UInt8.ofNat k)).toNat.testBit j = !decide (j = k) := by decide
  cases value
  · simp only [Bool.false_eq_true, if_false, UInt8.toNat_and, Nat.testBit_and, hclear k hk j hj]
    by_cases h : j = k <;> simp [h]
  · simp only [if_true, UInt8.toNat_or, Nat.testBit_or, hmask k hk j hj]
    by_cases h : j = k <;> simp [h]

/-- The byte that a modification at position `i` leaves at position `j`. -/
theorem getD_modify (b : Bytes) (f : UInt8 → UInt8) {i : Nat} (hi : i < b.size) (j : Nat) :
    (b.modify i f).getD j 0 = if j = i then f (b.getD j 0) else b.getD j 0 := by
  simp only [Array.getD_eq_getD_getElem?, Array.getElem?_modify]
  by_cases h : j = i
  · subst h
    simp [hi]
  · simp [h, Ne.symm h]

/-- **Setting a bit sets that bit and no other.** -/
theorem bit_setBit (b : Bytes) (value : Bool) (hp : position / 8 < b.size) :
    (b.setBit position value).bit p = if p = position then value else b.bit p := by
  unfold bit setBit
  rw [getD_modify b _ hp]
  by_cases hq : p / 8 = position / 8
  · have hsame : p % 8 = position % 8 ↔ p = position := by omega
    rw [if_pos hq, testBit_masked _ (Nat.mod_lt _ (by decide)) _ _ (Nat.mod_lt _ (by decide))]
    simp only [hsame]
  · have hne : p ≠ position := fun h => hq (by rw [h])
    rw [if_neg hq, if_neg hne]

/-! ## Fields -/

/-- **Writing bits sets the bits of the field and no other.** -/
theorem bit_setBits (b : Bytes) (raw : Nat) (hfit : offset + width ≤ 8 * b.size) :
    (b.setBits offset width raw).bit p =
      if offset ≤ p ∧ p < offset + width then raw.testBit (p - offset) else b.bit p := by
  induction width generalizing b offset raw with
  | zero => rw [setBits, if_neg (by omega)]
  | succ width ih =>
    rw [setBits, ih _ _ (by rw [size_setBit]; omega), bit_setBit _ _ (by omega)]
    rcases Nat.lt_trichotomy p offset with hlt | rfl | hgt
    · rw [if_neg (by omega), if_neg (by omega), if_neg (by omega)]
    · rw [if_neg (by omega), if_pos rfl, if_pos (by omega), Nat.sub_self, Nat.testBit_zero]
      rfl
    · have hstep : p - offset = (p - (offset + 1)) + 1 := by omega
      by_cases hin : p < offset + 1 + width
      · rw [if_pos (by omega), if_pos (by omega), hstep, Nat.testBit_succ]
      · rw [if_neg (by omega), if_neg (by omega), if_neg (by omega)]

/-- Inside a field the bits are those of the value. -/
theorem bit_writeField_inside (b : Bytes) (value : Int) (hfit : offset + width ≤ 8 * b.size)
    (hl : offset ≤ p) (hh : p < offset + width) :
    (b.writeField offset width value).bit p = (fieldBits width value).testBit (p - offset) := by
  rw [writeField, bit_setBits _ _ hfit, if_pos ⟨hl, hh⟩]

/-- Outside of a field the bits are as they were. -/
theorem bit_writeField_outside (b : Bytes) (value : Int) (hfit : offset + width ≤ 8 * b.size)
    (hout : p < offset ∨ offset + width ≤ p) :
    (b.writeField offset width value).bit p = b.bit p := by
  rw [writeField, bit_setBits _ _ hfit, if_neg (by omega)]

/-- The bits of a field are those of the buffer. -/
theorem testBit_fieldAt (b : Bytes) (offset width i : Nat) :
    (b.fieldAt offset width).testBit i = (decide (i < width) && b.bit (offset + i)) := by
  induction width generalizing offset i with
  | zero => simp [fieldAt]
  | succ width ih =>
    cases i with
    | zero =>
      rw [fieldAt, Nat.testBit_zero]
      cases b.bit offset <;> simp [Nat.add_mul_mod_self_left]
    | succ i =>
      have hdiv : ((b.bit offset).toNat + 2 * b.fieldAt (offset + 1) width) / 2 =
          b.fieldAt (offset + 1) width := by
        have := Bool.toNat_lt (b.bit offset)
        omega
      rw [fieldAt, Nat.testBit_succ, hdiv, ih, show offset + 1 + i = offset + (i + 1) by omega]
      simp

/-- **A field is determined by its bits**, wherever it lies. -/
theorem fieldAt_congr {offset' : Nat}
    (h : ∀ i < width, b.bit (offset + i) = b'.bit (offset' + i)) :
    b.fieldAt offset width = b'.fieldAt offset' width := by
  apply Nat.eq_of_testBit_eq
  intro i
  rw [testBit_fieldAt, testBit_fieldAt]
  by_cases hi : i < width
  · simp [hi, h i hi]
  · simp [hi]

/-- A field is read from its bits alone. -/
theorem readField_congr {offset' : Nat} (signed : Bool)
    (h : ∀ i < width, b.bit (offset + i) = b'.bit (offset' + i)) :
    b.readField offset width signed = b'.readField offset' width signed := by
  rw [readField, readField, fieldAt_congr h]

/-- The bits of a value fill the field at most. -/
theorem fieldBits_lt (width : Nat) (value : Int) : fieldBits width value < 2 ^ width := by
  have hpos : (0 : Int) < 2 ^ width := by positivity
  have hlt := Int.emod_lt_of_pos value hpos
  have hnn := Int.emod_nonneg value (ne_of_gt hpos)
  rw [fieldBits_eq]
  zify
  omega

/-- **The raw round trip**: a field that was written holds the low bits of the
value. -/
theorem fieldAt_writeField (b : Bytes) (value : Int) (hfit : offset + width ≤ 8 * b.size) :
    (b.writeField offset width value).fieldAt offset width = fieldBits width value := by
  apply Nat.eq_of_testBit_eq
  intro i
  rw [testBit_fieldAt]
  by_cases hi : i < width
  · rw [bit_writeField_inside _ _ hfit (by omega) (by omega), Nat.add_sub_cancel_left]
    simp [hi]
  · have hbig : fieldBits width value < 2 ^ i :=
      lt_of_lt_of_le (fieldBits_lt width value) (Nat.pow_le_pow_right (by decide) (by omega))
    rw [Nat.testBit_lt_two_pow hbig]
    simp [hi]

/-- A field that a write does not meet keeps its value. -/
theorem fieldAt_writeField_of_disjoint (b : Bytes) {offset' width' : Nat} (value : Int)
    (hfit : offset + width ≤ 8 * b.size)
    (hdis : offset' + width' ≤ offset ∨ offset + width ≤ offset') :
    (b.writeField offset width value).fieldAt offset' width' = b.fieldAt offset' width' :=
  fieldAt_congr fun _ hi => bit_writeField_outside b value hfit (by omega)

end Bytes

/-! ## Elements in fields -/

/-- The element that the low bits of `x` stand for: the residue of `x`, with the
sign of its highest bit when the type is signed, and as a 64-bit word when it is
not. -/
def ElementType.reduce (t : ElementType) (x : Int) : Int :=
  if t.signed then x.bmod (2 ^ t.width) else Word64.wrap (x % 2 ^ t.width)

theorem two_mul_half_pow {width : Nat} (h : 0 < width) : 2 * 2 ^ (width - 1) = 2 ^ width := by
  rw [← Nat.pow_succ', Nat.succ_eq_add_one, Nat.sub_add_cancel h]

/-- The highest bit of a field tells its upper half. -/
theorem testBit_half {width raw : Nat} (h : 0 < width) (hraw : raw < 2 ^ width) :
    raw.testBit (width - 1) = decide (2 ^ (width - 1) ≤ raw) := by
  have hhalf := two_mul_half_pow h
  rw [Nat.testBit_eq_decide_div_mod_eq]
  have hdiv : raw / 2 ^ (width - 1) < 2 := Nat.div_lt_of_lt_mul (by omega)
  by_cases hle : 2 ^ (width - 1) ≤ raw
  · have := Nat.div_pos hle (by positivity)
    simp only [hle, decide_true, decide_eq_true_eq]
    omega
  · simp [hle, Nat.div_eq_of_lt (Nat.lt_of_not_le hle)]

/-- **What a field of an element reads as** once a value was written to it. -/
theorem Bytes.fieldValue_fieldBits (t : ElementType) (x : Int) :
    fieldValue t.width t.signed (fieldBits t.width x) = t.reduce x := by
  have hpos := t.width_pos
  have hle := t.width_le
  have hlt := fieldBits_lt t.width x
  have hhalf := two_mul_half_pow hpos
  have hraw : (fieldBits t.width x : Int) = x % 2 ^ t.width := by
    have hnn : 0 ≤ x % 2 ^ t.width := Int.emod_nonneg _ (by positivity)
    simp [fieldBits_eq, hnn]
  have hcast : ((2 ^ t.width : Nat) : Int) = 2 ^ t.width := by push_cast; rfl
  rw [fieldValue_eq, ElementType.reduce]
  rw [testBit_half hpos hlt]
  cases hs : t.signed
  · simp [hraw]
  · have hbmod := Int.bmod_def x (2 ^ t.width)
    rw [hcast, ← hraw, show (2 ^ t.width + 1 : Int) / 2 = (2 ^ (t.width - 1) : Nat) by
      rw [← hcast, ← hhalf]; omega] at hbmod
    simp only [Bool.true_and, if_true, hbmod]
    -- a full word is not sign-extended, but wraps to the same value
    by_cases h64 : t.width < 64
    · simp only [h64, decide_true, Bool.true_and, decide_eq_true_eq]
      by_cases hup : 2 ^ (t.width - 1) ≤ fieldBits t.width x
      · rw [if_pos hup, if_neg (by omega)]
      · rw [if_neg hup, if_pos (by omega), Word64.wrap_eq]
        have : 2 ^ (t.width - 1) ≤ 2 ^ 63 := Nat.pow_le_pow_right (by decide) (by omega)
        omega
    · have h64' : t.width = 64 := by omega
      simp only [h64, decide_false, Bool.false_and, Bool.false_eq_true, if_false, Word64.wrap_eq]
      rw [h64'] at hlt ⊢
      split <;> omega

/-- An element of the type is reduced to itself. -/
theorem ElementType.reduce_of_mem (t : ElementType) {x : Int} (hl : t.least ≤ x)
    (hh : x ≤ t.greatest) :
    t.reduce x = x := by
  have hhalf := two_mul_half_pow t.width_pos
  have hcast : ((2 ^ t.width : Nat) : Int) = 2 * ((2 ^ (t.width - 1) : Nat) : Int) := by
    rw [← hhalf]; push_cast; rfl
  rw [least_eq] at hl
  rw [greatest_eq] at hh
  unfold reduce
  cases hs : t.signed
  · simp only [hs, Bool.false_eq_true, if_false, Word64.greatest_eq] at *
    have hp : (0 : Int) < 2 ^ t.width := by positivity
    rw [Int.emod_eq_of_lt hl (by omega), Word64.wrap_eq]
    omega
  · simp only [hs, if_true] at *
    have hp : ((2 ^ (t.width - 1) : Nat) : Int) = 2 ^ (t.width - 1) := by push_cast; rfl
    rw [Int.bmod_eq_of_le_mul_two] <;> omega

namespace Bytes

variable {b b' : Bytes} {offset : Nat}

/-- **The round trip of a field.** -/
theorem readField_writeField (b : Bytes) (t : ElementType) (x : Int)
    (hfit : offset + t.width ≤ 8 * b.size) :
    (b.writeField offset t.width x).readField offset t.width t.signed = t.reduce x := by
  rw [readField, fieldAt_writeField _ _ hfit, fieldValue_fieldBits]

/-! ## Whole buffers -/

/-- Two bytes with the same bits are equal. -/
theorem eq_of_testBit_eq {x y : UInt8} (h : ∀ i < 8, x.toNat.testBit i = y.toNat.testBit i) :
    x = y := by
  apply UInt8.toNat_inj.1
  apply Nat.eq_of_testBit_eq
  intro i
  by_cases hi : i < 8
  · exact h i hi
  · have hx : x.toNat < 2 ^ i :=
      lt_of_lt_of_le x.toNat_lt (Nat.pow_le_pow_right (by decide) (by omega))
    have hy : y.toNat < 2 ^ i :=
      lt_of_lt_of_le y.toNat_lt (Nat.pow_le_pow_right (by decide) (by omega))
    rw [Nat.testBit_lt_two_pow hx, Nat.testBit_lt_two_pow hy]

/-- The bits of one byte. -/
theorem bit_byte (b : Bytes) (start : Nat) {i : Nat} (hi : i < 8) :
    b.bit (8 * start + i) = (b.getD start 0).toNat.testBit i := by
  rw [bit, show (8 * start + i) / 8 = start by omega, show (8 * start + i) % 8 = i by omega]

/-- Bytes are equal if their eight bits are. -/
theorem getD_eq_iff_bit (b b' : Bytes) (start start' : Nat) :
    b.getD start 0 = b'.getD start' 0 ↔
      ∀ i < 8, b.bit (8 * start + i) = b'.bit (8 * start' + i) := by
  constructor
  · intro h i hi
    rw [bit_byte b start hi, bit_byte b' start' hi, h]
  · intro h
    refine eq_of_testBit_eq fun i hi => ?_
    rw [← bit_byte b start hi, ← bit_byte b' start' hi, h i hi]

/-- **A buffer is its size and its bits.** -/
theorem ext_bit (hsize : b.size = b'.size) (h : ∀ p, b.bit p = b'.bit p) : b = b' := by
  refine Array.ext hsize fun i hi hi' => ?_
  have hbyte := (getD_eq_iff_bit b b' i i).2 fun j _ => h (8 * i + j)
  simpa [Array.getD_eq_getD_getElem?, hi, hi'] using hbyte

/-! ## Splices -/

theorem getD_setIfInBounds_ne (b : Bytes) (byte : UInt8) {i j : Nat} (h : i ≠ j) :
    (b.setIfInBounds i byte).getD j 0 = b.getD j 0 := by
  simp [Array.getD_eq_getD_getElem?, Array.getElem?_setIfInBounds_ne h]

/-- **The bytes after a splice**: the data where it lies, and the old bytes
elsewhere. -/
theorem getD_splice (b : Bytes) (start : Nat) (data : List UInt8) (i : Nat)
    (hfit : start + data.length ≤ b.size) :
    (b.splice start data).getD i 0 =
      if start ≤ i ∧ i < start + data.length then data.getD (i - start) 0 else b.getD i 0 := by
  induction data generalizing b start with
  | nil => rw [splice, if_neg (by simp)]
  | cons byte rest ih =>
    have hlen : start + (rest.length + 1) ≤ b.size := by simpa using hfit
    rw [splice, ih _ _ (by simp; omega)]
    rcases Nat.lt_trichotomy i start with hlt | rfl | hgt
    · rw [if_neg (by omega), if_neg (by omega)]
      exact getD_setIfInBounds_ne b byte (by omega)
    · rw [if_neg (by omega), if_pos (by simp)]
      simp [Array.getD_eq_getD_getElem?, (by omega : i < b.size)]
    · have hstep : i - start = (i - (start + 1)) + 1 := by omega
      by_cases hin : i < start + 1 + rest.length
      · rw [if_pos (by omega), if_pos (by simp; omega), hstep, List.getD_cons_succ]
      · rw [if_neg (by omega), if_neg (by simp; omega)]
        exact getD_setIfInBounds_ne b byte (by omega)

/-- Bytes outside of a splice are as they were. -/
theorem getD_splice_outside (b : Bytes) (data : List UInt8) {start i : Nat}
    (hfit : start + data.length ≤ b.size) (hout : i < start ∨ start + data.length ≤ i) :
    (b.splice start data).getD i 0 = b.getD i 0 := by
  rw [getD_splice _ _ _ _ hfit, if_neg (by omega)]

/-- Bytes inside a splice are those of the data. -/
theorem getD_splice_inside (b : Bytes) (data : List UInt8) {start i : Nat}
    (hfit : start + data.length ≤ b.size) (hi : i < data.length) :
    (b.splice start data).getD (start + i) 0 = data.getD i 0 := by
  rw [getD_splice _ _ _ _ hfit, if_pos (by omega), Nat.add_sub_cancel_left]

end Bytes

end QuantAccel
