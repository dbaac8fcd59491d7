import QuantAccel.Proofs.RoundTrip

/-!
# Access to bit fields

A field of up to a word can begin and end anywhere in a byte and lie across nine
of them. What is read from it after a write is the value reduced to the width of
the field, and no bit outside of it has changed. Fields that lie apart are
therefore written in any order (`writeField_comm`), and what is read from a
field, with or without a sign, writes the field as it was
(`writeField_readField`).
-/

namespace QuantAccel

/-- A residue below a full word is its own word, and that of a full word
wraps. -/
theorem Word64.wrap_residue (x : Int) {width : Nat} (h : width ≤ 64) :
    Word64.wrap (x % 2 ^ width) = if width = 64 then x.bmod (2 ^ 64) else x % 2 ^ width := by
  have hpos : (0 : Int) < 2 ^ width := by positivity
  have hlow := Int.emod_nonneg x hpos.ne'
  have hhigh := Int.emod_lt_of_pos x hpos
  rw [Word64.wrap_eq]
  split
  · rename_i h64
    subst h64
    rw [Int.bmod_def]
    split <;> omega
  · have hhalf : (2 : Int) ^ width ≤ 2 ^ 63 := pow_le_pow_right₀ (by decide) (by omega)
    omega

namespace Bytes

variable {b : Bytes} {offset width offset' width' : Nat}

/-- The word that a field of some width stands for, once a value was written to
it. -/
theorem readField_writeField_eq (b : Bytes) (hpos : 0 < width) (hle : width ≤ 64)
    (hfit : offset + width ≤ 8 * b.size) (value : Int) (signed : Bool) :
    (b.writeField offset width value).readField offset width signed =
      if signed ∨ width = 64 then value.bmod (2 ^ width) else value % 2 ^ width := by
  refine (readField_writeField b ⟨width, signed, hpos, hle⟩ value hfit).trans ?_
  rw [ElementType.reduce]
  cases signed
  · rw [if_neg (by simp), Word64.wrap_residue _ hle]
    by_cases h64 : width = 64
    · simp [h64]
    · simp [h64]
  · simp

theorem readField_writeField_of_disjoint (b : Bytes) (value : Int)
    (hfit : offset + width ≤ 8 * b.size)
    (hdis : offset' + width' ≤ offset ∨ offset + width ≤ offset') (signed : Bool) :
    (b.writeField offset width value).readField offset' width' signed =
      b.readField offset' width' signed := by
  rw [readField, readField, fieldAt_writeField_of_disjoint b value hfit hdis]

/-- **Fields that lie apart are written in any order.** -/
theorem writeField_comm (b : Bytes) (value value' : Int) (hfit : offset + width ≤ 8 * b.size)
    (hfit' : offset' + width' ≤ 8 * b.size)
    (hdis : offset' + width' ≤ offset ∨ offset + width ≤ offset') :
    (b.writeField offset width value).writeField offset' width' value' =
      (b.writeField offset' width' value').writeField offset width value := by
  refine ext_bit (by simp) fun p => ?_
  -- a bit lies in one of the fields, or in neither
  by_cases hp : offset ≤ p ∧ p < offset + width
  · rw [bit_writeField_outside _ _ (by simpa using hfit') (by omega),
      bit_writeField_inside _ _ hfit hp.1 hp.2,
      bit_writeField_inside _ _ (by simpa using hfit) hp.1 hp.2]
  · rw [bit_writeField_outside _ value (by simpa using hfit) (by omega)]
    by_cases hp' : offset' ≤ p ∧ p < offset' + width'
    · rw [bit_writeField_inside _ _ (by simpa using hfit') hp'.1 hp'.2,
        bit_writeField_inside _ _ hfit' hp'.1 hp'.2]
    · rw [bit_writeField_outside _ _ (by simpa using hfit') (by omega),
        bit_writeField_outside _ _ hfit (by omega), bit_writeField_outside _ _ hfit' (by omega)]

/-- **Writing back what was read changes nothing**, with and without a sign. -/
theorem writeField_readField (b : Bytes) (hpos : 0 < width) (hle : width ≤ 64)
    (hfit : offset + width ≤ 8 * b.size) (signed : Bool) :
    b.writeField offset width (b.readField offset width signed) = b := by
  refine ext_bit (by simp) fun p => ?_
  by_cases hp : offset ≤ p ∧ p < offset + width
  · have hbits := fieldBits_fieldValue ⟨width, signed, hpos, hle⟩ (fieldAt_lt b offset width)
    rw [bit_writeField_inside _ _ hfit hp.1 hp.2, readField, hbits, testBit_fieldAt,
      decide_eq_true (by omega), Bool.true_and, Nat.add_sub_cancel' hp.1]
  · rw [bit_writeField_outside _ _ hfit (by omega)]

/-- **Access to a bit field.** A field of 1 to 64 bits, anywhere in a buffer,
reads as the value that was written, reduced modulo the power of two of its
width: to the residue about zero if the read is signed or fills a word, and else
to the one from zero on. The write changes no bit outside of the field, so that
fields apart from it read as before and can be written before or after it. What
is read from the field, with or without a sign, writes the buffer as it was. -/
theorem field_access (b : Bytes) (hpos : 0 < width) (hle : width ≤ 64)
    (hfit : offset + width ≤ 8 * b.size) (value : Int) :
    (∀ signed : Bool, (b.writeField offset width value).readField offset width signed =
      if signed ∨ width = 64 then value.bmod (2 ^ width) else value % 2 ^ width) ∧
    (b.writeField offset width value).size = b.size ∧
    (∀ p, p < offset ∨ offset + width ≤ p → (b.writeField offset width value).bit p = b.bit p) ∧
    (∀ offset' width', offset' + width' ≤ offset ∨ offset + width ≤ offset' →
      (∀ signed, (b.writeField offset width value).readField offset' width' signed =
        b.readField offset' width' signed) ∧
      (offset' + width' ≤ 8 * b.size → ∀ value',
        (b.writeField offset width value).writeField offset' width' value' =
          (b.writeField offset' width' value').writeField offset width value)) ∧
    ∀ signed, b.writeField offset width (b.readField offset width signed) = b := by
  refine ⟨readField_writeField_eq b hpos hle hfit value, size_writeField b offset width value,
    fun p hp => bit_writeField_outside b value hfit hp, fun offset' width' hdis => ⟨?_, ?_⟩,
    writeField_readField b hpos hle hfit⟩
  · exact readField_writeField_of_disjoint b value hfit hdis
  · exact fun hfit' value' => writeField_comm b value value' hfit hfit' hdis

/-- Ten bytes that are not blank. -/
def patterned : Bytes := Array.replicate 10 0xa5

/-- A word across nine bytes, and a field of five bits right behind it. The word
reads as it was written without a sign too, and the five bits read as before. Of
100 and -3 they keep 4 and 29. -/
theorem field_access_patterned :
    (patterned.writeField 5 64 (-2)).readField 5 64 false = -2 ∧
    (patterned.writeField 5 64 (-2)).readField 69 5 true = patterned.readField 69 5 true ∧
    (patterned.writeField 69 5 100).readField 69 5 true = 4 ∧
    (patterned.writeField 69 5 (-3)).readField 69 5 false = 29 ∧
    patterned.writeField 69 5 (patterned.readField 69 5 true) = patterned := by
  have hword : 5 + 64 ≤ 8 * patterned.size := by decide
  have hfive : 69 + 5 ≤ 8 * patterned.size := by decide
  obtain ⟨hwide, -, -, hapart, -⟩ := field_access patterned (by decide) le_rfl hword (-2)
  obtain ⟨hnarrow, -, -, -, hback⟩ := field_access patterned (by decide) (by decide) hfive 100
  obtain ⟨hnegative, -⟩ := field_access patterned (by decide) (by decide) hfive (-3)
  exact ⟨(hwide false).trans (by decide), (hapart 69 5 (.inr le_rfl)).1 true,
    (hnarrow true).trans (by decide), (hnegative false).trans (by decide), hback true⟩

end Bytes

end QuantAccel
