import QuantAccel.Proofs.Elements
import QuantAccel.Proofs.Quantization

/-!
# Packed bytes and logical values determine each other

A packed buffer is the slots of its logical elements and zeros between them. A
slot keeps of a value what fits its width, so that unpacking gives each value
back reduced to its element type. The other way round a slot loses nothing: the
word that is read from it has the bits of the slot for its low bits. Packing
what was unpacked therefore gives back every buffer that is zero outside of the
slots (`pack_roundTrip`).
-/

namespace QuantAccel

/-- A word differs from an integer by whole words. -/
theorem Word64.wrap_emod (x : Int) {width : Nat} (h : width ≤ 64) :
    Word64.wrap x % 2 ^ width = x % 2 ^ width := by
  obtain ⟨k, hk⟩ : ∃ k, Word64.wrap x = x + 2 ^ 64 * k := by
    have hdiv := Int.emod_add_mul_ediv (x + 2 ^ 63) (2 ^ 64)
    refine ⟨-((x + 2 ^ 63) / 2 ^ 64), ?_⟩
    rw [Word64.wrap_eq]
    omega
  obtain ⟨n, hn⟩ : (2 ^ width : Int) ∣ 2 ^ 64 := pow_dvd_pow 2 h
  rw [hk, hn, Int.mul_assoc, Int.add_mul_emod_self_left]

namespace Bytes

variable {b : Bytes} {p : Nat}

theorem fieldAt_lt (b : Bytes) (offset width : Nat) : b.fieldAt offset width < 2 ^ width := by
  apply Nat.lt_pow_two_of_testBit
  intro i hi
  rw [testBit_fieldAt, decide_eq_false (by omega), Bool.false_and]

/-- **A word that was read from a field has the field for its low bits**, with
and without a sign. -/
theorem fieldBits_fieldValue (t : ElementType) {raw : Nat} (hraw : raw < 2 ^ t.width) :
    fieldBits t.width (fieldValue t.width t.signed raw) = raw := by
  have hlow : fieldValue t.width t.signed raw % 2 ^ t.width = (raw : Int) % 2 ^ t.width := by
    rw [fieldValue_eq]
    split
    · exact Int.sub_emod_right _ _
    · exact Word64.wrap_emod _ t.width_le
  have hcast : (raw : Int) < 2 ^ t.width := by exact_mod_cast hraw
  rw [fieldBits_eq, hlow, Int.emod_eq_of_lt (Int.natCast_nonneg raw) hcast, Int.toNat_natCast]

theorem bit_of_size_le (h : 8 * b.size ≤ p) : b.bit p = false := by
  have hout : b.getD (p / 8) 0 = 0 := by
    rw [Array.getD_eq_getD_getElem?, Array.getElem?_eq_none (by omega), Option.getD_none]
  rw [bit, hout]
  exact Nat.zero_testBit _

end Bytes

/-! ## Slots of a packed tensor -/

variable {shape padded : Shape} {values : Array Int} {width p : Nat}

/-- The bit `p` lies in the slot of a logical element. -/
def Shape.Covers (shape padded : Shape) (width p : Nat) : Prop :=
  ∃ i < shape.volume, shape.position padded i * width ≤ p ∧
    p < shape.position padded i * width + width

instance : Decidable (shape.Covers padded width p) :=
  inferInstanceAs (Decidable (∃ i < shape.volume, _))

/-- A slot lies in the buffer that has room for the padded shape. -/
theorem Shape.slot_fits_replicate (hpos : shape.Positive) (hfits : shape.Fits padded)
    (width i : Nat) :
    shape.position padded i * width + width ≤
      8 * (Array.replicate (packedLength padded.volume width) (0 : UInt8)).size := by
  rw [Array.size_replicate]
  exact slot_fits width (Shape.position_lt hfits hpos i)

/-- **A bit of a slot is a bit of its element.** -/
theorem bit_pack_inside (hpos : shape.Positive) (hfits : shape.Fits padded)
    (hsize : values.size = shape.volume) {i : Nat} (hi : i < shape.volume)
    (hl : shape.position padded i * width ≤ p) (hh : p < shape.position padded i * width + width) :
    (pack values shape padded width).bit p =
      (Bytes.fieldBits width (values.getD i 0)).testBit (p - shape.position padded i * width) := by
  have hapart := Shape.fieldsApart hpos hfits width
  rw [pack, hsize]
  exact Bytes.bit_writeFields_inside
    (fun k _ => Shape.slot_fits_replicate hpos hfits width k) hapart
    (List.mem_range.2 hi) hl hh

/-- **A bit outside of all slots is zero.** -/
theorem bit_pack_outside (hpos : shape.Positive) (hfits : shape.Fits padded)
    (hsize : values.size = shape.volume) (hp : ¬ shape.Covers padded width p) :
    (pack values shape padded width).bit p = false := by
  have hout : ∀ i ∈ List.range shape.volume,
      p < shape.position padded i * width ∨ shape.position padded i * width + width ≤ p := by
    intro i hi
    by_contra hin
    exact hp ⟨i, List.mem_range.1 hi, by omega, by omega⟩
  rw [pack, hsize]
  refine (Bytes.bit_writeFields_outside _ width (fun i => shape.position padded i * width)
    (fun i => values.getD i 0) _
      (fun k _ => Shape.slot_fits_replicate hpos hfits width k) hout).trans ?_
  exact Bytes.bit_replicate_zero _ _

/-- **Packing undoes unpacking** on a buffer that is zero outside of the
slots. -/
theorem pack_unpack (t : ElementType) (hpos : shape.Positive) (hfits : shape.Fits padded)
    {buffer : Bytes} (hsize : buffer.size = packedLength padded.volume t.width)
    (hzero : ∀ p < 8 * buffer.size, ¬ shape.Covers padded t.width p → buffer.bit p = false) :
    pack (unpack buffer shape padded t.width t.signed) shape padded t.width = buffer := by
  have hcount := size_unpack buffer shape padded t.width t.signed
  refine Bytes.ext_bit (by rw [size_pack, hsize]) fun p => ?_
  by_cases hp : shape.Covers padded t.width p
  · obtain ⟨i, hi, hl, hh⟩ := hp
    have hfield := Bytes.fieldAt_lt buffer (shape.position padded i * t.width) t.width
    rw [bit_pack_inside hpos hfits hcount hi hl hh, getD_unpack _ _ _ _ hi, Bytes.readField,
      Bytes.fieldBits_fieldValue t hfield, Bytes.testBit_fieldAt, decide_eq_true (by omega),
        Bool.true_and,
      Nat.add_sub_cancel' hl]
  · rw [bit_pack_outside hpos hfits hcount hp]
    by_cases hend : p < 8 * buffer.size
    · exact (hzero p hend hp).symm
    · exact (Bytes.bit_of_size_le (by omega)).symm

/-- **Packing and unpacking are inverse**, for every element type and every
padded shape with room for the logical one. Packed bytes have the length of the
padded shape, unpack to the values reduced to the element type, hence to the
values themselves where the type contains them, and are zero outside of the
slots. Each buffer of that length that is zero outside of the slots is the
packing of what it unpacks to. -/
theorem pack_roundTrip (t : ElementType) (hpos : shape.Positive) (hfits : shape.Fits padded) :
    (∀ values : Array Int, values.size = shape.volume →
      (pack values shape padded t.width).size = packedLength padded.volume t.width ∧
      unpack (pack values shape padded t.width) shape padded t.width t.signed =
        values.map t.reduce ∧
      ((∀ x ∈ values, t.Contains x) →
        unpack (pack values shape padded t.width) shape padded t.width t.signed = values) ∧
      ∀ p, ¬ shape.Covers padded t.width p → (pack values shape padded t.width).bit p = false) ∧
    ∀ buffer : Bytes, buffer.size = packedLength padded.volume t.width →
      (∀ p < 8 * buffer.size, ¬ shape.Covers padded t.width p → buffer.bit p = false) →
      pack (unpack buffer shape padded t.width t.signed) shape padded t.width = buffer := by
  refine ⟨fun values hsize => ?_, fun buffer hsize hzero => pack_unpack t hpos hfits hsize hzero⟩
  have hreduced := unpack_pack (t := t) hfits hpos hsize
  refine ⟨size_pack _ _ _ _, hreduced, fun hcontains => ?_, fun p hp => ?_⟩
  · rw [hreduced, ElementType.map_reduce_of_contains hcontains]
  · exact bit_pack_outside hpos hfits hsize hp

/-- Six elements of five bits in rows of four, most of them across bytes: 100 is
not an element, and two slots of the padded shape stay zero. -/
theorem pack_roundTrip_straddling :
    unpack (pack #[7, -3, 100, 0, -16, 15] [2, 3] [2, 4] 5) [2, 3] [2, 4] 5 true =
      #[7, -3, 4, 0, -16, 15] ∧
    unpack (pack #[7, -3, 4, 0, -16, 15] [2, 3] [2, 4] 5) [2, 3] [2, 4] 5 true =
      #[7, -3, 4, 0, -16, 15] ∧
    pack (unpack #[0xa7, 0x13, 0x00, 0xa0, 0x07] [2, 3] [2, 4] 5 true) [2, 3] [2, 4] 5 =
      #[0xa7, 0x13, 0x00, 0xa0, 0x07] := by
  have hpos : Shape.Positive [2, 3] := by simp [Shape.Positive]
  have hfits : Shape.Fits [2, 3] [2, 4] := .cons le_rfl (.cons (by decide) .nil)
  obtain ⟨hvalues, hbuffer⟩ := pack_roundTrip ⟨5, true, by decide, by decide⟩ hpos hfits
  obtain ⟨-, hreduced, -, -⟩ := hvalues #[7, -3, 100, 0, -16, 15] rfl
  obtain ⟨-, -, hsame, -⟩ := hvalues #[7, -3, 4, 0, -16, 15] rfl
  exact ⟨hreduced.trans (by cbv), hsame (by decide), hbuffer _ rfl (by decide)⟩

end QuantAccel
