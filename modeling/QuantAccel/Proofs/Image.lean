import QuantAccel.Memory.Image
import QuantAccel.Proofs.Packing

/-!
# Stores to the memory image

A store succeeds exactly when its range lies in the image and meets no protected
range (`Writable`), and it changes bytes of its range only (`ChangesOnly`). What
a tensor reads as depends on the bytes of its own range, so a store next to a
tensor does not disturb it; a store of the tensor itself, whole or element by
element, reads back as the values that were stored.
-/

namespace QuantAccel

namespace Image

variable {image image' image'' : Image} {address length base : Nat}

/-! ## When a store succeeds -/

/-- A range that lies in the image and meets no protected range. -/
structure Writable (image : Image) (address length : Nat) : Prop where
  inBounds : address + length ≤ image.size
  unprotected : ∀ p ∈ image.protections, p.stop ≤ address ∨ address + length ≤ p.start

/-- Part of a range that can be written can be written. -/
theorem Writable.mono (h : image.Writable address length) {address' length' : Nat}
    (hl : address ≤ address') (hh : address' + length' ≤ address + length) :
    image.Writable address' length' where
  inBounds := le_trans hh h.inBounds
  unprotected p hp := (h.unprotected p hp).imp (le_trans · hl) (le_trans hh ·)

/-- A store has no fault exactly where the image is writable. -/
theorem storeFault?_eq_none : image.storeFault? address length = none ↔
    image.Writable address length := by
  unfold storeFault? boundsFault? protectionAt?
  by_cases hin : address + length ≤ image.size
  · simp only [hin, if_true, Option.map_eq_none_iff, List.find?_eq_none, Bool.and_eq_true,
      decide_eq_true_eq, not_and_or, not_lt]
    exact ⟨fun h => ⟨hin, h⟩, fun h => h.unprotected⟩
  · simp only [hin, if_false, reduceCtorEq, false_iff]
    exact fun h => hin h.inBounds

/-- A store to a writable range is made. -/
theorem attempt_of_writable (h : image.Writable address length) (change : Bytes → Bytes) :
    image.attempt address length change = (none, { image with bytes := change image.bytes }) := by
  rw [attempt, storeFault?_eq_none.2 h]

/-- A store to any other range changes nothing. -/
theorem attempt_of_not_writable (h : ¬image.Writable address length) (change : Bytes → Bytes) :
    ∃ fault, image.attempt address length change = (some fault, image) := by
  rw [← storeFault?_eq_none] at h
  obtain ⟨fault, hfault⟩ := Option.ne_none_iff_exists'.1 h
  exact ⟨fault, by rw [attempt, hfault]⟩

/-- **A store succeeds exactly on a writable range**, and then changes the bytes
as asked. -/
theorem storing_eq_ok {change : Bytes → Bytes} :
    image.storing address length change = .ok image' ↔
      image.Writable address length ∧ image' = { image with bytes := change image.bytes } := by
  rw [← storeFault?_eq_none, storing, attempt]
  cases image.storeFault? address length <;> simp [eq_comm]

theorem storing_of_writable (h : image.Writable address length) (change : Bytes → Bytes) :
    image.storing address length change = .ok { image with bytes := change image.bytes } :=
  storing_eq_ok.2 ⟨h, rfl⟩

/-! ## What a store leaves alone -/

/-- The second image has the size and the protections of the first, and differs
from it within a set of addresses only. -/
structure ChangesOnly (touched : Set Nat) (image image' : Image) : Prop where
  size : image'.size = image.size
  protections : image'.protections = image.protections
  bytes : ∀ i ∉ touched, image'.bytes.getD i 0 = image.bytes.getD i 0

namespace ChangesOnly

variable {touched touched' : Set Nat}

theorem refl (touched : Set Nat) (image : Image) : ChangesOnly touched image image :=
  ⟨rfl, rfl, fun _ _ => rfl⟩

/-- Changes of the same bytes compose. -/
theorem trans (h : ChangesOnly touched image image') (h' : ChangesOnly touched image' image'') :
    ChangesOnly touched image image'' where
  size := h'.size.trans h.size
  protections := h'.protections.trans h.protections
  bytes i hi := (h'.bytes i hi).trans (h.bytes i hi)

/-- What changes only some bytes changes only more of them. -/
theorem mono (h : ChangesOnly touched image image') (hsub : touched ⊆ touched') :
    ChangesOnly touched' image image' where
  size := h.size
  protections := h.protections
  bytes i hi := h.bytes i fun hmem => hi (hsub hmem)

/-- What can be written does not change. -/
theorem writable_iff (h : ChangesOnly touched image image') :
    image'.Writable address length ↔ image.Writable address length := by
  constructor
  · exact fun hw => ⟨h.size ▸ hw.inBounds, h.protections ▸ hw.unprotected⟩
  · exact fun hw => ⟨h.size.symm ▸ hw.inBounds, h.protections.symm ▸ hw.unprotected⟩

end ChangesOnly

/-- A splice changes the range of its data only. -/
theorem changesOnly_splice (image : Image) (data : List UInt8)
    (h : base + data.length ≤ image.size) :
    ChangesOnly (Set.Ico base (base + data.length)) image
      { image with bytes := image.bytes.splice base data } where
  size := Bytes.size_splice _ _ _
  protections := rfl
  bytes i hi := Bytes.getD_splice_outside _ _ h (by rw [Set.mem_Ico] at hi; omega)

/-- A field inside of a range changes this range only. -/
theorem changesOnly_writeField (image : Image) {offset width : Nat} (value : Int)
    (h : base + length ≤ image.size) (hstart : 8 * base ≤ offset)
    (hstop : offset + width ≤ 8 * (base + length)) :
    ChangesOnly (Set.Ico base (base + length)) image
      { image with bytes := image.bytes.writeField offset width value } where
  size := Bytes.size_writeField _ _ _ _
  protections := rfl
  bytes i hi := by
    have hsize : image.size = image.bytes.size := rfl
    rw [Set.mem_Ico] at hi
    -- a byte outside of the range has no bit of the field
    refine (Bytes.getD_eq_iff_bit _ _ _ _).2 fun k hk => ?_
    exact Bytes.bit_writeField_outside _ _ (by omega) (by omega)

/-! ## Reading -/

/-- Two images with the same bytes in a range have the same contents there. -/
theorem extract_congr (b b' : Bytes) (start start' : Nat)
    (hb : start + length ≤ b.size) (hb' : start' + length ≤ b'.size)
    (h : ∀ i < length, b.getD (start + i) 0 = b'.getD (start' + i) 0) :
    b.extract start (start + length) = b'.extract start' (start' + length) := by
  refine Array.ext (by simp; omega) fun i hi hi' => ?_
  have hlt : i < length := by simp at hi; omega
  have hbyte := h i hlt
  rw [Array.getElem_extract, Array.getElem_extract]
  simpa [Array.getD_eq_getD_getElem?, (by omega : start + i < b.size),
    (by omega : start' + i < b'.size)] using hbyte

/-- A range inside the image is read. -/
theorem read_eq_ok (h : base + length ≤ image.size) :
    image.read base length = .ok (image.bytes.extract base (base + length)) := by
  rw [read, boundsFault?, if_pos h]

/-- What is read depends on the bytes of the range only. -/
theorem read_congr (hsize : image'.size = image.size)
    (h : ∀ i < length, image'.bytes.getD (base + i) 0 = image.bytes.getD (base + i) 0) :
    image'.read base length = image.read base length := by
  unfold read boundsFault?
  by_cases hin : base + length ≤ image.size
  · rw [hsize, if_pos hin]
    exact congrArg _ (extract_congr _ _ _ _ (le_of_le_of_eq hin hsize.symm) hin h)
  · rw [hsize, if_neg hin]

/-- **A tensor reads the bytes of its own range.** -/
theorem readTensor_congr {t : Tensor} (hsize : image'.size = image.size)
    (h : ∀ i < t.memorySize, image'.bytes.getD (base + i) 0 = image.bytes.getD (base + i) 0) :
    image'.readTensor base t = image.readTensor base t := by
  rw [readTensor, readTensor, read_congr hsize h]

/-- A change outside the range of a tensor does not disturb it. -/
theorem ChangesOnly.readTensor_eq {touched : Set Nat} {t : Tensor}
    (h : ChangesOnly touched image image')
    (hout : ∀ i ∈ touched, i < base ∨ base + t.memorySize ≤ i) :
    image'.readTensor base t = image.readTensor base t := by
  refine readTensor_congr h.size fun i hi => h.bytes _ fun hmem => ?_
  have := hout _ hmem
  omega

end Image

/-! ## Tensors with a layout -/

namespace Tensor

/-- The shape that a tensor takes in memory. -/
def padded (t : Tensor) : Shape :=
  (t.layout.map (·.shape)).getD t.shape

/-- A tensor that has a layout, with room for each of its elements. -/
structure Laid (t : Tensor) : Prop where
  layout : t.layout.isSome
  positive : t.shape.Positive
  fits : t.shape.Fits t.padded

variable {t : Tensor}

theorem memorySize_eq (t : Tensor) :
    t.memorySize = packedLength t.padded.volume t.element.width := by
  unfold memorySize packedLength padded
  cases t.layout <;> rfl

/-- The bit at which an element begins, counted from the base of its tensor. -/
def slot (t : Tensor) (i : Nat) : Nat :=
  t.shape.position t.padded i * t.element.width

namespace Laid

theorem exists_layout (h : t.Laid) :
    ∃ layout, t.layout = some layout ∧ layout.shape = t.padded := by
  obtain ⟨layout, hl⟩ := Option.isSome_iff_exists.1 h.layout
  exact ⟨layout, hl, by simp [padded, hl]⟩

theorem slot_fits (h : t.Laid) (i : Nat) : t.slot i + t.element.width ≤ 8 * t.memorySize := by
  rw [memorySize_eq]
  exact QuantAccel.slot_fits _ (Shape.position_lt h.fits h.positive i)

/-- Slots of different elements do not overlap. -/
theorem slot_disjoint (h : t.Laid) {i j : Nat} (hi : i < t.volume) (hj : j < t.volume)
    (hne : i ≠ j) :
    t.slot i + t.element.width ≤ t.slot j ∨ t.slot j + t.element.width ≤ t.slot i :=
  QuantAccel.slot_disjoint _ fun heq => hne (Shape.position_injective h.fits h.positive hi hj heq)

theorem memorySize_pos (h : t.Laid) : 0 < t.memorySize := by
  have := h.slot_fits 0
  have := t.element.width_pos
  omega

end Laid

end Tensor

namespace Image

variable {image image' : Image} {base : Nat} {t : Tensor}

/-- The element that the image holds for a tensor stored from `base` on. -/
def elementAt (image : Image) (base : Nat) (t : Tensor) (i : Nat) : Int :=
  image.bytes.readField (8 * base + t.slot i) t.element.width t.element.signed

/-- The bits of a range of bytes, read in place or on their own. -/
theorem bit_extract (b : Bytes) {start length p : Nat} (h : start + length ≤ b.size)
    (hp : p < 8 * length) :
    Bytes.bit (b.extract start (start + length)) p = b.bit (8 * start + p) := by
  have hbyte : (b.extract start (start + length)).getD (p / 8) 0 = b.getD (start + p / 8) 0 := by
    simp only [Array.getD_eq_getD_getElem?]
    rw [Array.getElem?_extract, if_pos (by omega)]
  rw [Bytes.bit, Bytes.bit, hbyte, show (8 * start + p) / 8 = start + p / 8 by omega,
    show (8 * start + p) % 8 = p % 8 by omega]

/-- **A tensor reads as its elements.** -/
theorem readTensor_eq_elements (ht : t.Laid) (h : base + t.memorySize ≤ image.size) :
    image.readTensor base t =
      .ok (Array.ofFn fun i : Fin t.volume => image.elementAt base t i) := by
  obtain ⟨layout, hl, hshape⟩ := ht.exists_layout
  rw [readTensor, read_eq_ok h]
  simp only [layoutOf, hl, hshape, bind, Except.bind, pure, Except.pure]
  congr 1
  refine Array.ext (by simp [size_unpack, Tensor.volume]) fun i hi hi' => ?_
  have hlt : i < t.volume := by simpa using hi'
  have hfield := getD_unpack (image.bytes.extract base (base + t.memorySize)) t.padded
    t.element.width t.element.signed hlt
  have hcongr : Bytes.readField (image.bytes.extract base (base + t.memorySize))
      (t.shape.position t.padded i * t.element.width) t.element.width t.element.signed =
      image.elementAt base t i := by
    refine Bytes.readField_congr _ fun k hk => ?_
    have := ht.slot_fits i
    rw [← Tensor.slot, bit_extract _ h (by omega), Nat.add_assoc]
  rw [hcongr] at hfield
  simpa [Array.getD_eq_getD_getElem?, hi] using hfield

/-- The range of a tensor holds some bytes. -/
def Holds (image : Image) (base : Nat) (data : Bytes) : Prop :=
  ∀ i < data.size, image.bytes.getD (base + i) 0 = data.getD i 0

/-- Data is read back where the image holds it. -/
theorem read_eq_ok_iff {data : Bytes} :
    image.read base data.size = .ok data ↔
      base + data.size ≤ image.size ∧ image.Holds base data := by
  by_cases hin : base + data.size ≤ image.size
  · rw [read_eq_ok hin, Except.ok.injEq, and_iff_right hin]
    constructor
    · intro hdata i hi
      rw [← hdata]
      have hlt : i < min (base + data.size) image.bytes.size - base := by
        unfold size at hin
        omega
      simp only [Array.getD_eq_getD_getElem?, Array.getElem?_extract, if_pos hlt]
    · intro hholds
      have hextract := extract_congr image.bytes data base 0 hin (le_of_eq (Nat.zero_add _))
        fun i hi => by rw [Nat.zero_add]; exact hholds i hi
      rw [hextract, Nat.zero_add, Array.extract_size]
  · refine iff_of_false (fun hread => ?_) fun h => hin h.1
    rw [read, boundsFault?, if_neg hin] at hread
    cases hread

/-- **A tensor whose range holds packed values reads as these values**, reduced
to the element type. -/
theorem readTensor_of_holds (ht : t.Laid) (h : base + t.memorySize ≤ image.size)
    {values : Array Int} (hsize : values.size = t.volume)
    (hholds : image.Holds base (pack values t.shape t.padded t.element.width)) :
    image.readTensor base t = .ok (values.map t.element.reduce) := by
  obtain ⟨layout, hl, hshape⟩ := ht.exists_layout
  have hlen : (pack values t.shape t.padded t.element.width).size = t.memorySize := by
    rw [size_pack, t.memorySize_eq]
  have hread : image.read base t.memorySize =
      .ok (pack values t.shape t.padded t.element.width) := by
    rw [← hlen] at h ⊢
    exact read_eq_ok_iff.2 ⟨h, hholds⟩
  rw [readTensor, hread]
  simp only [layoutOf, hl, hshape, bind, Except.bind, pure, Except.pure]
  rw [unpack_pack ht.fits ht.positive hsize]

/-! ## Storing whole tensors -/

/-- **When data is written, and what the image is then.** -/
theorem write_eq_ok {data : Bytes} :
    image.write base data = .ok image' ↔
      image.Writable base data.size ∧
        image' = { image with bytes := image.bytes.splice base data.toList } :=
  storing_eq_ok

/-- The image after a write holds the data, and changed nowhere else. -/
theorem holds_of_write {data : Bytes} (h : image.write base data = .ok image') :
    image'.Holds base data ∧ ChangesOnly (Set.Ico base (base + data.size)) image image' := by
  obtain ⟨hw, rfl⟩ := write_eq_ok.1 h
  have hfit : base + data.toList.length ≤ image.size := by simpa using hw.inBounds
  refine ⟨fun i hi => ?_, by simpa using changesOnly_splice image data.toList hfit⟩
  rw [Bytes.getD_splice_inside _ _ hfit (by simpa using hi)]
  simp [Array.getD_eq_getD_getElem?, hi]

/-- A change elsewhere does not disturb data in the image. -/
theorem Holds.of_changesOnly {data : Bytes} {touched : Set Nat} (h : image.Holds base data)
    (hc : ChangesOnly touched image image')
    (hout : ∀ i ∈ touched, i < base ∨ base + data.size ≤ i) : image'.Holds base data := by
  intro i hi
  rw [hc.bytes _ fun hmem => ?_, h i hi]
  have := hout _ hmem
  omega

/-- **When a tensor is loaded, and what the image is then.** -/
theorem loadTensor_eq_ok (ht : t.Laid) {values : Array Int} :
    image.loadTensor base t values = .ok image' ↔
      values.size = t.volume ∧
        image.write base (pack values t.shape t.padded t.element.width) = .ok image' := by
  obtain ⟨layout, hl, hshape⟩ := ht.exists_layout
  unfold loadTensor
  by_cases hsize : values.size = t.volume
  · simp [hsize, layoutOf, hl, hshape, bind, Except.bind]
  · simp [hsize, throw, throwThe, MonadExceptOf.throw, bind, Except.bind]

/-- A packed tensor has its memory size. -/
theorem size_pack_tensor (t : Tensor) (values : Array Int) :
    (pack values t.shape t.padded t.element.width).size = t.memorySize := by
  rw [size_pack, t.memorySize_eq]

/-- A tensor that fits a writable range can be loaded there. -/
theorem exists_loadTensor (ht : t.Laid) {values : Array Int} (hsize : values.size = t.volume)
    (hw : image.Writable base t.memorySize) :
    ∃ image', image.loadTensor base t values = .ok image' :=
  ⟨_, (loadTensor_eq_ok ht).2 ⟨hsize, write_eq_ok.2 ⟨by rwa [size_pack_tensor], rfl⟩⟩⟩

/-- The range of a tensor holds some values, one for each element. -/
structure Carries (image : Image) (base : Nat) (t : Tensor) (values : Array Int) : Prop where
  count : values.size = t.volume
  holds : image.Holds base (pack values t.shape t.padded t.element.width)

namespace Carries

variable {values : Array Int} (h : image.Carries base t values)
include h

/-- A tensor that the image carries is read with its values reduced to the
element type. -/
theorem readTensor_eq (ht : t.Laid) (hin : base + t.memorySize ≤ image.size) :
    image.readTensor base t = .ok (values.map t.element.reduce) :=
  readTensor_of_holds ht hin h.count h.holds

/-- A tensor is still carried after changes outside of its bytes. -/
theorem of_changesOnly {touched : Set Nat} (hc : ChangesOnly touched image image')
    (hout : ∀ i ∈ touched, i < base ∨ base + t.memorySize ≤ i) : image'.Carries base t values :=
  ⟨h.count, h.holds.of_changesOnly hc (by rwa [size_pack_tensor])⟩

end Carries

/-- **A tensor that was loaded is there**, and nothing else changes. -/
theorem loadTensor_spec (ht : t.Laid) {values : Array Int}
    (h : image.loadTensor base t values = .ok image') :
    image'.Carries base t values ∧
      ChangesOnly (Set.Ico base (base + t.memorySize)) image image' := by
  obtain ⟨hsize, hwrite⟩ := (loadTensor_eq_ok ht).1 h
  obtain ⟨hholds, hchange⟩ := holds_of_write hwrite
  rw [size_pack_tensor] at hchange
  exact ⟨⟨hsize, hholds⟩, hchange⟩

/-! ## Words -/

/-- The four bytes of a word, put together again. -/
theorem word_of_bytes (word : UInt32) :
    (word.toUInt8.toUInt32 ||| (word >>> 8).toUInt8.toUInt32 <<< 8 |||
      (word >>> 16).toUInt8.toUInt32 <<< 16 ||| (word >>> 24).toUInt8.toUInt32 <<< 24) = word := by
  apply UInt32.toBitVec_inj.1
  apply BitVec.eq_of_getLsbD_eq
  intro i hi
  have h₈ : ((8 : UInt32).toBitVec % 32).toNat = 8 := rfl
  have h₁₆ : ((16 : UInt32).toBitVec % 32).toNat = 16 := rfl
  have h₂₄ : ((24 : UInt32).toBitVec % 32).toNat = 24 := rfl
  simp only [UInt32.toBitVec_or, UInt32.toBitVec_shiftLeft, UInt8.toBitVec_toUInt32,
    UInt32.toBitVec_toUInt8, UInt32.toBitVec_shiftRight, BitVec.getLsbD_or, BitVec.getLsbD_setWidth,
    BitVec.shiftLeft_eq', BitVec.ushiftRight_eq', BitVec.getLsbD_shiftLeft,
    BitVec.getLsbD_ushiftRight, h₈, h₁₆, h₂₄]
  -- each bit comes from one of the four bytes
  rcases (by omega : i < 8 ∨ (8 ≤ i ∧ i < 16) ∨ (16 ≤ i ∧ i < 24) ∨ 24 ≤ i) with h | h | h | h <;>
    grind

/-- A word in the image is its four bytes. -/
theorem wordAt_of_bytes {b : Bytes} {word : UInt32}
    (h : ∀ i < 4, b.getD (base + i) 0 = (Bytes.ofWord word).getD i 0) : b.wordAt base = word := by
  have h₀ := h 0 (by decide)
  have h₁ := h 1 (by decide)
  have h₂ := h 2 (by decide)
  have h₃ := h 3 (by decide)
  simp only [Bytes.ofWord, List.getD_cons_zero, List.getD_cons_succ] at h₀ h₁ h₂ h₃
  simp only [Bytes.wordAt, h₀, h₁, h₂, h₃, word_of_bytes]

/-- **A word that was stored reads back.** -/
theorem wordAt_splice {b : Bytes} (word : UInt32) (h : base + 4 ≤ b.size) :
    (b.splice base (Bytes.ofWord word)).wordAt base = word :=
  wordAt_of_bytes fun _ hi => Bytes.getD_splice_inside _ _ h hi

/-- A word is read from its four bytes alone. -/
theorem wordAt_congr {b b' : Bytes} (h : ∀ i < 4, b'.getD (base + i) 0 = b.getD (base + i) 0) :
    b'.wordAt base = b.wordAt base := by
  simp only [Bytes.wordAt, h 0 (by decide), h 1 (by decide), h 2 (by decide), h 3 (by decide)]

/-- A word inside the image is read. -/
theorem readWord_eq (h : base + 4 ≤ image.size) :
    image.readWord base = .ok (image.bytes.wordAt base) := by
  rw [readWord, boundsFault?, if_pos h]

/-! ## Storing elements -/

/-- The span of an element of a tensor with a layout. -/
theorem elementSpan_of_layout (ht : t.layout.isSome) (base i : Nat) :
    elementSpan base t i = .ok { address := base + t.slot i / 8
                                 length := (t.slot i % 8 + t.element.width + 7) / 8
                                 bit := 8 * base + t.slot i } := by
  obtain ⟨layout, hl⟩ := Option.isSome_iff_exists.1 ht
  simp [elementSpan, layoutOf, hl, Tensor.slot, Tensor.padded, bind, Except.bind, pure, Except.pure]

/-- A field of a tensor lies in the bytes of its span. -/
theorem elementSpan_eq (ht : t.Laid) (base i : Nat) :
    elementSpan base t i = .ok { address := base + t.slot i / 8
                                 length := (t.slot i % 8 + t.element.width + 7) / 8
                                 bit := 8 * base + t.slot i } :=
  elementSpan_of_layout ht.layout base i

/-- The span of an element of a tensor can be written when the tensor can. -/
theorem Writable.span (h : image.Writable base t.memorySize) (ht : t.Laid) (i : Nat) :
    image.Writable (base + t.slot i / 8) ((t.slot i % 8 + t.element.width + 7) / 8) := by
  have := ht.slot_fits i
  exact h.mono (by omega) (by omega)

section Elements

variable (image : Image) (base : Nat) (t : Tensor) (value : Nat → Int) (is : List Nat)

/-- The image with some elements of a tensor stored. -/
def withElements : Image :=
  { image with
    bytes := image.bytes.writeFields t.element.width (fun i => 8 * base + t.slot i) value is }

variable {image base t}

/-- The slots of a tensor inside the image are inside the image. -/
theorem fits_of_inBounds (ht : t.Laid) (h : base + t.memorySize ≤ image.size) (i : Nat) :
    8 * base + t.slot i + t.element.width ≤ 8 * image.bytes.size := by
  have := ht.slot_fits i
  have : image.size = image.bytes.size := rfl
  omega

/-- Storing elements changes the range of the tensor only. -/
theorem changesOnly_withElements (ht : t.Laid) (h : base + t.memorySize ≤ image.size) :
    ChangesOnly (Set.Ico base (base + t.memorySize)) image
      (image.withElements base t value is) where
  size := Bytes.size_writeFields _ _ _ _ _
  protections := rfl
  bytes i hi := by
    rw [Set.mem_Ico] at hi
    refine (Bytes.getD_eq_iff_bit _ _ _ _).2 fun k hk => ?_
    refine Bytes.bit_writeFields_outside _ _ _ _ _ (fun j _ => fits_of_inBounds ht h j) fun j _ =>
      ?_
    have := ht.slot_fits j
    omega

/-- **Elements that were stored read back**, reduced to the element type; the
others are as before. -/
theorem elementAt_withElements (ht : t.Laid) (h : base + t.memorySize ≤ image.size) {j : Nat}
    (hj : j < t.volume) (his : ∀ i ∈ is, i < t.volume) :
    (image.withElements base t value is).elementAt base t j =
      if j ∈ is then t.element.reduce (value j) else image.elementAt base t j := by
  have hfield := Bytes.fieldAt_writeFields image.bytes t.element.width
    (fun i => 8 * base + t.slot i)
    value is j (fun i _ => fits_of_inBounds ht h i) fun i hi hne => by
      have := ht.slot_disjoint (his i hi) hj hne
      omega
  unfold elementAt withElements Bytes.readField
  rw [hfield]
  split
  · rw [Bytes.fieldValue_fieldBits]
  · rfl

end Elements

end Image

end QuantAccel
