import QuantAccel.Proofs.Image
import QuantAccel.Proofs.Outcome

/-!
# Tensors stored element by element

A tensor can be stored packed, all of it at once, or cleared first and then
stored one element after the other. The fields of its elements lie apart, so it
does not matter in which order they are written, and a bit of the image is a bit
of the one element whose field it lies in, or of the padding. Both ways
therefore leave the same image (`writeElements_eq_loadTensor`).
-/

namespace QuantAccel

namespace Bytes

variable {b b' : Bytes} {width shift p j : Nat} {place : Nat → Nat} {value : Nat → Int}
    {is is' : List Nat}

/-- The fields of different indices of a list lie apart. -/
def FieldsApart (width : Nat) (place : Nat → Nat) (is : List Nat) : Prop :=
  ∀ i ∈ is, ∀ j ∈ is, i ≠ j → place i + width ≤ place j ∨ place j + width ≤ place i

/-- A bit in the field of an index that was written is a bit of the value of
that index. -/
theorem bit_writeFields_inside (hfit : ∀ i ∈ is, place i + width ≤ 8 * b.size)
    (hapart : FieldsApart width place is) (hj : j ∈ is) (hl : place j ≤ p)
    (hh : p < place j + width) :
    (b.writeFields width place value is).bit p = (fieldBits width (value j)).testBit
      (p - place j) := by
  have hfield := fieldAt_writeFields b width place value is j hfit fun i hi hne =>
    hapart i hi j hj hne
  have hbit := testBit_fieldAt (b.writeFields width place value is) (place j) width (p - place j)
  rw [hfield, if_pos hj, decide_eq_true (by omega), Bool.true_and, Nat.add_sub_cancel' hl] at hbit
  exact hbit.symm

/-- **The order of the fields does not matter**, nor where the buffer begins:
two lists of the same indices, written with a shift between them, leave bits
that differ only where the buffers did. -/
theorem bit_writeFields_congr (hmem : ∀ i, i ∈ is ↔ i ∈ is') (hapart : FieldsApart width place is')
    (hfit : ∀ i ∈ is, shift + place i + width ≤ 8 * b.size)
    (hfit' : ∀ i ∈ is', place i + width ≤ 8 * b'.size) (hbit : b.bit (shift + p) = b'.bit p) :
    (b.writeFields width (fun i => shift + place i) value is).bit (shift + p) =
      (b'.writeFields width place value is').bit p := by
  by_cases hin : ∃ j ∈ is', place j ≤ p ∧ p < place j + width
  · obtain ⟨j, hj, hl, hh⟩ := hin
    have hshifted : FieldsApart width (fun i => shift + place i) is := by
      intro i hi k hk hne
      have := hapart i ((hmem i).1 hi) k ((hmem k).1 hk) hne
      dsimp only
      omega
    rw [bit_writeFields_inside hfit hshifted ((hmem j).2 hj) (by omega) (by omega),
      bit_writeFields_inside hfit' hapart hj hl hh, Nat.add_sub_add_left]
  · -- no field covers the bit, on either side
    have hout : ∀ i ∈ is', p < place i ∨ place i + width ≤ p := by
      intro i hi
      by_contra hcover
      exact hin ⟨i, hi, by omega, by omega⟩
    rw [bit_writeFields_outside _ _ _ _ _ hfit', hbit.symm, bit_writeFields_outside _ _ _ _ _ hfit]
    · intro i hi
      have := hout i ((hmem i).1 hi)
      omega
    · exact hout

/-- The bits after a splice: those of the data where it lies, and the old ones
elsewhere. -/
theorem bit_splice (b data : Bytes) {start : Nat} (hfit : start + data.size ≤ b.size) (p : Nat) :
    (b.splice start data.toList).bit p =
      if 8 * start ≤ p ∧ p < 8 * (start + data.size) then data.bit (p - 8 * start)
      else b.bit p := by
  have hbyte := getD_splice b start data.toList (p / 8) (by simpa using hfit)
  rw [Array.length_toList] at hbyte
  rw [bit, hbyte]
  by_cases hin : 8 * start ≤ p ∧ p < 8 * (start + data.size)
  · rw [if_pos (by omega), if_pos hin, bit, show (p - 8 * start) / 8 = p / 8 - start by omega,
      show (p - 8 * start) % 8 = p % 8 by omega]
    simp [Array.getD_eq_getD_getElem?, List.getD_eq_getElem?_getD]
  · rw [if_neg (by omega), if_neg hin, bit]

theorem bit_replicate_zero (n p : Nat) : Bytes.bit (Array.replicate n 0) p = false := by
  have hbyte : (Array.replicate n (0 : UInt8)).getD (p / 8) 0 = 0 := by
    simp [Array.getD_eq_getD_getElem?, Array.getElem?_replicate]
    split <;> rfl
  rw [bit, hbyte]
  exact Nat.zero_testBit _

end Bytes

/-- The slots of logical elements lie apart. -/
theorem Shape.fieldsApart {shape padded : Shape} (hpos : shape.Positive) (hfits : shape.Fits padded)
    (width : Nat) :
    Bytes.FieldsApart width (fun i => shape.position padded i * width)
      (List.range shape.volume) := by
  intro i hi j hj hne
  refine slot_disjoint width fun heq => hne ?_
  exact Shape.position_injective hfits hpos (List.mem_range.1 hi) (List.mem_range.1 hj) heq

namespace Tensor

variable {t : Tensor}

theorem Laid.fieldsApart (h : t.Laid) :
    Bytes.FieldsApart t.element.width t.slot (List.range t.volume) :=
  Shape.fieldsApart h.positive h.fits t.element.width

/-- A tensor with an element has no dimension of zero. -/
theorem positive_of_volume_pos {shape : Shape} (h : 0 < shape.volume) : shape.Positive := by
  induction shape with
  | nil => exact fun d hd => absurd hd List.not_mem_nil
  | cons d ds ih =>
    rw [Shape.volume] at h
    intro e he
    rcases List.mem_cons.1 he with rfl | he
    · exact Nat.pos_of_mul_pos_right h
    · exact ih (Nat.pos_of_mul_pos_left h) e he

end Tensor

namespace Image

variable {image image' : Image} {base : Nat} {t : Tensor} {values : Array Int} {indices : List Nat}

/-! ## Storing in any order -/

/-- The image with a tensor cleared and its elements stored one after the other,
in some order. -/
def writeElements (image : Image) (base : Nat) (t : Tensor) (values : Array Int)
    (indices : List Nat) :
    Except SimulationError Image := do
  let cleared ← image.fill base t.memorySize 0
  indices.foldlM (fun (image : Image) i => image.writeElement base t i (values.getD i 0)) cleared

/-- One element is stored. -/
theorem writeElement_eq (ht : t.Laid) (hw : image.Writable base t.memorySize) (i : Nat)
    (value : Nat → Int) :
    image.writeElement base t i (value i) = .ok (image.withElements base t value [i]) := by
  rw [writeElement, elementSpan_eq ht]
  exact storing_of_writable (hw.span ht i) _

/-- Elements are stored one after the other. -/
theorem foldlM_writeElement (ht : t.Laid) (hw : image.Writable base t.memorySize)
    (value : Nat → Int) (indices : List Nat) :
    indices.foldlM (fun image i => image.writeElement base t i (value i)) image =
      .ok (image.withElements base t value indices) := by
  induction indices generalizing image with
  | nil => rfl
  | cons i indices ih =>
    have hc := changesOnly_withElements value [i] ht hw.inBounds
    rw [List.foldlM_cons, writeElement_eq ht hw]
    refine (ih (hc.writable_iff.2 hw)).trans ?_
    simp [withElements, Bytes.writeFields]

theorem fill_eq_ok (hw : image.Writable base t.memorySize) :
    image.fill base t.memorySize 0 =
      .ok { image with
        bytes := image.bytes.splice base (Array.replicate t.memorySize 0).toList } := by
  rw [fill, storing_of_writable hw, Array.toList_replicate]

/-- **Elements over zeros are the packed tensor**, in whatever order they are
written. -/
theorem writeFields_cleared_eq_pack (ht : t.Laid) (hin : base + t.memorySize ≤ image.size)
    (hvalues : values.size = t.volume) (hindices : indices.Perm (List.range t.volume)) :
    (image.bytes.splice base (Array.replicate t.memorySize 0).toList).writeFields t.element.width
        (fun i => 8 * base + t.slot i) (fun i => values.getD i 0) indices =
      image.bytes.splice base (pack values t.shape t.padded t.element.width).toList := by
  have hsize : (pack values t.shape t.padded t.element.width).size = t.memorySize :=
    size_pack_tensor t values
  have hzero : base + (Array.replicate t.memorySize (0 : UInt8)).size ≤ image.bytes.size := by
    rw [Array.size_replicate]
    exact hin
  have hpacked : base + (pack values t.shape t.padded t.element.width).size ≤ image.bytes.size := by
    rw [hsize]
    exact hin
  have hfit (i : Nat) : 8 * base + t.slot i + t.element.width ≤
      8 * (image.bytes.splice base (Array.replicate t.memorySize 0).toList).size := by
    rw [Bytes.size_splice]
    exact fits_of_inBounds ht hin i
  -- bit by bit: inside the range both are fields over zeros, outside both are
  -- the old image
  refine Bytes.ext_bit (by simp) fun p => ?_
  rw [Bytes.bit_splice _ _ hpacked, hsize]
  by_cases hp : 8 * base ≤ p ∧ p < 8 * (base + t.memorySize)
  · obtain ⟨q, rfl⟩ := Nat.exists_eq_add_of_le hp.1
    rw [if_pos hp, Nat.add_sub_cancel_left, pack, hvalues]
    refine Bytes.bit_writeFields_congr (fun i => hindices.mem_iff) ht.fieldsApart
      (fun i _ => hfit i)
      (fun i _ => ?_) ?_
    · rw [Array.size_replicate, ← t.memorySize_eq]
      exact ht.slot_fits i
    · rw [Bytes.bit_splice _ _ hzero, Array.size_replicate, if_pos hp, Bytes.bit_replicate_zero,
        Bytes.bit_replicate_zero]
  · rw [if_neg hp, Bytes.bit_writeFields_outside _ _ _ _ _ (fun i _ => hfit i),
      Bytes.bit_splice _ _ hzero, Array.size_replicate, if_neg hp]
    intro i _
    have := ht.slot_fits i
    omega

/-! ## Reading one element -/

/-- One element of a tensor in bounds reads as it lies in the image. -/
theorem readElement_eq (ht : t.Laid) (hin : base + t.memorySize ≤ image.size) (i : Nat) :
    image.readElement base t i = .ok (image.elementAt base t i) := by
  have hfits := ht.slot_fits i
  have hspan : base + t.slot i / 8 + (t.slot i % 8 + t.element.width + 7) / 8 ≤
      image.size := by omega
  simp only [readElement, elementSpan_eq ht, bind, Except.bind, boundsFault?, if_pos hspan]
  rfl

/-- Reading elements one by one and reading the tensor agree. -/
theorem readElement_of_readTensor (ht : t.Laid) (hin : base + t.memorySize ≤ image.size) :
    ∃ read, image.readTensor base t = .ok read ∧ read.size = t.volume ∧
      ∀ i < t.volume, image.readElement base t i = .ok (read.getD i 0) := by
  refine ⟨_, readTensor_eq_elements ht hin, Array.size_ofFn, fun i hi => ?_⟩
  rw [readElement_eq ht hin]
  simp [Array.getD_eq_getD_getElem?, hi]

/-- **Storing element by element is storing the tensor.** Where the bytes of a
tensor can be written, they are cleared and the elements are then stored one at
a time, in any order; no store is refused, and the image is the one that storing
the packed tensor at once leaves. There, every element reads alone as it reads
with the whole tensor. -/
theorem writeElements_eq_loadTensor {layout : Layout} (hlayout : t.layout = some layout)
    (hfits : t.shape.Fits layout.shape) (hw : image.Writable base t.memorySize)
    (hvalues : values.size = t.volume) (hindices : indices.Perm (List.range t.volume)) :
    ∃ image', image.loadTensor base t values = .ok image' ∧
      image.writeElements base t values indices = .ok image' ∧
      ∃ read, image'.readTensor base t = .ok read ∧ read.size = t.volume ∧
        ∀ i < t.volume, image'.readElement base t i = .ok (read.getD i 0) := by
  have hpadded : t.padded = layout.shape := by rw [Tensor.padded, hlayout]; rfl
  rw [writeElements, fill_eq_ok hw]
  rcases Nat.eq_zero_or_pos t.volume with hzero | hpos
  · -- without elements there is nothing to store but the padding
    obtain rfl : values = #[] := Array.eq_empty_of_size_eq_zero (hvalues.trans hzero)
    obtain rfl : indices = [] := by
      rw [hzero] at hindices
      exact hindices.eq_nil
    have hbytes : pack #[] t.shape layout.shape t.element.width =
        Array.replicate t.memorySize 0 := by
      rw [t.memorySize_eq, hpadded]
      rfl
    have hstored : base + t.memorySize ≤
        (image.bytes.splice base (Array.replicate t.memorySize 0).toList).size := by
      rw [Bytes.size_splice]
      exact hw.inBounds
    refine ⟨_, ?_, rfl, #[], ?_, hzero.symm, fun i hi => by omega⟩
    · simp only [loadTensor, hzero, Array.size_empty, layoutOf, hlayout, bind, Except.bind, hbytes,
        write]
      exact storing_of_writable (by rwa [Array.size_replicate]) _
    · have hnone : (List.range t.shape.volume) = [] := by
        rw [show t.shape.volume = 0 from hzero, List.range_zero]
      rw [readTensor, read_eq_ok hstored]
      simp only [layoutOf, hlayout, bind, Except.bind, unpack, hnone]
      rfl
  · have ht : t.Laid :=
      ⟨by rw [hlayout]; rfl, Tensor.positive_of_volume_pos hpos, hpadded.symm ▸ hfits⟩
    have hcleared : ChangesOnly Set.univ image
        { image with bytes := image.bytes.splice base (Array.replicate t.memorySize 0).toList } :=
      ⟨Bytes.size_splice _ _ _, rfl, fun i hi => absurd (Set.mem_univ i) hi⟩
    have hstores := foldlM_writeElement ht (hcleared.writable_iff.2 hw)
      (fun i => values.getD i 0) indices
    have hload : image.loadTensor base t values = .ok _ :=
      (loadTensor_eq_ok ht).2 ⟨hvalues, write_eq_ok.2 ⟨by rwa [size_pack_tensor], rfl⟩⟩
    have hin : base + t.memorySize ≤
        (image.bytes.splice base (pack values t.shape t.padded t.element.width).toList).size := by
      rw [Bytes.size_splice]
      exact hw.inBounds
    refine ⟨_, hload, ?_, readElement_of_readTensor ht hin⟩
    refine hstores.trans ?_
    rw [withElements, writeFields_cleared_eq_pack ht hw.inBounds hvalues hindices]

/-- Six elements of five bits, in rows of four: most of them lie across
bytes. -/
def straddling : Tensor :=
  { id := 0, name := "t", shape := [2, 3], element := ⟨5, true, by decide, by decide⟩
    kind := .placeholder
    layout := some ⟨[2, 4], 4⟩ }

theorem writeElements_straddling :
    ∃ image', ((filled 12 255).protect "before" 0 3).loadTensor 3 straddling
      #[7, -3, 100, 0, -16, 15] =
        .ok image' ∧
      ((filled 12 255).protect "before" 0 3).writeElements 3 straddling #[7, -3, 100, 0, -16, 15]
        [4, 0, 5, 2, 1, 3] = .ok image' ∧
      ∃ read, image'.readTensor 3 straddling = .ok read ∧ read.size = straddling.volume ∧
        ∀ i < straddling.volume, image'.readElement 3 straddling i = .ok (read.getD i 0) :=
  writeElements_eq_loadTensor rfl (.cons le_rfl (.cons (by decide) .nil))
    ⟨by decide, by decide⟩ rfl (by decide)

end Image

end QuantAccel
