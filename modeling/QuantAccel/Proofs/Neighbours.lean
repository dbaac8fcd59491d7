import QuantAccel.Proofs.RoundTrip

/-!
# One element and its neighbours

Elements of any width share bytes with each other and with the padding between
them, so storing one of them rewrites bytes that hold others. It changes bits of
its own slot and no other bit of the image (`bit_withElement_outside`). Slots
lie apart, so the other elements, the padding and all that lies outside of the
tensor stay as they are, and the tensor reads as before but at the one element
(`writeElement_frame`).
-/

namespace QuantAccel

/-- A tensor that has an element, and a layout with room for its shape, has room
for each of its elements. -/
theorem Tensor.laid_of_lt_volume {t : Tensor} {layout : Layout} {i : Nat}
    (hlayout : t.layout = some layout) (hfits : t.shape.Fits layout.shape) (hi : i < t.volume) :
    t.Laid ∧ t.padded = layout.shape := by
  have hpadded : t.padded = layout.shape := by rw [padded, hlayout]; rfl
  exact ⟨⟨by rw [hlayout]; rfl, positive_of_volume_pos (Nat.zero_lt_of_lt hi),
    hpadded.symm ▸ hfits⟩, hpadded⟩

namespace Image

variable {image : Image} {base i : Nat} {t : Tensor} {value : Nat → Int}

/-- **Storing one element changes no bit outside of its slot.** -/
theorem bit_withElement_outside (ht : t.Laid) (hin : base + t.memorySize ≤ image.size) {p : Nat}
    (hp : p < 8 * base + t.slot i ∨ 8 * base + t.slot i + t.element.width ≤ p) :
    (image.withElements base t value [i]).bytes.bit p = image.bytes.bit p := by
  refine Bytes.bit_writeFields_outside _ _ _ _ _ (fun j _ => fits_of_inBounds ht hin j) fun j hj =>
    ?_
  rwa [List.mem_singleton.1 hj]

/-- A bit of the padding is in no slot. -/
theorem bit_withElement_padding (ht : t.Laid) (hin : base + t.memorySize ≤ image.size)
    (hi : i < t.volume) {p : Nat} (hp : ¬t.shape.Covers t.padded t.element.width p) :
    (image.withElements base t value [i]).bytes.bit (8 * base + p) =
      image.bytes.bit (8 * base + p) := by
  refine bit_withElement_outside ht hin ?_
  by_contra hslot
  exact hp ⟨i, hi, by unfold Tensor.slot at hslot; omega, by unfold Tensor.slot at hslot; omega⟩

theorem elementAt_withElement (ht : t.Laid) (hin : base + t.memorySize ≤ image.size)
    (hi : i < t.volume) {j : Nat} (hj : j < t.volume) :
    (image.withElements base t value [i]).elementAt base t j =
      if j = i then t.element.reduce (value i) else image.elementAt base t j := by
  have hall : ∀ k ∈ [i], k < t.volume := by simpa using hi
  rw [elementAt_withElements value [i] ht hin hj hall]
  by_cases hji : j = i
  · rw [if_pos (List.mem_singleton.2 hji), if_pos hji, hji]
  · rw [if_neg (fun h => hji (List.mem_singleton.1 h)), if_neg hji]

/-- **The tensor reads as before, but at one element.** -/
theorem readTensor_withElement (ht : t.Laid) (hin : base + t.memorySize ≤ image.size)
    (hi : i < t.volume) :
    (image.withElements base t value [i]).readTensor base t =
      .ok ((Array.ofFn fun j : Fin t.volume => image.elementAt base t j).setIfInBounds i
        (t.element.reduce (value i))) := by
  have hsize := (changesOnly_withElements value [i] ht hin).size
  rw [readTensor_eq_elements ht (hin.trans_eq hsize.symm)]
  refine congrArg _ (Array.ext (by simp) fun j hj hj' => ?_)
  have hlt : j < t.volume := by simpa using hj
  rw [Array.getElem_ofFn, elementAt_withElement ht hin hi hlt,
    Array.getElem_setIfInBounds (by simpa using hlt), Array.getElem_ofFn]
  simp only [eq_comm]

/-- **An element write leaves its neighbours alone.** An element of a tensor
that can be written is stored, of any width and with any value; it reads back as
the value reduced to the element type. Every other element, every bit of the
padding and every byte outside of the tensor is as before, and so the tensor
reads as before but at this element. -/
theorem writeElement_frame {layout : Layout} (hlayout : t.layout = some layout)
    (hfits : t.shape.Fits layout.shape) (hw : image.Writable base t.memorySize) (hi : i < t.volume)
    (value : Int) :
    ∃ image' before, image.writeElement base t i value = .ok image' ∧
      image.readTensor base t = .ok before ∧ before.size = t.volume ∧
      image'.readElement base t i = .ok (t.element.reduce value) ∧
      (∀ j < t.volume, j ≠ i → image.readElement base t j = .ok (before.getD j 0) ∧
        image'.readElement base t j = .ok (before.getD j 0)) ∧
      (∀ p, ¬t.shape.Covers layout.shape t.element.width p →
        image'.bytes.bit (8 * base + p) = image.bytes.bit (8 * base + p)) ∧
      ChangesOnly (Set.Ico base (base + t.memorySize)) image image' ∧
      image'.readTensor base t = .ok (before.setIfInBounds i (t.element.reduce value)) := by
  obtain ⟨ht, hpadded⟩ := Tensor.laid_of_lt_volume hlayout hfits hi
  have hin := hw.inBounds
  have hchange := changesOnly_withElements (fun _ => value) [i] ht hin
  have hin' := hin.trans_eq hchange.size.symm
  refine ⟨_, _, writeElement_eq ht hw i fun _ => value, readTensor_eq_elements ht hin,
    Array.size_ofFn, ?_,
    fun j hj hne => ⟨?_, ?_⟩, fun p hp => ?_, hchange, readTensor_withElement ht hin hi⟩
  · rw [readElement_eq ht hin', elementAt_withElement ht hin hi hi, if_pos rfl]
  · rw [readElement_eq ht hin]
    simp [Array.getD_eq_getD_getElem?, hj]
  · rw [readElement_eq ht hin', elementAt_withElement ht hin hi hj, if_neg hne]
    simp [Array.getD_eq_getD_getElem?, hj]
  · exact bit_withElement_padding ht hin hi (hpadded.symm ▸ hp)

/-- An image that is not blank, with protections right before and right after a
tensor of five-bit elements. -/
def enclosed : Image :=
  ((filled 12 0xa5).protect "before" 0 3).protect "after" 8 4

/-- The last element lies across two bytes, one of which it shares with the
padding, and is given a value that is none of its type. -/
theorem writeElement_frame_enclosed : enclosed.Writable 3 straddling.memorySize ∧
    ∃ image', enclosed.writeElement 3 straddling 5 100 = .ok image' ∧
      enclosed.readTensor 3 straddling = .ok #[5, 13, 9, -6, -14, -10] ∧
      image'.readTensor 3 straddling = .ok #[5, 13, 9, -6, -14, 4] ∧
      ChangesOnly (Set.Ico 3 8) enclosed image' := by
  have hfits : straddling.shape.Fits [2, 4] := .cons le_rfl (.cons (by decide) .nil)
  have hw : enclosed.Writable 3 straddling.memorySize := ⟨by decide, by decide⟩
  have hread : enclosed.readTensor 3 straddling = .ok #[5, 13, 9, -6, -14, -10] :=
    toOption_eq_some_iff.1 (by decide +kernel)
  obtain ⟨image', before, hwrite, hbefore, -, -, -, -, hchange, hafter⟩ :=
    writeElement_frame rfl hfits hw (by decide : 5 < straddling.volume) 100
  obtain rfl := Except.ok.inj (hbefore.symm.trans hread)
  exact ⟨hw, image', hwrite, hread, hafter, hchange⟩

end Image

end QuantAccel
