import QuantAccel.Memory.Packing
import QuantAccel.Proofs.BitField

/-!
# Positions in a padded shape, and packed elements

A logical element keeps its multi-index in the padded shape, so its position
grows with its number and stays within the padded volume. Slots of different
elements are therefore disjoint bit fields, and fields that are written one
after the other, in any order, each hold the value that was written there.
-/

namespace QuantAccel

namespace Shape

variable {shape padded : Shape}

/-- Every dimension is positive. -/
def Positive (shape : Shape) : Prop :=
  ∀ d ∈ shape, 0 < d

/-- The padded shape has the rank of the logical one and no smaller
dimension. -/
def Fits (shape padded : Shape) : Prop :=
  List.Forall₂ (· ≤ ·) shape padded

theorem Positive.head {d : Nat} {ds : Shape} (h : Positive (d :: ds)) : 0 < d :=
  h d List.mem_cons_self

theorem Positive.tail {d : Nat} {ds : Shape} (h : Positive (d :: ds)) : Positive ds :=
  fun e he => h e (List.mem_cons_of_mem d he)

theorem Positive.volume_pos (h : Positive shape) : 0 < shape.volume := by
  induction shape with
  | nil => exact Nat.one_pos
  | cons d ds ih => exact Nat.mul_pos h.head (ih h.tail)

/-- Padding keeps dimensions positive. -/
theorem Fits.positive (h : Fits shape padded) (hpos : Positive shape) : Positive padded := by
  induction h with
  | nil => exact hpos
  | cons hd _ ih =>
    intro e he
    rcases List.mem_cons.1 he with rfl | he
    · exact lt_of_lt_of_le hpos.head hd
    · exact ih hpos.tail e he

/-- The position of an element depends on its number within the volume only. -/
theorem position_mod (shape padded : Shape) (i : Nat) :
    shape.position padded (i % shape.volume) = shape.position padded i := by
  induction shape generalizing padded i with
  | nil => simp [position]
  | cons d ds ih =>
    cases padded with
    | nil => simp [position]
    | cons p ps =>
      have hdigit : i % (d * volume ds) / volume ds % d = i / volume ds % d := by
        rw [Nat.mod_mul_left_div_self, Nat.mod_mod]
      have hrest : position ds ps (i % (d * volume ds)) = position ds ps i := by
        rw [← ih ps (i % (d * volume ds)), Nat.mod_mul_left_mod, ih]
      simp only [position, volume, hdigit, hrest]

/-- **A position lies in the padded shape.** -/
theorem position_lt (h : Fits shape padded) (hpos : Positive shape) (i : Nat) :
    shape.position padded i < padded.volume := by
  induction h with
  | nil => exact Nat.one_pos
  | @cons d p ds ps hd _ ih =>
    have hlow := ih hpos.tail
    have hdigit : i / volume ds % d < d := Nat.mod_lt _ hpos.head
    calc i / volume ds % d * volume ps + position ds ps i
        < i / volume ds % d * volume ps + volume ps := Nat.add_lt_add_left hlow _
      _ = (i / volume ds % d + 1) * volume ps := by ring
      _ ≤ p * volume ps := Nat.mul_le_mul_right _ (by omega)

/-- **Positions grow with the number of the element.** -/
theorem position_strictMono (h : Fits shape padded) (hpos : Positive shape) {i j : Nat}
    (hij : i < j) (hj : j < shape.volume) :
    shape.position padded i < shape.position padded j := by
  induction h generalizing i j with
  | nil => rw [volume] at hj; omega
  | @cons d p ds ps hd hrest ih =>
    have hv := hpos.tail.volume_pos
    have hqj : j / volume ds < d := Nat.div_lt_of_lt_mul (by rw [Nat.mul_comm]; exact hj)
    have hle : i / volume ds ≤ j / volume ds := Nat.div_le_div_right hij.le
    simp only [position, Nat.mod_eq_of_lt hqj, Nat.mod_eq_of_lt (lt_of_le_of_lt hle hqj)]
    rcases hle.lt_or_eq with hlt | heq
    · -- the leading digit grows, and the rest of a position is less than one step of it
      have hlow := position_lt hrest hpos.tail i
      calc i / volume ds * volume ps + position ds ps i
          < i / volume ds * volume ps + volume ps := Nat.add_lt_add_left hlow _
        _ = (i / volume ds + 1) * volume ps := by ring
        _ ≤ j / volume ds * volume ps := Nat.mul_le_mul_right _ hlt
        _ ≤ j / volume ds * volume ps + position ds ps j := Nat.le_add_right _ _
    · -- with the same leading digit the rest decides
      have hmod : i % volume ds < j % volume ds := by
        have hi := Nat.div_add_mod i (volume ds)
        have hj := Nat.div_add_mod j (volume ds)
        rw [heq] at hi
        omega
      have := ih hpos.tail hmod (Nat.mod_lt _ hv)
      rw [position_mod, position_mod] at this
      rw [heq]
      omega

theorem position_injective (h : Fits shape padded) (hpos : Positive shape) {i j : Nat}
    (hi : i < shape.volume) (hj : j < shape.volume)
    (heq : shape.position padded i = shape.position padded j) : i = j := by
  rcases Nat.lt_trichotomy i j with hlt | rfl | hgt
  · have := position_strictMono h hpos hlt hj
    omega
  · rfl
  · have := position_strictMono h hpos hgt hi
    omega

end Shape

/-! ## Fields written one after the other -/

namespace Bytes

variable (b : Bytes) (width : Nat) (place : Nat → Nat) (value : Nat → Int) (is : List Nat)

/-- The buffer with one field written for each index of a list. -/
def writeFields : Bytes :=
  is.foldl (fun b i => b.writeField (place i) width (value i)) b

@[simp] theorem size_writeFields :
    (b.writeFields width place value is).size = b.size := by
  induction is generalizing b with
  | nil => rfl
  | cons i is ih => rw [writeFields, List.foldl_cons, ← writeFields, ih, size_writeField]

/-- Bits that none of the fields covers stay as they are. -/
theorem bit_writeFields_outside {p : Nat}
    (hfit : ∀ i ∈ is, place i + width ≤ 8 * b.size)
    (hout : ∀ i ∈ is, p < place i ∨ place i + width ≤ p) :
    (b.writeFields width place value is).bit p = b.bit p := by
  induction is generalizing b with
  | nil => rfl
  | cons i is ih =>
    rw [writeFields, List.foldl_cons, ← writeFields, ih]
    · exact bit_writeField_outside _ _ (hfit i List.mem_cons_self) (hout i List.mem_cons_self)
    · simpa using fun k hk => hfit k (List.mem_cons_of_mem i hk)
    · exact fun k hk => hout k (List.mem_cons_of_mem i hk)

/-- **Fields written one after the other do not disturb each other**: a field
holds the value of its index if that index was written, and what it held before
if not. -/
theorem fieldAt_writeFields (j : Nat)
    (hfit : ∀ i ∈ is, place i + width ≤ 8 * b.size)
    (hdis : ∀ i ∈ is, i ≠ j → place i + width ≤ place j ∨ place j + width ≤ place i) :
    (b.writeFields width place value is).fieldAt (place j) width =
      if j ∈ is then fieldBits width (value j) else b.fieldAt (place j) width := by
  induction is generalizing b with
  | nil => rfl
  | cons i is ih =>
    rw [writeFields, List.foldl_cons, ← writeFields, ih]
    · by_cases hmem : j ∈ is
      · rw [if_pos hmem, if_pos (List.mem_cons_of_mem i hmem)]
      rw [if_neg hmem]
      by_cases hij : i = j
      · subst hij
        rw [if_pos List.mem_cons_self, fieldAt_writeField _ _ (hfit i List.mem_cons_self)]
      · rw [if_neg (by simp [hmem, Ne.symm hij]),
          fieldAt_writeField_of_disjoint _ _ (hfit i List.mem_cons_self)
            (Or.symm (hdis i List.mem_cons_self hij))]
    · simpa using fun k hk => hfit k (List.mem_cons_of_mem i hk)
    · exact fun k hk => hdis k (List.mem_cons_of_mem i hk)

end Bytes

/-! ## Packed tensors -/

/-- Slots of different numbers are disjoint. -/
theorem slot_disjoint {s s' : Nat} (width : Nat) (h : s ≠ s') :
    s * width + width ≤ s' * width ∨ s' * width + width ≤ s * width := by
  rcases Nat.lt_or_gt_of_ne h with hlt | hgt
  · left
    calc s * width + width = (s + 1) * width := by ring
      _ ≤ s' * width := Nat.mul_le_mul_right _ hlt
  · right
    calc s' * width + width = (s' + 1) * width := by ring
      _ ≤ s * width := Nat.mul_le_mul_right _ hgt

/-- A slot of the padded volume lies in the packed bytes. -/
theorem slot_fits {s volume : Nat} (width : Nat) (h : s < volume) :
    s * width + width ≤ 8 * packedLength volume width := by
  have : (s + 1) * width ≤ volume * width := Nat.mul_le_mul_right _ h
  have : s * width + width = (s + 1) * width := by ring
  unfold packedLength
  omega

@[simp] theorem size_pack (values : Array Int) (shape padded : Shape) (width : Nat) :
    (pack values shape padded width).size = packedLength padded.volume width := by
  show (Bytes.writeFields _ _ _ _ _).size = _
  rw [Bytes.size_writeFields, Array.size_replicate]

theorem size_unpack (b : Bytes) (shape padded : Shape) (width : Nat) (signed : Bool) :
    (unpack b shape padded width signed).size = shape.volume := by
  simp [unpack]

theorem getD_unpack (b : Bytes) (padded : Shape) (width : Nat) (signed : Bool) {shape : Shape}
    {i : Nat} (hi : i < shape.volume) :
    (unpack b shape padded width signed).getD i 0 =
      b.readField (shape.position padded i * width) width signed := by
  simp [unpack, Array.getD_eq_getD_getElem?, hi]

/-- Each slot of a packed tensor holds its element. -/
theorem fieldAt_pack {values : Array Int} {shape padded : Shape} {width i : Nat}
    (hfits : shape.Fits padded) (hpos : shape.Positive) (hsize : values.size = shape.volume)
    (hi : i < shape.volume) :
    (pack values shape padded width).fieldAt (shape.position padded i * width) width =
      Bytes.fieldBits width (values.getD i 0) := by
  have hplace := Bytes.fieldAt_writeFields (Array.replicate (packedLength padded.volume width) 0)
    width (fun i => shape.position padded i * width) (fun i => values.getD i 0)
    (List.range values.size) i
    (fun k _ => by simpa using slot_fits width (Shape.position_lt hfits hpos k))
    (fun k hk hne => slot_disjoint width fun heq => hne <|
      Shape.position_injective hfits hpos (by simpa [hsize] using hk) hi heq)
  rw [if_pos (by simpa [hsize] using hi)] at hplace
  exact hplace

/-- **Unpacking undoes packing**, up to the reduction of each value to its
element type. -/
theorem unpack_pack {values : Array Int} {shape padded : Shape} {t : ElementType}
    (hfits : shape.Fits padded) (hpos : shape.Positive) (hsize : values.size = shape.volume) :
    unpack (pack values shape padded t.width) shape padded t.width t.signed =
      values.map t.reduce := by
  refine Array.ext (by simp [size_unpack, hsize]) fun i hi hi' => ?_
  have hlt : i < shape.volume := by simpa [size_unpack] using hi
  have hread := getD_unpack (pack values shape padded t.width) padded t.width t.signed hlt
  rw [Bytes.readField, fieldAt_pack hfits hpos hsize hlt, Bytes.fieldValue_fieldBits] at hread
  simpa [Array.getD_eq_getD_getElem?, hi, hsize ▸ hlt] using hread

end QuantAccel
