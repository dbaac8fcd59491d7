import QuantAccel.Proofs.Execution

/-!
# Protected bytes

Whatever a device does, as long as its stores go through the checks of the
image, bytes under a protection keep their values: a store that succeeds meets
no protected range, and one that is refused changes nothing. So a run of such a
device changes open addresses only, however long it is.
-/

namespace QuantAccel

/-- The bytes of a protected range. -/
def Protection.extent (p : Protection) : Extent :=
  ⟨p.start, p.stop - p.start⟩

namespace Image

variable {image image' image'' : Image}

/-! ## Checked stores -/

/-- One store through the checks. A store that is refused, and a read, leave the
image as it is. -/
inductive Stores : Image → Image → Prop
  | write {image image' : Image} {address : Nat} {data : Bytes}
      (h : image.write address data = .ok image') : Stores image image'
  | fill {image image' : Image} {address length : Nat} {byte : UInt8}
      (h : image.fill address length byte = .ok image') : Stores image image'
  | writeWord {image image' : Image} {address : Nat} {word : UInt32}
      (h : image.writeWord address word = .ok image') : Stores image image'
  | loadTensor {image image' : Image} {base : Nat} {t : Tensor} {values : Array Int}
      (h : image.loadTensor base t values = .ok image') : Stores image image'
  | writeElement {image image' : Image} {base : Nat} {t : Tensor} {index : Nat} {value : Int}
      (h : image.writeElement base t index value = .ok image') : Stores image image'

/-- Any number of stores through the checks. -/
def Accessed : Image → Image → Prop := Relation.ReflTransGen Stores

/-- The addresses under no protection. -/
def unprotected (image : Image) : Set Nat :=
  {a | ∀ p ∈ image.protections, a < p.start ∨ p.stop ≤ a}

/-- What can be written is under no protection. -/
theorem Writable.subset_unprotected {address length : Nat} (h : image.Writable address length) :
    Set.Ico address (address + length) ⊆ image.unprotected := by
  intro a ha p hp
  have := h.unprotected p hp
  rw [Set.mem_Ico] at ha
  omega

/-- A splice of a writable range. -/
theorem changesOnly_of_splice {address : Nat} {data : List UInt8}
    (h : image.Writable address data.length) :
    ChangesOnly image.unprotected image { image with bytes := image.bytes.splice address data } :=
  (changesOnly_splice image data h.inBounds).mono h.subset_unprotected

/-- A field lies in the bytes that the store of an element checks. -/
theorem changesOnly_writeElement {base index : Nat} {t : Tensor} {value : Int}
    (h : image.writeElement base t index value = .ok image') :
    ChangesOnly image.unprotected image image' := by
  simp only [writeElement, elementSpan, bind_ok_iff, pure_ok_iff] at h
  obtain ⟨span, ⟨layout, -, rfl⟩, h⟩ := h
  obtain ⟨hw, rfl⟩ := storing_eq_ok.1 h
  generalize t.shape.position layout.shape index * t.element.width = bit at *
  dsimp only at hw ⊢
  exact (changesOnly_writeField image value hw.inBounds (by omega) (by omega)).mono
    hw.subset_unprotected

/-- **A checked store changes unprotected addresses only.** -/
theorem Stores.changesOnly (h : Stores image image') :
    ChangesOnly image.unprotected image image' := by
  have hwrite {image image' : Image} {address : Nat} {data : Bytes}
      (h : image.write address data = .ok image') : ChangesOnly image.unprotected image image' :=
    (holds_of_write h).2.mono (write_eq_ok.1 h).1.subset_unprotected
  cases h with
  | write h => exact hwrite h
  | fill h =>
    obtain ⟨hw, rfl⟩ := storing_eq_ok.1 h
    exact changesOnly_of_splice (by rwa [List.length_replicate])
  | writeWord h =>
    obtain ⟨hw, rfl⟩ := storing_eq_ok.1 h
    exact changesOnly_of_splice hw
  | loadTensor h =>
    simp only [Image.loadTensor, check_ok_iff, bind_ok_iff] at h
    obtain ⟨-, layout, -, h⟩ := h
    exact hwrite h
  | writeElement h => exact changesOnly_writeElement h

/-- **Protected bytes survive all checked stores.** -/
theorem Accessed.changesOnly (h : Accessed image image') :
    ChangesOnly image.unprotected image image' := by
  induction h with
  | refl => exact .refl _ _
  | tail _ hlast ih =>
    have hsame := ih.protections
    refine ih.trans (hlast.changesOnly.mono ?_)
    rw [unprotected, unprotected, hsame]

/-- An attempt to store, whether it is refused or not. -/
theorem accessed_attempt {address length : Nat} {change : Bytes → Bytes}
    (h : ∀ image', image.storing address length change = .ok image' → Stores image image') :
    image.Accessed (image.attempt address length change).2 := by
  rw [attempt_eq_storing]
  cases hs : image.storing address length change with
  | error => exact .refl
  | ok image' => exact .single (h image' hs)

/-! ## Guards -/

theorem bytes_protect (image : Image) (name : String) (address length : Nat) :
    (image.protect name address length).bytes = image.bytes := by
  unfold protect
  split <;> rfl

/-- The image protects some extents and nothing else; empty ones need no
protection. -/
def GuardedBy (image : Image) (guards : List Extent) : Prop :=
  image.protections.map Protection.extent = guards.filter (·.size ≠ 0)

namespace GuardedBy

variable {guards : List Extent} {x : Extent} {address length : Nat}

theorem protect (h : image.GuardedBy guards) (name : String) (x : Extent) :
    (image.protect name x.base x.size).GuardedBy (guards ++ [x]) := by
  rw [GuardedBy, List.filter_append, ← h, Image.protect]
  by_cases hx : x.size = 0
  · simp [hx]
  · simp [hx, Protection.extent]

/-- An address in a guard is under protection. -/
theorem not_unprotected (h : image.GuardedBy guards) (hx : x ∈ guards) {a : Nat} (hle : x.base ≤ a)
    (hlt : a < x.stop) : a ∉ image.unprotected := by
  intro ha
  simp only [Extent.stop] at hlt
  have hmem : x ∈ image.protections.map Protection.extent := by
    rw [h, List.mem_filter]
    exact ⟨hx, by simp; omega⟩
  obtain ⟨p, hp, rfl⟩ := List.mem_map.1 hmem
  have := ha p hp
  simp only [Protection.extent] at hle hlt
  omega

/-- What keeps apart from all guards can be written. -/
theorem writable (h : image.GuardedBy guards) (hin : address + length ≤ image.size)
    (hapart : ∀ x ∈ guards, x.Apart ⟨address, length⟩) : image.Writable address length := by
  refine ⟨hin, fun p hp => ?_⟩
  have hmem : p.extent ∈ guards.filter (·.size ≠ 0) := h ▸ List.mem_map_of_mem hp
  rw [List.mem_filter] at hmem
  obtain ⟨hguard, hsize⟩ := hmem
  have := hapart _ hguard
  simp only [Extent.Apart, Extent.stop, Protection.extent] at this hsize
  omega

end GuardedBy

end Image

/-! ## Devices that keep to the checks -/

namespace Device

variable {σ : Type} [Device σ]

/-- A device whose edges store through the checks of the image only. -/
def Checked (σ : Type) [Device σ] : Prop :=
  ∀ (s : σ) (image : Image), image.Accessed (step s image).image

theorem Runs.accessed (hσ : Checked σ) {P : σ → Prop} {n : Nat} {s t : σ} {image image' : Image}
    (h : Runs P n s image t image') : image.Accessed image' := by
  induction h with
  | refl => exact .refl
  | edge first _ _ ih => exact (first.image_eq ▸ hσ _ _).trans ih

end Device

/-! ## The machine keeps to the checks -/

namespace Machine

variable (m : Machine) (image : Image)

theorem accessed_storeElement (op : Operator) (operands : List (Array Int)) (base index : Nat) :
    image.Accessed (m.storeElement op operands base image index).2 := by
  unfold storeElement
  dsimp only
  split
  · exact .refl
  · exact .refl
  · rename_i value span _ hspan
    refine Image.accessed_attempt fun image' h => ?_
    have hstore : image.writeElement base (m.design.graph.tensor op.output) index value =
        .ok image' := by
      rw [Image.writeElement, hspan]
      exact h
    exact .writeElement hstore

theorem accessed_storeElements (op : Operator) (operands : List (Array Int)) (base : Nat)
    (indices : List Nat) : image.Accessed (m.storeElements op operands base indices image).2 := by
  induction indices generalizing image with
  | nil => exact .refl
  | cons index rest ih =>
    have hfirst := m.accessed_storeElement image op operands base index
    rw [storeElements]
    split <;> rename_i heq <;> rw [heq] at hfirst
    · exact hfirst
    · exact hfirst.trans (ih _)

theorem accessed_complete (i : Nat) : image.Accessed (m.complete i image).image := by
  have hword : image.Accessed (image.attempt m.registers.handshakeAddress.toNat 4 fun bytes =>
      bytes.splice m.registers.handshakeAddress.toNat
        (Bytes.ofWord (UInt32.ofNat (m.completed + 1)))).2 :=
    Image.accessed_attempt fun _ h => .writeWord h
  unfold complete
  dsimp only
  split <;> rename_i heq <;> rw [heq] at hword
  · exact hword
  · split <;> exact hword

theorem accessed_latch (i : Nat) : image.Accessed (m.latch i image).image := by
  unfold latch
  dsimp only
  split
  · exact .refl
  · exact .refl
  · rename_i operands base _ _
    have hfill : image.Accessed (image.attempt base
        (m.design.graph.tensor (m.operatorAt i).output).memorySize fun bytes => bytes.splice base
          (List.replicate (m.design.graph.tensor (m.operatorAt i).output).memorySize 0)).2 :=
      Image.accessed_attempt fun _ h => .fill h
    split <;> rename_i heq <;> rw [heq] at hfill <;> exact hfill

theorem accessed_finishTile (i : Nat) (tile : Tile) (later : List Tile)
    (operands : List (Array Int)) :
    image.Accessed (m.finishTile i tile later operands image).image := by
  have htile : image.Accessed (m.storeTile i tile operands image).2 := by
    unfold storeTile
    dsimp only
    split
    · exact .refl
    · exact m.accessed_storeElements image _ _ _ _
  unfold finishTile
  split <;> rename_i heq <;> rw [heq] at htile
  · exact htile
  · split
    · exact htile
    · exact htile.trans (m.accessed_complete _ i)

/-- **The machine stores through the checks only**, in whatever state it is. -/
theorem checked : Device.Checked Machine := by
  intro m image
  change image.Accessed (m.step image).image
  unfold step
  split
  · unfold launch
    dsimp only
    split <;> exact .refl
  · split
    · exact .refl
    · split
      · exact .refl
      · exact m.accessed_latch image _
    · split
      · exact .refl
      · exact m.accessed_finishTile image _ _ _ _

end Machine

end QuantAccel
