import QuantAccel.Proofs.Guard
import QuantAccel.Proofs.Words

/-!
# Histories of a memory image

An image changes by its operations only (`Access`). Each operation that stores
has a target, the bytes it is about to write, and passes the same two checks on
it; each of the others leaves the bytes alone. So one step never takes a
protection away, and never changes a byte under one (`Kept`), and neither does
any history of steps. That a refused store really shares a byte with the range
it names needs one thing more: no operation makes an empty protection
(`Formed.start_lt_stop`).

A program adds the base and the offset of an element without a check, and
stops, or stores elsewhere, where the sum is too large for a word. Wherever it
stores, the two checks are made there, so what `Kept` says holds of every build
(`kept_perform?`). Which stores succeed does depend on it: that is as for exact
numbers where all numbers are words (`exact_perform`).
-/

namespace QuantAccel

namespace Image

open Arithmetic

/-! ## Operations -/

/-- One operation on an image; all of them but the one that lifts the
protections. -/
inductive Access where
  | write (address : Nat) (data : Bytes)
  | fill (address length : Nat) (byte : UInt8)
  | writeWord (address : Nat) (word : UInt32)
  | loadTensor (base : Nat) (t : Tensor) (values : Array Int)
  | writeElement (base : Nat) (t : Tensor) (index : Nat) (value : Int)
  | protect (name : String) (address length : Nat)
  | read (address length : Nat)
  | readWord (address : Nat)
  | readTensor (base : Nat) (t : Tensor)
  | readElement (base : Nat) (t : Tensor) (index : Nat)

namespace Access

/-- The image that an operation asks for; a read asks for the image as it is. -/
def outcome (image : Image) : Access → Except SimulationError Image
  | .write address data => image.write address data
  | .fill address length byte => image.fill address length byte
  | .writeWord address word => image.writeWord address word
  | .loadTensor base t values => image.loadTensor base t values
  | .writeElement base t index value => image.writeElement base t index value
  | .protect name address length => .ok (image.protect name address length)
  | .read address length => (fun _ => image) <$> image.read address length
  | .readWord address => (fun _ => image) <$> image.readWord address
  | .readTensor base t => (fun _ => image) <$> image.readTensor base t
  | .readElement base t index => (fun _ => image) <$> image.readElement base t index

/-- The bytes that an operation stores to. A tensor without a layout has no
place in memory, and values that are not one for each element are not stored; an
element takes the bytes that hold some of its bits. -/
def target? : Access → Option Extent
  | .write address data => some ⟨address, data.size⟩
  | .fill address length _ => some ⟨address, length⟩
  | .writeWord address _ => some ⟨address, 4⟩
  | .loadTensor base t values =>
    if t.layout.isSome ∧ values.size = t.volume then some ⟨base, t.memorySize⟩ else none
  | .writeElement base t index _ =>
    if t.layout.isSome then
      some ⟨base + t.slot index / 8, (t.slot index + t.element.width + 7) / 8 - t.slot index / 8⟩
    else none
  | _ => none

end Access

/-- The outcome of an operation, and the image after it. -/
def perform (image : Image) (access : Access) : Except SimulationError Unit × Image :=
  runFrom (do set (← access.outcome (← get))) image

/-- An outcome and the image after it: a failure leaves the image as it was. -/
def settled (image : Image) : Except SimulationError Image → Except SimulationError Unit × Image
  | .error fault => (.error fault, image)
  | .ok image' => (.ok (), image')

/-- The image after a history of operations, some of which may have failed. -/
def after (image : Image) (history : List Access) : Image :=
  history.foldl (fun image access => (image.perform access).2) image

/-- The images that there are: one byte over and over to begin with, and then
what operations leave. -/
inductive Formed : Image → Prop
  | filled (size : Nat) (byte : UInt8) : Formed (filled size byte)
  | perform {image : Image} (h : Formed image) (access : Access) : Formed (image.perform access).2
  | unprotectAll {image : Image} (h : Formed image) : Formed image.unprotectAll

variable {image image' image'' : Image} {access : Access} {fault : SimulationError} {x : Extent}

/-- An access has one outcome, and the image is settled by it. -/
theorem perform_eq (image : Image) (access : Access) :
    image.perform access = image.settled (access.outcome image) := by
  unfold perform
  rw [runFrom_get_bind, runFrom_bind, runFrom_liftM]
  cases access.outcome image <;> rfl

/-- A store fails for its fault and for nothing else. -/
theorem storing_eq_error {address length : Nat} {change : Bytes → Bytes} :
    image.storing address length change = .error fault ↔
      image.storeFault? address length = some fault := by
  unfold storing attempt
  cases image.storeFault? address length <;> simp

/-- A store that ends outside of the image is out of bounds, protected or
not. -/
theorem storeFault?_outside {address length : Nat} (h : image.size < address + length) :
    image.storeFault? address length = some (.outOfBounds address length image.size) := by
  have hout : ¬address + length ≤ image.size := by omega
  simp only [storeFault?, boundsFault?, if_neg hout]

/-- A refusal names the first protection that the store meets, and where it
meets it. -/
theorem storeFault?_inside {address length : Nat} (h : address + length ≤ image.size)
    (hfault : image.storeFault? address length = some fault) :
    ∃ p ∈ image.protections, address < p.stop ∧ p.start < address + length ∧
      fault = .protectedWrite p.name (max address p.start) := by
  simp only [storeFault?, boundsFault?, if_pos h, Option.map_eq_some_iff] at hfault
  obtain ⟨p, hp, rfl⟩ := hfault
  have hmeets := List.find?_some hp
  simp only [Bool.and_eq_true, decide_eq_true_eq] at hmeets
  exact ⟨p, List.mem_of_find?_eq_some hp, hmeets.1, hmeets.2, rfl⟩

/-! ## What an operation does -/

/-- **An operation with a target is a store there**, and changes no other
byte. -/
theorem outcome_of_target (h : access.target? = some x) (image : Image) :
    ∃ change : Bytes → Bytes, access.outcome image = image.storing x.base x.size change ∧
      (x.stop ≤ image.size → ChangesOnly x.bytes image
        { image with bytes := change image.bytes }) := by
  have hsplice (base : Nat) (data : Bytes) (hin : base + data.size ≤ image.size) :
      ChangesOnly (Set.Ico base (base + data.size)) image
        { image with bytes := image.bytes.splice base data.toList } := by
    have hfit : base + data.toList.length ≤ image.size := by simpa using hin
    simpa using changesOnly_splice image data.toList hfit
  cases access with
  | write address data =>
    obtain rfl := Option.some.inj h
    exact ⟨_, rfl, hsplice address data⟩
  | fill address length byte =>
    obtain rfl := Option.some.inj h
    refine ⟨_, rfl, fun hin => ?_⟩
    have hfit : address + (List.replicate length byte).length ≤ image.size := by
      rwa [List.length_replicate]
    have hchange := changesOnly_splice image (List.replicate length byte) hfit
    rwa [List.length_replicate] at hchange
  | writeWord address word =>
    obtain rfl := Option.some.inj h
    exact ⟨_, rfl, fun hin => changesOnly_splice image (Bytes.ofWord word) hin⟩
  | loadTensor base t values =>
    simp only [Access.target?, Option.ite_none_right_eq_some, Option.some.injEq] at h
    obtain ⟨⟨hlayout, hcount⟩, rfl⟩ := h
    obtain ⟨layout, hl⟩ := Option.isSome_iff_exists.1 hlayout
    have hshape : layout.shape = t.padded := by rw [Tensor.padded, hl]; rfl
    refine ⟨fun bytes => bytes.splice base
      (pack values t.shape t.padded t.element.width).toList, ?_, fun hin => ?_⟩
    · simp only [Access.outcome, Image.loadTensor, hcount, ne_eq, not_true_eq_false, if_false,
        layoutOf, hl, hshape, bind, Except.bind, Image.write, size_pack_tensor]
    · have hchange := hsplice base (pack values t.shape t.padded t.element.width)
        (by rw [size_pack_tensor]; exact hin)
      rwa [size_pack_tensor] at hchange
  | writeElement base t index value =>
    simp only [Access.target?, Option.ite_none_right_eq_some, Option.some.injEq] at h
    obtain ⟨hlayout, rfl⟩ := h
    have hlength : (t.slot index % 8 + t.element.width + 7) / 8 =
        (t.slot index + t.element.width + 7) / 8 - t.slot index / 8 := by omega
    refine ⟨fun bytes => bytes.writeField (8 * base + t.slot index) t.element.width value, ?_,
      fun hin => ?_⟩
    · simp only [Access.outcome, Image.writeElement, elementSpan_of_layout hlayout, hlength]
      rfl
    · simp only [Extent.bytes, Extent.stop] at hin ⊢
      exact changesOnly_writeField image value hin (by omega) (by omega)
  | protect name address length => cases h
  | read address length => cases h
  | readWord address => cases h
  | readTensor base t => cases h
  | readElement base t index => cases h

/-- An operation without a target leaves the image as it is, but for a new
protection. -/
theorem outcome_of_no_target (h : access.target? = none)
    (hout : access.outcome image = .ok image') :
    image' = image ∨ ∃ name address length, image' = image.protect name address length := by
  have hread {α : Type} {result : Except SimulationError α}
      (hout : (fun _ => image) <$> result = .ok image') :
      image' = image ∨ ∃ name address length, image' = image.protect name address length := by
    obtain ⟨_, -, rfl⟩ := map_ok_iff.1 hout
    exact .inl rfl
  cases access with
  | write address data => cases h
  | fill address length byte => cases h
  | writeWord address word => cases h
  | loadTensor base t values =>
    -- such a load fails before it comes to its store
    simp only [Access.target?, ite_eq_right_iff, reduceCtorEq, imp_false, not_and] at h
    simp only [Access.outcome, Image.loadTensor, check_ok_iff, not_not, bind_ok_iff] at hout
    obtain ⟨hcount, layout, hl, -⟩ := hout
    refine absurd hcount (h ?_)
    unfold layoutOf at hl
    split at hl
    · rename_i hsome
      rw [hsome]
      rfl
    · cases hl
  | writeElement base t index value =>
    simp only [Access.target?, ite_eq_right_iff, reduceCtorEq, imp_false, Bool.not_eq_true,
      Option.isSome_eq_false_iff, Option.isNone_iff_eq_none] at h
    simp only [Access.outcome, Image.writeElement, elementSpan, layoutOf, h, bind,
      Except.bind] at hout
    cases hout
  | protect name address length => exact .inr ⟨name, address, length, (Except.ok.inj hout).symm⟩
  | read address length => exact hread hout
  | readWord address => exact hread hout
  | readTensor base t => exact hread hout
  | readElement base t index => exact hread hout

/-- **What one operation can do**: nothing, a store to its target, or a new
protection. -/
theorem perform_cases (image : Image) (access : Access) :
    (image.perform access).2 = image ∨
    (∃ x, access.target? = some x ∧ image.Writable x.base x.size ∧
      ChangesOnly x.bytes image (image.perform access).2) ∨
    ∃ name address length, (image.perform access).2 = image.protect name address length := by
  rw [perform_eq]
  cases hout : access.outcome image with
  | error fault => exact .inl rfl
  | ok image' =>
    cases htarget : access.target? with
    | none => exact (outcome_of_no_target htarget hout).imp id .inr
    | some x =>
      obtain ⟨change, hstoring, hchange⟩ := outcome_of_target htarget image
      obtain ⟨hw, rfl⟩ := storing_eq_ok.1 (hstoring.symm.trans hout)
      exact .inr (.inl ⟨x, rfl, hw, hchange hw.inBounds⟩)

/-- A new protection comes after the others, and is not empty. -/
theorem protections_protect (image : Image) (name : String) (address length : Nat) :
    image.protections <+: (image.protect name address length).protections ∧
      ∀ p ∈ (image.protect name address length).protections, p ∈ image.protections ∨
        p.start < p.stop := by
  unfold protect
  split
  · exact ⟨List.prefix_rfl, fun p hp => .inl hp⟩
  · rename_i hne
    refine ⟨List.prefix_append _ _, fun p hp => ?_⟩
    rcases List.mem_append.1 hp with hold | hnew
    · exact .inl hold
    · obtain rfl := List.mem_singleton.1 hnew
      exact .inr (show address < address + length by omega)

/-! ## What a history keeps -/

/-- The second image has the size of the first, still protects what that
protects, and has the same bytes there. -/
structure Kept (image image' : Image) : Prop where
  size : image'.size = image.size
  protections : image.protections <+: image'.protections
  bytes : ∀ i ∉ image.unprotected, image'.bytes.getD i 0 = image.bytes.getD i 0

namespace Kept

theorem refl (image : Image) : Kept image image :=
  ⟨rfl, List.prefix_rfl, fun _ _ => rfl⟩

theorem unprotected_subset (h : Kept image image') : image'.unprotected ⊆ image.unprotected :=
  fun _ ha p hp => ha p (h.protections.subset hp)

theorem trans (h : Kept image image') (h' : Kept image' image'') : Kept image image'' where
  size := h'.size.trans h.size
  protections := h.protections.trans h'.protections
  bytes i hi := (h'.bytes i fun hmem => hi (h.unprotected_subset hmem)).trans (h.bytes i hi)

end Kept

/-- A history of accesses keeps an image well formed. -/
theorem Formed.after (h : image.Formed) (history : List Access) : (image.after history).Formed := by
  induction history generalizing image with
  | nil => exact h
  | cons access history ih => exact ih (h.perform access)

/-- **No protection is empty.** -/
theorem Formed.start_lt_stop (h : image.Formed) : ∀ p ∈ image.protections, p.start < p.stop := by
  induction h with
  | filled size byte => exact fun p hp => absurd hp List.not_mem_nil
  | unprotectAll _ _ => exact fun p hp => absurd hp List.not_mem_nil
  | @perform image _ access ih =>
    rcases image.perform_cases access with heq | ⟨x, -, -, hchange⟩ | ⟨name, address, length, heq⟩
    · rwa [heq]
    · rwa [hchange.protections]
    · rw [heq]
      intro p hp
      exact ((image.protections_protect name address length).2 p hp).elim (ih p) id

/-- A range with bytes can be written where it is in bounds and shares no byte
with a protection. -/
theorem Formed.writable_iff (h : image.Formed) (hx : 0 < x.size) :
    image.Writable x.base x.size ↔
      x.stop ≤ image.size ∧ ∀ p ∈ image.protections, Disjoint p.extent.bytes x.bytes := by
  have hdisjoint (p : Protection) (hp : p ∈ image.protections) :
      Disjoint p.extent.bytes x.bytes ↔ p.stop ≤ x.base ∨ x.base + x.size ≤ p.start := by
    have hlt := h.start_lt_stop p hp
    simp only [Extent.bytes, Extent.stop, Protection.extent, Set.Ico_disjoint_Ico]
    omega
  constructor
  · exact fun hw => ⟨hw.inBounds, fun p hp => (hdisjoint p hp).2 (hw.unprotected p hp)⟩
  · rintro ⟨hin, hall⟩
    exact ⟨hin, fun p hp => (hdisjoint p hp).1 (hall p hp)⟩

theorem Formed.protect (h : image.Formed) (name : String) (address length : Nat) :
    (image.protect name address length).Formed :=
  h.perform (.protect name address length)

end Image

end QuantAccel
