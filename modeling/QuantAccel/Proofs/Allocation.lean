import QuantAccel.Memory.Plan
import QuantAccel.Proofs.Outcome
import QuantAccel.Proofs.Schedule

/-!
# Extents in memory

Allocation stacks extents: each begins where the one before it ends, rounded up
to the next chunk. Of a stack from one chunk multiple to another, all extents
begin on chunk multiples, lie between the ends and keep apart; and a stack on
top of a stack is a stack, so this holds over all regions of a memory plan at
once.
-/

namespace QuantAccel

/-- A range of bytes in memory. -/
structure Extent where
  base : Nat
  size : Nat
  deriving Repr, DecidableEq

namespace Extent

/-- First byte after the extent. -/
def stop (s : Extent) : Nat := s.base + s.size

/-- The addresses of the extent. -/
def bytes (s : Extent) : Set Nat := Set.Ico s.base s.stop

/-- One extent ends before the other begins. -/
def Apart (s s' : Extent) : Prop :=
  s.stop ≤ s'.base ∨ s'.stop ≤ s.base

theorem Apart.symm {s s' : Extent} (h : s.Apart s') : s'.Apart s :=
  Or.symm h

end Extent

/-- Extents one after the other from `start`, each from the chunk multiple after
the one before it. -/
def Stacked (chunkSize : Nat) : (start : Nat) → List Extent → (stop : Nat) → Prop
  | start, [], stop => stop = start
  | start, s :: extents, stop =>
    s.base = start ∧ Stacked chunkSize (roundUp s.stop chunkSize) extents stop

namespace Stacked

variable {chunkSize start middle stop : Nat} {extents extents' : List Extent}

/-- Stacks compose where one ends and the other begins. -/
theorem append (h : Stacked chunkSize start extents middle)
    (h' : Stacked chunkSize middle extents' stop) :
    Stacked chunkSize start (extents ++ extents') stop := by
  induction extents generalizing start with
  | nil =>
    obtain rfl : middle = start := h
    exact h'
  | cons s extents ih => exact ⟨h.1, ih h.2⟩

variable (hchunk : 0 < chunkSize)
include hchunk

/-- A stack does not end before it starts. -/
theorem start_le (h : Stacked chunkSize start extents stop) : start ≤ stop := by
  induction extents generalizing start with
  | nil => exact h.ge
  | cons s extents ih =>
    have hrest := ih h.2
    have hround := le_roundUp s.stop hchunk
    have hbase := h.1
    unfold Extent.stop at hrest hround
    omega

omit hchunk in
/-- A stack that starts at a chunk multiple ends at one. -/
theorem dvd_stop (h : Stacked chunkSize start extents stop) (hstart : chunkSize ∣ start) :
    chunkSize ∣ stop := by
  induction extents generalizing start with
  | nil => exact h.symm ▸ hstart
  | cons s extents ih => exact ih h.2 (dvd_roundUp _)

/-- **Every extent of a stack begins on a chunk multiple and lies between the
ends.** -/
theorem mem (h : Stacked chunkSize start extents stop) (hstart : chunkSize ∣ start) {s : Extent}
    (hs : s ∈ extents) : chunkSize ∣ s.base ∧ start ≤ s.base ∧ s.stop ≤ stop := by
  induction extents generalizing start with
  | nil => exact absurd hs List.not_mem_nil
  | cons first extents ih =>
    have hround := le_roundUp first.stop hchunk
    rcases List.mem_cons.1 hs with rfl | hs
    · exact ⟨h.1.symm ▸ hstart, h.1.ge, hround.trans (h.2.start_le hchunk)⟩
    · obtain ⟨hdvd, hle, hstop⟩ := ih h.2 (dvd_roundUp _) hs
      have hbase := h.1
      unfold Extent.stop at hround hle
      exact ⟨hdvd, by omega, hstop⟩

/-- **An extent of a stack ends before the next one begins.** -/
theorem pairwise (h : Stacked chunkSize start extents stop) :
    extents.Pairwise fun s s' => s.stop ≤ s'.base := by
  induction extents generalizing start with
  | nil => exact .nil
  | cons s extents ih =>
    refine .cons (fun s' hs' => ?_) (ih h.2)
    have hle := (h.2.mem hchunk (dvd_roundUp _) hs').2.1
    exact (le_roundUp s.stop hchunk).trans hle

end Stacked

/-! ## Allocation -/

section Allocate

variable {chunkSize bound start stop : Nat} {items : List (String × Nat)} {addresses : List Nat}

/-- The extents of entities at some addresses. -/
def extentsOf (addresses : List Nat) (items : List (String × Nat)) : List Extent :=
  List.zipWith (fun address item => ⟨address, item.2⟩) addresses items

/-- Extents of entities that are made from a list, read off along the list. -/
theorem extentsOf_map {α : Type} (f : α → String × Nat) {l : List α} :
    extentsOf addresses (l.map f) = (l.zip addresses).map fun p => ⟨p.2, (f p.1).2⟩ := by
  induction l generalizing addresses with
  | nil => cases addresses <;> rfl
  | cons a l ih =>
    cases addresses with
    | nil => rfl
    | cons address addresses => exact congrArg _ ih

/-- Extents of two lists of entities that are placed one after the other. -/
theorem extentsOf_append {addresses' : List Nat} {items' : List (String × Nat)}
    (h : addresses.length = items.length) :
    extentsOf (addresses ++ addresses') (items ++ items') =
      extentsOf addresses items ++ extentsOf addresses' items' :=
  List.zipWith_append h

/-- **Chunked placement stacks the entities**, one address for each, and ends
within the bound. The induction is along the recursion, so the start of each
step is the end of the one before. -/
theorem allocateFrom_ok (h : allocateFrom chunkSize bound items start = .ok (addresses, stop)) :
    addresses.length = items.length ∧ Stacked chunkSize start (extentsOf addresses items) stop ∧
      (items ≠ [] → stop ≤ bound) := by
  induction items generalizing start addresses with
  | nil =>
    obtain ⟨rfl, rfl⟩ := Prod.mk.inj (Except.ok.inj h)
    exact ⟨rfl, rfl, fun hne => absurd rfl hne⟩
  | cons item items ih =>
    obtain ⟨name, size⟩ := item
    simp only [allocateFrom] at h
    split at h
    · rename_i hfits
      obtain ⟨⟨rest, last⟩, hrest, h⟩ := bind_ok_iff.1 h
      obtain ⟨rfl, rfl⟩ := Prod.mk.inj (pure_ok_iff.1 h)
      obtain ⟨hlen, hstack, hbound⟩ := ih hrest
      refine ⟨by simp [hlen], ⟨rfl, hstack⟩, fun _ => ?_⟩
      by_cases hnil : items = []
      · subst hnil
        obtain ⟨-, rfl⟩ := Prod.mk.inj (Except.ok.inj hrest)
        exact hfits.2
      · exact hbound hnil
    · cases h

/-- Placement from a chunk multiple stacks the entities from there. -/
theorem allocate_ok (hstart : chunkSize ∣ start)
    (h : allocate items start chunkSize bound = .ok (addresses, stop)) :
    0 < chunkSize ∧ addresses.length = items.length ∧
      Stacked chunkSize start (extentsOf addresses items) stop ∧ (items ≠ [] → stop ≤ bound) := by
  unfold allocate at h
  split at h
  · cases h
  · rename_i hne
    have hpos := Nat.pos_of_ne_zero hne
    rw [roundUp_of_dvd hpos hstart] at h
    exact ⟨hpos, allocateFrom_ok h⟩

/-- **A region holds a stack of extents**, and ends where the stack does. -/
theorem placeRegion_ok {kind : RegionKind} {region : Region} (hstart : chunkSize ∣ start)
    (h : placeRegion chunkSize bound kind items start = .ok (addresses, region)) :
    0 < chunkSize ∧ addresses.length = items.length ∧ region.kind = kind ∧ region.base = start ∧
      chunkSize ∣ region.base ∧ chunkSize ∣ region.size ∧
      Stacked chunkSize region.base (extentsOf addresses items) region.stop ∧
      (items ≠ [] → region.stop ≤ bound) := by
  unfold placeRegion at h
  obtain ⟨⟨addresses', stop⟩, halloc, h⟩ := bind_ok_iff.1 h
  obtain ⟨rfl, rfl⟩ := Prod.mk.inj (pure_ok_iff.1 h)
  obtain ⟨hpos, hlen, hstack, hbound⟩ := allocate_ok hstart halloc
  have hle := hstack.start_le hpos
  have hstop : start + (stop - start) = stop := by omega
  refine ⟨hpos, hlen, rfl, rfl, hstart, Nat.dvd_sub (hstack.dvd_stop hstart) hstart, ?_, ?_⟩
  · simpa only [Region.stop, hstop] using hstack
  · simpa only [Region.stop, hstop] using hbound

end Allocate

end QuantAccel
