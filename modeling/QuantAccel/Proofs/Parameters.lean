import QuantAccel.Proofs.Plan

/-!
# Parameters in memory

The blob of a design is spliced together from the packed parameters. Their
offsets are those of extents that keep apart, so a later splice does not touch
an earlier one, and wherever the blob lies every parameter is found at its own
address.
-/

namespace QuantAccel

/-! ## Regions by kind -/

namespace MemoryMap

/-- Where a region begins. -/
def base (map : MemoryMap) (k : RegionKind) : Nat :=
  ((map.regions.find? fun r => r.kind == k).map (·.base)).getD 0

/-- Where a region ends. -/
def stop (map : MemoryMap) (k : RegionKind) : Nat :=
  ((map.regions.find? fun r => r.kind == k).map (·.stop)).getD 0

/-- The addresses of a region. -/
def bytes (map : MemoryMap) (k : RegionKind) : Set Nat := Set.Ico (map.base k) (map.stop k)

namespace Sound

variable {map : MemoryMap} {g : Graph} {chunkSize bound : Nat}
variable (h : map.Sound g chunkSize bound)
include h

/-- The regions of a sound map follow one another from zero to the size of the
memory. -/
theorem exists_regions : ∃ a p r s, map.regions = [a, p, r, s] ∧ a.kind = .activations ∧
    p.kind = .parameters ∧ r.kind = .reference ∧ s.kind = .scratch ∧ a.base = 0 ∧ p.base = a.stop ∧
    r.base = p.stop ∧ s.base = r.stop ∧ map.size = s.stop := by
  have hkinds := h.kinds
  have hcontiguous := h.contiguous
  match hregions : map.regions with
  | [a, p, r, s] =>
    rw [hregions] at hkinds hcontiguous
    simp only [List.map_cons, List.map_nil, List.cons.injEq, and_true] at hkinds
    obtain ⟨ha, hp, hr, hs⟩ := hkinds
    obtain ⟨ha', hp', hr', hs', hsize⟩ := hcontiguous
    exact ⟨a, p, r, s, rfl, ha, hp, hr, hs, ha', hp', hr', hs', hsize⟩
  | [] | [_] | [_, _] | [_, _, _] | _ :: _ :: _ :: _ :: _ :: _ => simp [hregions] at hkinds

/-- The region of a kind, and the only one. -/
theorem region_ok (k : RegionKind) : ∃ r, map.region k = .ok r ∧ r ∈ map.regions ∧ r.kind = k ∧
    r.base = map.base k ∧ r.stop = map.stop k ∧ ∀ r' ∈ map.regions, r'.kind = k → r' = r := by
  obtain ⟨a, p, r, s, hregions, ha, hp, hr, hs, -⟩ := h.exists_regions
  unfold MemoryMap.region base stop
  rw [hregions]
  cases k <;> simp [ha, hp, hr, hs]

theorem base_activations : map.base .activations = 0 := by
  obtain ⟨a, p, r, s, hregions, ha, hp, hr, hs, ha', -⟩ := h.exists_regions
  simp [base, hregions, ha, ha']

theorem base_parameters : map.base .parameters = map.stop .activations := by
  obtain ⟨a, p, r, s, hregions, ha, hp, hr, hs, -, hp', -⟩ := h.exists_regions
  simp [base, stop, hregions, ha, hp, hp']

theorem base_reference : map.base .reference = map.stop .parameters := by
  obtain ⟨a, p, r, s, hregions, ha, hp, hr, hs, -, -, hr', -⟩ := h.exists_regions
  simp [base, stop, hregions, ha, hp, hr, hr']

theorem base_scratch : map.base .scratch = map.stop .reference := by
  obtain ⟨a, p, r, s, hregions, ha, hp, hr, hs, -, -, -, hs', -⟩ := h.exists_regions
  simp [base, stop, hregions, ha, hp, hr, hs, hs']

theorem stop_scratch : map.stop .scratch = map.size := by
  obtain ⟨a, p, r, s, hregions, ha, hp, hr, hs, -, -, -, -, hsize⟩ := h.exists_regions
  simp [stop, hregions, ha, hp, hr, hs, hsize]

omit h in
/-- A region does not end before its base. -/
theorem base_le_stop (map : MemoryMap) (k : RegionKind) : map.base k ≤ map.stop k := by
  unfold base stop
  cases map.regions.find? fun r => r.kind == k with
  | none => exact le_rfl
  | some r => exact Nat.le_add_right _ _

/-- No region ends after the memory. -/
theorem stop_le_size (k : RegionKind) : map.stop k ≤ map.size := by
  have hA := base_le_stop map .activations
  have hP := base_le_stop map .parameters
  have hR := base_le_stop map .reference
  have hS := base_le_stop map .scratch
  rw [h.base_parameters] at hP
  rw [h.base_reference] at hR
  rw [h.base_scratch, h.stop_scratch] at hS
  have hS' := h.stop_scratch
  cases k <;> omega

/-- An entity lies in its region. -/
theorem inside_home {e : Entity} {x : Extent} (he : map.extent? g e = some x) :
    map.base (g.home e) ≤ x.base ∧ x.stop ≤ map.stop (g.home e) := by
  obtain ⟨r, hr, hkind, hle, hstop⟩ := h.inside e x he
  obtain ⟨r', -, -, -, hbase', hstop', huniq⟩ := h.region_ok (g.home e)
  obtain rfl := huniq r hr hkind
  exact ⟨hbase' ▸ hle, hstop' ▸ hstop⟩

/-- The bytes of an entity are in its region. -/
theorem bytes_subset {e : Entity} {x : Extent} (he : map.extent? g e = some x) :
    x.bytes ⊆ map.bytes (g.home e) :=
  Set.Ico_subset_Ico (h.inside_home he).1 (h.inside_home he).2

/-- The address of a tensor, with its extent. -/
theorem exists_address {id : TensorId} (hid : id < g.tensors.size) :
    ∃ address, (g.tensor id).address = some address ∧
      map.extent? g (.tensor id) = some ⟨address, (g.tensor id).memorySize⟩ := by
  obtain ⟨address, ha⟩ := Option.isSome_iff_exists.1 (h.addressed id hid)
  exact ⟨address, ha, by rw [extent?, ha]; rfl⟩

/-- The parameters end before the scratch region begins. -/
theorem stop_parameters_le : map.stop .parameters ≤ map.base .scratch := by
  rw [h.base_scratch, ← h.base_reference]
  exact base_le_stop map .reference

/-- The place of a tensor: intermediates in scratch, and all others before the
end of the parameters. -/
theorem address_home {id : TensorId} (hid : id < g.tensors.size) :
    ∃ address, (g.tensor id).address = some address ∧
      map.extent? g (.tensor id) = some ⟨address, (g.tensor id).memorySize⟩ ∧
      if (g.tensor id).kind.isIntermediate then
        map.base .scratch ≤ address ∧ address + (g.tensor id).memorySize ≤ map.stop .scratch
      else address + (g.tensor id).memorySize ≤ map.stop .parameters := by
  obtain ⟨address, haddress, hextent⟩ := h.exists_address hid
  have hhome := h.inside_home hextent
  have hmiddle := h.base_parameters ▸ base_le_stop map .parameters
  refine ⟨address, haddress, hextent, ?_⟩
  simp only [Graph.home, Extent.stop] at hhome
  cases hkind : (g.tensor id).kind <;>
    simp only [hkind, TensorKind.region, TensorKind.isIntermediate, Bool.false_eq_true, if_true,
      if_false] at hhome ⊢
  case intermediate => exact hhome
  all_goals omega

end Sound

end MemoryMap

/-! ## The blob -/

namespace Bytes

/-- The bytes from `base` on are some data. -/
def HoldsAt (b : Bytes) (base : Nat) (data : Bytes) : Prop :=
  ∀ i < data.size, b.getD (base + i) 0 = data.getD i 0

/-- What is spliced in is held there. -/
theorem holdsAt_splice {b data : Bytes} {base : Nat} (h : base + data.size ≤ b.size) :
    (b.splice base data.toList).HoldsAt base data := by
  intro i hi
  rw [getD_splice_inside _ _ (by simpa using h) (by simpa using hi)]
  simp [Array.getD_eq_getD_getElem?, hi]

/-- What is held is still held after a splice somewhere else. -/
theorem HoldsAt.splice {b data data' : Bytes} {base base' : Nat} (h : b.HoldsAt base data)
    (hfit : base' + data'.size ≤ b.size)
    (hapart : base + data.size ≤ base' ∨ base' + data'.size ≤ base) :
    (b.splice base' data'.toList).HoldsAt base data := by
  intro i hi
  rw [getD_splice_outside _ _ (by simpa using hfit) (by simp only [Array.length_toList]; omega),
    h i hi]

end Bytes

/-- **Splices that keep apart all stay.** -/
theorem foldlM_splice_ok {ε : Type} (data : TensorId → Except ε Bytes)
    {slots : List (TensorId × Nat)} {b b' : Bytes}
    (hfit : ∀ p ∈ slots, ∀ d, data p.1 = .ok d → p.2 + d.size ≤ b.size)
    (hapart : slots.Pairwise fun p q => ∀ d e, data p.1 = .ok d → data q.1 = .ok e →
      p.2 + d.size ≤ q.2 ∨ q.2 + e.size ≤ p.2)
    (h : slots.foldlM (fun b (id, offset) => do return b.splice offset (← data id).toList)
      b = .ok b') :
    b'.size = b.size ∧ (∀ p ∈ slots, ∃ d, data p.1 = .ok d ∧ b'.HoldsAt p.2 d) ∧
      ∀ base d, b.HoldsAt base d →
        (∀ p ∈ slots, ∀ e, data p.1 = .ok e → base + d.size ≤ p.2 ∨ p.2 + e.size ≤ base) →
        b'.HoldsAt base d := by
  induction slots generalizing b with
  | nil =>
    obtain rfl := pure_ok_iff.1 h
    exact ⟨rfl, fun p hp => absurd hp List.not_mem_nil, fun _ _ hb _ => hb⟩
  | cons p slots ih =>
    obtain ⟨id, offset⟩ := p
    simp only [List.foldlM_cons, bind_ok_iff, pure_ok_iff] at h
    obtain ⟨_, ⟨d, hd, rfl⟩, h⟩ := h
    have hfit₀ := hfit _ List.mem_cons_self d hd
    obtain ⟨hfirst, hrest⟩ := List.pairwise_cons.1 hapart
    obtain ⟨hsize, hall, hkeep⟩ := ih
      (fun q hq e he => by rw [Bytes.size_splice]; exact hfit q (List.mem_cons_of_mem _ hq) e he)
      hrest h
    refine ⟨hsize.trans (Bytes.size_splice _ _ _), fun q hq => ?_, fun base e hb hout => ?_⟩
    · rcases List.mem_cons.1 hq with rfl | hq
      · refine ⟨d, hd, hkeep _ _ (Bytes.holdsAt_splice hfit₀) fun q hq e he => ?_⟩
        exact hfirst q hq d e hd he
      · exact hall q hq
    · refine hkeep _ _ (hb.splice hfit₀ (hout _ List.mem_cons_self d hd)) fun q hq => ?_
      exact hout q (List.mem_cons_of_mem _ hq)

namespace Graph

variable {g : Graph} {map : MemoryMap} {chunkSize bound : Nat} {blob : Bytes}

/-- The bytes of a parameter that is quantized and laid out. -/
theorem packedParameter_ok {t : Tensor} (ht : t.Laid) {ints : Array Int}
    (hints : t.ints = some ints) :
    packedParameter t = .ok (pack ints t.shape t.padded t.element.width) := by
  obtain ⟨layout, hl, hshape⟩ := ht.exists_layout
  simp [packedParameter, hints, hl, hshape]

/-- Trained and fixed tensors together are the parameters. -/
theorem WellFormed.mem_parameters (hg : g.WellFormed) {id : TensorId} :
    id ∈ g.trained ++ g.fixed ↔ id < g.tensors.size ∧ (g.tensor id).kind.isParameter := by
  rw [List.mem_append, trained, fixed, hg.mem_idsWhere, hg.mem_idsWhere, ← and_or_left]
  refine and_congr_right fun _ => ?_
  cases (g.tensor id).kind <;>
    simp [TensorKind.isTrained, TensorKind.isFixed, TensorKind.isParameter, TensorKind.values?]

theorem WellFormed.nodup_parameters (hg : g.WellFormed) : (g.trained ++ g.fixed).Nodup :=
  hg.nodup_idsWhere_append fun k => by cases k <;> simp [TensorKind.isTrained, TensorKind.isFixed]

/-- Parameters live in their own region. -/
theorem home_parameter {id : TensorId} (h : (g.tensor id).kind.isParameter) :
    g.home (.tensor id) = .parameters := by
  rw [home]
  cases hkind : (g.tensor id).kind <;>
    simp [hkind, TensorKind.isParameter, TensorKind.values?] at h <;> rfl

/-- An offset of the plan is that of a parameter with packed bytes, which fit
into the region. -/
theorem exists_packed (hg : g.WellFormed) (hq : g.Quantized) (ha : g.Arranged)
    (hmap : map.Sound g chunkSize bound) {r : Region} (hr : r ∈ map.regions)
    (hkind : r.kind = .parameters) (hstop : r.stop = map.stop .parameters) {p : TensorId × Nat}
    (hp : p ∈ map.parameterOffsets) :
    ∃ ints, (g.tensor p.1).ints = some ints ∧
      map.extent? g (.tensor p.1) = some ⟨r.base + p.2, (g.tensor p.1).memorySize⟩ ∧
      p.2 + (g.tensor p.1).memorySize ≤ r.size ∧
      packedParameter (g.tensor p.1) = .ok (pack ints (g.tensor p.1).shape (g.tensor p.1).padded
        (g.tensor p.1).element.width) := by
  have hmem : p.1 ∈ g.trained ++ g.fixed := hmap.parameter_ids ▸ List.mem_map_of_mem hp
  obtain ⟨hid, hparam⟩ := hg.mem_parameters.1 hmem
  obtain ⟨ints, hints, -⟩ := hq.ints p.1 hid hparam
  have haddress := hmap.parameter_offset r hr hkind p hp
  have hextent : map.extent? g (.tensor p.1) = some ⟨r.base + p.2, (g.tensor p.1).memorySize⟩ := by
    rw [MemoryMap.extent?, haddress]
    rfl
  have hin := (hmap.inside_home hextent).2
  rw [home_parameter hparam, ← hstop] at hin
  simp only [Extent.stop, Region.stop] at hin
  exact ⟨ints, hints, hextent, by omega, packedParameter_ok (ha.laid p.1 hid) hints⟩

/-- Every parameter of a graph that is quantized and arranged has its bytes. -/
theorem exists_parameterBlob (hg : g.WellFormed) (hq : g.Quantized) (ha : g.Arranged)
    (hmap : map.Sound g chunkSize bound) : ∃ blob, g.parameterBlob map = .ok blob := by
  obtain ⟨r, hregion, hr, hkind, -, hstop, -⟩ := hmap.region_ok .parameters
  obtain ⟨blob, hblob, -⟩ := foldlM_exists (I := fun _ _ => True) (l := map.parameterOffsets)
    (f := fun blob (p : TensorId × Nat) => do
      return Bytes.splice blob p.2 (← packedParameter (g.tensor p.1)).toList)
    (b := Array.replicate r.size 0)
    (fun before p after b hsplit _ => by
      have hp : p ∈ map.parameterOffsets := by simp [hsplit]
      obtain ⟨ints, -, -, -, hpacked⟩ := exists_packed hg hq ha hmap hr hkind hstop hp
      exact ⟨_, bind_ok_iff.2 ⟨_, hpacked, rfl⟩, trivial⟩)
    trivial
  exact ⟨blob, bind_ok_iff.2 ⟨r, hregion, hblob⟩⟩

/-- **What the blob is made of**: the packed parameters at their offsets, and
zeros where no parameter is. -/
theorem parameterBlob_pieces (hg : g.WellFormed) (hq : g.Quantized) (ha : g.Arranged)
    (hmap : map.Sound g chunkSize bound) (h : g.parameterBlob map = .ok blob) :
    map.base .parameters + blob.size = map.stop .parameters ∧
      (∀ p ∈ map.parameterOffsets, ∃ d, packedParameter (g.tensor p.1) = .ok d ∧
        blob.HoldsAt p.2 d) ∧
      ∀ a, (∀ p ∈ map.parameterOffsets, a < p.2 ∨ p.2 + (g.tensor p.1).memorySize ≤ a) →
        blob.getD a 0 = 0 := by
  unfold parameterBlob at h
  obtain ⟨r, hregion, h⟩ := bind_ok_iff.1 h
  obtain ⟨r', hregion', hr, hkind, hbase, hstop, -⟩ := hmap.region_ok .parameters
  obtain rfl : r = r' := Except.ok.inj (hregion.symm.trans hregion')
  have hslot {p : TensorId × Nat} (hp : p ∈ map.parameterOffsets) :=
    exists_packed hg hq ha hmap hr hkind hstop hp
  have hsize : ∀ p ∈ map.parameterOffsets, ∀ d, packedParameter (g.tensor p.1) = .ok d →
      d.size = (g.tensor p.1).memorySize := by
    intro p hp d hd
    obtain ⟨ints, -, -, -, hpacked⟩ := hslot hp
    obtain rfl := Except.ok.inj (hpacked.symm.trans hd)
    exact Image.size_pack_tensor _ _
  have hnodup : map.parameterOffsets.Pairwise fun p q => p.1 ≠ q.1 :=
    List.pairwise_map.1 (hmap.parameter_ids ▸ hg.nodup_parameters)
  obtain ⟨hblob, hall, hkeep⟩ := foldlM_splice_ok (fun id => packedParameter (g.tensor id))
    (fun p hp d hd => by
      obtain ⟨-, -, -, hfit, -⟩ := hslot hp
      rw [hsize p hp d hd, Array.size_replicate]
      exact hfit)
    (hnodup.imp_of_mem fun {p q} hp hq hne d e hd he => by
      obtain ⟨-, -, hxp, -, -⟩ := hslot hp
      obtain ⟨-, -, hxq, -, -⟩ := hslot hq
      have hapart := hmap.apart _ _ _ _ hxp hxq (by simpa using hne)
      simp only [Extent.Apart, Extent.stop] at hapart
      rw [hsize p hp d hd, hsize q hq e he]
      omega)
    h
  rw [Array.size_replicate] at hblob
  refine ⟨by rw [← hbase, hblob, ← hstop]; rfl, hall, fun a hout => ?_⟩
  -- a byte that is zero at first and in no slot is a piece of data that every
  -- splice leaves alone
  have hzero : Bytes.HoldsAt (Array.replicate r.size 0) a #[0] := by
    intro i hi
    obtain rfl : i = 0 := by simpa using hi
    rw [Array.getD_eq_getD_getElem?, Array.getElem?_replicate]
    split <;> rfl
  refine hkeep a #[0] hzero (fun p hp e he => ?_) 0 (by simp)
  rw [hsize p hp e he]
  exact hout p hp

/-- **The blob holds every parameter** at its distance from the base of the
region. -/
theorem parameterBlob_ok (hg : g.WellFormed) (hq : g.Quantized) (ha : g.Arranged)
    (hmap : map.Sound g chunkSize bound) (h : g.parameterBlob map = .ok blob) :
    map.base .parameters + blob.size = map.stop .parameters ∧
      ∀ id < g.tensors.size, (g.tensor id).kind.isParameter →
        ∃ ints offset, (g.tensor id).ints = some ints ∧
          (g.tensor id).address = some (map.base .parameters + offset) ∧
          offset + (g.tensor id).memorySize ≤ blob.size ∧
          blob.HoldsAt offset (pack ints (g.tensor id).shape (g.tensor id).padded
            (g.tensor id).element.width) := by
  obtain ⟨hend, hall, -⟩ := parameterBlob_pieces hg hq ha hmap h
  obtain ⟨r, -, hr, hkind, hbase, hstop, -⟩ := hmap.region_ok .parameters
  refine ⟨hend, fun id hid hparam => ?_⟩
  have hmem : id ∈ map.parameterOffsets.map (·.1) :=
    hmap.parameter_ids ▸ hg.mem_parameters.2 ⟨hid, hparam⟩
  obtain ⟨p, hp, rfl⟩ := List.mem_map.1 hmem
  obtain ⟨ints, hints, -, hfit, hpacked⟩ := exists_packed hg hq ha hmap hr hkind hstop hp
  obtain ⟨d, hd, hholds⟩ := hall p hp
  obtain rfl := Except.ok.inj (hpacked.symm.trans hd)
  have hsize : blob.size = r.size := by
    simp only [Region.stop] at hstop
    omega
  refine ⟨ints, p.2, hints, ?_, hsize ▸ hfit, hholds⟩
  rw [← hbase]
  exact hmap.parameter_offset r hr hkind p hp

/-- **Where an image holds the blob, every parameter reads as its integers.** -/
theorem readTensor_parameter (hg : g.WellFormed) (hq : g.Quantized) (ha : g.Arranged)
    (hmap : map.Sound g chunkSize bound) (h : g.parameterBlob map = .ok blob) {image : Image}
    (hblob : image.Holds (map.base .parameters) blob) (hsize : map.stop .parameters ≤ image.size)
    {id : TensorId} (hid : id < g.tensors.size) (hparam : (g.tensor id).kind.isParameter) :
    ∃ ints address, (g.tensor id).ints = some ints ∧ (g.tensor id).address = some address ∧
      image.readTensor address (g.tensor id) = .ok ints := by
  obtain ⟨hend, hall⟩ := parameterBlob_ok hg hq ha hmap h
  obtain ⟨ints, offset, hints, haddress, hfit, hholds⟩ := hall id hid hparam
  obtain ⟨ints', hints', hcount, hcontains⟩ := hq.ints id hid hparam
  obtain rfl : ints = ints' := Option.some.inj (hints.symm.trans hints')
  refine ⟨ints, _, hints, haddress, ?_⟩
  rw [Image.readTensor_of_holds (ha.laid id hid) (by omega) hcount,
    ElementType.map_reduce_of_contains hcontains]
  intro i hi
  rw [Image.size_pack_tensor] at hi
  rw [← hholds i (by rwa [Image.size_pack_tensor]), ← hblob (offset + i) (by omega), Nat.add_assoc]

end Graph

end QuantAccel
