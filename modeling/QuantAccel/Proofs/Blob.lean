import QuantAccel.Proofs.Compile

/-!
# The bytes of the parameters

The blob has no header: what is in it is found by the offsets of the memory plan
and by nothing else. For a scheduled graph the offsets are right. Every
parameter unpacks from the slice at its offset, also after the blob was written
into an image, and outside of these slices the blob is zero
(`parameterBlob_roundTrip`).
-/

namespace QuantAccel

/-- Data is cut out of the bytes that hold it. -/
theorem Bytes.HoldsAt.extract_eq {b data : Bytes} {base : Nat} (h : b.HoldsAt base data)
    (hfit : base + data.size ≤ b.size) : b.extract base (base + data.size) = data := by
  have hread : Image.read { bytes := b } base data.size = .ok data :=
    Image.read_eq_ok_iff.2 ⟨hfit, h⟩
  rw [Image.read_eq_ok hfit] at hread
  exact Except.ok.inj hread

namespace Graph

variable {g placed : Graph} {map : MemoryMap} {region : Region} {blob : Bytes}
    {chunkSize bound : Nat}

/-- What the blob is to a graph with its memory plan. -/
structure Encodes (g : Graph) (map : MemoryMap) (region : Region) (blob : Bytes) : Prop where
  size : blob.size = region.size
  /-- Whatever is copied into the blob fits there. -/
  fits : ∀ p ∈ map.parameterOffsets, ∃ data, packedParameter (g.tensor p.1) = .ok data ∧
    data.size = (g.tensor p.1).memorySize ∧ p.2 + data.size ≤ blob.size
  /-- A parameter is in the slice at its offset. -/
  unpacks : ∀ id < g.tensors.size, (g.tensor id).kind.isParameter →
    ∃ offset layout ints, map.parameterOffset? id = some offset ∧
      (g.tensor id).layout = some layout ∧
      (g.tensor id).ints = some ints ∧
      unpack (blob.extract offset (offset + (g.tensor id).memorySize))
        (g.tensor id).shape layout.shape
        (g.tensor id).element.width (g.tensor id).element.signed = ints
  /-- Nothing is between the slices. -/
  gaps : ∀ a < blob.size,
    (∀ p ∈ map.parameterOffsets, ¬(p.2 ≤ a ∧ a < p.2 + (g.tensor p.1).memorySize)) →
      blob.getD a 0 = 0
  /-- In an image that the blob was written into, a parameter is at its
  address. -/
  reads : ∀ image image' : Image, image.write region.base blob = .ok image' →
    ∀ id < g.tensors.size, (g.tensor id).kind.isParameter →
      ∃ address ints, (g.tensor id).address = some address ∧ (g.tensor id).ints = some ints ∧
        image'.readTensor address (g.tensor id) = .ok ints

section Encodes

variable (hg : g.WellFormed) (hq : g.Quantized) (ha : g.Arranged)
    (hmap : map.Sound g chunkSize bound)
include hg hq ha hmap

/-- A parameter with an offset of the plan is in the slice there. -/
theorem unpack_slice (hblob : g.parameterBlob map = .ok blob) {p : TensorId × Nat}
    (hp : p ∈ map.parameterOffsets) (hfit : p.2 + (g.tensor p.1).memorySize ≤ blob.size)
    {layout : Layout} (hlayout : (g.tensor p.1).layout = some layout) :
    (g.tensor p.1).ints = some (unpack (blob.extract p.2 (p.2 + (g.tensor p.1).memorySize))
      (g.tensor p.1).shape layout.shape (g.tensor p.1).element.width
        (g.tensor p.1).element.signed) := by
  obtain ⟨-, hall, -⟩ := parameterBlob_pieces hg hq ha hmap hblob
  obtain ⟨data, hdata, hholds⟩ := hall p hp
  obtain ⟨hid, hparam⟩ := hg.mem_parameters.1 (hmap.parameter_ids ▸ List.mem_map_of_mem hp)
  obtain ⟨ints, hints, hcount, hcontains⟩ := hq.ints p.1 hid hparam
  have hlaid := ha.laid p.1 hid
  have hpadded : (g.tensor p.1).padded = layout.shape := by simp [Tensor.padded, hlayout]
  obtain rfl := Except.ok.inj ((packedParameter_ok hlaid hints).symm.trans hdata)
  have hslice := hholds.extract_eq (by rwa [Image.size_pack_tensor])
  rw [Image.size_pack_tensor] at hslice
  rw [hslice, ← hpadded, unpack_pack hlaid.fits hlaid.positive hcount,
    ElementType.map_reduce_of_contains hcontains, hints]

/-- **The blob encodes the parameters** of every graph that is quantized,
arranged and placed. -/
theorem encodes_parameterBlob (hr : map.region .parameters = .ok region)
    (hblob : g.parameterBlob map = .ok blob) : g.Encodes map region blob := by
  obtain ⟨r, hr', hmem, hkind, hbase, hstop, -⟩ := hmap.region_ok .parameters
  obtain rfl : region = r := Except.ok.inj (hr.symm.trans hr')
  obtain ⟨hend, -, hzero⟩ := parameterBlob_pieces hg hq ha hmap hblob
  have hsize : blob.size = region.size := by
    simp only [Region.stop] at hstop
    omega
  have hslot {p : TensorId × Nat} (hp : p ∈ map.parameterOffsets) :=
    exists_packed hg hq ha hmap hmem hkind hstop hp
  refine ⟨hsize, fun p hp => ?_, fun id hid hparam => ?_, fun a _ hout => ?_, ?_⟩
  · obtain ⟨ints, -, -, hfit, hpacked⟩ := hslot hp
    refine ⟨_, hpacked, Image.size_pack_tensor _ _, ?_⟩
    rw [Image.size_pack_tensor, hsize]
    exact hfit
  · have hids : id ∈ map.parameterOffsets.map (·.1) :=
      hmap.parameter_ids ▸ hg.mem_parameters.2 ⟨hid, hparam⟩
    obtain ⟨p, hp, rfl⟩ := List.mem_map.1 hids
    obtain ⟨-, -, -, hfit, -⟩ := hslot hp
    obtain ⟨layout, hlayout, -⟩ := (ha.laid p.1 hid).exists_layout
    have hnodup : (map.parameterOffsets.map (·.1)).Nodup := hmap.parameter_ids ▸ hg.nodup_parameters
    exact ⟨p.2, layout, _, lookup_of_mem hnodup hp, hlayout,
      unpack_slice hg hq ha hmap hblob hp (hsize ▸ hfit) hlayout, rfl⟩
  · refine hzero a fun p hp => ?_
    have := hout p hp
    omega
  · intro image image' hwrite id hid hparam
    obtain ⟨hholds, hchanges⟩ := Image.holds_of_write hwrite
    have hin := (Image.write_eq_ok.1 hwrite).1.inBounds
    have hroom : map.stop .parameters ≤ image'.size := by
      rw [hchanges.size, ← hend, ← hbase]
      exact hin
    obtain ⟨ints, address, hints, haddress, hread⟩ :=
      readTensor_parameter hg hq ha hmap hblob (hbase ▸ hholds) hroom hid hparam
    exact ⟨address, ints, haddress, hints, hread⟩

end Encodes

/-- **The blob of a scheduled graph.** Whatever memory plan the graph is placed
by, the blob can be put together, each copy into it lies in the region of the
parameters, and it encodes them. -/
theorem parameterBlob_roundTrip (hg : g.Scheduled)
    (h : g.planMemory chunkSize bound = (.ok map, placed)) :
    ∃ region blob, map.region .parameters = .ok region ∧ placed.parameterBlob map = .ok blob ∧
      placed.Encodes map region blob := by
  obtain ⟨g₀, ranges, q, c, requests, hfinished, hq, hs⟩ := hg
  obtain ⟨-, -, hwell, hquantized, harranged⟩ := scheduled_spec hfinished.wellFormed hq hs
  obtain ⟨hadds, hsound⟩ := planMemory_ok hwell h
  have hwell' := hadds.sameDeclaration.wellFormed hwell
  have hquantized' := hquantized.of_logical_eq hadds.logical
  have harranged' := hadds.arranged harranged
  obtain ⟨region, hregion, -⟩ := hsound.region_ok .parameters
  obtain ⟨blob, hblob⟩ := exists_parameterBlob hwell' hquantized' harranged' hsound
  exact ⟨region, blob, hregion, hblob,
    encodes_parameterBlob hwell' hquantized' harranged' hsound hregion hblob⟩

/-- The bytes of the parameters of the dense layer. -/
def denseBlob : Except CompileError Bytes := do
  let (s, map) ← densePlan
  ((s.planMemory 4 64).2.parameterBlob map).mapError .graph

/-- Six weights of five bits, two bytes of bias, and the gaps up to the next
chunk. -/
theorem parameterBlob_roundTrip_dense :
    ∃ (s placed : Graph) (map : MemoryMap) (region : Region), s.Scheduled ∧
    s.planMemory 4 64 = (.ok map, placed) ∧ map.region .parameters = .ok region ∧
    placed.parameterBlob map = .ok #[4, 63, 128, 132, 6, 0, 0, 0, 64, 129, 0, 0] ∧
    placed.Encodes map region #[4, 63, 128, 132, 6, 0, 0, 0, 64, 129, 0, 0] := by
  have hbytes : denseBlob.toOption = some #[4, 63, 128, 132, 6, 0, 0, 0, 64, 129, 0, 0] := by
    decide +kernel
  rw [toOption_eq_some_iff] at hbytes
  simp only [denseBlob, densePlan, bind_ok_iff, mapError_ok_iff, pure_ok_iff] at hbytes
  obtain ⟨_, ⟨g, hfinish, q, hq, s, hs, map, hmap, rfl⟩, hblob⟩ := hbytes
  have hscheduled : Scheduled s := ⟨g, _, q, _, _, ⟨_, hfinish⟩, hq, hs⟩
  have hplan : s.planMemory 4 64 = (.ok map, (s.planMemory 4 64).2) := Prod.ext hmap rfl
  obtain ⟨region, blob, hregion, hblob', hencodes⟩ := parameterBlob_roundTrip hscheduled hplan
  obtain rfl := Except.ok.inj (hblob'.symm.trans hblob)
  exact ⟨s, _, map, region, hscheduled, hplan, hregion, hblob', hencodes⟩

end Graph

end QuantAccel
