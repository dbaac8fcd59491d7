import QuantAccel.Proofs.Allocation
import QuantAccel.Proofs.Quantization

/-!
# The memory plan

A plan that succeeds stacks everything that has a place in memory, region after
region: inputs and outputs, parameters, reference slots, intermediates, and the
handshake chunk on top. Each tensor is then at the address of its extent in that
stack, whether or not it had an address before, since an address that was given
is only ever given again.
-/

namespace QuantAccel

/-- What has a place in memory. -/
inductive Entity where
  | tensor (id : TensorId)
  | reference (output : TensorId)
  | handshake
  deriving Repr, DecidableEq

/-- One value for each region. -/
def RegionKind.select {α : Type} (activations parameters reference scratch : α) : RegionKind → α
  | .activations => activations
  | .parameters => parameters
  | .reference => reference
  | .scratch => scratch

/-- The region for tensors of a kind. -/
def TensorKind.region : TensorKind → RegionKind
  | placeholder | output => .activations
  | trained _ | fixed _ => .parameters
  | intermediate => .scratch

/-- No tensor lives in the region of the references; only copies of outputs
do. -/
theorem TensorKind.region_ne_reference (k : TensorKind) : k.region ≠ .reference := by
  cases k <;> simp [region]

/-- The region that an entity belongs to. -/
def Graph.home (g : Graph) : Entity → RegionKind
  | .tensor id => (g.tensor id).kind.region
  | .reference _ => .reference
  | .handshake => .scratch

namespace MemoryMap

/-- The bytes of an entity, if it has a place. -/
def extent? (map : MemoryMap) (g : Graph) : Entity → Option Extent
  | .tensor id => (g.tensor id).address.map fun address => ⟨address, (g.tensor id).memorySize⟩
  | .reference id =>
    (map.referenceAddress? id).map fun address => ⟨address, (g.tensor id).memorySize⟩
  | .handshake => some ⟨map.handshake, map.chunkSize⟩

/-- Regions one after the other from `start` to `stop`, without gaps. -/
def Contiguous : (start : Nat) → List Region → (stop : Nat) → Prop
  | start, [], stop => stop = start
  | start, r :: regions, stop => r.base = start ∧ Contiguous r.stop regions stop

/-- What a memory plan says about a graph that is placed by it. -/
structure Sound (map : MemoryMap) (g : Graph) (chunkSize bound : Nat) : Prop where
  chunkSize_eq : map.chunkSize = chunkSize
  kinds : map.regions.map (·.kind) = [.activations, .parameters, .reference, .scratch]
  contiguous : Contiguous 0 map.regions map.size
  regions_dvd : ∀ r ∈ map.regions, chunkSize ∣ r.base ∧ chunkSize ∣ r.size
  size_le : map.size ≤ bound
  addressed : ∀ id < g.tensors.size, (g.tensor id).address.isSome
  inside : ∀ e x, map.extent? g e = some x →
    ∃ r ∈ map.regions, r.kind = g.home e ∧ r.base ≤ x.base ∧ x.stop ≤ r.stop
  base_dvd : ∀ e x, map.extent? g e = some x → chunkSize ∣ x.base
  apart : ∀ e x e' x', map.extent? g e = some x → map.extent? g e' = some x' → e ≠ e' → x.Apart x'
  below_handshake : ∀ e x, map.extent? g e = some x → e ≠ .handshake → x.stop ≤ map.handshake
  reference_ids : map.reference.map (·.1) = g.outputs
  reference_extent : ∀ p ∈ map.reference,
    map.extent? g (.reference p.1) = some ⟨p.2, (g.tensor p.1).memorySize⟩
  parameter_ids : map.parameterOffsets.map (·.1) = g.trained ++ g.fixed
  parameter_offset : ∀ r ∈ map.regions, r.kind = .parameters → ∀ p ∈ map.parameterOffsets,
    (g.tensor p.1).address = some (r.base + p.2)

end MemoryMap

namespace Graph

variable {g g' g'' placed : Graph} {chunkSize bound : Nat} {map : MemoryMap}

/-! ## Giving addresses -/

/-- The second graph is the first with more addresses. -/
structure AddsAddresses (g g' : Graph) : Prop where
  logical : g'.logical = g.logical
  operators : g'.operators = g.operators
  layout : ∀ id, (g'.tensor id).layout = (g.tensor id).layout
  stays : ∀ id address, (g.tensor id).address = some address → (g'.tensor id).address = some address

namespace AddsAddresses

theorem refl (g : Graph) : AddsAddresses g g :=
  ⟨rfl, rfl, fun _ => rfl, fun _ _ h => h⟩

/-- Addresses are added stage by stage. -/
theorem trans (h : AddsAddresses g g') (h' : AddsAddresses g' g'') : AddsAddresses g g'' where
  logical := h'.logical.trans h.logical
  operators := h'.operators.trans h.operators
  layout id := (h'.layout id).trans (h.layout id)
  stays id address ha := h'.stays id address (h.stays id address ha)

theorem sameDeclaration (h : AddsAddresses g g') : SameDeclaration g g' :=
  Graph.sameDeclaration (declared_eq_of_logical_eq h.logical)

/-- An address does not change the size of a tensor. -/
theorem memorySize (h : AddsAddresses g g') (id : TensorId) :
    (g'.tensor id).memorySize = (g.tensor id).memorySize := by
  have hsame := h.sameDeclaration
  rw [Tensor.memorySize, Tensor.memorySize, h.layout, Tensor.volume, Tensor.volume, hsame.shape,
    hsame.element]

theorem sized (h : AddsAddresses g g') (ids : List TensorId) : g'.sized ids = g.sized ids := by
  simp only [Graph.sized, h.memorySize, h.sameDeclaration.name]

end AddsAddresses

/-- An address is assigned once; a second one has to be the same. -/
theorem assignAddress_ok {t t' : Tensor} {address : Nat} (h : t.assignAddress address = .ok t') :
    t' = { t with address := some address } ∧ (t.address = none ∨ t.address = some address) := by
  unfold Tensor.assignAddress at h
  split at h
  · rename_i hnone
    exact ⟨(Except.ok.inj h).symm, .inl hnone⟩
  · rename_i existing hsome
    split at h
    · rename_i heq
      obtain rfl := Except.ok.inj h
      subst heq
      exact ⟨by rw [← hsome], .inr hsome⟩
    · cases h

theorem tensor_modifyTensor {id : TensorId} {t : Tensor} (hid : id < g.tensors.size)
    (j : TensorId) :
    (g.modifyTensor id fun _ => t).tensor j = if id = j then t else g.tensor j := by
  simp only [tensor, modifyTensor, Array.getD_eq_getD_getElem?, Array.getElem?_modify]
  split
  · subst j
    simp [hid]
  · rfl

/-- Giving one address. -/
theorem addsAddresses_modify {id : TensorId} {address : Nat} (hid : id < g.tensors.size)
    (hfree : (g.tensor id).address = none ∨ (g.tensor id).address = some address) :
    AddsAddresses g (g.modifyTensor id fun _ => { g.tensor id with address := some address }) := by
  have hat := tensor_modifyTensor (t := { g.tensor id with address := some address }) hid
  refine ⟨?_, rfl, fun j => ?_, fun j a ha => ?_⟩
  · simp only [logical, modifyTensor]
    congr 1
    refine map_modify_eq fun t ht => ?_
    rw [tensor, Array.getD_eq_getD_getElem?, ht]
    rfl
  · rw [hat]
    split
    · subst j; rfl
    · rfl
  · rw [hat]
    split
    · subst j
      rcases hfree with hfree | hfree
      · rw [hfree] at ha; cases ha
      · exact hfree.symm.trans ha
    · exact ha

/-- **Addresses that were assigned are there**, and everything else stays. -/
theorem assignAddresses_ok {slots : List (TensorId × Nat)} {u : Unit}
    (hids : ∀ p ∈ slots, p.1 < g.tensors.size)
    (h : runFrom (assignAddresses slots) g = (.ok u, g')) :
    AddsAddresses g g' ∧ ∀ p ∈ slots, (g'.tensor p.1).address = some p.2 := by
  unfold assignAddresses at h
  induction slots generalizing g with
  | nil =>
    obtain rfl := runFrom_forM_nil.1 h
    exact ⟨.refl _, fun p hp => absurd hp List.not_mem_nil⟩
  | cons p slots ih =>
    obtain ⟨id, address⟩ := p
    obtain ⟨g₁, h₁, h⟩ := runFrom_forM_cons.1 h
    simp only [runFrom_bind_ok, runFrom_get, Prod.mk.injEq, Except.ok.injEq] at h₁
    obtain ⟨_, _, ⟨rfl, rfl⟩, h₁⟩ := h₁
    have hid : id < g.tensors.size := hids _ List.mem_cons_self
    split at h₁
    · rename_i t ht
      obtain ⟨rfl, hfree⟩ := assignAddress_ok ht
      obtain ⟨-, rfl⟩ := Prod.mk.inj h₁
      have hadd := addsAddresses_modify hid hfree
      have hsize := hadd.sameDeclaration.tensors_size
      obtain ⟨hadd', hall⟩ := ih (fun p hp => hsize ▸ hids p (List.mem_cons_of_mem _ hp)) h
      refine ⟨hadd.trans hadd', fun p hp => ?_⟩
      rcases List.mem_cons.1 hp with rfl | hp
      · refine hadd'.stays id address ?_
        rw [tensor_modifyTensor hid, if_pos rfl]
      · exact hall p hp
    · cases h₁

/-- Placing tensors in a region gives each the address at its place in the
list, and no tensor loses one. -/
theorem placeTensors_ok {kind : RegionKind} {ids : List TensorId} {base : Nat}
    {addresses : List Nat} {region : Region} (hids : ∀ id ∈ ids, id < g.tensors.size)
    (h : runFrom (placeTensors chunkSize bound kind ids base) g = (.ok (addresses, region), g')) :
    placeRegion chunkSize bound kind (g.sized ids) base = .ok (addresses, region) ∧
      AddsAddresses g g' ∧ ∀ p ∈ ids.zip addresses, (g'.tensor p.1).address = some p.2 := by
  simp only [placeTensors, runFrom_bind_ok, runFrom_get, runFrom_liftM, runFrom_pure, Prod.mk.injEq,
    Except.ok.injEq] at h
  obtain ⟨_, _, ⟨rfl, rfl⟩, ⟨_, _⟩, _, ⟨hregion, rfl⟩, _, _, hassign, ⟨rfl, rfl⟩, rfl⟩ := h
  exact ⟨hregion, assignAddresses_ok (fun p hp => hids _ (List.of_mem_zip hp).1) hassign⟩

/-! ## The plan as a stack -/

/-- A table without repeated keys gives the entry of each key. -/
theorem lookup_of_mem {β : Type} {l : List (TensorId × β)} (hnodup : (l.map (·.1)).Nodup)
    {p : TensorId × β} (hp : p ∈ l) : l.lookup p.1 = some p.2 := by
  obtain ⟨before, after, rfl⟩ := List.append_of_mem hp
  refine List.lookup_eq_some_iff.2 ⟨before, after, rfl, fun q hq => ?_⟩
  rw [List.map_append, List.nodup_append] at hnodup
  have hne := hnodup.2.2 q.1 (List.mem_map_of_mem hq) p.1 (by simp)
  simpa using hne.symm

/-- The parts of a plan that succeeds. The four regions hold stacks, each on top
of the one before it, and tensors have the addresses of their extents. -/
structure Stacks (g placed : Graph) (map : MemoryMap) (chunkSize bound : Nat)
    (regions : RegionKind → Region) (slots : RegionKind → List (TensorId × Nat)) : Prop where
  chunk_pos : 0 < chunkSize
  adds : AddsAddresses g placed
  kind : ∀ k, (regions k).kind = k
  size_dvd : ∀ k, chunkSize ∣ (regions k).size
  base_activations : (regions .activations).base = 0
  base_parameters : (regions .parameters).base = (regions .activations).stop
  base_reference : (regions .reference).base = (regions .parameters).stop
  base_scratch : (regions .scratch).base = (regions .reference).stop
  ids_activations : (slots .activations).map (·.1) = g.placeholders ++ g.outputs
  ids_parameters : (slots .parameters).map (·.1) = g.trained ++ g.fixed
  ids_reference : (slots .reference).map (·.1) = g.outputs
  ids_scratch : (slots .scratch).map (·.1) = g.intermediates
  addresses : ∀ k ≠ .reference, ∀ p ∈ slots k, (placed.tensor p.1).address = some p.2
  stack : ∀ k, Stacked chunkSize (regions k).base
    (((slots k).map fun p => ⟨p.2, (g.tensor p.1).memorySize⟩) ++
      if k = .scratch then [⟨map.handshake, chunkSize⟩] else []) (regions k).stop
  size_le : (regions .scratch).stop ≤ bound
  map_eq : map = {
    chunkSize
    regions := [regions .activations, regions .parameters, regions .reference, regions .scratch]
    reference := slots .reference
    parameterOffsets := (slots .parameters).map fun p => (p.1, p.2 - (regions .parameters).base)
    handshake := map.handshake
    size := (regions .scratch).stop }

theorem zip_append_singleton {α β : Type} {l : List α} {front : List β}
    (hlen : front.length = l.length) (last : β) : l.zip (front ++ [last]) = l.zip front := by
  calc l.zip (front ++ [last])
      = (l ++ []).zip (front ++ [last]) := by rw [List.append_nil]
    _ = l.zip front ++ [].zip [last] := List.zip_append hlen.symm
    _ = l.zip front := by simp

/-- The parts of a plan that succeeds, as they are made: the addresses in each
region, and the graph in which the tensors have them. -/
structure Placed (g placed : Graph) (map : MemoryMap) (chunkSize bound : Nat)
    (addresses : RegionKind → List Nat) (regions : RegionKind → Region) : Prop where
  adds : AddsAddresses g placed
  activations : placeRegion chunkSize bound .activations (g.sized (g.placeholders ++ g.outputs)) 0 =
    .ok (addresses .activations, regions .activations)
  parameters : placeRegion chunkSize bound .parameters (g.sized (g.trained ++ g.fixed))
    (regions .activations).stop = .ok (addresses .parameters, regions .parameters)
  reference : placeRegion chunkSize bound .reference
    ((g.sized g.outputs).map fun p => (p.1 ++ ".reference", p.2)) (regions .parameters).stop =
      .ok (addresses .reference, regions .reference)
  scratch : placeRegion chunkSize bound .scratch
    (g.sized g.intermediates ++ [("handshake", chunkSize)])
    (regions .reference).stop = .ok (addresses .scratch, regions .scratch)
  at_activations : ∀ p ∈ (g.placeholders ++ g.outputs).zip (addresses .activations),
    (placed.tensor p.1).address = some p.2
  at_parameters : ∀ p ∈ (g.trained ++ g.fixed).zip (addresses .parameters),
    (placed.tensor p.1).address = some p.2
  at_scratch : ∀ p ∈ g.intermediates.zip (addresses .scratch),
    (placed.tensor p.1).address = some p.2
  map_eq : map = {
    chunkSize
    regions := [regions .activations, regions .parameters, regions .reference, regions .scratch]
    reference := g.outputs.zip (addresses .reference)
    parameterOffsets := (g.trained ++ g.fixed).zip
      ((addresses .parameters).map (· - (regions .parameters).base))
    handshake := (addresses .scratch).getLastD 0
    size := (regions .scratch).stop }

/-- The tensors of two kinds are tensors of the graph. -/
theorem WellFormed.lt_of_mem_append (hg : g.WellFormed) {p p' : TensorKind → Bool} :
    ∀ id ∈ g.idsWhere p ++ g.idsWhere p', id < g.tensors.size := by
  intro id hid
  rcases List.mem_append.1 hid with hid | hid
  · exact (hg.mem_idsWhere.1 hid).1
  · exact (hg.mem_idsWhere.1 hid).1

/-- **What a plan that succeeds is made of.** -/
theorem planMemory_placed (hg : g.WellFormed)
    (h : g.planMemory chunkSize bound = (.ok map, placed)) :
    ∃ addresses regions, Placed g placed map chunkSize bound addresses regions := by
  change runFrom (placeAll chunkSize bound) g = _ at h
  simp only [placeAll, runFrom_bind_ok, runFrom_get, runFrom_liftM, runFrom_pure, Prod.mk.injEq,
    Except.ok.injEq] at h
  obtain ⟨_, _, ⟨rfl, rfl⟩, ⟨addrsA, A⟩, g₁, hA, ⟨addrsP, P⟩, g₂, hP, _, _, ⟨rfl, rfl⟩,
      ⟨addrsR, R⟩, _,
    ⟨hR, rfl⟩, _, _, ⟨rfl, rfl⟩, ⟨addrsS, S⟩, _, ⟨hS, rfl⟩, _, g₃, hassign, rfl, rfl⟩ := h
  -- addresses are given in three steps, which leave the sizes alone
  obtain ⟨hA, hadd₁, haddrA⟩ := placeTensors_ok hg.lt_of_mem_append hA
  have hsize₁ := hadd₁.sameDeclaration.tensors_size
  obtain ⟨hP, hadd₂, haddrP⟩ :=
    placeTensors_ok (fun id hid => hsize₁ ▸ hg.lt_of_mem_append id hid) hP
  have hadd₁₂ := hadd₁.trans hadd₂
  have hsize₂ := hadd₁₂.sameDeclaration.tensors_size
  obtain ⟨hadd₃, haddrS⟩ := assignAddresses_ok
    (fun p hp => hsize₂ ▸ (hg.mem_idsWhere.1 (List.of_mem_zip hp).1).1) hassign
  rw [hadd₁.sized] at hP
  rw [hadd₁₂.sized] at hR hS
  refine ⟨RegionKind.select addrsA addrsP addrsR addrsS, RegionKind.select A P R S,
    hadd₁₂.trans hadd₃,
    hA, hP, hR, hS, fun p hp => ?_, fun p hp => hadd₃.stays _ _ (haddrP p hp), haddrS, rfl⟩
  exact hadd₃.stays _ _ (hadd₂.stays _ _ (haddrA p hp))

/-- **A plan that succeeds is made of stacks.** -/
theorem planMemory_stacks (hg : g.WellFormed)
    (h : g.planMemory chunkSize bound = (.ok map, placed)) :
    ∃ regions slots, Stacks g placed map chunkSize bound regions slots := by
  obtain ⟨addresses, regions, hplaced⟩ := planMemory_placed hg h
  obtain ⟨hpos, hlenA, hkindA, hbaseA, -, hdvdA, hstackA, -⟩ :=
    placeRegion_ok (Nat.dvd_zero _) hplaced.activations
  have hstopA : chunkSize ∣ (regions .activations).stop :=
    hstackA.dvd_stop (hbaseA ▸ Nat.dvd_zero _)
  obtain ⟨-, hlenP, hkindP, hbaseP, hdvdP', hdvdP, hstackP, -⟩ :=
    placeRegion_ok hstopA hplaced.parameters
  have hstopP : chunkSize ∣ (regions .parameters).stop := hstackP.dvd_stop hdvdP'
  obtain ⟨-, hlenR, hkindR, hbaseR, hdvdR', hdvdR, hstackR, -⟩ :=
    placeRegion_ok hstopP hplaced.reference
  have hstopR : chunkSize ∣ (regions .reference).stop := hstackR.dvd_stop hdvdR'
  obtain ⟨-, hlenS, hkindS, hbaseS, -, hdvdS, hstackS, hbound⟩ :=
    placeRegion_ok hstopR hplaced.scratch
  -- the last address in scratch is that of the handshake chunk
  simp only [sized, List.length_append, List.length_map, List.length_cons, List.length_nil] at hlenS
  simp only [sized, List.length_map] at hlenA hlenP hlenR
  obtain ⟨front, last, hscratch⟩ : ∃ front last, addresses .scratch = front ++ [last] :=
    have hne : addresses .scratch ≠ [] := List.ne_nil_of_length_pos (by omega)
    ⟨_, _, (List.dropLast_append_getLast hne).symm⟩
  have hlenF : front.length = g.intermediates.length := by simpa [hscratch] using hlenS
  have hzip := zip_append_singleton hlenF last
  have hlast : (addresses .scratch).getLastD 0 = last := by simp [hscratch]
  have haddrS := hplaced.at_scratch
  rw [hscratch, hzip] at haddrS
  rw [hscratch, extentsOf_append (by simpa [sized] using hlenF), sized, extentsOf_map] at hstackS
  rw [sized, extentsOf_map] at hstackA hstackP
  rw [sized, List.map_map, extentsOf_map] at hstackR
  have hmap := hplaced.map_eq
  rw [hlast] at hmap
  subst hmap
  refine ⟨regions, RegionKind.select ((g.placeholders ++ g.outputs).zip (addresses .activations))
    ((g.trained ++ g.fixed).zip (addresses .parameters)) (g.outputs.zip (addresses .reference))
    (g.intermediates.zip front),
    ⟨hpos, hplaced.adds, ?_, ?_, hbaseA, hbaseP, hbaseR, hbaseS, ?_, ?_, ?_, ?_, ?_, ?_,
      hbound (by simp), ?_⟩⟩
  · rintro (_ | _ | _ | _) <;> assumption
  · rintro (_ | _ | _ | _) <;> assumption
  · exact List.map_fst_zip hlenA.ge
  · exact List.map_fst_zip hlenP.ge
  · exact List.map_fst_zip hlenR.ge
  · exact List.map_fst_zip hlenF.ge
  · rintro (_ | _ | _ | _) hk p hp
    · exact hplaced.at_activations p hp
    · exact hplaced.at_parameters p hp
    · exact absurd rfl hk
    · exact haddrS p hp
  · rintro (_ | _ | _ | _)
    · simpa [RegionKind.select] using hstackA
    · simpa [RegionKind.select] using hstackP
    · simpa [RegionKind.select] using hstackR
    · simpa [RegionKind.select, extentsOf] using hstackS
  · simp only [List.zip_map_right]
    rfl

namespace Stacks

variable {regions : RegionKind → Region} {slots : RegionKind → List (TensorId × Nat)}
variable (h : Stacks g placed map chunkSize bound regions slots)

/-- What stands in a region for a tensor. -/
def entity : RegionKind → TensorId → Entity
  | .reference => .reference
  | _ => .tensor

/-- The entities of a region with their extents, apart from the handshake
chunk. -/
def entries (g : Graph) (slots : RegionKind → List (TensorId × Nat)) (k : RegionKind) :
    List (Entity × Extent) :=
  (slots k).map fun p => (entity k p.1, ⟨p.2, (g.tensor p.1).memorySize⟩)

/-- The extents of the entries of a region, read off along its slots. -/
theorem snd_entries (k : RegionKind) :
    (entries g slots k).map (·.2) = (slots k).map fun p => ⟨p.2, (g.tensor p.1).memorySize⟩ := by
  simp [entries]

include h

/-- The four regions stand in the map in their order. -/
theorem regions_eq : map.regions =
    [regions .activations, regions .parameters, regions .reference, regions .scratch] := by
  rw [h.map_eq]

/-- A region of the map is one of the four. -/
theorem mem_regions {r : Region} : r ∈ map.regions ↔ ∃ k, r = regions k := by
  rw [h.regions_eq]
  simp only [List.mem_cons, List.not_mem_nil, or_false]
  constructor
  · rintro (rfl | rfl | rfl | rfl) <;> exact ⟨_, rfl⟩
  · rintro ⟨k, rfl⟩
    cases k <;> simp

theorem chunkSize_eq : map.chunkSize = chunkSize := by rw [h.map_eq]

theorem size_eq : map.size = (regions .scratch).stop := by rw [h.map_eq]

theorem reference_eq : map.reference = slots .reference := by rw [h.map_eq]

theorem parameterOffsets_eq : map.parameterOffsets =
    (slots .parameters).map fun p => (p.1, p.2 - (regions .parameters).base) := by
  rw [h.map_eq]

/-- The entries of a region are stacked from its base to its end. -/
theorem stack_entries {k : RegionKind} (hk : k ≠ .scratch) :
    Stacked chunkSize (regions k).base ((entries g slots k).map (·.2)) (regions k).stop := by
  have hstack := h.stack k
  rwa [if_neg hk, List.append_nil, ← snd_entries] at hstack

/-- The scratch region has one chunk more at its end, for the handshake
word. -/
theorem stack_scratch :
    Stacked chunkSize (regions .scratch).base
      ((entries g slots .scratch).map (·.2) ++ [⟨map.handshake, chunkSize⟩])
        (regions .scratch).stop := by
  have hstack := h.stack .scratch
  rwa [if_pos rfl, ← snd_entries] at hstack

/-- All regions together are one stack, with the handshake chunk on top. -/
theorem stack_all :
    Stacked chunkSize 0
      ((entries g slots .activations ++ entries g slots .parameters ++ entries g slots .reference ++
        entries g slots .scratch).map (·.2) ++ [⟨map.handshake, chunkSize⟩]) map.size := by
  have hA := h.stack_entries (k := .activations) (by decide)
  have hP := h.stack_entries (k := .parameters) (by decide)
  have hR := h.stack_entries (k := .reference) (by decide)
  have hS := h.stack_scratch
  rw [h.base_activations] at hA
  rw [h.base_parameters] at hP
  rw [h.base_reference] at hR
  rw [h.base_scratch] at hS
  have hall := ((hA.append hP).append hR).append hS
  simpa only [h.size_eq, List.map_append, List.append_assoc] using hall

/-- Every region starts at a chunk multiple. -/
theorem region_dvd (k : RegionKind) : chunkSize ∣ (regions k).base := by
  have hstop (k : RegionKind) (hbase : chunkSize ∣ (regions k).base) :
      chunkSize ∣ (regions k).stop :=
    Nat.dvd_add hbase (h.size_dvd k)
  have hA : chunkSize ∣ (regions .activations).base := h.base_activations ▸ Nat.dvd_zero _
  have hP : chunkSize ∣ (regions .parameters).base := h.base_parameters ▸ hstop _ hA
  have hR : chunkSize ∣ (regions .reference).base := h.base_reference ▸ hstop _ hP
  have hS : chunkSize ∣ (regions .scratch).base := h.base_scratch ▸ hstop _ hR
  cases k <;> assumption

/-- An entity of a region lies in the region. -/
theorem mem_region {k : RegionKind} {e : Entity} {x : Extent} (hmem : (e, x) ∈ entries g slots k) :
    (regions k).base ≤ x.base ∧ x.stop ≤ (regions k).stop := by
  have hx : x ∈ (entries g slots k).map (·.2) := List.mem_map_of_mem hmem
  by_cases hk : k = .scratch
  · subst hk
    exact (h.stack_scratch.mem h.chunk_pos (h.region_dvd _) (List.mem_append_left _ hx)).2
  · exact ((h.stack_entries hk).mem h.chunk_pos (h.region_dvd k) hx).2

/-- Every tensor has its slot in the region for its kind. -/
theorem exists_slot (hg : g.WellFormed) {id : TensorId} (hid : id < g.tensors.size) :
    ∃ address, (id, address) ∈ slots (placed.home (.tensor id)) ∧
      (placed.tensor id).address = some address := by
  have hfind {k : RegionKind} {ids : List TensorId} (hk : k ≠ .reference)
      (hids : (slots k).map (·.1) = ids) (hmem : id ∈ ids) :
      ∃ address, (id, address) ∈ slots k ∧ (placed.tensor id).address = some address := by
    obtain ⟨⟨_, address⟩, hp, rfl⟩ := List.mem_map.1 (hids ▸ hmem)
    exact ⟨address, hp, h.addresses k hk _ hp⟩
  have hlist {p : TensorKind → Bool} (hkind : p (g.tensor id).kind) : id ∈ g.idsWhere p :=
    hg.mem_idsWhere.2 ⟨hid, hkind⟩
  rw [Graph.home, h.adds.sameDeclaration.kind id]
  cases hkind : (g.tensor id).kind
  · exact hfind (TensorKind.region_ne_reference _) h.ids_activations
      (List.mem_append_left _ (hlist (by rw [hkind]; rfl)))
  · exact hfind (TensorKind.region_ne_reference _) h.ids_parameters
      (List.mem_append_left _ (hlist (by rw [hkind]; rfl)))
  · exact hfind (TensorKind.region_ne_reference _) h.ids_parameters
      (List.mem_append_right _ (hlist (by rw [hkind]; rfl)))
  · exact hfind (TensorKind.region_ne_reference _) h.ids_scratch (hlist (by rw [hkind]; rfl))
  · exact hfind (TensorKind.region_ne_reference _) h.ids_activations
      (List.mem_append_right _ (hlist (by rw [hkind]; rfl)))

/-- **Everything that has a place is in the stack of its region.** -/
theorem mem_entries (hg : g.WellFormed) {e : Entity} {x : Extent}
    (he : map.extent? placed e = some x) :
    (e, x) = (.handshake, ⟨map.handshake, chunkSize⟩) ∨
      (e ≠ .handshake ∧ (e, x) ∈ entries g slots (placed.home e)) := by
  cases e with
  | handshake =>
    obtain rfl := Option.some.inj he
    rw [h.chunkSize_eq]
    exact .inl rfl
  | tensor id =>
    obtain ⟨a, ha, rfl⟩ := Option.map_eq_some_iff.1 he
    have hid : id < g.tensors.size := by
      by_contra hout
      rw [← h.adds.sameDeclaration.tensors_size] at hout
      simp [tensor, Array.getD_eq_getD_getElem?, hout] at ha
      cases ha
    obtain ⟨a', hmem, ha'⟩ := h.exists_slot hg hid
    obtain rfl : a' = a := Option.some.inj (ha'.symm.trans ha)
    refine .inr ⟨by simp, List.mem_map.2 ⟨_, hmem, ?_⟩⟩
    have hentity : entity (placed.home (.tensor id)) id = .tensor id := by
      rw [Graph.home]
      cases (placed.tensor id).kind <;> rfl
    rw [hentity, h.adds.memorySize]
  | reference id =>
    obtain ⟨a, ha, rfl⟩ := Option.map_eq_some_iff.1 he
    rw [MemoryMap.referenceAddress?, h.reference_eq] at ha
    refine .inr ⟨by simp, List.mem_map.2 ⟨(id, a), ?_, ?_⟩⟩
    · obtain ⟨before, after, hsplit, -⟩ := List.lookup_eq_some_iff.1 ha
      rw [Graph.home, hsplit]
      simp
    · rw [h.adds.memorySize]
      rfl

/-- What has an extent, the handshake word apart, is an entry of one of the
regions. -/
theorem mem_all (hg : g.WellFormed) {e : Entity} {x : Extent} (he : map.extent? placed e = some x)
    (hne : e ≠ .handshake) :
    (e, x) ∈ entries g slots .activations ++ entries g slots .parameters ++
      entries g slots .reference ++ entries g slots .scratch := by
  obtain ⟨rfl, -⟩ | ⟨-, hmem⟩ := (h.mem_entries hg he).imp_left Prod.mk.inj
  · exact absurd rfl hne
  · simp only [List.mem_append]
    generalize placed.home e = k at hmem
    cases k <;> tauto

/-- The handshake chunk is on top. -/
theorem below_handshake (hg : g.WellFormed) {e : Entity} {x : Extent}
    (he : map.extent? placed e = some x) (hne : e ≠ .handshake) : x.stop ≤ map.handshake :=
  (List.pairwise_append.1 (h.stack_all.pairwise h.chunk_pos)).2.2 x
    (List.mem_map_of_mem (h.mem_all hg he hne)) _ (List.mem_singleton_self _)

/-- Different entities keep apart: of two below the handshake chunk, one comes
first in the stack. -/
theorem apart (hg : g.WellFormed) {e e' : Entity} {x x' : Extent}
    (he : map.extent? placed e = some x) (he' : map.extent? placed e' = some x') (hne : e ≠ e') :
    x.Apart x' := by
  by_cases hh : e = .handshake
  · subst hh
    obtain rfl := Option.some.inj he
    exact .inr (h.below_handshake hg he' hne.symm)
  by_cases hh' : e' = .handshake
  · subst hh'
    obtain rfl := Option.some.inj he'
    exact .inl (h.below_handshake hg he hne)
  -- a pairwise relation that is symmetric holds of any two different members
  let R (a b : Entity × Extent) : Prop := a.1 ≠ b.1 → a.2.Apart b.2
  have hsymm : Std.Symm R := ⟨fun a b hab hne => (hab hne.symm).symm⟩
  have hpair := List.pairwise_append.1 (h.stack_all.pairwise h.chunk_pos)
  have hordered := (List.pairwise_map.1 hpair.1).imp fun {a b} hle =>
    show R a b from fun _ => .inl hle
  exact hordered.forall_of_forall (fun a _ hne => absurd rfl hne) (h.mem_all hg he hh)
    (h.mem_all hg he' hh') hne

/-- Everything that has a place lies in its region. -/
theorem inside (hg : g.WellFormed) {e : Entity} {x : Extent} (he : map.extent? placed e = some x) :
    (regions (placed.home e)).base ≤ x.base ∧ x.stop ≤ (regions (placed.home e)).stop := by
  rcases h.mem_entries hg he with heq | ⟨-, hentry⟩
  · obtain ⟨rfl, rfl⟩ := Prod.mk.inj heq
    exact (h.stack_scratch.mem h.chunk_pos (h.region_dvd _)
      (List.mem_append_right _ (List.mem_singleton_self _))).2
  · exact h.mem_region hentry

/-- Everything that has a place starts on a chunk. -/
theorem base_dvd (hg : g.WellFormed) {e : Entity} {x : Extent}
    (he : map.extent? placed e = some x) :
    chunkSize ∣ x.base := by
  refine (h.stack_all.mem h.chunk_pos (Nat.dvd_zero _) ?_).1
  by_cases hne : e = .handshake
  · subst hne
    obtain rfl := Option.some.inj he
    rw [h.chunkSize_eq]
    exact List.mem_append_right _ (List.mem_singleton_self _)
  · exact List.mem_append_left _ (List.mem_map_of_mem (h.mem_all hg he hne))

/-- A reference has the size of the output that it is compared with. -/
theorem reference_extent (hg : g.WellFormed) {p : TensorId × Nat} (hp : p ∈ map.reference) :
    map.extent? placed (.reference p.1) = some ⟨p.2, (placed.tensor p.1).memorySize⟩ := by
  have hnodup : (map.reference.map (·.1)).Nodup := by
    rw [h.reference_eq, h.ids_reference]
    exact hg.nodup_idsWhere _
  rw [MemoryMap.extent?, MemoryMap.referenceAddress?, lookup_of_mem hnodup hp]
  rfl

/-- A parameter lies at its offset from the base of its region. -/
theorem parameter_offset {p : TensorId × Nat} (hp : p ∈ map.parameterOffsets) :
    (placed.tensor p.1).address = some ((regions .parameters).base + p.2) := by
  rw [h.parameterOffsets_eq] at hp
  obtain ⟨q, hq, rfl⟩ := List.mem_map.1 hp
  have hin := (h.mem_region (List.mem_map.2 ⟨q, hq, rfl⟩)).1
  rw [h.addresses .parameters (by decide) q hq]
  simp only [Option.some.injEq] at hin ⊢
  omega

/-- **The promises of a plan**, from its stacks. -/
theorem sound (hg : g.WellFormed) : map.Sound placed chunkSize bound where
  chunkSize_eq := h.chunkSize_eq
  kinds := by
    rw [h.regions_eq]
    simp [h.kind]
  contiguous := by
    rw [h.regions_eq]
    exact ⟨h.base_activations, h.base_parameters, h.base_reference, h.base_scratch, h.size_eq⟩
  regions_dvd r hr := by
    obtain ⟨k, rfl⟩ := h.mem_regions.1 hr
    exact ⟨h.region_dvd k, h.size_dvd k⟩
  size_le := h.size_eq ▸ h.size_le
  addressed id hid := by
    obtain ⟨address, -, haddress⟩ := h.exists_slot hg (h.adds.sameDeclaration.tensors_size ▸ hid)
    rw [haddress]
    rfl
  inside e x he := ⟨_, h.mem_regions.2 ⟨_, rfl⟩, h.kind _, h.inside hg he⟩
  base_dvd e x he := h.base_dvd hg he
  apart e x e' x' he he' hne := h.apart hg he he' hne
  below_handshake e x he hne := h.below_handshake hg he hne
  reference_ids := by
    rw [h.reference_eq, h.ids_reference]
    exact (h.adds.sameDeclaration.idsWhere hg _).symm
  reference_extent p hp := h.reference_extent hg hp
  parameter_ids := by
    have hsame := h.adds.sameDeclaration
    have hfst : ((·.1) ∘ fun p : TensorId × Nat => (p.1, p.2 - (regions .parameters).base)) =
        (·.1) := rfl
    rw [h.parameterOffsets_eq, List.map_map, hfst, h.ids_parameters, trained, fixed, trained, fixed,
      hsame.idsWhere hg, hsame.idsWhere hg]
  parameter_offset r hr hkind p hp := by
    obtain ⟨k, rfl⟩ := h.mem_regions.1 hr
    obtain rfl : k = .parameters := (h.kind k).symm.trans hkind
    exact h.parameter_offset hp

end Stacks

/-- **A plan that succeeds keeps its promises**, and changes addresses only. -/
theorem planMemory_ok (hg : g.WellFormed) (h : g.planMemory chunkSize bound = (.ok map, placed)) :
    AddsAddresses g placed ∧ map.Sound placed chunkSize bound := by
  obtain ⟨regions, slots, hstacks⟩ := planMemory_stacks hg h
  exact ⟨hstacks.adds, hstacks.sound hg⟩

/-! ## Scheduled graphs -/

/-- A graph that was finished, quantized and scheduled. -/
def Scheduled (s : Graph) : Prop :=
  ∃ g ranges q c requests, Finished g ∧ g.quantize ranges = .ok q ∧
    (q.schedule c requests).outcome = .ok s

/-- What the stages up to scheduling establish. -/
theorem scheduled_spec {q s : Graph} {ranges : ValueRanges} {c : HardwareConfig}
    {requests : AttributeRequests} (hg : g.WellFormed) (hq : g.quantize ranges = .ok q)
    (hs : (q.schedule c requests).outcome = .ok s) :
    c.validate = .ok () ∧ s.declared = g.declared ∧ s.WellFormed ∧ s.Quantized ∧ s.Arranged := by
  obtain ⟨hdecl, hquantized⟩ := quantize_spec hg hq
  have hqwell := (sameDeclaration hdecl).wellFormed hg
  obtain ⟨hvalid, hlogical, harranged⟩ := schedule_spec hqwell hs
  have hdecl' := (declared_eq_of_logical_eq hlogical).trans hdecl
  exact ⟨hvalid, hdecl', (sameDeclaration hdecl').wellFormed hg,
    hquantized.of_logical_eq hlogical, harranged⟩

/-- **The memory plan of a scheduled graph.** Four regions tile memory, every
tensor is inside the region for its kind, and tensors, reference slots and the
handshake chunk keep apart. -/
theorem memoryPlan_sound (hg : g.Scheduled)
    (h : g.planMemory chunkSize bound = (.ok map, placed)) :
    AddsAddresses g placed ∧ map.Sound placed chunkSize bound := by
  obtain ⟨g₀, ranges, q, c, requests, hfinished, hq, hs⟩ := hg
  obtain ⟨-, -, hwell, -, -⟩ := scheduled_spec hfinished.wellFormed hq hs
  exact planMemory_ok hwell h

/-- Signed elements of up to a byte. -/
def narrow (spare : Fin 8) : ElementType := ⟨8 - spare, true, by omega, by omega⟩

/-- A dense layer and a sum, with something in every region. -/
def denseCalls : List BuildCall :=
  [.placeholder "x" [2, 3] (narrow 0),
   .trained "w" [2, 3] (narrow 3) #[0.5, -1, 2, 1, 0.25, -0.75],
   .fixed "b" [2] (narrow 0) #[1, -2],
   .linear "y" 0 1 (some 2) (some .relu) (narrow 1),
   .sum "z" 3 3 (narrow 0),
   .output 4]

def denseRanges : ValueRanges := [("x", ⟨-100, 100⟩)]

/-- A narrow bus and small chunks, so that padding and alignment show. -/
def denseConfig : HardwareConfig := { busWidth := 8, chunkSize := 4, burstPolicy := .widen }

/-- The dense layer, scheduled, with its memory plan. -/
def densePlan : Except CompileError (Graph × MemoryMap) := do
  let g ← (build denseCalls).finish.outcome.mapError .graph
  let q ← g.quantize denseRanges
  let s ← (q.schedule denseConfig []).outcome
  let map ← (s.planMemory 4 64).1
  return (s, map)

/-- The dense layer is planned in a memory of 64 bytes, in chunks of four. -/
theorem memoryPlan_dense : ∃ s map placed, s.Scheduled ∧ s.planMemory 4 64 = (.ok map, placed) ∧
    AddsAddresses s placed ∧ map.Sound placed 4 64 := by
  have hok : densePlan.isOk = true := by decide +kernel
  obtain ⟨⟨s, map⟩, hplan⟩ := exists_ok_of_isOk hok
  simp only [densePlan, bind_ok_iff, mapError_ok_iff, pure_ok_iff] at hplan
  obtain ⟨g, hfinish, q, hq, s', hs, map', hmap, heq⟩ := hplan
  have hscheduled : Scheduled s' := ⟨g, _, q, _, _, ⟨_, hfinish⟩, hq, hs⟩
  have hrun : s'.planMemory 4 64 = (.ok map', (s'.planMemory 4 64).2) := Prod.ext hmap rfl
  obtain ⟨hadds, hsound⟩ := memoryPlan_sound hscheduled hrun
  exact ⟨s', map', _, hscheduled, hrun, hadds, hsound⟩

end Graph

end QuantAccel
