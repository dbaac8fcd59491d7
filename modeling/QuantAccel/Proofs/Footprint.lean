import QuantAccel.Proofs.Offsets
import QuantAccel.Proofs.Placing

/-!
# The footprint of a plan

Where everything goes in memory is a matter of sizes, not of the bound: the
regions and addresses of a plan are given here in closed form, region by region.
The bound only decides whether the plan comes to its end. If it does not,
tensors keep addresses, but these are addresses of the plan. So an attempt on a
graph that has some of the addresses of its plan (`Partway`) ends like an
attempt on the graph itself, and **a plan that failed can be made again**.
-/

namespace QuantAccel

section PlaceRegion

variable {chunkSize bound base : Nat} {items : List (String × Nat)}

/-- A region whose entities fit. -/
theorem placeRegion_of_fits (kind : RegionKind) (hchunk : 0 < chunkSize) (hdvd : chunkSize ∣ base)
    (hspace : base + chunkedSize chunkSize items < addressSpace)
    (hfits : items ≠ [] → base + chunkedSize chunkSize items ≤ bound) :
    placeRegion chunkSize bound kind items base =
      .ok (offsetsFrom chunkSize base items,
        ⟨kind, base, chunkedSize chunkSize items, chunkSize⟩) := by
  rw [placeRegion, allocate_eq hchunk, roundUp_of_dvd hchunk hdvd,
    allocateFrom_of_fits hchunk hdvd hspace hfits, ok_bind]
  simp only [Nat.add_sub_cancel_left]
  rfl

/-- A region with too many of them. -/
theorem placeRegion_of_exceeds (kind : RegionKind) (hchunk : 0 < chunkSize)
    (hdvd : chunkSize ∣ base) (hspace : base + chunkedSize chunkSize items < addressSpace)
    (hne : items ≠ []) (hexceeds : bound < base + chunkedSize chunkSize items) :
    ∃ entity stop, placeRegion chunkSize bound kind items base =
      .error (.addressOverflow entity stop bound) := by
  obtain ⟨before, item, after, -, -, -, hrun⟩ :=
    allocateFrom_of_exceeds hchunk hdvd hspace hne hexceeds
  refine ⟨item.1, base + chunkedSize chunkSize before + item.2, ?_⟩
  rw [placeRegion, allocate_eq hchunk, roundUp_of_dvd hchunk hdvd, hrun]
  rfl

end PlaceRegion

/-- The tensor without its address. -/
def Tensor.unaddressed (t : Tensor) : Tensor :=
  { t with address := none }

namespace Graph

variable {g p p' : Graph} {chunkSize bound : Nat}

/-! ## Regions in closed form -/

/-- Bytes that tensors take up in memory, each rounded up to a chunk. -/
def occupied (g : Graph) (chunkSize : Nat) (ids : List TensorId) : Nat :=
  (ids.map fun id => roundUp (g.tensor id).memorySize chunkSize).sum

/-- Bytes that a plan takes: one chunk for the handshake word, every tensor
once, and outputs once more for their reference results. -/
def footprint (g : Graph) (chunkSize : Nat) : Nat :=
  chunkSize + g.occupied chunkSize (g.placeholders ++ (g.trained ++ g.fixed) ++ g.intermediates) +
    2 * g.occupied chunkSize g.outputs

/-- The tensors that a region is for. -/
def regionIds (g : Graph) : RegionKind → List TensorId
  | .activations => g.placeholders ++ g.outputs
  | .parameters => g.trained ++ g.fixed
  | .reference => g.outputs
  | .scratch => g.intermediates

/-- The entities of a region. -/
def regionItems (g : Graph) (chunkSize : Nat) : RegionKind → List (String × Nat)
  | .activations => g.sized (g.placeholders ++ g.outputs)
  | .parameters => g.sized (g.trained ++ g.fixed)
  | .reference => (g.sized g.outputs).map fun item => (item.1 ++ ".reference", item.2)
  | .scratch => g.sized g.intermediates ++ [("handshake", chunkSize)]

/-- Bytes of a region. -/
def regionSize (g : Graph) (chunkSize : Nat) (k : RegionKind) : Nat :=
  chunkedSize chunkSize (g.regionItems chunkSize k)

/-- Bytes below a region. -/
def regionBase (g : Graph) (chunkSize : Nat) : RegionKind → Nat
  | .activations => 0
  | .parameters => g.regionSize chunkSize .activations
  | .reference => g.regionSize chunkSize .activations + g.regionSize chunkSize .parameters
  | .scratch => g.regionSize chunkSize .activations + g.regionSize chunkSize .parameters +
      g.regionSize chunkSize .reference

/-- A region of the plan. -/
def plannedRegion (g : Graph) (chunkSize : Nat) (k : RegionKind) : Region :=
  ⟨k, g.regionBase chunkSize k, g.regionSize chunkSize k, chunkSize⟩

/-- The addresses in a region of the plan. -/
def plannedAddresses (g : Graph) (chunkSize : Nat) (k : RegionKind) : List Nat :=
  offsetsFrom chunkSize (g.regionBase chunkSize k) (g.regionItems chunkSize k)

/-- The tensors of a region with their addresses. -/
def regionSlots (g : Graph) (chunkSize : Nat) (k : RegionKind) : List (TensorId × Nat) :=
  (g.regionIds k).zip (g.plannedAddresses chunkSize k)

/-- All addresses that the plan gives to tensors. -/
def plannedSlots (g : Graph) (chunkSize : Nat) : List (TensorId × Nat) :=
  g.regionSlots chunkSize .activations ++ g.regionSlots chunkSize .parameters ++
    g.regionSlots chunkSize .scratch

/-- The map of the plan. -/
def plannedMap (g : Graph) (chunkSize : Nat) : MemoryMap where
  chunkSize := chunkSize
  regions := [.activations, .parameters, .reference, .scratch].map (g.plannedRegion chunkSize)
  reference := g.regionSlots chunkSize .reference
  parameterOffsets := (g.regionIds .parameters).zip
    ((g.plannedAddresses chunkSize .parameters).map (· - g.regionBase chunkSize .parameters))
  handshake := (g.plannedAddresses chunkSize .scratch).getLastD 0
  size := (g.plannedRegion chunkSize .scratch).stop

/-- The entities of a region are within the bound. -/
def RegionFits (g : Graph) (chunkSize bound : Nat) (k : RegionKind) : Prop :=
  g.regionItems chunkSize k ≠ [] → (g.plannedRegion chunkSize k).stop ≤ bound

theorem chunkedSize_sized (g : Graph) (chunkSize : Nat) (ids : List TensorId) :
    chunkedSize chunkSize (g.sized ids) = g.occupied chunkSize ids := by
  simp [chunkedSize, sized, occupied, Function.comp_def]

theorem occupied_append (g : Graph) (chunkSize : Nat) (ids ids' : List TensorId) :
    g.occupied chunkSize (ids ++ ids') = g.occupied chunkSize ids + g.occupied chunkSize ids' := by
  simp [occupied]

/-- **The regions end at the footprint.** -/
theorem stop_scratch_eq_footprint (hchunk : 0 < chunkSize) :
    (g.plannedRegion chunkSize .scratch).stop = g.footprint chunkSize := by
  have hreference : g.regionSize chunkSize .reference = g.occupied chunkSize g.outputs := by
    rw [← chunkedSize_sized]
    simp [regionSize, regionItems, chunkedSize, Function.comp_def]
  have hactivations : g.regionSize chunkSize .activations =
      g.occupied chunkSize g.placeholders + g.occupied chunkSize g.outputs := by
    rw [regionSize, regionItems, chunkedSize_sized, occupied_append]
  have hparameters : g.regionSize chunkSize .parameters = g.occupied chunkSize
      (g.trained ++ g.fixed) :=
    chunkedSize_sized _ _ _
  have hscratch : g.regionSize chunkSize .scratch =
      g.occupied chunkSize g.intermediates + chunkSize := by
    simp [regionSize, regionItems, chunkedSize_sized, roundUp_of_dvd hchunk dvd_rfl]
  simp only [Region.stop, plannedRegion, regionBase, footprint, occupied_append]
  rw [hactivations, hparameters, hreference, hscratch, occupied_append]
  omega

/-- Every region ends below the footprint. -/
theorem stop_le_footprint (hchunk : 0 < chunkSize) (k : RegionKind) :
    (g.plannedRegion chunkSize k).stop ≤ g.footprint chunkSize := by
  rw [← stop_scratch_eq_footprint hchunk]
  cases k <;> simp only [Region.stop, plannedRegion, regionBase] <;> omega

/-- Parameters begin where activations end. -/
theorem stop_activations :
    (g.plannedRegion chunkSize .activations).stop = g.regionBase chunkSize .parameters :=
  Nat.zero_add _

theorem dvd_regionBase (k : RegionKind) : chunkSize ∣ g.regionBase chunkSize k := by
  have hsize (k : RegionKind) : chunkSize ∣ g.regionSize chunkSize k := dvd_chunkedSize
  cases k with
  | activations => exact Nat.dvd_zero _
  | parameters => exact hsize _
  | reference => exact Nat.dvd_add (hsize _) (hsize _)
  | scratch => exact Nat.dvd_add (Nat.dvd_add (hsize _) (hsize _)) (hsize _)

section Regions

variable (hchunk : 0 < chunkSize) (hspace : g.footprint chunkSize < addressSpace)
include hchunk hspace

/-- **A region that fits is placed as planned.** -/
theorem placeRegion_planned {k : RegionKind} (hfits : g.RegionFits chunkSize bound k) :
    placeRegion chunkSize bound k (g.regionItems chunkSize k) (g.regionBase chunkSize k) =
      .ok (g.plannedAddresses chunkSize k, g.plannedRegion chunkSize k) :=
  placeRegion_of_fits k hchunk (dvd_regionBase k)
    ((stop_le_footprint hchunk k).trans_lt hspace) hfits

/-- **A region that does not fit is refused.** -/
theorem placeRegion_refused {k : RegionKind} (hfits : ¬ g.RegionFits chunkSize bound k) :
    ∃ entity stop, placeRegion chunkSize bound k (g.regionItems chunkSize k)
      (g.regionBase chunkSize k) =
      .error (.addressOverflow entity stop bound) := by
  simp only [RegionFits, Classical.not_imp, not_le] at hfits
  exact placeRegion_of_exceeds k hchunk (dvd_regionBase k)
    ((stop_le_footprint hchunk k).trans_lt hspace)
    hfits.1 hfits.2

end Regions

/-! ## Graphs with some of the addresses -/

theorem withAddresses_append (g : Graph) (slots slots' : List (TensorId × Nat)) :
    g.withAddresses (slots ++ slots') = (g.withAddresses slots).withAddresses slots' :=
  List.foldl_append

/-- Addresses of different tensors can be set in any order. -/
theorem withAddresses_swap (g : Graph) {s s' : TensorId × Nat} (h : s.1 ≠ s'.1) :
    g.withAddresses [s, s'] = g.withAddresses [s', s] := by
  simp only [withAddresses, List.foldl_cons, List.foldl_nil, modifyTensor]
  congr 1
  refine Array.ext_getElem? fun i => ?_
  simp only [Array.getElem?_modify]
  by_cases hs : s.1 = i
  · have hs' : s'.1 ≠ i := fun heq => h (hs.trans heq.symm)
    simp [hs, hs']
  · simp [hs]

/-- The address that is set last stays. -/
theorem withAddresses_overwrite (g : Graph) {s s' : TensorId × Nat} (h : s.1 = s'.1) :
    g.withAddresses [s, s'] = g.withAddresses [s'] := by
  simp only [withAddresses, List.foldl_cons, List.foldl_nil, modifyTensor]
  congr 1
  refine Array.ext_getElem? fun i => ?_
  simp only [Array.getElem?_modify, h]
  split
  · cases g.tensors[i]? <;> rfl
  · rfl

/-- An address does not show where the tensor is given one later. -/
theorem withAddresses_absorb (g : Graph) {s : TensorId × Nat} {slots : List (TensorId × Nat)}
    (h : s.1 ∈ slots.map (·.1)) :
    (g.withAddresses [s]).withAddresses slots = g.withAddresses slots := by
  induction slots generalizing g with
  | nil => exact absurd h List.not_mem_nil
  | cons s' slots ih =>
    change (g.withAddresses [s, s']).withAddresses slots =
      (g.withAddresses [s']).withAddresses slots
    by_cases heq : s.1 = s'.1
    · rw [withAddresses_overwrite g heq]
    · rw [withAddresses_swap g heq]
      refine ih (g.withAddresses [s']) ?_
      rw [List.map_cons, List.mem_cons] at h
      exact h.resolve_left heq

/-- Addresses that are assigned again, the same ones, make no difference. -/
theorem withAddresses_of_subset (g : Graph) {part slots : List (TensorId × Nat)}
    (h : part ⊆ slots) :
    (g.withAddresses part).withAddresses slots = g.withAddresses slots := by
  induction part generalizing g with
  | nil => rfl
  | cons s part ih =>
    rw [List.cons_subset] at h
    change ((g.withAddresses [s]).withAddresses part).withAddresses slots = _
    rw [ih _ h.2, withAddresses_absorb g (List.mem_map_of_mem h.1)]

/-- An address is as it was, or one that was set. -/
theorem address_withAddresses (g : Graph) (slots : List (TensorId × Nat)) (id : TensorId) :
    ((g.withAddresses slots).tensor id).address = (g.tensor id).address ∨
      ∃ address, (id, address) ∈ slots ∧
        ((g.withAddresses slots).tensor id).address = some address := by
  induction slots generalizing g with
  | nil => exact .inl rfl
  | cons s slots ih =>
    change (((g.withAddresses [s]).withAddresses slots).tensor id).address = _ ∨ ∃ address, _ ∧
      (((g.withAddresses [s]).withAddresses slots).tensor id).address = _
    rcases ih (g.withAddresses [s]) with hkept | ⟨address, hmem, hset⟩
    · rw [hkept]
      simp only [withAddresses, List.foldl_cons, List.foldl_nil, tensor, modifyTensor,
        Array.getD_eq_getD_getElem?, Array.getElem?_modify]
      split
      · rename_i heq
        cases g.tensors[id]? with
        | none => exact .inl rfl
        | some t => exact .inr ⟨s.2, heq ▸ List.mem_cons_self, rfl⟩
      · exact .inl rfl
    · exact .inr ⟨address, List.mem_cons_of_mem _ hmem, hset⟩

/-- The graph without addresses. -/
def unaddressed (g : Graph) : Graph :=
  g.mapTensors Tensor.unaddressed

theorem tensor_unaddressed (g : Graph) (id : TensorId) :
    g.unaddressed.tensor id = (g.tensor id).unaddressed := by
  simp only [tensor, unaddressed, mapTensors, Array.getD_eq_getD_getElem?, Array.getElem?_map]
  cases g.tensors[id]? <;> rfl

/-- Assigned addresses are erased with all others. -/
theorem unaddressed_withAddresses (g : Graph) (slots : List (TensorId × Nat)) :
    (g.withAddresses slots).unaddressed = g.unaddressed := by
  induction slots generalizing g with
  | nil => rfl
  | cons s slots ih =>
    refine (ih (g.withAddresses [s])).trans ?_
    simp only [unaddressed, mapTensors, withAddresses, List.foldl_cons, List.foldl_nil,
      modifyTensor]
    congr 1
    exact map_modify_eq fun _ _ => rfl

section Unaddressed

variable (h : p.unaddressed = g.unaddressed)
include h

/-- Sizes do not depend on addresses. -/
theorem sized_eq_of_unaddressed_eq (ids : List TensorId) : p.sized ids = g.sized ids := by
  have hsized (g : Graph) : g.unaddressed.sized ids = g.sized ids := by
    simp only [sized, tensor_unaddressed]
    rfl
  rw [← hsized p, h, hsized g]

theorem idsWhere_eq_of_unaddressed_eq (q : TensorKind → Bool) : p.idsWhere q = g.idsWhere q := by
  have hids (g : Graph) : g.unaddressed.idsWhere q = g.idsWhere q := by
    simp [idsWhere, unaddressed, mapTensors, List.filter_map, Function.comp_def, Tensor.unaddressed]
  rw [← hids p, h, hids g]

end Unaddressed

/-! ## Attempts -/

/-- The slots of a region are planned, but for those of the references. -/
theorem regionSlots_subset (g : Graph) (chunkSize : Nat) {k : RegionKind} (hk : k ≠ .reference) :
    g.regionSlots chunkSize k ⊆ g.plannedSlots chunkSize := by
  intro s hs
  simp only [plannedSlots, List.mem_append]
  cases k with
  | activations => exact .inl (.inl hs)
  | parameters => exact .inl (.inr hs)
  | reference => exact absurd rfl hk
  | scratch => exact .inr hs

/-- The graph with some of the addresses of its plan. -/
def Partway (g : Graph) (chunkSize : Nat) (p : Graph) : Prop :=
  ∃ part, part ⊆ g.plannedSlots chunkSize ∧ p = g.withAddresses part

theorem partway_self (g : Graph) (chunkSize : Nat) : g.Partway chunkSize g :=
  ⟨[], List.nil_subset _, rfl⟩

theorem WellFormed.regionIds_lt (hg : g.WellFormed) (k : RegionKind) :
    ∀ id ∈ g.regionIds k, id < g.tensors.size := by
  cases k with
  | activations | parameters => exact hg.lt_of_mem_append
  | reference | scratch => exact fun id hid => (hg.mem_idsWhere.1 hid).1

theorem WellFormed.nodup_regionIds (hg : g.WellFormed) (k : RegionKind) :
    (g.regionIds k).Nodup := by
  cases k with
  | activations => exact hg.nodup_activations
  | parameters => exact hg.nodup_parameters
  | reference | scratch => exact hg.nodup_idsWhere _

/-- The plan has one address for every tensor. -/
theorem WellFormed.nodup_plannedSlots (hg : g.WellFormed) (chunkSize : Nat) :
    ((g.plannedSlots chunkSize).map (·.1)).Nodup := by
  have hids {k : RegionKind} {s : TensorId × Nat} (hs : s ∈ g.regionSlots chunkSize k) :
      s.1 ∈ g.regionIds k :=
    (List.of_mem_zip hs).1
  have hnodup (k : RegionKind) : ((g.regionSlots chunkSize k).map (·.1)).Nodup :=
    nodup_fst_zip (hg.nodup_regionIds k) _
  simp only [plannedSlots, List.map_append, List.nodup_append, List.mem_append, List.mem_map]
  refine ⟨⟨hnodup _, hnodup _, ?_⟩, hnodup _, ?_⟩
  · rintro _ ⟨s, hs, rfl⟩ _ ⟨s', hs', rfl⟩ heq
    exact hg.kinds_apart.1 (hids hs') (heq ▸ hids hs)
  · rintro _ (⟨s, hs, rfl⟩ | ⟨s, hs, rfl⟩) _ ⟨s', hs', rfl⟩ heq
    · exact (hg.kinds_apart.2 (hids hs')).1 (heq ▸ hids hs)
    · exact (hg.kinds_apart.2 (hids hs')).2 (heq ▸ hids hs)

namespace Partway

variable (hp : g.Partway chunkSize p)
include hp

theorem unaddressed_eq : p.unaddressed = g.unaddressed := by
  obtain ⟨part, -, rfl⟩ := hp
  exact unaddressed_withAddresses g part

theorem tensors_size : p.tensors.size = g.tensors.size := by
  obtain ⟨part, -, rfl⟩ := hp
  exact g.size_withAddresses part

/-- A region more is still on the way to the whole plan. -/
theorem withRegion {k : RegionKind} (hk : k ≠ .reference) :
    g.Partway chunkSize (p.withAddresses (g.regionSlots chunkSize k)) := by
  obtain ⟨part, hpart, rfl⟩ := hp
  exact ⟨part ++ g.regionSlots chunkSize k,
    List.append_subset.2 ⟨hpart, g.regionSlots_subset chunkSize hk⟩,
    (withAddresses_append g part _).symm⟩

/-- With all addresses of the plan it does not matter which were there. -/
theorem withAddresses_plannedSlots :
    p.withAddresses (g.plannedSlots chunkSize) = g.withAddresses (g.plannedSlots chunkSize) := by
  obtain ⟨part, hpart, rfl⟩ := hp
  exact withAddresses_of_subset g hpart

/-- **No address of the plan is in the way of another.** -/
theorem free (hg : g.WellFormed) (hfree : g.Unplaced) {s : TensorId × Nat}
    (hs : s ∈ g.plannedSlots chunkSize) :
    (p.tensor s.1).address = none ∨ (p.tensor s.1).address = some s.2 := by
  obtain ⟨part, hpart, rfl⟩ := hp
  rcases address_withAddresses g part s.1 with hkept | ⟨address, hmem, hset⟩
  · exact .inl (hkept.trans (hfree s.1))
  · -- the plan has one address for the tensor
    have hlookup := lookup_of_mem (hg.nodup_plannedSlots chunkSize) (hpart hmem)
    rw [lookup_of_mem (hg.nodup_plannedSlots chunkSize) hs] at hlookup
    exact .inr (hset.trans hlookup.symm)

end Partway

/-- A part of a plan that stops for want of memory, with some of the addresses
of the plan. -/
def Refuses {α : Type} (g : Graph) (chunkSize bound : Nat) (x : Placing α) (p : Graph) : Prop :=
  ∃ entity stop p', g.Partway chunkSize p' ∧
    runFrom x p = (.error (.addressOverflow entity stop bound), p')

section Refuses

variable {α β : Type} {x : Placing α} {f : α → Placing β}

/-- A sequence is refused where its first part is. -/
theorem Refuses.bind (h : g.Refuses chunkSize bound x p) (f : α → Placing β) :
    g.Refuses chunkSize bound (x >>= f) p := by
  obtain ⟨entity, stop, p', hp', hrun⟩ := h
  exact ⟨entity, stop, p', hp', runFrom_bind_error.2 (.inl hrun)⟩

/-- A sequence is refused where its second part is. -/
theorem Refuses.after {a : α} (hx : runFrom x p = (.ok a, p'))
    (h : g.Refuses chunkSize bound (f a) p') :
    g.Refuses chunkSize bound (x >>= f) p := by
  obtain ⟨entity, stop, p'', hp'', hrun⟩ := h
  exact ⟨entity, stop, p'', hp'', runFrom_bind_error.2 (.inr ⟨a, p', hx, hrun⟩)⟩

end Refuses

section Attempt

variable (hg : g.WellFormed) (hfree : g.Unplaced) (hchunk : 0 < chunkSize)
variable (hspace : g.footprint chunkSize < addressSpace) (hp : g.Partway chunkSize p)
include hg hfree hchunk hspace hp

/-- **Tensors of a region are placed as planned**, whatever addresses of the
plan are there already. -/
theorem Partway.placeTensors_planned {base : Nat} {k : RegionKind}
    (hbase : base = g.regionBase chunkSize k)
    (hitems : g.sized (g.regionIds k) = g.regionItems chunkSize k) (hk : k ≠ .reference)
    (hfits : g.RegionFits chunkSize bound k) :
    runFrom (placeTensors chunkSize bound k (g.regionIds k) base) p =
      (.ok (g.plannedAddresses chunkSize k, g.plannedRegion chunkSize k),
        p.withAddresses (g.regionSlots chunkSize k)) := by
  have hplace := placeRegion_planned hchunk hspace hfits
  rw [← hitems, ← sized_eq_of_unaddressed_eq hp.unaddressed_eq, ← hbase] at hplace
  have hids : ∀ id ∈ g.regionIds k, id < p.tensors.size := fun id hid =>
    hp.tensors_size ▸ hg.regionIds_lt k id hid
  rw [runFrom_placeTensors bound k base hids (hg.nodup_regionIds k) ?_, hplace]
  · rfl
  · intro addresses region hplace'
    rw [hplace] at hplace'
    obtain ⟨rfl, -⟩ := Prod.mk.inj (Except.ok.inj hplace')
    exact fun s hs => hp.free hg hfree (g.regionSlots_subset chunkSize hk hs)

omit hg hfree in
/-- **A region that does not fit stops the plan.** -/
theorem Partway.placeRegion_refuses {k : RegionKind} (hfits : ¬ g.RegionFits chunkSize bound k) :
    g.Refuses chunkSize bound
      (liftM (placeRegion chunkSize bound k (g.regionItems chunkSize k) (g.regionBase chunkSize k)))
        p := by
  obtain ⟨entity, stop, hplace⟩ := placeRegion_refused hchunk hspace hfits
  exact ⟨entity, stop, p, hp, runFrom_liftM_error.2 ⟨hplace, rfl⟩⟩

omit hg hfree in
/-- A region that does not fit is refused, with the regions before it
assigned. -/
theorem Partway.placeTensors_refuses {base : Nat} {k : RegionKind}
    (hbase : base = g.regionBase chunkSize k)
    (hitems : g.sized (g.regionIds k) = g.regionItems chunkSize k)
    (hfits : ¬ g.RegionFits chunkSize bound k) :
    g.Refuses chunkSize bound (placeTensors chunkSize bound k (g.regionIds k) base) p := by
  have hrefuses := hp.placeRegion_refuses hchunk hspace hfits
  rw [← hitems, ← sized_eq_of_unaddressed_eq hp.unaddressed_eq, ← hbase] at hrefuses
  exact .after (runFrom_get p) (hrefuses.bind _)

/-- **With the footprint in bounds an attempt comes to the plan.** -/
theorem Partway.planMemory_planned (hbound : g.footprint chunkSize ≤ bound) :
    p.planMemory chunkSize bound =
    (.ok (g.plannedMap chunkSize), g.withAddresses (g.plannedSlots chunkSize)) := by
  have hids (q : TensorKind → Bool) : p.idsWhere q = g.idsWhere q :=
    idsWhere_eq_of_unaddressed_eq hp.unaddressed_eq q
  have hfits (k : RegionKind) : g.RegionFits chunkSize bound k := fun _ =>
    (stop_le_footprint hchunk k).trans hbound
  have hp₁ := hp.withRegion (k := .activations) (by decide)
  have hp₂ := hp₁.withRegion (k := .parameters) (by decide)
  have hsized := sized_eq_of_unaddressed_eq hp₂.unaddressed_eq
  have hassign : runFrom (assignAddresses (g.regionSlots chunkSize .scratch)) _ = _ :=
    runFrom_assignAddresses
      (fun s hs => hp₂.tensors_size ▸ hg.regionIds_lt .scratch s.1 (List.of_mem_zip hs).1)
      (nodup_fst_zip (hg.nodup_regionIds .scratch) _)
      fun s hs => hp₂.free hg hfree (g.regionSlots_subset chunkSize (by decide) hs)
  change runFrom (placeAll chunkSize bound) p = _
  rw [placeAll, runFrom_get_bind]
  simp only [placeholders, outputs, trained, fixed, intermediates, hids]
  refine runFrom_bind_ok.2
    ⟨_, _, hp.placeTensors_planned hg hfree hchunk hspace (k := .activations) rfl rfl
    (by decide) (hfits _), ?_⟩
  refine runFrom_bind_ok.2
    ⟨_, _, hp₁.placeTensors_planned hg hfree hchunk hspace stop_activations rfl (by decide)
    (hfits _), ?_⟩
  rw [runFrom_get_bind, hsized]
  refine runFrom_liftM_bind_ok.2 ⟨_, placeRegion_planned hchunk hspace (hfits .reference), ?_⟩
  rw [runFrom_get_bind, hsized]
  refine runFrom_liftM_bind_ok.2 ⟨_, placeRegion_planned hchunk hspace (hfits .scratch), ?_⟩
  refine runFrom_bind_ok.2 ⟨_, _, hassign, ?_⟩
  rw [← withAddresses_append, ← withAddresses_append, ← hp.withAddresses_plannedSlots, plannedSlots,
    List.append_assoc]
  rfl

/-- **Otherwise it stops at a region that does not fit.** -/
theorem Partway.placeAll_refuses (hbound : bound < g.footprint chunkSize) :
    g.Refuses chunkSize bound (placeAll chunkSize bound) p := by
  have hids (q : TensorKind → Bool) : p.idsWhere q = g.idsWhere q :=
    idsWhere_eq_of_unaddressed_eq hp.unaddressed_eq q
  have hp₁ := hp.withRegion (k := .activations) (by decide)
  have hp₂ := hp₁.withRegion (k := .parameters) (by decide)
  have hsized := sized_eq_of_unaddressed_eq hp₂.unaddressed_eq
  refine .after (runFrom_get p) ?_
  simp only [placeholders, outputs, trained, fixed, intermediates, hids]
  by_cases hA : g.RegionFits chunkSize bound .activations
  swap
  · exact (hp.placeTensors_refuses hchunk hspace rfl rfl hA).bind _
  refine .after
    (hp.placeTensors_planned hg hfree hchunk hspace (k := .activations) rfl rfl (by decide) hA) ?_
  by_cases hP : g.RegionFits chunkSize bound .parameters
  swap
  · exact (hp₁.placeTensors_refuses hchunk hspace stop_activations rfl hP).bind _
  refine .after
    (hp₁.placeTensors_planned hg hfree hchunk hspace stop_activations rfl (by decide) hP) ?_
  refine .after (runFrom_get _) ?_
  rw [hsized]
  by_cases hR : g.RegionFits chunkSize bound .reference
  swap
  · exact (hp₂.placeRegion_refuses hchunk hspace hR).bind _
  refine .after (runFrom_liftM_ok.2 ⟨placeRegion_planned hchunk hspace hR, rfl⟩) ?_
  refine .after (runFrom_get _) ?_
  rw [hsized]
  -- the last region ends at the footprint, so this one does not fit
  have hS : ¬ g.RegionFits chunkSize bound .scratch := by
    intro hfits
    have hle := hfits (by simp [regionItems])
    rw [stop_scratch_eq_footprint hchunk] at hle
    omega
  exact (hp₂.placeRegion_refuses hchunk hspace hS).bind _

end Attempt

/-! ## Scheduled graphs -/

theorem Scheduled.wellFormed (hg : g.Scheduled) : g.WellFormed := by
  obtain ⟨g₀, ranges, q, c, requests, hfinished, hq, hs⟩ := hg
  exact (scheduled_spec hfinished.wellFormed hq hs).2.2.1

/-- Nothing is placed before memory is planned. -/
theorem Scheduled.unplaced (hg : g.Scheduled) : g.Unplaced := by
  obtain ⟨g₀, ranges, q, c, requests, hfinished, hq, hs⟩ := hg
  obtain ⟨calls, rfl, -⟩ := hfinished.exists_build
  exact ((unplaced_build calls).of_unscaled_eq (quantize_adds hfinished.wellFormed hq).1).schedule
    hs

/-- The graph after attempts at a plan, each within a bound. -/
def afterAttempts (g : Graph) (chunkSize : Nat) (bounds : List Nat) : Graph :=
  bounds.foldl (fun p bound => (p.planMemory chunkSize bound).2) g

/-- **Attempts leave nothing but addresses of the plan.** -/
theorem partway_afterAttempts (hg : g.WellFormed) (hfree : g.Unplaced) (hchunk : 0 < chunkSize)
    (hspace : g.footprint chunkSize < addressSpace) (bounds : List Nat) :
    g.Partway chunkSize (g.afterAttempts chunkSize bounds) := by
  suffices h : ∀ p, g.Partway chunkSize p →
      g.Partway chunkSize (bounds.foldl (fun p bound => (p.planMemory chunkSize bound).2) p) from
    h g (g.partway_self chunkSize)
  induction bounds with
  | nil => exact fun p hp => hp
  | cons bound bounds ih =>
    refine fun p hp => ih _ ?_
    by_cases hbound : g.footprint chunkSize ≤ bound
    · change g.Partway chunkSize (p.planMemory chunkSize bound).2
      rw [hp.planMemory_planned hg hfree hchunk hspace hbound]
      exact ⟨_, List.Subset.refl _, rfl⟩
    · obtain ⟨entity, stop, p', hp', hrun⟩ :=
        hp.placeAll_refuses hg hfree hchunk hspace (not_le.1 hbound)
      change g.Partway chunkSize (runFrom (placeAll chunkSize bound) p).2
      rw [hrun]
      exact hp'

/-- **A plan does not depend on the bound, and can be made again.** One map and
one graph are the plan of a scheduled graph, and the map ends at the footprint.
Whatever attempts were made before with the same chunk size, a bound that has
room for the footprint gives this plan, and any other fails for want of
memory. -/
theorem plan_independent_of_bound (hg : g.Scheduled) (hchunk : 0 < chunkSize)
    (hspace : g.footprint chunkSize < addressSpace) :
    ∃ map placed, map.size = g.footprint chunkSize ∧ ∀ attempts bound,
      (g.footprint chunkSize ≤ bound →
        (g.afterAttempts chunkSize attempts).planMemory chunkSize bound = (.ok map, placed)) ∧
      (bound < g.footprint chunkSize → ∃ entity stop partly,
        (g.afterAttempts chunkSize attempts).planMemory chunkSize bound =
          (.error (.addressOverflow entity stop bound), partly)) := by
  refine ⟨g.plannedMap chunkSize, g.withAddresses (g.plannedSlots chunkSize),
    stop_scratch_eq_footprint hchunk, fun attempts bound => ?_⟩
  have hp := partway_afterAttempts hg.wellFormed hg.unplaced hchunk hspace attempts
  refine ⟨hp.planMemory_planned hg.wellFormed hg.unplaced hchunk hspace, fun hbound => ?_⟩
  obtain ⟨entity, stop, p', -, hrun⟩ :=
    hp.placeAll_refuses hg.wellFormed hg.unplaced hchunk hspace hbound
  exact ⟨entity, stop, p', hrun⟩

/-- The dense layer takes up 36 bytes. An attempt with one byte less fails, and
the next one does not. -/
theorem plan_independent_of_bound_dense :
    ∃ s map placed entity stop partly, Scheduled s ∧ s.footprint 4 = 36 ∧
    map.size = 36 ∧ s.planMemory 4 36 = (.ok map, placed) ∧
    s.planMemory 4 35 = (.error (.addressOverflow entity stop 35), partly) ∧
    partly.planMemory 4 36 = (.ok map, placed) := by
  have hsize : densePlan.toOption.map (fun r => r.1.footprint 4) = some 36 := by decide +kernel
  obtain ⟨⟨s, map⟩, hplan, hsize⟩ := Option.map_eq_some_iff.1 hsize
  simp only [toOption_eq_some_iff, densePlan, bind_ok_iff, mapError_ok_iff, pure_ok_iff] at hplan
  obtain ⟨g, hfinish, q, hq, s', hs, map', -, heq⟩ := hplan
  obtain ⟨rfl, rfl⟩ := Prod.mk.inj heq
  have hscheduled : Scheduled s' := ⟨g, _, q, _, _, ⟨_, hfinish⟩, hq, hs⟩
  obtain ⟨map, placed, hmap, hrun⟩ := plan_independent_of_bound hscheduled (by decide : 0 < 4)
    (by rw [hsize]; decide)
  rw [hsize] at hmap hrun
  obtain ⟨entity, stop, partly, hpartly⟩ := (hrun [] 35).2 (by decide)
  have hretry := (hrun [35] 36).1 (by decide)
  simp only [afterAttempts, List.foldl_cons, List.foldl_nil] at hretry
  have hpartly : s'.planMemory 4 35 = (.error (.addressOverflow entity stop 35), partly) := hpartly
  rw [hpartly] at hretry
  exact ⟨s', map, placed, entity, stop, partly, hscheduled, hsize, hmap, (hrun [] 36).1 (by decide),
    hpartly, hretry⟩

end Graph

end QuantAccel
