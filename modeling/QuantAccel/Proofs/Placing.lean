import QuantAccel.Proofs.Failure
import QuantAccel.Proofs.Parameters

/-!
# Addresses that are given once

An address is given only to a tensor that has none, or again to one that has it
already. A graph that was built has no addresses, and quantization and
scheduling give none; the memory plan goes through the tensors kind by kind and
comes to each of them once. So the plan of such a graph is never refused an
address, and all that can go wrong with it is that memory is too small.
-/

namespace QuantAccel

namespace Graph

variable {g g' : Graph} {c : HardwareConfig} {chunkSize bound : Nat}

/-! ## Graphs without addresses -/

/-- No tensor has an address yet. -/
def Unplaced (g : Graph) : Prop :=
  ∀ id, (g.tensor id).address = none

theorem lasting_unplaced : Lasting fun t => t.address = none :=
  ⟨fun _ _ _ _ _ => rfl, fun _ ht => ht, fun _ _ _ ht => ht⟩

/-- **A graph that was built has no addresses.** -/
theorem unplaced_build (calls : List BuildCall) : (build calls).Unplaced :=
  lasting_unplaced.of_build calls

theorem Unplaced.of_unscaled_eq (hg : g.Unplaced) (h : g'.unscaled = g.unscaled) : g'.Unplaced := by
  intro id
  have hid := congrArg (fun g => (g.tensor id).address) h
  simp only [tensor_unscaled] at hid
  exact hid.trans (hg id)

/-- Scheduling adds layouts to the tensors, and nothing else. -/
theorem tensors_schedule {requests : AttributeRequests}
    (h : (g.schedule c requests).outcome = .ok g') :
    ∃ lanes rows, g'.tensors = g.tensors.map fun t =>
      { t with layout := some (layoutOf lanes rows t) } := by
  simp only [outcome_schedule, bind_ok_iff, mapError_ok_iff, pure_ok_iff] at h
  obtain ⟨_, -, _, -, g₁, hfold, rfl⟩ := h
  have htensors : g₁.tensors = g.tensors := by
    refine foldlM_keeps (P := fun g₁ => g₁.tensors = g.tensors)
      (fun g₁ g₂ i _ hg₁ hstep => ?_) rfl hfold
    rw [scheduleOperator, outcome_applyAttributes, map_ok_iff] at hstep
    obtain ⟨_, -, rfl⟩ := hstep
    exact hg₁
  exact ⟨g₁.laneUnits c, g₁.rowUnits, by rw [withLayouts, mapTensors, htensors]⟩

/-- Scheduling assigns no address. -/
theorem Unplaced.schedule {requests : AttributeRequests} (hg : g.Unplaced)
    (h : (g.schedule c requests).outcome = .ok g') : g'.Unplaced := by
  obtain ⟨lanes, rows, htensors⟩ := tensors_schedule h
  intro id
  have hid := hg id
  unfold tensor at hid ⊢
  rw [htensors]
  rw [Array.getD_eq_getD_getElem?] at hid ⊢
  rw [Array.getElem?_map]
  cases hget : g.tensors[id]? with
  | none => rfl
  | some t =>
    rw [hget] at hid
    exact hid

/-! ## Giving addresses -/

/-- The graph with the addresses of some tensors set. -/
def withAddresses (g : Graph) (slots : List (TensorId × Nat)) : Graph :=
  slots.foldl (fun g p => g.modifyTensor p.1 fun t => { t with address := some p.2 }) g

/-- A change of one tensor that is made on the tensor it finds. -/
theorem modifyTensor_tensor {id : TensorId} (hid : id < g.tensors.size) (f : Tensor → Tensor) :
    (g.modifyTensor id fun _ => f (g.tensor id)) = g.modifyTensor id f := by
  unfold modifyTensor
  congr 1
  refine Array.ext (by simp) fun i hi _ => ?_
  rw [Array.getElem_modify, Array.getElem_modify]
  split
  · subst i
    simp [tensor, Array.getD_eq_getD_getElem?, hid]
  · rfl

/-- A tensor without an address, or with the same one, takes it. -/
theorem assignAddress_of_free {t : Tensor} {address : Nat}
    (h : t.address = none ∨ t.address = some address) :
    t.assignAddress address = .ok { t with address := some address } := by
  unfold Tensor.assignAddress
  rcases h with h | h
  · simp only [h]
  · simp only [h, if_true]
    rw [← h]

/-- A tensor that is in no slot stays as it is. -/
theorem tensor_withAddresses_of_not_mem (g : Graph) (slots : List (TensorId × Nat)) {id : TensorId}
    (h : id ∉ slots.map (·.1)) : (g.withAddresses slots).tensor id = g.tensor id := by
  unfold withAddresses
  induction slots generalizing g with
  | nil => rfl
  | cons p slots ih =>
    rw [List.map_cons, List.mem_cons, not_or] at h
    rw [List.foldl_cons, ih _ h.2]
    simp [tensor, modifyTensor, Array.getD_eq_getD_getElem?, Array.getElem?_modify, Ne.symm h.1]

theorem size_withAddresses (g : Graph) (slots : List (TensorId × Nat)) :
    (g.withAddresses slots).tensors.size = g.tensors.size := by
  unfold withAddresses
  induction slots generalizing g with
  | nil => rfl
  | cons p slots ih => rw [List.foldl_cons, ih, modifyTensor, Array.size_modify]

/-- **Addresses are never refused** to tensors that come up once and have no
other. -/
theorem runFrom_assignAddresses {slots : List (TensorId × Nat)}
    (hids : ∀ p ∈ slots, p.1 < g.tensors.size) (hnodup : (slots.map (·.1)).Nodup)
    (hfree : ∀ p ∈ slots, (g.tensor p.1).address = none ∨ (g.tensor p.1).address = some p.2) :
    runFrom (assignAddresses slots) g = (.ok (), g.withAddresses slots) := by
  unfold assignAddresses
  induction slots generalizing g with
  | nil => rfl
  | cons p slots ih =>
    obtain ⟨id, address⟩ := p
    rw [List.map_cons, List.nodup_cons] at hnodup
    have hid := hids _ List.mem_cons_self
    refine runFrom_forM_cons.2
      ⟨g.modifyTensor id fun t => { t with address := some address }, ?_, ?_⟩
    · rw [runFrom_get_bind, assignAddress_of_free (hfree _ List.mem_cons_self)]
      exact congrArg _ (modifyTensor_tensor hid fun t => { t with address := some address })
    · -- the tensors that are left do not change
      have hothers (q : TensorId × Nat) (hq : q ∈ slots) :
          (g.modifyTensor id fun t => { t with address := some address }).tensor q.1 =
            g.tensor q.1 :=
        g.tensor_withAddresses_of_not_mem [(id, address)] fun hmem =>
          hnodup.1 (List.mem_map.2 ⟨q, hq, by simpa using hmem⟩)
      refine ih (fun q hq => ?_) hnodup.2 fun q hq => ?_
      · rw [modifyTensor, Array.size_modify]
        exact hids q (List.mem_cons_of_mem _ hq)
      · rw [hothers q hq]
        exact hfree q (List.mem_cons_of_mem _ hq)

/-- Addresses that are there already change nothing. -/
theorem withAddresses_eq_self {slots : List (TensorId × Nat)}
    (h : ∀ p ∈ slots, (g.tensor p.1).address = some p.2) : g.withAddresses slots = g := by
  unfold withAddresses
  induction slots with
  | nil => rfl
  | cons p slots ih =>
    have hp := h p List.mem_cons_self
    have hsame : (g.modifyTensor p.1 fun t => { t with address := some p.2 }) = g := by
      unfold modifyTensor
      congr 1
      refine Array.ext_getElem? fun i => ?_
      rw [Array.getElem?_modify]
      split
      · subst i
        rw [tensor, Array.getD_eq_getD_getElem?] at hp
        cases hget : g.tensors[p.1]? with
        | none => rfl
        | some t =>
          rw [hget] at hp
          rw [← hp]
          rfl
      · rfl
    rw [List.foldl_cons, hsame]
    exact ih fun q hq => h q (List.mem_cons_of_mem p hq)

/-! ## Failures of the plan -/

/-- Placing entities fails for want of addresses only. -/
theorem raises_allocateFrom (chunkSize bound : Nat) (items : List (String × Nat)) (running : Nat) :
    RaisesAt .allocate (allocateFrom chunkSize bound items running) := by
  induction items generalizing running with
  | nil => exact raises_ok _
  | cons item items ih =>
    obtain ⟨name, size⟩ := item
    unfold allocateFrom
    exact .ite ((ih _).bind fun _ _ => raises_ok _) (raises_error rfl)

/-- So does placing a region, if chunks have a size. -/
theorem raises_placeRegion (hchunk : 0 < chunkSize) (bound : Nat) (kind : RegionKind)
    (items : List (String × Nat)) (base : Nat) :
    RaisesAt .allocate (placeRegion chunkSize bound kind items base) := by
  unfold placeRegion allocate
  rw [if_neg hchunk.ne']
  exact (raises_allocateFrom _ _ _ _).bind fun _ _ => raises_ok _

theorem nodup_fst_zip {α β : Type} {l : List α} (h : l.Nodup) (l' : List β) :
    ((l.zip l').map (·.1)).Nodup := by
  induction l generalizing l' with
  | nil => simp
  | cons a l ih =>
    cases l' with
    | nil => simp
    | cons b l' =>
      rw [List.nodup_cons] at h
      rw [List.zip_cons_cons, List.map_cons, List.nodup_cons]
      refine ⟨fun hmem => ?_, ih h.2 l'⟩
      obtain ⟨p, hp, rfl⟩ := List.mem_map.1 hmem
      exact h.1 (List.of_mem_zip hp).1

/-- **Tensors are placed where their region has room**, and get its
addresses. -/
theorem runFrom_placeTensors (bound : Nat) (kind : RegionKind) {ids : List TensorId} (base : Nat)
    (hids : ∀ id ∈ ids, id < g.tensors.size) (hnodup : ids.Nodup)
    (hfree : ∀ addresses region,
      placeRegion chunkSize bound kind (g.sized ids) base = .ok (addresses, region) →
        ∀ p ∈ ids.zip addresses, (g.tensor p.1).address = none ∨
          (g.tensor p.1).address = some p.2) :
    runFrom (placeTensors chunkSize bound kind ids base) g =
      match placeRegion chunkSize bound kind (g.sized ids) base with
      | .error e => (.error e, g)
      | .ok (addresses, region) =>
        (.ok (addresses, region), g.withAddresses (ids.zip addresses)) := by
  rw [placeTensors, runFrom_get_bind, runFrom_bind, runFrom_liftM]
  cases hplace : placeRegion chunkSize bound kind (g.sized ids) base with
  | error e => rfl
  | ok placed =>
    obtain ⟨addresses, region⟩ := placed
    have hassign := runFrom_assignAddresses (fun p hp => hids p.1 (List.of_mem_zip hp).1)
      (nodup_fst_zip hnodup addresses) (hfree addresses region hplace)
    dsimp only
    rw [runFrom_bind, hassign]
    rfl

/-- Tensors without an address are refused none, and only they get one. -/
theorem placeTensors_free (bound : Nat) (kind : RegionKind) {ids : List TensorId} (base : Nat)
    (hchunk : 0 < chunkSize)
    (hids : ∀ id ∈ ids, id < g.tensors.size) (hnodup : ids.Nodup)
    (hfree : ∀ id ∈ ids, (g.tensor id).address = none) :
    (∀ e g', runFrom (placeTensors chunkSize bound kind ids base) g = (.error e, g') →
      e.stage = .allocate) ∧
    ∀ r g', runFrom (placeTensors chunkSize bound kind ids base) g = (.ok r, g') →
      g'.tensors.size = g.tensors.size ∧ ∀ id ∉ ids, g'.tensor id = g.tensor id := by
  rw [runFrom_placeTensors bound kind base hids hnodup fun _ _ _ p hp =>
    .inl (hfree p.1 (List.of_mem_zip hp).1)]
  cases hplace : placeRegion chunkSize bound kind (g.sized ids) base with
  | error e =>
    refine ⟨fun e' g' h => ?_, fun r g' h => by cases h⟩
    cases h
    exact raises_placeRegion hchunk bound kind _ base e hplace
  | ok placed =>
    refine ⟨fun e g' h => (by cases h), fun r g' h => ?_⟩
    obtain ⟨-, rfl⟩ := Prod.mk.inj h
    refine ⟨g.size_withAddresses _,
      fun id hid => tensor_withAddresses_of_not_mem g _ fun hmem => ?_⟩
    obtain ⟨p, hp, rfl⟩ := List.mem_map.1 hmem
    exact hid (List.of_mem_zip hp).1

theorem WellFormed.nodup_activations (hg : g.WellFormed) : (g.placeholders ++ g.outputs).Nodup :=
  hg.nodup_idsWhere_append
    fun k => by cases k <;> simp [TensorKind.isPlaceholder, TensorKind.isOutput]

/-- The regions for tensors hold tensors of different kinds. -/
theorem WellFormed.kinds_apart (hg : g.WellFormed) {id : TensorId} :
    (id ∈ g.trained ++ g.fixed → id ∉ g.placeholders ++ g.outputs) ∧
    (id ∈ g.intermediates → id ∉ g.placeholders ++ g.outputs ∧ id ∉ g.trained ++ g.fixed) := by
  simp only [placeholders, outputs, trained, fixed, intermediates, List.mem_append, hg.mem_idsWhere]
  cases (g.tensor id).kind <;>
    simp [TensorKind.isPlaceholder, TensorKind.isOutput, TensorKind.isTrained,
    TensorKind.isFixed, TensorKind.isIntermediate]

/-- **The plan of a graph without addresses fails for want of memory only.** -/
theorem planMemory_error (hg : g.WellFormed) (hfree : g.Unplaced) (hchunk : 0 < chunkSize)
    {e : CompileError} (h : g.planMemory chunkSize bound = (.error e, g')) :
    e.stage = .allocate := by
  change runFrom (placeAll chunkSize bound) g = _ at h
  rw [placeAll, runFrom_get_bind] at h
  obtain ⟨herrorA, hokA⟩ := placeTensors_free bound .activations 0 hchunk hg.lt_of_mem_append
    hg.nodup_activations fun id _ => hfree id
  rcases runFrom_bind_error.1 h with hA | ⟨⟨addrsA, A⟩, g₁, hA, h₁⟩
  · exact herrorA e g' hA
  -- parameters are not among the tensors that have an address now
  obtain ⟨hsize₁, hsame₁⟩ := hokA _ _ hA
  have hfreeP (id : TensorId) (hid : id ∈ g.trained ++ g.fixed) :
      (g₁.tensor id).address = none := by
    rw [hsame₁ id (hg.kinds_apart.1 hid)]
    exact hfree id
  obtain ⟨herrorP, hokP⟩ := placeTensors_free bound .parameters A.stop hchunk
    (fun id hid => hsize₁ ▸ hg.lt_of_mem_append id hid) hg.nodup_parameters hfreeP
  rcases runFrom_bind_error.1 h₁ with hP | ⟨⟨addrsP, P⟩, g₂, hP, h₂⟩
  · exact herrorP e g' hP
  obtain ⟨hsize₂, hsame₂⟩ := hokP _ _ hP
  rw [runFrom_get_bind] at h₂
  rcases runFrom_bind_error.1 h₂ with hR | ⟨⟨addrsR, R⟩, g₃, hR, h₃⟩
  · exact raises_placeRegion hchunk bound .reference _ P.stop e (runFrom_liftM_error.1 hR).1
  obtain ⟨-, rfl⟩ := runFrom_liftM_ok.1 hR
  rw [runFrom_get_bind] at h₃
  rcases runFrom_bind_error.1 h₃ with hS | ⟨⟨addrsS, S⟩, g₄, hS, h₄⟩
  · exact raises_placeRegion hchunk bound .scratch _ R.stop e (runFrom_liftM_error.1 hS).1
  obtain ⟨-, rfl⟩ := runFrom_liftM_ok.1 hS
  -- neither are intermediates
  have hidsS : ∀ p ∈ g.intermediates.zip addrsS, p.1 < g₄.tensors.size := by
    intro p hp
    rw [hsize₂, hsize₁]
    exact (hg.mem_idsWhere.1 (List.of_mem_zip hp).1).1
  have hfreeS : ∀ p ∈ g.intermediates.zip addrsS,
      (g₄.tensor p.1).address = none ∨ (g₄.tensor p.1).address = some p.2 := by
    intro p hp
    obtain ⟨houtA, houtP⟩ := hg.kinds_apart.2 (List.of_mem_zip hp).1
    rw [hsame₂ _ houtP, hsame₁ _ houtA]
    exact .inl (hfree p.1)
  have hassign := runFrom_assignAddresses hidsS (nodup_fst_zip (hg.nodup_idsWhere _) addrsS) hfreeS
  rcases runFrom_bind_error.1 h₄ with h₅ | ⟨_, _, -, h₅⟩
  · rw [hassign] at h₅
    cases h₅
  · cases h₅

end Graph

end QuantAccel
