import QuantAccel.Proofs.Execution

/-!
# The machine refines the evaluator

The machine needs room: its tensors and its counter lie in the image, and what
it writes is unprotected and keeps apart from everything that it reads. With
room, a run over the whole order leaves every result in the image as the
evaluator assigns it, and changes nothing else. Scratch moves with a register;
that it still keeps apart then is a matter of the three regions only, since its
tensors keep their distances.
-/

namespace QuantAccel

theorem Extent.apart_of_disjoint {x y : Extent} (hx : 0 < x.size) (hy : 0 < y.size)
    (h : Disjoint x.bytes y.bytes) : x.Apart y := by
  -- the later of the two beginnings would be in both
  have hmax : max x.base y.base ∈ x.bytes → max x.base y.base ∉ y.bytes :=
    fun hmem => Set.disjoint_left.1 h hmem
  simp only [bytes, stop, Set.mem_Ico, Apart] at hmax ⊢
  omega

/-- An extent that keeps out of the regions before the references lies behind
them. -/
theorem MemoryMap.Sound.stop_parameters_le_of_disjoint {map : MemoryMap} {g : Graph}
    {chunkSize bound : Nat} (hmap : map.Sound g chunkSize bound) {x : Extent} (hx : 0 < x.size)
    (h : ∀ k, k = .activations ∨ k = .parameters → Disjoint x.bytes (map.bytes k)) :
    map.stop .parameters ≤ x.base := by
  have hself : x.base ∈ x.bytes := by
    simp only [Extent.bytes, Extent.stop, Set.mem_Ico]
    omega
  have hactivations := Set.disjoint_left.1 (h .activations (.inl rfl)) hself
  have hparameters := Set.disjoint_left.1 (h .parameters (.inr rfl)) hself
  simp only [bytes, Set.mem_Ico, hmap.base_activations,
    hmap.base_parameters] at hactivations hparameters
  omega

namespace Machine

open Device (Runs)

/-- Where a tensor lies for a machine: intermediates move with the register, and
nothing else does. -/
def location (m : Machine) (id : TensorId) : Nat :=
  let address := (m.design.graph.tensor id).address.getD 0
  if (m.design.graph.tensor id).kind.isIntermediate then
    m.registers.globalAddress.toNat + (address - m.design.memory.base .scratch)
  else address

/-- The bytes of a tensor, where the machine has it. -/
def extent (m : Machine) (id : TensorId) : Extent :=
  ⟨m.location id, (m.design.graph.tensor id).memorySize⟩

/-- The bytes in which a machine counts its operators. -/
def counter (m : Machine) : Extent :=
  ⟨m.registers.handshakeAddress.toNat, 4⟩

/-- The addresses that a machine writes: those of its results, and of the
counter. -/
def written (m : Machine) : Set Nat :=
  {a | (∃ id < m.design.graph.tensors.size, (m.design.graph.tensor id).kind.isResult ∧
      (m.extent id).base ≤ a ∧ a < (m.extent id).stop) ∨ m.counter.base ≤ a ∧ a < m.counter.stop}

/-- What a machine writes keeps apart from all the rest. -/
structure Separate (m : Machine) : Prop where
  apart : ∀ id < m.design.graph.tensors.size, (m.design.graph.tensor id).kind.isResult →
    ∀ id' < m.design.graph.tensors.size, id' ≠ id → (m.extent id).Apart (m.extent id')
  counter_apart : ∀ id < m.design.graph.tensors.size, (m.extent id).Apart m.counter

/-- Tensors and counter lie in the image, and what the machine writes is
unprotected and keeps apart from all the rest. -/
structure Room (m : Machine) (image : Image) : Prop extends Separate m where
  readable : ∀ id < m.design.graph.tensors.size, (m.extent id).stop ≤ image.size
  writable : ∀ id < m.design.graph.tensors.size, (m.design.graph.tensor id).kind.isResult →
    image.Writable (m.extent id).base (m.extent id).size
  counter_writable : image.Writable m.counter.base m.counter.size

/-! ## Progress along the order -/

variable {m : Machine} {order before after : List OperatorId} {i : OperatorId}
    {image image₁ : Image}
variable {inputs v : Valuation Int}

/-- The address that the machine works out for a tensor is its location. -/
theorem addressOf_eq (hd : m.design.Prepared) {id : TensorId}
    (hid : id < m.design.graph.tensors.size) :
    m.addressOf id = .ok (m.location id) := by
  obtain ⟨address, haddress, -, hplace⟩ := hd.sound.address_home hid
  obtain ⟨r, hregion, -, -, hbase, hstop, -⟩ := hd.sound.region_ok .scratch
  have hpos := (hd.arranged.laid id hid).memorySize_pos
  have hbelow := hd.sound.stop_parameters_le
  -- only intermediates lie in scratch, so the machine relocates them and
  -- nothing else
  have hcontains : r.contains address = (m.design.graph.tensor id).kind.isIntermediate := by
    rw [Region.contains, hbase, hstop]
    split at hplace <;> rename_i hkind
    · simp only [hkind, Bool.and_eq_true, decide_eq_true_eq]
      omega
    · simp only [Bool.not_eq_true] at hkind
      simp only [hkind, Bool.and_eq_false_iff, decide_eq_false_iff_not]
      omega
  simp only [addressOf, location, haddress, hregion, hcontains, hbase, Except.mapError, bind,
    Except.bind, pure, Except.pure, Option.getD_some]
  split <;> rfl

/-- Operands that lie in the image are read where the machine has them. -/
theorem readOperands_eq (hd : m.design.Prepared) {op : Operator} {operands : List (Array Int)}
    (hlt : ∀ id ∈ op.inputs, id < m.design.graph.tensors.size)
    (hready : ∀ id ∈ op.inputs, ∃ values, v id = some values ∧
      image.readTensor (m.location id) (m.design.graph.tensor id) = .ok values)
    (hoperands : List.Forall₂ (fun id values => v id = some values) op.inputs operands) :
    m.readOperands image op = .ok operands := by
  have hall := (List.forall₂_and_left _ _).2
    ⟨fun id hid => And.intro (addressOf_eq hd (hlt id hid)) (hready id hid), hoperands⟩
  refine mapM_ok_iff.2 (hall.imp fun id values => ?_)
  rintro ⟨⟨haddress, values', hvalues', hreads⟩, hvalues⟩
  obtain rfl := Option.some.inj (hvalues'.symm.trans hvalues)
  rw [haddress]
  exact hreads

theorem busy_of_plan {k : Nat} {plan : OperatorPlan} (h : m.plans[k]? = some plan) :
    (m.arrived k).Busy := by
  rw [arrived_of_plan h]
  exact busy_working m _ k

/-- A machine with cycles left is busy. -/
theorem busy_arrived {k : Nat} (h : ((m.plans.drop k).map (·.cycles)).sum ≠ 0) :
    (m.arrived k).Busy := by
  cases hplan : m.plans[k]? with
  | some plan => exact busy_of_plan hplan
  | none =>
    rw [List.drop_of_length_le (List.getElem?_eq_none_iff.1 hplan)] at h
    exact absurd rfl h

/-- The plan of the operator that comes up. -/
theorem Emitted.exists_plan (hm : m.Emitted m.design order) (hd : m.design.Prepared)
    (hsplit : order = before ++ i :: after) :
    ∃ plan, m.plans[before.length]? = some plan ∧
      m.operatorAt before.length = m.design.graph.operator i ∧
      plan.Covers (m.design.graph.tensor (m.design.graph.operator i).output).volume := by
  have hi := (hm.ordered hd).lt_of_split hsplit
  obtain ⟨hlength, hplans⟩ := List.forall₂_iff_get.1 hm.plans
  have hk : before.length < order.length := by simp [hsplit]
  obtain ⟨latency, block, hplan⟩ := hplans before.length hk (hlength ▸ hk)
  have hat : order.get ⟨before.length, hk⟩ = i := by simp [hsplit]
  rw [hat] at hplan
  obtain ⟨hoperator, hcovers⟩ := Graph.planOperator_ok hd.wellFormed hd.arranged hi hplan
  have hget : m.plans[before.length]? = some (m.plans.get ⟨before.length, hlength ▸ hk⟩) := by
    simp
  refine ⟨_, hget, ?_, hcovers⟩
  rw [operatorAt, plan_eq hget, hoperator]

/-- The state of a run after some operators: tensors from the outside and their
results read as assigned, the counter is right, and nothing but results and
counter was written. -/
structure Progress (m : Machine) (v : Valuation Int) (image : Image) (before : List OperatorId)
    (image₁ : Image) : Prop where
  changes : Image.ChangesOnly m.written image image₁
  values : ∀ id < m.design.graph.tensors.size,
    (¬(m.design.graph.tensor id).kind.isResult ∨
      ∃ i ∈ before, (m.design.graph.operator i).output = id) →
    ∃ values, v id = some values ∧
      image₁.readTensor (m.location id) (m.design.graph.tensor id) = .ok values
  counter : before ≠ [] → image₁.bytes.wordAt m.counter.base = UInt32.ofNat before.length

namespace Progress

variable (hd : m.design.Prepared) (hv : m.design.graph.Assigned inputs v)
include hd hv

/-- **The operator that comes up is ready**: its operands read as assigned, so
that the machine computes the elements of its result. -/
theorem ready (hm : m.Emitted m.design order) (hsplit : order = before ++ i :: after)
    (h : m.Progress v image before image₁) :
    ∃ plan operands, ∃ f : Nat → Int, m.plans[before.length]? = some plan ∧
      m.operatorAt before.length = m.design.graph.operator i ∧
      plan.Covers (m.design.graph.tensor (m.design.graph.operator i).output).volume ∧
      m.readOperands image₁ (m.design.graph.operator i) = .ok operands ∧
      (∀ j < (m.design.graph.tensor (m.design.graph.operator i).output).volume,
        m.element (m.design.graph.operator i) operands j = .ok (f j)) ∧
      (∀ j, (m.design.graph.tensor (m.design.graph.operator i).output).element.Contains (f j)) ∧
      v (m.design.graph.operator i).output = some
        (Array.ofFn fun j : Fin (m.design.graph.tensor (m.design.graph.operator i).output).volume =>
          f j) := by
  have hordered := hm.ordered hd
  have hi := hordered.lt_of_split hsplit
  have hlt (id : TensorId) (hid : id ∈ (m.design.graph.operator i).inputs) :=
    lt_trans (hd.wellFormed.operand_lt i hi id hid) (hd.wellFormed.output_lt i hi)
  obtain ⟨plan, hplan, hoperator, hcovers⟩ := hm.exists_plan hd hsplit
  -- the operands
  have hready (id : TensorId) (hid : id ∈ (m.design.graph.operator i).inputs) :
      ∃ values, v id = some values ∧
        image₁.readTensor (m.location id) (m.design.graph.tensor id) = .ok values := by
    refine h.values id (hlt id hid) ?_
    rw [Classical.or_iff_not_imp_left, Classical.not_not]
    exact hordered.ready hd.wellFormed hsplit hid
  obtain ⟨operands, hoperands⟩ :=
    Graph.exists_operands fun id hid => (hready id hid).imp fun _ hvalues => hvalues.1
  have hread := readOperands_eq hd hlt hready hoperands
  have hrescaled := hd.quantized.rescaled i hi
  have hresult := Graph.operatorResult_eq hd.wellFormed hi hrescaled hoperands
  obtain ⟨values, hvalues, hequation⟩ := hv.result i hi
  obtain rfl := Except.ok.inj (hresult.symm.trans hequation)
  exact ⟨plan, operands, _, hplan, hoperator, hcovers, hread,
    fun j _ => Graph.element_eq_kernelElement hrescaled rfl operands j,
    Graph.contains_kernelElement _ _ operands, hvalues⟩

/-- **One operator brings a run on** where its result and the counter can be
written. What read as assigned before still does, since it keeps apart from the
result and from the counter. -/
theorem step (hseparate : m.Separate) (hm : m.Emitted m.design order)
    (hsplit : order = before ++ i :: after) (h : m.Progress v image before image₁)
    (hw : image₁.Writable (m.extent (m.design.graph.operator i).output).base
      (m.extent (m.design.graph.operator i).output).size)
    (hh : image₁.Writable m.counter.base m.counter.size) :
    ∃ plan image₂, m.plans[before.length]? = some plan ∧
      Runs Busy plan.cycles (m.arrived before.length) image₁
        (m.arrived (before.length + 1)) image₂ ∧
      m.Progress v image (before ++ [i]) image₂ := by
  have hi := (hm.ordered hd).lt_of_split hsplit
  have hout := hd.wellFormed.output_lt i hi
  have hresult := hd.wellFormed.isResult_output hi
  obtain ⟨plan, operands, f, hplan, hoperator, hcovers, hread, helement, hcontains, hvalues⟩ :=
    h.ready hd hv hm hsplit
  obtain ⟨image₂, hrun, hreads, hcounter, hchanges⟩ := runs_operator hoperator hplan hcovers
    (hd.arranged.laid _ hout) hread (addressOf_eq hd hout) hw hh
      (hseparate.counter_apart _ hout) helement
    hcontains
  refine ⟨plan, image₂, hplan, hrun, h.changes.trans (hchanges.mono ?_),
    fun id hid hready => ?_, ?_⟩
  · rintro a (ha | ha)
    · exact .inl ⟨_, hout, hresult, ha⟩
    · exact .inr ha
  · -- the new result reads as computed, and all other tensors as before
    by_cases heq : id = (m.design.graph.operator i).output
    · exact heq ▸ ⟨_, hvalues, hreads⟩
    · have hready' : ¬(m.design.graph.tensor id).kind.isResult ∨
          ∃ j ∈ before, (m.design.graph.operator j).output = id := by
        refine hready.imp_right fun ⟨j, hj, hjout⟩ => ⟨j, ?_, hjout⟩
        refine (List.mem_append.1 hj).resolve_right fun hj => heq ?_
        rw [← hjout, List.mem_singleton.1 hj]
      obtain ⟨values, hvalues, hreads'⟩ := h.values id hid hready'
      refine ⟨values, hvalues, hreads' ▸ hchanges.readTensor_eq fun a ha => ?_⟩
      have hapart := hseparate.apart _ hout hresult id hid heq
      have hcounter := hseparate.counter_apart id hid
      simp only [Extent.Apart, Extent.stop, extent, Machine.counter, Set.mem_union,
        Set.mem_Ico] at hapart hcounter ha
      omega
  · intro _
    rw [List.length_append]
    exact hcounter

/-- **The rest of the order** brings a run to its end. -/
theorem run (hroom : m.Room image) (hm : m.Emitted m.design order) (rest : List OperatorId)
    (hsplit : order = before ++ rest)
    (h : m.Progress v image before image₁) :
    ∃ image', Runs Busy ((m.plans.drop before.length).map (·.cycles)).sum
      (m.arrived before.length) image₁
        (m.finished order.length) image' ∧
      m.Progress v image order image' := by
  induction rest generalizing before image₁ with
  | nil =>
    rw [List.append_nil] at hsplit
    have hnone : m.plans.length ≤ before.length := by rw [← hm.plans.length_eq, hsplit]
    have harrived : m.arrived before.length = m.finished order.length := by
      rw [arrived, List.getElem?_eq_none hnone, hsplit]
    rw [List.drop_of_length_le hnone, harrived]
    exact ⟨image₁, .refl _ _, hsplit ▸ h⟩
  | cons i rest ih =>
    have hi := (hm.ordered hd).lt_of_split hsplit
    have hout := hd.wellFormed.output_lt i hi
    have hw := hroom.writable _ hout (hd.wellFormed.isResult_output hi)
    obtain ⟨plan, image₂, hplan, hrun, h₂⟩ := h.step hd hv hroom.toSeparate hm hsplit
      (h.changes.writable_iff.2 hw) (h.changes.writable_iff.2 hroom.counter_writable)
    have hsplit₂ : order = (before ++ [i]) ++ rest := by simp [hsplit]
    obtain ⟨image', hrest, h'⟩ := ih hsplit₂ h₂
    obtain ⟨hlt, hget⟩ := List.getElem?_eq_some_iff.1 hplan
    rw [List.length_append, List.length_singleton] at hrest
    rw [List.drop_eq_getElem_cons hlt, hget, List.map_cons, List.sum_cons]
    exact ⟨image', hrun.trans busy_arrived hrest, h'⟩

end Progress

/-- **A machine that is started runs to the end** when it has room and the
tensors from the outside read as assigned. -/
theorem runs_of_start (hd : m.design.Prepared) (hroom : m.Room image)
    (hv : m.design.graph.Assigned inputs v) (hm : m.Emitted m.design order)
    (hstart : m.registers.start)
    (houtside : ∀ id < m.design.graph.tensors.size, ¬(m.design.graph.tensor id).kind.isResult →
      ∃ values, v id = some values ∧
        image.readTensor (m.location id) (m.design.graph.tensor id) = .ok values) :
    ∃ image', Runs Busy (1 + (m.plans.map (·.cycles)).sum) m image
      (m.finished order.length) image' ∧
      m.Progress v image order image' := by
  have hnone : m.Progress v image [] image :=
    ⟨.refl _ _, fun id hid h => houtside id hid (h.resolve_right (by simp)), fun h => absurd rfl h⟩
  obtain ⟨image', hrun, h'⟩ := hnone.run hd hv hroom hm order rfl
  exact ⟨image', (Runs.single (steps_launch hstart image)).trans
    (fun h => busy_arrived (k := 0) h) hrun, h'⟩

/-! ## Where a machine can run -/

/-- An image that a machine can run on: it covers inputs, outputs and parameters
and holds the parameters; what the machine writes can be written; and what moves
with the registers keeps out of the two regions that do not. -/
structure Hosted (m : Machine) (image : Image) : Prop where
  covers : ∀ k, k = .activations ∨ k = .parameters → m.design.memory.stop k ≤ image.size
  parameters : image.Holds (m.design.memory.base .parameters) m.design.blob
  outputs : ∀ id ∈ m.design.graph.outputs, image.Writable (m.extent id).base (m.extent id).size
  scratch : ∀ id ∈ m.design.graph.intermediates, image.Writable (m.extent id).base
    (m.extent id).size
  counter : image.Writable m.counter.base m.counter.size
  scratch_out : ∀ id ∈ m.design.graph.intermediates, ∀ k, k = .activations ∨ k = .parameters →
    Disjoint (m.extent id).bytes (m.design.memory.bytes k)
  counter_out : ∀ k, k = .activations ∨ k = .parameters →
    Disjoint m.counter.bytes (m.design.memory.bytes k)
  counter_scratch : ∀ id ∈ m.design.graph.intermediates,
    Disjoint m.counter.bytes (m.extent id).bytes

namespace Hosted

variable (h : m.Hosted image) (hd : m.design.Prepared)
include h hd

/-- Results are outputs or intermediates. -/
theorem writable {id : TensorId} (hid : id < m.design.graph.tensors.size)
    (hresult : (m.design.graph.tensor id).kind.isResult) :
    image.Writable (m.extent id).base (m.extent id).size := by
  rcases Bool.or_eq_true_iff.1 hresult with hkind | hkind
  · exact h.scratch id (hd.wellFormed.mem_idsWhere.2 ⟨hid, hkind⟩)
  · exact h.outputs id (hd.wellFormed.mem_idsWhere.2 ⟨hid, hkind⟩)

/-- Intermediates lie behind the parameters, at their distance from the
register, and all other tensors before, at their address. -/
theorem location_spec {id : TensorId} (hid : id < m.design.graph.tensors.size) :
    ∃ address, m.design.memory.extent? m.design.graph (.tensor id) =
        some ⟨address, (m.design.graph.tensor id).memorySize⟩ ∧
      if (m.design.graph.tensor id).kind.isIntermediate then
        m.design.memory.base .scratch ≤ address ∧
          m.location id = m.registers.globalAddress.toNat +
            (address - m.design.memory.base .scratch) ∧
          m.design.memory.stop .parameters ≤ m.location id
      else m.location id = address ∧
        address + (m.design.graph.tensor id).memorySize ≤ m.design.memory.stop .parameters := by
  obtain ⟨address, haddress, hextent, hplace⟩ := hd.sound.address_home hid
  have hlocation : m.location id = if (m.design.graph.tensor id).kind.isIntermediate then
      m.registers.globalAddress.toNat + (address - m.design.memory.base .scratch) else address := by
    rw [location, haddress, Option.getD_some]
  refine ⟨address, hextent, ?_⟩
  split at hplace <;> rename_i hkind
  · have hbehind := hd.sound.stop_parameters_le_of_disjoint (hd.arranged.laid id hid).memorySize_pos
      (h.scratch_out id (hd.wellFormed.mem_idsWhere.2 ⟨hid, hkind⟩))
    rw [if_pos hkind] at hlocation ⊢
    exact ⟨hplace.1, hlocation, hbehind⟩
  · rw [if_neg hkind] at hlocation ⊢
    exact ⟨hlocation, hplace⟩

/-- Tensors keep apart wherever scratch lies. -/
theorem extent_apart {id id' : TensorId} (hid : id < m.design.graph.tensors.size)
    (hid' : id' < m.design.graph.tensors.size) (hne : id' ≠ id) :
    (m.extent id).Apart (m.extent id') := by
  obtain ⟨a, hextent, hplace⟩ := h.location_spec hd hid
  obtain ⟨a', hextent', hplace'⟩ := h.location_spec hd hid'
  have hapart := hd.sound.apart _ _ _ _ hextent hextent' (by simpa using hne.symm)
  simp only [Extent.Apart, Extent.stop, extent] at hapart ⊢
  split at hplace <;> split at hplace' <;> omega

theorem counter_apart {id : TensorId} (hid : id < m.design.graph.tensors.size) :
    (m.extent id).Apart m.counter := by
  obtain ⟨a, hextent, hplace⟩ := h.location_spec hd hid
  have hpos := (hd.arranged.laid id hid).memorySize_pos
  split at hplace <;> rename_i hkind
  · have hdisjoint := h.counter_scratch id (hd.wellFormed.mem_idsWhere.2 ⟨hid, hkind⟩)
    exact Extent.apart_of_disjoint hpos (Nat.zero_lt_succ 3) hdisjoint.symm
  · have hbehind := hd.sound.stop_parameters_le_of_disjoint (Nat.zero_lt_succ 3) h.counter_out
    refine .inl ?_
    simp only [Extent.stop, extent]
    omega

/-- **An image that hosts a machine has room for it.** -/
theorem room : m.Room image where
  apart id hid _ id' hid' hne := h.extent_apart hd hid hid' hne
  counter_apart id hid := h.counter_apart hd hid
  readable id hid := by
    obtain ⟨a, hextent, hplace⟩ := h.location_spec hd hid
    split at hplace <;> rename_i hkind
    · exact (h.scratch id (hd.wellFormed.mem_idsWhere.2 ⟨hid, hkind⟩)).inBounds
    · have hcovers := h.covers .parameters (.inr rfl)
      simp only [Extent.stop, extent]
      omega
  writable id hid hresult := h.writable hd hid hresult
  counter_writable := h.counter

/-- A parameter reads as its integers. -/
theorem readTensor_parameter {id : TensorId} (hid : id < m.design.graph.tensors.size)
    (hparam : (m.design.graph.tensor id).kind.isParameter) :
    ∃ ints, (m.design.graph.tensor id).ints = some ints ∧
      image.readTensor (m.location id) (m.design.graph.tensor id) = .ok ints := by
  obtain ⟨ints, address, hints, haddress, hreads⟩ :=
    hd.readTensor_parameter h.parameters (h.covers .parameters (.inr rfl)) hid hparam
  have hlocation : m.location id = address := by
    have hkind : (m.design.graph.tensor id).kind.isIntermediate = false := by
      cases hk : (m.design.graph.tensor id).kind <;>
        simp_all [TensorKind.isParameter, TensorKind.values?, TensorKind.isIntermediate]
    simp [location, hkind, haddress]
  exact ⟨ints, hints, hlocation ▸ hreads⟩

end Hosted

/-- The values of all tensors, as far as the image has them where the machine
looks. -/
def valuesIn (m : Machine) (image : Image) : Valuation Int :=
  fun id => (image.readTensor (m.location id) (m.design.graph.tensor id)).toOption

/-- **A started machine computes what the evaluator assigns** to the inputs that
it finds. -/
theorem Hosted.runs (h : m.Hosted image) (hd : m.design.Prepared) (hm : m.Emitted m.design order)
    (hstart : m.registers.start) :
    ∃ v image', m.design.graph.evaluate (m.valuesIn image) = .ok v ∧
      Runs Busy (1 + (m.plans.map (·.cycles)).sum) m image (m.finished order.length) image' ∧
      m.Progress v image order image' := by
  have hroom := h.room hd
  have hreads (id : TensorId) (hid : id < m.design.graph.tensors.size) : ∃ values,
      image.readTensor (m.location id) (m.design.graph.tensor id) = .ok values ∧
        m.valuesIn image id = some values ∧ values.size = (m.design.graph.tensor id).volume := by
    have hread := Image.readTensor_eq_elements (hd.arranged.laid id hid) (hroom.readable id hid)
    exact ⟨_, hread, congrArg Except.toOption hread, Array.size_ofFn⟩
  obtain ⟨v, hv, hassigned⟩ :=
    Graph.evaluate_ok hd.wellFormed hd.quantized hm.order_ok fun id hid => by
    obtain ⟨values, -, hvalues, hsize⟩ := hreads id (hd.wellFormed.mem_idsWhere.1 hid).1
    exact ⟨values, hvalues, hsize⟩
  obtain ⟨image', hrun, hprogress⟩ :=
    runs_of_start hd hroom hassigned hm hstart fun id hid hresult => by
    rcases hd.wellFormed.outside hid hresult with hplaceholder | hparam
    · obtain ⟨values, hread, hvalues, -⟩ := hreads id hid
      exact ⟨values, (hassigned.placeholder id hplaceholder).trans hvalues, hread⟩
    · obtain ⟨ints, hints, hread⟩ := h.readTensor_parameter hd hid hparam
      exact ⟨ints, (hassigned.parameter id hid hparam).trans hints, hread⟩
  exact ⟨v, image', hv, hrun, hprogress⟩

/-! ## The planned place -/

/-- Registers that point where the memory plan says. -/
structure Planned (m : Machine) : Prop where
  scratch : m.registers.globalAddress.toNat = m.design.memory.base .scratch
  counter : m.registers.handshakeAddress.toNat = m.design.memory.handshake

/-- At its planned place the machine finds every tensor at its address. -/
theorem Planned.extent_eq (h : m.Planned) (hd : m.design.Prepared) {id : TensorId}
    (hid : id < m.design.graph.tensors.size) :
    m.design.memory.extent? m.design.graph (.tensor id) = some (m.extent id) := by
  obtain ⟨address, haddress, hextent, hplace⟩ := hd.sound.address_home hid
  have hlocation : m.location id = address := by
    rw [location, haddress, Option.getD_some, h.scratch]
    split at hplace <;> rename_i hkind
    · rw [if_pos hkind]
      omega
    · rw [if_neg hkind]
  rw [hextent, extent, hlocation]

/-- **The planned place hosts a machine** on an image that holds the parameters
and lets results and the handshake chunk be written. -/
theorem Planned.hosted (h : m.Planned) (hd : m.design.Prepared)
    (hchunk : 4 ≤ m.design.config.chunkSize) (hsize : m.design.memory.stop .parameters ≤ image.size)
    (hblob : image.Holds (m.design.memory.base .parameters) m.design.blob)
    (hresult : ∀ id < m.design.graph.tensors.size, (m.design.graph.tensor id).kind.isResult →
      image.Writable (m.extent id).base (m.extent id).size)
    (hcounter : image.Writable m.design.memory.handshake m.design.config.chunkSize) :
    m.Hosted image := by
  have hstops (k : RegionKind) (hk : k = .activations ∨ k = .parameters) :
      m.design.memory.stop k ≤ m.design.memory.stop .parameters := by
    rcases hk with rfl | rfl
    · rw [← hd.sound.base_parameters]
      exact MemoryMap.Sound.base_le_stop _ _
    · exact le_rfl
  have hscratch := hd.sound.stop_parameters_le
  have hhandshake := (hd.sound.inside_home (e := .handshake) rfl).1
  simp only [Graph.home] at hhandshake
  -- intermediates lie between the start of scratch and the handshake chunk
  have hinside (id : TensorId) (hid : id ∈ m.design.graph.intermediates) :
      m.design.memory.base .scratch ≤ (m.extent id).base ∧ (m.extent id).stop ≤
        m.design.memory.handshake := by
    obtain ⟨hid, hkind⟩ := hd.wellFormed.mem_idsWhere.1 hid
    have hextent := h.extent_eq hd hid
    have hhome := (hd.sound.inside_home hextent).1
    cases hk : (m.design.graph.tensor id).kind <;> simp [hk, TensorKind.isIntermediate] at hkind
    rw [Graph.home, hk] at hhome
    exact ⟨hhome, hd.sound.below_handshake _ _ hextent (by simp)⟩
  have hwritable (id : TensorId) {p : TensorKind → Bool} (hid : id ∈ m.design.graph.idsWhere p)
      (hp : ∀ k, p k → k.isResult) : image.Writable (m.extent id).base (m.extent id).size := by
    obtain ⟨hid, hkind⟩ := hd.wellFormed.mem_idsWhere.1 hid
    exact hresult id hid (hp _ hkind)
  refine ⟨fun k hk => le_trans (hstops k hk) hsize, hblob, fun id hid => hwritable id hid ?_,
    fun id hid => hwritable id hid ?_, ?_, fun id hid k hk => ?_, fun k hk => ?_, fun id hid => ?_⟩
  · exact fun k hk => by simp [TensorKind.isResult, hk]
  · exact fun k hk => by simp [TensorKind.isResult, hk]
  · rw [Machine.counter, h.counter]
    exact hcounter.mono le_rfl (Nat.add_le_add_left hchunk _)
  · have := (hinside id hid).1
    have := hstops k hk
    refine Set.disjoint_left.2 fun a ha ha' => ?_
    simp only [Extent.bytes, MemoryMap.bytes, Set.mem_Ico] at ha ha'
    omega
  · have := hstops k hk
    refine Set.disjoint_left.2 fun a ha ha' => ?_
    simp only [Extent.bytes, MemoryMap.bytes, Set.mem_Ico, Machine.counter, h.counter] at ha ha'
    omega
  · have := (hinside id hid).2
    refine Set.disjoint_left.2 fun a ha ha' => ?_
    simp only [Extent.bytes, Set.mem_Ico, Machine.counter, h.counter] at ha ha'
    omega

/-- Every machine whose memory can be addressed has registers that point where
its plan says. -/
theorem exists_planned (hd : m.design.Prepared) (hsize : m.design.memory.size < 2 ^ 32) :
    ∃ registers, registers.status = 0 ∧ ({ m with registers } : Machine).Planned := by
  have hscratch := MemoryMap.Sound.base_le_stop m.design.memory .scratch
  have hstop := hd.sound.stop_le_size .scratch
  have hhandshake := (hd.sound.inside_home (e := .handshake) rfl).2
  simp only [Graph.home, Extent.stop] at hhandshake
  refine ⟨{ globalAddress := UInt32.ofNat (m.design.memory.base .scratch)
            handshakeAddress := UInt32.ofNat m.design.memory.handshake }, rfl, ?_, ?_⟩
  · exact UInt32.toNat_ofNat_of_lt' (lt_of_le_of_lt (le_trans hscratch hstop) hsize)
  · exact UInt32.toNat_ofNat_of_lt' (lt_of_le_of_lt (by omega) hsize)

/-! ## A place that was not planned -/

/-- Registers that point beyond the planned memory: scratch begins where that
ends, and the counter lies behind as much again. -/
structure Moved (m : Machine) : Prop where
  scratch : m.registers.globalAddress.toNat = m.design.memory.size
  counter : m.registers.handshakeAddress.toNat = 2 * m.design.memory.size

/-- Beyond the planned memory there are the intermediates, and only these. -/
theorem Moved.extent_spec (h : m.Moved) (hd : m.design.Prepared) {id : TensorId}
    (hid : id < m.design.graph.tensors.size) :
    if (m.design.graph.tensor id).kind.isIntermediate then
      m.design.memory.size ≤ (m.extent id).base ∧ (m.extent id).stop ≤ 2 * m.design.memory.size
    else (m.extent id).stop ≤ m.design.memory.size := by
  obtain ⟨address, haddress, -, hplace⟩ := hd.sound.address_home hid
  have hscratch := hd.sound.stop_le_size .scratch
  have hparameters := hd.sound.stop_le_size .parameters
  simp only [extent, Extent.stop, location, haddress, Option.getD_some, h.scratch]
  split at hplace <;> rename_i hkind
  · simp only [if_pos hkind]
    omega
  · simp only [if_neg hkind]
    omega

/-- **Such a place hosts a machine** on an open image that holds the parameters
and reaches behind the counter. -/
theorem Moved.hosted (h : m.Moved) (hd : m.design.Prepared) (hopen : image.protections = [])
    (hsize : 2 * m.design.memory.size + 4 ≤ image.size)
    (hblob : image.Holds (m.design.memory.base .parameters) m.design.blob) : m.Hosted image := by
  have hstop (k : RegionKind) := hd.sound.stop_le_size k
  have hwritable {x : Extent} (hx : x.stop ≤ 2 * m.design.memory.size + 4) :
      image.Writable x.base x.size :=
    ⟨le_trans hx hsize, by simp [hopen]⟩
  have hinside {id : TensorId} (hid : id ∈ m.design.graph.intermediates) :
      m.design.memory.size ≤ (m.extent id).base ∧ (m.extent id).stop ≤
        2 * m.design.memory.size := by
    obtain ⟨hid, hkind⟩ := hd.wellFormed.mem_idsWhere.1 hid
    have hextent := h.extent_spec hd hid
    rwa [if_pos hkind] at hextent
  refine ⟨fun k _ => ?_, hblob, fun id hid => hwritable ?_, fun id hid => hwritable ?_,
    hwritable ?_, fun id hid k _ => ?_, fun k _ => ?_, fun id hid => ?_⟩
  · have := hstop k
    omega
  · obtain ⟨hid, -⟩ := hd.wellFormed.mem_idsWhere.1 hid
    have hextent := h.extent_spec hd hid
    split at hextent <;> omega
  · exact le_trans (hinside hid).2 (by omega)
  · simp only [Extent.stop, Machine.counter, h.counter]
    exact le_rfl
  · have := (hinside hid).1
    have := hstop k
    refine Set.disjoint_left.2 fun a ha ha' => ?_
    simp only [Extent.bytes, MemoryMap.bytes, Set.mem_Ico] at ha ha'
    omega
  · have := hstop k
    refine Set.disjoint_left.2 fun a ha ha' => ?_
    simp only [Extent.bytes, MemoryMap.bytes, Set.mem_Ico, Machine.counter, h.counter] at ha ha'
    omega
  · have := (hinside hid).2
    refine Set.disjoint_left.2 fun a ha ha' => ?_
    simp only [Extent.bytes, Set.mem_Ico, Machine.counter, h.counter] at ha ha'
    omega

/-- Every machine whose memory can be addressed twice has such a host. -/
theorem exists_moved (hd : m.design.Prepared) (hsize : 2 * m.design.memory.size < 2 ^ 32) :
    ∃ registers image, registers.status = 0 ∧ ({ m with registers } : Machine).Moved ∧
      ({ m with registers } : Machine).Hosted image := by
  have hblob := (Graph.parameterBlob_ok hd.wellFormed hd.quantized hd.arranged hd.sound hd.blob).1
  have hmoved : ({ m with registers := { globalAddress := UInt32.ofNat m.design.memory.size
                                         handshakeAddress := UInt32.ofNat
                                           (2 * m.design.memory.size) } } :
      Machine).Moved :=
    ⟨UInt32.toNat_ofNat_of_lt' (lt_of_le_of_lt (by omega) hsize), UInt32.toNat_ofNat_of_lt' hsize⟩
  let bytes : Bytes := Bytes.splice (Array.replicate (2 * m.design.memory.size + 4) 0)
    (m.design.memory.base .parameters) m.design.blob.toList
  have hbytes : bytes.size = 2 * m.design.memory.size + 4 := by simp [bytes]
  refine ⟨_, { bytes }, rfl, hmoved, hmoved.hosted hd rfl hbytes.ge (Bytes.holdsAt_splice ?_)⟩
  rw [hblob, Array.size_replicate]
  exact le_trans (hd.sound.stop_le_size .parameters) (by omega)

/-! ## Starting -/

/-- The machine with a start requested. -/
def started (m : Machine) : Machine :=
  { m with registers := { m.registers with start := true } }

/-- A write to a register sets it. -/
theorem writeControl_eq (m : Machine) (r : Register) (value : UInt32) :
    (Device.writeControl m r.offset value).outcome =
      .ok { m with registers := m.registers.set value r } := by
  have hwrite : (m.registers.write r.offset value).outcome = .ok (m.registers.set value r) := by
    cases r <;> rfl
  simp only [Device.writeControl, ControlWrite.outcome_ofTraced, Traced.outcome_bind, hwrite]
  rfl

/-- A machine that is not busy takes a start request. -/
theorem writeControl_start (hidle : m.registers.status &&& Status.busy = 0) {value : UInt32}
    (hvalue : value &&& startStrobe ≠ 0) :
    (Device.writeControl m Register.start.offset value).outcome = .ok m.started := by
  have hset : m.registers.set value .start = { m.registers with start := true } := by
    simp [Registers.set, hidle, hvalue]
  rw [writeControl_eq, hset, started]

/-- A start request moves nothing. -/
theorem Hosted.started (h : m.Hosted image) : m.started.Hosted image :=
  ⟨h.covers, h.parameters, h.outputs, h.scratch, h.counter, h.scratch_out, h.counter_out,
    h.counter_scratch⟩

/-- **The machine refines the evaluator, wherever scratch and counter lie.** A
machine that came out of a compilation is in any state but busy, on an image
that hosts it, and START is written. Then no edge fails, and the edge at which
the status turns to DONE leaves every result as the evaluator assigns it to the
inputs that were in the image; all bytes but those of results and counter are as
before. -/
theorem run_refines_evaluate {g : Graph} {ctx : Context} {ranges : ValueRanges}
    {requests : AttributeRequests} {backend : MachineBackend} {c : Compilation Machine}
    (hg : g.Finished) (hc : (g.compile ctx ranges requests backend).result.outcome = .ok c)
    (hm : m = { c.product with
      registers := m.registers, phase := m.phase, completed := m.completed })
    (hidle : m.registers.status &&& Status.busy = 0) (h : m.Hosted image) {value : UInt32}
    (hvalue : value &&& startStrobe ≠ 0) :
    ∃ started finished image' v,
      (Device.writeControl m Register.start.offset value).outcome = .ok started ∧
      Runs Busy (1 + (c.product.plans.map (·.cycles)).sum) started image finished image' ∧
      finished.registers.status = Status.done ∧
      c.design.graph.evaluate (m.valuesIn image) = .ok v ∧
      (∀ i < c.design.graph.operators.size, ∃ values,
        v (c.design.graph.operator i).output = some values ∧
          image'.readTensor (m.location (c.design.graph.operator i).output)
            (c.design.graph.tensor (c.design.graph.operator i).output) = .ok values) ∧
      Image.ChangesOnly m.written image image' := by
  obtain ⟨hd, order, he⟩ := Graph.compile_emitted hg hc
  obtain ⟨hdesign, hplans, he'⟩ := he.of_state hm
  rw [← hdesign] at hd he' ⊢
  obtain ⟨v, image', hv, hrun, hprogress⟩ :=
    h.started.runs hd ⟨rfl, he'.ports, he'.order_ok, he'.plans⟩ rfl
  refine ⟨_, _, image', v, writeControl_start hidle hvalue, hplans ▸ hrun, rfl, hv, fun i hi => ?_,
    hprogress.changes⟩
  exact hprogress.values _ (hd.wellFormed.output_lt i hi)
    (.inr ⟨i, (he'.ordered hd).mem_iff.2 hi, rfl⟩)

/-- The dense layer with its scratch where the planned memory ends, and its
counter behind that. -/
theorem run_refines_evaluate_dense :
    ∃ (g : Graph) (c : Compilation Machine) (m : Machine) (image : Image),
    g.Finished ∧
      (g.compile Graph.denseContext Graph.denseRanges [] ({} : MachineBackend)).result.outcome =
        .ok c ∧
      m.registers.globalAddress.toNat = c.design.memory.size ∧
      m.registers.handshakeAddress.toNat = 2 * c.design.memory.size ∧
      m.Hosted image ∧
      ∃ started finished image' v,
        (Device.writeControl m Register.start.offset startStrobe).outcome = .ok started ∧
        Runs Busy (1 + (c.product.plans.map (·.cycles)).sum) started image finished image' ∧
        finished.registers.status = Status.done ∧
        c.design.graph.evaluate (m.valuesIn image) = .ok v ∧
        (∀ i < c.design.graph.operators.size, ∃ values,
          v (c.design.graph.operator i).output = some values ∧
            image'.readTensor (m.location (c.design.graph.operator i).output)
              (c.design.graph.tensor (c.design.graph.operator i).output) = .ok values) ∧
        Image.ChangesOnly m.written image image' := by
  obtain ⟨g, c, hg, hc, -, hsize⟩ := Graph.exists_denseCompilation
  obtain ⟨hd, order, he⟩ := Graph.compile_emitted hg hc
  rw [← he.design] at hd hsize
  obtain ⟨registers, image, hidle, hmoved, hosted⟩ := exists_moved hd (by omega)
  exact ⟨g, c, { c.product with registers }, image, hg, hc, he.design ▸ hmoved.scratch,
    he.design ▸ hmoved.counter, hosted, run_refines_evaluate hg hc rfl (by rw [hidle]; rfl) hosted
      (by decide)⟩

end Machine

end QuantAccel
