import QuantAccel.Proofs.Simulation

/-!
# Results do not depend on the schedule

A schedule says how wide an operator works, how tensors are padded and where
they lie, and none of that is seen by the numbers. Two compilations of one graph
have the same logical graph, and evaluation is a function of the logical graph
alone. A machine that has run to its end has left the values of the evaluator,
on whatever image it ran: an image on which it could not have stored a result
would have stopped it.
-/

namespace QuantAccel

/-! ## Evaluation sees the logical graph -/

namespace Operation

theorem inputs_logical (o : Operation) : o.logical.inputs = o.inputs := by
  cases o <;> rfl

theorem output_logical (o : Operation) : o.logical.output = o.output := by
  cases o <;> rfl

end Operation

namespace Operator

@[simp] theorem id_logical (op : Operator) : op.logical.id = op.id := rfl

@[simp] theorem inputs_logical (op : Operator) : op.logical.inputs = op.inputs :=
  op.operation.inputs_logical

@[simp] theorem output_logical (op : Operator) : op.logical.output = op.output :=
  op.operation.output_logical

end Operator

namespace Graph

variable {α : Type} (g : Graph)

/-- The order of evaluation is that of the erased graph. -/
theorem order_logical : g.logical.order = g.order :=
  order_eq_of_declared_eq g.declared_logical

theorem idsWhere_logical (p : TensorKind → Bool) : g.logical.idsWhere p = g.idsWhere p := by
  simp [idsWhere, logical, List.filter_map, Function.comp_def, Tensor.logical]

theorem bindInputs_logical (inputs : Valuation Int) :
    g.logical.bindInputs inputs = g.bindInputs inputs := by
  rw [bindInputs, bindInputs, placeholders, idsWhere_logical]
  refine foldlM_congr (fun id _ v => ?_) _
  rw [tensor_logical]
  rfl

theorem bindParameters_logical (v : Valuation Int) :
    g.logical.bindParameters v = g.bindParameters v := by
  have htensors : g.logical.tensors.toList = g.tensors.toList.map Tensor.logical := by
    simp [logical]
  rw [bindParameters, bindParameters, htensors, List.foldlM_map]
  rfl

theorem fetch_logical (v : Valuation Int) (id : TensorId) :
    g.logical.fetch v id = g.fetch v id := by
  rw [fetch, fetch, tensor_logical]
  rfl

/-- The result of an operator does not depend on parallelism or places. -/
theorem operatorResult_logical (v : Valuation Int) (op : Operator) :
    g.logical.operatorResult v op.logical = g.operatorResult v op := by
  have hfetch : g.logical.fetch v = g.fetch v := funext (g.fetch_logical v)
  unfold operatorResult
  rw [Operator.output_logical, tensor_logical, hfetch]
  cases hop : op.operation with
  | matmul o =>
    have hdims : g.logical.matmulDims { o with factors := none } = g.matmulDims o := by
      simp only [matmulDims, tensor_logical]
      rfl
    simp only [Operator.logical, hop, Operation.logical, hdims]
    rfl
  | add o =>
    simp only [Operator.logical, hop, Operation.logical]
    rfl
  | normalize o =>
    simp only [Operator.logical, hop, Operation.logical]
    rfl
  | activate o =>
    simp only [Operator.logical, hop, Operation.logical]
    rfl

/-- **Evaluation is a function of the logical graph.** -/
theorem evaluate_logical (inputs : Valuation Int) :
    g.logical.evaluate inputs = g.evaluate inputs := by
  simp only [evaluate, bindInputs_logical, bindParameters_logical, order_logical, operator_logical,
    operatorResult_logical, Operator.output_logical]

end Graph

/-! ## Compilations of one graph -/

namespace Graph

variable {g : Graph} {ranges : ValueRanges} {requests : AttributeRequests} {ctx : Context}

/-- The stages after quantization add nothing that the logical graph has. -/
theorem prepare_logical {d : Design} (hg : g.WellFormed)
    (h : (g.prepare ctx ranges requests).outcome = .ok d) :
    ∃ q, g.quantize ranges = .ok q ∧ d.graph.logical = q.logical := by
  simp only [prepare, Traced.outcome_bind, bind_ok_iff, outcome_during, mapError_ok_iff] at h
  obtain ⟨q, hq, s, hs, hd⟩ := h
  obtain ⟨hdecl, -⟩ := quantize_spec hg hq
  have hwell := (sameDeclaration hdecl).wellFormed hg
  obtain ⟨-, hlogical, -⟩ := schedule_spec hwell hs
  have hwell' := (sameDeclaration (declared_eq_of_logical_eq hlogical)).wellFormed hwell
  obtain ⟨hadds, -⟩ := planMemory_ok hwell' (toDesign_ok hd).1
  exact ⟨q, hq, hadds.logical.trans hlogical⟩

end Graph

/-! ## Machines that have run to their end -/

namespace Machine

open Device (Steps Runs)

variable {m m' : Machine} {image image₁ image' : Image} {order before after : List OperatorId}
variable {i : OperatorId} {inputs v : Valuation Int} {P : Machine → Prop} {n : Nat}

/-- At its planned place a machine keeps what it writes apart. -/
theorem Planned.separate (h : m.Planned) (hd : m.design.Prepared) : m.Separate where
  apart id hid _ id' hid' hne :=
    hd.sound.apart _ _ _ _ (h.extent_eq hd hid) (h.extent_eq hd hid') (by simpa using hne.symm)
  counter_apart id hid := by
    have hbelow := hd.sound.below_handshake _ _ (h.extent_eq hd hid) (by simp)
    refine .inl ?_
    rw [Machine.counter, h.counter]
    exact hbelow

/-- The last edge of a fetch fails unless the output can be cleared. -/
theorem writable_of_latch {k c base : Nat} {operands : List (Array Int)} {s : Machine}
    (hread : m.readOperands image (m.operatorAt k) = .ok operands)
    (haddress : m.addressOf (m.operatorAt k).output = .ok base)
    (h : Steps (m.working (.fetch k 1) c) image s image') :
    image.Writable base (m.design.graph.tensor (m.operatorAt k).output).memorySize := by
  have hread' : (m.working (.fetch k 1) c).readOperands image (m.operatorAt k) =
      .ok operands := hread
  have haddress' : (m.working (.fetch k 1) c).addressOf (m.operatorAt k).output =
      .ok base := haddress
  have hoperator : (m.working (.fetch k 1) c).operatorAt k = m.operatorAt k := rfl
  have hfault : ((m.working (.fetch k 1) c).latch k image).fault = none := h.fault_eq
  simp only [latch, hoperator, hread', haddress'] at hfault
  by_contra hw
  have hw' : ¬image.Writable base
      ((m.working (.fetch k 1) c).design.graph.tensor (m.operatorAt k).output).memorySize := hw
  obtain ⟨fault, hattempt⟩ := Image.attempt_of_not_writable hw' (fun bytes => bytes.splice base
    (List.replicate
      ((m.working (.fetch k 1) c).design.graph.tensor (m.operatorAt k).output).memorySize 0))
  rw [hattempt] at hfault
  cases hfault

/-- The completion of an operator fails unless the counter can be written. -/
theorem writable_of_complete {k : Nat} (phase : Phase)
    (h : ((m.working phase k).complete k image).fault = none) :
    image.Writable m.counter.base m.counter.size := by
  by_contra hw
  obtain ⟨fault, hattempt⟩ :=
    Image.attempt_of_not_writable hw (fun bytes => bytes.splice m.counter.base
    (Bytes.ofWord (UInt32.ofNat (k + 1))))
  have hfault : ((m.working phase k).complete k image).fault = some fault := by
    unfold complete
    simp only [working]
    rw [Machine.counter] at hattempt
    rw [hattempt]
    rfl
  rw [hfault] at h
  cases h

namespace Progress

variable (hd : m.design.Prepared) (hv : m.design.graph.Assigned inputs v) (hseparate : m.Separate)
variable (hm : m.Emitted m.design order)
include hd hv hm

/-- **A machine that has run to its end could write.** On its way from one
operator to the next it cleared the result and published the counter, and
neither failed. -/
theorem writable_of_done (hsplit : order = before ++ i :: after)
    (h : m.Progress v image before image₁)
    (hrun : Runs P n (m.arrived before.length) image₁ m' image') (hdone : ¬m'.Busy) :
    image₁.Writable (m.extent (m.design.graph.operator i).output).base
        (m.extent (m.design.graph.operator i).output).size ∧
      image₁.Writable m.counter.base m.counter.size := by
  have hout := hd.wellFormed.output_lt i ((hm.ordered hd).lt_of_split hsplit)
  obtain ⟨plan, operands, f, hplan, hoperator, hcovers, hread, helement, hcontains, hvalues⟩ :=
    h.ready hd hv hm hsplit
  have hbusy := busy_of_plan hplan
  -- up to the last edge of the fetch
  have hw : image₁.Writable (m.extent (m.design.graph.operator i).output).base
      (m.extent (m.design.graph.operator i).output).size := by
    obtain ⟨c, hc⟩ := Nat.exists_eq_add_of_le' hcovers.fetch_pos
    have hcounted : Runs Busy c (m.arrived before.length) image₁
        (m.working (.fetch before.length 1) before.length) image₁ := by
      rw [arrived_of_plan hplan, hc]
      exact runs_counted (fun n => .fetch before.length n) steps_fetch
    obtain ⟨n', hrest⟩ := hcounted.resume hbusy hrun hdone
    cases hrest with
    | refl => exact absurd (busy_working m _ _) hdone
    | edge first _ _ =>
      rw [← hoperator] at hread hout ⊢
      exact writable_of_latch hread (addressOf_eq hd hout) first
  refine ⟨hw, ?_⟩
  -- up to the edge that completes the operator
  obtain ⟨c, phase, image₂, -, hstored, hstep⟩ := runs_to_complete hoperator hplan hcovers
    (hd.arranged.laid _ hout) hread (addressOf_eq hd hout) hw helement
  obtain ⟨n', hrest⟩ := hstored.resume hbusy hrun hdone
  cases hrest with
  | refl => exact absurd (busy_working m _ _) hdone
  | edge first _ _ =>
    have hfault : ((m.working phase before.length).step image₂).fault = none := first.fault_eq
    rw [hstep] at hfault
    have hchanges := Image.changesOnly_stored (hd.arranged.laid _ hout) hw.inBounds f
      (plan.tiles.flatMap (·.elements))
    exact hchanges.writable_iff.1 (writable_of_complete phase hfault)

include hseparate

/-- **The rest of a run that has come to its end** went through all operators
that were left. -/
theorem run_of_done (rest : List OperatorId) (hsplit : order = before ++ rest)
    (h : m.Progress v image before image₁)
    (hrun : Runs P n (m.arrived before.length) image₁ m' image') (hdone : ¬m'.Busy) :
    m.Progress v image order image' := by
  induction rest generalizing before image₁ n with
  | nil =>
    rw [List.append_nil] at hsplit
    have hnone : m.plans.length ≤ before.length := by rw [← hm.plans.length_eq, hsplit]
    have harrived : m.arrived before.length = m.finished before.length := by
      rw [arrived, List.getElem?_eq_none hnone]
    rw [harrived] at hrun
    -- a machine that is done does nothing more
    obtain ⟨-, rfl⟩ := (runs_idle rfl rfl image₁ n).unique hrun
    exact hsplit ▸ h
  | cons i rest ih =>
    obtain ⟨hw, hh⟩ := h.writable_of_done hd hv hm hsplit hrun hdone
    obtain ⟨plan, image₂, hplan, hoperator, h₂⟩ := h.step hd hv hseparate hm hsplit hw hh
    obtain ⟨n', hrest⟩ := hoperator.resume (busy_of_plan hplan) hrun hdone
    have hlength : before.length + 1 = (before ++ [i]).length := by simp
    rw [hlength] at hrest
    exact ih (by simp [hsplit]) h₂ hrest

end Progress

/-- The machine of a compilation, in any state. -/
def EmittedBy (m : Machine) (c : Compilation Machine) : Prop :=
  m = { c.product with registers := m.registers, phase := m.phase, completed := m.completed }

/-- A run from a start to the end: a machine that is not busy, with registers
that point where its own memory plan says, is started on an image with its
parameters, and is done after some edges, none of which fails. -/
structure RunsToDone (m : Machine) (image : Image) (m' : Machine) (image' : Image) : Prop where
  idle : m.registers.status &&& Status.busy = 0
  planned : m.Planned
  parameters : image.read (m.design.memory.base .parameters) m.design.blob.size = .ok m.design.blob
  run : ∃ started n, (Device.writeControl m Register.start.offset startStrobe).outcome =
    .ok started ∧
    Runs (fun _ => True) (n + 1) started image m' image'
  done : m'.registers.status &&& Status.done ≠ 0

/-- **A machine that has run to its end has left the values of the evaluator**,
on whatever image. -/
theorem RunsToDone.outputs (h : m.RunsToDone image m' image') (hd : m.design.Prepared)
    (hm : m.Emitted m.design order) (inputs : Valuation Int)
    (hinputs : ∀ id ∈ m.design.graph.placeholders, ∃ values,
      inputs id = some values ∧ image.Has (m.design.graph.tensor id) values) :
    ∃ v, m.design.graph.evaluate inputs = .ok v ∧ ∀ id ∈ m.design.graph.outputs, ∃ values,
      v id = some values ∧ image'.Has (m.design.graph.tensor id) values := by
  obtain ⟨started, n, hstarted, hrun⟩ := h.run
  rw [writeControl_start h.idle (by decide), Except.ok.injEq] at hstarted
  subst hstarted
  have hplanned : m.started.Planned := ⟨h.planned.scratch, h.planned.counter⟩
  have hm' : m.started.Emitted m.started.design order := ⟨rfl, hm.ports, hm.order_ok, hm.plans⟩
  have hbusy : ¬m'.Busy := by
    intro hbusy
    have hdone := h.done
    rw [hbusy] at hdone
    exact hdone (by decide)
  obtain ⟨v, hv, hassigned⟩ :=
    Graph.evaluate_ok hd.wellFormed hd.quantized hm.order_ok fun id hid => by
    obtain ⟨values, hvalues, address, -, hread⟩ := hinputs id hid
    exact ⟨values, hvalues, Image.size_of_readTensor hread⟩
  obtain ⟨hstop, hholds⟩ := Image.read_eq_ok_iff.1 h.parameters
  rw [(Graph.parameterBlob_ok hd.wellFormed hd.quantized hd.arranged hd.sound hd.blob).1] at hstop
  -- at its planned place the machine reads a tensor where its address says
  have hat {image : Image} {id : TensorId} (hid : id < m.design.graph.tensors.size)
      {values : Array Int} :
      image.Has (m.design.graph.tensor id) values ↔
        image.readTensor (m.started.location id) (m.design.graph.tensor id) = .ok values := by
    rw [hplanned.location_eq hd hid]
    refine ⟨fun ⟨address, haddress, hread⟩ => ?_, hd.has_of_read hid⟩
    change image.readTensor ((m.design.graph.tensor id).address.getD 0) _ = _
    rwa [haddress]
  have hnone : m.started.Progress v image [] image := by
    refine ⟨.refl _ _, fun id hid hresult => ?_, fun hne => absurd rfl hne⟩
    rcases hd.wellFormed.outside hid (hresult.resolve_right (by simp)) with hplaceholder | hparam
    · obtain ⟨values, hvalues, hhas⟩ := hinputs id hplaceholder
      exact ⟨values, (hassigned.placeholder id hplaceholder).trans hvalues, (hat hid).1 hhas⟩
    · obtain ⟨ints, address, hints, haddress, hread⟩ :=
        hd.readTensor_parameter hholds hstop hid hparam
      exact ⟨ints, (hassigned.parameter id hid hparam).trans hints,
        (hat hid).1 ⟨address, haddress, hread⟩⟩
  -- the first edge takes the request; what follows is the run over the whole
  -- order
  cases hrun with
  | edge first _ rest =>
    obtain rfl := (steps_launch (m := m.started) rfl image).device_eq.symm.trans first.device_eq
    obtain rfl := (steps_launch (m := m.started) rfl image).image_eq.symm.trans first.image_eq
    have hprogress := Progress.run_of_done (m := m.started) hd hassigned
      (hplanned.separate hd) hm' order
      rfl hnone rest hbusy
    refine ⟨v, hv, fun id hid => ?_⟩
    obtain ⟨hlt, i, hi, hout⟩ := hd.wellFormed.exists_writer hid
    obtain ⟨values, hvalues, hread⟩ := hprogress.values id hlt
      (.inr ⟨i, (hm.ordered hd).mem_iff.2 hi, hout⟩)
    exact ⟨values, hvalues, (hat hlt).2 hread⟩

/-- A machine that was emitted for a compilation runs its design. -/
theorem EmittedBy.emitted {c : Compilation Machine} (h : m.EmittedBy c)
    (hc : c.product.Emitted c.design order) :
    m.design = c.design ∧ m.Emitted m.design order := by
  obtain ⟨hdesign, -, hm⟩ := hc.of_state h
  exact ⟨hdesign, hdesign.symm ▸ hm⟩

end Machine

/-- **Scheduling never changes results.** Two compilations of one graph with the
same value ranges may differ in attributes, configuration and backend. Their
graphs are the same but for parallelism, layouts and addresses; evaluation is
the same on all inputs; and where both machines have run to their end, from
images with the same inputs, each has left the same values in every output. -/
theorem results_independent_of_schedule {g : Graph} {ranges : ValueRanges} (hg : g.Finished)
    {ctx₁ ctx₂ : Context} {requests₁ requests₂ : AttributeRequests}
    {backend₁ backend₂ : MachineBackend} {c₁ c₂ : Compilation Machine}
    (hc₁ : (g.compile ctx₁ ranges requests₁ backend₁).result.outcome = .ok c₁)
    (hc₂ : (g.compile ctx₂ ranges requests₂ backend₂).result.outcome = .ok c₂) :
    c₂.design.graph.logical = c₁.design.graph.logical ∧
    (∀ inputs, c₂.design.graph.evaluate inputs = c₁.design.graph.evaluate inputs) ∧
    ∀ (m₁ m₁' m₂ m₂' : Machine) (image₁ image₁' image₂ image₂' : Image),
      m₁.EmittedBy c₁ → m₁.RunsToDone image₁ m₁' image₁' →
      m₂.EmittedBy c₂ → m₂.RunsToDone image₂ m₂' image₂' →
      (∀ id ∈ c₁.design.graph.placeholders, ∃ values,
        image₁.Has (c₁.design.graph.tensor id) values ∧
        image₂.Has (c₂.design.graph.tensor id) values) →
      ∀ id ∈ c₁.design.graph.outputs, ∃ values, image₁'.Has (c₁.design.graph.tensor id) values ∧
        image₂'.Has (c₂.design.graph.tensor id) values := by
  obtain ⟨hd₁, order₁, he₁⟩ := Graph.compile_emitted hg hc₁
  obtain ⟨hd₂, order₂, he₂⟩ := Graph.compile_emitted hg hc₂
  -- quantization does not look at what the compilations differ in
  have hlogical : c₂.design.graph.logical = c₁.design.graph.logical := by
    obtain ⟨q₁, hq₁, hlogical₁⟩ := Graph.prepare_logical hg.wellFormed (Graph.compile_stages hc₁).1
    obtain ⟨q₂, hq₂, hlogical₂⟩ := Graph.prepare_logical hg.wellFormed (Graph.compile_stages hc₂).1
    obtain rfl : q₁ = q₂ := Except.ok.inj (hq₁.symm.trans hq₂)
    rw [hlogical₁, hlogical₂]
  have hevaluate (inputs : Valuation Int) :
      c₂.design.graph.evaluate inputs = c₁.design.graph.evaluate inputs := by
    rw [← Graph.evaluate_logical, hlogical, Graph.evaluate_logical]
  have hsame := Graph.sameDeclaration (Graph.declared_eq_of_logical_eq hlogical)
  refine ⟨hlogical, hevaluate,
    fun m₁ m₁' m₂ m₂' image₁ image₁' image₂ image₂' hm₁ hrun₁ hm₂ hrun₂ hinputs => ?_⟩
  obtain ⟨hdesign₁, hemitted₁⟩ := hm₁.emitted he₁
  obtain ⟨hdesign₂, hemitted₂⟩ := hm₂.emitted he₂
  choose! values hvalues using hinputs
  rw [← hdesign₁] at hd₁ hvalues hevaluate hsame ⊢
  rw [← hdesign₂] at hd₂ hvalues hevaluate hsame ⊢
  have hplaceholders : m₂.design.graph.placeholders = m₁.design.graph.placeholders :=
    hsame.idsWhere hd₁.wellFormed _
  have houtputs : m₂.design.graph.outputs = m₁.design.graph.outputs :=
    hsame.idsWhere hd₁.wellFormed _
  -- both runs leave the values of their evaluator, and these are the same
  obtain ⟨v₁, hv₁, houtputs₁⟩ := hrun₁.outputs hd₁ hemitted₁ (fun id => some (values id))
    fun id hid => ⟨_, rfl, (hvalues id hid).1⟩
  obtain ⟨v₂, hv₂, houtputs₂⟩ := hrun₂.outputs hd₂ hemitted₂ (fun id => some (values id))
    fun id hid => ⟨_, rfl, (hvalues id (hplaceholders ▸ hid)).2⟩
  obtain rfl : v₂ = v₁ := Except.ok.inj (hv₂.symm.trans ((hevaluate _).trans hv₁))
  intro id hid
  obtain ⟨outcome, hsome, hhas₁⟩ := houtputs₁ id hid
  obtain ⟨outcome', hsome', hhas₂⟩ := houtputs₂ id (houtputs.symm ▸ hid)
  obtain rfl := Option.some.inj (hsome.symm.trans hsome')
  exact ⟨outcome, hhas₁, hhas₂⟩

/-- Every compiled machine that can be addressed runs to its end, from every
input in range. -/
theorem exists_runsToDone {g : Graph} {ctx : Context} {ranges : ValueRanges}
    {requests : AttributeRequests} {backend : MachineBackend} {c : Compilation Machine}
    (hg : g.Finished) (hc : (g.compile ctx ranges requests backend).result.outcome = .ok c)
    {stimulus : Stimulus} (hdrive : c.design.Drivable stimulus) :
    ∃ m m' image image', Machine.EmittedBy m c ∧ m.RunsToDone image m' image' ∧
      ∀ id ∈ c.design.graph.placeholders, ∃ values, stimulus.inputs id = some values ∧
        image.Has (c.design.graph.tensor id) values := by
  obtain ⟨hd, order, he⟩ := Graph.compile_emitted hg hc
  obtain ⟨image, clock, journal, -, hloaded, himage, hguarded⟩ := Bench.runFrom_launch
    (b := ⟨c.design, c.product, ({} : CycleClock), {}, stimulus, .filled c.design.memory.size 0,
      .idle, 0, 0, 0, #[]⟩) ⟨hd, Array.size_replicate, rfl⟩ rfl he.design hdrive
  dsimp only at hloaded himage hguarded
  obtain ⟨v, m', image', -, hrun, hdone, -, -⟩ :=
    Machine.runs_addressed he hd hdrive hloaded himage hguarded
  have hrun' := hrun.mono fun _ _ => trivial
  rw [Nat.add_comm] at hrun'
  obtain ⟨hdesign, hports, horder, hplans⟩ := he
  have hprepared : c.product.design.Prepared := hdesign ▸ hd
  have hidle : c.product.addressed.registers.status &&& Status.busy = 0 := by
    change (0 : UInt32) &&& Status.busy = 0
    decide
  refine ⟨c.product.addressed, m', image, image', rfl, ⟨hidle, ?_, ?_, ?_, ?_⟩,
    fun id hid => hloaded.has_suited hd himage hdrive.inputs hid⟩
  · exact Machine.planned_addressed hprepared (hdesign.symm ▸ hdrive)
  · change image.read (c.product.design.memory.base .parameters) c.product.design.blob.size =
      .ok c.product.design.blob
    rw [hdesign]
    refine Image.read_eq_ok_iff.2 ⟨?_, hloaded.parameters⟩
    rw [(Graph.parameterBlob_ok hd.wellFormed hd.quantized hd.arranged hd.sound hd.blob).1, himage]
    exact hd.sound.stop_le_size _
  · exact ⟨_, _, Machine.writeControl_start hidle (by decide), hrun'⟩
  · rw [hdone]
    decide

/-- A wider bus with larger chunks. -/
def Graph.wideContext : Context :=
  { denseContext with config := { busWidth := 32, chunkSize := 16, burstPolicy := .widen } }

/-- Three rows at a time and eight columns for the matrix product of the dense
layer. -/
def Graph.wideRequests : AttributeRequests :=
  [("y", { leftRows := some 3, outColumns := some 8 })]

/-- The dense layer again, with all this and a longer pipeline. -/
def Graph.wideCompilation : Except CompileError (Compilation Machine) := do
  let g ← (build denseCalls).finish.outcome.mapError .graph
  (g.compile wideContext denseRanges wideRequests
    ({ latency := 5 } : MachineBackend)).result.outcome

/-- Two compilations that differ in bus, chunks, attributes and pipeline. -/
theorem results_independent_of_schedule_dense : ∃ (g : Graph) (c₁ c₂ : Compilation Machine)
    (m₁ m₁' m₂ m₂' : Machine) (image₁ image₁' image₂ image₂' : Image), g.Finished ∧
      (g.compile Graph.denseContext Graph.denseRanges [] ({} : MachineBackend)).result.outcome =
        .ok c₁ ∧
      (g.compile Graph.wideContext Graph.denseRanges Graph.wideRequests
        ({ latency := 5 } : MachineBackend)).result.outcome = .ok c₂ ∧
      c₁.design.memory.size = 36 ∧ c₂.design.memory.size = 448 ∧
      m₁.EmittedBy c₁ ∧ m₁.RunsToDone image₁ m₁' image₁' ∧ m₂.EmittedBy c₂ ∧
        m₂.RunsToDone image₂ m₂' image₂' ∧
      c₂.design.graph.logical = c₁.design.graph.logical ∧
      ∃ id ∈ c₁.design.graph.outputs, ∃ values, image₁'.Has (c₁.design.graph.tensor id) values ∧
        image₂'.Has (c₂.design.graph.tensor id) values := by
  have hok :
      (Graph.denseCompilation.toOption.any fun c₁ => Graph.wideCompilation.toOption.any fun c₂ =>
      decide (c₁.design.Drivable Bench.denseStimulus ∧ c₂.design.Drivable Bench.denseStimulus ∧
        c₁.design.memory.size = 36 ∧ c₂.design.memory.size = 448 ∧ c₁.design.graph.outputs ≠ [])) =
          true := by
    decide +kernel
  obtain ⟨c₁, hc₁, hok⟩ := (Option.any_eq_true _ _).1 hok
  obtain ⟨c₂, hc₂, hok⟩ := (Option.any_eq_true _ _).1 hok
  obtain ⟨hdrive₁, hdrive₂, hsmall, hlarge, houtputs⟩ := of_decide_eq_true hok
  simp only [toOption_eq_some_iff, Graph.denseCompilation, bind_ok_iff, mapError_ok_iff] at hc₁
  simp only [toOption_eq_some_iff, Graph.wideCompilation, bind_ok_iff, mapError_ok_iff] at hc₂
  obtain ⟨g, hfinish, hc₁⟩ := hc₁
  obtain ⟨g', hfinish', hc₂⟩ := hc₂
  -- both compilations are of one graph
  obtain rfl : g = g' := Except.ok.inj (hfinish.symm.trans hfinish')
  have hg : g.Finished := ⟨_, hfinish⟩
  obtain ⟨m₁, m₁', image₁, image₁', hm₁, hrun₁, hvalues₁⟩ :=
    exists_runsToDone hg hc₁ hdrive₁
  obtain ⟨m₂, m₂', image₂, image₂', hm₂, hrun₂, hvalues₂⟩ :=
    exists_runsToDone hg hc₂ hdrive₂
  obtain ⟨hlogical, -, hsame⟩ := results_independent_of_schedule hg hc₁ hc₂
  have hplaceholders : c₂.design.graph.placeholders = c₁.design.graph.placeholders := by
    rw [Graph.placeholders, ← Graph.idsWhere_logical, hlogical, Graph.idsWhere_logical]
    rfl
  obtain ⟨id, hid⟩ := List.exists_mem_of_ne_nil _ houtputs
  refine ⟨g, c₁, c₂, m₁, m₁', m₂, m₂', image₁, image₁', image₂, image₂', hg, hc₁, hc₂, hsmall,
    hlarge, hm₁, hrun₁,
    hm₂, hrun₂, hlogical, id, hid, hsame m₁ m₁' m₂ m₂' _ _ _ _ hm₁ hrun₁ hm₂ hrun₂
      (fun id hid => ?_) id hid⟩
  obtain ⟨values, hvalues, hhas₁⟩ := hvalues₁ id hid
  obtain ⟨values', hvalues', hhas₂⟩ := hvalues₂ id (hplaceholders ▸ hid)
  obtain rfl := Option.some.inj (hvalues.symm.trans hvalues')
  exact ⟨values, hhas₁, hhas₂⟩

end QuantAccel
