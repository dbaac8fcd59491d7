import QuantAccel.Compile
import QuantAccel.Proofs.Parameters

/-!
# Compiled designs

What a compilation that succeeds says about its design, whatever the backend:
the graph is well formed, quantized, arranged and placed, and the blob holds its
parameters. The machine of a design has one plan for each operator, in
dependency order, and is fresh.
-/

namespace QuantAccel

/-- A design that went through all stages. -/
structure Design.Prepared (d : Design) : Prop where
  valid : d.config.validate = .ok ()
  wellFormed : d.graph.WellFormed
  quantized : d.graph.Quantized
  arranged : d.graph.Arranged
  sound : d.memory.Sound d.graph d.config.chunkSize d.config.memoryBound
  blob : d.graph.parameterBlob d.memory = .ok d.blob
  outputs_ne_nil : d.graph.outputs ≠ []

/-- **Where an image holds the blob, every parameter reads as its integers.** -/
theorem Design.Prepared.readTensor_parameter {d : Design} (hd : d.Prepared) {image : Image}
    (hblob : image.Holds (d.memory.base .parameters) d.blob)
    (hsize : d.memory.stop .parameters ≤ image.size) {id : TensorId}
    (hid : id < d.graph.tensors.size) (hparam : (d.graph.tensor id).kind.isParameter) :
    ∃ ints address, (d.graph.tensor id).ints = some ints ∧
      (d.graph.tensor id).address = some address ∧
      image.readTensor address (d.graph.tensor id) = .ok ints :=
  Graph.readTensor_parameter hd.wellFormed hd.quantized hd.arranged hd.sound hd.blob hblob
    hsize hid hparam

/-- Every tensor keeps its layout when it is placed. -/
theorem Graph.AddsAddresses.arranged {g g' : Graph} (h : g.AddsAddresses g') (hg : g.Arranged) :
    g'.Arranged := by
  have hsame := h.sameDeclaration
  refine ⟨fun i hi => ?_, fun i hi => ?_⟩
  · rw [operator_congr h.operators]
    exact hg.parallel i (hsame.operators_size ▸ hi)
  · obtain ⟨hlayout, hpos, hfits⟩ := hg.laid i (hsame.tensors_size ▸ hi)
    have hpadded : (g'.tensor i).padded = (g.tensor i).padded := by
      rw [Tensor.padded, Tensor.padded, h.layout, hsame.shape]
    exact ⟨by rwa [h.layout], by rwa [hsame.shape], by rwa [hsame.shape, hpadded]⟩

namespace Graph

variable {g : Graph} {ctx : Context} {ranges : ValueRanges} {requests : AttributeRequests}
    {d : Design}

/-- A stage that fails names itself. -/
theorem outcome_during {α : Type} (stage : Stage) (x : Traced CompileError α) :
    (ctx.during stage x).outcome = x.outcome.mapError (Failure.mk stage) := by
  simp only [Context.during, Traced.outcome_bind, Traced.outcome_note, Traced.outcome_mapError]
  rfl

/-- A design holds the plan of its memory and the blob of its parameters, for
its own configuration. -/
theorem toDesign_ok {name : String} {config : HardwareConfig}
    (h : (g.toDesign name config).outcome = .ok d) :
    g.planMemory config.chunkSize config.memoryBound = (.ok d.memory, d.graph) ∧
      d.graph.parameterBlob d.memory = .ok d.blob ∧ d.config = config ∧ d.name = name := by
  simp only [toDesign, Traced.outcome_bind, bind_ok_iff, Traced.outcome_liftM, Traced.outcome_pure,
    mapError_ok_iff, Except.ok.injEq] at h
  obtain ⟨map, hmap, -, -, blob, hblob, rfl⟩ := h
  exact ⟨Prod.ext hmap rfl, hblob, rfl, rfl⟩

/-- **What the stages establish**, from a finished graph. -/
theorem prepare_ok (hg : g.Finished) (h : (g.prepare ctx ranges requests).outcome = .ok d) :
    d.Prepared := by
  simp only [prepare, Traced.outcome_bind, bind_ok_iff, outcome_during, mapError_ok_iff] at h
  obtain ⟨q, hq, s, hs, hd⟩ := h
  obtain ⟨hvalid, hdecl, hwell, hquantized, harranged⟩ := scheduled_spec hg.wellFormed hq hs
  obtain ⟨hplan, hblob, hconfig, -⟩ := toDesign_ok hd
  obtain ⟨hadds, hsound⟩ := planMemory_ok hwell hplan
  refine ⟨hconfig ▸ hvalid, hadds.sameDeclaration.wellFormed hwell,
    hquantized.of_logical_eq hadds.logical, hadds.arranged harranged, hconfig ▸ hsound, hblob, ?_⟩
  obtain ⟨-, -, hne⟩ := hg.exists_build
  have houtputs : d.graph.outputs = g.outputs :=
    (hadds.sameDeclaration.idsWhere hwell _).trans
      ((sameDeclaration hdecl).idsWhere hg.wellFormed _)
  rwa [houtputs]

/-- What a compilation that succeeds is made of. -/
theorem compile_stages {β μ : Type} [Backend β μ] {backend : β} {c : Compilation μ}
    (h : (g.compile ctx ranges requests backend).result.outcome = .ok c) :
    (g.prepare ctx ranges requests).outcome = .ok c.design ∧
      ∃ ctx₁ ctx₂, (Backend.emit (μ := μ) backend ctx₁ c.design).2.outcome =
        .ok (c.product, ctx₂) := by
  unfold compile at h
  simp only at h
  split at h
  · cases h
  · rename_i d hd
    simp only [Traced.outcome_bind, bind_ok_iff, Traced.outcome_pure, Except.ok.injEq] at h
    obtain ⟨-, -, ⟨product, ctx₂⟩, hemit, -, -, rfl⟩ := h
    exact ⟨hd, _, ctx₂, hemit⟩

/-- **A compilation that succeeds has a prepared design**, and its product is
what the backend made of that design. -/
theorem compile_ok {β μ : Type} [Backend β μ] {backend : β} {c : Compilation μ} (hg : g.Finished)
    (h : (g.compile ctx ranges requests backend).result.outcome = .ok c) :
    c.design.Prepared ∧
      ∃ ctx₁ ctx₂, (Backend.emit (μ := μ) backend ctx₁ c.design).2.outcome =
        .ok (c.product, ctx₂) :=
  ⟨prepare_ok hg (compile_stages h).1, (compile_stages h).2⟩

end Graph

/-! ## The machine of a design -/

/-- A machine with the plans of a design, one for each operator in order; its
registers and its work do not matter. -/
structure Machine.Emitted (m : Machine) (d : Design) (order : List OperatorId) : Prop where
  design : m.design = d
  ports : m.ports = Port.standard d.config.busWidth
  order_ok : d.graph.order = .ok order
  plans : List.Forall₂ (fun id plan => ∃ latency block,
    d.graph.planOperator d.config.busWidth latency (d.graph.operator id) block = .ok plan)
      order m.plans

/-- Operators are planned one by one in their order. -/
theorem planOperators_ok {d : Design} {name : String} {latency : Nat} {order : List OperatorId}
    {ctx ctx' : Context} {plans : List OperatorPlan}
    (h : (planOperators d name latency order ctx).outcome = .ok (plans, ctx')) :
    List.Forall₂ (fun id plan => ∃ latency block,
      d.graph.planOperator d.config.busWidth latency (d.graph.operator id) block = .ok plan)
        order plans := by
  induction order generalizing ctx ctx' plans with
  | nil =>
    obtain ⟨rfl, -⟩ := Prod.mk.inj (Except.ok.inj h)
    exact .nil
  | cons id order ih =>
    simp only [planOperators, Traced.outcome_bind, bind_ok_iff, Traced.outcome_liftM,
      mapError_ok_iff, Traced.outcome_pure, Except.ok.injEq, Prod.mk.injEq] at h
    obtain ⟨plan, hplan, -, -, ⟨rest, ctx''⟩, hrest, rfl, -⟩ := h
    exact .cons ⟨latency, _, hplan⟩ (ih hrest)

/-- An emitted machine is that of its design, with its registers clear and
nothing to do. -/
theorem Design.machine_ok {d : Design} {latency : Nat} {ctx ctx' : Context} {m : Machine}
    (h : (d.machine latency ctx).outcome = .ok (m, ctx')) :
    (∃ order, m.Emitted d order) ∧ m.registers = {} ∧ m.phase = .idle := by
  simp only [Design.machine, Traced.outcome_bind, bind_ok_iff, Traced.outcome_liftM,
    mapError_ok_iff, Traced.outcome_pure, Except.ok.injEq, Prod.mk.injEq] at h
  obtain ⟨order, horder, ⟨plans, ctx''⟩, hplans, -, -, rfl, -⟩ := h
  exact ⟨⟨order, rfl, rfl, horder, planOperators_ok hplans⟩, rfl, rfl⟩

/-- **A compilation to a machine** is of a prepared design, and the machine has
its plans. -/
theorem Graph.compile_emitted {g : Graph} {ctx : Context} {ranges : ValueRanges}
    {requests : AttributeRequests} {backend : MachineBackend} {c : Compilation Machine}
    (hg : g.Finished) (h : (g.compile ctx ranges requests backend).result.outcome = .ok c) :
    c.design.Prepared ∧ ∃ order, c.product.Emitted c.design order := by
  obtain ⟨hd, ctx₁, ctx₂, hemit⟩ := Graph.compile_ok hg h
  exact ⟨hd, (Design.machine_ok hemit).1⟩

/-- A machine comes out of a compilation as a reset leaves it. -/
theorem Graph.compile_fresh {g : Graph} {ctx : Context} {ranges : ValueRanges}
    {requests : AttributeRequests} {backend : MachineBackend} {c : Compilation Machine}
    (h : (g.compile ctx ranges requests backend).result.outcome = .ok c) :
    c.product.registers = {} ∧ c.product.phase = .idle := by
  obtain ⟨-, ctx₁, ctx₂, hemit⟩ := Graph.compile_stages h
  exact (Design.machine_ok hemit).2

/-- Its plans stand in an order of the graph. -/
theorem Machine.Emitted.ordered {m : Machine} {d : Design} {order : List OperatorId}
    (h : m.Emitted d order) (hd : d.Prepared) : d.graph.Ordered order :=
  Graph.ordered_of_order hd.wellFormed.operator_id h.order_ok

/-- Registers and work do not matter. -/
theorem Machine.Emitted.of_state {m m' : Machine} {d : Design} {order : List OperatorId}
    (h : m.Emitted d order)
    (hm : m' = { m with registers := m'.registers, phase := m'.phase, completed := m'.completed }) :
    m'.design = d ∧ m'.plans = m.plans ∧ m'.Emitted d order := by
  have hdesign : m'.design = d := by
    rw [hm]
    exact h.design
  have hplans : m'.plans = m.plans := by rw [hm]
  have hports : m'.ports = m.ports := by rw [hm]
  exact ⟨hdesign, hplans, hdesign, hports.trans h.ports, h.order_ok, hplans.symm ▸ h.plans⟩

/-! ## A compiled layer -/

namespace Graph

def denseContext : Context := { name := "dense", config := denseConfig, identifiers := ["dense"] }

/-- The dense layer, compiled to a machine. -/
def denseCompilation : Except CompileError (Compilation Machine) := do
  let g ← (build denseCalls).finish.outcome.mapError .graph
  (g.compile denseContext denseRanges [] ({} : MachineBackend)).result.outcome

/-- The compilation of the dense layer is that of a finished graph. -/
theorem denseCompilation_ok {c : Compilation Machine} (h : denseCompilation = .ok c) :
    ∃ g, Finished g ∧
    (g.compile denseContext denseRanges [] ({} : MachineBackend)).result.outcome = .ok c := by
  simp only [denseCompilation, bind_ok_iff, mapError_ok_iff] at h
  obtain ⟨g, hfinish, hcompile⟩ := h
  exact ⟨g, ⟨_, hfinish⟩, hcompile⟩

/-- The dense layer compiles, to a small memory with room for a counter in its
handshake chunk. -/
theorem exists_denseCompilation : ∃ g c, Finished g ∧
    (g.compile denseContext denseRanges [] ({} : MachineBackend)).result.outcome = .ok c ∧
      4 ≤ c.design.config.chunkSize ∧ c.design.memory.size ≤ 64 := by
  have hok : (denseCompilation.toOption.any fun c =>
      4 ≤ c.design.config.chunkSize && c.design.memory.size ≤ 64) = true := by decide +kernel
  obtain ⟨c, hc, hsmall⟩ := (Option.any_eq_true _ _).1 hok
  simp only [Bool.and_eq_true, decide_eq_true_eq] at hsmall
  obtain ⟨g, hg, hcompile⟩ := denseCompilation_ok (toOption_eq_some_iff.1 hc)
  exact ⟨g, c, hg, hcompile, hsmall⟩

end Graph

end QuantAccel
