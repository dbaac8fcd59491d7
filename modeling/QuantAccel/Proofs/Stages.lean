import QuantAccel.Proofs.Compile
import QuantAccel.Proofs.Placing
import QuantAccel.Proofs.Tiling

/-!
# The stages of a compilation

A compilation of a finished graph in a fresh context fails in a stage with an
error of that stage, or it gets as far as its backend, which is then called once
and with a complete design. That the backend is not called otherwise is said
with a backend that keeps a record of its calls (`Recording`), around any other
backend. The backend that emits machines does not fail on a complete design: its
operators have an order, and each of them has its tiles.
-/

namespace QuantAccel

/-! ## Complete designs -/

/-- A design in which nothing is left open. -/
structure Design.Complete (d : Design) : Prop where
  quant : ∀ id < d.graph.tensors.size, (d.graph.tensor id).quant.isSome
  layout : ∀ id < d.graph.tensors.size, (d.graph.tensor id).Laid
  address : ∀ id < d.graph.tensors.size, (d.graph.tensor id).address.isSome
  parallel : ∀ i < d.graph.operators.size, (d.graph.operator i).operation.Parallel
  rescaled : ∀ i < d.graph.operators.size, (d.graph.operator i).operation.isRescaled

namespace Graph

variable {g q s : Graph} {ctx : Context} {ranges : ValueRanges} {requests : AttributeRequests}
    {d : Design}

/-- **A design fails for want of memory only.** -/
theorem raises_toDesign {c : HardwareConfig} (hg : g.WellFormed) (hq : g.Quantized)
    (ha : g.Arranged) (hfree : g.Unplaced) (hc : c.validate = .ok ()) (name : String) :
    RaisesAt .allocate (g.toDesign name c).outcome := by
  have hchunk := (validate_ok hc).2
  simp only [toDesign, Traced.outcome_bind, Traced.outcome_liftM, outcome_notes]
  rcases hplan : g.planMemory c.chunkSize c.memoryBound with ⟨e | map, placed⟩
  · exact raises_error (planMemory_error hg hfree hchunk hplan)
  · obtain ⟨hadds, hsound⟩ := planMemory_ok hg hplan
    obtain ⟨blob, hblob⟩ := exists_parameterBlob (hadds.sameDeclaration.wellFormed hg)
      (hq.of_logical_eq hadds.logical) (hadds.arranged ha) hsound
    refine Raises.bind (raises_ok _) fun map' hmap' => Raises.bind (raises_ok _) fun _ _ => ?_
    obtain rfl := Except.ok.inj hmap'
    exact Raises.bind (.of_ok (mapError_ok_iff.2 hblob)) fun _ _ => raises_ok _

/-- The stages of a preparation, one after the other. -/
theorem outcome_prepare (g : Graph) (ctx : Context) (ranges : ValueRanges)
    (requests : AttributeRequests) :
    (g.prepare ctx ranges requests).outcome =
      (g.quantize ranges).mapError (Failure.mk .quantize) >>= fun q =>
      (q.schedule ctx.config requests).outcome.mapError (Failure.mk .schedule) >>= fun s =>
      (s.toDesign ctx.name ctx.config).outcome.mapError (Failure.mk .allocate) := by
  simp only [prepare, Traced.outcome_bind, outcome_during]
  rfl

/-- **A preparation fails in the stage that its error belongs to.** -/
theorem raises_prepare (hg : g.Finished) (hc : ctx.config.validate = .ok ()) :
    Raises (fun failure => failure.error.stage = failure.stage ∧
        failure.stage ∈ [Stage.quantize, .schedule, .allocate])
      (g.prepare ctx ranges requests).outcome := by
  have hstage {α : Type} {stage : Stage} {x : Except CompileError α}
      (hmem : stage ∈ [Stage.quantize, .schedule, .allocate]) (hx : RaisesAt stage x) :
      Raises (fun failure => failure.error.stage = failure.stage ∧
        failure.stage ∈ [Stage.quantize, .schedule, .allocate]) (x.mapError (Failure.mk stage)) :=
    Raises.mapError fun e he => ⟨hx e he, hmem⟩
  obtain ⟨calls, rfl, -⟩ := hg.exists_build
  rw [outcome_prepare]
  refine (hstage (by simp) (raises_quantize hg.wellFormed ranges)).bind fun q hq => ?_
  refine (hstage (by simp) (raises_schedule q hc requests)).bind fun s hs => hstage (by simp) ?_
  rw [mapError_ok_iff] at hq hs
  obtain ⟨-, -, hwell, hquantized, harranged⟩ := scheduled_spec hg.wellFormed hq hs
  have hfree := (unplaced_build calls).of_unscaled_eq (quantize_adds hg.wellFormed hq).1
  exact raises_toDesign hwell hquantized harranged (hfree.schedule hs) hc ctx.name

/-- **A design that went through all stages is complete.** -/
theorem prepare_complete (hg : g.Finished) (hq : g.quantize ranges = .ok q)
    (hs : (q.schedule ctx.config requests).outcome = .ok s)
    (hd : (s.toDesign ctx.name ctx.config).outcome = .ok d) : d.Prepared ∧ d.Complete := by
  have hprepare : (g.prepare ctx ranges requests).outcome = .ok d := by
    simp only [outcome_prepare, bind_ok_iff, mapError_ok_iff]
    exact ⟨q, hq, s, hs, hd⟩
  have hprepared := prepare_ok hg hprepare
  have hqwell := (sameDeclaration (quantize_spec hg.wellFormed hq).1).wellFormed hg.wellFormed
  obtain ⟨-, hlogical, -⟩ := schedule_spec hqwell hs
  obtain ⟨hplan, -⟩ := toDesign_ok hd
  obtain ⟨hadds, -⟩ := planMemory_ok (scheduled_spec hg.wellFormed hq hs).2.2.1 hplan
  -- scales are part of the logical graph, which the later stages keep
  have hsame : d.graph.logical = q.logical := hadds.logical.trans hlogical
  refine ⟨hprepared, fun id hid => ?_, hprepared.arranged.laid, hprepared.sound.addressed,
    hprepared.arranged.parallel, hprepared.quantized.rescaled⟩
  have hquant := congrArg (fun g => (g.tensor id).quant) hsame
  simp only [tensor_logical] at hquant
  have hsize := (sameDeclaration (declared_eq_of_logical_eq hsame)).tensors_size
  exact (congrArg Option.isSome hquant).trans
    ((quantize_adds hg.wellFormed hq).2.2 id (hsize ▸ hid))

end Graph

/-! ## Emission -/

/-- Scheduled operators have their plans, one after the other. -/
theorem exists_planOperators {d : Design} {order : List OperatorId}
    (h : ∀ i ∈ order, (d.graph.operator i).operation.Parallel) (name : String) (latency : Nat)
    (ctx : Context) : ∃ r, (planOperators d name latency order ctx).outcome = .ok r := by
  induction order generalizing ctx with
  | nil => exact ⟨_, rfl⟩
  | cons i order ih =>
    obtain ⟨tiles, htiles⟩ :=
      Option.isSome_iff_exists.1 (d.graph.isSome_tiles? (h i List.mem_cons_self))
    simp only [planOperators, Traced.outcome_bind, Traced.outcome_liftM, Graph.planOperator, htiles]
    refine bind_exists rfl (bind_exists rfl ?_)
    obtain ⟨r, hrest⟩ := ih (fun j hj => h j (List.mem_cons_of_mem i hj)) _
    exact bind_exists hrest ⟨_, rfl⟩

/-- **Every prepared design becomes a machine.** -/
theorem Design.Prepared.exists_machine {d : Design} (hd : d.Prepared) (latency : Nat)
    (ctx : Context) :
    ∃ r, (d.machine latency ctx).outcome = .ok r := by
  obtain ⟨order, horder⟩ := hd.wellFormed.exists_order
  have hordered := Graph.ordered_of_order hd.wellFormed.operator_id horder
  simp only [Design.machine, Traced.outcome_bind, Traced.outcome_liftM]
  refine bind_exists (mapError_ok_iff.2 horder) ?_
  obtain ⟨r, hplans⟩ := exists_planOperators
    (fun i hi => hd.arranged.parallel i (hordered.mem_iff.1 hi)) (ctx.reserve d.name).1 latency
    (ctx.reserve d.name).2
  exact bind_exists hplans (bind_exists rfl ⟨_, rfl⟩)

/-! ## Calls of a backend -/

/-- A fresh context has a configuration that was checked. -/
theorem Context.create_ok {name : String} {config : HardwareConfig} {ctx : Context}
    (h : create name config = .ok ctx) :
    ctx.name = name ∧ ctx.config = config ∧ config.validate = .ok () := by
  unfold create at h
  simp only [check_ok_iff, bind_ok_iff, pure_ok_iff] at h
  obtain ⟨-, _, hvalid, rfl⟩ := h
  exact ⟨rfl, rfl, hvalid⟩

/-- A backend that keeps a record of the contexts and designs that it is called
with. -/
structure Recording (β : Type) where
  inner : β
  calls : List (Context × Design)

instance {β μ : Type} [Backend β μ] : Backend (Recording β) μ where
  emit backend ctx design :=
    let (inner, emission) := Backend.emit backend.inner ctx design
    ({ inner, calls := backend.calls ++ [(ctx, design)] }, emission)

namespace Graph

variable {β μ : Type} [Backend β μ] {g : Graph} {ctx : Context} {ranges : ValueRanges}
variable {requests : AttributeRequests}

/-- A record changes nothing, and has the design of the stages before emission,
if there is one. -/
theorem compile_recording (g : Graph) (ctx : Context) (ranges : ValueRanges)
    (requests : AttributeRequests) (backend : β) :
    let recorded := g.compile ctx ranges requests (Recording.mk backend [])
    let plain := g.compile ctx ranges requests backend
    (recorded.result = plain.result ∧ recorded.context = plain.context ∧
      recorded.backend.inner = plain.backend) ∧
    recorded.backend.calls = match (g.prepare ctx ranges requests).outcome with
      | .error _ => []
      | .ok d => [({ ctx with stage := some .emit }, d)] := by
  intro recorded plain
  cases hprepare : (g.prepare ctx ranges requests).outcome with
  | error failure => simp [recorded, plain, compile, hprepare]
  | ok d => simp [recorded, plain, compile, hprepare, Backend.emit]

/-- **The stages of a compilation.** A finished graph is compiled in a fresh
context, with any ranges and requests and for any backend. Either the backend is
not called at all, and the compilation fails with an error of the stage that the
context says, which is quantization, scheduling or allocation; or these have all
succeeded, the backend is called once, and with a complete design. The backend
for machines succeeds on every such design. -/
theorem compile_stage_discipline {name : String} {config : HardwareConfig} (hg : g.Finished)
    (hctx : Context.create name config = .ok ctx) (ranges : ValueRanges)
    (requests : AttributeRequests) (backend : β) :
    let recorded := g.compile ctx ranges requests (Recording.mk backend [])
    let plain := g.compile ctx ranges requests backend
    (recorded.result = plain.result ∧ recorded.context = plain.context ∧
      recorded.backend.inner = plain.backend) ∧
    ((recorded.backend.calls = [] ∧ ∃ e, plain.result.outcome = .error e ∧
        plain.context.stage = some e.stage ∧ e.stage ∈ [Stage.quantize, .schedule, .allocate]) ∨
      ∃ q s d, g.quantize ranges = .ok q ∧ (q.schedule config requests).outcome = .ok s ∧
        (s.toDesign name config).outcome = .ok d ∧ d.Complete ∧
        recorded.backend.calls = [({ ctx with stage := some .emit }, d)] ∧
        ∀ (machines : MachineBackend) (ctx' : Context),
          ∃ product, (Backend.emit machines ctx' d).2.outcome = .ok product) := by
  intro recorded plain
  obtain ⟨hsame, hcalls⟩ := compile_recording g ctx ranges requests backend
  obtain ⟨hname, hconfig, hvalid⟩ := Context.create_ok hctx
  refine ⟨hsame, ?_⟩
  cases hprepare : (g.prepare ctx ranges requests).outcome with
  | error failure =>
    obtain ⟨hstage, hmem⟩ := raises_prepare hg (hconfig ▸ hvalid) failure hprepare
    have hplain : plain.result.outcome = .error failure.error ∧
        plain.context.stage = some failure.stage := by
      simp [plain, compile, hprepare]
    rw [hprepare] at hcalls
    exact .inl ⟨hcalls, failure.error, hplain.1, by rw [hplain.2, hstage], by rwa [hstage]⟩
  | ok d =>
    rw [hprepare] at hcalls
    simp only [outcome_prepare, bind_ok_iff, mapError_ok_iff] at hprepare
    obtain ⟨q, hq, s, hs, hd⟩ := hprepare
    obtain ⟨hprepared, hcomplete⟩ := prepare_complete hg hq hs hd
    rw [hconfig] at hs hd
    rw [hname] at hd
    refine .inr ⟨q, s, d, hq, hs, hd, hcomplete, hcalls, fun machines ctx' => ?_⟩
    exact hprepared.exists_machine machines.latency ctx'

/-- The dense layer gets as far as its backend, but not without a range for its
input. -/
theorem compile_stage_discipline_dense : ∃ g d, Finished g ∧
    Context.create "dense" denseConfig = .ok denseContext ∧ d.Complete ∧
    (g.compile denseContext denseRanges [] (Recording.mk ({} : MachineBackend) [])).backend.calls =
      [({ denseContext with stage := some .emit }, d)] ∧
    (g.compile denseContext [] [] (Recording.mk ({} : MachineBackend) [])).backend.calls = [] := by
  have hok : ((build denseCalls).finish.outcome.toOption.any fun g =>
      (g.compile denseContext denseRanges []
        ({} : MachineBackend)).result.outcome.toOption.isSome &&
        (g.quantize []).toOption.isNone) = true := by decide +kernel
  obtain ⟨g, hfinish, hboth⟩ := (Option.any_eq_true _ _).1 hok
  rw [Bool.and_eq_true, Option.isNone_iff_eq_none] at hboth
  obtain ⟨hcompile, hmissing⟩ := hboth
  have hg : Finished g := ⟨denseCalls, toOption_eq_some_iff.1 hfinish⟩
  have hctx : Context.create "dense" denseConfig = .ok denseContext := rfl
  obtain ⟨-, ⟨-, e, he, -⟩ | ⟨-, -, d, -, -, -, hcomplete, hcalls, -⟩⟩ :=
    compile_stage_discipline hg hctx denseRanges [] ({} : MachineBackend)
  · rw [he] at hcompile
    cases hcompile
  obtain ⟨-, ⟨hnone, -⟩ | ⟨q, -, -, hq, -⟩⟩ :=
    compile_stage_discipline hg hctx [] [] ({} : MachineBackend)
  · exact ⟨g, d, hg, hctx, hcomplete, hcalls, hnone⟩
  · rw [hq] at hmissing
    cases hmissing

end Graph

end QuantAccel
