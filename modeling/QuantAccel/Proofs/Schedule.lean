import QuantAccel.Proofs.Declaration
import QuantAccel.Proofs.Image
import QuantAccel.Proofs.Units

/-!
# What scheduling adds

Every factor that is requested or taken by default is positive, and a burst
minimum only raises it. So are the units that layouts are padded to, which are
common multiples of such factors; a padded shape therefore has room for the
tensor. Scheduling keeps the logical graph.
-/

namespace QuantAccel

/-! ## Multiples -/

section RoundUp

variable {unit : Nat} (dim : Nat)

theorem dvd_roundUp : unit ∣ roundUp dim unit :=
  Nat.dvd_mul_left unit _

theorem le_roundUp (hu : 0 < unit) : dim ≤ roundUp dim unit := by
  have := Nat.lt_div_mul_add hu (a := dim + unit - 1)
  unfold roundUp
  omega

/-- Rounding up adds less than a unit. -/
theorem roundUp_lt (hu : 0 < unit) : roundUp dim unit < dim + unit := by
  have := Nat.div_mul_le_self (dim + unit - 1) unit
  unfold roundUp
  omega

variable {dim}

/-- A multiple stays. -/
theorem roundUp_of_dvd (hu : 0 < unit) (h : unit ∣ dim) : roundUp dim unit = dim := by
  have hle := le_roundUp dim hu
  have hlt := roundUp_lt dim hu
  have hsub : unit ∣ roundUp dim unit - dim := Nat.dvd_sub (dvd_roundUp dim) h
  have := Nat.eq_zero_of_dvd_of_lt hsub (by omega)
  omega

end RoundUp

namespace Shape

theorem Positive.innermost_pos {s : Shape} (h : s.Positive) : 0 < s.innermost := by
  unfold innermost
  cases hlast : s.getLast? with
  | none => exact Nat.one_pos
  | some d => exact h d (List.mem_of_getLast? hlast)

/-- **A padded shape has room for the shape.** -/
theorem fits_padded {lanes rows : Nat} (hlanes : 0 < lanes) (hrows : 0 < rows) (s : Shape) :
    s.Fits (s.padded lanes rows) := by
  fun_induction padded lanes rows s with
  | case1 => exact .nil
  | case2 d => exact .cons (le_roundUp d hlanes) .nil
  | case3 d e => exact .cons (le_roundUp d hrows) (.cons (le_roundUp e hlanes) .nil)
  | case4 d ds _ _ ih => exact .cons le_rfl ih

end Shape

/-! ## Factors -/

/-- All factors of a matrix product are positive. -/
structure MatmulFactors.Positive (f : MatmulFactors) : Prop where
  leftColumns : 0 < f.leftColumns
  leftRows : 0 < f.leftRows
  outColumns : 0 < f.outColumns
  inFlight : 0 < f.inFlight

/-- The operation has its parallelism, and works on something at each cycle. -/
def Operation.Parallel : Operation → Prop
  | matmul o => ∃ f, o.factors = some f ∧ f.Positive
  | o => ∃ lanes, o.lanes? = some lanes ∧ 0 < lanes

theorem Operation.parallel_withLanes {lanes : Nat} (h : 0 < lanes) {o : Operation}
    (ho : ∀ m, o ≠ .matmul m) : (o.withLanes lanes).Parallel := by
  cases o with
  | matmul m => exact absurd rfl (ho m)
  | add _ | normalize _ | activate _ => exact ⟨lanes, rfl, h⟩

/-- A requested factor is positive, if its default is. -/
theorem requestedFactor_pos {name : String} {field : AttributeField} {request : Option Nat}
    {default n : Nat} (hd : 0 < default) (h : requestedFactor name field request default = .ok n) :
    0 < n := by
  unfold requestedFactor at h
  split at h
  · cases h
  · rename_i k hk
    obtain rfl := Except.ok.inj h
    exact Nat.pos_of_ne_zero hk
  · obtain rfl := Except.ok.inj h
    exact hd

/-- A factor that fills bursts is still positive. -/
theorem burstFactor_pos {c : HardwareConfig} {name : String} {field : AttributeField} {t : Tensor}
    {factor n : Nat} (hf : 0 < factor) (h : (burstFactor c name field t factor).outcome = .ok n) :
    0 < n := by
  simp only [burstFactor] at h
  split at h
  · rename_i hlt
    cases hp : c.burstPolicy with
    | reject => rw [hp] at h; cases h
    | widen =>
      rw [hp] at h
      obtain rfl := Except.ok.inj h
      exact lt_trans hf hlt
  · obtain rfl := Except.ok.inj h
    exact hf

namespace Graph

variable {g g' : Graph} {c : HardwareConfig} {name : String} {request : AttributeRequest}

/-- All factors of a matrix product are positive. -/
theorem matmulFactors_positive {o : Matmul} {f : MatmulFactors}
    (hout : 0 < (g.tensor o.output).innermost)
    (h : (g.matmulFactors c name o request).outcome = .ok f) : f.Positive := by
  -- the two ways to stream the right operand differ in the factor of its
  -- columns only
  obtain ⟨a, b, d, e, ha, hb, hd, he, rfl⟩ : ∃ a b d e, 0 < a ∧ 0 < b ∧ 0 < d ∧ 0 < e ∧
      f = ⟨a, b, d, min e (roundUp (g.tensor o.output).innermost d),
        request.stationary.getD .right⟩ := by
    cases htr : o.transposed <;>
      simp only [matmulFactors, htr, Bool.false_eq_true, if_true, if_false, Traced.outcome_bind,
        bind_ok_iff, Traced.outcome_liftM, traced_check_ok_iff, Traced.outcome_pure,
        Except.ok.injEq, exists_eq_left'] at h
    case false =>
      obtain ⟨a, ha, b, hb, d, hd, a', ha', d', hd', e, he, -, -, -, rfl⟩ := h
      have hd' := burstFactor_pos (requestedFactor_pos Nat.one_pos hd) hd'
      exact ⟨a', b, d', e, burstFactor_pos (requestedFactor_pos Nat.one_pos ha) ha',
        requestedFactor_pos Nat.one_pos hb, hd', requestedFactor_pos hd' he, rfl⟩
    case true =>
      obtain ⟨a, ha, b, hb, d, hd, a', ha', a'', ha'', d', hd', e, he, -, -, -, rfl⟩ := h
      have hd' := burstFactor_pos (requestedFactor_pos Nat.one_pos hd) hd'
      have ha' := burstFactor_pos (requestedFactor_pos Nat.one_pos ha) ha'
      exact ⟨a'', b, d', e, burstFactor_pos ha' ha'', requestedFactor_pos Nat.one_pos hb, hd',
        requestedFactor_pos hd' he, rfl⟩
  have hinner := le_roundUp (g.tensor o.output).innermost hd
  exact ⟨ha, hb, hd, lt_min he (by omega)⟩

/-- The lanes of an elementwise operator are positive. -/
theorem laneFactor_pos {o : Operation} {lanes : Nat}
    (h : (g.laneFactor c name o request).outcome = .ok lanes) : 0 < lanes := by
  simp only [laneFactor, Traced.outcome_bind, bind_ok_iff, Traced.outcome_liftM] at h
  obtain ⟨-, -, start, hstart, h⟩ := h
  simp only [traced_check_ok_iff, Traced.outcome_bind, bind_ok_iff, Traced.outcome_pure,
    Except.ok.injEq, outcome_foldlM] at h
  obtain ⟨-, n, hfold, -, -, rfl⟩ := h
  exact foldlM_keeps (fun _ _ _ _ hpos => burstFactor_pos hpos)
    (requestedFactor_pos Nat.one_pos hstart)
    hfold

/-- The operation of an operator with its parallelism, without the events on the
way. -/
def scheduledOperation (c : HardwareConfig) (g : Graph) (op : Operator)
    (request : AttributeRequest) :
    Except CompileError Operation :=
  match op.operation with
  | .matmul o =>
    (fun f => .matmul { o with factors := some f }) <$>
      (g.matmulFactors c op.name o request).outcome
  | o => (fun lanes => o.withLanes lanes) <$> (g.laneFactor c op.name o request).outcome

/-- What a step of scheduling is made of. -/
theorem outcome_applyAttributes (g : Graph) (c : HardwareConfig) (i : OperatorId)
    (request : AttributeRequest) : (g.applyAttributes c i request).outcome =
      (fun operation => g.modifyOperator i fun op => { op with operation }) <$>
        scheduledOperation c g (g.operator i) request := by
  cases hcase : (g.operator i).operation with
  | matmul o =>
    simp only [applyAttributes, scheduledOperation, hcase, Traced.outcome_bind, Traced.outcome_pure]
    cases (g.matmulFactors c (g.operator i).name o request).outcome <;> rfl
  | add o | normalize o | activate o =>
    simp only [applyAttributes, scheduledOperation, hcase, Traced.outcome_bind, Traced.outcome_pure]
    cases (g.laneFactor c (g.operator i).name _ request).outcome <;> rfl

/-- An operation that is scheduled has positive factors, and computes what it
did. -/
theorem scheduledOperation_ok {op : Operator} {operation : Operation}
    (hout : 0 < (g.tensor op.output).innermost)
    (h : scheduledOperation c g op request = .ok operation) :
    operation.logical = op.operation.logical ∧ operation.Parallel := by
  unfold scheduledOperation at h
  cases hcase : op.operation with
  | matmul o =>
    rw [hcase, map_ok_iff] at h
    obtain ⟨f, hf, rfl⟩ := h
    rw [Operator.output, hcase] at hout
    exact ⟨rfl, f, rfl, matmulFactors_positive hout hf⟩
  | add _ | normalize _ | activate _ =>
    rw [hcase, map_ok_iff] at h
    obtain ⟨lanes, hlanes, rfl⟩ := h
    exact ⟨Operation.logical_withLanes _ _, Operation.parallel_withLanes
      (laneFactor_pos hlanes) (by simp)⟩

/-- **One operator is scheduled**: it gets its parallelism, and the others
stay. -/
theorem applyAttributes_ok {i : OperatorId} (hi : i < g.operators.size)
    (hout : 0 < (g.tensor (g.operator i).output).innermost)
    (h : (g.applyAttributes c i request).outcome = .ok g') :
    g'.logical = g.logical ∧ g'.tensors = g.tensors ∧ (g'.operator i).operation.Parallel ∧
      ∀ j ≠ i, g'.operator j = g.operator j := by
  rw [outcome_applyAttributes, map_ok_iff] at h
  obtain ⟨operation, hoperation, rfl⟩ := h
  obtain ⟨hlogical, hparallel⟩ := scheduledOperation_ok hout hoperation
  refine ⟨logical_modifyOperator ?_, rfl, ?_, fun j hj => operator_modifyOperator_of_ne hj⟩
  · simp [Operator.logical, hlogical]
  · rwa [operator_modifyOperator_self hi]

/-! ## Units -/

theorem touches_pos {o : Operation} (h : o.Parallel) :
    ∀ t ∈ o.touches, 0 < t.lanes ∧ 0 < t.rows := by
  cases o with
  | matmul o =>
    obtain ⟨f, hf, hpos⟩ := h
    intro t ht
    simp only [Operation.touches, hf, Option.getD_some, List.cons_append, List.nil_append,
      List.mem_cons, List.mem_append, List.mem_map, List.not_mem_nil, or_false] at ht
    rcases ht with rfl | rfl | ⟨-, -, rfl⟩ | rfl
    · exact ⟨hpos.leftColumns, hpos.leftRows⟩
    · split
      · exact ⟨hpos.leftColumns, hpos.outColumns⟩
      · exact ⟨hpos.outColumns, Nat.one_pos⟩
    · exact ⟨hpos.outColumns, Nat.one_pos⟩
    · exact ⟨hpos.outColumns, hpos.leftRows⟩
  | add o | normalize o | activate o =>
    obtain ⟨lanes, hlanes, hpos⟩ := h
    intro t ht
    simp only [Operation.touches, Operation.outColumns, hlanes, Option.getD_some,
      List.mem_map] at ht
    obtain ⟨-, -, rfl⟩ := ht
    exact ⟨hpos, Nat.one_pos⟩

/-- Units are a matter of the element types and of the parallelism. -/
theorem units_congr (hlogical : g'.logical = g.logical) (hoperators : g'.operators = g.operators) :
    g'.laneUnits c = g.laneUnits c ∧ g'.rowUnits = g.rowUnits := by
  have htensors : g'.tensors.map Tensor.logical = g.tensors.map Tensor.logical :=
    congrArg Graph.tensors hlogical
  have hread {α : Type} {f : Tensor → α} (hf : ∀ t, f t.logical = f t) :
      g'.tensors.map f = g.tensors.map f := by
    have herase (g : Graph) : g.tensors.map f = (g.tensors.map Tensor.logical).map f := by
      rw [Array.map_map]
      exact Array.map_congr_left fun t _ => (hf t).symm
    rw [herase g', htensors, ← herase]
  have hbursts := hread (f := fun t => c.burstElements t.element.width) fun _ => rfl
  have hones := hread (f := fun _ => 1) fun _ => rfl
  simp only [laneUnits, rowUnits, touches, hoperators, hbursts, hones, and_self]

/-- A graph whose operators have their parallelism and whose tensors have their
layouts. -/
structure Arranged (g : Graph) : Prop where
  parallel : ∀ i < g.operators.size, (g.operator i).operation.Parallel
  laid : ∀ i < g.tensors.size, (g.tensor i).Laid

/-- Every tensor gets the layout of its two units. -/
theorem tensor_withLayouts {i : TensorId} (hi : i < g.tensors.size) : (g.withLayouts c).tensor i =
    { g.tensor i with layout := some (layoutOf (g.laneUnits c) g.rowUnits (g.tensor i)) } := by
  simp [withLayouts, mapTensors, tensor, Array.getD_eq_getD_getElem?, hi]

/-- A burst has an element. -/
theorem burst_pos (hbus : 0 < c.busWidth) (i : TensorId) :
    0 < (g.tensors.map fun t => c.burstElements t.element.width).getD i 1 := by
  by_cases hi : i < g.tensors.size
  · have hwidth := g.tensors[i].element.width_pos
    simp only [Array.getD_eq_getD_getElem?, Array.getElem?_map, hi, getElem?_pos, Option.map_some,
      Option.getD_some, HardwareConfig.burstElements]
    exact Nat.div_pos (by omega) hwidth
  · simp [Array.getD_eq_getD_getElem?, hi]

/-- The layouts of a graph whose operators are scheduled. -/
theorem laid_withLayouts (hg : g.WellFormed) (hbus : 0 < c.busWidth)
    (hparallel : ∀ i < g.operators.size, (g.operator i).operation.Parallel) :
    ∀ i < g.tensors.size, ((g.withLayouts c).tensor i).Laid := by
  have htouches : ∀ t ∈ g.touches, 0 < t.lanes ∧ 0 < t.rows := by
    intro t ht
    obtain ⟨op, hop, ht⟩ := List.mem_flatMap.1 ht
    obtain ⟨hlt, heq⟩ := hg.operator_id.exists_of_mem hop
    exact touches_pos (heq ▸ hparallel op.id hlt) t ht
  -- units start at a burst and only ever grow to multiples
  have hlanes : ∀ i, 0 < (g.laneUnits c).getD i 1 :=
    shareUnits_pos _ (foldl_raiseUnit_pos (fun t ht => (htouches t ht).1) (burst_pos hbus))
  have hrows : ∀ i, 0 < g.rowUnits.getD i 1 := by
    refine foldl_raiseUnit_pos (fun t ht => (htouches t ht).2) fun i => ?_
    by_cases hi : i < g.tensors.size <;> simp [Array.getD_eq_getD_getElem?, hi]
  intro i hi
  rw [tensor_withLayouts hi]
  exact ⟨rfl, hg.positive i hi, Shape.fits_padded (hlanes _) (hrows _) _⟩

/-- A valid configuration has a bus and chunks of positive size. -/
theorem validate_ok (h : c.validate = .ok ()) : 0 < c.busWidth ∧ 0 < c.chunkSize := by
  unfold HardwareConfig.validate at h
  split at h
  · cases h
  · split at h
    · cases h
    · exact ⟨by omega, by omega⟩

/-- Notes do not fail. -/
theorem outcome_notes {ε : Type} (events : List Event) :
    (events.forM Traced.note : Traced ε PUnit).outcome = .ok ⟨⟩ := by
  induction events with
  | nil => rfl
  | cons event events ih =>
    change (Traced.note event >>= fun _ => events.forM Traced.note : Traced ε PUnit).outcome = _
    rw [Traced.outcome_bind, Traced.outcome_note]
    exact ih

/-- One step of scheduling, without its events. -/
def scheduleOperator (c : HardwareConfig) (requests : AttributeRequests) (g : Graph)
    (i : OperatorId) :
    Except CompileError Graph :=
  (g.applyAttributes c i ((requests.lookup (g.operator i).name).getD {})).outcome

/-- What scheduling is made of: its checks, the operators one after the other,
and the layouts. -/
theorem outcome_schedule (g : Graph) (c : HardwareConfig) (requests : AttributeRequests) :
    (g.schedule c requests).outcome = do
      c.validate.mapError CompileError.config
      g.checkRequests requests
      let g ← (List.range g.operators.size).foldlM (scheduleOperator c requests) g
      return g.withLayouts c := by
  simp only [schedule, Traced.outcome_bind, Traced.outcome_liftM, outcome_foldlM,
    Traced.outcome_pure, outcome_notes, Traced.outcome_note]
  rfl

/-- **What scheduling adds to a well-formed graph.** -/
theorem schedule_spec {requests : AttributeRequests} (hg : g.WellFormed)
    (h : (g.schedule c requests).outcome = .ok g') :
    c.validate = .ok () ∧ g'.logical = g.logical ∧ g'.Arranged := by
  simp only [outcome_schedule, bind_ok_iff, mapError_ok_iff, pure_ok_iff] at h
  obtain ⟨_, hvalid, _, -, g₁, hfold, rfl⟩ := h
  obtain ⟨⟨hlogical, htensors⟩, hparallel⟩ : (g₁.logical = g.logical ∧ g₁.tensors = g.tensors) ∧
      ∀ i ∈ List.range g.operators.size, (g₁.operator i).operation.Parallel := by
    refine foldlM_operators (I := fun g₁ => g₁.logical = g.logical ∧ g₁.tensors = g.tensors)
      (P := fun op => op.operation.Parallel) ?_ ⟨rfl, rfl⟩ hfold
    rintro g₁ g₂ i hi ⟨hlogical, htensors⟩ hstep
    have hsame := sameDeclaration (declared_eq_of_logical_eq hlogical)
    have hlt : i < g₁.operators.size := hsame.operators_size ▸ List.mem_range.1 hi
    have hg₁ := hsame.wellFormed hg
    have hinner := (hg₁.positive _ (hg₁.output_lt i hlt)).innermost_pos
    obtain ⟨hlogical', htensors', hop, hothers⟩ := applyAttributes_ok hlt hinner hstep
    exact ⟨⟨hlogical'.trans hlogical, htensors'.trans htensors⟩, hop, hothers⟩
  -- layouts come last and change nothing that the operators have
  have hsame := sameDeclaration (declared_eq_of_logical_eq hlogical)
  have hparallel' : ∀ i < g₁.operators.size, (g₁.operator i).operation.Parallel := fun i hi =>
    hparallel i (List.mem_range.2 (hsame.operators_size ▸ hi))
  have hlaid := laid_withLayouts (hsame.wellFormed hg) (validate_ok hvalid).1 hparallel'
  refine ⟨hvalid, ?_, hparallel', fun i hi => hlaid i (by simpa [withLayouts, mapTensors] using hi)⟩
  rw [withLayouts, logical_mapTensors, hlogical]
  exact fun _ => rfl

end Graph

end QuantAccel
