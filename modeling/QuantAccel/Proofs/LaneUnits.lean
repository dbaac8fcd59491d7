import QuantAccel.Proofs.Plan

/-!
# Lane units are the least that fit

What a lane unit has to do is said operator by operator, without a word on how
units are found: it is made of whole bursts, it is a multiple of every factor by
which an operator streams the tensor, and an elementwise operator finds one unit
on all its tensors (`LanesFit`). An assignment fits exactly when the units
before sharing divide into it and it agrees on every group, so **sharing ends at
the least assignment that fits**. What fits is a matter of which operators there
are, not of their order, and the least of them is one.
-/

namespace QuantAccel

/-- The unit of each tensor suits one operation. A product streams its left
operand, and the right one when that is transposed, by its inner dimension, and
everything else by output columns; an elementwise operation streams all its
tensors alike. -/
def Operation.LanesFit (unit : TensorId → Nat) : Operation → Prop
  | matmul o => ∀ f, o.factors = some f →
      f.leftColumns ∣ unit o.left ∧
      (if o.transposed then f.leftColumns else f.outColumns) ∣ unit o.right ∧
      (∀ id, o.bias = some id → f.outColumns ∣ unit id) ∧
      f.outColumns ∣ unit o.output
  | o => (∀ lanes, o.lanes? = some lanes → ∀ id ∈ o.tensors, lanes ∣ unit id) ∧
      ∀ id ∈ o.tensors, unit id = unit o.output

namespace Operation

variable {o : Operation} {unit : TensorId → Nat}

theorem tensor_mem_of_touch {t : Touch} (ht : t ∈ o.touches) : t.tensor ∈ o.tensors := by
  cases o with
  | matmul o =>
    simp only [touches, List.cons_append, List.nil_append, List.mem_cons, List.mem_append,
      List.mem_map, List.not_mem_nil, or_false] at ht
    rcases ht with rfl | rfl | ⟨id, hid, rfl⟩ | rfl
    · simp [tensors, inputs]
    · split <;> simp [tensors, inputs]
    · simp [tensors, inputs, hid]
    · simp [tensors, output]
  | add _ | normalize _ | activate _ =>
    simp only [touches, List.mem_map] at ht
    obtain ⟨id, hid, rfl⟩ := ht
    exact hid

theorem output_mem_tensors (o : Operation) : o.output ∈ o.tensors :=
  List.mem_append_right _ List.mem_cons_self

/-- **What fits an operation is read off its touches and its group.** -/
theorem lanesFit_iff (h : o.Parallel) : o.LanesFit unit ↔
    (∀ t ∈ o.touches, t.lanes ∣ unit t.tensor) ∧ Agree o.laneGroup?.toList unit := by
  cases o with
  | matmul o =>
    obtain ⟨f, hf, -⟩ := h
    simp only [LanesFit, touches, laneGroup?, Agree, hf, Option.some.injEq, forall_eq',
      Option.getD_some]
    cases o.transposed <;> cases o.bias <;> simp
  | add _ | normalize _ | activate _ =>
    obtain ⟨lanes, hlanes, -⟩ := h
    have hgroup (group : List TensorId) (id : TensorId) (hid : id ∈ group) :
        (∀ i ∈ group, unit i = unit id) ↔ ∀ i ∈ group, ∀ j ∈ group, unit i = unit j :=
      ⟨fun hall i hi j hj => (hall i hi).trans (hall j hj).symm, fun hall i hi => hall i hi id hid⟩
    simp only [LanesFit, touches, laneGroup?, Agree, outColumns, hlanes, Option.some.injEq,
      forall_eq', Option.getD_some, List.forall_mem_map, Option.toList_some,
      List.forall_mem_singleton]
    exact and_congr_right' (hgroup _ _ (output_mem_tensors _))

end Operation

namespace Graph

variable {g g' : Graph} {c : HardwareConfig} {unit : TensorId → Nat}

/-- **An assignment of lane units that fits**: whole bursts, and something for
every operator. -/
structure LanesFit (g : Graph) (c : HardwareConfig) (unit : TensorId → Nat) : Prop where
  burst : ∀ id < g.tensors.size, c.burstElements (g.tensor id).element.width ∣ unit id
  operators : ∀ op ∈ g.operators.toList, op.operation.LanesFit unit

/-- The units before sharing: bursts, raised by every touch. -/
def touchedUnits (g : Graph) (c : HardwareConfig) : Array Nat :=
  g.touches.foldl (fun units t => raiseUnit units t.tensor t.lanes)
    (g.tensors.map fun t => c.burstElements t.element.width)

/-- The groups that share. -/
def laneGroups (g : Graph) : List (List TensorId) :=
  g.operators.toList.filterMap fun op => op.operation.laneGroup?

/-- What lane units are worked out from: operators with their parallelism, on
tensors of the graph. -/
structure Streams (g : Graph) (c : HardwareConfig) : Prop where
  tensor_lt : ∀ op ∈ g.operators.toList, ∀ id ∈ op.operation.tensors, id < g.tensors.size
  parallel : ∀ op ∈ g.operators.toList, op.operation.Parallel
  busWidth_pos : 0 < c.busWidth

/-- An arranged graph streams its tensors by positive factors over a bus of
positive width. -/
theorem Arranged.streams (h : g.Arranged) (hg : g.WellFormed) (hbus : 0 < c.busWidth) :
    g.Streams c where
  tensor_lt := by
    intro op hop id hid
    obtain ⟨hlt, heq⟩ := hg.operator_id.exists_of_mem hop
    exact hg.tensors_lt hlt (by rwa [heq])
  parallel := by
    intro op hop
    obtain ⟨hlt, heq⟩ := hg.operator_id.exists_of_mem hop
    exact heq ▸ h.parallel op.id hlt
  busWidth_pos := hbus

/-- Every operation of the one graph is an operation of the other. -/
def Performs (g g' : Graph) : Prop :=
  ∀ op ∈ g'.operators.toList, ∃ op' ∈ g.operators.toList, op'.operation = op.operation

/-- The order of the operators does not matter to what a graph performs. -/
theorem performs_of_perm
    (h : (g'.operators.toList.map (·.operation)).Perm (g.operators.toList.map (·.operation))) :
    g.Performs g' := by
  intro op hop
  exact List.mem_map.1 (h.mem_iff.1 (List.mem_map_of_mem hop))

/-- Fewer operations ask for less. -/
theorem LanesFit.anti (h : g.LanesFit c unit) (htensors : g'.tensors = g.tensors)
    (hop : g.Performs g') :
    g'.LanesFit c unit where
  burst := by
    intro id hid
    rw [htensors] at hid
    rw [tensor, htensors]
    exact h.burst id hid
  operators := by
    intro op hmem
    obtain ⟨op', hmem', heq⟩ := hop op hmem
    exact heq ▸ h.operators op' hmem'

/-- A graph that performs no more streams no more. -/
theorem Streams.anti (h : g.Streams c) (htensors : g'.tensors = g.tensors) (hop : g.Performs g') :
    g'.Streams c where
  tensor_lt := by
    intro op hmem id hid
    obtain ⟨op', hmem', heq⟩ := hop op hmem
    rw [htensors]
    exact h.tensor_lt op' hmem' id (heq ▸ hid)
  parallel := by
    intro op hmem
    obtain ⟨op', hmem', heq⟩ := hop op hmem
    exact heq ▸ h.parallel op' hmem'
  busWidth_pos := h.busWidth_pos

theorem size_touchedUnits (g : Graph) (c : HardwareConfig) :
    (g.touchedUnits c).size = g.tensors.size := by
  rw [touchedUnits, size_foldl_raiseUnit g.touches (·.lanes), Array.size_map]

/-- Before units are shared, that of a tensor divides what its burst and its
own factors divide. -/
theorem touchedUnits_dvd_iff {id : TensorId} (hid : id < g.tensors.size) {m : Nat} :
    (g.touchedUnits c).getD id 1 ∣ m ↔ c.burstElements (g.tensor id).element.width ∣ m ∧
      ∀ t ∈ g.touches, t.tensor = id → t.lanes ∣ m := by
  rw [touchedUnits, foldl_raiseUnit_dvd_iff (by simpa using hid)]
  simp [Array.getD_eq_getD_getElem?, tensor, hid]

namespace Streams

variable (h : g.Streams c)

include h

theorem touch_lt {t : Touch} (ht : t ∈ g.touches) : t.tensor < g.tensors.size := by
  obtain ⟨op, hop, ht⟩ := List.mem_flatMap.1 ht
  exact h.tensor_lt op hop t.tensor (Operation.tensor_mem_of_touch ht)

theorem group_lt : ∀ group ∈ g.laneGroups, ∀ i ∈ group, i < (g.touchedUnits c).size := by
  intro group hgroup i hi
  obtain ⟨op, hop, hlane⟩ := List.mem_filterMap.1 hgroup
  rw [size_touchedUnits]
  refine h.tensor_lt op hop i ?_
  -- only elementwise operations have a group, and it is all their tensors
  cases hcase : op.operation with
  | matmul _ =>
    rw [hcase] at hlane
    cases hlane
  | add _ | normalize _ | activate _ =>
    rw [hcase] at hlane
    obtain rfl := Option.some.inj hlane
    exact hi

theorem touchedUnits_pos (i : TensorId) : 0 < (g.touchedUnits c).getD i 1 := by
  refine foldl_raiseUnit_pos (fun t ht => ?_) (burst_pos h.busWidth_pos) i
  obtain ⟨op, hop, ht⟩ := List.mem_flatMap.1 ht
  exact (touches_pos (h.parallel op hop) t ht).1

/-- What fits the operators, over all their touches and groups. -/
theorem operators_lanesFit_iff : (∀ op ∈ g.operators.toList, op.operation.LanesFit unit) ↔
    (∀ t ∈ g.touches, t.lanes ∣ unit t.tensor) ∧ Agree g.laneGroups unit := by
  constructor
  · intro hall
    refine ⟨fun t ht => ?_, fun group hgroup => ?_⟩
    · obtain ⟨op, hop, ht⟩ := List.mem_flatMap.1 ht
      exact ((Operation.lanesFit_iff (h.parallel op hop)).1 (hall op hop)).1 t ht
    · obtain ⟨op, hop, hlane⟩ := List.mem_filterMap.1 hgroup
      exact ((Operation.lanesFit_iff (h.parallel op hop)).1 (hall op hop)).2 group
        (Option.mem_toList.2 hlane)
  · rintro ⟨htouches, hagree⟩ op hop
    refine (Operation.lanesFit_iff (h.parallel op hop)).2 ⟨fun t ht => ?_, fun group hgroup => ?_⟩
    · exact htouches t (List.mem_flatMap.2 ⟨op, hop, ht⟩)
    · exact hagree group (List.mem_filterMap.2 ⟨op, hop, Option.mem_toList.1 hgroup⟩)

/-- **An assignment fits** when what the operators ask of each tensor divides
into it and the groups agree. -/
theorem lanesFit_iff :
    g.LanesFit c unit ↔ DivideInto (g.touchedUnits c) unit ∧ Agree g.laneGroups unit := by
  constructor
  · rintro ⟨hburst, hall⟩
    obtain ⟨htouches, hagree⟩ := h.operators_lanesFit_iff.1 hall
    refine ⟨fun id => ?_, hagree⟩
    by_cases hid : id < g.tensors.size
    · exact (touchedUnits_dvd_iff hid).2 ⟨hburst id hid, fun t ht heq => heq ▸ htouches t ht⟩
    · rw [getD_of_size_le (by rw [size_touchedUnits]; omega)]
      exact one_dvd _
  · rintro ⟨hdvd, hagree⟩
    refine ⟨fun id hid => ((touchedUnits_dvd_iff hid).1 (hdvd id)).1,
      h.operators_lanesFit_iff.2 ⟨fun t ht => ?_, hagree⟩⟩
    exact ((touchedUnits_dvd_iff (h.touch_lt ht)).1 (hdvd t.tensor)).2 t ht rfl

/-- **The sharing loop ends**, with the lane units of the graph. -/
theorem settles : Settles g.laneGroups (g.touchedUnits c) (g.laneUnits c) :=
  settles_shareUnits g.laneGroups h.touchedUnits_pos

theorem size_laneUnits : (g.laneUnits c).size = g.tensors.size := by
  rw [h.settles.size, size_touchedUnits]

/-- The lane units fit. -/
theorem lanesFit : g.LanesFit c fun id => (g.laneUnits c).getD id 1 :=
  h.lanesFit_iff.2 ⟨h.settles.grows, h.settles.agree h.group_lt⟩

/-- The lane units divide into everything that fits. -/
theorem least (hunit : g.LanesFit c unit) : DivideInto (g.laneUnits c) unit := by
  obtain ⟨hdvd, hagree⟩ := h.lanesFit_iff.1 hunit
  exact h.settles.divideInto hdvd hagree

/-- **The order of the operators does not matter.** -/
theorem laneUnits_eq_of_perm (htensors : g'.tensors = g.tensors)
    (hperm : (g'.operators.toList.map (·.operation)).Perm (g.operators.toList.map (·.operation))) :
    g'.laneUnits c = g.laneUnits c := by
  have hop : g.Performs g' := performs_of_perm hperm
  have hop' : g'.Performs g := performs_of_perm hperm.symm
  have h' : g'.Streams c := h.anti htensors hop
  refine (h.least (h'.lanesFit.anti htensors.symm hop')).antisymm
    (h'.least (h.lanesFit.anti htensors hop)) ?_
  rw [h.size_laneUnits, h'.size_laneUnits, htensors]

end Streams

/-! ## The units of a schedule -/

/-- Layouts do not change the units that they come from. -/
theorem laneUnits_withLayouts (g : Graph) (c c' : HardwareConfig) :
    (g.withLayouts c).laneUnits c' = g.laneUnits c' := by
  have hlogical : (g.withLayouts c).logical = g.logical := logical_mapTensors fun _ => rfl
  exact (units_congr hlogical rfl).1

/-- The layout of a scheduled tensor has the lane unit of the schedule. -/
theorem lanes_of_schedule {q s : Graph} {requests : AttributeRequests} (hs : s.WellFormed)
    (h : (q.schedule c requests).outcome = .ok s) {id : TensorId} (hid : id < s.tensors.size) :
    ∃ layout, (s.tensor id).layout = some layout ∧ layout.lanes = (s.laneUnits c).getD id 1 := by
  have hname := hs.tensor_id id hid
  simp only [outcome_schedule, bind_ok_iff, mapError_ok_iff, pure_ok_iff] at h
  obtain ⟨_, -, _, -, g, -, rfl⟩ := h
  have hid' : id < g.tensors.size := by simpa [withLayouts, mapTensors] using hid
  rw [tensor_withLayouts hid'] at hname ⊢
  refine ⟨_, rfl, ?_⟩
  rw [laneUnits_withLayouts, layoutOf, hname]

/-- **Lane units are the least that fit.** Whatever was quantized and scheduled,
the sharing loop ends. The units it ends with are those of the layouts; they
fit, and they divide into every assignment that fits. Put the operators in
another order, and the units stay. -/
theorem laneUnits_least {q s : Graph} {ranges : ValueRanges} {requests : AttributeRequests}
    (hg : g.Finished) (hq : g.quantize ranges = .ok q)
    (hs : (q.schedule c requests).outcome = .ok s) :
    Settles s.laneGroups (s.touchedUnits c) (s.laneUnits c) ∧
    (∀ id < s.tensors.size, ∃ layout, (s.tensor id).layout = some layout ∧
      layout.lanes = (s.laneUnits c).getD id 1) ∧
    s.LanesFit c (fun id => (s.laneUnits c).getD id 1) ∧
    (∀ unit, s.LanesFit c unit → ∀ id < s.tensors.size, (s.laneUnits c).getD id 1 ∣ unit id) ∧
    ∀ s' : Graph, s'.tensors = s.tensors →
      (s'.operators.toList.map (·.operation)).Perm (s.operators.toList.map (·.operation)) →
      s'.laneUnits c = s.laneUnits c := by
  obtain ⟨hvalid, -, hwell, -, harranged⟩ := scheduled_spec hg.wellFormed hq hs
  have hstreams := harranged.streams hwell (validate_ok hvalid).1
  refine ⟨hstreams.settles, fun id hid => lanes_of_schedule hwell hs hid, hstreams.lanesFit, ?_, ?_⟩
  · intro unit hunit id _
    exact hstreams.least hunit id
  · intro s' htensors hperm
    exact hstreams.laneUnits_eq_of_perm htensors hperm

/-- In the dense layer a burst of the result has one element, and the sum has it
share a unit of two. -/
theorem laneUnits_least_dense : ∃ g q s, Finished g ∧ g.quantize denseRanges = .ok q ∧
    (q.schedule denseConfig []).outcome = .ok s ∧ s.laneUnits denseConfig = #[2, 2, 2, 2, 2] ∧
    Settles s.laneGroups (s.touchedUnits denseConfig) (s.laneUnits denseConfig) ∧
    s.LanesFit denseConfig (fun id => (s.laneUnits denseConfig).getD id 1) := by
  have hunits : densePlan.toOption.map (fun p => p.1.laneUnits denseConfig) =
      some #[2, 2, 2, 2, 2] := by
    decide +kernel
  obtain ⟨⟨s, map⟩, hplan, hunits⟩ := Option.map_eq_some_iff.1 hunits
  simp only [toOption_eq_some_iff, densePlan, bind_ok_iff, mapError_ok_iff, pure_ok_iff] at hplan
  obtain ⟨g, hfinish, q, hq, s', hs, map', -, heq⟩ := hplan
  obtain ⟨rfl, rfl⟩ := Prod.mk.inj heq
  obtain ⟨hsettles, -, hfits, -, -⟩ := laneUnits_least ⟨_, hfinish⟩ hq hs
  exact ⟨g, q, s', ⟨_, hfinish⟩, hq, hs, hunits, hsettles, hfits⟩

end Graph

end QuantAccel
