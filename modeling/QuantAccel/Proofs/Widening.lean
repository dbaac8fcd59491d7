import QuantAccel.Proofs.Failure
import QuantAccel.Proofs.Plan
import QuantAccel.Proofs.Requests

/-!
# Widening and rejecting

The policy for factors below the burst minimum decides which requests are met,
never what they come to. So what is met where factors are rejected is met alike
where they are widened, and **widening is rejecting with the raised factors
asked for**: whatever a widening schedule stores on its operators can be asked
for in so many words, and then there is nothing left to raise.

Widening does not accept everything that a narrow bus would. The columns in
flight of a matrix product have to be a multiple of the columns that it produces
per cycle *after* these were raised. A request that names the columns in flight,
even if it names nothing else, can therefore fail on a wide bus for no other
reason than the width; it is the only kind of request that can. An elementwise
operator compares what was asked for before it raises anything, and never fails
so.
-/

namespace QuantAccel

/-- The same hardware under another policy for factors below the burst
minimum. -/
def HardwareConfig.under (c : HardwareConfig) (policy : BurstPolicy) : HardwareConfig :=
  { c with burstPolicy := policy }

theorem HardwareConfig.under_under (c : HardwareConfig) (policy policy' : BurstPolicy) :
    (c.under policy).under policy' = c.under policy' := rfl

/-- The parallelism of a product as a request, with every factor in it. -/
def MatmulFactors.explicitRequest (f : MatmulFactors) : AttributeRequest :=
  ⟨some f.leftColumns, some f.leftRows, some f.outColumns, some f.inFlight, some f.stationary⟩

/-- The parallelism of an operation as a request: all factors of a product, the
lanes of an elementwise operation. -/
def Operation.explicitRequest : Operation → AttributeRequest
  | matmul o => (o.factors.map MatmulFactors.explicitRequest).getD {}
  | o => { outColumns := o.lanes? }

/-- The parallelism of a graph as requests. -/
def Graph.explicitRequests (g : Graph) : AttributeRequests :=
  g.operators.toList.map fun op => (op.name, op.operation.explicitRequest)

/-- The factors of a product work on something at each cycle and fill a transfer
of every tensor that they stream: the left operand, and the right one if it is
transposed, by the columns of the left, and the result by its own. A whole
number of these is in flight, and no more than the padded result has. -/
structure MatmulFactors.FillBursts (f : MatmulFactors) (burst columns : TensorId → Nat)
    (o : Matmul) : Prop where
  positive : f.Positive
  left : burst o.left ≤ f.leftColumns
  right : o.transposed → burst o.right ≤ f.leftColumns
  output : burst o.output ≤ f.outColumns
  multiple : f.outColumns ∣ f.inFlight
  padded : f.inFlight ≤ roundUp (columns o.output) f.outColumns

/-- An operation has its parallelism, and this fills bursts; that of an
elementwise operation does so for all its tensors. -/
def Operation.FillsBursts (burst columns : TensorId → Nat) : Operation → Prop
  | matmul o => ∃ f, o.factors = some f ∧ f.FillBursts burst columns o
  | o => ∃ lanes, o.lanes? = some lanes ∧ 0 < lanes ∧ ∀ id ∈ o.tensors, burst id ≤ lanes

theorem Matmul.forall_mem_streamed {o : Matmul} {P : TensorId → Prop} :
    (∀ id ∈ o.streamed, P id) ↔ P o.left ∧ (o.transposed → P o.right) := by
  cases htransposed : o.transposed <;> simp [streamed, htransposed]

namespace Graph

variable {g q s : Graph} {c : HardwareConfig} {r : AttributeRequest}

/-! ## What is granted -/

theorem getD_pos {request : Option Nat} {default : Nat} (h : request ≠ some 0)
    (hdefault : 0 < default) :
    0 < request.getD default := by
  cases request with
  | none => exact hdefault
  | some n => exact Nat.pos_of_ne_zero fun hn => h (congrArg some hn)

theorem GrantsFactors.fillBursts {o : Matmul} (h : q.GrantsFactors c o r)
    (hout : 0 < (q.tensor o.output).innermost) :
    (q.grantedFactors c o r).FillBursts (q.burst c) (fun id => (q.tensor id).innermost) o := by
  have hcolumns : 0 < q.raisedColumns c o r :=
    lt_of_lt_of_le (getD_pos h.positive.outColumns Nat.one_pos) le_raised
  have hpadded := le_roundUp (q.tensor o.output).innermost hcolumns
  have hflight := getD_pos h.positive.inFlight hcolumns
  have hmultiple : q.raisedColumns c o r ∣ r.inFlight.getD (q.raisedColumns c o r) := by
    cases hn : r.inFlight with
    | none => exact dvd_rfl
    | some n => exact h.multiple n hn
  have hstreamed : ∀ id ∈ o.streamed, q.burst c id ≤ (q.grantedFactors c o r).leftColumns :=
    fun id hid => burst_le_raised hid
  obtain ⟨hleft, hright⟩ := Matmul.forall_mem_streamed.1 hstreamed
  refine ⟨⟨?_, getD_pos h.positive.leftRows Nat.one_pos, hcolumns, lt_min hflight (by omega)⟩,
    hleft, hright, burst_le_raised (List.mem_singleton_self _), ?_, min_le_right _ _⟩
  · exact lt_of_lt_of_le (getD_pos h.positive.leftColumns Nat.one_pos) le_raised
  · -- the lesser of two multiples is one of them
    simp only [grantedFactors]
    rcases min_choice (r.inFlight.getD (q.raisedColumns c o r))
      (roundUp (q.tensor o.output).innermost (q.raisedColumns c o r)) with hmin | hmin
    · rwa [hmin]
    · rw [hmin]
      exact dvd_roundUp _

theorem GrantsLanes.pos {o : Operation} (h : q.GrantsLanes c o r) : 0 < q.grantedLanes c o r :=
  lt_of_lt_of_le (getD_pos h.outColumns Nat.one_pos) le_raised

/-- Factors that fill bursts can be asked for, and come to themselves: there is
nothing to raise. -/
theorem grantsFactors_explicitRequest {o : Matmul} {f : MatmulFactors}
    (h : f.FillBursts (q.burst c) (fun id => (q.tensor id).innermost) o) :
    q.GrantsFactors c o f.explicitRequest ∧ q.grantedFactors c o f.explicitRequest = f := by
  have hstreamed : ∀ id ∈ o.streamed, q.burst c id ≤ f.leftColumns :=
    Matmul.forall_mem_streamed.2 ⟨h.left, h.right⟩
  have hleft : q.raised c o.streamed f.leftColumns = f.leftColumns := raised_eq_self hstreamed
  have hcolumns : q.raisedColumns c o f.explicitRequest = f.outColumns :=
    raised_eq_self (List.forall_mem_singleton.2 h.output)
  have hne {n : Nat} (hn : 0 < n) : some n ≠ some 0 := by simpa using hn.ne'
  refine ⟨⟨⟨?_, ?_, ?_, ?_⟩, fun _ => ⟨hstreamed, h.output⟩, ?_⟩, ?_⟩
  · exact hne h.positive.leftColumns
  · exact hne h.positive.leftRows
  · exact hne h.positive.outColumns
  · exact hne h.positive.inFlight
  · rintro n hn
    obtain rfl := Option.some.inj hn
    rw [hcolumns]
    exact h.multiple
  · have hflight : min f.inFlight (roundUp (q.tensor o.output).innermost f.outColumns) =
        f.inFlight :=
      min_eq_left h.padded
    simp only [grantedFactors, hcolumns]
    simp only [MatmulFactors.explicitRequest, Option.getD_some, hleft, hflight]

theorem grantsLanes_explicitRequest {o : Operation} {lanes : Nat} (hpos : 0 < lanes)
    (h : ∀ id ∈ o.tensors, q.burst c id ≤ lanes) :
    q.GrantsLanes c o { outColumns := some lanes } ∧
      q.grantedLanes c o { outColumns := some lanes } = lanes := by
  refine ⟨⟨by simp, by simp, by simp, ?_, by simp, fun _ => h⟩, raised_eq_self h⟩
  simpa using hpos.ne'

/-- **What is granted fills bursts**, under either policy. -/
theorem fillsBursts_granted {o : Operation} (hout : 0 < (q.tensor o.output).innermost)
    (h : q.Grants c r o) :
    (q.granted c r o).FillsBursts (q.burst c) fun id => (q.tensor id).innermost := by
  cases o with
  | matmul o =>
    obtain ⟨hpositive, hleft, hright, houtput, hmultiple, hpadded⟩ :=
      GrantsFactors.fillBursts h hout
    exact ⟨_, rfl, hpositive, hleft, hright, houtput, hmultiple, hpadded⟩
  | add _ | normalize _ | activate _ =>
    exact ⟨_, rfl, GrantsLanes.pos h, fun id hid => burst_le_raised hid⟩

/-- **What was granted can be asked for**, and comes to itself even where
nothing is raised. -/
theorem grants_explicitRequest {o : Operation} (hout : 0 < (q.tensor o.output).innermost)
    (h : q.Grants c r o) :
    q.Grants (c.under .reject) (q.granted c r o).explicitRequest o ∧
      q.granted (c.under .reject) (q.granted c r o).explicitRequest o = q.granted c r o := by
  cases o with
  | matmul o =>
    obtain ⟨hgrants, heq⟩ := grantsFactors_explicitRequest (c := c.under .reject)
      (h.fillBursts hout)
    exact ⟨hgrants, congrArg (fun f => Operation.matmul { o with factors := some f }) heq⟩
  | add o | normalize o | activate o =>
    obtain ⟨hgrants, heq⟩ := grantsLanes_explicitRequest (c := c.under .reject) (GrantsLanes.pos h)
      fun id hid => burst_le_raised hid
    refine ⟨hgrants, ?_⟩
    simp only [granted]
    exact congrFun (congrArg Operation.withLanes heq) _

/-- The policy has no part in what requests come to. -/
theorem withGranted_under (policy : BurstPolicy) (requests : AttributeRequests) :
    q.withGranted (c.under policy) requests = q.withGranted c requests := rfl

theorem withLayouts_under (policy : BurstPolicy) :
    q.withLayouts (c.under policy) = q.withLayouts c := rfl

/-- What is met where factors are rejected is met where they are widened. -/
theorem Grants.widen {o : Operation} (h : q.Grants (c.under .reject) r o) :
    q.Grants (c.under .widen) r o := by
  cases o with
  | matmul o => exact { h with bursts := fun hpolicy => BurstPolicy.noConfusion hpolicy }
  | add _ | normalize _ | activate _ =>
    exact { h with bursts := fun hpolicy => BurstPolicy.noConfusion hpolicy }

theorem WellFormed.innermost_output_pos (hq : q.WellFormed) {op : Operator}
    (hop : op ∈ q.operators.toList) :
    0 < (q.tensor op.output).innermost := by
  obtain ⟨hlt, heq⟩ := hq.operator_id.exists_of_mem hop
  have hout := hq.output_lt op.id hlt
  rw [heq] at hout
  exact (hq.positive _ hout).innermost_pos

/-- **All parallelism that a schedule stores fills bursts.** -/
theorem fillsBursts_of_schedule {requests : AttributeRequests} (hq : q.WellFormed)
    (h : (q.schedule c requests).outcome = .ok s) :
    ∀ op ∈ s.operators.toList, op.operation.FillsBursts (s.burst c) fun id =>
      (s.tensor id).innermost := by
  -- bursts and columns are a matter of the declaration, which a schedule keeps
  have hsame := sameDeclaration (declared_eq_of_logical_eq (schedule_spec hq h).2.1)
  have hburst : s.burst c = q.burst c := by
    funext id
    rw [burst, burst, hsame.element]
  have hcolumns : (fun id => (s.tensor id).innermost) = fun id => (q.tensor id).innermost := by
    funext id
    rw [Tensor.innermost, Tensor.innermost, hsame.shape]
  obtain ⟨-, -, hgrants, rfl⟩ := schedule_ok_iff.1 h
  intro op hop
  rw [hburst, hcolumns]
  obtain ⟨op', hop', rfl⟩ := Array.mem_map.1 (Array.mem_toList_iff.1 hop)
  have hmem : op' ∈ q.operators.toList := Array.mem_toList_iff.2 hop'
  exact fillsBursts_granted (hq.innermost_output_pos hmem) (hgrants op' hmem)

/-! ## Asking again -/

/-- Requests for operators of different names are found under these names. -/
theorem lookup_map_name {l : List Operator} {f : Operator → AttributeRequest}
    (h : (l.map (·.name)).Nodup) {op : Operator} (hop : op ∈ l) :
    (l.map fun op => (op.name, f op)).lookup op.name = some (f op) := by
  induction l with
  | nil => cases hop
  | cons a l ih =>
    rw [List.map_cons, List.nodup_cons] at h
    rw [List.map_cons, List.lookup_cons]
    rcases List.mem_cons.1 hop with rfl | hmem
    · simp
    · have hne : op.name ≠ a.name := fun heq => h.1 (heq ▸ List.mem_map_of_mem hmem)
      simp only [beq_eq_false_iff_ne.2 hne]
      exact ih h.2 hmem

/-- The operators of a quantized graph have names of their own, and are in its
table under these. -/
theorem Finished.operatorTable {ranges : ValueRanges} (hg : g.Finished)
    (hq : g.quantize ranges = .ok q) :
    NameTable q.operatorNames q.operators.size fun i => (q.operator i).name := by
  have hdecl := (quantize_spec hg.wellFormed hq).1
  have hsame := sameDeclaration hdecl
  have htable : q.operatorNames = g.operatorNames := (congrArg Graph.operatorNames hdecl :)
  have hname (i : OperatorId) : (q.operator i).name = (g.operator i).name :=
    (congrArg Operator.name (hsame.operator i) :)
  rw [htable, hsame.operators_size]
  exact hg.named.operators.congr fun i _ => hname i

theorem nodup_operator_names
    (h : NameTable q.operatorNames q.operators.size fun i => (q.operator i).name) :
    (q.operators.toList.map (·.name)).Nodup := by
  rw [List.Nodup, List.pairwise_iff_getElem]
  intro i j hi hj hlt heq
  simp only [List.length_map, Array.length_toList] at hi hj
  refine hlt.ne (h.injective hi hj ?_)
  simpa [operator_eq_getElem hi, operator_eq_getElem hj] using heq

section Resubmission

variable {requests : AttributeRequests}

/-- What a schedule stores is found under the name of the operator. -/
theorem requestFor_explicitRequests
    (h : NameTable q.operatorNames q.operators.size fun i => (q.operator i).name) {op : Operator}
    (hop : op ∈ q.operators.toList) :
    ((q.withGranted c requests).withLayouts c).explicitRequests.requestFor op.name =
      (q.grantedOperator c requests op).operation.explicitRequest := by
  have hlist : ((q.withGranted c requests).withLayouts c).explicitRequests =
      q.operators.toList.map fun op =>
      (op.name, (q.grantedOperator c requests op).operation.explicitRequest) := by
    simp [explicitRequests, withLayouts, mapTensors, withGranted, grantedOperator]
  rw [AttributeRequests.requestFor, hlist, lookup_map_name (nodup_operator_names h) hop,
    Option.getD_some]

/-- What a schedule stores asks for operators that are there. -/
theorem checkRequests_explicitRequests
    (h : NameTable q.operatorNames q.operators.size fun i => (q.operator i).name) :
    q.checkRequests ((q.withGranted c requests).withLayouts c).explicitRequests = .ok () := by
  have hnone : ((q.withGranted c requests).withLayouts c).explicitRequests.find?
      (fun request => (q.operatorNamed? request.1).isNone) = none := by
    rw [List.find?_eq_none]
    rintro ⟨name, request⟩ hmem
    simp only [explicitRequests, withLayouts, mapTensors, withGranted, Array.toList_map,
      List.map_map, List.mem_map] at hmem
    obtain ⟨op, hop, heq⟩ := hmem
    obtain ⟨i, hi, rfl⟩ := List.getElem_of_mem hop
    have hi' : i < q.operators.size := by simpa using hi
    obtain rfl : q.operators.toList[i].name = name := congrArg Prod.fst heq
    rw [Option.isNone_iff_eq_none, operatorNamed?, h.lookup_eq_none_iff]
    intro hfree
    exact hfree i hi' (by rw [operator_eq_getElem hi', Array.getElem_toList])
  simp only [checkRequests, hnone]

/-- **Asking for what is stored gives the same schedule** where factors below
the minimum are rejected. -/
theorem schedule_explicitRequests (hq : q.WellFormed)
    (h : NameTable q.operatorNames q.operators.size fun i => (q.operator i).name)
    (hs : (q.schedule c requests).outcome = .ok s) :
    (q.schedule (c.under .reject) s.explicitRequests).outcome = .ok s := by
  obtain ⟨hvalid, -, hgrants, rfl⟩ := schedule_ok_iff.1 hs
  have hasked : ∀ op ∈ q.operators.toList, _ := fun op hop =>
    grants_explicitRequest (hq.innermost_output_pos hop) (hgrants op hop)
  refine schedule_ok_iff.2 ⟨hvalid, checkRequests_explicitRequests h, fun op hop => ?_, ?_⟩
  · rw [requestFor_explicitRequests h hop]
    exact (hasked op hop).1
  · have hoperators : q.operators.map (q.grantedOperator (c.under .reject)
        ((q.withGranted c requests).withLayouts c).explicitRequests) =
          q.operators.map (q.grantedOperator c requests) := by
      refine Array.map_congr_left fun op hop => ?_
      have hop' : op ∈ q.operators.toList := Array.mem_toList_iff.2 hop
      rw [grantedOperator, requestFor_explicitRequests h hop']
      exact congrArg (fun operation => { op with operation }) (hasked op hop').2
    exact congrArg (fun operators => ({ q with operators } : Graph).withLayouts c) hoperators.symm

/-- **Widening is rejecting with the raised factors asked for.** A schedule that
is accepted where factors below the burst minimum are rejected is accepted
unchanged where they are widened. A widened schedule is accepted where they are
rejected, once all that it stores is asked for. Under either policy the
parallelism that a schedule stores fills bursts. -/
theorem widen_as_reject {ranges : ValueRanges} (hg : g.Finished) (hq : g.quantize ranges = .ok q)
    (c : HardwareConfig) (requests : AttributeRequests) :
    (∀ s, (q.schedule (c.under .reject) requests).outcome = .ok s →
      (q.schedule (c.under .widen) requests).outcome = .ok s) ∧
    (∀ s, (q.schedule (c.under .widen) requests).outcome = .ok s →
      (q.schedule (c.under .reject) s.explicitRequests).outcome = .ok s) ∧
    ∀ policy s, (q.schedule (c.under policy) requests).outcome = .ok s → ∀ op ∈ s.operators.toList,
      op.operation.FillsBursts (s.burst c) fun id => (s.tensor id).innermost := by
  have hwell := (sameDeclaration (quantize_spec hg.wellFormed hq).1).wellFormed hg.wellFormed
  refine ⟨fun s hs => ?_, fun s hs => ?_, fun policy s hs => ?_⟩
  · obtain ⟨hvalid, hrequests, hgrants, heq⟩ := schedule_ok_iff.1 hs
    rw [withGranted_under, withLayouts_under] at heq
    refine schedule_ok_iff.2 ⟨hvalid, hrequests, fun op hop => (hgrants op hop).widen, ?_⟩
    rwa [withGranted_under, withLayouts_under]
  · rw [← c.under_under .widen]
    exact schedule_explicitRequests hwell (hg.operatorTable hq) hs
  · -- a burst of the bus is the same under either policy
    exact (fillsBursts_of_schedule hwell hs :)

/-- The dense layer, quantized. -/
def denseQuantized : Except CompileError Graph := do
  let g ← (build denseCalls).finish.outcome.mapError .graph
  g.quantize denseRanges

/-- Without requests the dense layer is refused by the one policy; by the other
its factors are raised, and what is stored then is accepted by both. -/
theorem widen_as_reject_dense : ∃ g q s, Finished g ∧ g.quantize denseRanges = .ok q ∧
    (∃ e, (q.schedule (denseConfig.under .reject) []).outcome = .error e) ∧
    (q.schedule (denseConfig.under .widen) []).outcome = .ok s ∧
    (q.schedule (denseConfig.under .reject) s.explicitRequests).outcome = .ok s ∧
    ∀ op ∈ s.operators.toList,
      op.operation.FillsBursts (s.burst denseConfig) fun id => (s.tensor id).innermost := by
  have hruns : denseQuantized.toOption.map (fun q =>
      ((q.schedule (denseConfig.under .reject) []).outcome.isOk,
        (q.schedule denseConfig []).outcome.isOk)) =
        some (false, true) := by decide +kernel
  obtain ⟨q, hq, hruns⟩ := Option.map_eq_some_iff.1 hruns
  obtain ⟨hrefused, haccepted⟩ := Prod.mk.inj hruns
  simp only [toOption_eq_some_iff, denseQuantized, bind_ok_iff, mapError_ok_iff] at hq
  obtain ⟨g, hfinish, hq⟩ := hq
  obtain ⟨s, hs⟩ := exists_ok_of_isOk haccepted
  obtain ⟨-, hagain, hfill⟩ := widen_as_reject ⟨_, hfinish⟩ hq denseConfig []
  exact ⟨g, q, s, ⟨_, hfinish⟩, hq, exists_error_of_isOk hrefused, hs, hagain s hs,
    hfill .widen s hs⟩

end Resubmission

/-! ## Wider buses -/

/-- On a bus of a single bit every element fills a transfer. -/
theorem burst_eq_one (hbus : c.busWidth = 1) (id : TensorId) : q.burst c id = 1 := by
  have hpos := (q.tensor id).element.width_pos
  rw [burst, HardwareConfig.burstElements, hbus, Nat.add_sub_cancel_left, Nat.div_self hpos]

theorem raised_of_busWidth_one {ids : List TensorId} {request : Option Nat} (hbus : c.busWidth = 1)
    (hrequest : request ≠ some 0) : q.raised c ids (request.getD 1) = request.getD 1 := by
  refine raised_eq_self fun id _ => ?_
  rw [burst_eq_one hbus]
  exact getD_pos hrequest Nat.one_pos

end Graph

/-- The same hardware with another bus, where factors below the burst minimum
are widened. -/
def HardwareConfig.widening (c : HardwareConfig) (width : Nat) : HardwareConfig :=
  { c with busWidth := width, burstPolicy := .widen }

/-- Factors of a product raised to burst minima: those that stream its tensors
are the least that fill a transfer and are not below what they were, and the
others stay. -/
structure MatmulFactors.RaisedTo (f f' : MatmulFactors) (burst : TensorId → Nat)
    (o : Matmul) : Prop where
  leftColumns : IsLeast {n | f.leftColumns ≤ n ∧ ∀ id ∈ o.streamed, burst id ≤ n} f'.leftColumns
  leftRows : f'.leftRows = f.leftRows
  outColumns : IsLeast {n | f.outColumns ≤ n ∧ ∀ id ∈ [o.output], burst id ≤ n} f'.outColumns
  stationary : f'.stationary = f.stationary

/-- An operation with its parallelism raised to burst minima, and the same in
all else. -/
def Operation.RaisedTo (burst : TensorId → Nat) : Operation → Operation → Prop
  | matmul o, o' =>
    ∃ f f', o.factors = some f ∧ o' = matmul { o with factors := some f' } ∧ f.RaisedTo f' burst o
  | o, o' => ∃ lanes lanes', o.lanes? = some lanes ∧ o' = o.withLanes lanes' ∧
      IsLeast {n | lanes ≤ n ∧ ∀ id ∈ o.tensors, burst id ≤ n} lanes'

namespace Graph

variable {q : Graph} {c : HardwareConfig} {r : AttributeRequest} {requests : AttributeRequests}
    {width : Nat}

/-- If the request for an operation names the columns in flight of a product,
then they are a multiple of its raised columns. -/
def KeepsMultiple (q : Graph) (c : HardwareConfig) (r : AttributeRequest) (o : Operation) : Prop :=
  ∀ p n, o = .matmul p → r.inFlight = some n → max (r.outColumns.getD 1) (q.burst c p.output) ∣ n

/-- The error of a request that does not keep the columns in flight of a product
a multiple. -/
def BreaksMultiple (q : Graph) (c : HardwareConfig) (r : AttributeRequest) (op : Operator)
    (e : CompileError) : Prop :=
  ∃ p n, op.operation = .matmul p ∧ r.inFlight = some n ∧
    ¬max (r.outColumns.getD 1) (q.burst c p.output) ∣ n ∧
    e = .attributes op.name (.notMultiple n (max (r.outColumns.getD 1) (q.burst c p.output)))

theorem isLeast_raised {ids : List TensorId} {factor : Nat} :
    IsLeast {n | factor ≤ n ∧ ∀ id ∈ ids, q.burst c id ≤ n} (q.raised c ids factor) :=
  ⟨raised_le_iff.1 le_rfl, fun _ hn => raised_le_iff.2 hn⟩

/-- **What a wider bus takes from a request**: a product has to keep its columns
in flight a multiple. -/
theorem grants_widening_iff {o : Operation} (h : q.Grants c r o) :
    q.Grants (c.widening width) r o ↔ q.KeepsMultiple (c.widening width) r o := by
  cases o with
  | matmul p =>
    constructor
    · rintro hgrants _ n heq hn
      obtain rfl := Operation.matmul.inj heq
      exact hgrants.multiple n hn
    · intro hkeeps
      exact ⟨h.positive, fun hpolicy => BurstPolicy.noConfusion hpolicy,
        fun n hn => hkeeps p n rfl hn⟩
  | add _ | normalize _ | activate _ =>
    constructor
    · rintro - p n heq
      cases heq
    · rintro -
      exact { h with bursts := fun hpolicy => BurstPolicy.noConfusion hpolicy }

/-- **What is granted on a wider bus** is what a bus of a single bit grants,
raised. -/
theorem raisedTo_granted {o : Operation} (hbus : c.busWidth = 1) (h : q.Grants c r o) :
    (q.granted c r o).RaisedTo (q.burst (c.widening width)) (q.granted (c.widening width) r o) := by
  cases o with
  | matmul p =>
    refine ⟨_, _, rfl, rfl, ?_, rfl, ?_, rfl⟩
    · simp only [grantedFactors, raised_of_busWidth_one hbus h.positive.leftColumns]
      exact isLeast_raised
    · simp only [grantedFactors, raisedColumns, raised_of_busWidth_one hbus h.positive.outColumns]
      exact isLeast_raised
  | add _ | normalize _ | activate _ =>
    refine ⟨_, _, rfl, rfl, ?_⟩
    simp only [grantedLanes, raised_of_busWidth_one hbus h.outColumns]
    exact isLeast_raised

/-- A request whose columns in flight are no multiple of the raised columns is
refused for that. -/
theorem matmulFactors_notMultiple {name : String} {o : Matmul} {n : Nat} (hpositive : r.Positive)
    (hpolicy : c.burstPolicy = .widen) (hn : r.inFlight = some n)
    (hnot : ¬q.raisedColumns c o r ∣ n) :
    (q.matmulFactors c name o r).outcome =
      .error (.attributes name (.notMultiple n (q.raisedColumns c o r))) := by
  have hraise (field : AttributeField) (ids : List TensorId) (factor : Nat) :
      ids.foldlM (fun n id => (burstFactor c name field (q.tensor id) n).outcome) factor =
        .ok (q.raised c ids factor) :=
    foldlM_burstFactor_ok_iff.2 ⟨fun hreject => by simp [hpolicy] at hreject, rfl⟩
  rw [Nat.dvd_iff_mod_eq_zero] at hnot
  rw [outcome_matmulFactors, requestedFactor_ok_iff.2 ⟨hpositive.leftColumns, rfl⟩, ok_bind,
    requestedFactor_ok_iff.2 ⟨hpositive.leftRows, rfl⟩, ok_bind,
    requestedFactor_ok_iff.2 ⟨hpositive.outColumns, rfl⟩, ok_bind, hraise, ok_bind, hraise, ok_bind,
    requestedFactor_ok_iff.2 ⟨hpositive.inFlight, rfl⟩, ok_bind, hn]
  exact if_pos hnot

theorem raises_grantOperator_widening {op : Operator}
    (h : q.Grants c (requests.requestFor op.name) op.operation) :
    Raises (q.BreaksMultiple (c.widening width) (requests.requestFor op.name) op)
      (grantOperator (c.widening width) requests q op) := by
  by_cases hkeeps : q.KeepsMultiple (c.widening width) (requests.requestFor op.name) op.operation
  · exact .of_ok (grantOperator_ok_iff.2 ⟨(grants_widening_iff h).2 hkeeps, rfl⟩)
  · simp only [KeepsMultiple, not_forall] at hkeeps
    obtain ⟨o, n, ho, hn, hnot⟩ := hkeeps
    rw [ho] at h
    refine .map (fun e he => ?_) _
    simp only [scheduledOperation, ho, matmulFactors_notMultiple h.positive rfl hn hnot] at he
    exact ⟨o, n, ho, hn, hnot, (Except.error.inj he).symm⟩

theorem operator_withGranted {i : OperatorId} (hi : i < q.operators.size) :
    ((q.withGranted c requests).withLayouts c).operator i = q.grantedOperator c requests
      (q.operator i) := by
  simp [withLayouts, mapTensors, withGranted, operator, Array.getD_eq_getD_getElem?, hi]

theorem validate_widening (h : c.validate = .ok ()) (hwidth : 1 ≤ width) :
    (c.widening width).validate = .ok () := by
  have hbus : ¬(c.widening width).busWidth = 0 := Nat.ne_of_gt hwidth
  unfold HardwareConfig.validate at h ⊢
  rw [if_neg hbus]
  rwa [if_neg (validate_ok h).1.ne'] at h

/-- **When widening accepts what a bus of a single bit does.** A wider bus
accepts the requests if and only if those that name the columns in flight of a
product keep them a multiple of its raised columns. Then all factors are raised,
to the least that fill a transfer. There is no other error than that a product
does not keep the multiple: none is about a factor below its burst minimum. -/
theorem widen_accepts_iff {base : HardwareConfig} {s₁ : Graph}
    (hs : (q.schedule base requests).outcome = .ok s₁) (hbus : base.busWidth = 1)
    (hwidth : 1 ≤ width) :
    ((∃ s, (q.schedule (base.widening width) requests).outcome = .ok s) ↔
      ∀ op ∈ q.operators.toList,
        q.KeepsMultiple (base.widening width) (requests.requestFor op.name) op.operation) ∧
    (∀ s, (q.schedule (base.widening width) requests).outcome = .ok s → ∀ i < q.operators.size,
      (s₁.operator i).operation.RaisedTo (q.burst (base.widening width)) (s.operator i).operation) ∧
    ∀ e, (q.schedule (base.widening width) requests).outcome = .error e →
      ∃ op ∈ q.operators.toList, q.BreaksMultiple (base.widening width)
        (requests.requestFor op.name) op e := by
  obtain ⟨hvalid, hrequests, hgrants, rfl⟩ := schedule_ok_iff.1 hs
  have hvalid' := validate_widening hvalid hwidth
  refine ⟨⟨?_, fun hkeeps => ?_⟩, ?_, ?_⟩
  · rintro ⟨s, hs⟩ op hop
    obtain ⟨-, -, hgrants', -⟩ := schedule_ok_iff.1 hs
    exact (grants_widening_iff (hgrants op hop)).1 (hgrants' op hop)
  · exact ⟨_, schedule_ok_iff.2 ⟨hvalid', hrequests,
      fun op hop => (grants_widening_iff (hgrants op hop)).2 (hkeeps op hop), rfl⟩⟩
  · intro s hs i hi
    obtain ⟨-, -, -, rfl⟩ := schedule_ok_iff.1 hs
    rw [operator_withGranted hi, operator_withGranted hi]
    have hmem : q.operator i ∈ q.operators.toList := by
      rw [operator_eq_getElem hi, ← Array.getElem_toList]
      exact List.getElem_mem _
    exact raisedTo_granted hbus (hgrants _ hmem)
  · intro e he
    rw [outcome_schedule, hvalid', hrequests, foldlM_scheduleOperator] at he
    have hraises := raises_mapM (P := fun e => ∃ op ∈ q.operators.toList,
      q.BreaksMultiple (base.widening width) (requests.requestFor op.name) op e) fun op hop =>
        (raises_grantOperator_widening (hgrants op hop)).mono fun e he => ⟨op, hop, he⟩
    exact ((hraises.map _).bind fun _ _ => raises_ok _) e he

/-- A bus of a single bit. -/
def serialConfig : HardwareConfig := { denseConfig with busWidth := 1 }

/-- A request for the columns in flight of the dense layer. -/
def flightRequest (n : Nat) : AttributeRequests := [("y", { inFlight := some n })]

/-- Both buses accept five columns of the dense layer in flight. -/
theorem widen_accepts_iff_dense : ∃ q s₁ s, denseQuantized = .ok q ∧
    (q.schedule serialConfig (flightRequest 5)).outcome = .ok s₁ ∧
    (q.schedule (serialConfig.widening 32) (flightRequest 5)).outcome = .ok s ∧
    (∀ op ∈ q.operators.toList, q.KeepsMultiple (serialConfig.widening 32)
      ((flightRequest 5).requestFor op.name) op.operation) ∧
    ∀ i < q.operators.size, (s₁.operator i).operation.RaisedTo (q.burst (serialConfig.widening 32))
      (s.operator i).operation := by
  have hruns : denseQuantized.toOption.map (fun q =>
      ((q.schedule serialConfig (flightRequest 5)).outcome.isOk,
        (q.schedule (serialConfig.widening 32) (flightRequest 5)).outcome.isOk)) =
          some (true, true) := by
    decide +kernel
  obtain ⟨q, hq, hruns⟩ := Option.map_eq_some_iff.1 hruns
  obtain ⟨hserial, hwide⟩ := Prod.mk.inj hruns
  obtain ⟨s₁, hs₁⟩ := exists_ok_of_isOk hserial
  obtain ⟨s, hs⟩ := exists_ok_of_isOk hwide
  obtain ⟨hiff, hraised, -⟩ := widen_accepts_iff hs₁ rfl (by decide : 1 ≤ 32)
  exact ⟨q, s₁, s, toOption_eq_some_iff.1 hq, hs₁, hs, hiff.1 ⟨s, hs⟩, hraised s hs⟩

/-- What is said of a schedule that is refused. -/
def refusal? : Except CompileError Graph → Option String
  | .ok _ => none
  | .error e => some e.message

/-- A bus of a single bit accepts two columns of the dense layer in flight. A
bus of 32 bits raises the columns per cycle to five, which two is no multiple
of, and does not. -/
theorem widen_refuses_dense : ∃ g q s e, Finished g ∧ g.quantize denseRanges = .ok q ∧
    (q.schedule serialConfig (flightRequest 2)).outcome = .ok s ∧
    (q.schedule (serialConfig.widening 32) (flightRequest 2)).outcome = .error e ∧
    e.message =
      "invalid attributes for operator `y`: concur_out_col=2 is not a multiple of par_out_col=5" := by
  have hruns : denseQuantized.toOption.map (fun q =>
      ((q.schedule serialConfig (flightRequest 2)).outcome.isOk,
        refusal? (q.schedule (serialConfig.widening 32) (flightRequest 2)).outcome)) =
      some (true, some
        "invalid attributes for operator `y`: concur_out_col=2 is not a multiple of par_out_col=5") := by
    decide +kernel
  obtain ⟨q, hq, hruns⟩ := Option.map_eq_some_iff.1 hruns
  obtain ⟨hserial, hwide⟩ := Prod.mk.inj hruns
  simp only [toOption_eq_some_iff, denseQuantized, bind_ok_iff, mapError_ok_iff] at hq
  obtain ⟨g, hfinish, hq⟩ := hq
  obtain ⟨s, hs⟩ := exists_ok_of_isOk hserial
  cases he : (q.schedule (serialConfig.widening 32) (flightRequest 2)).outcome with
  | ok s' =>
    rw [he] at hwide
    cases hwide
  | error e =>
    rw [he] at hwide
    exact ⟨g, q, s, e, ⟨_, hfinish⟩, hq, hs, he, Option.some.inj hwide⟩

end Graph

end QuantAccel
