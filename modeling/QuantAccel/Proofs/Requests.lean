import QuantAccel.Proofs.Schedule

/-!
# What requests come to

A request is met or refused by itself: what comes of it depends on its operator
and on the tensors that this streams, and not on what the operators before it
were granted. Which requests are met (`Grants`) and what they come to
(`granted`) are said here without a computation that can fail. Factors are
raised to the burst minima of the tensors they stream, under either policy;
**the policy has a say in what is met only**, where rejecting asks that there is
nothing to raise. Scheduling is then a map over the operators
(`schedule_ok_iff`).
-/

namespace QuantAccel

/-! ## One factor -/

section Factor

/-- A check that throws, and what comes after it. -/
theorem outcome_check {ε α β : Type} {p : Prop} [Decidable p] {e : ε} {f : β → Traced ε α}
    {x : Traced ε α} :
    (if p then throw e >>= f else x).outcome = if p then .error e else x.outcome := by
  split <;> rfl

theorem ok_bind {ε α β : Type} (a : α) (f : α → Except ε β) : (.ok a >>= f) = f a := rfl

variable {c : HardwareConfig} {name : String} {field : AttributeField} {n factor : Nat}

/-- A requested factor is taken unless it is zero; without a request it is the
default. -/
theorem requestedFactor_ok_iff {request : Option Nat} {default : Nat} :
    requestedFactor name field request default = .ok n ↔
      request ≠ some 0 ∧ n = request.getD default := by
  unfold requestedFactor
  split <;> simp_all [eq_comm]

/-- A factor is raised to the minimum, and refused instead only if the policy is
to reject. -/
theorem burstFactor_ok_iff {t : Tensor} :
    (burstFactor c name field t factor).outcome = .ok n ↔
      (c.burstPolicy = .reject → c.burstElements t.element.width ≤ factor) ∧
        n = max factor (c.burstElements t.element.width) := by
  simp only [burstFactor]
  split
  · rename_i hlt
    rw [max_eq_right hlt.le]
    cases c.burstPolicy with
    | reject => simp [hlt]
    | widen =>
      change Except.ok _ = Except.ok n ↔ _
      simp [eq_comm]
  · rename_i hle
    rw [max_eq_left (not_lt.1 hle)]
    simp [not_lt.1 hle, eq_comm]

end Factor

namespace Graph

variable {g : Graph} {c : HardwareConfig} {ids : List TensorId} {factor n : Nat}

/-- The elements of a tensor that fill a bus transfer. -/
def burst (g : Graph) (c : HardwareConfig) (id : TensorId) : Nat :=
  c.burstElements (g.tensor id).element.width

/-- A factor raised to the burst minima of the tensors that it streams. -/
def raised (g : Graph) (c : HardwareConfig) (ids : List TensorId) (factor : Nat) : Nat :=
  ids.foldl (fun n id => max n (g.burst c id)) factor

/-- **A raised factor is the least one** that fills a transfer of every tensor
and is not below the factor. -/
theorem raised_le_iff : g.raised c ids factor ≤ n ↔ factor ≤ n ∧ ∀ id ∈ ids, g.burst c id ≤ n := by
  unfold raised
  induction ids generalizing factor with
  | nil => simp
  | cons id ids ih => rw [List.foldl_cons, ih, max_le_iff, List.forall_mem_cons, and_assoc]

theorem le_raised : factor ≤ g.raised c ids factor :=
  (raised_le_iff.1 le_rfl).1

/-- A raised factor fills bursts of all tensors that it streams. -/
theorem burst_le_raised {id : TensorId} (hid : id ∈ ids) : g.burst c id ≤ g.raised c ids factor :=
  (raised_le_iff.1 le_rfl).2 id hid

/-- Where there is nothing to raise, the factor stays. -/
theorem raised_eq_self (h : ∀ id ∈ ids, g.burst c id ≤ factor) : g.raised c ids factor = factor :=
  le_antisymm (raised_le_iff.2 ⟨le_rfl, h⟩) le_raised

/-- **Checks against one tensor after the other** raise the factor to all their
minima. -/
theorem foldlM_burstFactor_ok_iff {name : String} {field : AttributeField} :
    ids.foldlM (fun n id => (burstFactor c name field (g.tensor id) n).outcome) factor = .ok n ↔
      (c.burstPolicy = .reject → ∀ id ∈ ids, g.burst c id ≤ factor) ∧
        n = g.raised c ids factor := by
  induction ids generalizing factor with
  | nil => simp [raised, pure, Except.pure, eq_comm]
  | cons id ids ih =>
    simp only [List.foldlM_cons, bind_ok_iff, burstFactor_ok_iff, ih, List.forall_mem_cons]
    constructor
    · rintro ⟨m, ⟨hfirst, rfl⟩, hrest, rfl⟩
      refine ⟨fun hpolicy => ⟨hfirst hpolicy, fun i hi => ?_⟩, rfl⟩
      -- a factor that was not refused has not been raised
      have hburst := hrest hpolicy i hi
      rwa [max_eq_left (hfirst hpolicy)] at hburst
    · rintro ⟨hall, rfl⟩
      exact ⟨_, ⟨fun hpolicy => (hall hpolicy).1, rfl⟩,
        fun hpolicy i hi => le_max_of_le_left ((hall hpolicy).2 i hi), rfl⟩

end Graph

/-! ## Matrix products -/

/-- The tensors that a product streams along its inner dimension. -/
def Matmul.streamed (o : Matmul) : List TensorId :=
  if o.transposed then [o.left, o.right] else [o.left]

/-- No factor is asked to be zero. -/
structure AttributeRequest.Positive (r : AttributeRequest) : Prop where
  leftColumns : r.leftColumns ≠ some 0
  leftRows : r.leftRows ≠ some 0
  outColumns : r.outColumns ≠ some 0
  inFlight : r.inFlight ≠ some 0

namespace Graph

variable {g : Graph} {c : HardwareConfig} {name : String} {r : AttributeRequest}

/-- The output columns of a product, raised to the burst minimum of its
result. -/
def raisedColumns (g : Graph) (c : HardwareConfig) (o : Matmul) (r : AttributeRequest) : Nat :=
  g.raised c [o.output] (r.outColumns.getD 1)

/-- The parallelism that a request for a product comes to. -/
def grantedFactors (g : Graph) (c : HardwareConfig) (o : Matmul) (r : AttributeRequest) :
    MatmulFactors where
  leftColumns := g.raised c o.streamed (r.leftColumns.getD 1)
  leftRows := r.leftRows.getD 1
  outColumns := g.raisedColumns c o r
  inFlight := min (r.inFlight.getD (g.raisedColumns c o r))
    (roundUp (g.tensor o.output).innermost (g.raisedColumns c o r))
  stationary := r.stationary.getD .right

/-- A request for a product is met. The columns in flight have to be a multiple
of the raised columns. -/
structure GrantsFactors (g : Graph) (c : HardwareConfig) (o : Matmul)
    (r : AttributeRequest) : Prop where
  positive : r.Positive
  bursts : c.burstPolicy = .reject → (∀ id ∈ o.streamed, g.burst c id ≤ r.leftColumns.getD 1) ∧
    g.burst c o.output ≤ r.outColumns.getD 1
  multiple : ∀ n, r.inFlight = some n → g.raisedColumns c o r ∣ n

/-- What the parallelism of a product is made of: its factors, raised one after
the other, and then the columns in flight. -/
theorem outcome_matmulFactors (g : Graph) (c : HardwareConfig) (name : String) (o : Matmul)
    (r : AttributeRequest) : (g.matmulFactors c name o r).outcome = (do
      let leftColumns ← requestedFactor name .leftColumns r.leftColumns 1
      let leftRows ← requestedFactor name .leftRows r.leftRows 1
      let outColumns ← requestedFactor name .outColumns r.outColumns 1
      let leftColumns ← o.streamed.foldlM
        (fun n id => (burstFactor c name .leftColumns (g.tensor id) n).outcome) leftColumns
      let outColumns ← [o.output].foldlM
        (fun n id => (burstFactor c name .outColumns (g.tensor id) n).outcome) outColumns
      let inFlight ← requestedFactor name .inFlight r.inFlight outColumns
      (if inFlight % outColumns ≠ 0 then
        .error (.attributes name (.notMultiple inFlight outColumns))
        else .ok ⟨leftColumns, leftRows, outColumns,
          min inFlight (roundUp (g.tensor o.output).innermost outColumns),
            r.stationary.getD .right⟩)) := by
  cases htransposed : o.transposed <;>
    simp only [matmulFactors, Matmul.streamed, htransposed, if_true, if_false, Bool.false_eq_true,
      List.foldlM_cons, List.foldlM_nil, Traced.outcome_bind, Traced.outcome_liftM,
        Traced.outcome_pure,
      Traced.outcome_note, outcome_check, ok_bind, bind_pure, bind_assoc]

/-- The factors of a matrix product are settled exactly where the request is
granted, and are the granted ones. -/
theorem matmulFactors_ok_iff {o : Matmul} {f : MatmulFactors} :
    (g.matmulFactors c name o r).outcome = .ok f ↔
      g.GrantsFactors c o r ∧ f = g.grantedFactors c o r := by
  have hcheck (n m : Nat) (f' : MatmulFactors) (e : CompileError) :
      (if n % m ≠ 0 then .error e else .ok f') = Except.ok f ↔ m ∣ n ∧ f = f' := by
    rw [Nat.dvd_iff_mod_eq_zero]
    split <;> simp_all [eq_comm]
  simp only [outcome_matmulFactors, bind_ok_iff, requestedFactor_ok_iff, foldlM_burstFactor_ok_iff,
    hcheck, List.forall_mem_singleton]
  constructor
  · rintro ⟨_, ⟨ha, rfl⟩, _, ⟨hb, rfl⟩, _, ⟨hd, rfl⟩, _, ⟨hleft, rfl⟩, _, ⟨hout, rfl⟩, _,
      ⟨he, rfl⟩, hdvd, rfl⟩
    refine ⟨⟨⟨ha, hb, hd, he⟩, fun hpolicy => ⟨hleft hpolicy, hout hpolicy⟩, fun n hn => ?_⟩, rfl⟩
    rwa [hn] at hdvd
  · rintro ⟨⟨⟨ha, hb, hd, he⟩, hbursts, hmultiple⟩, rfl⟩
    refine ⟨_, ⟨ha, rfl⟩, _, ⟨hb, rfl⟩, _, ⟨hd, rfl⟩, _,
      ⟨fun hpolicy => (hbursts hpolicy).1, rfl⟩, _,
      ⟨fun hpolicy => (hbursts hpolicy).2, rfl⟩, _, ⟨he, rfl⟩, ?_, rfl⟩
    cases hn : r.inFlight with
    | none => exact dvd_rfl
    | some n => exact hmultiple n hn

/-! ## Elementwise operators -/

/-- A request for an elementwise operator is met. It asks for lanes only, and
the columns in flight are those asked for, before anything is raised. -/
structure GrantsLanes (g : Graph) (c : HardwareConfig) (o : Operation)
    (r : AttributeRequest) : Prop where
  leftColumns : ∀ n, r.leftColumns = some n → n = 1
  leftRows : ∀ n, r.leftRows = some n → n = 1
  stationary : r.stationary ≠ some .left
  outColumns : r.outColumns ≠ some 0
  inFlight : ∀ n, r.inFlight = some n → n = r.outColumns.getD 1
  bursts : c.burstPolicy = .reject → ∀ id ∈ o.tensors, g.burst c id ≤ r.outColumns.getD 1

/-- The lanes that a request for an elementwise operator comes to. -/
def grantedLanes (g : Graph) (c : HardwareConfig) (o : Operation) (r : AttributeRequest) : Nat :=
  g.raised c o.tensors (r.outColumns.getD 1)

theorem not_any_ne_iff {request : Option Nat} {m : Nat} :
    ¬request.any (· ≠ m) ↔ ∀ n, request = some n → n = m := by
  cases request <;> simp

/-- An elementwise operator may be asked for the factors of a product only
where these say nothing. -/
theorem checkElementwise_ok_iff {u : Unit} : checkElementwise name r = .ok u ↔
    (∀ n, r.leftColumns = some n → n = 1) ∧ (∀ n, r.leftRows = some n → n = 1) ∧
      r.stationary ≠ some .left := by
  simp only [checkElementwise, check_ok_iff, check_unit_ok_iff, not_any_ne_iff, ne_eq]

/-- Lanes are settled exactly where the request is granted, and are the granted
ones. -/
theorem laneFactor_ok_iff {o : Operation} {lanes : Nat} :
    (g.laneFactor c name o r).outcome = .ok lanes ↔
    g.GrantsLanes c o r ∧ lanes = g.grantedLanes c o r := by
  simp only [laneFactor, Traced.outcome_bind, Traced.outcome_liftM, bind_ok_iff,
    traced_check_ok_iff, checkElementwise_ok_iff, requestedFactor_ok_iff, not_any_ne_iff,
    outcome_foldlM, foldlM_burstFactor_ok_iff, Traced.outcome_note, Traced.outcome_pure,
    Except.ok.injEq, grantedLanes]
  constructor
  · rintro ⟨_, ⟨ha, hb, hs⟩, _, ⟨hd, rfl⟩, he, _, ⟨hbursts, rfl⟩, _, -, rfl⟩
    exact ⟨⟨ha, hb, hs, hd, he, hbursts⟩, rfl⟩
  · rintro ⟨⟨ha, hb, hs, hd, he, hbursts⟩, rfl⟩
    exact ⟨(), ⟨ha, hb, hs⟩, _, ⟨hd, rfl⟩, he, _, ⟨hbursts, rfl⟩, (), trivial, rfl⟩

/-! ## Operators -/

/-- A request for an operation is met. -/
def Grants (g : Graph) (c : HardwareConfig) (r : AttributeRequest) : Operation → Prop
  | .matmul o => g.GrantsFactors c o r
  | o => g.GrantsLanes c o r

/-- The operation with the parallelism that a request comes to. -/
def granted (g : Graph) (c : HardwareConfig) (r : AttributeRequest) : Operation → Operation
  | .matmul o => .matmul { o with factors := some (g.grantedFactors c o r) }
  | o => o.withLanes (g.grantedLanes c o r)

/-- So it is with every operation. -/
theorem scheduledOperation_ok_iff {op : Operator} {operation : Operation} :
    scheduledOperation c g op r = .ok operation ↔
      g.Grants c r op.operation ∧ operation = g.granted c r op.operation := by
  cases hcase : op.operation with
  | matmul o =>
    simp only [scheduledOperation, hcase, map_ok_iff, matmulFactors_ok_iff, Grants, granted]
    constructor
    · rintro ⟨_, ⟨hgrants, rfl⟩, rfl⟩
      exact ⟨hgrants, rfl⟩
    · rintro ⟨hgrants, rfl⟩
      exact ⟨_, ⟨hgrants, rfl⟩, rfl⟩
  | add _ | normalize _ | activate _ =>
    simp only [scheduledOperation, hcase, map_ok_iff, laneFactor_ok_iff, Grants, granted]
    constructor
    · rintro ⟨_, ⟨hgrants, rfl⟩, rfl⟩
      exact ⟨hgrants, rfl⟩
    · rintro ⟨hgrants, rfl⟩
      exact ⟨_, ⟨hgrants, rfl⟩, rfl⟩

end Graph

/-! ## Scheduling -/

/-- The request for an operator; without one, everything is left to the
defaults. -/
def AttributeRequests.requestFor (requests : AttributeRequests) (name : String) :
    AttributeRequest :=
  (requests.lookup name).getD {}

namespace Graph

variable {q s : Graph} {c : HardwareConfig} {requests : AttributeRequests}

/-- An operator with the parallelism that the requests come to, if its own is
met. -/
def grantOperator (c : HardwareConfig) (requests : AttributeRequests) (q : Graph) (op : Operator) :
    Except CompileError Operator :=
  (fun operation => { op with operation }) <$> scheduledOperation c q op
    (requests.requestFor op.name)

/-- From some position on, updating operators in place is a map over those that
are left. -/
theorem foldlM_scheduleOperator_from (done rest : List Operator) :
    (List.range' done.length rest.length).foldlM (scheduleOperator c requests)
        { q with operators := (done ++ rest).toArray } =
      (fun operators => { q with operators := (done ++ operators).toArray }) <$>
        rest.mapM (grantOperator c requests q) := by
  induction rest generalizing done with
  | nil => rfl
  | cons op rest ih =>
    have hop : ({ q with operators := (done ++ op :: rest).toArray } : Graph).operator done.length =
        op := by
      simp [operator, Array.getD_eq_getD_getElem?]
    -- an operator is scheduled by what its tensors are, and these are those of
    -- `q`
    have htensors (request : AttributeRequest) : scheduledOperation c
        { q with operators := (done ++ op :: rest).toArray } op request =
          scheduledOperation c q op request := rfl
    rw [List.length_cons, List.range'_succ, List.foldlM_cons, List.mapM_cons, scheduleOperator,
      outcome_applyAttributes, hop, htensors, grantOperator, AttributeRequests.requestFor]
    cases scheduledOperation c q op ((requests.lookup op.name).getD {}) with
    | error e => rfl
    | ok operation =>
      have hmodify :
          ({ q with operators := (done ++ op :: rest).toArray } : Graph).modifyOperator done.length
          (fun op => { op with operation }) =
            { q with operators := ((done ++ [{ op with operation }]) ++ rest).toArray } := by
        simp [modifyOperator, List.modify_eq_take_drop]
      have hrest := ih (done ++ [{ op with operation }])
      rw [List.length_append, List.length_singleton] at hrest
      change (List.range' (done.length + 1) rest.length).foldlM _ (modifyOperator _ _ _) = _
      rw [hmodify, hrest]
      cases rest.mapM (grantOperator c requests q) with
      | error e => rfl
      | ok operators => simp [Functor.map, Except.map, ok_bind, pure, Except.pure]

/-- **Scheduling is a map over the operators**, each by itself. -/
theorem foldlM_scheduleOperator (q : Graph) :
    (List.range q.operators.size).foldlM (scheduleOperator c requests) q =
      (fun operators => { q with operators := operators.toArray }) <$>
        q.operators.toList.mapM (grantOperator c requests q) := by
  rw [List.range_eq_range']
  exact foldlM_scheduleOperator_from [] q.operators.toList

/-- An operator with the parallelism that its request comes to. -/
def grantedOperator (q : Graph) (c : HardwareConfig) (requests : AttributeRequests)
    (op : Operator) : Operator :=
  { op with operation := q.granted c (requests.requestFor op.name) op.operation }

/-- The graph with the parallelism that requests come to. -/
def withGranted (q : Graph) (c : HardwareConfig) (requests : AttributeRequests) : Graph :=
  { q with operators := q.operators.map (q.grantedOperator c requests) }

/-- An operator is settled by the request for its name. -/
theorem grantOperator_ok_iff {op op' : Operator} : grantOperator c requests q op = .ok op' ↔
    q.Grants c (requests.requestFor op.name) op.operation ∧
      op' = q.grantedOperator c requests op := by
  simp only [grantOperator, map_ok_iff, scheduledOperation_ok_iff]
  constructor
  · rintro ⟨_, ⟨hgrants, rfl⟩, rfl⟩
    exact ⟨hgrants, rfl⟩
  · rintro ⟨hgrants, rfl⟩
    exact ⟨_, ⟨hgrants, rfl⟩, rfl⟩

/-- All operators are settled exactly if each of their requests is granted;
they do not depend on each other. -/
theorem mapM_grantOperator_ok_iff {l l' : List Operator} :
    l.mapM (grantOperator c requests q) = .ok l' ↔
    (∀ op ∈ l, q.Grants c (requests.requestFor op.name) op.operation) ∧
      l' = l.map (q.grantedOperator c requests) := by
  simp only [mapM_ok_iff, grantOperator_ok_iff]
  induction l generalizing l' with
  | nil => simp
  | cons op l ih =>
    simp only [List.forall₂_cons_left_iff, ih, List.forall_mem_cons, List.map_cons]
    constructor
    · rintro ⟨_, _, ⟨hop, rfl⟩, ⟨hl, rfl⟩, rfl⟩
      exact ⟨⟨hop, hl⟩, rfl⟩
    · rintro ⟨⟨hop, hl⟩, rfl⟩
      exact ⟨_, _, ⟨hop, rfl⟩, ⟨hl, rfl⟩, rfl⟩

/-- **What it takes for requests to be accepted, and what they come to.** -/
theorem schedule_ok_iff : (q.schedule c requests).outcome = .ok s ↔
    c.validate = .ok () ∧ q.checkRequests requests = .ok () ∧
      (∀ op ∈ q.operators.toList, q.Grants c (requests.requestFor op.name) op.operation) ∧
      s = (q.withGranted c requests).withLayouts c := by
  simp only [outcome_schedule, bind_ok_iff, mapError_ok_iff, foldlM_scheduleOperator, map_ok_iff,
    mapM_grantOperator_ok_iff, pure_ok_iff]
  constructor
  · rintro ⟨_, hvalid, _, hrequests, _, ⟨_, ⟨hgrants, rfl⟩, rfl⟩, rfl⟩
    exact ⟨hvalid, hrequests, hgrants, by simp [withGranted, ← Array.toList_map]⟩
  · rintro ⟨hvalid, hrequests, hgrants, rfl⟩
    exact ⟨(), hvalid, (), hrequests, _,
      ⟨_, ⟨hgrants, rfl⟩, rfl⟩, by simp [withGranted, ← Array.toList_map]⟩

end Graph

end QuantAccel
