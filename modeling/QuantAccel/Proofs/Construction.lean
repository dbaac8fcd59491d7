import QuantAccel.Graph.Construction
import QuantAccel.Proofs.Order
import QuantAccel.Proofs.Outcome
import QuantAccel.Proofs.Packing

/-!
# Graphs that were built

A graph is built by a sequence of calls, which may fail (`build`), and is then
finished. A call that succeeds adds a tensor that no operator writes, or a
result together with the operator that writes it, or changes a mark (`Step`); so
each keeps what `WellFormed` says: ids are positions, shapes fit, operands are
older than results, and the results are the tensors that operators write.
-/

namespace QuantAccel

/-- Whether an operator writes the tensor. -/
def TensorKind.isResult (k : TensorKind) : Bool :=
  k.isIntermediate || k.isOutput

/-- What is not a result is an input or a parameter. -/
theorem TensorKind.isResult_eq_false {k : TensorKind} :
    k.isResult = false ↔ k.isPlaceholder ∨ k.isParameter := by
  cases k <;> simp [isResult, isIntermediate, isOutput, isPlaceholder, isParameter, values?]

/-- How the shapes of the operands of an operation fit each other and its
result. -/
def Operation.Shaped (shape : TensorId → Shape) : Operation → Prop
  | .matmul o => ∃ m k n, shape o.left = [m, k] ∧
      shape o.right = (if o.transposed then [n, k] else [k, n]) ∧
      (∀ bias ∈ o.bias, shape bias = [n]) ∧ shape o.output = [m, n]
  | .add o => (shape o.right = shape o.left ∨ shape o.right = [(shape o.left).innermost]) ∧
      shape o.output = shape o.left
  | .normalize o => shape o.gain = [(shape o.input).innermost] ∧
      shape o.offset = [(shape o.input).innermost] ∧ shape o.output = shape o.input
  | .activate o => shape o.output = shape o.input

/-- Shapes that agree on the tensors of an operation fit it alike. -/
theorem Operation.Shaped.congr {shape shape' : TensorId → Shape} {o : Operation}
    (h : o.Shaped shape) (heq : ∀ id ∈ o.tensors, shape' id = shape id) : o.Shaped shape' := by
  cases o with
  | matmul o =>
    obtain ⟨m, k, n, hl, hr, hb, ho⟩ := h
    have hbias : ∀ bias ∈ o.bias, shape' bias = [n] := by
      intro bias hbias
      rw [heq bias (by simp [tensors, inputs, Option.mem_def.1 hbias]), hb bias hbias]
    refine ⟨m, k, n, ?_, ?_, hbias, ?_⟩
    · rw [heq o.left (by simp [tensors, inputs]), hl]
    · rw [heq o.right (by simp [tensors, inputs]), hr]
    · rw [heq o.output (by simp [tensors, output]), ho]
  | add o =>
    simp only [Shaped]
    rw [heq o.left (by simp [tensors, inputs]), heq o.right (by simp [tensors, inputs]),
      heq o.output (by simp [tensors, output])]
    exact h
  | normalize o =>
    simp only [Shaped]
    rw [heq o.input (by simp [tensors, inputs]), heq o.gain (by simp [tensors, inputs]),
      heq o.offset (by simp [tensors, inputs]), heq o.output (by simp [tensors, output])]
    exact h
  | activate o =>
    simp only [Shaped]
    rw [heq o.input (by simp [tensors, inputs]), heq o.output (by simp [tensors, output])]
    exact h

namespace Graph

/-! ## Calls -/

/-- One call on a graph that is being built. -/
inductive BuildCall where
  | placeholder (name : String) (shape : Shape) (element : ElementType)
  | trained (name : String) (shape : Shape) (element : ElementType) (values : Array Float)
  | fixed (name : String) (shape : Shape) (element : ElementType) (values : Array Float)
  | matmul (name : String) (left right : TensorId) (bias : Option TensorId) (element : ElementType)
  | linear (name : String) (input weights : TensorId) (bias : Option TensorId)
      (activation : Option Activation) (element : ElementType)
  | sum (name : String) (left right : TensorId) (element : ElementType)
  | normalization (name : String) (input gain offset : TensorId) (activation : Option Activation)
      (element : ElementType)
  | activation (name : String) (input : TensorId) (activation : Activation) (element : ElementType)
  | output (id : TensorId)
  | axes (id : TensorId) (axes : List Nat)

/-- The steps of a call, which gives the id of a tensor that it adds. -/
def steps : BuildCall → Building (Option TensorId)
  | .placeholder name shape element => return some (← addPlaceholder name shape element)
  | .trained name shape element values => return some (← addTrained name shape element values)
  | .fixed name shape element values => return some (← addFixed name shape element values)
  | .matmul name left right bias element => return some (← addMatmul name left right bias element)
  | .linear name input weights bias activation element =>
    return some (← addLinear name input weights bias activation element)
  | .sum name left right element => return some (← addSum name left right element)
  | .normalization name input gain offset activation element =>
    return some (← addNormalization name input gain offset activation element)
  | .activation name input activation element =>
    return some (← addActivation name input activation element)
  | .output id => do
    markOutput id
    return none
  | .axes id axes => do
    permuteAxes id axes
    return none

/-- The outcome of a call, and the graph after it. -/
def call (g : Graph) (c : BuildCall) : Except GraphFault (Option TensorId) × Graph :=
  runFrom (steps c) g

/-- The graph after a sequence of calls, some of which may have failed. -/
def build (calls : List BuildCall) : Graph :=
  calls.foldl (fun g c => (g.call c).2) {}

/-- A graph that some sequence of calls builds and that can be finished. -/
def Finished (g : Graph) : Prop :=
  ∃ calls, (build calls).finish.outcome = .ok g

/-! ## What calls keep -/

/-- What holds of a graph while it is built. -/
structure WellFormed (g : Graph) : Prop where
  tensor_id : ∀ i < g.tensors.size, (g.tensor i).id = i
  operator_id : g.OperatorsIndexed
  shape_ne_nil : ∀ i < g.tensors.size, (g.tensor i).shape ≠ []
  positive : ∀ i < g.tensors.size, (g.tensor i).shape.Positive
  values_size : ∀ i < g.tensors.size, ∀ values, (g.tensor i).kind.values? = some values →
    values.size = (g.tensor i).volume
  output_lt : ∀ i < g.operators.size, (g.operator i).output < g.tensors.size
  operand_lt : ∀ i < g.operators.size, ∀ id ∈ (g.operator i).inputs, id < (g.operator i).output
  output_injective : ∀ i < g.operators.size, ∀ j < g.operators.size,
    (g.operator i).output = (g.operator j).output → i = j
  result_iff : ∀ id < g.tensors.size,
    (g.tensor id).kind.isResult ↔ ∃ i < g.operators.size, (g.operator i).output = id
  shaped : ∀ i < g.operators.size,
    (g.operator i).operation.Shaped fun id => (g.tensor id).shape

namespace WellFormed

variable {g : Graph}

/-- All tensors that an operator mentions are tensors of the graph. -/
theorem tensors_lt (h : g.WellFormed) {i : OperatorId} (hi : i < g.operators.size) {id : TensorId}
    (hid : id ∈ (g.operator i).operation.tensors) : id < g.tensors.size := by
  have hout := h.output_lt i hi
  rcases List.mem_append.1 hid with hin | hin
  · exact lt_trans (h.operand_lt i hi id hin) hout
  · obtain rfl : id = (g.operator i).output := List.mem_singleton.1 hin
    exact hout

/-- A tensor of the graph is the one at its id. -/
theorem tensor_of_mem (h : g.WellFormed) {t : Tensor} (ht : t ∈ g.tensors.toList) :
    t.id < g.tensors.size ∧ g.tensor t.id = t := by
  obtain ⟨i, hi, rfl⟩ := List.getElem_of_mem ht
  have hi' : i < g.tensors.size := by simpa using hi
  have hat : g.tensor i = g.tensors[i] := by simp [tensor, Array.getD_eq_getD_getElem?, hi']
  have hid := h.tensor_id i hi'
  rw [hat] at hid
  simp only [Array.getElem_toList, hid]
  exact ⟨hi', hat⟩

/-- The tensors of some kind are the positions where a tensor has that kind. -/
theorem idsWhere_eq (h : g.WellFormed) (p : TensorKind → Bool) :
    g.idsWhere p = (List.range g.tensors.size).filter fun i => p (g.tensor i).kind := by
  have htensors : g.tensors.toList = (List.range g.tensors.size).map g.tensor := by
    refine List.ext_getElem (by simp) fun i hi _ => ?_
    have hi' : i < g.tensors.size := by simpa using hi
    simp [tensor, Array.getD_eq_getD_getElem?, hi']
  rw [idsWhere, htensors, List.filter_map, List.map_map]
  refine (List.map_congr_left fun i hi => ?_).trans (List.map_id _)
  exact h.tensor_id i (List.mem_range.1 (List.mem_of_mem_filter hi))

/-- The listed tensors of a kind are those that have it. -/
theorem mem_idsWhere (h : g.WellFormed) {p : TensorKind → Bool} {id : TensorId} :
    id ∈ g.idsWhere p ↔ id < g.tensors.size ∧ p (g.tensor id).kind := by
  rw [h.idsWhere_eq, List.mem_filter, List.mem_range]

/-- No tensor is listed twice. -/
theorem nodup_idsWhere (h : g.WellFormed) (p : TensorKind → Bool) : (g.idsWhere p).Nodup := by
  rw [h.idsWhere_eq]
  exact List.nodup_range.filter _

/-- Tensors of two kinds that exclude each other. -/
theorem nodup_idsWhere_append (h : g.WellFormed) {p p' : TensorKind → Bool}
    (hapart : ∀ k, p k → ¬p' k) :
    (g.idsWhere p ++ g.idsWhere p').Nodup := by
  refine List.nodup_append.2 ⟨h.nodup_idsWhere _, h.nodup_idsWhere _, ?_⟩
  rintro id hid _ hid' rfl
  exact hapart _ (h.mem_idsWhere.1 hid).2 (h.mem_idsWhere.1 hid').2

/-- The output of an operator is a result. -/
theorem isResult_output (h : g.WellFormed) {i : OperatorId} (hi : i < g.operators.size) :
    (g.tensor (g.operator i).output).kind.isResult :=
  (h.result_iff _ (h.output_lt i hi)).2 ⟨i, hi, rfl⟩

/-- An output is what some operator writes. -/
theorem exists_writer (h : g.WellFormed) {id : TensorId} (hid : id ∈ g.outputs) :
    id < g.tensors.size ∧ ∃ i < g.operators.size, (g.operator i).output = id := by
  obtain ⟨hlt, hkind⟩ := h.mem_idsWhere.1 hid
  exact ⟨hlt, (h.result_iff id hlt).1 (by simp [TensorKind.isResult, hkind])⟩

end WellFormed

/-! ### Growing a graph -/

section Push

variable {g g' : Graph} {t : Tensor} {op : Operator} {id : TensorId} {i : OperatorId}

/-- A new tensor leaves those before it as they are. -/
theorem tensor_of_push (ht : g'.tensors = g.tensors.push t) (hid : id < g.tensors.size) :
    g'.tensor id = g.tensor id := by
  simp [tensor, ht, Array.getD_eq_getD_getElem?, Array.getElem?_push, hid.ne]

theorem tensor_of_push_self (ht : g'.tensors = g.tensors.push t) :
    g'.tensor g.tensors.size = t := by
  simp [tensor, ht, Array.getD_eq_getD_getElem?]

/-- A new operator leaves those before it as they are. -/
theorem operator_of_push (hop : g'.operators = g.operators.push op) (hi : i < g.operators.size) :
    g'.operator i = g.operator i := by
  simp [operator, hop, Array.getD_eq_getD_getElem?, Array.getElem?_push, hi.ne]

theorem operator_of_push_self (hop : g'.operators = g.operators.push op) :
    g'.operator g.operators.size = op := by
  simp [operator, hop, Array.getD_eq_getD_getElem?]

theorem operator_congr (hop : g'.operators = g.operators) (i : OperatorId) :
    g'.operator i = g.operator i := by
  rw [operator, operator, hop]

/-- What holds of all tensors when one is added: it holds of those before, and
of the new one. -/
theorem forall_tensor_push {P : TensorId → Tensor → Prop} (ht : g'.tensors = g.tensors.push t) :
    (∀ i < g'.tensors.size, P i (g'.tensor i)) ↔
      (∀ i < g.tensors.size, P i (g.tensor i)) ∧ P g.tensors.size t := by
  rw [ht, Array.size_push, Nat.forall_lt_succ_right, tensor_of_push_self ht]
  refine and_congr_left' (forall₂_congr fun i hi => ?_)
  rw [tensor_of_push ht hi]

/-- What holds of all operators when one is added: it holds of those before, and
of the new one. -/
theorem forall_operator_push {P : OperatorId → Operator → Prop}
    (hop : g'.operators = g.operators.push op) :
    (∀ i < g'.operators.size, P i (g'.operator i)) ↔
      (∀ i < g.operators.size, P i (g.operator i)) ∧ P g.operators.size op := by
  rw [hop, Array.size_push, Nat.forall_lt_succ_right, operator_of_push_self hop]
  refine and_congr_left' (forall₂_congr fun i hi => ?_)
  rw [operator_of_push hop hi]

/-- The shapes that an operator needs are those of tensors that stay. -/
theorem WellFormed.shaped_of_push (h : g.WellFormed) (ht : g'.tensors = g.tensors.push t)
    (hi : i < g.operators.size) :
    (g.operator i).operation.Shaped fun id => (g'.tensor id).shape := by
  refine (h.shaped i hi).congr fun id hid => ?_
  rw [tensor_of_push ht (h.tensors_lt hi hid)]

/-- No operator writes the tensor that comes next. -/
theorem WellFormed.output_ne_size (h : g.WellFormed) (hi : i < g.operators.size) :
    (g.operator i).output ≠ g.tensors.size :=
  (h.output_lt i hi).ne

/-- A new tensor that no operator writes. -/
theorem WellFormed.push_tensor (h : g.WellFormed) (ht : g'.tensors = g.tensors.push t)
    (hop : g'.operators = g.operators) (hid : t.id = g.tensors.size) (hne : t.shape ≠ [])
    (hpos : t.shape.Positive)
    (hvalues : ∀ values, t.kind.values? = some values → values.size = t.volume)
    (hkind : t.kind.isResult = false) : g'.WellFormed := by
  have hsize : g'.tensors.size = g.tensors.size + 1 := by rw [ht, Array.size_push]
  have hops : g'.operators.size = g.operators.size := by rw [hop]
  have hopAt := operator_congr hop
  constructor
  case tensor_id => exact (forall_tensor_push (P := fun i t => t.id = i) ht).2 ⟨h.tensor_id, hid⟩
  case operator_id =>
    intro i hi
    rw [hopAt, h.operator_id i (hops ▸ hi)]
  case shape_ne_nil =>
    exact (forall_tensor_push (P := fun _ t => t.shape ≠ []) ht).2 ⟨h.shape_ne_nil, hne⟩
  case positive =>
    exact (forall_tensor_push (P := fun _ t => t.shape.Positive) ht).2 ⟨h.positive, hpos⟩
  case values_size =>
    exact (forall_tensor_push (P := fun _ t => ∀ values, t.kind.values? = some values →
      values.size = t.volume) ht).2 ⟨h.values_size, hvalues⟩
  case output_lt =>
    intro i hi
    rw [hopAt, hsize]
    exact Nat.lt_succ_of_lt (h.output_lt i (hops ▸ hi))
  case operand_lt =>
    intro i hi
    rw [hopAt]
    exact h.operand_lt i (hops ▸ hi)
  case output_injective =>
    intro i hi j hj
    rw [hopAt, hopAt]
    exact h.output_injective i (hops ▸ hi) j (hops ▸ hj)
  case result_iff =>
    simp only [hopAt, hops]
    refine (forall_tensor_push (P := fun id t => t.kind.isResult ↔
      ∃ i < g.operators.size, (g.operator i).output = id) ht).2 ⟨h.result_iff, ?_⟩
    rw [hkind]
    constructor
    · intro hfalse; cases hfalse
    · rintro ⟨i, hi, heq⟩
      exact absurd heq (h.output_ne_size hi)
  case shaped =>
    intro i hi
    rw [hopAt]
    exact h.shaped_of_push ht (hops ▸ hi)

/-- A new tensor together with the operator that writes it. -/
theorem WellFormed.push_result (h : g.WellFormed) (ht : g'.tensors = g.tensors.push t)
    (hop : g'.operators = g.operators.push op) (hid : t.id = g.tensors.size) (hne : t.shape ≠ [])
    (hpos : t.shape.Positive) (hkind : t.kind = .intermediate) (hopid : op.id = g.operators.size)
    (hout : op.output = g.tensors.size) (hin : ∀ id ∈ op.inputs, id < g.tensors.size)
    (hshaped : op.operation.Shaped fun id => (g'.tensor id).shape) : g'.WellFormed := by
  have hsize : g'.tensors.size = g.tensors.size + 1 := by rw [ht, Array.size_push]
  have hops : g'.operators.size = g.operators.size + 1 := by rw [hop, Array.size_push]
  have hopOld (i : OperatorId) (hi : i < g.operators.size) := operator_of_push hop hi
  have hopNew := operator_of_push_self hop
  constructor
  case tensor_id => exact (forall_tensor_push (P := fun i t => t.id = i) ht).2 ⟨h.tensor_id, hid⟩
  case operator_id =>
    exact (forall_operator_push (P := fun i op => op.id = i) hop).2 ⟨h.operator_id, hopid⟩
  case shape_ne_nil =>
    exact (forall_tensor_push (P := fun _ t => t.shape ≠ []) ht).2 ⟨h.shape_ne_nil, hne⟩
  case positive =>
    exact (forall_tensor_push (P := fun _ t => t.shape.Positive) ht).2 ⟨h.positive, hpos⟩
  case values_size =>
    refine (forall_tensor_push (P := fun _ t => ∀ values, t.kind.values? = some values →
      values.size = t.volume) ht).2 ⟨h.values_size, fun values hvalues => ?_⟩
    rw [hkind] at hvalues
    cases hvalues
  case output_lt =>
    rw [hsize]
    exact (forall_operator_push (P := fun _ op => op.output < g.tensors.size + 1) hop).2
      ⟨fun i hi => Nat.lt_succ_of_lt (h.output_lt i hi), hout ▸ Nat.lt_succ_self _⟩
  case operand_lt =>
    exact (forall_operator_push (P := fun _ op => ∀ id ∈ op.inputs, id < op.output) hop).2
      ⟨h.operand_lt, hout ▸ hin⟩
  case output_injective =>
    -- an old operator writes an old tensor, and the new one the new tensor
    refine (forall_operator_push (P := fun i o => ∀ j < g'.operators.size,
      o.output = (g'.operator j).output → i = j) hop).2 ⟨fun i hi => ?_, ?_⟩
    · exact (forall_operator_push (P := fun j o => (g.operator i).output = o.output → i = j) hop).2
        ⟨h.output_injective i hi, fun heq => absurd (heq.trans hout) (h.output_ne_size hi)⟩
    · exact (forall_operator_push
        (P := fun j o => op.output = o.output → g.operators.size = j) hop).2
        ⟨fun j hj heq => absurd (heq.symm.trans hout) (h.output_ne_size hj), fun _ => rfl⟩
  case result_iff =>
    refine (forall_tensor_push (P := fun id t => t.kind.isResult ↔
      ∃ i < g'.operators.size, (g'.operator i).output = id) ht).2 ⟨fun id hid => ?_, ?_⟩
    · rw [h.result_iff id hid]
      constructor
      · rintro ⟨i, hi, heq⟩
        exact ⟨i, by omega, by rw [hopOld i hi, heq]⟩
      · rintro ⟨i, hi, heq⟩
        rcases Nat.lt_succ_iff_lt_or_eq.1 (hops ▸ hi) with hi | rfl
        · exact ⟨i, hi, by rw [← hopOld i hi, heq]⟩
        · exact absurd (hopNew ▸ heq) (hout ▸ hid.ne')
    · rw [hkind]
      exact ⟨fun _ => ⟨g.operators.size, by omega, by rw [hopNew, hout]⟩, fun _ => rfl⟩
  case shaped =>
    exact (forall_operator_push
      (P := fun _ op => op.operation.Shaped fun id => (g'.tensor id).shape) hop).2
      ⟨fun i hi => h.shaped_of_push ht hi, hshaped⟩

theorem tensor_modify {f : Tensor → Tensor} (id : TensorId) {i : TensorId}
    (hi : i < g.tensors.size) :
    (g.modifyTensor id f).tensor i = if id = i then f (g.tensor i) else g.tensor i := by
  simp only [tensor, modifyTensor, Array.getD_eq_getD_getElem?, Array.getElem?_modify]
  split <;> simp [hi]

/-- A change to the marks of a tensor: its kind stays a result, or its axes are
recorded. -/
theorem WellFormed.modify (h : g.WellFormed) {f : Tensor → Tensor}
    (hf : ∀ t : Tensor, (f t).id = t.id ∧ (f t).shape = t.shape)
    (hresult : (f (g.tensor id)).kind.isResult = (g.tensor id).kind.isResult)
    (hvalues : (f (g.tensor id)).kind.values? = (g.tensor id).kind.values?) :
    (g.modifyTensor id f).WellFormed := by
  have hsize : (g.modifyTensor id f).tensors.size = g.tensors.size := Array.size_modify
  -- what the invariant reads of a tensor stays
  have hsame (i : TensorId) (hi : i < g.tensors.size) :
      ((g.modifyTensor id f).tensor i).id = (g.tensor i).id ∧
        ((g.modifyTensor id f).tensor i).shape = (g.tensor i).shape ∧
        ((g.modifyTensor id f).tensor i).kind.isResult = (g.tensor i).kind.isResult ∧
        ((g.modifyTensor id f).tensor i).kind.values? = (g.tensor i).kind.values? := by
    rw [tensor_modify id hi]
    split
    · subst id; exact ⟨(hf _).1, (hf _).2, hresult, hvalues⟩
    · exact ⟨rfl, rfl, rfl, rfl⟩
  have hops (i : OperatorId) : (g.modifyTensor id f).operator i = g.operator i := rfl
  constructor
  case operator_id => exact h.operator_id
  case operand_lt => exact h.operand_lt
  case output_injective => exact h.output_injective
  case tensor_id =>
    intro i hi
    rw [(hsame i (hsize ▸ hi)).1, h.tensor_id i (hsize ▸ hi)]
  case shape_ne_nil =>
    intro i hi
    rw [(hsame i (hsize ▸ hi)).2.1]
    exact h.shape_ne_nil i (hsize ▸ hi)
  case positive =>
    intro i hi
    rw [(hsame i (hsize ▸ hi)).2.1]
    exact h.positive i (hsize ▸ hi)
  case values_size =>
    intro i hi values hvalues
    rw [(hsame i (hsize ▸ hi)).2.2.2] at hvalues
    rw [Tensor.volume, (hsame i (hsize ▸ hi)).2.1]
    exact h.values_size i (hsize ▸ hi) values hvalues
  case output_lt =>
    intro i hi
    rw [hsize]
    exact h.output_lt i hi
  case result_iff =>
    intro i hi
    rw [(hsame i (hsize ▸ hi)).2.2.1]
    exact h.result_iff i (hsize ▸ hi)
  case shaped =>
    intro i hi
    refine (h.shaped i hi).congr fun j hj => ?_
    rw [(hsame j (h.tensors_lt hi hj)).2.1]

end Push

/-! ### What each call adds -/

/-- What a successful call does to a graph. -/
inductive Step (g : Graph) : Graph → Prop
  /-- A tensor of the outside. -/
  | tensor {name : String} {shape : Shape} {element : ElementType} {kind : TensorKind}
      (hcheck : g.checkTensor name shape kind = .ok ()) (hkind : kind.isResult = false)
      (hfinite : ∀ values, kind.values? = some values → ∀ v ∈ values, v.isFinite) :
      g.Step { g with
        tensors := g.tensors.push { id := g.tensors.size, name, shape, element, kind }
        tensorNames := (name, g.tensors.size) :: g.tensorNames }
  /-- A result and its operator, of the same name. -/
  | result {name : String} {shape : Shape} {element : ElementType} {operation : Operation}
      (hcheck : g.checkTensor name shape .intermediate = .ok ())
      (hname : g.operatorNamed? name = none)
      (hout : operation.output = g.tensors.size)
      (hin : ∀ id ∈ operation.inputs, id < g.tensors.size)
      (hshaped : ∀ shape' : TensorId → Shape, shape' g.tensors.size = shape →
        (∀ id < g.tensors.size, shape' id = (g.tensor id).shape) → operation.Shaped shape') :
      g.Step { g with
        tensors := g.tensors.push
          { id := g.tensors.size, name, shape, element, kind := .intermediate }
        operators := g.operators.push { id := g.operators.size, name, operation }
        tensorNames := (name, g.tensors.size) :: g.tensorNames
        operatorNames := (name, g.operators.size) :: g.operatorNames }
  /-- Another mark on a tensor. -/
  | mark {id : TensorId} {f : Tensor → Tensor}
      (hf : ∀ t : Tensor, (f t).id = t.id ∧ (f t).name = t.name ∧ (f t).shape = t.shape)
      (hresult : (f (g.tensor id)).kind.isResult = (g.tensor id).kind.isResult)
      (hvalues : (f (g.tensor id)).kind.values? = (g.tensor id).kind.values?) :
      g.Step (g.modifyTensor id f)

section Calls

variable {g g' : Graph} {name : String} {shape : Shape} {element : ElementType} {id : TensorId}

/-- A tensor that passes its check has a new name, a shape without zeros, and
as many values as elements. -/
theorem checkTensor_ok {kind : TensorKind} {u : Unit} (h : g.checkTensor name shape kind = .ok u) :
    g.tensorNamed? name = none ∧ shape ≠ [] ∧ shape.Positive ∧
      ∀ values, kind.values? = some values → values.size = shape.volume := by
  unfold checkTensor at h
  simp only [check_ok_iff, Bool.or_eq_true, not_or, List.isEmpty_iff, List.contains_iff_mem,
    Bool.not_eq_true, Option.isSome_eq_false_iff, Option.isNone_iff_eq_none] at h
  obtain ⟨hname, ⟨hne, hzero⟩, h⟩ := h
  have hpos : shape.Positive := fun d hd => Nat.pos_of_ne_zero fun h0 => hzero (h0 ▸ hd)
  refine ⟨hname, hne, hpos, fun values hvalues => ?_⟩
  simp only [hvalues, check_unit_ok_iff, not_not] at h
  exact h

/-- A tensor that passes its check is added at the end and entered in the name
table; one that does not changes nothing. -/
theorem runFrom_addTensor (name : String) (shape : Shape) (element : ElementType)
    (kind : TensorKind) (g : Graph) :
    runFrom (addTensor name shape element kind) g =
      match g.checkTensor name shape kind with
      | .error fault => (.error fault, g)
      | .ok _ => (.ok g.tensors.size, { g with
          tensors := g.tensors.push { id := g.tensors.size, name, shape, element, kind }
          tensorNames := (name, g.tensors.size) :: g.tensorNames }) := by
  rw [addTensor, runFrom_bind, runFrom_get]
  simp only [runFrom_bind, runFrom_liftM]
  cases g.checkTensor name shape kind <;> rfl

/-- An operator with a new name is added at the end and entered in the name
table. -/
theorem runFrom_addOperator (name : String) (operation : Operation) (g : Graph) :
    runFrom (addOperator name operation) g =
      if (g.operatorNamed? name).isSome then (.error (.duplicateOperator name), g)
      else (.ok (), { g with
        operators := g.operators.push { id := g.operators.size, name, operation }
        operatorNames := (name, g.operators.size) :: g.operatorNames }) := by
  rw [addOperator, runFrom_bind, runFrom_get]
  dsimp only
  split <;> rfl

/-- A tensor whose shape was found is one of the graph. -/
theorem shapeOf_ok (h : g.shapeOf id = .ok shape) :
    id < g.tensors.size ∧ (g.tensor id).shape = shape := by
  unfold shapeOf at h
  split at h
  · rename_i t ht
    obtain ⟨hid, hget⟩ := Array.getElem?_eq_some_iff.1 ht
    refine ⟨hid, ?_⟩
    rw [tensor, Array.getD_eq_getD_getElem?, ht, Option.getD_some]
    exact Except.ok.inj h
  · cases h

/-- Values that pass their check are finite. -/
theorem checkFinite_ok {values : Array Float} {u : Unit} (h : checkFinite name values = .ok u) :
    ∀ v ∈ values, v.isFinite := by
  unfold checkFinite at h
  split at h
  · cases h
  · rename_i hnone
    intro v hv
    simpa using Array.findIdx?_eq_none_iff.1 hnone v hv

/-- A tensor that no operator has to produce is added in one step. -/
theorem step_addTensor {kind : TensorKind} (hkind : kind.isResult = false)
    (hfinite : ∀ values, kind.values? = some values → ∀ v ∈ values, v.isFinite)
    (h : runFrom (addTensor name shape element kind) g = (.ok id, g')) : g.Step g' := by
  rw [runFrom_addTensor] at h
  split at h
  · cases h
  · rename_i hcheck
    cases h
    exact .tensor hcheck hkind hfinite

/-- So is a parameter, whose values were checked. -/
theorem step_addParameter {values : Array Float} {kind : Array Float → TensorKind}
    (hkind : ∀ values, (kind values).isResult = false ∧ (kind values).values? = some values)
    (h : runFrom (addParameter kind name shape element values) g = (.ok id, g')) : g.Step g' := by
  obtain ⟨_, _, hcheck, hadd⟩ := runFrom_bind_ok.1 h
  obtain ⟨hfinite, rfl⟩ := runFrom_liftM_ok.1 hcheck
  refine step_addTensor (hkind values).1 (fun values' hvalues => ?_) hadd
  obtain rfl : values = values' := Option.some.inj ((hkind values).2.symm.trans hvalues)
  exact checkFinite_ok hfinite

/-- What is to be known of an operation to add it with its result. -/
theorem step_addResult {shapeFrom : Graph → Except GraphFault Shape}
    {operation : TensorId → Operation} (hout : ∀ out, (operation out).output = out)
    (hfits : ∀ shape, shapeFrom g = .ok shape → ∀ out,
      (∀ i ∈ (operation out).inputs, i < g.tensors.size) ∧
        ∀ shape' : TensorId → Shape, shape' out = shape →
          (∀ i < g.tensors.size, shape' i = (g.tensor i).shape) → (operation out).Shaped shape')
    (h : runFrom (addResult name shapeFrom element operation) g = (.ok id, g')) : g.Step g' := by
  rw [addResult, runFrom_bind, runFrom_get] at h
  simp only [runFrom_bind_ok, runFrom_liftM_ok] at h
  obtain ⟨shape, _, ⟨hshape, rfl⟩, out, g₁, htensor, _, g₂, hop, h⟩ := h
  obtain ⟨hin, hshaped⟩ := hfits shape hshape out
  rw [runFrom_addTensor] at htensor
  split at htensor
  · cases htensor
  · rename_i hcheck
    cases htensor
    rw [runFrom_addOperator] at hop
    split at hop
    · cases hop
    · rename_i hname
      cases hop
      cases h
      exact .result hcheck (Option.not_isSome_iff_eq_none.1 hname) (hout _) hin hshaped

/-- What a matrix product needs of its operands. -/
theorem productShape_ok {left right : TensorId} {bias : Option TensorId} {transposed : Bool}
    {activation : Option Activation}
    (h : g.productShape name left right bias transposed activation = .ok shape) :
    ∃ m k n, shape = [m, n] ∧ g.shapeOf left = .ok [m, k] ∧
      g.shapeOf right = .ok (if transposed then [n, k] else [k, n]) ∧
      ∀ b ∈ bias, g.shapeOf b = .ok [n] := by
  unfold productShape at h
  simp only [bind_ok_iff] at h
  obtain ⟨leftShape, hleft, rightShape, hright, h⟩ := h
  split at h
  · rename_i m k r₀ r₁
    cases transposed <;> cases bias <;>
      simp only [Bool.false_eq_true, if_true, if_false, check_ok_iff, bind_ok_iff, pure_ok_iff,
        not_not] at h
    case false.none =>
      obtain ⟨rfl, -, -, rfl⟩ := h
      exact ⟨m, k, r₁, rfl, hleft, hright, by simp⟩
    case false.some b =>
      obtain ⟨rfl, shape, hb, rfl, -, -, rfl⟩ := h
      exact ⟨m, k, r₁, rfl, hleft, hright, by simpa using hb⟩
    case true.none =>
      obtain ⟨rfl, -, -, rfl⟩ := h
      exact ⟨m, k, r₀, rfl, hleft, hright, by simp⟩
    case true.some b =>
      obtain ⟨rfl, shape, hb, rfl, -, -, rfl⟩ := h
      exact ⟨m, k, r₀, rfl, hleft, hright, by simpa using hb⟩
  · cases h

/-- A matrix product is added together with its output, whose shape follows
from those of the operands. -/
theorem step_addProduct {left right : TensorId} {bias : Option TensorId} {transposed : Bool}
    {activation : Option Activation}
    (h : runFrom (addProduct name left right bias transposed activation element) g = (.ok id, g')) :
    g.Step g' := by
  refine step_addResult (fun _ => rfl) (fun shape hshape out => ?_) h
  obtain ⟨m, k, n, rfl, hleft, hright, hbias⟩ := productShape_ok hshape
  obtain ⟨hleftLt, hleftShape⟩ := shapeOf_ok hleft
  obtain ⟨hrightLt, hrightShape⟩ := shapeOf_ok hright
  constructor
  · intro i hi
    simp only [Operation.inputs, List.cons_append, List.nil_append, List.mem_cons,
      Option.mem_toList] at hi
    rcases hi with rfl | rfl | hi
    · exact hleftLt
    · exact hrightLt
    · exact (shapeOf_ok (hbias i hi)).1
  · intro shape' hshape hold
    refine ⟨m, k, n, ?_, ?_, ?_, hshape⟩
    · rw [hold left hleftLt, hleftShape]
    · rw [hold right hrightLt, hrightShape]
    · intro b hb
      obtain ⟨hbLt, hbShape⟩ := shapeOf_ok (hbias b hb)
      rw [hold b hbLt, hbShape]

/-- A sum is added together with its output, which has the shape of the left
term. -/
theorem step_addSum {left right : TensorId}
    (h : runFrom (addSum name left right element) g = (.ok id, g')) : g.Step g' := by
  refine step_addResult (fun _ => rfl) (fun shape hshape out => ?_) h
  unfold sumShape at hshape
  simp only [bind_ok_iff, check_ok_iff, pure_ok_iff] at hshape
  obtain ⟨leftShape, hleft, rightShape, hright, hfit, rfl⟩ := hshape
  obtain ⟨hleftLt, rfl⟩ := shapeOf_ok hleft
  obtain ⟨hrightLt, rfl⟩ := shapeOf_ok hright
  constructor
  · intro i hi
    simp only [Operation.inputs, List.mem_cons, List.not_mem_nil, or_false] at hi
    rcases hi with rfl | rfl
    · exact hleftLt
    · exact hrightLt
  · intro shape' hshape hold
    simp only [Operation.Shaped]
    rw [hold left hleftLt, hold right hrightLt, hshape]
    exact ⟨by tauto, rfl⟩

/-- An operand that holds one number for each channel is a row as long as the
innermost axis. -/
theorem checkChannels_ok {channels : Nat} {operand : TensorId} {u : Unit}
    (h : g.checkChannels name channels operand = .ok u) :
    operand < g.tensors.size ∧ (g.tensor operand).shape = [channels] := by
  unfold checkChannels at h
  simp only [bind_ok_iff, check_unit_ok_iff, not_not] at h
  obtain ⟨shape, hshape, rfl⟩ := h
  exact shapeOf_ok hshape

/-- A normalization is added together with its output, which has the shape of
the input. -/
theorem step_addNormalization {input gain offset : TensorId} {activation : Option Activation}
    (h : runFrom (addNormalization name input gain offset activation element) g = (.ok id, g')) :
    g.Step g' := by
  refine step_addResult (fun _ => rfl) (fun shape hshape out => ?_) h
  unfold normalizationShape at hshape
  simp only [bind_ok_iff, pure_ok_iff] at hshape
  obtain ⟨shape, hshape, _, hgain, _, hoffset, -, -, rfl⟩ := hshape
  obtain ⟨hinputLt, rfl⟩ := shapeOf_ok hshape
  obtain ⟨hgainLt, hgainShape⟩ := checkChannels_ok hgain
  obtain ⟨hoffsetLt, hoffsetShape⟩ := checkChannels_ok hoffset
  constructor
  · intro i hi
    simp only [Operation.inputs, List.mem_cons, List.not_mem_nil, or_false] at hi
    rcases hi with rfl | rfl | rfl
    · exact hinputLt
    · exact hgainLt
    · exact hoffsetLt
  · intro shape' hshape' hold
    simp only [Operation.Shaped]
    rw [hold input hinputLt, hold gain hgainLt, hold offset hoffsetLt, hshape']
    exact ⟨hgainShape, hoffsetShape, rfl⟩

/-- An activation is added together with its output, which has the shape of the
input. -/
theorem step_addActivation {input : TensorId} {activation : Activation}
    (h : runFrom (addActivation name input activation element) g = (.ok id, g')) : g.Step g' := by
  refine step_addResult (fun _ => rfl) (fun shape hshape out => ?_) h
  unfold activationShape at hshape
  simp only [bind_ok_iff, pure_ok_iff] at hshape
  obtain ⟨shape, hshape, -, -, rfl⟩ := hshape
  obtain ⟨hinputLt, rfl⟩ := shapeOf_ok hshape
  constructor
  · intro i hi
    obtain rfl := List.mem_singleton.1 hi
    exact hinputLt
  · intro shape' hshape' hold
    simp only [Operation.Shaped]
    rw [hold input hinputLt, hshape']

/-- Marking an output changes the kind of one result. -/
theorem step_markOutput {u : Unit} (h : runFrom (markOutput id) g = (.ok u, g')) : g.Step g' := by
  rw [markOutput, runFrom_bind, runFrom_get] at h
  dsimp only at h
  split at h
  · cases h
  · rename_i t ht
    have htensor : g.tensor id = t := by
      rw [tensor, Array.getD_eq_getD_getElem?, ht, Option.getD_some]
    split at h
    · rename_i hkind
      cases h
      refine .mark (fun t => ⟨rfl, rfl, rfl⟩) ?_ ?_
      · rw [htensor]
        exact hkind.symm
      · rw [htensor]
        cases hk : t.kind <;> simp [hk, TensorKind.isIntermediate, TensorKind.isOutput] at hkind <;>
          rfl
    · cases h

/-- A permutation of axes is noted at one tensor and moves nothing. -/
theorem step_permuteAxes {axes : List Nat} {u : Unit}
    (h : runFrom (permuteAxes id axes) g = (.ok u, g')) : g.Step g' := by
  rw [permuteAxes, runFrom_bind, runFrom_get] at h
  simp only [runFrom_bind_ok, runFrom_liftM_ok] at h
  obtain ⟨shape, _, ⟨-, rfl⟩, h⟩ := h
  split at h
  · cases h
    exact .mark (fun t => ⟨rfl, rfl, rfl⟩) rfl rfl
  · cases h

/-- **A successful call does one step.** -/
theorem step_call {c : BuildCall} {added : Option TensorId} (h : g.call c = (.ok added, g')) :
    g.Step g' := by
  unfold call at h
  cases c <;> simp only [steps] at h <;> obtain ⟨_, _, hstep, h⟩ := runFrom_bind_ok.1 h <;>
    cases h
  case placeholder => exact step_addTensor rfl (fun values hvalues => by cases hvalues) hstep
  case trained => exact step_addParameter (fun _ => ⟨rfl, rfl⟩) hstep
  case fixed => exact step_addParameter (fun _ => ⟨rfl, rfl⟩) hstep
  case matmul => exact step_addProduct hstep
  case linear => exact step_addProduct hstep
  case sum => exact step_addSum hstep
  case normalization => exact step_addNormalization hstep
  case activation => exact step_addActivation hstep
  case output => exact step_markOutput hstep
  case axes => exact step_permuteAxes hstep

end Calls

/-! ## Built graphs -/

variable {g g' : Graph}

theorem wellFormed_empty : ({} : Graph).WellFormed := by
  refine ⟨?_, ?_, ?_, ?_, ?_, ?_, ?_, ?_, ?_, ?_⟩ <;> intro i hi <;>
    exact absurd hi (Nat.not_lt_zero i)

/-- **Every step keeps the invariant.** -/
theorem WellFormed.step (hg : g.WellFormed) (h : g.Step g') : g'.WellFormed := by
  cases h with
  | tensor hcheck hkind _ =>
    obtain ⟨-, hne, hpos, hvalues⟩ := checkTensor_ok hcheck
    exact hg.push_tensor rfl rfl rfl hne hpos hvalues hkind
  | result hcheck _ hout hin hshaped =>
    obtain ⟨-, hne, hpos, -⟩ := checkTensor_ok hcheck
    refine hg.push_result rfl rfl rfl hne hpos rfl rfl hout hin (hshaped _ ?_ fun i hi => ?_)
    · rw [tensor_of_push_self rfl]
    · rw [tensor_of_push rfl hi]
  | mark hf hresult hvalues => exact hg.modify (fun t => ⟨(hf t).1, (hf t).2.2⟩) hresult hvalues

end Graph

end QuantAccel
