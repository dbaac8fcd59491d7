import QuantAccel.Proofs.Builder

/-!
# What the stages of compilation leave alone

Compilation adds to a graph and changes nothing of what was declared. Erasing
what stages add makes this an equation: quantization keeps the `unscaled` graph,
which may have parallelism and places in memory; scheduling and the memory plan
keep the `logical` graph, which has the scales and integers; so all of them keep
the `declared` graph. What holds of a graph by its declaration alone, such as
being well formed, then holds after every stage.
-/

namespace QuantAccel

/-! ## Erasure -/

/-- The tensor without its place in memory. -/
def Tensor.logical (t : Tensor) : Tensor :=
  { t with layout := none, address := none }

/-- The tensor without its scale and its integers. -/
def Tensor.unscaled (t : Tensor) : Tensor :=
  { t with quant := none, ints := none }

/-- The tensor without anything that compilation adds. -/
def Tensor.declared (t : Tensor) : Tensor :=
  { t with quant := none, ints := none, layout := none, address := none }

/-- The operation without its parallelism. -/
def Operation.logical : Operation → Operation
  | matmul o => matmul { o with factors := none }
  | add o => add { o with lanes := none }
  | normalize o => normalize { o with lanes := none }
  | activate o => activate { o with lanes := none }

/-- The operation without its multipliers. -/
def Operation.unscaled : Operation → Operation
  | matmul o => matmul { o with rescale := none }
  | add o => add { o with rescale := none }
  | normalize o => normalize { o with rescale := none }
  | activate o => activate { o with rescale := none }

/-- The operation without anything that compilation adds. -/
def Operation.declared : Operation → Operation
  | matmul o => matmul { o with factors := none, rescale := none }
  | add o => add { o with lanes := none, rescale := none }
  | normalize o => normalize { o with lanes := none, rescale := none }
  | activate o => activate { o with lanes := none, rescale := none }

namespace Operation

theorem declared_logical (o : Operation) : o.logical.declared = o.declared := by
  cases o <;> rfl

theorem declared_unscaled (o : Operation) : o.unscaled.declared = o.declared := by
  cases o <;> rfl

/-- What an operation reads is declared. -/
theorem inputs_declared (o : Operation) : o.declared.inputs = o.inputs := by
  cases o <;> rfl

/-- What an operation writes is declared. -/
theorem output_declared (o : Operation) : o.declared.output = o.output := by
  cases o <;> rfl

/-- Whether the shapes of an operation fit together is a matter of its
declaration. -/
theorem shaped_declared (o : Operation) (shape : TensorId → Shape) :
    o.declared.Shaped shape ↔ o.Shaped shape := by
  cases o <;> rfl

/-- Lanes are no part of what an operation computes. -/
theorem logical_withLanes (lanes : Nat) (o : Operation) :
    (o.withLanes lanes).logical = o.logical := by
  cases o <;> rfl

end Operation

def Operator.logical (op : Operator) : Operator :=
  { op with operation := op.operation.logical }

def Operator.unscaled (op : Operator) : Operator :=
  { op with operation := op.operation.unscaled }

def Operator.declared (op : Operator) : Operator :=
  { op with operation := op.operation.declared }

namespace Operator

@[simp] theorem id_declared (op : Operator) : op.declared.id = op.id := rfl

@[simp] theorem inputs_declared (op : Operator) : op.declared.inputs = op.inputs :=
  op.operation.inputs_declared

@[simp] theorem output_declared (op : Operator) : op.declared.output = op.output :=
  op.operation.output_declared

end Operator

namespace Graph

variable {g g' : Graph}

/-- The graph as evaluation sees it, without parallelism and places in
memory. -/
def logical (g : Graph) : Graph :=
  { g with tensors := g.tensors.map Tensor.logical, operators := g.operators.map Operator.logical }

/-- The graph as it is before it is quantized. -/
def unscaled (g : Graph) : Graph :=
  { g with
    tensors := g.tensors.map Tensor.unscaled, operators := g.operators.map Operator.unscaled }

/-- The graph as it was declared. -/
def declared (g : Graph) : Graph :=
  { g with
    tensors := g.tensors.map Tensor.declared, operators := g.operators.map Operator.declared }

theorem declared_logical (g : Graph) : g.logical.declared = g.declared := by
  have htensor : Tensor.declared ∘ Tensor.logical = Tensor.declared := rfl
  have hoperator : Operator.declared ∘ Operator.logical = Operator.declared := by
    funext op
    simp [Operator.declared, Operator.logical, Operation.declared_logical]
  simp [declared, logical, htensor, hoperator]

/-- Graphs that differ in their schedule and memory only have one
declaration. -/
theorem declared_eq_of_logical_eq (h : g'.logical = g.logical) : g'.declared = g.declared := by
  rw [← declared_logical, h, declared_logical]

theorem declared_unscaled (g : Graph) : g.unscaled.declared = g.declared := by
  have htensor : Tensor.declared ∘ Tensor.unscaled = Tensor.declared := rfl
  have hoperator : Operator.declared ∘ Operator.unscaled = Operator.declared := by
    funext op
    simp [Operator.declared, Operator.unscaled, Operation.declared_unscaled]
  simp [declared, unscaled, htensor, hoperator]

/-- Graphs that differ in their scales only have one declaration. -/
theorem declared_eq_of_unscaled_eq (h : g'.unscaled = g.unscaled) : g'.declared = g.declared := by
  rw [← declared_unscaled, h, declared_unscaled]

/-! ### Reading an erased graph -/

/-- Erasing entry by entry commutes with a read, when the default is erased
already. -/
theorem array_getD_map {α β : Type} (f : α → β) (a : Array α) (i : Nat) (d : α) :
    (a.map f).getD i (f d) = f (a.getD i d) := by
  simp only [Array.getD_eq_getD_getElem?, Array.getElem?_map, Option.getD_map]

/-- Erasing a graph erases its tensors one by one. -/
theorem tensor_logical (g : Graph) (id : TensorId) : g.logical.tensor id = (g.tensor id).logical :=
  array_getD_map Tensor.logical g.tensors id default

theorem tensor_unscaled (g : Graph) (id : TensorId) :
    g.unscaled.tensor id = (g.tensor id).unscaled :=
  array_getD_map Tensor.unscaled g.tensors id default

theorem tensor_declared (g : Graph) (id : TensorId) :
    g.declared.tensor id = (g.tensor id).declared :=
  array_getD_map Tensor.declared g.tensors id default

/-- Erasing a graph erases its operators one by one. -/
theorem operator_logical (g : Graph) (i : OperatorId) :
    g.logical.operator i = (g.operator i).logical :=
  array_getD_map Operator.logical g.operators i default

theorem operator_declared (g : Graph) (i : OperatorId) :
    g.declared.operator i = (g.operator i).declared :=
  array_getD_map Operator.declared g.operators i default

/-- The parts of a graph that its declaration fixes, one tensor or operator at a
time. -/
structure SameDeclaration (g g' : Graph) : Prop where
  tensors_size : g'.tensors.size = g.tensors.size
  operators_size : g'.operators.size = g.operators.size
  tensor : ∀ id, (g'.tensor id).declared = (g.tensor id).declared
  operator : ∀ i, (g'.operator i).declared = (g.operator i).declared

/-- Equal declarations agree tensor by tensor and operator by operator. -/
theorem sameDeclaration (h : g'.declared = g.declared) : SameDeclaration g g' where
  tensors_size := by simpa [declared] using congrArg (fun g => g.tensors.size) h
  operators_size := by simpa [declared] using congrArg (fun g => g.operators.size) h
  tensor id := by rw [← tensor_declared, ← tensor_declared, h]
  operator i := by rw [← operator_declared, ← operator_declared, h]

namespace SameDeclaration

variable (h : SameDeclaration g g')
include h

theorem tensor_id (id : TensorId) : (g'.tensor id).id = (g.tensor id).id :=
  (congrArg Tensor.id (h.tensor id) :)

theorem name (id : TensorId) : (g'.tensor id).name = (g.tensor id).name :=
  (congrArg Tensor.name (h.tensor id) :)

theorem shape (id : TensorId) : (g'.tensor id).shape = (g.tensor id).shape :=
  (congrArg Tensor.shape (h.tensor id) :)

theorem element (id : TensorId) : (g'.tensor id).element = (g.tensor id).element :=
  (congrArg Tensor.element (h.tensor id) :)

theorem kind (id : TensorId) : (g'.tensor id).kind = (g.tensor id).kind :=
  (congrArg Tensor.kind (h.tensor id) :)

theorem operator_id (i : OperatorId) : (g'.operator i).id = (g.operator i).id :=
  (congrArg Operator.id (h.operator i) :)

theorem operation (i : OperatorId) :
    (g'.operator i).operation.declared = (g.operator i).operation.declared :=
  (congrArg Operator.operation (h.operator i) :)

theorem inputs (i : OperatorId) : (g'.operator i).inputs = (g.operator i).inputs := by
  rw [Operator.inputs, Operator.inputs, ← Operation.inputs_declared, h.operation,
    Operation.inputs_declared]

theorem output (i : OperatorId) : (g'.operator i).output = (g.operator i).output := by
  rw [Operator.output, Operator.output, ← Operation.output_declared, h.operation,
    Operation.output_declared]

/-- **Being well formed is a matter of the declaration.** -/
theorem wellFormed (hg : g.WellFormed) : g'.WellFormed := by
  constructor
  case tensor_id =>
    intro i hi
    rw [h.tensor_id, hg.tensor_id i (h.tensors_size ▸ hi)]
  case operator_id =>
    intro i hi
    rw [h.operator_id, hg.operator_id i (h.operators_size ▸ hi)]
  case shape_ne_nil =>
    intro i hi
    rw [h.shape]
    exact hg.shape_ne_nil i (h.tensors_size ▸ hi)
  case positive =>
    intro i hi
    rw [h.shape]
    exact hg.positive i (h.tensors_size ▸ hi)
  case values_size =>
    intro i hi values hvalues
    rw [h.kind] at hvalues
    rw [Tensor.volume, h.shape]
    exact hg.values_size i (h.tensors_size ▸ hi) values hvalues
  case output_lt =>
    intro i hi
    rw [h.output, h.tensors_size]
    exact hg.output_lt i (h.operators_size ▸ hi)
  case operand_lt =>
    intro i hi
    rw [h.output, h.inputs]
    exact hg.operand_lt i (h.operators_size ▸ hi)
  case output_injective =>
    intro i hi j hj
    rw [h.output, h.output]
    exact hg.output_injective i (h.operators_size ▸ hi) j (h.operators_size ▸ hj)
  case result_iff =>
    intro id hid
    simp only [h.kind, h.output, h.operators_size]
    exact hg.result_iff id (h.tensors_size ▸ hid)
  case shaped =>
    intro i hi
    have hshape : (fun id => (g'.tensor id).shape) = fun id => (g.tensor id).shape := funext h.shape
    rw [hshape, ← Operation.shaped_declared, h.operation, Operation.shaped_declared]
    exact hg.shaped i (h.operators_size ▸ hi)

/-- Tensors of a kind are found by their declarations, and so are the same. -/
theorem idsWhere (hg : g.WellFormed) (p : TensorKind → Bool) : g'.idsWhere p = g.idsWhere p := by
  rw [(h.wellFormed hg).idsWhere_eq, hg.idsWhere_eq, h.tensors_size]
  simp only [h.kind]

end SameDeclaration

/-! ### The order of a declared graph -/

section Order

variable (g : Graph)

theorem toList_operators_declared :
    g.declared.operators.toList = g.operators.toList.map Operator.declared := by
  simp [declared]

/-- Who produces a tensor is declared. -/
theorem producer?_declared : g.declared.producer? = g.producer? := by
  funext id
  simp [producer?, toList_operators_declared, List.find?_map, Function.comp_def]

/-- The dependencies of the operators are declared. -/
theorem dependencies_declared : g.declared.dependencies = g.dependencies := by
  funext id
  simp [dependencies, producer?_declared, operator_declared]

theorem dependents_declared : g.declared.dependents = g.dependents := by
  funext id
  simp [dependents, producer?_declared, toList_operators_declared, List.flatMap_map]

theorem searchFuel_declared : g.declared.searchFuel = g.searchFuel := by
  rw [searchFuel, searchFuel, foldr_add, foldr_add]
  simp [declared, Function.comp_def]

/-- A tensor with two producers is found in the declarations alone. -/
theorem doubleWriter?_declared (earlier rest : List Operator) :
    doubleWriter? (earlier.map Operator.declared) (rest.map Operator.declared) =
      (doubleWriter? earlier rest).map (Prod.map Operator.declared Operator.declared) := by
  induction rest generalizing earlier with
  | nil => rfl
  | cons op rest ih =>
    have hfind : (earlier.map Operator.declared).find?
        (fun other => other.output == op.declared.output) =
        (earlier.find? fun other => other.output == op.output).map Operator.declared := by
      simp [List.find?_map]
    rw [List.map_cons, doubleWriter?, doubleWriter?, hfind]
    cases earlier.find? fun other => other.output == op.output with
    | none =>
      have hmore := ih (earlier ++ [op])
      rwa [List.map_append] at hmore
    | some other => rfl

/-- The order is a matter of the declaration, and so is the reason why there is
none. -/
theorem order_declared : g.declared.order = g.order := by
  have hnodes : g.declared.operators.toList.map (·.id) = g.operators.toList.map (·.id) := by
    simp [toList_operators_declared]
  have hwriter := doubleWriter?_declared [] g.operators.toList
  rw [List.map_nil, ← toList_operators_declared] at hwriter
  simp only [order, hwriter, hnodes, dependents_declared, searchFuel_declared,
    dependencies_declared, operator_declared, tensor_declared]
  cases doubleWriter? [] g.operators.toList with
  | none => rfl
  | some writers =>
    simp only [Option.map_some, Prod.map, Operator.output_declared]
    rfl

/-- **The order of evaluation is a matter of the declaration**, so no later
stage changes it. -/
theorem order_eq_of_declared_eq {g g' : Graph} (h : g'.declared = g.declared) :
    g'.order = g.order := by
  rw [← order_declared, h, order_declared]

end Order

/-! ### Changes that an erasure does not see -/

/-- An update of an array that a map does not see. -/
theorem map_modify_eq {α β : Type} {f : α → β} {u : α → α} {a : Array α} {i : Nat}
    (h : ∀ x, a[i]? = some x → f (u x) = f x) : (a.modify i u).map f = a.map f := by
  refine Array.ext (by simp) fun j hj hj' => ?_
  have hlt : j < a.size := by simpa using hj'
  simp only [Array.getElem_map, Array.getElem_modify]
  split
  · subst i
    exact h _ (Array.getElem?_eq_getElem hlt)
  · rfl

theorem operator_of_getElem? {i : OperatorId} {op : Operator} (h : g.operators[i]? = some op) :
    g.operator i = op := by
  rw [operator, Array.getD_eq_getD_getElem?, h, Option.getD_some]

/-- A change of the scale of one tensor is erased with the scales. -/
theorem unscaled_modifyTensor {id : TensorId} {u : Tensor → Tensor}
    (h : ∀ t, (u t).unscaled = t.unscaled) : (g.modifyTensor id u).unscaled = g.unscaled := by
  simp only [unscaled, modifyTensor, map_modify_eq fun t _ => h t]

/-- So is a change of the scales of all tensors. -/
theorem unscaled_mapTensors {u : Tensor → Tensor} (h : ∀ t, (u t).unscaled = t.unscaled) :
    (g.mapTensors u).unscaled = g.unscaled := by
  simp [unscaled, mapTensors, h]

/-- A change of the layouts or addresses of all tensors is erased with them. -/
theorem logical_mapTensors {u : Tensor → Tensor} (h : ∀ t, (u t).logical = t.logical) :
    (g.mapTensors u).logical = g.logical := by
  simp [logical, mapTensors, h]

/-- An operator replaced by one that differs in what was added to it only. -/
theorem unscaled_modifyOperator {i : OperatorId} {u : Operator → Operator}
    (h : (u (g.operator i)).unscaled = (g.operator i).unscaled) :
    (g.modifyOperator i u).unscaled = g.unscaled := by
  have hmap : (g.operators.modify i u).map Operator.unscaled = g.operators.map Operator.unscaled :=
    map_modify_eq fun op hop => by rwa [operator_of_getElem? hop] at h
  simp only [unscaled, modifyOperator, hmap]

/-- A change of the parallelism of one operator is erased with it. -/
theorem logical_modifyOperator {i : OperatorId} {u : Operator → Operator}
    (h : (u (g.operator i)).logical = (g.operator i).logical) :
    (g.modifyOperator i u).logical = g.logical := by
  have hmap : (g.operators.modify i u).map Operator.logical = g.operators.map Operator.logical :=
    map_modify_eq fun op hop => by rwa [operator_of_getElem? hop] at h
  simp only [logical, modifyOperator, hmap]

theorem operator_modifyTensor (g : Graph) (id : TensorId) (u : Tensor → Tensor) (i : OperatorId) :
    (g.modifyTensor id u).operator i = g.operator i := rfl

theorem tensor_modifyOperator (g : Graph) (i : OperatorId) (u : Operator → Operator)
    (id : TensorId) :
    (g.modifyOperator i u).tensor id = g.tensor id := rfl

/-- A change of one tensor leaves the others as they are. -/
theorem tensor_modifyTensor_of_ne {id id' : TensorId} {u : Tensor → Tensor} (hne : id' ≠ id) :
    (g.modifyTensor id u).tensor id' = g.tensor id' := by
  simp [tensor, modifyTensor, Array.getD_eq_getD_getElem?, Array.getElem?_modify, hne.symm]

/-- The operator at a position after an update there. -/
theorem operator_modifyOperator_self {i : OperatorId} {u : Operator → Operator}
    (hi : i < g.operators.size) : (g.modifyOperator i u).operator i = u (g.operator i) := by
  simp [operator, modifyOperator, Array.getD_eq_getD_getElem?, Array.getElem_modify, hi]

/-- A change of one operator leaves the others as they are. -/
theorem operator_modifyOperator_of_ne {i j : OperatorId} {u : Operator → Operator} (hne : j ≠ i) :
    (g.modifyOperator i u).operator j = g.operator j := by
  simp [operator, modifyOperator, Array.getD_eq_getD_getElem?, Array.getElem?_modify, hne.symm]

/-- **A stage that goes through operators.** If each step keeps `I`, establishes
`P` at its own operator and leaves the other operators alone, then after all
steps `P` holds at every operator gone through. -/
theorem foldlM_operators {ε : Type} {f : Graph → OperatorId → Except ε Graph} {I : Graph → Prop}
    {P : Operator → Prop} {ids : List OperatorId}
    (hstep : ∀ g g', ∀ i ∈ ids, I g → f g i = .ok g' →
      I g' ∧ P (g'.operator i) ∧ ∀ j ≠ i, g'.operator j = g.operator j)
    (hI : I g) (h : ids.foldlM f g = .ok g') : I g' ∧ ∀ i ∈ ids, P (g'.operator i) := by
  -- operators that have `P` already keep it, so that the induction carries
  -- those gone through
  suffices hkeep : I g' ∧ ∀ i, i ∈ ids ∨ P (g.operator i) → P (g'.operator i) from
    ⟨hkeep.1, fun i hi => hkeep.2 i (.inl hi)⟩
  induction ids generalizing g with
  | nil =>
    obtain rfl := pure_ok_iff.1 h
    exact ⟨hI, fun i hi => hi.resolve_left List.not_mem_nil⟩
  | cons i ids ih =>
    rw [List.foldlM_cons, bind_ok_iff] at h
    obtain ⟨g₁, h₁, h⟩ := h
    obtain ⟨hI₁, hP, hothers⟩ := hstep g g₁ i List.mem_cons_self hI h₁
    obtain ⟨hI', hall⟩ := ih (fun g g' j hj => hstep g g' j (List.mem_cons_of_mem i hj)) hI₁ h
    refine ⟨hI', fun j hj => hall j ?_⟩
    by_cases hji : j = i
    · exact .inr (hji ▸ hP)
    · rw [hothers j hji]
      exact hj.imp_left fun hmem => (List.mem_cons.1 hmem).resolve_left hji

end Graph

end QuantAccel
