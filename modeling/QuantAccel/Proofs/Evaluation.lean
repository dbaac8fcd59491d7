import QuantAccel.Machine.Basic
import QuantAccel.Proofs.Quantization

/-!
# What evaluation assigns

Evaluation of a quantized graph succeeds on every input of the right size. The
values that it assigns solve the equations of the graph: placeholders have their
inputs, parameters their integers, and the result of every operator is what the
operator makes of its operands. Since no tensor is written twice and no operand
is written after its consumer, a value once assigned is the final one, so the
equations can be read at the end of the evaluation.
-/

namespace QuantAccel

namespace Graph

variable {g : Graph} {inputs v v' : Valuation Int} {order : List OperatorId}

/-! ## One operator -/

theorem fetch_ok {id : TensorId} {values : Array Int} (h : v id = some values) :
    g.fetch v id = .ok values := by
  rw [fetch, h]

theorem fetch_congr {id : TensorId} (h : v' id = v id) : g.fetch v' id = g.fetch v id := by
  rw [fetch, fetch, h]

/-- The result of an operator depends on its operands only. -/
theorem operatorResult_congr {op : Operator} (h : ∀ id ∈ op.inputs, v' id = v id) :
    g.operatorResult v' op = g.operatorResult v op := by
  unfold operatorResult
  cases hop : op.operation with
  | matmul o =>
    simp only [Operator.inputs, hop, Operation.inputs] at h
    have hbias : o.bias.mapM (g.fetch v') = o.bias.mapM (g.fetch v) := by
      cases hb : o.bias with
      | none => rfl
      | some b => simp only [Option.mapM_some, fetch_congr (h b (by simp [hb]))]
    simp only [hbias, fetch_congr (h o.left (by simp)), fetch_congr (h o.right (by simp))]
  | add o =>
    simp only [Operator.inputs, hop, Operation.inputs] at h
    simp only [fetch_congr (h o.left (by simp)), fetch_congr (h o.right (by simp))]
  | normalize o =>
    simp only [Operator.inputs, hop, Operation.inputs] at h
    simp only [fetch_congr (h o.input (by simp)), fetch_congr (h o.gain (by simp)),
      fetch_congr (h o.offset (by simp))]
  | activate o =>
    simp only [Operator.inputs, hop, Operation.inputs] at h
    simp only [fetch_congr (h o.input (by simp))]

/-- The operands of a matrix product; the bias is the third one if there is
one. -/
theorem matmul_operands {o : Matmul} {operands : List (Array Int)}
    (h : List.Forall₂ (fun id values => v id = some values) (Operation.matmul o).inputs operands) :
    ∃ left right, ∃ bias : Option (Array Int), operands.getD 0 #[] = left ∧
      operands.getD 1 #[] = right ∧
      (o.bias.map fun _ => operands.getD 2 #[]) = bias ∧ v o.left = some left ∧
        v o.right = some right ∧
      o.bias.mapM (g.fetch v) = .ok bias := by
  simp only [Operation.inputs, List.cons_append, List.nil_append] at h
  rcases h with _ | ⟨hleft, h⟩
  rcases h with _ | ⟨hright, h⟩
  cases hb : o.bias with
  | none => exact ⟨_, _, none, rfl, rfl, rfl, hleft, hright, rfl⟩
  | some b =>
    rw [hb, Option.toList_some] at h
    rcases h with _ | ⟨hbias, h⟩
    rename_i bias _
    refine ⟨_, _, some bias, rfl, rfl, rfl, hleft, hright, ?_⟩
    simp [fetch_ok hbias, Functor.map, Except.map]

/-- Element `j` of the result of an operator, by its kernel, from operands in
their order. -/
def kernelElement (g : Graph) (op : Operator) (operands : List (Array Int)) (j : Nat) : Int :=
  let out := g.tensor op.output
  let first := operands.getD 0 #[]
  let second := operands.getD 1 #[]
  let third := operands.getD 2 #[]
  match op.operation with
  | .matmul o =>
    let d := g.matmulDims o
    Kernel.matmulElement first second (o.bias.map fun _ => third) d (o.rescale.getD default)
      o.activation out.element (j / d.n) (j % d.n)
  | .add o =>
    Kernel.addElement (first.getD j 0) (second.getD (j % second.size) 0) (o.rescale.getD default)
      out.element
  | .normalize o =>
    let channel := j % out.innermost
    Kernel.normalizeElement (first.getD j 0) (second.getD channel 0) (third.getD channel 0)
      (o.rescale.getD default) o.activation out.element
  | .activate o =>
    Kernel.finish (first.getD j 0) (o.rescale.getD default) (some o.activation) out.element

/-- Every element of a kernel is of the element type of the result. -/
theorem contains_kernelElement (g : Graph) (op : Operator) (operands : List (Array Int)) (j : Nat) :
    (g.tensor op.output).element.Contains (g.kernelElement op operands j) := by
  unfold kernelElement
  cases op.operation <;> exact ElementType.contains_saturate _ _

/-- A machine computes elements by the kernel of their operator. -/
theorem element_eq_kernelElement {op : Operator} (hrescaled : op.operation.isRescaled) {m : Machine}
    (hm : m.design.graph = g) (operands : List (Array Int)) (j : Nat) :
    m.element op operands j = .ok (g.kernelElement op operands j) := by
  subst hm
  unfold Machine.element kernelElement
  cases hop : op.operation <;> rw [hop] at hrescaled <;>
    obtain ⟨rescale, hr⟩ := Option.isSome_iff_exists.1 hrescaled <;>
    simp only [Machine.required, hr, bind, Except.bind, pure, Except.pure, Option.getD_some]

section Kernels

variable {op : Operator} {operands : List (Array Int)} (hrescaled : op.operation.isRescaled)
variable (hoperands : List.Forall₂ (fun id values => v id = some values) op.inputs operands)
include hrescaled hoperands

/-- A matrix product with operands has all elements of the kernel, row by
row. -/
theorem operatorResult_matmul {o : Matmul} (hop : op.operation = .matmul o)
    (hshaped : op.operation.Shaped fun id => (g.tensor id).shape) : g.operatorResult v op =
      .ok (Array.ofFn fun j : Fin (g.tensor op.output).volume =>
        g.kernelElement op operands j) := by
  have hout : op.output = o.output := by rw [Operator.output, hop]; rfl
  rw [hop] at hrescaled hshaped
  rw [Operator.inputs, hop] at hoperands
  obtain ⟨rescale, hr⟩ := Option.isSome_iff_exists.1 hrescaled
  obtain ⟨rows, k, n, hl, -, -, ho⟩ := hshaped
  simp only at hl ho
  obtain ⟨left, right, bias, h₀, h₁, h₂, hleft, hright, hbias⟩ := matmul_operands (g := g) hoperands
  have hdims : g.matmulDims o = ⟨rows, k, n, o.transposed⟩ := by
    simp [Graph.matmulDims, hl, ho]
  -- the evaluator fills rows outside the product with zeros, and there are none
  have hrow (j : Nat) (hj : j < (g.tensor op.output).volume) : j / n < rows := by
    have hvolume : (g.tensor op.output).volume = n * rows := by
      simp [hout, Tensor.volume, ho, Shape.volume, Nat.mul_comm]
    exact Nat.div_lt_of_lt_mul (hvolume ▸ hj)
  unfold operatorResult kernelElement
  simp only [hop, required, hr, hbias, fetch_ok hleft, fetch_ok hright, h₀, h₁, h₂, bind,
    Except.bind, pure, Except.pure, Kernel.matmul, hdims, Option.getD_some]
  congr 2
  funext j
  rw [if_pos (hrow j j.isLt)]

/-- A sum has all elements of the kernel; the right term is repeated where it
is shorter. -/
theorem operatorResult_add {o : Addition} (hop : op.operation = .add o) : g.operatorResult v op =
    .ok (Array.ofFn fun j : Fin (g.tensor op.output).volume => g.kernelElement op operands j) := by
  rw [hop] at hrescaled
  rw [Operator.inputs, hop] at hoperands
  obtain ⟨rescale, hr⟩ := Option.isSome_iff_exists.1 hrescaled
  rcases hoperands with _ | ⟨hleft, hoperands⟩
  rcases hoperands with _ | ⟨hright, hoperands⟩
  rcases hoperands with _ | _
  unfold operatorResult kernelElement
  simp only [hop, required, hr, fetch_ok hleft, fetch_ok hright, bind, Except.bind, pure,
    Except.pure, Kernel.add, Option.getD_some, List.getD_cons_zero, List.getD_cons_succ]

/-- A normalization has all elements of the kernel, with one gain and one
offset for each channel. -/
theorem operatorResult_normalize {o : Normalization} (hop : op.operation = .normalize o) :
    g.operatorResult v op =
      .ok (Array.ofFn fun j : Fin (g.tensor op.output).volume =>
        g.kernelElement op operands j) := by
  rw [hop] at hrescaled
  rw [Operator.inputs, hop] at hoperands
  obtain ⟨rescale, hr⟩ := Option.isSome_iff_exists.1 hrescaled
  rcases hoperands with _ | ⟨hinput, hoperands⟩
  rcases hoperands with _ | ⟨hgain, hoperands⟩
  rcases hoperands with _ | ⟨hoffset, hoperands⟩
  rcases hoperands with _ | _
  unfold operatorResult kernelElement
  simp only [hop, required, hr, fetch_ok hinput, fetch_ok hgain, fetch_ok hoffset, bind,
    Except.bind, pure, Except.pure, Kernel.normalize, Option.getD_some, List.getD_cons_zero,
    List.getD_cons_succ]

/-- An activation has all elements of the kernel. -/
theorem operatorResult_activate {o : Rectification} (hop : op.operation = .activate o) :
    g.operatorResult v op =
      .ok (Array.ofFn fun j : Fin (g.tensor op.output).volume =>
        g.kernelElement op operands j) := by
  rw [hop] at hrescaled
  rw [Operator.inputs, hop] at hoperands
  obtain ⟨rescale, hr⟩ := Option.isSome_iff_exists.1 hrescaled
  rcases hoperands with _ | ⟨hinput, hoperands⟩
  rcases hoperands with _ | _
  unfold operatorResult kernelElement
  simp only [hop, required, hr, fetch_ok hinput, bind, Except.bind, pure, Except.pure,
    Kernel.activate, Option.getD_some, List.getD_cons_zero]

end Kernels

/-- **An operator on bound operands has a result**, and its elements are those
of the kernel, which a machine computes one by one. -/
theorem operatorResult_eq (hg : g.WellFormed) {i : OperatorId} (hi : i < g.operators.size)
    (hrescaled : (g.operator i).operation.isRescaled) {operands : List (Array Int)}
    (hoperands : List.Forall₂ (fun id values => v id = some values)
      (g.operator i).inputs operands) :
    g.operatorResult v (g.operator i) =
      .ok (Array.ofFn fun j : Fin (g.tensor (g.operator i).output).volume =>
        g.kernelElement (g.operator i) operands j) := by
  cases hop : (g.operator i).operation with
  | matmul o => exact operatorResult_matmul hrescaled hoperands hop (hg.shaped i hi)
  | add o => exact operatorResult_add hrescaled hoperands hop
  | normalize o => exact operatorResult_normalize hrescaled hoperands hop
  | activate o => exact operatorResult_activate hrescaled hoperands hop

/-! ## Inputs and parameters -/

/-- Inputs of the right sizes are bound as they are. -/
theorem bindInputs_ok (hinputs : ∀ id ∈ g.placeholders, ∃ values, inputs id = some values ∧
      values.size = (g.tensor id).volume) :
    ∃ v, g.bindInputs inputs = .ok v ∧ ∀ id ∈ g.placeholders, v id = inputs id := by
  refine foldlM_exists (I := fun before (v : Valuation Int) => ∀ id ∈ before, v id = inputs id)
    ?_ (by simp)
  intro before id after v hsplit hI
  obtain ⟨values, hvalues, hsize⟩ := hinputs id (by rw [hsplit]; simp)
  refine ⟨v.bind id values, ?_, fun id' hid' => ?_⟩
  · simp [hvalues, hsize, pure, Except.pure]
  · rw [Valuation.bind]
    split
    · rename_i heq
      rw [heq, hvalues]
    · rename_i hne
      exact hI id'
        ((List.mem_append.1 hid').resolve_right fun hmem => hne (List.mem_singleton.1 hmem))

/-- The parameters of a quantized graph are bound to their integers, and
nothing else is. -/
theorem bindParameters_ok (hg : g.WellFormed) (hq : g.Quantized) (v₀ : Valuation Int) :
    ∃ v, g.bindParameters v₀ = .ok v ∧
      (∀ id < g.tensors.size, (g.tensor id).kind.isParameter → v id = (g.tensor id).ints) ∧
      ∀ id < g.tensors.size, ¬(g.tensor id).kind.isParameter → v id = v₀ id := by
  -- a parameter that was gone through has its integers, and all else is as
  -- before
  obtain ⟨v, hv, hvalues⟩ : ∃ v, g.bindParameters v₀ = .ok v ∧ ∀ id, v id =
      if (g.tensor id).kind.isParameter ∧ id ∈ g.tensors.toList.map (·.id) then (g.tensor id).ints
      else v₀ id := by
    refine foldlM_exists (I := fun (before : List Tensor) (v : Valuation Int) => ∀ id, v id =
      if (g.tensor id).kind.isParameter ∧ id ∈ before.map (·.id) then (g.tensor id).ints
      else v₀ id) ?_ (by simp)
    intro before t after v hsplit hI
    obtain ⟨hlt, hat⟩ := hg.tensor_of_mem (t := t) (by rw [hsplit]; simp)
    by_cases hparam : t.kind.isParameter
    · obtain ⟨ints, hints, -⟩ := hq.ints t.id hlt (hat.symm ▸ hparam)
      rw [hat] at hints
      refine ⟨v.bind t.id ints, by simp [hparam, hints, pure, Except.pure], fun id => ?_⟩
      rw [Valuation.bind]
      split
      · rename_i heq
        rw [heq, hat, if_pos ⟨hparam, by simp⟩, hints]
      · rename_i hne
        simp [hI id, hne]
    · refine ⟨v, by simp [hparam, pure, Except.pure], fun id => ?_⟩
      rw [hI id]
      by_cases heq : id = t.id
      · simp [heq, hat, hparam]
      · simp [heq]
  have hmem (id : TensorId) (hid : id < g.tensors.size) : id ∈ g.tensors.toList.map (·.id) := by
    refine List.mem_map.2 ⟨g.tensor id, ?_, hg.tensor_id id hid⟩
    simp [tensor, Array.getD_eq_getD_getElem?, hid]
  refine ⟨v, hv, fun id hid hparam => ?_, fun id _ hparam => ?_⟩
  · rw [hvalues id, if_pos ⟨hparam, hmem id hid⟩]
  · rw [hvalues id, if_neg fun h => hparam h.1]

/-! ## All operators -/

/-- **Operands are ready.** When an operator comes up in the order, each of its
operands comes from the outside or from an operator before it. -/
theorem Ordered.ready (hg : g.WellFormed) (h : g.Ordered order) {before after : List OperatorId}
    {i : OperatorId} (hsplit : order = before ++ i :: after) {id : TensorId}
    (hid : id ∈ (g.operator i).inputs) (hresult : (g.tensor id).kind.isResult) :
    ∃ j ∈ before, (g.operator j).output = id := by
  have hi := h.lt_of_split hsplit
  have hlt := hg.operand_lt i hi id hid
  obtain ⟨j, hj, hout⟩ := (hg.result_iff id (lt_trans hlt (hg.output_lt i hi))).1 hresult
  have hdep := (mem_dependencies_iff hg.operator_id hg.output_injective hi).2
    ⟨hj, hi, by rwa [hout]⟩
  rcases h.dependency before i after hsplit j hdep with rfl | hmem
  · exact absurd hout (Nat.ne_of_gt hlt)
  · exact ⟨j, hmem, hout⟩

/-- **What an operator writes is new.** An operator before it in the order
neither writes nor reads the tensor. -/
theorem Ordered.fresh (hg : g.WellFormed) (h : g.Ordered order) {before after : List OperatorId}
    {i j : OperatorId} (hsplit : order = before ++ i :: after) (hj : j ∈ before) :
    (g.operator j).output ≠ (g.operator i).output ∧
      (g.operator i).output ∉ (g.operator j).inputs := by
  have hi := h.lt_of_split hsplit
  have hwriter (k : OperatorId) (hk : k ∈ before) :
      (g.operator k).output ≠ (g.operator i).output := by
    intro heq
    have hlt : k < g.operators.size := h.mem_iff.1 (hsplit ▸ List.mem_append_left _ hk)
    have hnodup : (before ++ i :: after).Nodup := hsplit ▸ h.perm.nodup_iff.2 List.nodup_range
    exact (List.nodup_append.1 hnodup).2.2 k hk i List.mem_cons_self
      (hg.output_injective k hlt i hi heq)
  refine ⟨hwriter j hj, fun hread => ?_⟩
  -- a tensor that is read is written before, and here it would be written twice
  obtain ⟨b₁, b₂, rfl⟩ := List.append_of_mem hj
  obtain ⟨k, hk, hout⟩ := h.ready hg
    (hsplit.trans (by rw [List.append_assoc, List.cons_append])) hread
    (hg.isResult_output hi)
  exact hwriter k (List.mem_append_left _ hk) hout

/-- The values of a graph: inputs at placeholders, integers at parameters, and
at every result what its operator makes of the operands. -/
structure Assigned (g : Graph) (inputs v : Valuation Int) : Prop where
  placeholder : ∀ id ∈ g.placeholders, v id = inputs id
  parameter : ∀ id < g.tensors.size, (g.tensor id).kind.isParameter → v id = (g.tensor id).ints
  result : ∀ i < g.operators.size, ∃ values, v (g.operator i).output = some values ∧
    g.operatorResult v (g.operator i) = .ok values

/-- Operands that are all bound, as a list. -/
theorem exists_operands {ids : List TensorId} (h : ∀ id ∈ ids, ∃ values, v id = some values) :
    ∃ operands, List.Forall₂ (fun id values => v id = some values) ids operands := by
  induction ids with
  | nil => exact ⟨[], .nil⟩
  | cons id ids ih =>
    obtain ⟨values, hvalues⟩ := h id List.mem_cons_self
    obtain ⟨operands, hoperands⟩ := ih fun id' hid' => h id' (List.mem_cons_of_mem id hid')
    exact ⟨values :: operands, .cons hvalues hoperands⟩

/-- A tensor from the outside is a placeholder or a parameter. -/
theorem WellFormed.outside (hg : g.WellFormed) {id : TensorId} (hid : id < g.tensors.size)
    (hresult : ¬(g.tensor id).kind.isResult) :
    id ∈ g.placeholders ∨ (g.tensor id).kind.isParameter := by
  have hcases := TensorKind.isResult_eq_false.1 (Bool.not_eq_true _ ▸ hresult)
  exact hcases.imp_left fun h => hg.mem_idsWhere.2 ⟨hid, h⟩

/-- The state of an evaluation after some operators: their results solve their
equations, and tensors from the outside are as at first. -/
structure Solved (g : Graph) (v₁ v : Valuation Int) (before : List OperatorId) : Prop where
  outside : ∀ id < g.tensors.size, ¬(g.tensor id).kind.isResult → v id = v₁ id
  results : ∀ i ∈ before, ∃ values, v (g.operator i).output = some values ∧
    g.operatorResult v (g.operator i) = .ok values

/-- **One operator is evaluated**: its equation is solved, and those solved
before stay solved, since their operands were written before this result. -/
theorem Solved.step {v₁ : Valuation Int} {before after : List OperatorId} {i : OperatorId}
    (h : g.Solved v₁ v before) (hg : g.WellFormed) (hq : g.Quantized) (hordered : g.Ordered order)
    (hbound : ∀ id < g.tensors.size, ¬(g.tensor id).kind.isResult → ∃ values, v₁ id = some values)
    (hsplit : order = before ++ i :: after) :
    ∃ values, g.operatorResult v (g.operator i) = .ok values ∧
      g.Solved v₁ (v.bind (g.operator i).output values) (before ++ [i]) := by
  have hi := hordered.lt_of_split hsplit
  -- the operands are bound
  obtain ⟨operands, hoperands⟩ : ∃ operands,
      List.Forall₂ (fun id values => v id = some values) (g.operator i).inputs operands := by
    refine exists_operands fun id hid => ?_
    have hidLt := lt_trans (hg.operand_lt i hi id hid) (hg.output_lt i hi)
    by_cases hkind : (g.tensor id).kind.isResult
    · obtain ⟨j, hj, rfl⟩ := hordered.ready hg hsplit hid hkind
      obtain ⟨values, hvalues, -⟩ := h.results j hj
      exact ⟨values, hvalues⟩
    · rw [h.outside id hidLt hkind]
      exact hbound id hidLt hkind
  have hf := operatorResult_eq hg hi (hq.rescaled i hi) hoperands
  refine ⟨_, hf, fun id hid hkind => ?_, fun j hj => ?_⟩
  · have hne : id ≠ (g.operator i).output := fun heq => hkind (heq ▸ hg.isResult_output hi)
    rw [Valuation.bind, if_neg hne, h.outside id hid hkind]
  · rcases List.mem_append.1 hj with hj | hj
    · -- an earlier operator: neither its result nor an operand of it is written now
      obtain ⟨hwritten, hread⟩ := hordered.fresh hg hsplit hj
      obtain ⟨values, hvalues, heq⟩ := h.results j hj
      refine ⟨values, by rw [Valuation.bind, if_neg hwritten, hvalues], ?_⟩
      rw [operatorResult_congr fun id hid => ?_, heq]
      rw [Valuation.bind, if_neg]
      rintro rfl
      exact hread hid
    · obtain rfl := List.mem_singleton.1 hj
      refine ⟨_, by rw [Valuation.bind, if_pos rfl], ?_⟩
      rw [operatorResult_congr fun id hid => ?_, hf]
      rw [Valuation.bind, if_neg (Nat.ne_of_lt (hg.operand_lt j hi id hid))]

/-- Evaluation looks at the inputs of the placeholders only. -/
theorem evaluate_congr {inputs' : Valuation Int}
    (h : ∀ id ∈ g.placeholders, inputs' id = inputs id) :
    g.evaluate inputs' = g.evaluate inputs := by
  have hbind : g.bindInputs inputs' = g.bindInputs inputs := by
    refine foldlM_congr (fun id hid v => ?_) _
    simp only [h id hid]
  rw [evaluate, evaluate, hbind]

/-- **Evaluation succeeds, and solves the equations of the graph.** -/
theorem evaluate_ok (hg : g.WellFormed) (hq : g.Quantized) (horder : g.order = .ok order)
    (hinputs : ∀ id ∈ g.placeholders, ∃ values, inputs id = some values ∧
      values.size = (g.tensor id).volume) :
    ∃ v, g.evaluate inputs = .ok v ∧ g.Assigned inputs v := by
  have hordered := ordered_of_order hg.operator_id horder
  obtain ⟨v₀, hv₀, hplaceholders⟩ := bindInputs_ok hinputs
  obtain ⟨v₁, hv₁, hparameters, hothers⟩ := bindParameters_ok hg hq v₀
  have hplaceholders₁ (id : TensorId) (hid : id ∈ g.placeholders) : v₁ id = inputs id := by
    obtain ⟨hlt, hkind⟩ := hg.mem_idsWhere.1 hid
    rw [hothers id hlt, hplaceholders id hid]
    cases hk : (g.tensor id).kind <;> simp [hk, TensorKind.isPlaceholder] at hkind
    simp [TensorKind.isParameter, TensorKind.values?]
  have hbound (id : TensorId) (hid : id < g.tensors.size) (hresult : ¬(g.tensor id).kind.isResult) :
      ∃ values, v₁ id = some values := by
    rcases hg.outside hid hresult with hplaceholder | hparam
    · obtain ⟨values, hvalues, -⟩ := hinputs id hplaceholder
      exact ⟨values, by rw [hplaceholders₁ id hplaceholder, hvalues]⟩
    · obtain ⟨ints, hints, -⟩ := hq.ints id hid hparam
      exact ⟨ints, by rw [hparameters id hid hparam, hints]⟩
  -- along the order, equations that are solved stay solved
  obtain ⟨v, hv, hsolved⟩ : ∃ v, order.foldlM (fun v id => do
      let op := g.operator id
      return Valuation.bind v op.output (← g.operatorResult v op)) v₁ = .ok v ∧
        g.Solved v₁ v order := by
    refine foldlM_exists (I := fun before v => g.Solved v₁ v before)
      (fun before i after v hsplit hI => ?_) ⟨fun _ _ _ => rfl, by simp⟩
    obtain ⟨values, hvalues, hI'⟩ := hI.step hg hq hordered hbound hsplit
    exact ⟨_, by simp only [hvalues]; rfl, hI'⟩
  refine ⟨v, ?_, ?_, ?_, ?_⟩
  · rw [evaluate, hv₀]
    simp only [bind, Except.bind, hv₁, horder]
    exact hv
  · intro id hid
    obtain ⟨hlt, hkind⟩ := hg.mem_idsWhere.1 hid
    rw [hsolved.outside id hlt, hplaceholders₁ id hid]
    cases hk : (g.tensor id).kind <;> simp [hk, TensorKind.isPlaceholder] at hkind
    simp [TensorKind.isResult, TensorKind.isIntermediate, TensorKind.isOutput]
  · intro id hid hparam
    rw [hsolved.outside id hid, hparameters id hid hparam]
    have := TensorKind.isResult_eq_false.2 (.inr hparam)
    simp [this]
  · exact fun i hi => hsolved.results i (hordered.mem_iff.2 hi)

end Graph

end QuantAccel
