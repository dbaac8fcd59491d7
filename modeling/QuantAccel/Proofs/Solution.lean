import QuantAccel.Proofs.Evaluation
import QuantAccel.Proofs.Plan

/-!
# Evaluation as the solution of equations

The values of a quantized graph are the one solution of a system of equations: a
placeholder has its input, a parameter its integers, and each element of a
result is what the kernel of its operator makes of the values of the operands.
The equations say nothing of an order. That there is no other solution follows
by induction on the tensors, since operands are older than results.

Kernels read a missing element as zero. An equation that holds has none: beside
the kernels stand kernels that have no value where an element is missing
(`element?`), and the two agree.
-/

namespace QuantAccel

/-! ## Kernels with checked reads -/

/-- A position in rows of one length, one after the other. -/
theorem rowMajor_index_lt {rows columns : Nat} (r : Fin rows) (c : Fin columns) :
    r * columns + c < rows * columns := by
  rw [Nat.mul_comm r.val]
  exact Nat.mul_add_lt_mul_of_lt_of_lt r.isLt c.isLt

/-- A right operand is read within its size, in either order of storage. -/
theorem MatmulDims.rightIndex_lt (d : MatmulDims) (i : Fin d.k) (c : Fin d.n) :
    d.rightIndex i c < d.k * d.n := by
  rw [rightIndex]
  split
  · rw [Nat.mul_comm d.k]
    exact rowMajor_index_lt c i
  · exact rowMajor_index_lt i c

namespace Kernel

variable {left right : Array Int} {bias : Option (Array Int)} {d : MatmulDims} {row column : Nat}

/-- The sum of products, if both factors of each product are there. -/
def dotProduct? (left right : Array Int) (d : MatmulDims) (row column : Nat) : Option Int :=
  (List.range d.k).foldlM
    (fun acc i => do
      let x ← left[row * d.k + i]?
      let y ← right[d.rightIndex i column]?
      return Accumulator.add acc (x * y))
    0

/-- One output element of a matrix product, if each element that it reads is
there. -/
def matmulElement? (left right : Array Int) (bias : Option (Array Int)) (d : MatmulDims)
    (rescale : Rescale) (activation : Option Activation) (t : ElementType) (row column : Nat) :
    Option Int := do
  let acc ← dotProduct? left right d row column
  let b ← bias.mapM fun b => b[column]?
  return finish (withBias acc b rescale) rescale activation t

/-- A fold whose steps all have a value has the value of the fold without
checks. -/
theorem foldlM_eq_some {α β : Type} {f : β → α → Option β} {f' : β → α → β} {l : List α}
    (h : ∀ a ∈ l, ∀ b, f b a = some (f' b a)) (b : β) : l.foldlM f b = some (l.foldl f' b) := by
  induction l generalizing b with
  | nil => rfl
  | cons a l ih =>
    rw [List.foldlM_cons, h a List.mem_cons_self b, List.foldl_cons]
    exact ih (fun a' ha' => h a' (List.mem_cons_of_mem a ha')) (f' b a)

theorem getElem?_eq_getD {values : Array Int} {i : Nat} (h : i < values.size) :
    values[i]? = some (values.getD i 0) := by
  rw [Array.getD_eq_getD_getElem?, Array.getElem?_eq_getElem h, Option.getD_some]

/-- **Where all reads are inside, the checks change nothing.** -/
theorem matmulElement?_eq_some (rescale : Rescale) (activation : Option Activation)
    (t : ElementType) (hleft : ∀ i < d.k, row * d.k + i < left.size)
    (hright : ∀ i < d.k, d.rightIndex i column < right.size) (hbias : ∀ b ∈ bias, column < b.size) :
    matmulElement? left right bias d rescale activation t row column =
      some (matmulElement left right bias d rescale activation t row column) := by
  have hdot : dotProduct? left right d row column = some (dotProduct left right d row column) := by
    refine foldlM_eq_some (fun i hi acc => ?_) 0
    have hi := List.mem_range.1 hi
    rw [getElem?_eq_getD (hleft i hi), getElem?_eq_getD (hright i hi)]
    rfl
  have hread : (bias.mapM fun b => b[column]?) = some (bias.map fun b => b.getD column 0) := by
    cases bias with
    | none => rfl
    | some b =>
      rw [Option.mapM_some, getElem?_eq_getD (hbias b rfl)]
      rfl
  rw [matmulElement?, hdot, hread]
  rfl

end Kernel

/-! ## Equations -/

/-- The element of a right operand that an element of a sum is paired with: its
own where both operands have one shape, and else the one of its innermost
position. -/
def Shape.broadcastIndex (left right : Shape) (j : Nat) : Nat :=
  if right = left then j else j % left.innermost

namespace Valuation

/-- The values of a tensor, none where it is unbound. -/
def get (v : Valuation Int) (id : TensorId) : Array Int :=
  (v id).getD #[]

/-- One element of a tensor, if it is there. -/
def read? (v : Valuation Int) (id : TensorId) (i : Nat) : Option Int :=
  (v id).bind fun values => values[i]?

end Valuation

namespace Graph

variable {g q : Graph} {ranges : ValueRanges} {inputs v v' : Valuation Int}
    {op : Operator} {j : Nat}

/-- Element `j` of the result of an operator, by the kernel of the operator. -/
def element (g : Graph) (v : Valuation Int) (op : Operator) (j : Nat) : Int :=
  let out := g.tensor op.output
  match op.operation with
  | .matmul o =>
    let d := g.matmulDims o
    Kernel.matmulElement (v.get o.left) (v.get o.right) (o.bias.map v.get) d
      (o.rescale.getD default)
      o.activation out.element (j / d.n) (j % d.n)
  | .add o =>
    let place := (g.tensor o.left).shape.broadcastIndex (g.tensor o.right).shape j
    Kernel.addElement ((v.get o.left).getD j 0) ((v.get o.right).getD place 0)
      (o.rescale.getD default)
      out.element
  | .normalize o =>
    let channel := j % out.innermost
    Kernel.normalizeElement ((v.get o.input).getD j 0) ((v.get o.gain).getD channel 0)
      ((v.get o.offset).getD channel 0) (o.rescale.getD default) o.activation out.element
  | .activate o =>
    Kernel.finish ((v.get o.input).getD j 0) (o.rescale.getD default)
      (some o.activation) out.element

/-- The same element, if the operator has its multipliers and each element that
is read is there. -/
def element? (g : Graph) (v : Valuation Int) (op : Operator) (j : Nat) : Option Int :=
  let out := g.tensor op.output
  match op.operation with
  | .matmul o => do
    let rescale ← o.rescale
    let left ← v o.left
    let right ← v o.right
    let bias ← o.bias.mapM v
    let d := g.matmulDims o
    Kernel.matmulElement? left right bias d rescale o.activation out.element (j / d.n) (j % d.n)
  | .add o => do
    let rescale ← o.rescale
    let x ← v.read? o.left j
    let y ← v.read? o.right ((g.tensor o.left).shape.broadcastIndex (g.tensor o.right).shape j)
    return Kernel.addElement x y rescale out.element
  | .normalize o => do
    let rescale ← o.rescale
    let x ← v.read? o.input j
    let gain ← v.read? o.gain (j % out.innermost)
    let offset ← v.read? o.offset (j % out.innermost)
    return Kernel.normalizeElement x gain offset rescale o.activation out.element
  | .activate o => do
    let rescale ← o.rescale
    let x ← v.read? o.input j
    return Kernel.finish x rescale (some o.activation) out.element

/-- Values that solve the equations of a graph, and no others. -/
structure Solution (g : Graph) (inputs v : Valuation Int) : Prop where
  placeholder : ∀ id ∈ g.placeholders, v id = inputs id
  parameter : ∀ id < g.tensors.size, (g.tensor id).kind.isParameter → v id = (g.tensor id).ints
  result : ∀ i < g.operators.size, ∃ values, v (g.operator i).output = some values ∧
    values.size = (g.tensor (g.operator i).output).volume ∧
    ∀ j < values.size, values[j]? = some (g.element v (g.operator i) j) ∧
      g.element? v (g.operator i) j = some (g.element v (g.operator i) j)
  unbound : ∀ id, g.tensors.size ≤ id → v id = none

/-! ## One solution -/

theorem read?_congr {id : TensorId} (h : v' id = v id) (i : Nat) :
    v'.read? id i = v.read? id i := by
  rw [Valuation.read?, Valuation.read?, h]

/-- An element is a matter of the operands. -/
theorem element?_congr (h : ∀ id ∈ op.inputs, v' id = v id) (j : Nat) :
    g.element? v' op j = g.element? v op j := by
  unfold element?
  cases hop : op.operation with
  | matmul o =>
    simp only [Operator.inputs, hop, Operation.inputs] at h
    have hbias : o.bias.mapM v' = o.bias.mapM v := by
      cases hb : o.bias with
      | none => rfl
      | some b => simp only [Option.mapM_some, h b (by simp [hb])]
    simp only [hbias, h o.left (by simp), h o.right (by simp)]
  | add o =>
    simp only [Operator.inputs, hop, Operation.inputs] at h
    simp only [read?_congr (h o.left (by simp)), read?_congr (h o.right (by simp))]
  | normalize o =>
    simp only [Operator.inputs, hop, Operation.inputs] at h
    simp only [read?_congr (h o.input (by simp)), read?_congr (h o.gain (by simp)),
      read?_congr (h o.offset (by simp))]
  | activate o =>
    simp only [Operator.inputs, hop, Operation.inputs] at h
    simp only [read?_congr (h o.input (by simp))]

/-- **The equations have one solution.** -/
theorem Solution.unique (hg : g.WellFormed) (h : g.Solution inputs v) (h' : g.Solution inputs v') :
    v' = v := by
  funext id
  -- by induction on the position of the tensor: operands come before results
  induction id using Nat.strong_induction_on with
  | _ id ih =>
    by_cases hid : id < g.tensors.size
    swap
    · rw [h.unbound id (by omega), h'.unbound id (by omega)]
    by_cases hkind : (g.tensor id).kind.isResult
    · obtain ⟨i, hi, rfl⟩ := (hg.result_iff id hid).1 hkind
      have hoperands := fun id hin => ih id (hg.operand_lt i hi id hin)
      obtain ⟨values, hv, hsize, hall⟩ := h.result i hi
      obtain ⟨values', hv', hsize', hall'⟩ := h'.result i hi
      rw [hv, hv', Option.some.injEq]
      refine Array.ext_getElem? fun j => ?_
      by_cases hj : j < values.size
      · obtain ⟨hat, hread⟩ := hall j hj
        obtain ⟨hat', hread'⟩ := hall' j (by omega)
        rw [hat, hat', ← hread, ← hread', element?_congr hoperands]
      · rw [Array.getElem?_eq_none (by omega), Array.getElem?_eq_none (by omega)]
    · rcases hg.outside hid hkind with hplaceholder | hparam
      · rw [h.placeholder id hplaceholder, h'.placeholder id hplaceholder]
      · rw [h.parameter id hid hparam, h'.parameter id hid hparam]

/-! ## Evaluation solves the equations -/

/-- A tensor that has one value for each element. -/
def Filled (g : Graph) (v : Valuation Int) (id : TensorId) : Prop :=
  ∃ values, v id = some values ∧ values.size = (g.tensor id).volume

theorem Filled.eq_get {id : TensorId} (h : g.Filled v id) :
    v id = some (v.get id) ∧ (v.get id).size = (g.tensor id).volume := by
  obtain ⟨values, hv, hsize⟩ := h
  rw [Valuation.get, hv]
  exact ⟨rfl, hsize⟩

theorem Filled.read? {id : TensorId} (h : g.Filled v id) {i : Nat} (hi : i < (g.tensor id).volume) :
    v.read? id i = some ((v.get id).getD i 0) := by
  obtain ⟨hv, hsize⟩ := h.eq_get
  rw [Valuation.read?, hv, Option.bind_some]
  exact Kernel.getElem?_eq_getD (hsize ▸ hi)

section Reads

variable (hrescaled : op.operation.isRescaled)
variable (hshaped : op.operation.Shaped fun id => (g.tensor id).shape)
variable (hpos : ∀ id ∈ op.inputs, (g.tensor id).shape.Positive)
variable (hfilled : ∀ id ∈ op.inputs, g.Filled v id)

include hshaped hpos hfilled in
/-- A place of the right operand of a sum is the position modulo its size,
whether it has the shape of the left one or is repeated. -/
theorem broadcastIndex_eq {o : Addition} (hop : op.operation = .add o)
    (hj : j < (g.tensor op.output).volume) :
    (g.tensor o.left).shape.broadcastIndex (g.tensor o.right).shape j = j % (v.get o.right).size ∧
      j % (v.get o.right).size < (g.tensor o.right).volume := by
  have hout : op.output = o.output := by rw [Operator.output, hop]; rfl
  simp only [Operator.inputs, hop, Operation.inputs] at hfilled hpos
  rw [hop] at hshaped
  obtain ⟨hfit, ho⟩ := hshaped
  simp only at hfit ho
  rw [(hfilled o.right (by simp)).eq_get.2]
  refine ⟨?_, Nat.mod_lt j (hpos o.right (by simp)).volume_pos⟩
  rw [Shape.broadcastIndex]
  split
  · rename_i hsame
    rw [Nat.mod_eq_of_lt]
    rwa [Tensor.volume, hsame, ← ho, ← hout, ← Tensor.volume]
  · rename_i hne
    rw [Tensor.volume, hfit.resolve_left hne]
    simp [Shape.volume]

include hshaped hpos hfilled in
/-- **The kernel on the operands of an operator gives the element.** -/
theorem kernelElement_eq (hj : j < (g.tensor op.output).volume) :
    g.kernelElement op (op.inputs.map v.get) j = g.element v op j := by
  unfold kernelElement element
  cases hop : op.operation with
  | matmul o => cases hb : o.bias <;> simp [Operator.inputs, hop, Operation.inputs, hb]
  | add o =>
    have hat := (broadcastIndex_eq hshaped hpos hfilled hop hj).1
    simp [Operator.inputs, hop, Operation.inputs, hat]
  | normalize o => simp [Operator.inputs, hop, Operation.inputs]
  | activate o => simp [Operator.inputs, hop, Operation.inputs]

include hrescaled hshaped hfilled

/-- A matrix product reads its operands inside of their volumes. -/
theorem element?_matmul {o : Matmul} (hop : op.operation = .matmul o)
    (hj : j < (g.tensor op.output).volume) : g.element? v op j = some (g.element v op j) := by
  have hout : op.output = o.output := by rw [Operator.output, hop]; rfl
  simp only [Operator.inputs, hop, Operation.inputs] at hfilled
  rw [hop] at hrescaled hshaped
  obtain ⟨rescale, hr⟩ := Option.isSome_iff_exists.1 hrescaled
  obtain ⟨m, k, n, hl, hrt, hb, ho⟩ := hshaped
  simp only at hl hrt ho
  obtain ⟨hleft, hleftSize⟩ := (hfilled o.left (by simp)).eq_get
  obtain ⟨hright, hrightSize⟩ := (hfilled o.right (by simp)).eq_get
  have hdims : g.matmulDims o = ⟨m, k, n, o.transposed⟩ := by simp [Graph.matmulDims, hl, ho]
  have hbias : ∀ b ∈ o.bias.map v.get, b.size = n := by
    intro b hmem
    obtain ⟨id, hid, rfl⟩ := Option.mem_map.1 hmem
    have hsize := (hfilled id (by simp [Option.mem_def.1 hid])).eq_get.2
    simpa [Tensor.volume, hb id hid, Shape.volume] using hsize
  have hfetch : o.bias.mapM v = some (o.bias.map v.get) := by
    cases hbias : o.bias with
    | none => rfl
    | some id => simp [(hfilled id (by simp [hbias])).eq_get.1]
  simp only [Tensor.volume, hl, Shape.volume, mul_one] at hleftSize
  have hrightSize : (v.get o.right).size = k * n := by
    rw [hrightSize, Tensor.volume, hrt]
    split <;> simp [Shape.volume, Nat.mul_comm]
  have hvolume : (g.tensor op.output).volume = m * n := by
    simp [hout, Tensor.volume, ho, Shape.volume]
  have hrow : j / n < m := Nat.div_lt_of_lt_mul (by rw [Nat.mul_comm]; exact hvolume ▸ hj)
  have hn : 0 < n := Nat.pos_of_ne_zero fun h0 => by simp [hvolume, h0] at hj
  have hcolumn : j % n < n := Nat.mod_lt j hn
  have hinLeft (i : Nat) (hi : i < k) : j / n * k + i < (v.get o.left).size :=
    hleftSize ▸ rowMajor_index_lt ⟨j / n, hrow⟩ ⟨i, hi⟩
  have hinRight (i : Nat) (hi : i < k) :
      MatmulDims.rightIndex ⟨m, k, n, o.transposed⟩ i (j % n) < (v.get o.right).size :=
    hrightSize ▸ MatmulDims.rightIndex_lt ⟨m, k, n, o.transposed⟩ ⟨i, hi⟩ ⟨j % n, hcolumn⟩
  simp only [element?, element, hop, hr, hdims, hleft, hright, hfetch, Option.getD_some]
  exact Kernel.matmulElement?_eq_some rescale o.activation
    (g.tensor op.output).element hinLeft hinRight
    fun b hb => hbias b hb ▸ hcolumn

include hpos

/-- A sum reads its terms inside of their volumes, the right one modulo its
size. -/
theorem element?_add {o : Addition} (hop : op.operation = .add o)
    (hj : j < (g.tensor op.output).volume) : g.element? v op j = some (g.element v op j) := by
  obtain ⟨hat, hlt⟩ := broadcastIndex_eq hshaped hpos hfilled hop hj
  have hout : op.output = o.output := by rw [Operator.output, hop]; rfl
  simp only [Operator.inputs, hop, Operation.inputs] at hfilled
  rw [hop] at hrescaled hshaped
  obtain ⟨rescale, hr⟩ := Option.isSome_iff_exists.1 hrescaled
  obtain ⟨-, ho⟩ := hshaped
  simp only at ho
  have hvolume : (g.tensor op.output).volume = (g.tensor o.left).volume := by
    rw [hout, Tensor.volume, Tensor.volume, ho]
  simp only [element?, element, hop, hr, hat, (hfilled o.left (by simp)).read? (hvolume ▸ hj),
    (hfilled o.right (by simp)).read? hlt, Option.getD_some]
  rfl

/-- A normalization reads its input at the position and the other operands at
the channel. -/
theorem element?_normalize {o : Normalization} (hop : op.operation = .normalize o)
    (hj : j < (g.tensor op.output).volume) : g.element? v op j = some (g.element v op j) := by
  have hout : op.output = o.output := by rw [Operator.output, hop]; rfl
  simp only [Operator.inputs, hop, Operation.inputs] at hfilled hpos
  rw [hop] at hrescaled hshaped
  obtain ⟨rescale, hr⟩ := Option.isSome_iff_exists.1 hrescaled
  obtain ⟨hgain, hoffset, ho⟩ := hshaped
  simp only at hgain hoffset ho
  have hvolume : (g.tensor op.output).volume = (g.tensor o.input).volume := by
    rw [hout, Tensor.volume, Tensor.volume, ho]
  have hchannels : (g.tensor op.output).innermost = (g.tensor o.input).shape.innermost := by
    rw [hout, Tensor.innermost, ho]
  have hchannel : j % (g.tensor op.output).innermost < (g.tensor o.gain).volume ∧
      j % (g.tensor op.output).innermost < (g.tensor o.offset).volume := by
    have hlt : j % (g.tensor op.output).innermost < (g.tensor o.input).shape.innermost := by
      rw [hchannels]
      exact Nat.mod_lt j (hpos o.gain (by simp) _ (by rw [hgain]; simp))
    simpa [Tensor.volume, hgain, hoffset, Shape.volume] using hlt
  simp only [element?, element, hop, hr, (hfilled o.input (by simp)).read? (hvolume ▸ hj),
    (hfilled o.gain (by simp)).read? hchannel.1, (hfilled o.offset (by simp)).read? hchannel.2,
    Option.getD_some]
  rfl

omit hpos in
/-- An activation reads its input at the position. -/
theorem element?_activate {o : Rectification} (hop : op.operation = .activate o)
    (hj : j < (g.tensor op.output).volume) : g.element? v op j = some (g.element v op j) := by
  have hout : op.output = o.output := by rw [Operator.output, hop]; rfl
  simp only [Operator.inputs, hop, Operation.inputs] at hfilled
  rw [hop] at hrescaled hshaped
  obtain ⟨rescale, hr⟩ := Option.isSome_iff_exists.1 hrescaled
  simp only [Operation.Shaped] at hshaped
  have hvolume : (g.tensor op.output).volume = (g.tensor o.input).volume := by
    rw [hout, Tensor.volume, Tensor.volume, hshaped]
  simp only [element?, element, hop, hr, (hfilled o.input (by simp)).read? (hvolume ▸ hj),
    Option.getD_some]
  rfl

end Reads

/-- The evaluator gives the elements of the kernels, and the kernels read inside
of the operands. -/
structure Evaluates (g : Graph) (v : Valuation Int) (op : Operator) : Prop where
  result : g.operatorResult v op =
    .ok (Array.ofFn fun j : Fin (g.tensor op.output).volume => g.element v op j)
  reads : ∀ j < (g.tensor op.output).volume, g.element? v op j = some (g.element v op j)

/-- **The evaluator gives the elements of the kernels**, whatever the operator,
and without a read out of bounds. -/
theorem WellFormed.evaluates (hg : g.WellFormed) {i : OperatorId} (hi : i < g.operators.size)
    (hrescaled : (g.operator i).operation.isRescaled)
    (hfilled : ∀ id ∈ (g.operator i).inputs, g.Filled v id) : g.Evaluates v (g.operator i) := by
  have hshaped := hg.shaped i hi
  have hpos : ∀ id ∈ (g.operator i).inputs, (g.tensor id).shape.Positive := fun id hid =>
    hg.positive id (lt_trans (hg.operand_lt i hi id hid) (hg.output_lt i hi))
  constructor
  · have hoperands : List.Forall₂ (fun id values => v id = some values) (g.operator i).inputs
        ((g.operator i).inputs.map v.get) := by
      rw [List.forall₂_map_right_iff, List.forall₂_same]
      exact fun id hid => (hfilled id hid).eq_get.1
    have hkernel (j : Fin (g.tensor (g.operator i).output).volume) :
        g.kernelElement (g.operator i) ((g.operator i).inputs.map v.get) j =
          g.element v (g.operator i) j :=
      kernelElement_eq hshaped hpos hfilled j.isLt
    rw [operatorResult_eq hg hi hrescaled hoperands, funext hkernel]
  · intro j hj
    cases hop : (g.operator i).operation with
    | matmul o => exact element?_matmul hrescaled hshaped hfilled hop hj
    | add o => exact element?_add hrescaled hshaped hpos hfilled hop hj
    | normalize o => exact element?_normalize hrescaled hshaped hpos hfilled hop hj
    | activate o => exact element?_activate hrescaled hshaped hfilled hop hj

/-- Every element of a kernel is of the element type of the result. -/
theorem contains_element (g : Graph) (v : Valuation Int) (op : Operator) (j : Nat) :
    (g.tensor op.output).element.Contains (g.element v op j) := by
  unfold element
  cases op.operation <;> exact ElementType.contains_saturate _ _

/-- A result has one value for each element, whatever the operands are. -/
theorem size_of_operatorResult {values : Array Int} (h : g.operatorResult v op = .ok values) :
    values.size = (g.tensor op.output).volume := by
  unfold operatorResult at h
  split at h <;> simp only [bind_ok_iff, pure_ok_iff] at h
  · obtain ⟨rescale, -, bias, -, left, -, right, -, rfl⟩ := h
    exact Array.size_ofFn
  · obtain ⟨rescale, -, left, -, right, -, rfl⟩ := h
    exact Array.size_ofFn
  · obtain ⟨rescale, -, input, -, gain, -, offset, -, rfl⟩ := h
    exact Array.size_ofFn
  · obtain ⟨rescale, -, input, -, rfl⟩ := h
    exact Array.size_ofFn

/-- Every tensor of a graph that was evaluated has one value for each
element. -/
theorem Assigned.filled (h : g.Assigned inputs v) (hg : g.WellFormed) (hq : g.Quantized)
    (hinputs : ∀ id ∈ g.placeholders, g.Filled inputs id) {id : TensorId}
    (hid : id < g.tensors.size) :
    g.Filled v id := by
  by_cases hkind : (g.tensor id).kind.isResult
  · obtain ⟨i, hi, rfl⟩ := (hg.result_iff id hid).1 hkind
    obtain ⟨values, hv, hresult⟩ := h.result i hi
    exact ⟨values, hv, size_of_operatorResult hresult⟩
  · rcases hg.outside hid hkind with hplaceholder | hparam
    · obtain ⟨values, hvalues, hsize⟩ := hinputs id hplaceholder
      exact ⟨values, by rw [h.placeholder id hplaceholder, hvalues], hsize⟩
    · obtain ⟨ints, hints, hsize, -⟩ := hq.ints id hid hparam
      exact ⟨ints, by rw [h.parameter id hid hparam, hints], hsize⟩

/-- Evaluation binds tensors of the graph only. -/
theorem evaluate_unbound (hg : g.WellFormed) (h : g.evaluate inputs = .ok v) {id : TensorId}
    (hid : g.tensors.size ≤ id) : v id = none := by
  have hbind {v : Valuation Int} {id' : TensorId} {values : Array Int} (hid' : id' < g.tensors.size)
      (hv : v id = none) : v.bind id' values id = none := by
    rw [Valuation.bind, if_neg (Nat.ne_of_gt (lt_of_lt_of_le hid' hid)), hv]
  simp only [evaluate, bind_ok_iff] at h
  obtain ⟨v₀, h₀, v₁, h₁, order, horder, h⟩ := h
  have hordered := ordered_of_order hg.operator_id horder
  have hv₀ : v₀ id = none := by
    refine foldlM_keeps (P := fun v : Valuation Int => v id = none)
      (fun v v' id' hmem hv hstep => ?_) rfl h₀
    simp only at hstep
    split at hstep
    · simp only [check_ok_iff, pure_ok_iff] at hstep
      obtain ⟨-, rfl⟩ := hstep
      exact hbind (hg.mem_idsWhere.1 hmem).1 hv
    · cases hstep
  have hv₁ : v₁ id = none := by
    refine foldlM_keeps (P := fun v : Valuation Int => v id = none)
      (fun v v' t hmem hv hstep => ?_) hv₀ h₁
    split at hstep
    · split at hstep
      · obtain rfl := pure_ok_iff.1 hstep
        exact hbind (hg.tensor_of_mem hmem).1 hv
      · cases hstep
    · exact pure_ok_iff.1 hstep ▸ hv
  refine foldlM_keeps (P := fun v : Valuation Int => v id = none)
    (fun v v' i hmem hv hstep => ?_) hv₁ h
  obtain ⟨values, -, hstep⟩ := bind_ok_iff.1 hstep
  obtain rfl := pure_ok_iff.1 hstep
  exact hbind (hg.output_lt i (hordered.mem_iff.1 hmem)) hv

/-- **Values that evaluation assigns solve the equations.** -/
theorem Assigned.solution (h : g.Assigned inputs v) (hg : g.WellFormed) (hq : g.Quantized)
    (hinputs : ∀ id ∈ g.placeholders, g.Filled inputs id)
    (hunbound : ∀ id, g.tensors.size ≤ id → v id = none) : g.Solution inputs v := by
  refine ⟨h.placeholder, h.parameter, fun i hi => ?_, hunbound⟩
  obtain ⟨values, hv, hresult⟩ := h.result i hi
  have heval := hg.evaluates hi (hq.rescaled i hi) fun id hid =>
    h.filled hg hq hinputs (lt_trans (hg.operand_lt i hi id hid) (hg.output_lt i hi))
  have hsize := size_of_operatorResult hresult
  obtain rfl := Except.ok.inj (heval.result.symm.trans hresult)
  refine ⟨_, hv, hsize, fun j hj => ?_⟩
  have hj' := hsize ▸ hj
  exact ⟨by simp [hj'], heval.reads j hj'⟩

/-- **Quantized evaluation.** On inputs with one integer for each element of a
placeholder, and whatever else they bind, evaluation succeeds. What it gives
solves the equations of the graph, in which no kernel reads out of bounds, and
nothing else does. Results and parameters have one value for each element, all
of them of the element type. -/
theorem evaluate_eq_solution (hg : g.Finished) (hq : g.quantize ranges = .ok q)
    (hinputs : ∀ id ∈ q.placeholders, ∃ values, inputs id = some values ∧
      values.size = (q.tensor id).volume) :
    ∃ v, q.evaluate inputs = .ok v ∧ q.Solution inputs v ∧ (∀ v', q.Solution inputs v' → v' = v) ∧
      ∀ id < q.tensors.size, (q.tensor id).kind.isResult ∨ (q.tensor id).kind.isParameter →
        ∃ values, v id = some values ∧ values.size = (q.tensor id).volume ∧
          ∀ x ∈ values, (q.tensor id).element.Contains x := by
  obtain ⟨hdecl, hquantized⟩ := quantize_spec hg.wellFormed hq
  have hwell := (sameDeclaration hdecl).wellFormed hg.wellFormed
  obtain ⟨order, horder⟩ := hwell.exists_order
  obtain ⟨v, hv, hassigned⟩ := evaluate_ok hwell hquantized horder hinputs
  have hsolution := hassigned.solution hwell hquantized hinputs fun id hid =>
    evaluate_unbound hwell hv hid
  refine ⟨v, hv, hsolution, fun v' h' => hsolution.unique hwell h', fun id hid hkind => ?_⟩
  rcases hkind with hresult | hparam
  · obtain ⟨i, hi, rfl⟩ := (hwell.result_iff id hid).1 hresult
    obtain ⟨values, hvalues, hsize, hall⟩ := hsolution.result i hi
    refine ⟨values, hvalues, hsize, fun x hx => ?_⟩
    obtain ⟨j, hj, rfl⟩ := Array.mem_iff_getElem.1 hx
    have hat := (hall j hj).1
    rw [Array.getElem?_eq_getElem hj, Option.some.injEq] at hat
    rw [hat]
    exact contains_element q v (q.operator i) j
  · obtain ⟨ints, hints, hsize, hcontains⟩ := hquantized.ints id hid hparam
    exact ⟨ints, by rw [hsolution.parameter id hid hparam, hints], hsize, hcontains⟩

/-- Six elements for the placeholder of the dense layer, and values for a tensor
that it does not have. -/
def denseInputs : Valuation Int := fun id =>
  if id = 0 then some #[10, -20, 30, 127, 5, -128] else if id = 99 then some #[1] else none

/-- The dense layer, quantized, with its values. -/
def denseValues : Except CompileError (Graph × Valuation Int) := do
  let g ← (build denseCalls).finish.outcome.mapError .graph
  let q ← g.quantize denseRanges
  return (q, ← (q.evaluate denseInputs).mapError .graph)

theorem evaluate_eq_solution_dense : ∃ (g q : Graph) (v : Valuation Int), Finished g ∧
    g.quantize denseRanges = .ok q ∧ q.evaluate denseInputs = .ok v ∧ q.Solution denseInputs v ∧
    (∀ v', q.Solution denseInputs v' → v' = v) ∧ v 4 = some #[14, 0, 0, 40] ∧ v 99 = none := by
  have hvalues : (denseValues.toOption.any fun r => decide (r.1.placeholders = [0] ∧
      (r.1.tensor 0).volume = 6 ∧ r.2 4 = some #[14, 0, 0, 40] ∧ r.2 99 = none)) = true := by
        decide +kernel
  obtain ⟨⟨q, v⟩, hrun, hvalues⟩ := (Option.any_eq_true _ _).1 hvalues
  rw [toOption_eq_some_iff] at hrun
  simp only [denseValues, bind_ok_iff, mapError_ok_iff, pure_ok_iff] at hrun
  obtain ⟨g, hfinish, q', hq, v', hv, heq⟩ := hrun
  obtain ⟨rfl, rfl⟩ := Prod.mk.inj heq
  obtain ⟨hplaceholders, hvolume, hz, hfree⟩ := of_decide_eq_true hvalues
  have hinputs (id : TensorId) (hid : id ∈ q'.placeholders) :
      ∃ values, denseInputs id = some values ∧ values.size = (q'.tensor id).volume := by
    rw [hplaceholders, List.mem_singleton] at hid
    exact ⟨#[10, -20, 30, 127, 5, -128], by rw [hid]; rfl, by rw [hid, hvolume]; rfl⟩
  obtain ⟨v', hv', hsolution, hunique, -⟩ := evaluate_eq_solution ⟨_, hfinish⟩ hq hinputs
  obtain rfl := Except.ok.inj (hv'.symm.trans hv)
  exact ⟨g, q', v', ⟨_, hfinish⟩, hq, hv, hsolution, hunique, hz, hfree⟩

end Graph

end QuantAccel
