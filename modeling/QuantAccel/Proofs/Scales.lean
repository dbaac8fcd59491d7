import QuantAccel.Proofs.Evaluation

/-!
# Scales of a quantized graph

The scale of a result is provisional at first: the range of the result gives a
target, the target gives the operator its multipliers, and these realise a scale
of their own, which replaces the target. All scales can nevertheless be read off
the finished graph. An operator is settled when its multipliers and the scale of
its result follow, by formulas, from the scales of its operands. The walk
settles one operator at a time, and what is settled stays so: no operator writes
a tensor that one before it reads or writes.
-/

namespace QuantAccel

/-! ## Multipliers as formulas -/

/-- The slope that an activation has below zero, if it is leaky. -/
def Activation.slope? : Activation → Option Float
  | relu => none
  | leakyRelu slope => some slope

/-- The multipliers around an accumulator of scale `acc` for a result of scale
`target`: each is the one of its ratio. There is one for a bias if there is a
bias, and one for a slope if the activation is leaky. -/
structure Rescale.Realises (r : Rescale) (target acc : Float) (bias : Option Float)
    (activation : Option Activation) : Prop where
  out : Multiplier.ofRatio? (target / acc) = some r.out
  bias : r.bias.map some = bias.map fun scale => Multiplier.ofRatio? (acc / scale)
  slope : r.slope.map some = (activation.bind Activation.slope?).map Multiplier.ofRatio?

/-- Bits of a shift that leave a factor of this ratio room in a 64-bit word. -/
def sumHeadroom (ratio : Float) : Nat :=
  match Binary64.positive? ratio with
  | some (significand, exponent) => (62 - Binary64.ceilLog2 significand exponent).toNat
  | none => 62

/-- The scale that a sum has when its left factor brings an operand of scale
`left` to it. -/
def PairRescale.realised (r : PairRescale) (left : Float) : Float :=
  Float.ofInt r.left / Binary64.powerOfTwo r.shift * left

/-- The factors of a sum of operands of the scales `left` and `right` for a
result of scale `target`. -/
structure PairRescale.Realises (r : PairRescale) (target left right : Float) : Prop where
  finite : (Binary64.maximum (target / left) (target / right)).isFinite
  bounded : ¬Binary64.maximum (target / left) (target / right) ≥ Binary64.powerOfTwo 62
  shift_eq : ∃ precise, Multiplier.shiftFor (Binary64.minimum (target / left) (target / right)) =
    some precise ∧
    r.shift = min precise (sumHeadroom (Binary64.maximum (target / left) (target / right)))
  left_eq : r.left = Binary64.toWord64 .nearest (target / left * Binary64.powerOfTwo r.shift)
  left_ne_zero : r.left ≠ 0
  right_eq : r.right =
    Binary64.toWord64 .nearest (r.realised left / right * Binary64.powerOfTwo r.shift)

section Formulas

variable {name : String} {target acc realised : Float} {activation : Option Activation}

theorem ratioMultiplier_ok_iff {role : RatioRole} {ratio : Float} {m : Multiplier} :
    ratioMultiplier name role ratio = .ok m ↔ Multiplier.ofRatio? ratio = some m := by
  unfold ratioMultiplier
  cases Multiplier.ofRatio? ratio <;> simp

theorem slopeMultiplier_ok {slope : Option Multiplier}
    (h : slopeMultiplier name activation = .ok slope) :
    slope.map some = (activation.bind Activation.slope?).map Multiplier.ofRatio? := by
  unfold slopeMultiplier at h
  split at h
  · obtain ⟨m, hm, rfl⟩ := map_ok_iff.1 h
    simp [Activation.slope?, ratioMultiplier_ok_iff.1 hm]
  · rename_i hleaky
    obtain rfl := Except.ok.inj h
    cases activation with
    | none => rfl
    | some f =>
      cases f with
      | relu => rfl
      | leakyRelu slope => exact absurd rfl (hleaky slope)

theorem accumulatorRescale_ok {bias : Option (RatioRole × Float)} {r : Rescale}
    (h : accumulatorRescale name target acc bias activation = .ok (r, realised)) :
    r.Realises target acc (bias.map Prod.snd) activation ∧ realised = r.out.ratio * acc := by
  unfold accumulatorRescale at h
  cases bias with
  | none =>
    simp only [bind_ok_iff, pure_ok_iff, ratioMultiplier_ok_iff, Prod.mk.injEq] at h
    obtain ⟨out, hout, _, rfl, slope, hslope, rfl, rfl⟩ := h
    exact ⟨⟨hout, rfl, slopeMultiplier_ok hslope⟩, rfl⟩
  | some bias =>
    simp only [bind_ok_iff, map_ok_iff, pure_ok_iff, ratioMultiplier_ok_iff, Prod.mk.injEq] at h
    obtain ⟨out, hout, _, ⟨m, hm, rfl⟩, slope, hslope, rfl, rfl⟩ := h
    exact ⟨⟨hout, by simp [hm], slopeMultiplier_ok hslope⟩, rfl⟩

theorem sumRescale_ok {left right : Float} {r : PairRescale}
    (h : sumRescale name target left right = .ok (r, realised)) :
    r.Realises target left right ∧ realised = r.realised left := by
  simp only [sumRescale] at h
  split at h
  · rename_i precise hprecise
    simp only [check_ok_iff, pure_ok_iff, Prod.mk.injEq] at h
    obtain ⟨hlarger, hfactor, rfl, rfl⟩ := h
    simp only [Bool.or_eq_true, Bool.not_eq_true', decide_eq_true_eq, not_or,
      Bool.not_eq_false] at hlarger
    exact ⟨⟨hlarger.1, hlarger.2, ⟨precise, hprecise, rfl⟩, rfl, hfactor, rfl⟩, rfl⟩
  · cases h

end Formulas

/-- A result has no values of its own. -/
theorem TensorKind.values?_of_isResult {k : TensorKind} (h : k.isResult) : k.values? = none := by
  cases k <;> first | rfl | cases h

namespace Graph

variable {g g' g₁ q : Graph} {ranges : ValueRanges} {op : Operator} {order : List OperatorId}

/-! ## Settled operators -/

/-- The parameters that the range of a result gives: the declared range, or else
the propagated one. -/
def targetQuant (g : Graph) (ranges : ValueRanges) (op : Operator) :
    Except CompileError QuantParams :=
  let out := g.tensor op.output
  match ranges.lookup out.name with
  | some r => QuantParams.declared out.name out.element r
  | none => QuantParams.fullWidth out.name out.element (g.propagatedRange op.operation) .propagated

/-- The multipliers of an operation are those of the scales of its operands and
of a target for its result, and they realise the scale `realised`. -/
def Rescales (g : Graph) (target realised : Float) : Operation → Prop
  | .matmul o => ∃ r, o.rescale = some r ∧
    r.Realises target (g.scaleOf o.left * g.scaleOf o.right) (o.bias.map g.scaleOf) o.activation ∧
    realised = r.out.ratio * (g.scaleOf o.left * g.scaleOf o.right)
  | .add o => ∃ r, o.rescale = some r ∧ r.Realises target (g.scaleOf o.left) (g.scaleOf o.right) ∧
    realised = Float.ofInt r.left / Binary64.powerOfTwo r.shift * g.scaleOf o.left
  | .normalize o => ∃ r, o.rescale = some r ∧
    r.Realises target (g.scaleOf o.input * g.scaleOf o.gain)
      (some (g.scaleOf o.offset)) o.activation ∧
    realised = r.out.ratio * (g.scaleOf o.input * g.scaleOf o.gain)
  | .activate o => ∃ r, o.rescale = some r ∧
    r.Realises target (g.scaleOf o.input) none (some o.activation) ∧
    realised = r.out.ratio * g.scaleOf o.input

/-- An operator whose multipliers, and the scale of whose result, follow from
the scales of the operands. -/
structure Settled (g : Graph) (ranges : ValueRanges) (op : Operator) (params : QuantParams)
    (realised : Float) : Prop where
  target : g.targetQuant ranges op = .ok params
  quant : (g.tensor op.output).quant = some { params with scale := realised }
  rescales : g.Rescales params.scale realised op.operation

theorem rangeOf_congr {id : TensorId} (h : (g'.tensor id).quant = (g.tensor id).quant) :
    g'.rangeOf id = g.rangeOf id := by
  rw [rangeOf, rangeOf, h]

theorem scaleOf_of_quant {id : TensorId} {params : QuantParams}
    (h : (g.tensor id).quant = some params) :
    g.scaleOf id = params.scale := by
  rw [scaleOf, Tensor.scale?, h, Option.map_some, Option.getD_some]

theorem scaleOf_congr {id : TensorId} (h : (g'.tensor id).quant = (g.tensor id).quant) :
    g'.scaleOf id = g.scaleOf id := by
  rw [scaleOf, scaleOf, Tensor.scale?, Tensor.scale?, h]

/-- A propagated range is a matter of the operands. -/
theorem propagatedRange_congr {o : Operation}
    (hshape : ∀ id, (g'.tensor id).shape = (g.tensor id).shape)
    (h : ∀ id ∈ o.inputs, (g'.tensor id).quant = (g.tensor id).quant) :
    g'.propagatedRange o = g.propagatedRange o := by
  have hmagnitude (id : TensorId) (hid : id ∈ o.inputs) : g'.magnitudeOf id = g.magnitudeOf id := by
    rw [magnitudeOf, magnitudeOf, rangeOf_congr (h id hid)]
  cases o with
  | matmul o =>
    simp only [Operation.inputs] at hmagnitude
    cases hb : o.bias with
    | none =>
      simp only [propagatedRange, Tensor.innermost, hshape, hb, hmagnitude o.left (by simp),
        hmagnitude o.right (by simp)]
    | some id =>
      simp only [propagatedRange, Tensor.innermost, hshape, hb, hmagnitude o.left (by simp),
        hmagnitude o.right (by simp), hmagnitude id (by simp [hb])]
  | add o =>
    simp only [Operation.inputs] at h
    simp only [propagatedRange, rangeOf_congr (h o.left (by simp)),
      rangeOf_congr (h o.right (by simp))]
  | normalize o =>
    simp only [Operation.inputs] at hmagnitude
    simp only [propagatedRange, hmagnitude o.input (by simp), hmagnitude o.gain (by simp),
      hmagnitude o.offset (by simp)]
  | activate o =>
    simp only [Operation.inputs] at h
    simp only [propagatedRange, rangeOf_congr (h o.input (by simp))]

theorem propagatedRange_unscaled (g : Graph) (o : Operation) :
    g.propagatedRange o.unscaled = g.propagatedRange o := by
  cases o <;> rfl

/-- Multipliers are a matter of the scales of the operands. -/
theorem Rescales.congr {o : Operation} {target realised : Float}
    (h : ∀ id ∈ o.inputs, (g'.tensor id).quant = (g.tensor id).quant)
    (hr : g.Rescales target realised o) :
    g'.Rescales target realised o := by
  have hscale (id : TensorId) (hid : id ∈ o.inputs) : g'.scaleOf id = g.scaleOf id :=
    scaleOf_congr (h id hid)
  cases o with
  | matmul o =>
    simp only [Operation.inputs] at hscale
    have hbias : o.bias.map g'.scaleOf = o.bias.map g.scaleOf :=
      Option.map_congr fun id hid => hscale id (by simp [Option.mem_def.1 hid])
    simpa only [Rescales, hscale o.left (by simp), hscale o.right (by simp), hbias] using hr
  | add o =>
    simp only [Operation.inputs] at hscale
    simpa only [Rescales, hscale o.left (by simp), hscale o.right (by simp)] using hr
  | normalize o =>
    simp only [Operation.inputs] at hscale
    simpa only [Rescales, hscale o.input (by simp), hscale o.gain (by simp),
      hscale o.offset (by simp)]
      using hr
  | activate o =>
    simp only [Operation.inputs] at hscale
    simpa only [Rescales, hscale o.input (by simp)] using hr

theorem targetQuant_congr (hsame : SameDeclaration g g')
    (h : ∀ id ∈ op.inputs, (g'.tensor id).quant = (g.tensor id).quant) :
    g'.targetQuant ranges op = g.targetQuant ranges op := by
  simp only [targetQuant, hsame.name, hsame.element, propagatedRange_congr hsame.shape h]

/-- **A settled operator stays settled** as long as its operands and its result
keep their parameters. -/
theorem Settled.congr {params : QuantParams} {realised : Float}
    (h : g.Settled ranges op params realised) (hsame : SameDeclaration g g')
    (hout : (g'.tensor op.output).quant = (g.tensor op.output).quant)
    (hin : ∀ id ∈ op.inputs, (g'.tensor id).quant = (g.tensor id).quant) :
    g'.Settled ranges op params realised where
  target := (targetQuant_congr hsame hin).trans h.target
  quant := hout.trans h.quant
  rescales := h.rescales.congr hin

/-! ## One operator -/

/-- The multipliers that an operator is given are those of the formulas. -/
theorem rescaled_rescales {op' : Operator} {realised : Float}
    (h : g.rescaled op = .ok (op', realised)) :
    g.Rescales (g.scaleOf op.output) realised op'.operation := by
  simp only [rescaled] at h
  split at h
  · obtain ⟨⟨r, scale⟩, hr, h⟩ := bind_ok_iff.1 h
    obtain ⟨rfl, rfl⟩ := Prod.mk.inj (pure_ok_iff.1 h)
    obtain ⟨hrealises, hscale⟩ := accumulatorRescale_ok hr
    rw [Option.map_map] at hrealises
    exact ⟨r, rfl, hrealises, hscale⟩
  · obtain ⟨⟨r, scale⟩, hr, h⟩ := bind_ok_iff.1 h
    obtain ⟨rfl, rfl⟩ := Prod.mk.inj (pure_ok_iff.1 h)
    exact ⟨r, rfl, sumRescale_ok hr⟩
  · obtain ⟨⟨r, scale⟩, hr, h⟩ := bind_ok_iff.1 h
    obtain ⟨rfl, rfl⟩ := Prod.mk.inj (pure_ok_iff.1 h)
    exact ⟨r, rfl, accumulatorRescale_ok hr⟩
  · obtain ⟨⟨r, scale⟩, hr, h⟩ := bind_ok_iff.1 h
    obtain ⟨rfl, rfl⟩ := Prod.mk.inj (pure_ok_iff.1 h)
    exact ⟨r, rfl, accumulatorRescale_ok hr⟩

/-- A result that is still as at first gets its target. -/
theorem withPropagated_target (hout : op.output < g.tensors.size)
    (hkind : (g.tensor op.output).kind.values? = none)
    (hinitial : (g.tensor op.output).initialQuant ranges = .ok (g.tensor op.output).quant)
    (h : g.withPropagated op = .ok g') :
    ∃ target, g.targetQuant ranges op = .ok target ∧ (g'.tensor op.output).quant = some target ∧
      ∀ id ≠ op.output, g'.tensor id = g.tensor id := by
  simp only [Tensor.initialQuant, hkind] at hinitial
  simp only [withPropagated] at h
  cases hlookup : ranges.lookup (g.tensor op.output).name with
  | some r =>
    rw [hlookup] at hinitial
    obtain ⟨target, htarget, hquant⟩ := map_ok_iff.1 hinitial
    rw [← hquant, Option.isSome_some, if_pos rfl, pure_ok_iff] at h
    exact ⟨target, by simp only [targetQuant, hlookup, htarget], h ▸ hquant.symm,
      fun id _ => by rw [h]⟩
  | none =>
    rw [hlookup] at hinitial
    rw [← Except.ok.inj hinitial, Option.isSome_none, if_neg Bool.false_ne_true] at h
    obtain ⟨target, htarget, h⟩ := bind_ok_iff.1 h
    obtain rfl := pure_ok_iff.1 h
    refine ⟨target, by simp only [targetQuant, hlookup, htarget], ?_, fun id hid => ?_⟩
    · rw [tensor_modify _ hout, if_pos rfl]
    · exact tensor_modifyTensor_of_ne hid

/-- What the multipliers of an operator do not change. -/
theorem targetQuant_eq_of_unscaled_eq (g : Graph) (ranges : ValueRanges) {op' : Operator}
    (h : op'.unscaled = op.unscaled) :
    op'.inputs = op.inputs ∧ op'.output = op.output ∧
      g.targetQuant ranges op' = g.targetQuant ranges op := by
  have hoperation : op'.operation.unscaled = op.operation.unscaled :=
    (congrArg Operator.operation h :)
  have hdeclared : op'.operation.declared = op.operation.declared := by
    rw [← Operation.declared_unscaled, hoperation, Operation.declared_unscaled]
  have hrange : g.propagatedRange op'.operation = g.propagatedRange op.operation := by
    rw [← propagatedRange_unscaled, hoperation, propagatedRange_unscaled]
  have hout : op'.output = op.output := by
    rw [Operator.output, Operator.output, ← Operation.output_declared, hdeclared,
      Operation.output_declared]
  refine ⟨?_, hout, by simp only [targetQuant, hout, hrange]⟩
  rw [Operator.inputs, Operator.inputs, ← Operation.inputs_declared, hdeclared,
    Operation.inputs_declared]

/-- **One operator is settled**, and no tensor but its result changes. -/
theorem quantizeOperator_settles {i : OperatorId} (hg : g.WellFormed) (hi : i < g.operators.size)
    (hinitial : (g.tensor (g.operator i).output).initialQuant ranges =
      .ok (g.tensor (g.operator i).output).quant)
    (h : g.quantizeOperator i = .ok g') :
    (∃ params realised, g'.Settled ranges (g'.operator i) params realised) ∧
      ∀ id ≠ (g.operator i).output, g'.tensor id = g.tensor id := by
  have hsame := sameDeclaration (declared_eq_of_unscaled_eq (quantizeOperator_ok hi h).1)
  unfold quantizeOperator at h
  obtain ⟨-, -, h⟩ := bind_ok_iff.1 h
  obtain ⟨g₁, h₁, h⟩ := bind_ok_iff.1 h
  obtain ⟨⟨op', realised⟩, hop', h⟩ := bind_ok_iff.1 h
  obtain rfl := pure_ok_iff.1 h
  have hout := hg.output_lt i hi
  obtain ⟨hsame₁, hops⟩ := withPropagated_ok h₁
  have hsize := (sameDeclaration (declared_eq_of_unscaled_eq hsame₁)).tensors_size
  obtain ⟨params, htarget, hquant, hothers⟩ :=
    withPropagated_target hout (TensorKind.values?_of_isResult (hg.isResult_output hi)) hinitial h₁
  obtain ⟨hin', hout', htarget'⟩ := targetQuant_eq_of_unscaled_eq g ranges (rescaled_ok hop').1
  have hne (id : TensorId) (hid : id ∈ op'.inputs) : id ≠ (g.operator i).output :=
    Nat.ne_of_lt (hg.operand_lt i hi id (hin' ▸ hid))
  refine ⟨⟨params, realised, ?_⟩, fun id hid => ?_⟩
  · rw [operator_modifyTensor, operator_modifyOperator_self (hops ▸ hi)]
    constructor
    · rw [targetQuant_congr hsame fun id hid => ?_, htarget', htarget]
      rw [tensor_modifyTensor_of_ne (hne id hid), tensor_modifyOperator, hothers id (hne id hid)]
    · rw [hout', tensor_modify _ (hsize ▸ hout), if_pos rfl]
      simp only [tensor_modifyOperator, hquant, Option.map_some]
    · refine (scaleOf_of_quant hquant ▸ rescaled_rescales hop').congr fun id hid => ?_
      rw [tensor_modifyTensor_of_ne (hne id hid), tensor_modifyOperator]
  · rw [tensor_modifyTensor_of_ne hid, tensor_modifyOperator, hothers id hid]

/-! ## The walk -/

/-- Each tensor gets the parameters of its own. -/
theorem initialQuant_withInitialQuant (h : g.withInitialQuant ranges = .ok g₁) :
    ∀ id < g₁.tensors.size, (g₁.tensor id).initialQuant ranges = .ok (g₁.tensor id).quant := by
  unfold withInitialQuant at h
  obtain ⟨tensors, hmap, h⟩ := bind_ok_iff.1 h
  obtain rfl := pure_ok_iff.1 h
  intro id hid
  have hall := mapM_ok_iff.1 hmap
  have hid₁ : id < tensors.length := by simpa using hid
  have hid₀ : id < g.tensors.toList.length := hall.length_eq ▸ hid₁
  obtain ⟨quant, hquant, ht⟩ := bind_ok_iff.1 (hall.get hid₀ hid₁)
  have hat : tensor { g with tensors := tensors.toArray } id = tensors.get ⟨id, hid₁⟩ := by
    simp [tensor, Array.getD_eq_getD_getElem?, hid₁]
  rw [hat, ← pure_ok_iff.1 ht]
  exact hquant

/-- The state of the walk after some operators: these are settled, and tensors
that they do not write are as at first. -/
structure Walked (g₁ : Graph) (ranges : ValueRanges) (before : List OperatorId)
    (g : Graph) : Prop where
  unscaled : g.unscaled = g₁.unscaled
  untouched : ∀ id, (∀ i ∈ before, (g₁.operator i).output ≠ id) → g.tensor id = g₁.tensor id
  settled : ∀ i ∈ before, ∃ params realised, g.Settled ranges (g.operator i) params realised

theorem Walked.sameDeclaration {before : List OperatorId} (h : g₁.Walked ranges before g) :
    SameDeclaration g₁ g :=
  Graph.sameDeclaration (declared_eq_of_unscaled_eq h.unscaled)

/-- **One step of the walk.** The operators before stay settled, since the one
that is settled now writes neither their operands nor their results. -/
theorem Walked.step {before after : List OperatorId} {i : OperatorId}
    (h : g₁.Walked ranges before g) (hg₁ : g₁.WellFormed) (hordered : g₁.Ordered order)
    (hinitial : ∀ id < g₁.tensors.size, (g₁.tensor id).initialQuant ranges =
      .ok (g₁.tensor id).quant)
    (hsplit : order = before ++ i :: after) (hstep : g.quantizeOperator i = .ok g') :
    g₁.Walked ranges (before ++ [i]) g' := by
  have hsame := h.sameDeclaration
  have hi₁ := hordered.lt_of_split hsplit
  have hi : i < g.operators.size := hsame.operators_size ▸ hi₁
  have hfresh {j : OperatorId} (hj : j ∈ before) := hordered.fresh hg₁ hsplit hj
  have hout : (g.tensor (g.operator i).output).initialQuant ranges =
      .ok (g.tensor (g.operator i).output).quant := by
    rw [hsame.output, h.untouched _ fun j hj => (hfresh hj).1]
    exact hinitial _ (hg₁.output_lt i hi₁)
  obtain ⟨hunscaled, -, hops⟩ := quantizeOperator_ok hi hstep
  obtain ⟨hsettled, htensors⟩ := quantizeOperator_settles (hsame.wellFormed hg₁) hi hout hstep
  rw [hsame.output] at htensors
  refine ⟨hunscaled.trans h.unscaled, fun id hid => ?_, fun j hj => ?_⟩
  · rw [htensors id (hid i (by simp)).symm]
    exact h.untouched id fun j hj => hid j (List.mem_append_left _ hj)
  · rcases List.mem_append.1 hj with hj | hj
    · obtain ⟨hwritten, hread⟩ := hfresh hj
      obtain ⟨params, realised, hold⟩ := h.settled j hj
      rw [hops j fun heq => hwritten (by rw [heq])]
      refine ⟨params, realised,
        hold.congr (Graph.sameDeclaration (declared_eq_of_unscaled_eq hunscaled)) ?_ ?_⟩
      · rw [hsame.output, htensors _ hwritten]
      · intro id hid
        rw [hsame.inputs] at hid
        rw [htensors id fun heq => hread (heq ▸ hid)]
    · rw [List.mem_singleton.1 hj]
      exact hsettled

/-- **The walk along an order.** If it goes through, all operators are settled;
if it stops, then at an operator up to which all were. -/
theorem walk_outcome (hg₁ : g₁.WellFormed) (hordered : g₁.Ordered order)
    (hinitial : ∀ id < g₁.tensors.size, (g₁.tensor id).initialQuant ranges =
      .ok (g₁.tensor id).quant) :
    (∀ g, order.foldlM (fun g i => g.quantizeOperator i) g₁ = .ok g → g₁.Walked ranges order g) ∧
      ∀ e, order.foldlM (fun g i => g.quantizeOperator i) g₁ = .error e →
        ∃ before i after g, order = before ++ i :: after ∧ g₁.Walked ranges before g ∧
          g.quantizeOperator i = .error e :=
  foldlM_outcome (fun _ _ _ _ _ hsplit h hstep => h.step hg₁ hordered hinitial hsplit hstep)
    ⟨rfl, fun _ _ => rfl, by simp⟩

/-- A graph whose scales agree with each other: tensors from the outside have
the parameters of their own range, operators are settled, and parameters have
the integers of their scale. -/
structure Calibrated (q : Graph) (ranges : ValueRanges) : Prop where
  quantized : ∀ id < q.tensors.size, (q.tensor id).quant.isSome
  outside : ∀ id < q.tensors.size, ¬(q.tensor id).kind.isResult →
    (q.tensor id).initialQuant ranges = .ok (q.tensor id).quant
  settled : ∀ i < q.operators.size, ∃ params realised,
    q.Settled ranges (q.operator i) params realised
  ints : ∀ id < q.tensors.size, ∀ values params, (q.tensor id).kind.values? = some values →
    (q.tensor id).quant = some params → (q.tensor id).ints =
      some (values.map fun v => (q.tensor id).element.saturate (quantizeValue v params.scale))

/-- **Quantization makes the scales agree.** -/
theorem quantize_calibrated (hg : g.WellFormed) (h : g.quantize ranges = .ok q) :
    q.Calibrated ranges := by
  obtain ⟨-, -, hquantized⟩ := quantize_adds hg h
  unfold quantize at h
  simp only [bind_ok_iff, mapError_ok_iff, pure_ok_iff] at h
  obtain ⟨g₁, h₁, order, horder, g₂, h₂, -, -, rfl⟩ := h
  have hsame₁ := (unscaled_withInitialQuant h₁).trans (unscaled_unquantized g)
  have hg₁ := (sameDeclaration (declared_eq_of_unscaled_eq hsame₁)).wellFormed hg
  have hordered := ordered_of_order hg₁.operator_id horder
  have hinitial := initialQuant_withInitialQuant h₁
  have hwalked := (walk_outcome hg₁ hordered hinitial).1 g₂ h₂
  have hdecl₂ := hwalked.sameDeclaration
  -- the integers of the parameters change neither declarations nor scales
  obtain ⟨hsame, hquant⟩ := withParameterInts_spec g₂
  have hdecl := sameDeclaration (declared_eq_of_unscaled_eq hsame)
  refine ⟨hquantized, fun id hid hkind => ?_, fun i hi => ?_,
    fun id hid values params hvalues hparams => ?_⟩
  · rw [hdecl.tensors_size, hdecl₂.tensors_size] at hid
    rw [hdecl.kind, hdecl₂.kind] at hkind
    have huntouched := hwalked.untouched id fun i hi heq =>
      hkind (heq ▸ hg₁.isResult_output (hordered.mem_iff.1 hi))
    have hat := hinitial id hid
    rw [hquant, huntouched, ← hat]
    simp only [Tensor.initialQuant, hdecl.name, hdecl.kind, hdecl.element, huntouched]
  · obtain ⟨params, realised, hsettled⟩ := hwalked.settled i
      (hordered.mem_iff.2 (hdecl₂.operators_size ▸ hdecl.operators_size ▸ hi))
    exact ⟨params, realised, hsettled.congr hdecl (hquant _) fun id _ => hquant id⟩
  · rw [hdecl.kind] at hvalues
    rw [hquant] at hparams
    rw [hdecl.element, ints_withParameterInts (hdecl.tensors_size ▸ hid) hvalues hparams]

/-- **Scales of a quantized graph are consistent.** But for scales, integers and
multipliers it is the graph that it was. Every operator has the multipliers that
the formulas give from the scales of its operands, as they are in the end, and
from the target that the range of its result gives; its result has the scale
that they realise. The integers of a parameter are its values at its scale. -/
theorem scales_consistent (hg : g.Finished) (h : g.quantize ranges = .ok q) :
    q.unscaled = g.unscaled ∧
    (∀ id < q.tensors.size, (q.tensor id).scale? = some (q.scaleOf id)) ∧
    (∀ i < q.operators.size, ∃ params, q.targetQuant ranges (q.operator i) = .ok params ∧
      (q.tensor (q.operator i).output).quant =
        some { params with scale := q.scaleOf (q.operator i).output } ∧
      q.Rescales params.scale (q.scaleOf (q.operator i).output) (q.operator i).operation) ∧
    ∀ id < q.tensors.size, ∀ values, (q.tensor id).kind.values? = some values →
      (q.tensor id).initialQuant ranges = .ok (q.tensor id).quant ∧ (q.tensor id).ints =
        some (values.map fun v => (q.tensor id).element.saturate
          (quantizeValue v (q.scaleOf id))) := by
  have hq := quantize_calibrated hg.wellFormed h
  refine ⟨(quantize_adds hg.wellFormed h).1, fun id hid => ?_, fun i hi => ?_,
    fun id hid values hvalues => ?_⟩
  · obtain ⟨params, hparams⟩ := Option.isSome_iff_exists.1 (hq.quantized id hid)
    rw [scaleOf_of_quant hparams, Tensor.scale?, hparams, Option.map_some]
  · obtain ⟨params, realised, hsettled⟩ := hq.settled i hi
    rw [scaleOf_of_quant hsettled.quant]
    exact ⟨params, hsettled.target, hsettled.quant, hsettled.rescales⟩
  · obtain ⟨params, hparams⟩ := Option.isSome_iff_exists.1 (hq.quantized id hid)
    have hresult : ¬(q.tensor id).kind.isResult := fun hresult => by
      rw [TensorKind.values?_of_isResult hresult] at hvalues
      cases hvalues
    refine ⟨hq.outside id hid hresult, ?_⟩
    rw [hq.ints id hid values params hvalues hparams, scaleOf_of_quant hparams]

/-- A graph with an operator of every kind, leaky activations, and a range
declared for a result. -/
def mixedCalls : List BuildCall :=
  [.placeholder "x" [2, 3] .int32,
   .trained "w" [2, 3] .int32 #[0.5, -1, 2, 1, 0.25, -0.75],
   .fixed "b" [2] .int32 #[1, -2],
   .linear "h" 0 1 (some 2) (some (.leakyRelu 0.1)) .int32,
   .fixed "gain" [2] .int32 #[1, 0.5],
   .fixed "offset" [2] .int32 #[0.25, -0.25],
   .normalization "n" 3 4 5 (some .relu) .int32,
   .activation "a" 6 (.leakyRelu 0.2) .int32,
   .sum "s" 7 3 .int32,
   .output 8]

def mixedRanges : ValueRanges := [("x", ⟨-100, 100⟩), ("h", ⟨-60, 60⟩)]

/-- The mixed graph, quantized. -/
def mixedQuantized : Except CompileError Graph := do
  let g ← (build mixedCalls).finish.outcome.mapError .graph
  g.quantize mixedRanges

/-- No operator of the mixed graph realises its target exactly. -/
theorem scales_consistent_mixed : ∃ g q : Graph, Finished g ∧ g.quantize mixedRanges = .ok q ∧
    q.operators.size = 4 ∧ ∀ i < 4, ∃ params, q.targetQuant mixedRanges (q.operator i) =
      .ok params ∧
      params.scale.toBits ≠ (q.scaleOf (q.operator i).output).toBits ∧
      q.Rescales params.scale (q.scaleOf (q.operator i).output) (q.operator i).operation := by
  have hrun : (mixedQuantized.toOption.any fun q => decide (q.operators.size = 4 ∧ ∀ i < 4,
      ((q.targetQuant mixedRanges (q.operator i)).toOption.all fun params =>
        params.scale.toBits != (q.scaleOf (q.operator i).output).toBits) = true)) = true := by
    decide +kernel
  obtain ⟨q, hq, hrun⟩ := (Option.any_eq_true _ _).1 hrun
  obtain ⟨hsize, hdiffers⟩ := of_decide_eq_true hrun
  simp only [toOption_eq_some_iff, mixedQuantized, bind_ok_iff, mapError_ok_iff] at hq
  obtain ⟨g, hfinish, hq⟩ := hq
  refine ⟨g, q, ⟨_, hfinish⟩, hq, hsize, fun i hi => ?_⟩
  obtain ⟨params, htarget, -, hrescales⟩ := (scales_consistent ⟨_, hfinish⟩ hq).2.2.1 i (hsize ▸ hi)
  have hne := hdiffers i hi
  simp only [htarget, Except.toOption, Option.all_some, bne_iff_ne] at hne
  exact ⟨params, htarget, hne, hrescales⟩

end Graph

end QuantAccel
