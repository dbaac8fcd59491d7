import QuantAccel.Proofs.Scales
import QuantAccel.Proofs.Stages

/-!
# Compiling a design again

The graph of a design carries the scales, the parallelism, the layouts and the
addresses of the run that made it, and a second run of the compiler reads a
graph that has them all. It comes to the same design: quantization forgets the
scales it finds and reads nothing that the later stages add, scheduling sets the
parallelism of an operator without looking at the one it has, layouts are
functions of what scheduling has set, and the memory plan gives each tensor the
address that it has already.

Quantization takes more than one equation, since a step of it changes what the
next one reads. What a step reads are the scales of the tensors and the
declarations of the operators (`pending`); two runs that agree on them agree on
the multipliers of every operator that both have gone through.
-/

namespace QuantAccel

attribute [ext] Graph

/-! ## Nothing but what was erased -/

/-- A tensor is what it is without its layout, and without its scale. -/
theorem Tensor.eq_of_erased {t t' : Tensor} (hlogical : t'.logical = t.logical)
    (hunscaled : t'.unscaled = t.unscaled) : t' = t := by
  cases t
  cases t'
  simp only [logical, unscaled, Tensor.mk.injEq] at hlogical hunscaled ⊢
  simp only [hlogical, hunscaled, and_self]

/-- An operation is what it is without its factors, and without its
multipliers. -/
theorem Operation.eq_of_erased {o o' : Operation} (hlogical : o'.logical = o.logical)
    (hunscaled : o'.unscaled = o.unscaled) : o' = o := by
  -- an erasure keeps the kind of the operation
  cases o <;> cases o' <;> simp only [logical, unscaled, reduceCtorEq, matmul.injEq, add.injEq,
    normalize.injEq, activate.injEq, Matmul.mk.injEq, Addition.mk.injEq, Normalization.mk.injEq,
    Rectification.mk.injEq] at hlogical hunscaled ⊢
  case matmul.matmul o o' | add.add o o' | normalize.normalize o o' | activate.activate o o' =>
    cases o
    cases o'
    simp_all

theorem Operator.eq_of_erased {op op' : Operator} (hlogical : op'.logical = op.logical)
    (hunscaled : op'.unscaled = op.unscaled) : op' = op := by
  obtain ⟨i, name, operation⟩ := op
  obtain ⟨i', name', operation'⟩ := op'
  simp only [logical, unscaled, Operator.mk.injEq] at hlogical hunscaled ⊢
  exact ⟨hlogical.1, hlogical.2.1, Operation.eq_of_erased hlogical.2.2 hunscaled.2.2⟩

/-- Arrays are equal if two maps that lose different things cannot tell them
apart. -/
theorem array_eq_of_maps {α β γ : Type} {e : α → β} {e' : α → γ} {a a' : Array α}
    (heq : ∀ x x', e x' = e x → e' x' = e' x → x' = x) (h : a'.map e = a.map e)
    (h' : a'.map e' = a.map e') : a' = a := by
  have hsize : a'.size = a.size := by simpa using congrArg Array.size h
  refine Array.ext hsize fun i hi' hi => heq _ _ ?_ ?_
  · have hat := congrArg (fun b => b[i]?) h
    simpa [hi, hi'] using hat
  · have hat := congrArg (fun b => b[i]?) h'
    simpa [hi, hi'] using hat

namespace Graph

variable {g g' d q s : Graph} {ranges : ValueRanges} {requests : AttributeRequests}
    {c : HardwareConfig}

/-- **Scales and places are all that compilation adds.** -/
theorem eq_of_erased (hlogical : g'.logical = g.logical) (hunscaled : g'.unscaled = g.unscaled) :
    g' = g := by
  have htensors := array_eq_of_maps (fun _ _ => Tensor.eq_of_erased)
    (congrArg Graph.tensors hlogical)
    (congrArg Graph.tensors hunscaled)
  have hoperators := array_eq_of_maps (fun _ _ => Operator.eq_of_erased)
    (congrArg Graph.operators hlogical) (congrArg Graph.operators hunscaled)
  exact Graph.ext htensors hoperators (congrArg Graph.tensorNames hlogical :)
    (congrArg Graph.operatorNames hlogical :)

/-! ## Quantization -/

/-- The graph as a step of quantization reads it: the scales of its tensors, and
its operators as they were declared. -/
def pending (g : Graph) : Graph :=
  { g with tensors := g.tensors.map Tensor.logical, operators := g.operators.map Operator.declared }

/-- A step of quantization reads tensors without their layouts and places. -/
theorem tensor_pending (g : Graph) (id : TensorId) : g.pending.tensor id = (g.tensor id).logical :=
  g.tensor_logical id

/-- Before quantization a step reads the declaration and nothing else. -/
theorem pending_unquantized (g : Graph) : g.unquantized.pending = g.declared := by
  simp only [pending, unquantized, mapTensors, declared, Array.map_map]
  rfl

theorem declared_pending (g : Graph) : g.pending.declared = g.declared := by
  have htensor : Tensor.declared ∘ Tensor.logical = Tensor.declared := rfl
  have hoperator : Operator.declared ∘ Operator.declared = Operator.declared := by
    funext op
    obtain ⟨i, name, operation⟩ := op
    cases operation <;> rfl
  simp [declared, pending, htensor, hoperator]

/-- Graphs that are read alike have one declaration. -/
theorem declared_eq_of_pending_eq (h : g'.pending = g.pending) : g'.declared = g.declared := by
  rw [← declared_pending, h, declared_pending]

/-- A change that does not look at the layout can be made before or after the
layout is erased. -/
theorem pending_modifyTensor (g : Graph) (id : TensorId) {u : Tensor → Tensor}
    (hu : ∀ t, (u t).logical = u t.logical) :
    (g.modifyTensor id u).pending = g.pending.modifyTensor id u := by
  simp only [pending, modifyTensor]
  congr 1
  refine Array.ext_getElem? fun i => ?_
  simp only [Array.getElem?_map, Array.getElem?_modify]
  split
  · cases g.tensors[i]? with
    | none => rfl
    | some t => exact congrArg some (hu t)
  · rfl

/-- A change of an operator that keeps its declaration is not read. -/
theorem pending_modifyOperator {i : OperatorId} {op : Operator}
    (h : op.declared = (g.operator i).declared) :
    (g.modifyOperator i fun _ => op).pending = g.pending := by
  have hmap : (g.operators.modify i fun _ => op).map Operator.declared =
      g.operators.map Operator.declared :=
    map_modify_eq fun op' hop' => by rwa [operator_of_getElem? hop'] at h
  simp only [pending, modifyOperator, hmap]

theorem scaleOf_pending (g : Graph) : g.pending.scaleOf = g.scaleOf := by
  funext id
  rw [scaleOf, scaleOf, tensor_pending]
  rfl

theorem rangeOf_pending (g : Graph) : g.pending.rangeOf = g.rangeOf := by
  funext id
  rw [rangeOf, rangeOf, tensor_pending]
  rfl

/-- A propagated range is computed from what a step reads. -/
theorem propagatedRange_pending (g : Graph) (o : Operation) :
    g.pending.propagatedRange o.declared = g.propagatedRange o := by
  cases o with
  | matmul o =>
    simp only [propagatedRange, Operation.declared, magnitudeOf, rangeOf_pending, tensor_pending]
    rfl
  | add o | normalize o | activate o =>
    simp only [propagatedRange, Operation.declared, magnitudeOf, rangeOf_pending]

theorem checkOperands_pending (g : Graph) (op : Operator) :
    g.pending.checkOperands op.declared = g.checkOperands op := by
  simp only [checkOperands, Operator.inputs_declared, tensor_pending]
  rfl

/-- So is a step of the propagation. -/
theorem withPropagated_pending (g : Graph) (op : Operator) :
    g.pending.withPropagated op.declared = pending <$> g.withPropagated op := by
  have hquant : (g.tensor op.output).logical.quant = (g.tensor op.output).quant := rfl
  simp only [withPropagated, Operator.output_declared, tensor_pending, hquant]
  split
  · rfl
  · have hrange : g.pending.propagatedRange op.declared.operation =
        g.propagatedRange op.operation :=
      g.propagatedRange_pending op.operation
    have hname : (g.tensor op.output).logical.name = (g.tensor op.output).name := rfl
    have helement : (g.tensor op.output).logical.element = (g.tensor op.output).element := rfl
    rw [hrange, hname, helement]
    cases QuantParams.fullWidth (g.tensor op.output).name (g.tensor op.output).element
      (g.propagatedRange op.operation) .propagated with
    | error => rfl
    | ok quant =>
      have hmodify := pending_modifyTensor g op.output
        (u := fun t => { t with quant := some quant })
        fun _ => rfl
      exact congrArg Except.ok hmodify.symm

/-- The multipliers of an operator, and the scale that they realise. -/
theorem rescaled_pending (g : Graph) (op : Operator) :
    Prod.map Operator.logical id <$> g.pending.rescaled op.declared =
      Prod.map Operator.logical id <$> g.rescaled op := by
  simp only [rescaled, scaleOf_pending, Operator.output_declared]
  cases hop : op.operation with
  | matmul o =>
    simp only [Operator.declared, hop, Operation.declared]
    cases accumulatorRescale op.name (g.scaleOf op.output) (g.scaleOf o.left * g.scaleOf o.right)
      (o.bias.map fun id => (RatioRole.bias, g.scaleOf id)) o.activation <;> rfl
  | add o =>
    simp only [Operator.declared, hop, Operation.declared]
    cases sumRescale op.name (g.scaleOf op.output) (g.scaleOf o.left) (g.scaleOf o.right) <;> rfl
  | normalize o =>
    simp only [Operator.declared, hop, Operation.declared]
    cases accumulatorRescale op.name (g.scaleOf op.output) (g.scaleOf o.input * g.scaleOf o.gain)
      (some (RatioRole.offset, g.scaleOf o.offset)) o.activation <;> rfl
  | activate o =>
    simp only [Operator.declared, hop, Operation.declared]
    cases accumulatorRescale op.name (g.scaleOf op.output) (g.scaleOf o.input) none
      (some o.activation) <;> rfl

/-- So is the first pass over the tensors. -/
theorem withInitialQuant_pending (g : Graph) (ranges : ValueRanges) :
    g.pending.withInitialQuant ranges = pending <$> g.withInitialQuant ranges := by
  have htensors : g.pending.tensors.toList = g.tensors.toList.map Tensor.logical := by
    simp [pending]
  have hstep (t : Tensor) : (do
      let quant ← t.logical.initialQuant ranges
      return { t.logical with quant } : Except CompileError Tensor) =
      Tensor.logical <$> do
        let quant ← t.initialQuant ranges
        return { t with quant } := by
    have hinitial : t.logical.initialQuant ranges = t.initialQuant ranges := rfl
    rw [hinitial]
    cases t.initialQuant ranges <;> rfl
  rw [withInitialQuant, htensors, mapM_map_comm hstep, withInitialQuant]
  cases (g.tensors.toList.mapM fun t => do
      let quant ← t.initialQuant ranges
      return { t with quant } : Except CompileError (List Tensor)) with
  | error => rfl
  | ok tensors =>
    refine congrArg Except.ok ?_
    simp [pending]

theorem checkQuantized_pending (g : Graph) : g.pending.checkQuantized = g.checkQuantized := by
  have htensors : g.pending.tensors.toList = g.tensors.toList.map Tensor.logical := by
    simp [pending]
  have hfind : (g.tensors.toList.map Tensor.logical).find? (fun t => t.quant.isNone) =
      (g.tensors.toList.find? fun t => t.quant.isNone).map Tensor.logical := List.find?_map
  rw [checkQuantized, checkQuantized, htensors, hfind]
  cases g.tensors.toList.find? fun t => t.quant.isNone <;> rfl

theorem logical_withParameterInts (g : Graph) :
    g.withParameterInts.logical = g.logical.withParameterInts := by
  simp only [withParameterInts, mapTensors, logical, Array.map_map]
  congr 1
  refine Array.map_congr_left fun t _ => ?_
  obtain ⟨id, name, shape, element, kind, axes, quant, ints, layout, address⟩ := t
  cases kind <;> cases quant <;> rfl

/-- Graphs that are read alike, and whose operators have the same multipliers,
compute the same. -/
theorem logical_eq_of_pending_eq (h : g'.pending = g.pending)
    (hops : ∀ i < g.operators.size, (g'.operator i).logical = (g.operator i).logical) :
    g'.logical = g.logical := by
  have hsize := (sameDeclaration (declared_eq_of_pending_eq h)).operators_size
  have hoperators : g'.operators.map Operator.logical = g.operators.map Operator.logical := by
    refine Array.ext (by simp [hsize]) fun i hi hi' => ?_
    have hlt : i < g.operators.size := by simpa using hi'
    have hat := hops i hlt
    rw [operator_eq_getElem hlt, operator_eq_getElem (hsize ▸ hlt)] at hat
    simpa using hat
  exact Graph.ext (congrArg Graph.tensors h :) hoperators (congrArg Graph.tensorNames h :)
    (congrArg Graph.operatorNames h :)

/-- Rescaling keeps the declaration of an operator. -/
theorem rescaled_declared {op op' : Operator} {scale : Float}
    (h : g.rescaled op = .ok (op', scale)) :
    op'.declared = op.declared := by
  have herase (op : Operator) : op.unscaled.declared = op.declared := by
    simp [Operator.declared, Operator.unscaled, Operation.declared_unscaled]
  rw [← herase, (rescaled_ok h).1, herase]

/-- **A step of quantization** does the same to graphs that it reads the same
of: it fails alike, or leaves graphs that the next step reads the same of, with
the same multipliers. -/
theorem quantizeOperator_agree {i : OperatorId} (hi : i < g.operators.size)
    (hpending : g'.pending = g.pending) :
    Alike (fun q q' => q'.pending = q.pending ∧ (q'.operator i).logical = (q.operator i).logical)
      (g.quantizeOperator i) (g'.quantizeOperator i) := by
  have hsame := sameDeclaration (declared_eq_of_pending_eq hpending)
  have hop := hsame.operator i
  have hoperands : g'.checkOperands (g'.operator i) = g.checkOperands (g.operator i) := by
    rw [← checkOperands_pending, hpending, hop, checkOperands_pending]
  have hpropagated : pending <$> g'.withPropagated (g'.operator i) =
      pending <$> g.withPropagated (g.operator i) := by
    rw [← withPropagated_pending, hpending, hop, withPropagated_pending]
  unfold quantizeOperator
  refine (Alike.of_eq hoperands).bind fun _ _ _ _ _ => ?_
  refine (Alike.of_map_eq hpropagated).bind fun g₁ g₁' hg₁ hg₁' hpending₁ => ?_
  have hrescaled : Prod.map Operator.logical id <$> g₁'.rescaled (g'.operator i) =
      Prod.map Operator.logical id <$> g₁.rescaled (g.operator i) := by
    rw [← rescaled_pending, hpending₁, hop, rescaled_pending]
  refine (Alike.of_map_eq hrescaled).bind ?_
  rintro ⟨op, realised⟩ ⟨op', realised'⟩ hop₁ hop₁' hagree
  obtain ⟨hlogical, hrealised⟩ := Prod.mk.inj hagree
  obtain rfl : realised' = realised := hrealised
  refine .ok ⟨?_, ?_⟩
  · have hdeclared : op.declared = (g₁.operator i).declared := by
      rw [operator_congr (withPropagated_ok hg₁).2, rescaled_declared hop₁]
    have hdeclared' : op'.declared = (g₁'.operator i).declared := by
      rw [operator_congr (withPropagated_ok hg₁').2, rescaled_declared hop₁']
    have hscale (t : Tensor) :
        Tensor.logical { t with quant := t.quant.map ({ · with scale := realised' }) } =
        { t.logical with quant := t.logical.quant.map ({ · with scale := realised' }) } := rfl
    rw [pending_modifyTensor _ _ hscale, pending_modifyTensor _ _ hscale,
      pending_modifyOperator hdeclared, pending_modifyOperator hdeclared', hpending₁, hsame.output]
  · have hi₁ : i < g₁.operators.size := (withPropagated_ok hg₁).2 ▸ hi
    have hi₁' : i < g₁'.operators.size := by
      rw [(withPropagated_ok hg₁').2, hsame.operators_size]
      exact hi
    rw [operator_modifyTensor, operator_modifyTensor, operator_modifyOperator_self hi₁,
      operator_modifyOperator_self hi₁', hlogical]

/-- Two walks that have come through the same operators: their next steps read
the same, and the operators gone through have the same multipliers. -/
structure Abreast (size : Nat) (done : List OperatorId) (g g' : Graph) : Prop where
  size : g.operators.size = size
  pending : g'.pending = g.pending
  settled : ∀ i ∈ done, (g'.operator i).logical = (g.operator i).logical

/-- Two runs of the quantization that are abreast stay so: they both fail, or
one more operator agrees. -/
theorem Abreast.step {size : Nat} {done : List OperatorId} {i : OperatorId}
    (h : Abreast size done g g') (hi : i < size) :
    Alike (Abreast size (done ++ [i])) (g.quantizeOperator i) (g'.quantizeOperator i) := by
  have hi : i < g.operators.size := h.size ▸ hi
  have hi' : i < g'.operators.size :=
    (sameDeclaration (declared_eq_of_pending_eq h.pending)).operators_size ▸ hi
  refine (quantizeOperator_agree hi h.pending).imp fun q q' hq hq' hstep =>
    ⟨?_, hstep.1, fun j hj => ?_⟩
  · obtain ⟨hkeep, -, -⟩ := quantizeOperator_ok hi hq
    rw [(sameDeclaration (declared_eq_of_unscaled_eq hkeep)).operators_size, h.size]
  · by_cases hji : j = i
    · exact hji ▸ hstep.2
    · have hdone : j ∈ done := by simpa [hji] using hj
      rw [(quantizeOperator_ok hi hq).2.2 j hji, (quantizeOperator_ok hi' hq').2.2 j hji,
        h.settled j hdone]

/-- **Quantization is a function of the declared graph**, its errors included,
apart from the parallelism and the places that it finds and leaves. -/
theorem quantize_agree (hg : g.WellFormed) (hdecl : g'.declared = g.declared)
    (ranges : ValueRanges) :
    Alike (fun q q' => q'.logical = q.logical) (g.quantize ranges) (g'.quantize ranges) := by
  have hinitial : pending <$> g'.unquantized.withInitialQuant ranges =
      pending <$> g.unquantized.withInitialQuant ranges := by
    rw [← withInitialQuant_pending, pending_unquantized, hdecl, ← pending_unquantized,
      withInitialQuant_pending]
  unfold quantize
  refine (Alike.of_map_eq hinitial).bind fun g₁ g₁' h₁ _ hpending₁ => ?_
  have hdecl₁ : g₁.declared = g.declared := by
    rw [declared_eq_of_unscaled_eq (unscaled_withInitialQuant h₁),
      declared_eq_of_unscaled_eq (unscaled_unquantized g)]
  have horders : g₁'.order.mapError CompileError.graph = g₁.order.mapError CompileError.graph := by
    rw [order_eq_of_declared_eq (declared_eq_of_pending_eq hpending₁)]
  refine (Alike.of_eq horders).bind fun order order' horder _ heq => ?_
  subst heq
  have hordered := ordered_of_order ((sameDeclaration hdecl₁).wellFormed hg).operator_id
    (mapError_ok_iff.1 horder)
  -- both walks go through the operators in one order
  have hwalk : Alike (Abreast g₁.operators.size order')
      (order'.foldlM (fun g i => g.quantizeOperator i) g₁)
      (order'.foldlM (fun g i => g.quantizeOperator i) g₁') :=
    .foldlM (fun before i after a a' hsplit h =>
      h.step (hordered.mem_iff.1 (by simp [hsplit]))) ⟨rfl, hpending₁, by simp⟩
  refine hwalk.bind fun g₂ g₂' _ _ h₂ => ?_
  have hlogical₂ : g₂'.logical = g₂.logical := logical_eq_of_pending_eq h₂.pending fun i hi =>
    h₂.settled i (hordered.mem_iff.2 (h₂.size ▸ hi))
  have hcheck : g₂'.checkQuantized = g₂.checkQuantized := by
    rw [← checkQuantized_pending, h₂.pending, checkQuantized_pending]
  refine (Alike.of_eq hcheck).bind fun _ _ _ _ _ => .ok ?_
  rw [logical_withParameterInts, logical_withParameterInts, hlogical₂]

/-- **Quantization forgets the scales that it finds.** -/
theorem quantize_congr (hg : g.WellFormed) (h : g'.unscaled = g.unscaled) (ranges : ValueRanges) :
    g'.quantize ranges = g.quantize ranges := by
  have hagree := quantize_agree hg (declared_eq_of_unscaled_eq h) ranges
  cases hq : g.quantize ranges with
  | error e => exact hagree.eq_error hq
  | ok q =>
    obtain ⟨q', hq', hlogical⟩ := hagree.exists_ok hq
    have hg' := (sameDeclaration (declared_eq_of_unscaled_eq h)).wellFormed hg
    have hunscaled : q'.unscaled = q.unscaled := by
      rw [(quantize_adds hg' hq').1, h, (quantize_adds hg hq).1]
    rw [hq', eq_of_erased hlogical hunscaled]

/-- **Quantizing again changes nothing**, whatever the later stages have
added. -/
theorem quantize_again (hg : g.WellFormed) (h : g.quantize ranges = .ok q)
    (hlogical : d.logical = q.logical) :
    d.quantize ranges = .ok d := by
  have hdecl : d.declared = g.declared :=
    (declared_eq_of_logical_eq hlogical).trans (quantize_spec hg h).1
  obtain ⟨d', hd', hsame⟩ := (quantize_agree hg hdecl ranges).exists_ok h
  have hd := (sameDeclaration hdecl).wellFormed hg
  obtain rfl : d' = d := eq_of_erased (hsame.trans hlogical.symm) (quantize_adds hd hd').1
  exact hd'

/-- **Quantization forgets the scales that were there**, also in the events
that it notes. -/
theorem quantizeTraced_congr (hg : g.WellFormed) (h : g'.unscaled = g.unscaled)
    (ranges : ValueRanges) :
    g'.quantizeTraced ranges = g.quantizeTraced ranges := by
  have hnames : g'.tensorNames = g.tensorNames := (congrArg Graph.tensorNames h :)
  simp only [quantizeTraced, tensorNamed?, hnames, quantize_congr hg h]

/-- **Quantization forgets earlier quantization.** Graphs that differ from a
finished one in scales, integers and multipliers only, whatever these are, come
to the same graph or to the same error, with the same events. So what comes out
of quantization, quantized again, comes out again. -/
theorem quantize_forgets {b : Graph} (hb : b.Finished) (hg : g.unscaled = b.unscaled)
    (hg' : g'.unscaled = b.unscaled) (ranges : ValueRanges) :
    g'.quantize ranges = g.quantize ranges ∧ g'.quantizeTraced ranges = g.quantizeTraced ranges ∧
    ∀ q, g.quantize ranges = .ok q → q.quantize ranges = g.quantize ranges := by
  have hwell := (sameDeclaration (declared_eq_of_unscaled_eq hg)).wellFormed hb.wellFormed
  have hsame : g'.unscaled = g.unscaled := hg'.trans hg.symm
  refine ⟨quantize_congr hwell hsame ranges, quantizeTraced_congr hwell hsame ranges,
    fun q hq => ?_⟩
  exact quantize_congr hwell (quantize_adds hwell hq).1 ranges

/-- The mixed graph with the scales and multipliers of other ranges: they are
forgotten, whether the ranges fit or one is missing. -/
theorem quantize_forgets_mixed : ∃ b stale q : Graph, Finished b ∧
    b.quantize [("x", ⟨-7, 7⟩)] = .ok stale ∧ stale.unscaled = b.unscaled ∧
    (stale.scaleOf 8).toBits ≠ (q.scaleOf 8).toBits ∧
    b.quantize mixedRanges = .ok q ∧ stale.quantize mixedRanges = .ok q ∧
      q.quantize mixedRanges = .ok q ∧
    ∃ e, b.quantize [] = .error e ∧ stale.quantize [] = .error e := by
  have hrun : ((build mixedCalls).finish.outcome.toOption.any fun b =>
      (b.quantize [("x", ⟨-7, 7⟩)]).toOption.any fun stale =>
        (b.quantize mixedRanges).toOption.any fun q =>
        !(b.quantize []).isOk && (stale.scaleOf 8).toBits != (q.scaleOf 8).toBits) = true := by
    decide +kernel
  simp only [Option.any_eq_true, toOption_eq_some_iff, Bool.and_eq_true, bne_iff_ne] at hrun
  obtain ⟨b, hfinish, stale, hstale, q, hq, hmissing, hscale⟩ := hrun
  have hb : Finished b := ⟨_, hfinish⟩
  have hunscaled := (quantize_adds hb.wellFormed hstale).1
  have hforgets := quantize_forgets hb rfl hunscaled
  obtain ⟨hagain, -, hfixed⟩ := hforgets mixedRanges
  refine ⟨b, stale, q, hb, hstale, hunscaled, hscale, hq, hagain.trans hq,
    (hfixed q hq).trans hq, ?_⟩
  cases he : b.quantize [] with
  | error e => exact ⟨e, rfl, (hforgets []).1.trans he⟩
  | ok => simp [he, Except.isOk, Except.toBool] at hmissing

/-! ## Scheduling -/

/-- The parallelism of an operator does not depend on the one that it has. -/
theorem scheduledOperation_logical (c : HardwareConfig) (g : Graph) (op : Operator)
    (request : AttributeRequest) :
    scheduledOperation c g.logical op.logical request = scheduledOperation c g op request := by
  cases hop : op.operation with
  | matmul o =>
    have hfactors : g.logical.matmulFactors c op.name { o with factors := none } request =
        g.matmulFactors c op.name o request := by
      simp only [matmulFactors, tensor_logical]
      rfl
    simp only [scheduledOperation, Operator.logical, hop, Operation.logical, hfactors]
  | add o | normalize o | activate o =>
    have hlanes (o : Operation) :
        g.logical.laneFactor c op.name o request = g.laneFactor c op.name o request := by
      simp only [laneFactor, tensor_logical]
      rfl
    simp only [scheduledOperation, Operator.logical, hop, Operation.logical, hlanes]
    rfl

/-- **A step of scheduling** does the same to graphs that differ in parallelism
and places only. -/
theorem scheduleOperator_agree {i : OperatorId} (hg : g.WellFormed) (hi : i < g.operators.size)
    (hlogical : g'.logical = g.logical) :
    Alike (fun s s' => (s.logical = g.logical ∧ s'.logical = g.logical ∧ s'.tensors = g'.tensors) ∧
        s'.operator i = s.operator i ∧ ∀ j ≠ i, s'.operator j = g'.operator j ∧
          s.operator j = g.operator j)
      (scheduleOperator c requests g i) (scheduleOperator c requests g' i) := by
  have hop : (g'.operator i).logical = (g.operator i).logical := by
    rw [← operator_logical, hlogical, operator_logical]
  have hname : (g'.operator i).name = (g.operator i).name := (congrArg Operator.name hop :)
  have hid : (g'.operator i).id = (g.operator i).id := (congrArg Operator.id hop :)
  have hsame := sameDeclaration (declared_eq_of_logical_eq hlogical)
  have hinner := (hg.positive _ (hg.output_lt i hi)).innermost_pos
  have hinner' : 0 < (g'.tensor (g'.operator i).output).innermost := by
    rw [hsame.output, Tensor.innermost, hsame.shape]
    exact hinner
  have hagree (request : AttributeRequest) : scheduledOperation c g' (g'.operator i) request =
      scheduledOperation c g (g.operator i) request := by
    rw [← scheduledOperation_logical, hlogical, hop, scheduledOperation_logical]
  simp only [scheduleOperator, outcome_applyAttributes, hname, hagree]
  cases hoperation : scheduledOperation c g (g.operator i)
      ((requests.lookup (g.operator i).name).getD {}) with
  | error e => exact .error e
  | ok operation =>
    have hparts := scheduledOperation_ok hinner hoperation
    have hparts' := scheduledOperation_ok hinner' ((hagree _).trans hoperation)
    refine .ok ⟨⟨?_, ?_, rfl⟩, ?_, fun j hj => ⟨?_, ?_⟩⟩
    · exact logical_modifyOperator (by simp [Operator.logical, hparts.1])
    · rw [logical_modifyOperator (by simp [Operator.logical, hparts'.1]), hlogical]
    · rw [operator_modifyOperator_self (hsame.operators_size ▸ hi), operator_modifyOperator_self hi,
        hname, hid]
    · exact operator_modifyOperator_of_ne hj
    · exact operator_modifyOperator_of_ne hj

/-- Two runs of scheduling, of `g` and of `d`, that have come through the same
operators: these have the same parallelism, and nothing else has changed. -/
structure InStep (g d : Graph) (done : List OperatorId) (g₁ d₁ : Graph) : Prop where
  logical : g₁.logical = g.logical
  logical' : d₁.logical = g.logical
  tensors : d₁.tensors = d.tensors
  settled : ∀ i ∈ done, d₁.operator i = g₁.operator i

/-- Two runs of the scheduling that are in step stay so. -/
theorem InStep.step {g₁ d₁ : Graph} {done : List OperatorId} {i : OperatorId}
    (h : InStep g d done g₁ d₁) (hg : g.WellFormed) (hi : i < g.operators.size) :
    Alike (InStep g d (done ++ [i])) (scheduleOperator c requests g₁ i)
      (scheduleOperator c requests d₁ i) := by
  have hsame := sameDeclaration (declared_eq_of_logical_eq h.logical)
  have hi₁ : i < g₁.operators.size := hsame.operators_size ▸ hi
  refine (scheduleOperator_agree (hsame.wellFormed hg) hi₁ (h.logical'.trans h.logical.symm)).imp ?_
  rintro s s' - - ⟨⟨hs, hs', htensors⟩, hop, hothers⟩
  refine ⟨hs.trans h.logical, hs'.trans h.logical, htensors.trans h.tensors, fun j hj => ?_⟩
  by_cases hji : j = i
  · exact hji ▸ hop
  · have hdone : j ∈ done := by simpa [hji] using hj
    rw [(hothers j hji).1, (hothers j hji).2, h.settled j hdone]

/-- Layouts that are there already are laid out again. -/
theorem withLayouts_eq_self (hlogical : d.logical = g.logical)
    (hoperators : d.operators = g.operators)
    (hlayout : ∀ id, (d.tensor id).layout = ((g.withLayouts c).tensor id).layout) :
    d.withLayouts c = d := by
  have hsame := sameDeclaration (declared_eq_of_logical_eq hlogical)
  obtain ⟨hlanes, hrows⟩ := units_congr (c := c) hlogical hoperators
  have htensors : (d.withLayouts c).tensors = d.tensors := by
    refine Array.ext (by simp [withLayouts, mapTensors]) fun i hi hi' => ?_
    have hlt : i < g.tensors.size := hsame.tensors_size ▸ hi'
    have hlayoutOf (lanes rows : Array Nat) :
        layoutOf lanes rows (d.tensor i) = layoutOf lanes rows (g.tensor i) := by
      simp only [layoutOf, hsame.tensor_id, hsame.shape]
    have htensor : (d.withLayouts c).tensor i = d.tensor i := by
      have hat : (d.tensor i).layout = some (layoutOf (g.laneUnits c) g.rowUnits (g.tensor i)) := by
        rw [hlayout, tensor_withLayouts hlt]
      rw [tensor_withLayouts hi', hlanes, hrows, hlayoutOf, ← hat]
    simpa [tensor, Array.getD_eq_getD_getElem?, hi, hi'] using htensor
  exact congrArg (fun tensors => { d with tensors }) htensors

/-- **Scheduling again changes nothing**, in the graph that was placed since. -/
theorem schedule_again (hg : g.WellFormed) (h : (g.schedule c requests).outcome = .ok s)
    (hadds : AddsAddresses s d) : (d.schedule c requests).outcome = .ok d := by
  have hlogical : d.logical = g.logical := hadds.logical.trans (schedule_spec hg h).2.1
  simp only [outcome_schedule, bind_ok_iff, mapError_ok_iff, pure_ok_iff] at h ⊢
  obtain ⟨u, hvalid, u', hrequests, g₁, hfold, rfl⟩ := h
  have hsame := sameDeclaration (declared_eq_of_logical_eq hlogical)
  have hrequests' : d.checkRequests requests = .ok u' := by
    have hnames : d.operatorNames = g.operatorNames := (congrArg Graph.operatorNames hlogical :)
    simp only [checkRequests, operatorNamed?, hnames] at hrequests ⊢
    exact hrequests
  -- both runs set the same parallelism, operator by operator
  have hwalk : Alike (InStep g d (List.range g.operators.size))
      ((List.range g.operators.size).foldlM (scheduleOperator c requests) g)
      ((List.range g.operators.size).foldlM (scheduleOperator c requests) d) :=
    .foldlM (fun before i after a a' hsplit h =>
      h.step hg (List.mem_range.1 (by simp [hsplit]))) ⟨rfl, hlogical, rfl, by simp⟩
  obtain ⟨d₁, hfold', hlogical₁, hlogical₁', htensors, hdone⟩ := hwalk.exists_ok hfold
  have hoperators : d₁.operators = d.operators := by
    have hsize₁ := (sameDeclaration (declared_eq_of_logical_eq hlogical₁)).operators_size
    have hsize₁' := (sameDeclaration (declared_eq_of_logical_eq hlogical₁')).operators_size
    rw [hadds.operators]
    change d₁.operators = g₁.operators
    refine Array.ext (by omega) fun i hi hi' => ?_
    have hat := hdone i (List.mem_range.2 (by omega))
    rwa [operator_eq_getElem hi, operator_eq_getElem hi'] at hat
  have hlogical₁₂ := hlogical₁'.trans hlogical.symm
  obtain rfl : d₁ = d := Graph.ext htensors hoperators (congrArg Graph.tensorNames hlogical₁₂ :)
    (congrArg Graph.operatorNames hlogical₁₂ :)
  refine ⟨u, hvalid, u', hrequests', d₁, ?_, ?_⟩
  · rwa [hsame.operators_size]
  · exact withLayouts_eq_self (hlogical.trans hlogical₁.symm) hadds.operators hadds.layout

/-! ## The memory plan -/

/-- Tensors that are at the addresses of their region stay there. -/
theorem placeTensors_again {chunkSize bound base : Nat} {kind : RegionKind} {ids : List TensorId}
    {addresses : List Nat} {region : Region} (hids : ∀ id ∈ ids, id < g.tensors.size)
    (hnodup : ids.Nodup)
    (hplace : placeRegion chunkSize bound kind (g.sized ids) base = .ok (addresses, region))
    (haddress : ∀ p ∈ ids.zip addresses, (g.tensor p.1).address = some p.2) :
    runFrom (placeTensors chunkSize bound kind ids base) g = (.ok (addresses, region), g) := by
  rw [runFrom_placeTensors bound kind base hids hnodup fun addresses' region' hplace' p hp => ?_]
  · simp only [hplace, withAddresses_eq_self haddress]
  · rw [hplace] at hplace'
    obtain ⟨rfl, rfl⟩ := Prod.mk.inj (Except.ok.inj hplace')
    exact .inr (haddress p hp)

section Plan

variable {chunkSize bound : Nat} {map : MemoryMap} {addresses : RegionKind → List Nat}
variable {regions : RegionKind → Region}

/-- What is placed asks for the same tensors and the same sizes again. -/
theorem Placed.again (h : Placed g d map chunkSize bound addresses regions) (hg : g.WellFormed) :
    Placed d d map chunkSize bound addresses regions := by
  have hids (p : TensorKind → Bool) : d.idsWhere p = g.idsWhere p :=
    h.adds.sameDeclaration.idsWhere hg p
  have hplaceholders : d.placeholders = g.placeholders := hids _
  have houtputs : d.outputs = g.outputs := hids _
  have htrained : d.trained = g.trained := hids _
  have hfixed : d.fixed = g.fixed := hids _
  have hintermediates : d.intermediates = g.intermediates := hids _
  constructor
  case adds => exact .refl d
  case activations =>
    rw [h.adds.sized, hplaceholders, houtputs]
    exact h.activations
  case parameters =>
    rw [h.adds.sized, htrained, hfixed]
    exact h.parameters
  case reference =>
    rw [h.adds.sized, houtputs]
    exact h.reference
  case scratch =>
    rw [h.adds.sized, hintermediates]
    exact h.scratch
  case at_activations =>
    rw [hplaceholders, houtputs]
    exact h.at_activations
  case at_parameters =>
    rw [htrained, hfixed]
    exact h.at_parameters
  case at_scratch =>
    rw [hintermediates]
    exact h.at_scratch
  case map_eq =>
    rw [houtputs, htrained, hfixed]
    exact h.map_eq

/-- The plan of a graph that is placed already. -/
theorem Placed.planMemory_eq (h : Placed d d map chunkSize bound addresses regions)
    (hd : d.WellFormed) :
    d.planMemory chunkSize bound = (.ok map, d) := by
  have hids : ∀ p ∈ d.intermediates.zip (addresses .scratch), p.1 < d.tensors.size := fun p hp =>
    (hd.mem_idsWhere.1 (List.of_mem_zip hp).1).1
  have hassign := runFrom_assignAddresses hids (nodup_fst_zip (hd.nodup_idsWhere _) _)
    fun p hp => .inr (h.at_scratch p hp)
  rw [withAddresses_eq_self h.at_scratch] at hassign
  change runFrom (placeAll chunkSize bound) d = _
  rw [placeAll, runFrom_get_bind]
  refine runFrom_bind_ok.2
    ⟨_, d, placeTensors_again hd.lt_of_mem_append hd.nodup_activations h.activations
    h.at_activations, ?_⟩
  refine runFrom_bind_ok.2
    ⟨_, d, placeTensors_again hd.lt_of_mem_append hd.nodup_parameters h.parameters
    h.at_parameters, ?_⟩
  rw [runFrom_get_bind]
  refine runFrom_liftM_bind_ok.2 ⟨_, h.reference, ?_⟩
  rw [runFrom_get_bind]
  refine runFrom_liftM_bind_ok.2 ⟨_, h.scratch, ?_⟩
  refine runFrom_bind_ok.2 ⟨_, d, hassign, ?_⟩
  rw [h.map_eq]
  rfl

/-- **Planning again changes nothing**: every tensor is where the plan puts
it. -/
theorem planMemory_again (hg : g.WellFormed) (h : g.planMemory chunkSize bound = (.ok map, d)) :
    d.planMemory chunkSize bound = (.ok map, d) := by
  obtain ⟨addresses, regions, hplaced⟩ := planMemory_placed hg h
  exact (hplaced.again hg).planMemory_eq (hplaced.adds.sameDeclaration.wellFormed hg)

end Plan

/-! ## Compilation -/

section Compile

variable {design : Design} {ctx ctx' : Context} {β μ : Type} [Backend β μ]

/-- **The stages come to the same design again.** -/
theorem prepare_again (hg : g.WellFormed) (h : (g.prepare ctx ranges requests).outcome = .ok design)
    (hname : ctx'.name = ctx.name) (hconfig : ctx'.config = ctx.config) :
    (design.graph.prepare ctx' ranges requests).outcome = .ok design := by
  simp only [outcome_prepare, bind_ok_iff, mapError_ok_iff, hname, hconfig] at h ⊢
  obtain ⟨q, hq, s, hs, hd⟩ := h
  have hqwell := (sameDeclaration (quantize_spec hg hq).1).wellFormed hg
  have hswell := (scheduled_spec hg hq hs).2.2.1
  obtain ⟨hplan, hblob, hconfig', hname'⟩ := toDesign_ok hd
  have hadds := (planMemory_ok hswell hplan).1
  have hlogical : design.graph.logical = q.logical :=
    hadds.logical.trans (schedule_spec hqwell hs).2.1
  refine ⟨design.graph, quantize_again hg hq hlogical, design.graph,
    schedule_again hqwell hs hadds, ?_⟩
  simp only [toDesign, planMemory_again hswell hplan, Traced.outcome_bind, Traced.outcome_liftM,
    outcome_notes, bind_ok_iff, mapError_ok_iff, Traced.outcome_pure]
  exact ⟨design.memory, rfl, ⟨⟩, trivial, design.blob, hblob, by rw [← hname', ← hconfig']⟩

/-- What comes of a compilation whose stages succeed is up to the backend. -/
theorem outcome_compile (backend : β) (h : (g.prepare ctx ranges requests).outcome = .ok design) :
    (g.compile ctx ranges requests backend).result.outcome =
      (fun emitted => { design, product := emitted.1 }) <$>
        (Backend.emit (μ := μ) backend { ctx with stage := some .emit } design).2.outcome := by
  unfold compile
  simp only [h, Traced.outcome_bind, Traced.outcome_note, Traced.outcome_pure]
  cases (Backend.emit (μ := μ) backend { ctx with stage := some .emit } design).2.outcome <;> rfl

/-- **Compilation is a fixed point on its own output.** The graph of a design
that a finished graph was compiled to, compiled again with the same ranges and
requests in the same context and for the same backend, gives what the first
compilation gave. Where only the name and the configuration of the context are
the same, it still gives the same design, for every backend that accepts it; the
backend for machines does. -/
theorem compile_fixed_point {backend : β} {c : Compilation μ} (hg : g.Finished)
    (h : (g.compile ctx ranges requests backend).result.outcome = .ok c) :
    (c.design.graph.compile ctx ranges requests backend).result.outcome = .ok c ∧
    ∀ ctx' : Context, ctx'.name = ctx.name → ctx'.config = ctx.config →
      (∀ machines : MachineBackend, ∃ c', c'.design = c.design ∧
        (c.design.graph.compile ctx' ranges requests machines).result.outcome = .ok c') ∧
      ∀ (β' μ' : Type) [Backend β' μ'] (backend' : β') (c' : Compilation μ'),
        (c.design.graph.compile ctx' ranges requests backend').result.outcome = .ok c' →
          c'.design = c.design := by
  obtain ⟨hprepare, -⟩ := compile_stages h
  refine ⟨?_, fun ctx' hname hconfig => ⟨fun machines => ?_, fun β' μ' _ backend' c' h' => ?_⟩⟩
  · rw [outcome_compile backend (prepare_again hg.wellFormed hprepare rfl rfl),
      ← outcome_compile backend hprepare, h]
  · have hagain := prepare_again hg.wellFormed hprepare hname hconfig
    obtain ⟨emitted, hemit⟩ := (prepare_ok hg hprepare).exists_machine machines.latency
      { ctx' with stage := some .emit }
    refine ⟨{ design := c.design, product := emitted.1 }, rfl, ?_⟩
    rw [outcome_compile machines hagain]
    exact map_ok_iff.2 ⟨emitted, hemit, rfl⟩
  · have hagain := prepare_again hg.wellFormed hprepare hname hconfig
    exact (Except.ok.inj (hagain.symm.trans (compile_stages h').1)).symm

/-- The dense layer is compiled to a design that is compiled to itself. -/
theorem compile_fixed_point_dense : ∃ g c, Finished g ∧
    Context.create "dense" denseConfig = .ok denseContext ∧
    (g.compile denseContext denseRanges [] ({} : MachineBackend)).result.outcome = .ok c ∧
    (c.design.graph.compile denseContext denseRanges [] ({} : MachineBackend)).result.outcome =
      .ok c := by
  obtain ⟨g, c, hg, hcompile, -⟩ := exists_denseCompilation
  exact ⟨g, c, hg, rfl, hcompile, (compile_fixed_point hg hcompile).1⟩

end Compile

end Graph

end QuantAccel
