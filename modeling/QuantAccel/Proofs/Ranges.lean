import QuantAccel.Proofs.Failure
import QuantAccel.Proofs.Scales

/-!
# Where ranges come from

A tensor has the range that is declared for it, else the one that is observed in
its values, else the one that its operator propagates. Only a placeholder can be
left without any: a parameter has values, and when an operator comes up in the
order the operands that are results have been settled. So the error about a
missing range names a placeholder without a declared range, and there is an
error whenever there is such a placeholder, whether an operator reads it or not.
-/

namespace QuantAccel

/-! ## What a range gives -/

section Params

variable {name : String} {t : ElementType} {r : ValueRange} {params : QuantParams}

theorem QuantParams.declared_ok (h : QuantParams.declared name t r = .ok params) :
    params.width ≤ t.width ∧ params.source = .declared := by
  simp only [QuantParams.declared, bind_ok_iff, check_ok_iff, pure_ok_iff] at h
  obtain ⟨_, -, -, hwidth, rfl⟩ := h
  exact ⟨Nat.le_of_not_lt hwidth, rfl⟩

theorem QuantParams.fullWidth_ok {source : RangeSource}
    (h : QuantParams.fullWidth name t r source = .ok params) :
    params.width ≤ t.width ∧ params.source = source := by
  simp only [QuantParams.fullWidth, bind_ok_iff, pure_ok_iff] at h
  obtain ⟨_, -, rfl⟩ := h
  exact ⟨le_refl _, rfl⟩

end Params

/-- Where the range of a tensor comes from. -/
def Tensor.rangeSource (t : Tensor) (ranges : ValueRanges) : RangeSource :=
  if (ranges.lookup t.name).isSome then .declared
  else if t.kind.isParameter then .observed
  else .propagated

/-- Parameters that fit a tensor and come from where they should. -/
structure Tensor.Resolves (t : Tensor) (ranges : ValueRanges) (params : QuantParams) : Prop where
  width : params.width ≤ t.element.width
  source : params.source = t.rangeSource ranges

/-- The parameters of a tensor from the outside. -/
theorem Tensor.initialQuant_resolves {t : Tensor} {ranges : ValueRanges} {params : QuantParams}
    (h : t.initialQuant ranges = .ok (some params)) : t.Resolves ranges params := by
  unfold Tensor.initialQuant at h
  split at h
  · rename_i r hlookup
    obtain ⟨params', hparams, heq⟩ := map_ok_iff.1 h
    obtain rfl := Option.some.inj heq
    obtain ⟨hwidth, hsource⟩ := QuantParams.declared_ok hparams
    exact ⟨hwidth, by rw [hsource, Tensor.rangeSource, hlookup]; rfl⟩
  · rename_i values hlookup hvalues
    obtain ⟨params', hparams, heq⟩ := map_ok_iff.1 h
    obtain rfl := Option.some.inj heq
    obtain ⟨hwidth, hsource⟩ := QuantParams.fullWidth_ok hparams
    refine ⟨hwidth, ?_⟩
    rw [hsource, Tensor.rangeSource, hlookup, TensorKind.isParameter, hvalues]
    rfl
  · cases h

/-- A tensor gets nothing at first exactly if it has neither a declared range
nor values. -/
theorem Tensor.initialQuant_eq_none_iff {t : Tensor} {ranges : ValueRanges} :
    t.initialQuant ranges = .ok none ↔ ranges.lookup t.name = none ∧ t.kind.values? = none := by
  unfold Tensor.initialQuant
  cases ranges.lookup t.name with
  | some r => simp [map_ok_iff]
  | none => cases t.kind.values? <;> simp [map_ok_iff]

/-- A placeholder has no operator and no values. -/
theorem TensorKind.of_isPlaceholder {k : TensorKind} (h : k.isPlaceholder) :
    ¬k.isResult ∧ k.values? = none := by
  cases k <;> first | exact ⟨Bool.false_ne_true, rfl⟩ | cases h

/-! ## What a fault says -/

/-- One text begins with another. -/
def Begins (s start : String) : Prop :=
  start.toList <+: s.toList

instance (s start : String) : Decidable (Begins s start) :=
  inferInstanceAs (Decidable (start.toList <+: s.toList))

theorem Begins.append {s start : String} (h : Begins s start) (rest : String) :
    Begins (s ++ rest) start := by
  rw [Begins, String.toList_append]
  exact List.IsPrefix.trans h (List.prefix_append _ _)

/-- Of two beginnings of a text one begins with the other. -/
theorem Begins.or_begins {s start start' : String} (h : Begins s start) (h' : Begins s start') :
    Begins start' start ∨ Begins start start' :=
  List.prefix_or_prefix_of_prefix h h'

namespace RangeFault

/-- How the message of a fault begins, whatever its values are. -/
def opening : RangeFault → String
  | missing | missingFor _ => "no declared range, no data, and no producer"
  | invalid _ => "invalid range ("
  | negative _ _ => "negative minimum "
  | zeroMagnitude => "declared range has zero magnitude"
  | ratio role _ => role.name
  | ratioPair _ _ => "add rescale ratios "
  | underflow _ => "lhs rescale ratio "

theorem begins_opening (fault : RangeFault) : Begins fault.message fault.opening := by
  have hrefl (s : String) : Begins s s := List.prefix_rfl
  cases fault with
  | missing =>
    have hstart : Begins "no declared range, no data, and no producer to propagate from"
        "no declared range, no data, and no producer" := by decide +kernel
    exact hstart
  | missingFor consumer =>
    have hstart :
        Begins "no declared range, no data, and no producer to propagate from (consumed by `"
        "no declared range, no data, and no producer" := by decide +kernel
    exact (hstart.append consumer).append _
  | invalid range => exact ((((hrefl _).append _).append _).append _).append _
  | negative lo element => exact (((hrefl _).append _).append _).append _
  | zeroMagnitude => exact hrefl _
  | ratio role value => exact (((hrefl _).append _).append _).append _
  | ratioPair left right => exact ((((hrefl _).append _).append _).append _).append _
  | underflow left => exact ((hrefl _).append _).append _

/-- No other fault has a message like this. -/
theorem missingRange?_of_begins {fault : RangeFault} {name : String}
    (h : Begins fault.message "no declared range, no data, and no producer") :
    (CompileError.range name fault).missingRange? = some name := by
  have hboth := h.or_begins (begins_opening fault)
  cases fault with
  | missing => rfl
  | missingFor consumer => rfl
  | ratio role value =>
    simp only [opening] at hboth
    cases role <;> exact absurd hboth (by decide +kernel)
  | _ =>
    simp only [opening] at hboth
    exact absurd hboth (by decide +kernel)

end RangeFault

/-- The errors about a missing range are those that say so. -/
theorem CompileError.missingRange?_eq_some_iff {e : CompileError} {name : String} :
    e.missingRange? = some name ↔ ∃ fault, e = .range name fault ∧
      Begins fault.message "no declared range, no data, and no producer" := by
  constructor
  · intro h
    unfold CompileError.missingRange? at h
    split at h
    · obtain rfl := Option.some.inj h
      exact ⟨_, rfl, RangeFault.begins_opening .missing⟩
    · rename_i consumer
      obtain rfl := Option.some.inj h
      exact ⟨_, rfl, RangeFault.begins_opening (.missingFor consumer)⟩
    · cases h
  · rintro ⟨fault, rfl, hsays⟩
    exact RangeFault.missingRange?_of_begins hsays

/-! ## What multipliers an operation has -/

namespace Operation

/-- The multipliers around the accumulator, of an operation that has one. -/
def rescale? : Operation → Option Rescale
  | matmul o => o.rescale
  | add _ => none
  | normalize o => o.rescale
  | activate o => o.rescale

/-- Whether the operation adds a bias to its accumulator: an offset is one. -/
def hasBias : Operation → Bool
  | matmul o => o.bias.isSome
  | add _ => false
  | normalize _ => true
  | activate _ => false

/-- An operation with its multipliers: one for a bias exactly if it has a bias,
and one for a slope exactly if its activation is leaky. -/
structure Equipped (o : Operation) : Prop where
  rescaled : o.isRescaled
  bias : (o.rescale?.bind (·.bias)).isSome ↔ o.hasBias
  slope : (o.rescale?.bind (·.slope)).isSome ↔ ∃ s, o.activation? = some (.leakyRelu s)

end Operation

theorem Activation.isSome_slope?_iff {activation : Option Activation} :
    (activation.bind Activation.slope?).isSome ↔ ∃ s, activation = some (.leakyRelu s) := by
  rcases activation with _ | _ | s <;> simp [Activation.slope?]

section Realises

variable {r : Rescale} {target acc : Float} {bias : Option Float} {activation : Option Activation}

theorem Rescale.Realises.isSome_bias (h : r.Realises target acc bias activation) :
    r.bias.isSome = bias.isSome := by
  simpa only [Option.isSome_map] using congrArg Option.isSome h.bias

theorem Rescale.Realises.isSome_slope (h : r.Realises target acc bias activation) :
    r.slope.isSome ↔ ∃ s, activation = some (.leakyRelu s) := by
  have hsome := congrArg Option.isSome h.slope
  rw [Option.isSome_map, Option.isSome_map] at hsome
  rw [hsome, Activation.isSome_slope?_iff]

/-- Multipliers around an accumulator by the formulas are the ones that an
operation needs. -/
theorem Rescale.Realises.equipped {o : Operation} (h : r.Realises target acc bias o.activation?)
    (hrescaled : o.isRescaled) (hr : o.rescale? = some r) (hbias : bias.isSome = o.hasBias) :
    o.Equipped where
  rescaled := hrescaled
  bias := by rw [hr, Option.bind_some, h.isSome_bias, hbias]
  slope := by rw [hr, Option.bind_some, h.isSome_slope]

end Realises

namespace Graph

variable {g g₁ q : Graph} {ranges : ValueRanges} {order before : List OperatorId}

theorem Rescales.equipped {target realised : Float} {o : Operation}
    (h : g.Rescales target realised o) :
    o.Equipped := by
  cases o with
  | matmul o =>
    obtain ⟨r, hr, hrealises, -⟩ := h
    exact hrealises.equipped (by simp [Operation.isRescaled, hr]) hr Option.isSome_map
  | add o =>
    obtain ⟨r, hr, -⟩ := h
    exact ⟨by simp [Operation.isRescaled, hr], by simp [Operation.rescale?, Operation.hasBias],
      by simp [Operation.rescale?, Operation.activation?]⟩
  | normalize o =>
    obtain ⟨r, hr, hrealises, -⟩ := h
    exact hrealises.equipped (by simp [Operation.isRescaled, hr]) hr rfl
  | activate o =>
    obtain ⟨r, hr, hrealises, -⟩ := h
    exact hrealises.equipped (by simp [Operation.isRescaled, hr]) hr rfl

/-! ## Successful quantization -/

/-- The parameters that the range of a result gives. -/
theorem targetQuant_resolves {op : Operator} {params : QuantParams}
    (hkind : (g.tensor op.output).kind.values? = none) (h : g.targetQuant ranges op = .ok params) :
    (g.tensor op.output).Resolves ranges params := by
  simp only [targetQuant] at h
  split at h
  · rename_i r hlookup
    obtain ⟨hwidth, hsource⟩ := QuantParams.declared_ok h
    exact ⟨hwidth, by rw [hsource, Tensor.rangeSource, hlookup]; rfl⟩
  · rename_i hlookup
    obtain ⟨hwidth, hsource⟩ := QuantParams.fullWidth_ok h
    exact ⟨hwidth, by rw [hsource, Tensor.rangeSource, hlookup, TensorKind.isParameter, hkind]; rfl⟩

/-- Every tensor has parameters, from where they should come. -/
theorem Calibrated.resolves (h : q.Calibrated ranges) (hq : q.WellFormed) {id : TensorId}
    (hid : id < q.tensors.size) :
    ∃ params, (q.tensor id).quant = some params ∧ (q.tensor id).Resolves ranges params := by
  by_cases hkind : (q.tensor id).kind.isResult
  · obtain ⟨i, hi, rfl⟩ := (hq.result_iff id hid).1 hkind
    obtain ⟨params, realised, hsettled⟩ := h.settled i hi
    obtain ⟨hwidth, hsource⟩ :=
      targetQuant_resolves (TensorKind.values?_of_isResult hkind) hsettled.target
    exact ⟨_, hsettled.quant, hwidth, hsource⟩
  · obtain ⟨params, hparams⟩ := Option.isSome_iff_exists.1 (h.quantized id hid)
    exact ⟨params, hparams, Tensor.initialQuant_resolves (hparams ▸ h.outside id hid hkind)⟩

/-- A placeholder of a quantized graph has a declared range. -/
theorem Calibrated.declared (h : q.Calibrated ranges) (hq : q.WellFormed) {id : TensorId}
    (hid : id ∈ q.placeholders) : (ranges.lookup (q.tensor id).name).isSome := by
  obtain ⟨hlt, hkind⟩ := hq.mem_idsWhere.1 hid
  obtain ⟨hresult, hvalues⟩ := TensorKind.of_isPlaceholder hkind
  rw [Option.isSome_iff_ne_none]
  intro hlookup
  have hquant := h.quantized id hlt
  have hinitial := h.outside id hlt hresult
  rw [Tensor.initialQuant_eq_none_iff.2 ⟨hlookup, hvalues⟩, Except.ok.injEq] at hinitial
  rw [← hinitial] at hquant
  cases hquant

/-- What a graph has when it is quantized. -/
structure Resolved (q : Graph) (ranges : ValueRanges) : Prop where
  placeholder : ∀ id ∈ q.placeholders, (ranges.lookup (q.tensor id).name).isSome
  params : ∀ id < q.tensors.size, ∃ params, (q.tensor id).quant = some params ∧
    (q.tensor id).Resolves ranges params
  ints : ∀ id < q.tensors.size, (q.tensor id).kind.isParameter →
    ∃ ints, (q.tensor id).ints = some ints ∧
    ints.size = (q.tensor id).volume ∧ ∀ x ∈ ints, (q.tensor id).element.Contains x
  operator : ∀ i < q.operators.size, (q.operator i).operation.Equipped

/-! ## Missing ranges -/

/-- The name of a placeholder that has no declared range. -/
def Undeclared (g : Graph) (ranges : ValueRanges) (name : String) : Prop :=
  ranges.lookup name = none ∧ ∃ id ∈ g.placeholders, (g.tensor id).name = name

theorem Undeclared.of_sameDeclaration {name : String} (h : g₁.Undeclared ranges name)
    (hg : g.WellFormed) (hsame : SameDeclaration g g₁) : g.Undeclared ranges name := by
  obtain ⟨hlookup, id, hid, hname⟩ := h
  refine ⟨hlookup, id, ?_, by rw [← hname, hsame.name]⟩
  rwa [placeholders, hsame.idsWhere hg] at hid

/-- **Only a placeholder can be without parameters** where the walk has come to,
but for results that are still to come. -/
theorem Walked.undeclared (h : g₁.Walked ranges before g) (hg₁ : g₁.WellFormed)
    (hbefore : ∀ i ∈ before, i < g₁.operators.size)
    (hinitial : ∀ id < g₁.tensors.size, (g₁.tensor id).initialQuant ranges =
      .ok (g₁.tensor id).quant)
    {id : TensorId} (hid : id < g₁.tensors.size) (hquant : (g.tensor id).quant = none)
    (hready : (g₁.tensor id).kind.isResult → ∃ j ∈ before, (g₁.operator j).output = id) :
    g₁.Undeclared ranges (g.tensor id).name := by
  rw [h.sameDeclaration.name]
  by_cases hkind : (g₁.tensor id).kind.isResult
  · obtain ⟨j, hj, rfl⟩ := hready hkind
    obtain ⟨params, realised, hsettled⟩ := h.settled j hj
    have hsome := hsettled.quant
    rw [h.sameDeclaration.output, hquant] at hsome
    cases hsome
  · have huntouched := h.untouched id fun i hi heq =>
      hkind (heq ▸ hg₁.isResult_output (hbefore i hi))
    have hnone := hinitial id hid
    rw [← huntouched, hquant, huntouched] at hnone
    obtain ⟨hlookup, hvalues⟩ := Tensor.initialQuant_eq_none_iff.1 hnone
    refine ⟨hlookup, id, (hg₁.outside hid hkind).resolve_right fun hparam => ?_, rfl⟩
    rw [TensorKind.isParameter, hvalues] at hparam
    cases hparam

/-- An error that names a placeholder without a declared range, if it says that
a range is missing. -/
def BlamesPlaceholder (g : Graph) (ranges : ValueRanges) (e : CompileError) : Prop :=
  ∀ name, e.missingRange? = some name → g.Undeclared ranges name

theorem blamesPlaceholder_of_unfit {e : CompileError} (h : e.Unfit) :
    g.BlamesPlaceholder ranges e := by
  intro name hname
  rw [h.2] at hname
  cases hname

section Walked

variable {after : List OperatorId} {i : OperatorId} (hg₁ : g₁.WellFormed)
    (hordered : g₁.Ordered order)
variable (hinitial : ∀ id < g₁.tensors.size, (g₁.tensor id).initialQuant ranges =
      .ok (g₁.tensor id).quant)
include hg₁ hordered hinitial

/-- Where the walk has come to an operator, those of its operands that are
results are settled. -/
theorem Walked.raises_checkOperands (h : g₁.Walked ranges before g)
    (hsplit : order = before ++ i :: after) :
    Raises (g₁.BlamesPlaceholder ranges) (g.checkOperands (g.operator i)) := by
  unfold checkOperands
  split
  · rename_i id hfind
    have hin := List.mem_of_find?_eq_some hfind
    have hnone := List.find?_some hfind
    rw [h.sameDeclaration.inputs] at hin
    have hi := hordered.lt_of_split hsplit
    refine raises_error fun name hname => ?_
    obtain rfl := Option.some.inj hname
    refine h.undeclared hg₁ (fun j hj => ?_) hinitial ?_ ?_ ?_
    · exact hordered.mem_iff.1 (hsplit ▸ List.mem_append_left _ hj)
    · exact lt_trans (hg₁.operand_lt i hi id hin) (hg₁.output_lt i hi)
    · exact Option.isNone_iff_eq_none.1 hnone
    · exact hordered.ready hg₁ hsplit hin
  · exact raises_ok ()

/-- At the end of the walk all results are settled. -/
theorem Walked.raises_checkQuantized (h : g₁.Walked ranges order g) :
    Raises (g₁.BlamesPlaceholder ranges) g.checkQuantized := by
  have hsame := h.sameDeclaration
  unfold checkQuantized
  split
  · rename_i t hfind
    obtain ⟨hid, hat⟩ := (hsame.wellFormed hg₁).tensor_of_mem (List.mem_of_find?_eq_some hfind)
    rw [hsame.tensors_size] at hid
    have hnone := List.find?_some hfind
    refine raises_error fun name hname => ?_
    obtain rfl := Option.some.inj hname
    rw [← hat] at hnone ⊢
    refine h.undeclared hg₁ (fun j hj => hordered.mem_iff.1 hj) hinitial hid
      (Option.isNone_iff_eq_none.1 hnone) ?_
    intro hresult
    obtain ⟨j, hj, hout⟩ := (hg₁.result_iff _ hid).1 hresult
    exact ⟨j, hordered.mem_iff.2 hj, hout⟩
  · exact raises_ok ()

end Walked

/-- **A missing range is that of a placeholder**, whether an operator asks for
it or the check at the end. -/
theorem raises_missing (hg : g.WellFormed) (ranges : ValueRanges) :
    Raises (g.BlamesPlaceholder ranges) (g.quantize ranges) := by
  unfold quantize
  refine ((raises_withInitialQuant _ ranges).mono fun _ => blamesPlaceholder_of_unfit).bind
    fun g₁ h₁ => ?_
  have hsame := sameDeclaration (declared_eq_of_unscaled_eq
    ((unscaled_withInitialQuant h₁).trans (unscaled_unquantized g)))
  have hg₁ := hsame.wellFormed hg
  have hinitial := initialQuant_withInitialQuant h₁
  obtain ⟨_, hexists⟩ := hg₁.exists_order
  refine Raises.bind (.of_ok (mapError_ok_iff.2 hexists)) fun order horder => ?_
  have hordered := ordered_of_order hg₁.operator_id (mapError_ok_iff.1 horder)
  obtain ⟨hthrough, hstop⟩ := walk_outcome hg₁ hordered hinitial
  -- what the walk blames is a placeholder of the graph as it was before
  refine Raises.mono (P := g₁.BlamesPlaceholder ranges) ?_ fun e he name hname =>
    (he name hname).of_sameDeclaration hg hsame
  refine Raises.bind (fun e he => ?_) fun g₂ h₂ =>
    ((hthrough g₂ h₂).raises_checkQuantized hg₁ hordered hinitial).bind fun _ _ => raises_ok _
  obtain ⟨before, i, after, g₂, hsplit, hwalked, hstep⟩ := hstop e he
  exact raises_quantizeOperator (fun _ => blamesPlaceholder_of_unfit)
    (hwalked.raises_checkOperands hg₁ hordered hinitial hsplit) e hstep

/-- **Ranges are resolved, or quantization fails.** A graph that was quantized
has all that evaluation needs, from the sources that count. A placeholder
without a declared range makes quantization fail, and the error that a range is
missing names such a placeholder, and by this name no other tensor. -/
theorem quantize_resolves (hg : g.Finished) (ranges : ValueRanges) :
    (∀ q, g.quantize ranges = .ok q → q.declared = g.declared ∧ q.Resolved ranges) ∧
    (∀ id ∈ g.placeholders, ranges.lookup (g.tensor id).name = none →
      ∃ e, g.quantize ranges = .error e) ∧
    ∀ name fault, g.quantize ranges = .error (.range name fault) →
      Begins fault.message "no declared range, no data, and no producer" →
        ranges.lookup name = none ∧
          ∃ id ∈ g.placeholders, ∀ id' < g.tensors.size, (g.tensor id').name = name ↔ id' = id := by
  have hwell := hg.wellFormed
  have hresolved (q : Graph) (h : g.quantize ranges = .ok q) : q.declared = g.declared ∧
      q.Resolved ranges := by
    obtain ⟨hdeclared, hquantized⟩ := quantize_spec hwell h
    have hq := (sameDeclaration hdeclared).wellFormed hwell
    have hcalibrated := quantize_calibrated hwell h
    refine ⟨hdeclared, fun id hid => hcalibrated.declared hq hid,
      fun id hid => hcalibrated.resolves hq hid, hquantized.ints, fun i hi => ?_⟩
    obtain ⟨params, realised, hsettled⟩ := hcalibrated.settled i hi
    exact hsettled.rescales.equipped
  refine ⟨hresolved, fun id hid hlookup => ?_, fun name fault h hsays => ?_⟩
  · cases h : g.quantize ranges with
    | error e => exact ⟨e, rfl⟩
    | ok q =>
      obtain ⟨hdeclared, hq⟩ := hresolved q h
      have hsame := sameDeclaration hdeclared
      have hsome := hq.placeholder id (by rwa [placeholders, hsame.idsWhere hwell])
      rw [hsame.name, hlookup] at hsome
      cases hsome
  · obtain ⟨hlookup, id, hid, hname⟩ :=
      raises_missing hwell ranges _ h name
        (CompileError.missingRange?_eq_some_iff.2 ⟨fault, rfl, hsays⟩)
    refine ⟨hlookup, id, hid, fun id' hid' => ⟨fun hname' => ?_, fun heq => heq ▸ hname⟩⟩
    exact hg.named.tensors.injective hid' (hwell.mem_idsWhere.1 hid).1 (hname'.trans hname.symm)

/-- The mixed graph, quantized without a range for its placeholder: the tensor
that has no range. -/
def mixedMissing : Except CompileError (Option String) := do
  let g ← (build mixedCalls).finish.outcome.mapError .graph
  match g.quantize [("h", ⟨-60, 60⟩)] with
  | .error e => return e.missingRange?
  | .ok _ => return none

/-- With its range declared, the mixed graph is quantized; without it, the error
names the placeholder. -/
theorem quantize_resolves_mixed : ∃ g q : Graph, Finished g ∧
    g.quantize mixedRanges = .ok q ∧ q.Resolved mixedRanges ∧
    ∃ fault, g.quantize [("h", ⟨-60, 60⟩)] = .error (.range "x" fault) ∧
      Begins fault.message "no declared range, no data, and no producer" ∧
      ∃ id ∈ g.placeholders, ∀ id' < g.tensors.size, (g.tensor id').name = "x" ↔ id' = id := by
  have hok : mixedQuantized.toOption.isSome = true := by decide +kernel
  have hmissing : mixedMissing.toOption = some (some "x") := by decide +kernel
  obtain ⟨q, hq⟩ := Option.isSome_iff_exists.1 hok
  simp only [toOption_eq_some_iff, mixedQuantized, bind_ok_iff, mapError_ok_iff] at hq
  obtain ⟨g, hfinish, hq⟩ := hq
  simp only [toOption_eq_some_iff, mixedMissing, bind_ok_iff, mapError_ok_iff] at hmissing
  obtain ⟨g', hfinish', hmissing⟩ := hmissing
  obtain rfl := Except.ok.inj (hfinish'.symm.trans hfinish)
  obtain ⟨hresolved, -⟩ := quantize_resolves ⟨_, hfinish⟩ mixedRanges
  obtain ⟨-, -, hplaceholder⟩ := quantize_resolves ⟨_, hfinish⟩ [("h", ⟨-60, 60⟩)]
  split at hmissing
  · rename_i e herror
    obtain ⟨fault, rfl, hsays⟩ := CompileError.missingRange?_eq_some_iff.1 (pure_ok_iff.1 hmissing)
    exact ⟨g', q, ⟨_, hfinish⟩, hq, (hresolved q hq).2, fault, herror, hsays,
      (hplaceholder "x" fault herror hsays).2⟩
  · cases pure_ok_iff.1 hmissing

end Graph

end QuantAccel
