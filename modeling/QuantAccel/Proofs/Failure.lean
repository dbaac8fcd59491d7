import QuantAccel.Proofs.Quantization
import QuantAccel.Proofs.Schedule

/-!
# Errors and the stages that raise them

Every error of a compilation belongs to one stage. Quantization and scheduling
raise errors of their own only: what they would have to blame on the graph or on
the configuration cannot be wrong any more, since the operators of a well-formed
graph have an order and the configuration was checked before. The facts are put
together along the code from what it can throw (`Raises`).
-/

namespace QuantAccel

/-! ## Errors of one kind -/

section Raises

variable {ε δ α β : Type} {P : ε → Prop}

/-- A computation whose errors are all of some kind. -/
def Raises (P : ε → Prop) (x : Except ε α) : Prop :=
  ∀ e, x = .error e → P e

theorem raises_ok (a : α) : Raises P (.ok a : Except ε α) := by
  intro e h
  cases h

theorem raises_error {e : ε} (h : P e) : Raises P (.error e : Except ε α) := by
  intro e' he'
  cases he'
  exact h

/-- A computation that gives a value raises no error at all. -/
theorem Raises.of_ok {x : Except ε α} {a : α} (h : x = .ok a) : Raises P x :=
  h ▸ raises_ok a

/-- What is said of the errors can be weakened. -/
theorem Raises.mono {Q : ε → Prop} {x : Except ε α} (hx : Raises P x) (h : ∀ e, P e → Q e) :
    Raises Q x :=
  fun e he => h e (hx e he)

/-- A sequence raises the errors of its first part, and those of its second
part at a value that the first one gave. -/
theorem Raises.bind {x : Except ε α} {f : α → Except ε β} (hx : Raises P x)
    (hf : ∀ a, x = .ok a → Raises P (f a)) : Raises P (x >>= f) := by
  cases x with
  | error e => exact raises_error (hx e rfl)
  | ok a => exact hf a rfl

/-- A function applied to the value raises nothing. -/
theorem Raises.map {x : Except ε α} (hx : Raises P x) (f : α → β) : Raises P (f <$> x) := by
  cases x with
  | error e => exact raises_error (hx e rfl)
  | ok a => exact raises_ok (f a)

/-- Where the errors are renamed, the property is asked of their new names. -/
theorem Raises.mapError {x : Except ε α} {f : ε → δ} {Q : δ → Prop}
    (hx : Raises (fun e => Q (f e)) x) : Raises Q (x.mapError f) := by
  cases x with
  | error e => exact raises_error (hx e rfl)
  | ok a => exact raises_ok a

/-- A choice raises the errors of its two branches. -/
theorem Raises.ite {c : Prop} [Decidable c] {x y : Except ε α} (hx : Raises P x) (hy : Raises P y) :
    Raises P (if c then x else y) := by
  split
  · exact hx
  · exact hy

/-- A check that throws, and what comes after it. -/
theorem raises_check {c : Prop} [Decidable c] {e : ε} {f : β → Except ε α}
    {x : Except ε α} (he : P e) (hx : Raises P x) : Raises P (if c then throw e >>= f else x) :=
  .ite (.bind (raises_error he) fun _ h => by cases h) hx

/-- The same in a computation with events. -/
theorem raises_traced_check {c : Prop} [Decidable c] {e : ε} {f : β → Traced ε α}
    {x : Traced ε α} (he : P e) (hx : Raises P x.outcome) :
    Raises P (if c then throw e >>= f else x).outcome := by
  split
  · exact raises_error he
  · exact hx

/-- A list of computations raises the errors of its members. -/
theorem raises_mapM {f : α → Except ε β} {l : List α} (h : ∀ a ∈ l, Raises P (f a)) :
    Raises P (l.mapM f) := by
  induction l with
  | nil => exact raises_ok []
  | cons a l ih =>
    rw [List.mapM_cons]
    refine (h a List.mem_cons_self).bind fun b _ => ?_
    exact (ih fun a' ha' => h a' (List.mem_cons_of_mem a ha')).bind fun bs _ => raises_ok (b :: bs)

/-- A fold raises the errors of its steps, whatever they start from. -/
theorem raises_foldlM {f : β → α → Except ε β} {l : List α}
    (h : ∀ b, ∀ a ∈ l, Raises P (f b a)) (b : β) :
    Raises P (l.foldlM f b) := by
  induction l generalizing b with
  | nil => exact raises_ok b
  | cons a l ih =>
    rw [List.foldlM_cons]
    exact (h b a List.mem_cons_self).bind fun b' _ =>
      ih (fun b a' ha' => h b a' (List.mem_cons_of_mem a ha')) b'

end Raises

/-- A computation whose errors all belong to one stage. -/
def RaisesAt {α : Type} (stage : Stage) (x : Except CompileError α) : Prop :=
  Raises (fun e => e.stage = stage) x

/-! ## Quantization -/

/-- The tensor that has no range, if the error says so of one. -/
def CompileError.missingRange? : CompileError → Option String
  | .range name .missing => some name
  | .range name (.missingFor _) => some name
  | _ => none

/-- The errors of quantization but for a range that is missing: a range that is
there does not fit. -/
def CompileError.Unfit (e : CompileError) : Prop :=
  e.stage = .quantize ∧ e.missingRange? = none

/-- A range check fails for bounds that are no range, and for a negative bound
of unsigned elements. -/
theorem raises_checkRange (name : String) (t : ElementType) (r : ValueRange) :
    Raises CompileError.Unfit (QuantParams.checkRange name t r) := by
  unfold QuantParams.checkRange
  exact raises_check ⟨rfl, rfl⟩ (.ite (raises_error ⟨rfl, rfl⟩) (raises_ok ()))

/-- Parameters of a declared range also fail for a range of zeros and for
elements that are too narrow. -/
theorem raises_declared (name : String) (t : ElementType) (r : ValueRange) :
    Raises CompileError.Unfit (QuantParams.declared name t r) := by
  unfold QuantParams.declared
  refine (raises_checkRange name t r).bind fun _ _ => ?_
  exact raises_check ⟨rfl, rfl⟩ (raises_check ⟨rfl, rfl⟩ (raises_ok _))

/-- Parameters that use the full width of an element type fail as the range
check does. -/
theorem raises_fullWidth (name : String) (t : ElementType) (r : ValueRange) (source : RangeSource) :
    Raises CompileError.Unfit (QuantParams.fullWidth name t r source) := by
  unfold QuantParams.fullWidth
  exact (raises_checkRange name t r).bind fun _ _ => raises_ok _

/-- The first parameters of a tensor come from a declared or an observed range,
and fail as these do. -/
theorem raises_initialQuant (ranges : ValueRanges) (t : Tensor) :
    Raises CompileError.Unfit (t.initialQuant ranges) := by
  unfold Tensor.initialQuant
  split
  · exact (raises_declared _ _ _).map _
  · exact (raises_fullWidth _ _ _ _).map _
  · exact raises_ok none

/-- A ratio that has no multiplier is an error of the range. -/
theorem raises_ratioMultiplier (name : String) (role : RatioRole) (r : Float) :
    Raises CompileError.Unfit (ratioMultiplier name role r) := by
  unfold ratioMultiplier
  split
  · exact raises_ok _
  · exact raises_error ⟨rfl, rfl⟩

theorem raises_slopeMultiplier (name : String) (activation : Option Activation) :
    Raises CompileError.Unfit (slopeMultiplier name activation) := by
  unfold slopeMultiplier
  split
  · exact (raises_ratioMultiplier _ _ _).map _
  · exact raises_ok none

/-- The rescaling of an accumulator fails for one of its three ratios: of the
output, of the bias and of the slope. -/
theorem raises_accumulatorRescale (name : String) (target acc : Float)
    (bias : Option (RatioRole × Float)) (activation : Option Activation) :
    Raises CompileError.Unfit (accumulatorRescale name target acc bias activation) := by
  unfold accumulatorRescale
  refine (raises_ratioMultiplier _ _ _).bind fun out _ => ?_
  have hslope (bias : Option Multiplier) : Raises CompileError.Unfit (do
      let slope ← slopeMultiplier name activation
      return (({ out, bias, slope } : Rescale), out.ratio * acc)) :=
    (raises_slopeMultiplier _ _).bind fun _ _ => raises_ok _
  cases bias with
  | none => exact hslope none
  | some bias => exact ((raises_ratioMultiplier _ _ _).map _).bind fun bias _ => hslope bias

/-- The rescaling of a sum fails for the ratios of its two terms, which share a
shift. -/
theorem raises_sumRescale (name : String) (target left right : Float) :
    Raises CompileError.Unfit (sumRescale name target left right) := by
  simp only [sumRescale]
  split
  · exact raises_check ⟨rfl, rfl⟩ (raises_check ⟨rfl, rfl⟩ (raises_ok _))
  · exact raises_error ⟨rfl, rfl⟩

namespace Graph

variable {g g' : Graph} {ranges : ValueRanges}

/-- The first pass over the tensors of a graph fails at one of them. -/
theorem raises_withInitialQuant (g : Graph) (ranges : ValueRanges) :
    Raises CompileError.Unfit (g.withInitialQuant ranges) := by
  unfold withInitialQuant
  refine (raises_mapM fun t _ => ?_).bind fun _ _ => raises_ok _
  exact (raises_initialQuant ranges t).bind fun _ _ => raises_ok _

/-- An operator that is rescaled fails for one of its ratios, whatever its
kind. -/
theorem raises_rescaled (g : Graph) (op : Operator) :
    Raises CompileError.Unfit (g.rescaled op) := by
  simp only [rescaled]
  split
  · exact (raises_accumulatorRescale _ _ _ _ _).bind fun _ _ => raises_ok _
  · exact (raises_sumRescale _ _ _ _).bind fun _ _ => raises_ok _
  · exact (raises_accumulatorRescale _ _ _ _ _).bind fun _ _ => raises_ok _
  · exact (raises_accumulatorRescale _ _ _ _ _).bind fun _ _ => raises_ok _

/-- One step of the propagation fails as the parameters of its output do. -/
theorem raises_withPropagated (g : Graph) (op : Operator) :
    Raises CompileError.Unfit (g.withPropagated op) := by
  unfold withPropagated
  exact .ite (raises_ok g) ((raises_fullWidth _ _ _ _).bind fun _ _ => raises_ok _)

/-- An operator whose operands have ranges raises no other errors. -/
theorem raises_quantizeOperator {P : CompileError → Prop} (hP : ∀ e : CompileError, e.Unfit → P e)
    {i : OperatorId} (hoperands : Raises P (g.checkOperands (g.operator i))) :
    Raises P (g.quantizeOperator i) := by
  unfold quantizeOperator
  refine hoperands.bind fun _ _ => ((raises_withPropagated g _).mono hP).bind fun g₁ _ => ?_
  exact ((raises_rescaled g₁ _).mono hP).bind fun _ _ => raises_ok _

/-- **Quantization raises errors of its own only**: the graph that it walks has
an order. -/
theorem raises_quantize (hg : g.WellFormed) (ranges : ValueRanges) :
    RaisesAt .quantize (g.quantize ranges) := by
  have hunfit (e : CompileError) (h : e.Unfit) : e.stage = .quantize := h.1
  have hoperands (g : Graph) (op : Operator) : RaisesAt .quantize (g.checkOperands op) := by
    unfold checkOperands
    split
    · exact raises_error rfl
    · exact raises_ok ()
  unfold quantize
  refine ((raises_withInitialQuant _ ranges).mono hunfit).bind fun g₁ h₁ => ?_
  have hsame := (unscaled_withInitialQuant h₁).trans (unscaled_unquantized g)
  have hg₁ := (sameDeclaration (declared_eq_of_unscaled_eq hsame)).wellFormed hg
  obtain ⟨order, horder⟩ := hg₁.exists_order
  refine Raises.bind (.of_ok (mapError_ok_iff.2 horder)) fun order _ => ?_
  refine (raises_foldlM (fun g i _ => raises_quantizeOperator hunfit (hoperands g _)) g₁).bind
    fun g₂ _ => ?_
  refine Raises.bind ?_ fun _ _ => raises_ok _
  unfold checkQuantized
  split
  · exact raises_error rfl
  · exact raises_ok ()

end Graph

/-! ## Scheduling -/

/-- A factor of zero is refused at the schedule. -/
theorem raises_requestedFactor (name : String) (field : AttributeField) (request : Option Nat)
    (default : Nat) : RaisesAt .schedule (requestedFactor name field request default) := by
  unfold requestedFactor
  split
  · exact raises_error rfl
  · exact raises_ok _
  · exact raises_ok _

/-- A factor that fills no burst is refused at the schedule. -/
theorem raises_burstFactor (c : HardwareConfig) (name : String) (field : AttributeField)
    (t : Tensor) (factor : Nat) :
    RaisesAt .schedule (burstFactor c name field t factor).outcome := by
  simp only [burstFactor]
  split
  · cases c.burstPolicy with
    | reject => exact raises_error rfl
    | widen => exact raises_ok _
  · exact raises_ok _

namespace Graph

variable {c : HardwareConfig}

/-- The factors of a matrix product are requested, fill bursts and divide each
other, or are refused at the schedule. -/
theorem raises_matmulFactors (g : Graph) (c : HardwareConfig) (name : String) (o : Matmul)
    (request : AttributeRequest) :
    RaisesAt .schedule (g.matmulFactors c name o request).outcome := by
  -- what comes after the factor of the columns of the right operand
  have hrest (a b d : Nat) : RaisesAt .schedule (do
      let outColumns ← burstFactor c name .outColumns (g.tensor o.output) d
      let inFlight ← requestedFactor name .inFlight request.inFlight outColumns
      if inFlight % outColumns ≠ 0 then
        throw (CompileError.attributes name (.notMultiple inFlight outColumns))
      let factors : MatmulFactors :=
        { leftColumns := a, leftRows := b, outColumns
          inFlight := min inFlight (roundUp (g.tensor o.output).innermost outColumns)
          stationary := request.stationary.getD .right }
      Traced.note (.matmulScheduled name factors)
      return factors : Traced CompileError MatmulFactors).outcome := by
    simp only [Traced.outcome_bind, Traced.outcome_liftM]
    refine (raises_burstFactor _ _ _ _ _).bind fun _ _ =>
      (raises_requestedFactor _ _ _ _).bind fun _ _ => ?_
    exact raises_traced_check rfl (raises_ok _)
  simp only [matmulFactors, Traced.outcome_bind, Traced.outcome_liftM]
  refine (raises_requestedFactor _ _ _ _).bind fun _ _ =>
    (raises_requestedFactor _ _ _ _).bind fun _ _ =>
    (raises_requestedFactor _ _ _ _).bind fun _ _ =>
      (raises_burstFactor _ _ _ _ _).bind fun _ _ => ?_
  split
  · rw [Traced.outcome_bind]
    exact (raises_burstFactor _ _ _ _ _).bind fun _ _ => hrest _ _ _
  · exact hrest _ _ _

/-- So are the lanes of an elementwise operator, which may not be asked for the
factors of a product. -/
theorem raises_laneFactor (g : Graph) (c : HardwareConfig) (name : String) (o : Operation)
    (request : AttributeRequest) : RaisesAt .schedule (g.laneFactor c name o request).outcome := by
  have helementwise : RaisesAt .schedule (checkElementwise name request) := by
    unfold checkElementwise
    exact raises_check rfl (raises_check rfl (.ite (raises_error rfl) (raises_ok ())))
  simp only [laneFactor, Traced.outcome_bind, Traced.outcome_liftM]
  refine helementwise.bind fun _ _ => (raises_requestedFactor _ _ _ _).bind fun lanes _ => ?_
  refine raises_traced_check rfl ?_
  rw [Traced.outcome_bind, outcome_foldlM]
  exact (raises_foldlM (fun lanes id _ => raises_burstFactor c name .outColumns (g.tensor id) lanes)
    lanes).bind
    fun _ _ => raises_ok _

/-- **Scheduling raises errors of its own only**, for a configuration that is
valid. -/
theorem raises_schedule (g : Graph) (hc : c.validate = .ok ()) (requests : AttributeRequests) :
    RaisesAt .schedule (g.schedule c requests).outcome := by
  have hrequests : RaisesAt .schedule (g.checkRequests requests) := by
    unfold checkRequests
    split
    · exact raises_error rfl
    · exact raises_ok ()
  have hoperator (g : Graph) (i : OperatorId) :
      RaisesAt .schedule (scheduleOperator c requests g i) := by
    rw [scheduleOperator, outcome_applyAttributes]
    refine Raises.map ?_ _
    unfold scheduledOperation
    split
    · exact (raises_matmulFactors _ _ _ _ _).map _
    · exact (raises_laneFactor _ _ _ _ _).map _
  rw [outcome_schedule]
  refine Raises.bind (.of_ok (mapError_ok_iff.2 hc)) fun _ _ => hrequests.bind fun _ _ => ?_
  exact (raises_foldlM (fun g i _ => hoperator g i) g).bind fun _ _ => raises_ok _

end Graph

end QuantAccel
