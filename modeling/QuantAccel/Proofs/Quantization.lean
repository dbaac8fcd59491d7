import QuantAccel.Proofs.Declaration
import QuantAccel.Quantization

/-!
# What quantization adds

A graph that was quantized has multipliers at every operator, since its
dependency order goes through all of them, and integers of the element type at
every parameter. Its declaration is the one it had.
-/

namespace QuantAccel

/-- Whether the operation has its multipliers. -/
def Operation.isRescaled : Operation → Bool
  | matmul o => o.rescale.isSome
  | add o => o.rescale.isSome
  | normalize o => o.rescale.isSome
  | activate o => o.rescale.isSome

theorem Operation.isRescaled_logical (o : Operation) : o.logical.isRescaled = o.isRescaled := by
  cases o <;> rfl

/-- Whether an integer is an element of the type. -/
def ElementType.Contains (t : ElementType) (x : Int) : Prop :=
  t.least ≤ x ∧ x ≤ t.greatest

instance (t : ElementType) (x : Int) : Decidable (t.Contains x) :=
  inferInstanceAs (Decidable (t.least ≤ x ∧ x ≤ t.greatest))

/-- A saturated number is of the element type. -/
theorem ElementType.contains_saturate (t : ElementType) (x : Int) : t.Contains (t.saturate x) :=
  clamp_mem t.least_le_greatest x

/-- Elements of the type are stored as they are. -/
theorem ElementType.map_reduce_of_contains {t : ElementType} {values : Array Int}
    (h : ∀ x ∈ values, t.Contains x) : values.map t.reduce = values := by
  rw [Array.map_congr_left fun x hx => t.reduce_of_mem (h x hx).1 (h x hx).2, Array.map_id']

namespace Graph

variable {g g' q : Graph} {ranges : ValueRanges}

/-- A graph whose operators have multipliers and whose parameters have
integers. -/
structure Quantized (g : Graph) : Prop where
  rescaled : ∀ i < g.operators.size, (g.operator i).operation.isRescaled
  ints : ∀ i < g.tensors.size, (g.tensor i).kind.isParameter →
    ∃ ints, (g.tensor i).ints = some ints ∧
    ints.size = (g.tensor i).volume ∧ ∀ x ∈ ints, (g.tensor i).element.Contains x

/-- Being quantized is a matter of the logical graph. -/
theorem Quantized.of_logical_eq (hg : g.Quantized) (h : g'.logical = g.logical) : g'.Quantized := by
  have hsame := sameDeclaration (declared_eq_of_logical_eq h)
  have hints (i : TensorId) : (g'.tensor i).ints = (g.tensor i).ints := by
    have hi := congrArg (fun g => (g.tensor i).ints) h
    simp only [tensor_logical] at hi
    exact hi
  have hop (i : OperatorId) :
      (g'.operator i).operation.isRescaled = (g.operator i).operation.isRescaled := by
    have hi := congrArg (fun g => (g.operator i).operation.isRescaled) h
    simpa only [operator_logical, Operator.logical, Operation.isRescaled_logical] using hi
  constructor
  · intro i hi
    rw [hop]
    exact hg.rescaled i (hsame.operators_size ▸ hi)
  · intro i hi hkind
    rw [hsame.kind] at hkind
    rw [hints, Tensor.volume, hsame.shape, hsame.element]
    exact hg.ints i (hsame.tensors_size ▸ hi) hkind

/-! ## The passes -/

theorem unscaled_unquantized (g : Graph) : g.unquantized.unscaled = g.unscaled :=
  unscaled_mapTensors fun _ => rfl

/-- Lists that match element by element have the same images. -/
theorem map_eq_of_forall₂ {α β : Type} {f : α → β} {l l' : List α}
    (h : List.Forall₂ (fun a a' => f a' = f a) l l') : l'.map f = l.map f := by
  induction h with
  | nil => rfl
  | cons hab _ ih => rw [List.map_cons, List.map_cons, hab, ih]

/-- The first pass changes nothing but scales. -/
theorem unscaled_withInitialQuant (h : g.withInitialQuant ranges = .ok g') :
    g'.unscaled = g.unscaled := by
  unfold withInitialQuant at h
  obtain ⟨tensors, hmap, h⟩ := bind_ok_iff.1 h
  obtain rfl := pure_ok_iff.1 h
  have hall : List.Forall₂ (fun t t' => Tensor.unscaled t' = Tensor.unscaled t) g.tensors.toList
      tensors := by
    refine (mapM_ok_iff.1 hmap).imp fun t t' ht => ?_
    obtain ⟨quant, -, ht⟩ := bind_ok_iff.1 ht
    obtain rfl := pure_ok_iff.1 ht
    rfl
  have hlist := map_eq_of_forall₂ hall
  simp only [unscaled]
  congr 1
  rw [← Array.toList_inj]
  simpa using hlist

/-- A rescaled operator has its multipliers, and nothing else of it changed. -/
theorem rescaled_ok {op op' : Operator} {realised : Float}
    (h : g.rescaled op = .ok (op', realised)) :
    op'.unscaled = op.unscaled ∧ op'.operation.isRescaled := by
  unfold rescaled at h
  split at h
  all_goals
    rename_i hop
    obtain ⟨⟨rescale, scale⟩, -, h⟩ := bind_ok_iff.1 h
    obtain ⟨rfl, -⟩ := Prod.mk.inj (pure_ok_iff.1 h)
    exact ⟨by simp [Operator.unscaled, hop, Operation.unscaled], rfl⟩

/-- A step of the propagation changes the scale of a tensor at most. -/
theorem withPropagated_ok {op : Operator} (h : g.withPropagated op = .ok g') :
    g'.unscaled = g.unscaled ∧ g'.operators = g.operators := by
  simp only [withPropagated] at h
  split at h
  · obtain rfl := pure_ok_iff.1 h
    exact ⟨rfl, rfl⟩
  · obtain ⟨quant, -, h⟩ := bind_ok_iff.1 h
    obtain rfl := pure_ok_iff.1 h
    exact ⟨unscaled_modifyTensor fun _ => rfl, rfl⟩

/-- **One operator is quantized**: it gets its multipliers, and the others
stay. -/
theorem quantizeOperator_ok {i : OperatorId} (hi : i < g.operators.size)
    (h : g.quantizeOperator i = .ok g') :
    g'.unscaled = g.unscaled ∧ (g'.operator i).operation.isRescaled ∧
      ∀ j ≠ i, g'.operator j = g.operator j := by
  unfold quantizeOperator at h
  obtain ⟨-, -, h⟩ := bind_ok_iff.1 h
  obtain ⟨g₁, h₁, h⟩ := bind_ok_iff.1 h
  obtain ⟨⟨op', realised⟩, hop', h⟩ := bind_ok_iff.1 h
  obtain rfl := pure_ok_iff.1 h
  obtain ⟨hsame, hops⟩ := withPropagated_ok h₁
  obtain ⟨hsame', hrescaled⟩ := rescaled_ok hop'
  have hat := operator_congr hops
  refine ⟨?_, ?_, fun j hj => ?_⟩
  · rw [unscaled_modifyTensor, unscaled_modifyOperator, hsame]
    · rw [hat, hsame']
    · exact fun _ => rfl
  · rw [operator_modifyTensor, operator_modifyOperator_self (hops ▸ hi)]
    exact hrescaled
  · rw [operator_modifyTensor, operator_modifyOperator_of_ne hj, hat]

/-- After the last check every tensor has parameters. -/
theorem checkQuantized_ok {u : Unit} (h : g.checkQuantized = .ok u) :
    ∀ i < g.tensors.size, (g.tensor i).quant.isSome := by
  intro i hi
  unfold checkQuantized at h
  split at h
  · cases h
  · rename_i hnone
    have hi' := List.find?_eq_none.1 hnone (g.tensor i)
      (by simp [tensor, Array.getD_eq_getD_getElem?, hi])
    simpa [Option.isSome_iff_ne_none] using hi'

/-- The integers that a parameter takes. -/
theorem ints_withParameterInts {i : TensorId} (hi : i < g.tensors.size) {values : Array Float}
    {params : QuantParams} (hvalues : (g.tensor i).kind.values? = some values)
    (hquant : (g.tensor i).quant = some params) : (g.withParameterInts.tensor i).ints =
      some (values.map fun v => (g.tensor i).element.saturate (quantizeValue v params.scale)) := by
  have htensor : g.tensor i = g.tensors[i] := by simp [tensor, Array.getD_eq_getD_getElem?, hi]
  rw [htensor] at hvalues hquant ⊢
  simp [withParameterInts, mapTensors, tensor, Array.getD_eq_getD_getElem?, hi, hvalues, hquant]

/-- A parameter takes integers, and nothing else changes. -/
theorem withParameterInts_spec (g : Graph) :
    g.withParameterInts.unscaled = g.unscaled ∧
      ∀ i, (g.withParameterInts.tensor i).quant = (g.tensor i).quant := by
  constructor
  · refine unscaled_mapTensors fun t => ?_
    cases t.kind.values? <;> cases t.quant <;> rfl
  · intro i
    by_cases hi : i < g.tensors.size
    · simp only [withParameterInts, mapTensors, tensor, Array.getD_eq_getD_getElem?,
        Array.getElem?_map, hi, getElem?_pos, Option.map_some, Option.getD_some]
      split <;> simp_all
    · simp [withParameterInts, mapTensors, tensor, Array.getD_eq_getD_getElem?, hi]

/-- **What quantization adds to a well-formed graph.** -/
theorem quantize_adds (hg : g.WellFormed) (h : g.quantize ranges = .ok q) :
    q.unscaled = g.unscaled ∧ q.Quantized ∧ ∀ i < q.tensors.size, (q.tensor i).quant.isSome := by
  unfold quantize at h
  simp only [bind_ok_iff, mapError_ok_iff, pure_ok_iff] at h
  obtain ⟨g₁, h₁, order, horder, g₂, h₂, _, hcheck, rfl⟩ := h
  have hsame₁ := unscaled_withInitialQuant h₁
  rw [unscaled_unquantized] at hsame₁
  have hg₁ := (sameDeclaration (declared_eq_of_unscaled_eq hsame₁)).wellFormed hg
  have hordered := ordered_of_order hg₁.operator_id horder
  obtain ⟨hsame₂, hrescaled⟩ : g₂.unscaled = g₁.unscaled ∧
      ∀ i ∈ order, (g₂.operator i).operation.isRescaled := by
    refine foldlM_operators (I := fun g => g.unscaled = g₁.unscaled)
      (P := fun op => op.operation.isRescaled) ?_ rfl h₂
    intro g g' i hi hsame hstep
    have hsizes := sameDeclaration (declared_eq_of_unscaled_eq hsame)
    have hlt : i < g.operators.size := hsizes.operators_size ▸ hordered.mem_iff.1 hi
    obtain ⟨hsame', hop, hothers⟩ := quantizeOperator_ok hlt hstep
    exact ⟨hsame'.trans hsame, hop, hothers⟩
  obtain ⟨hsame₃, hquant₃⟩ := withParameterInts_spec g₂
  have hdecl₂ := sameDeclaration (declared_eq_of_unscaled_eq hsame₂)
  have hg₂ := hdecl₂.wellFormed hg₁
  have hdecl₃ := sameDeclaration (declared_eq_of_unscaled_eq hsame₃)
  have hquant := checkQuantized_ok hcheck
  refine ⟨(hsame₃.trans hsame₂).trans hsame₁, ⟨fun i hi => ?_, fun i hi hkind => ?_⟩,
    fun i hi => ?_⟩
  · have hi₁ : i < g₁.operators.size := by
      rw [← hdecl₂.operators_size]
      exact hi
    exact hrescaled i (hordered.mem_iff.2 hi₁)
  · have hi₂ : i < g₂.tensors.size := hdecl₃.tensors_size ▸ hi
    rw [hdecl₃.kind] at hkind
    obtain ⟨values, hvalues⟩ := Option.isSome_iff_exists.1 hkind
    obtain ⟨params, hparams⟩ := Option.isSome_iff_exists.1 (hquant i hi₂)
    refine ⟨_, ints_withParameterInts hi₂ hvalues hparams, ?_, ?_⟩
    · rw [Array.size_map, hg₂.values_size i hi₂ values hvalues, Tensor.volume, Tensor.volume,
        hdecl₃.shape]
    · intro x hx
      obtain ⟨v, -, rfl⟩ := Array.mem_map.1 hx
      rw [hdecl₃.element]
      exact ElementType.contains_saturate _ _
  · rw [hquant₃]
    exact hquant i (hdecl₃.tensors_size ▸ hi)

/-- **Quantization keeps the declaration** and leaves every tensor and every
operator quantized. -/
theorem quantize_spec (hg : g.WellFormed) (h : g.quantize ranges = .ok q) :
    q.declared = g.declared ∧ q.Quantized := by
  obtain ⟨hsame, hquantized, -⟩ := quantize_adds hg h
  exact ⟨declared_eq_of_unscaled_eq hsame, hquantized⟩

end Graph

end QuantAccel
