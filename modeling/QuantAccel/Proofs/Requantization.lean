import QuantAccel.Kernel.Fixed
import QuantAccel.Proofs.Accumulator
import QuantAccel.Proofs.Quantization

/-!
# Requantization keeps the order

An accumulator becomes an element by an activation, a rescaling and a
saturation. Each of the three keeps the order and leaves zero where it is, the
leaky activation because its two branches meet at zero. So does their
composition (`finish_ordered`), and with it each kernel as a function of one
operand whose factor is not negative.
-/

namespace QuantAccel

namespace ElementType

theorem saturate_mono (t : ElementType) : Monotone t.saturate :=
  fun _ _ h => clamp_mono h

/-- Zero is an element of every type. -/
theorem contains_zero (t : ElementType) : t.Contains 0 := by
  have h₁ := Nat.two_pow_pos (t.width - 1)
  have h₂ := Nat.two_pow_pos t.width
  have hword : (0 : Int) ≤ Word64.greatest := by decide
  rw [Contains, least, greatest]
  split <;> simp only [Nat.pow_eq] <;> omega

@[simp] theorem saturate_zero (t : ElementType) : t.saturate 0 = 0 :=
  clamp_of_mem t.contains_zero.1 t.contains_zero.2

end ElementType

namespace Kernel

variable {rescale : Rescale} {pair : PairRescale}

/-! ## Activations -/

/-- The branch below zero does not reach above zero. -/
theorem activated_leakyRelu_nonpos (hslope : ∀ slope ∈ rescale.slope, 0 ≤ slope.factor)
    {alpha : Float} {acc : Int} (h : acc < 0) :
    activated acc rescale (some (.leakyRelu alpha)) ≤ 0 := by
  rw [activated, if_pos h]
  cases hs : rescale.slope with
  | none => exact le_rfl
  | some slope => exact Multiplier.apply_nonpos (hslope slope hs) h.le

/-- **An activation keeps the order** of accumulators, whatever its slope below
zero. -/
theorem activated_mono (hslope : ∀ slope ∈ rescale.slope, 0 ≤ slope.factor)
    (activation : Option Activation) :
    Monotone (activated · rescale activation) := by
  intro x y h
  rcases activation with _ | _ | _
  · exact h
  · exact max_le_max_right 0 h
  · by_cases hy : y < 0
    · simp only [activated, if_pos (h.trans_lt hy), if_pos hy]
      cases hs : rescale.slope with
      | none => exact le_rfl
      | some slope => exact Multiplier.apply_mono (hslope slope hs) h
    by_cases hx : x < 0
    · refine (activated_leakyRelu_nonpos hslope hx).trans ?_
      simpa only [activated, if_neg hy] using not_lt.1 hy
    · simpa only [activated, if_neg hy, if_neg hx] using h

@[simp] theorem activated_zero (rescale : Rescale) (activation : Option Activation) :
    activated 0 rescale activation = 0 := by
  rcases activation with _ | _ | _ <;> rfl

/-! ## Elements -/

/-- **What an accumulator becomes grows with it.** -/
theorem finish_mono (hout : 0 ≤ rescale.out.factor)
    (hslope : ∀ slope ∈ rescale.slope, 0 ≤ slope.factor) (activation : Option Activation)
    (t : ElementType) : Monotone (finish · rescale activation t) :=
  fun _ _ h => t.saturate_mono (Multiplier.apply_mono hout (activated_mono hslope activation h))

@[simp] theorem finish_zero (rescale : Rescale) (activation : Option Activation) (t : ElementType) :
    finish 0 rescale activation t = 0 := by
  rw [finish, activated_zero, Multiplier.apply_zero, ElementType.saturate_zero]

/-- A rectified result is not negative, if the multiplier is not. -/
theorem finish_relu_nonneg (hout : 0 ≤ rescale.out.factor) (t : ElementType) (acc : Int) :
    0 ≤ finish acc rescale (some .relu) t := by
  have hrescaled : 0 ≤ rescale.out.apply (max acc 0) :=
    Multiplier.apply_nonneg hout (le_max_right acc 0)
  rw [← t.saturate_zero]
  exact t.saturate_mono hrescaled

/-- A bias keeps the order of accumulators. -/
theorem withBias_mono (bias : Option Int) (rescale : Rescale) :
    Monotone (withBias · bias rescale) := by
  intro x y h
  simp only [withBias]
  split
  · exact Accumulator.add_le_add h le_rfl
  · exact h

/-- A sum keeps the order of its weighted terms. -/
theorem addElement_mono {left left' right right' : Int} (t : ElementType)
    (hleft : left * pair.left ≤ left' * pair.left)
    (hright : right * pair.right ≤ right' * pair.right) :
    addElement left right pair t ≤ addElement left' right' pair t :=
  t.saturate_mono (roundShift_mono pair.shift (Accumulator.add_le_add hleft hright))

/-- **Requantization keeps the order and is bounded**, for every element type
and every activation, where the multipliers of the result and of the slope are
not negative. It leaves zero at zero, gives elements of the type only, and none
below zero after a rectification. So a normalization with a gain that is not
negative keeps the order of its inputs, and a sum that of either operand whose
factor is not negative. -/
theorem finish_ordered (hout : 0 ≤ rescale.out.factor)
    (hslope : ∀ slope ∈ rescale.slope, 0 ≤ slope.factor) (activation : Option Activation)
    (t : ElementType) :
    (Monotone fun acc => finish acc rescale activation t) ∧
    finish 0 rescale activation t = 0 ∧
    (∀ acc, t.Contains (finish acc rescale activation t)) ∧
    (∀ acc, 0 ≤ finish acc rescale (some .relu) t) ∧
    (∀ gain offset, 0 ≤ gain →
      Monotone fun x => normalizeElement x gain offset rescale activation t) ∧
    ∀ pair : PairRescale,
      (0 ≤ pair.left → ∀ right, Monotone fun left => addElement left right pair t) ∧
      (0 ≤ pair.right → ∀ left, Monotone fun right => addElement left right pair t) := by
  have hmono := finish_mono hout hslope activation t
  refine ⟨hmono, finish_zero rescale activation t, fun acc => t.contains_saturate _,
    finish_relu_nonneg hout t, fun gain offset hgain x y h => ?_, fun pair => ⟨?_, ?_⟩⟩
  · exact hmono (withBias_mono (some offset) rescale (Int.mul_le_mul_of_nonneg_right h hgain))
  · intro hleft right x y h
    exact addElement_mono t (Int.mul_le_mul_of_nonneg_right h hleft) le_rfl
  · intro hright left x y h
    exact addElement_mono t le_rfl (Int.mul_le_mul_of_nonneg_right h hright)

/-- A leaky activation with a slope of one quarter, from one end of the word to
the other. -/
theorem finish_ordered_leaky :
    let rescale : Rescale := ⟨⟨3, 126⟩, none, some ⟨1, 2⟩⟩
    let leaky : Option Activation := some (.leakyRelu 0.25)
    0 ≤ rescale.out.factor ∧ (∀ slope ∈ rescale.slope, 0 ≤ slope.factor) ∧
    finish Accumulator.least rescale leaky .int32 = -1 ∧
      finish Accumulator.greatest rescale leaky .int32 = 1 ∧
    finish Accumulator.least rescale leaky .int32 ≤ finish (-1) rescale leaky .int32 ∧
    finish (-1) rescale leaky .int32 ≤ finish Accumulator.greatest rescale leaky .int32 := by
  intro rescale leaky
  have hout : 0 ≤ rescale.out.factor := by decide
  have hslope : ∀ slope ∈ rescale.slope, 0 ≤ slope.factor := by decide
  obtain ⟨hmono, -⟩ := finish_ordered hout hslope leaky .int32
  exact ⟨hout, hslope, by decide, by decide, hmono (by decide), hmono (by decide)⟩

end Kernel

end QuantAccel
