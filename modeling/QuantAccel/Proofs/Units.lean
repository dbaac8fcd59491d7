import Mathlib
import QuantAccel.Schedule.Alignment

/-!
# Sharing units ends, and ends at the least units

Raising a unit and sharing units among a group only ever replace a unit by a
common multiple, so what they give is described by what it divides into. Sharing
passes are repeated until one changes nothing (`Settles`). A pass that changes
something at least doubles a unit, while all units keep dividing one common
multiple: the binary logarithms of the units add up to more with each pass, and
to a bounded sum, so the passes end. **Whatever agrees on the groups and is
divided by the units before is divided by the units after**, which makes the
units at the end the least ones that agree.
-/

namespace QuantAccel

/-! ## Common multiples -/

/-- **A common multiple divides what each of its parts divides.** -/
theorem foldl_lcm_dvd_iff {α : Type} (f : α → Nat) (l : List α) (u m : Nat) :
    l.foldl (fun u a => Nat.lcm u (f a)) u ∣ m ↔ u ∣ m ∧ ∀ a ∈ l, f a ∣ m := by
  induction l generalizing u with
  | nil => simp
  | cons a l ih => rw [List.foldl_cons, ih, Nat.lcm_dvd_iff, List.forall_mem_cons, and_assoc]

/-- The common multiple that the fuel of a sharing loop is counted in. -/
def overallUnit (units : Array Nat) : Nat :=
  units.toList.foldl Nat.lcm 1

/-- The unit that a group gets when it shares. -/
def commonUnit (units : Array Nat) (group : List TensorId) : Nat :=
  group.foldl (fun u id => Nat.lcm u (units.getD id 1)) 1

/-- Every unit divides the bound of its tensor. -/
def DivideInto (units : Array Nat) (bound : TensorId → Nat) : Prop :=
  ∀ i, units.getD i 1 ∣ bound i

/-- All tensors of a group have one unit. -/
def Agree (groups : List (List TensorId)) (unit : TensorId → Nat) : Prop :=
  ∀ group ∈ groups, ∀ i ∈ group, ∀ j ∈ group, unit i = unit j

section Units

variable {units units' result : Array Nat} {bound : TensorId → Nat} {groups : List (List TensorId)}

/-- The common unit of a group divides what all of its units divide. -/
theorem commonUnit_dvd_iff {group : List TensorId} {m : Nat} :
    commonUnit units group ∣ m ↔ ∀ i ∈ group, units.getD i 1 ∣ m := by
  rw [commonUnit, foldl_lcm_dvd_iff]
  exact and_iff_right (one_dvd m)

theorem getD_of_size_le {i : TensorId} (hi : units.size ≤ i) : units.getD i 1 = 1 := by
  simp [Array.getD_eq_getD_getElem?, hi]

theorem DivideInto.refl (units : Array Nat) : DivideInto units fun i => units.getD i 1 :=
  fun i => dvd_refl (units.getD i 1)

theorem DivideInto.trans (h : DivideInto units fun i => units'.getD i 1)
    (h' : DivideInto units' bound) :
    DivideInto units bound :=
  fun i => (h i).trans (h' i)

/-- Units that divide each other are the same. -/
theorem DivideInto.antisymm (h : DivideInto units fun i => units'.getD i 1)
    (h' : DivideInto units' fun i => units.getD i 1) (hsize : units'.size = units.size) :
    units' = units := by
  refine Array.ext hsize fun i hi hi' => ?_
  have heq : units'.getD i 1 = units.getD i 1 := Nat.dvd_antisymm (h' i) (h i)
  simpa [Array.getD_eq_getD_getElem?, hi, hi'] using heq

/-- All units divide their overall multiple. -/
theorem divideInto_overallUnit (units : Array Nat) :
    DivideInto units fun _ => overallUnit units := by
  intro i
  by_cases hi : i < units.size
  · have hmem : units.getD i 1 ∈ units.toList := by simp [Array.getD_eq_getD_getElem?, hi]
    exact ((foldl_lcm_dvd_iff id units.toList 1 (overallUnit units)).1 dvd_rfl).2 _ hmem
  · rw [getD_of_size_le (by omega)]
    exact one_dvd _

theorem overallUnit_pos (h : ∀ i, 0 < units.getD i 1) : 0 < overallUnit units := by
  have hprod : overallUnit units ∣ units.toList.prod :=
    (foldl_lcm_dvd_iff id units.toList 1 _).2 ⟨one_dvd _, fun u hu => List.dvd_prod hu⟩
  refine Nat.pos_of_dvd_of_pos hprod (List.prod_pos fun u hu => ?_)
  obtain ⟨i, hi, rfl⟩ := Array.getElem_of_mem (Array.mem_toList_iff.1 hu)
  simpa [Array.getD_eq_getD_getElem?, hi] using h i

/-! ## Raising units -/

theorem size_foldl_raiseUnit (touches : List Touch) (factor : Touch → Nat) (units : Array Nat) :
    (touches.foldl (fun units t => raiseUnit units t.tensor (factor t)) units).size =
      units.size := by
  induction touches generalizing units with
  | nil => rfl
  | cons t touches ih => rw [List.foldl_cons, ih, raiseUnit, Array.size_modify]

/-- A raised unit divides what the unit and the factor divide; the other units
are as they were. -/
theorem raiseUnit_dvd_iff {id i : TensorId} {factor m : Nat} (hi : i < units.size) :
    (raiseUnit units id factor).getD i 1 ∣ m ↔ units.getD i 1 ∣ m ∧ (id = i → factor ∣ m) := by
  simp only [raiseUnit, Array.getD_eq_getD_getElem?, Array.getElem?_modify]
  by_cases hid : id = i
  · simp [hi, hid, Nat.lcm_dvd_iff]
  · simp [hid]

/-- **Units raised by touches** divide what they divided before, as far as all
factors do. -/
theorem foldl_raiseUnit_dvd_iff {touches : List Touch} {factor : Touch → Nat}
    {i : TensorId} {m : Nat} (hi : i < units.size) :
    (touches.foldl (fun units t => raiseUnit units t.tensor (factor t)) units).getD i 1 ∣ m ↔
      units.getD i 1 ∣ m ∧ ∀ t ∈ touches, t.tensor = i → factor t ∣ m := by
  induction touches generalizing units with
  | nil => simp
  | cons t touches ih =>
    have hsize : i < (raiseUnit units t.tensor (factor t)).size := by simpa [raiseUnit] using hi
    rw [List.foldl_cons, ih hsize, raiseUnit_dvd_iff hi, List.forall_mem_cons, and_assoc]

theorem raiseUnit_pos {id : TensorId} {factor : Nat} (hf : 0 < factor)
    (h : ∀ i, 0 < units.getD i 1) (i : TensorId) : 0 < (raiseUnit units id factor).getD i 1 := by
  have hi := h i
  unfold raiseUnit
  rw [Array.getD_eq_getD_getElem?] at hi ⊢
  rw [Array.getElem?_modify]
  split
  · cases hu : units[i]? with
    | none => exact Nat.one_pos
    | some unit =>
      rw [hu] at hi
      exact Nat.lcm_pos hi hf
  · exact hi

/-- Units stay positive when they are raised by positive factors. -/
theorem foldl_raiseUnit_pos {touches : List Touch} {factor : Touch → Nat}
    (hf : ∀ t ∈ touches, 0 < factor t) (h : ∀ i, 0 < units.getD i 1) (i : TensorId) :
    0 < (touches.foldl (fun units t => raiseUnit units t.tensor (factor t)) units).getD i 1 := by
  induction touches generalizing units with
  | nil => exact h i
  | cons t touches ih =>
    exact ih (fun t' ht' => hf t' (List.mem_cons_of_mem t ht'))
      (raiseUnit_pos (hf t List.mem_cons_self) h)

/-! ## Sharing in one group -/

theorem size_shareUnit (units : Array Nat) (group : List TensorId) :
    (shareUnit units group).size = units.size := by
  simp only [shareUnit]
  generalize group.foldl (fun u id => Nat.lcm u (units.getD id 1)) 1 = unit
  induction group generalizing units with
  | nil => rfl
  | cons id group ih => rw [List.foldl_cons, ih, Array.size_setIfInBounds]

/-- What sharing does to each unit. -/
theorem getD_shareUnit (units : Array Nat) (group : List TensorId) (i : TensorId) :
    (shareUnit units group).getD i 1 =
      if i ∈ group ∧ i < units.size then commonUnit units group else units.getD i 1 := by
  simp only [shareUnit, commonUnit]
  generalize group.foldl (fun u id => Nat.lcm u (units.getD id 1)) 1 = unit
  induction group generalizing units with
  | nil => simp
  | cons id group ih =>
    rw [List.foldl_cons, ih, Array.size_setIfInBounds]
    by_cases hi : i < units.size
    · by_cases hid : id = i
      · simp [Array.getD_eq_getD_getElem?, hi, hid]
      · simp [Array.getD_eq_getD_getElem?, hi, hid, Ne.symm hid]
    · simp [Array.getD_eq_getD_getElem?, hi]

/-- Sharing only ever goes up. -/
theorem divideInto_shareUnit (units : Array Nat) (group : List TensorId) :
    DivideInto units fun i => (shareUnit units group).getD i 1 := by
  intro i
  simp only [getD_shareUnit]
  split
  · rename_i hi
    exact commonUnit_dvd_iff.1 dvd_rfl i hi.1
  · exact dvd_rfl

/-- Sharing stays below every bound that is the same for the whole group. -/
theorem DivideInto.shareUnit (h : DivideInto units bound) {group : List TensorId}
    (hgroup : ∀ i ∈ group, ∀ j ∈ group, bound i = bound j) :
    DivideInto (QuantAccel.shareUnit units group) bound := by
  intro i
  rw [getD_shareUnit]
  split
  · rename_i hi
    refine commonUnit_dvd_iff.2 fun j hj => ?_
    rw [hgroup i hi.1 j hj]
    exact h j
  · exact h i

/-- A group in which sharing changes nothing agrees. -/
theorem agree_of_shareUnit_eq {group : List TensorId} (h : shareUnit units group = units)
    (hrange : ∀ i ∈ group, i < units.size) :
    ∀ i ∈ group, ∀ j ∈ group, units.getD i 1 = units.getD j 1 := by
  have hcommon : ∀ i ∈ group, units.getD i 1 = commonUnit units group := by
    intro i hi
    have hget := getD_shareUnit units group i
    rwa [h, if_pos ⟨hi, hrange i hi⟩] at hget
  intro i hi j hj
  rw [hcommon i hi, hcommon j hj]

/-! ## One pass over the groups -/

/-- Every group in turn shares its units. -/
def sharePass (groups : List (List TensorId)) (units : Array Nat) : Array Nat :=
  groups.foldl shareUnit units

theorem size_sharePass (groups : List (List TensorId)) (units : Array Nat) :
    (sharePass groups units).size = units.size := by
  induction groups generalizing units with
  | nil => rfl
  | cons group groups ih =>
    change (sharePass groups (shareUnit units group)).size = _
    rw [ih, size_shareUnit]

/-- A pass over the groups lets units grow only. -/
theorem divideInto_sharePass (groups : List (List TensorId)) (units : Array Nat) :
    DivideInto units fun i => (sharePass groups units).getD i 1 := by
  induction groups generalizing units with
  | nil => exact .refl units
  | cons group groups ih => exact (divideInto_shareUnit units group).trans (ih _)

/-- A pass stays below every bound on which the groups agree, since a common
multiple does. -/
theorem DivideInto.sharePass (h : DivideInto units bound) (hagree : Agree groups bound) :
    DivideInto (QuantAccel.sharePass groups units) bound := by
  induction groups generalizing units with
  | nil => exact h
  | cons group groups ih =>
    exact ih (h.shareUnit (hagree group List.mem_cons_self))
      fun group' hgroup' => hagree group' (List.mem_cons_of_mem group hgroup')

/-- A pass that changes nothing changes nothing at any of its groups: what one
group raised, no later one could lower again. -/
theorem shareUnit_eq_of_sharePass_eq (h : sharePass groups units = units) :
    ∀ group ∈ groups, shareUnit units group = units := by
  induction groups with
  | nil => exact fun _ hgroup => absurd hgroup List.not_mem_nil
  | cons first groups ih =>
    change sharePass groups (shareUnit units first) = units at h
    have hfirst : shareUnit units first = units := by
      refine (divideInto_shareUnit units first).antisymm ?_ (size_shareUnit units first)
      have hrest := divideInto_sharePass groups (shareUnit units first)
      rwa [h] at hrest
    rw [hfirst] at h
    intro group hgroup
    rcases List.mem_cons.1 hgroup with rfl | hgroup
    · exact hfirst
    · exact ih h group hgroup

/-! ## Repeated passes -/

/-- **The passes end**: repeating them from `units` until one changes nothing
stops at `result`. -/
inductive Settles (groups : List (List TensorId)) : (units result : Array Nat) → Prop
  | stable {units : Array Nat} : sharePass groups units = units → Settles groups units units
  | pass {units result : Array Nat} : sharePass groups units ≠ units →
      Settles groups (sharePass groups units) result → Settles groups units result

namespace Settles

variable (h : Settles groups units result)

include h

theorem size : result.size = units.size := by
  induction h with
  | stable _ => rfl
  | pass _ _ ih => rw [ih, size_sharePass]

/-- Another pass over the result changes nothing. -/
theorem sharePass_eq : sharePass groups result = result := by
  induction h with
  | stable hstable => exact hstable
  | pass _ _ ih => exact ih

/-- The units divide the result. -/
theorem grows : DivideInto units fun i => result.getD i 1 := by
  induction h with
  | stable _ => exact .refl _
  | pass _ _ ih => exact (divideInto_sharePass groups _).trans ih

/-- The result divides every bound on which the groups agree. -/
theorem divideInto (hunits : DivideInto units bound) (hagree : Agree groups bound) :
    DivideInto result bound := by
  induction h with
  | stable _ => exact hunits
  | pass _ _ ih => exact ih (hunits.sharePass hagree)

/-- The groups agree on the result, as they are all in range. -/
theorem agree (hrange : ∀ group ∈ groups, ∀ i ∈ group, i < units.size) :
    Agree groups fun i => result.getD i 1 := by
  intro group hgroup
  refine agree_of_shareUnit_eq (shareUnit_eq_of_sharePass_eq h.sharePass_eq group hgroup)
    fun i hi => ?_
  rw [h.size]
  exact hrange group hgroup i hi

end Settles

/-! ## Why the passes end -/

/-- How far the units have grown: the sum of their binary logarithms. -/
def unitBits (units : Array Nat) : Nat :=
  ∑ i ∈ Finset.range units.size, (units.getD i 1).log2

theorem log2_mono {a b : Nat} (h : a ≤ b) : a.log2 ≤ b.log2 := by
  rw [Nat.log2_eq_log_two, Nat.log2_eq_log_two]
  exact Nat.log_mono_right h

/-- A proper multiple is at least the double. -/
theorem log2_lt_of_dvd {a b : Nat} (h : a ∣ b) (hb : 0 < b) (hne : a ≠ b) : a.log2 < b.log2 := by
  obtain ⟨k, rfl⟩ := h
  have ha : a ≠ 0 := by
    rintro rfl
    omega
  have hk : 2 ≤ k := by
    by_contra hlt
    obtain rfl | rfl : k = 0 ∨ k = 1 := by omega
    · omega
    · omega
  calc a.log2 < a.log2 + 1 := Nat.lt_succ_self _
    _ = (2 * a).log2 := (Nat.log2_two_mul ha).symm
    _ ≤ (k * a).log2 := log2_mono (Nat.mul_le_mul_right a hk)
    _ = (a * k).log2 := by rw [Nat.mul_comm]

/-- Units that divide a number have no more bits than it, each of them. -/
theorem unitBits_le {multiple : Nat} (h : DivideInto units fun _ => multiple)
    (hpos : 0 < multiple) :
    unitBits units ≤ units.size * multiple.log2 := by
  have hsum := Finset.sum_le_card_nsmul (Finset.range units.size) (fun i => (units.getD i 1).log2)
    multiple.log2 fun i _ => log2_mono (Nat.le_of_dvd hpos (h i))
  simpa [unitBits] using hsum

/-- **A pass that changes something grows the units.** -/
theorem unitBits_lt_sharePass (hne : sharePass groups units ≠ units)
    (hpos : ∀ i, 0 < (sharePass groups units).getD i 1) :
    unitBits units < unitBits (sharePass groups units) := by
  have hup := divideInto_sharePass groups units
  have hsize := size_sharePass groups units
  obtain ⟨i, hi, hchange⟩ : ∃ i < units.size, units.getD i 1 ≠
      (sharePass groups units).getD i 1 := by
    by_contra hall
    push Not at hall
    refine hne (hup.antisymm (fun i => ?_) hsize)
    by_cases hi : i < units.size
    · exact (hall i hi).symm.dvd
    · rw [getD_of_size_le (by omega)]
      exact one_dvd _
  rw [unitBits, unitBits, hsize]
  refine Finset.sum_lt_sum (fun j _ => log2_mono (Nat.le_of_dvd (hpos j) (hup j)))
    ⟨i, Finset.mem_range.2 hi, log2_lt_of_dvd (hup i) (hpos i) hchange⟩

/-- Passes are made until one changes nothing. -/
theorem shareUnits_succ (groups : List (List TensorId)) (fuel : Nat) (units : Array Nat) :
    shareUnits groups (fuel + 1) units =
      if sharePass groups units = units then units
      else shareUnits groups fuel (sharePass groups units) := rfl

/-- Fuel for the growth that is left is enough. -/
theorem settles_of_fuel {multiple fuel : Nat} (h : DivideInto units fun _ => multiple)
    (hpos : 0 < multiple) (hfuel : units.size * multiple.log2 < unitBits units + fuel) :
    Settles groups units (shareUnits groups fuel units) := by
  induction fuel generalizing units with
  | zero =>
    have := unitBits_le h hpos
    omega
  | succ fuel ih =>
    have hpass : DivideInto (sharePass groups units) fun _ => multiple :=
      h.sharePass fun _ _ _ _ _ _ => rfl
    rw [shareUnits_succ]
    split
    · rename_i hstable
      exact .stable hstable
    · rename_i hne
      refine .pass hne (ih hpass ?_)
      have hgrow := unitBits_lt_sharePass hne fun i => Nat.pos_of_dvd_of_pos (hpass i) hpos
      rw [size_sharePass]
      omega

/-- **Sharing ends within its fuel.** -/
theorem settles_shareUnits (groups : List (List TensorId)) (h : ∀ i, 0 < units.getD i 1) :
    Settles groups units (shareUnits groups (sharingFuel units) units) := by
  refine settles_of_fuel (divideInto_overallUnit units) (overallUnit_pos h) ?_
  rw [sharingFuel, ← overallUnit]
  omega

/-- Units that are shared divide the common multiple of all units, so they stay
positive. -/
theorem shareUnits_pos (groups : List (List TensorId)) (h : ∀ i, 0 < units.getD i 1)
    (i : TensorId) : 0 < (shareUnits groups (sharingFuel units) units).getD i 1 := by
  have hdvd := (settles_shareUnits groups h).divideInto
    (divideInto_overallUnit units) fun _ _ _ _ _ _ => rfl
  exact Nat.pos_of_dvd_of_pos (hdvd i) (overallUnit_pos h)

end Units

end QuantAccel
