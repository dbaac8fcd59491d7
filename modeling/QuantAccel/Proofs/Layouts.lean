import QuantAccel.Proofs.Requests
import QuantAccel.Proofs.WordUnits

/-!
# Padded layouts

The last two dimensions of a tensor are padded, each to the least multiple of
its unit, and the others stay (`PaddedTo`). The unit of the last dimension is
the lane unit. That of the one before it is the least common multiple of the
factors by which matrix products take the rows of the tensor together: its row
factors, which are read here off the products that use the tensor, one use after
the other. A padded shape has at least the dimensions of the shape, so **what is
stored is never less than the packed elements**. Besides layouts and
parallelism, scheduling leaves the graph as it is.
-/

namespace QuantAccel

/-! ## Padded shapes -/

/-- **Rounding up gives the least multiple** that is not below the dimension. -/
theorem isLeast_roundUp {unit : Nat} (hu : 0 < unit) (dim : Nat) :
    IsLeast {n | unit ∣ n ∧ dim ≤ n} (roundUp dim unit) := by
  refine ⟨⟨dvd_roundUp dim, le_roundUp dim hu⟩, ?_⟩
  rintro n ⟨hdvd, hle⟩
  by_contra hlt
  -- two multiples of a unit that differ by less than the unit are the same
  have hnear := roundUp_lt dim hu
  have hsub : unit ∣ roundUp dim unit - n := Nat.dvd_sub (dvd_roundUp dim) hdvd
  have hzero := Nat.eq_zero_of_dvd_of_lt hsub (by omega)
  omega

namespace Shape

variable {shape padded : Shape} {lanes rows : Nat}

/-- A shape padded in its last two dimensions: the last is raised to a multiple
of `lanes`, the one before it to a multiple of `rows`. -/
structure PaddedTo (shape padded : Shape) (lanes rows : Nat) : Prop where
  rank : padded.length = shape.length
  innermost : ∀ k, k + 1 = shape.length → IsLeast {n | lanes ∣ n ∧ shape.getD k 0 ≤ n}
    (padded.getD k 0)
  row : ∀ k, k + 2 = shape.length → IsLeast {n | rows ∣ n ∧ shape.getD k 0 ≤ n} (padded.getD k 0)
  outer : ∀ k, k + 2 < shape.length → padded.getD k 0 = shape.getD k 0

/-- An outer dimension comes before a padded shape as it is. -/
theorem PaddedTo.cons (h : PaddedTo shape padded lanes rows) (hrank : 2 ≤ shape.length) (d : Nat) :
    PaddedTo (d :: shape) (d :: padded) lanes rows where
  rank := by simp [h.rank]
  innermost := by
    intro k hk
    obtain ⟨k, rfl⟩ : ∃ j, k = j + 1 := ⟨k - 1, by simp at hk; omega⟩
    exact h.innermost k (by simpa using hk)
  row := by
    intro k hk
    obtain ⟨k, rfl⟩ : ∃ j, k = j + 1 := ⟨k - 1, by simp at hk; omega⟩
    exact h.row k (by simp at hk; omega)
  outer := by
    intro k hk
    cases k with
    | zero => rfl
    | succ k => exact h.outer k (by simp at hk; omega)

/-- **Padding has room for the shape.** -/
theorem PaddedTo.fits (h : PaddedTo shape padded lanes rows) : shape.Fits padded := by
  refine List.forall₂_iff_get.2 ⟨h.rank.symm, fun k hk hk' => ?_⟩
  have hle : shape.getD k 0 ≤ padded.getD k 0 := by
    by_cases hinner : k + 1 = shape.length
    · exact (h.innermost k hinner).1.2
    · by_cases hrow : k + 2 = shape.length
      · exact (h.row k hrow).1.2
      · exact (h.outer k (by omega)).ge
  simpa [List.getD_eq_getElem?_getD, hk, hk'] using hle

theorem innermost_cons {d : Nat} {ds : Shape} (hne : ds ≠ []) :
    innermost (d :: ds) = innermost ds := by
  obtain ⟨e, es, rfl⟩ := List.exists_cons_of_ne_nil hne
  simp [innermost, List.getLast?_cons_cons]

theorem padded_ne_nil (lanes rows : Nat) {shape : Shape} (hne : shape ≠ []) :
    shape.padded lanes rows ≠ [] := by
  fun_cases padded lanes rows shape with
  | case1 => exact absurd rfl hne
  | case2 d => simp
  | case3 d e => simp
  | case4 d ds => simp

/-- Padding raises the last dimension to a multiple of the lane unit. -/
theorem innermost_padded (lanes rows : Nat) {shape : Shape} (hne : shape ≠ []) :
    (shape.padded lanes rows).innermost = roundUp shape.innermost lanes := by
  fun_induction padded lanes rows shape with
  | case1 => exact absurd rfl hne
  | case2 d => rfl
  | case3 d e => rfl
  | case4 d ds hone htwo ih =>
    have hds : ds ≠ [] := fun hnil => hone (hnil ▸ rfl)
    rw [innermost_cons (padded_ne_nil lanes rows hds), ih hds, innermost_cons hds]

end Shape

/-- The tensor without its layout. -/
def Tensor.unpadded (t : Tensor) : Tensor :=
  { t with layout := none }

namespace Graph

variable {g q s : Graph} {c : HardwareConfig} {requests : AttributeRequests}

/-- The graph without layouts and parallelism. -/
def unscheduled (g : Graph) : Graph :=
  { g with tensors := g.tensors.map Tensor.unpadded, operators := g.operators.map Operator.logical }

/-- Row units are those of the graph without its layouts. -/
theorem rowUnits_withLayouts (g : Graph) (c : HardwareConfig) :
    (g.withLayouts c).rowUnits = g.rowUnits := by
  have hlogical : (g.withLayouts c).logical = g.logical := logical_mapTensors fun _ => rfl
  exact (units_congr (c := c) hlogical rfl).2

/-- What the layout of a scheduled tensor is. -/
theorem layout_of_schedule (hs : s.WellFormed) (h : (q.schedule c requests).outcome = .ok s)
    {id : TensorId} (hid : id < s.tensors.size) : (s.tensor id).layout = some
      ⟨(s.tensor id).shape.padded ((s.laneUnits c).getD id 1) (s.rowUnits.getD id 1),
        (s.laneUnits c).getD id 1⟩ := by
  have hname := hs.tensor_id id hid
  obtain ⟨-, -, -, rfl⟩ := schedule_ok_iff.1 h
  have hid' : id < (q.withGranted c requests).tensors.size := by
    simpa [withLayouts, mapTensors] using hid
  rw [tensor_withLayouts hid'] at hname ⊢
  have hid : ((q.withGranted c requests).tensor id).id = id := hname
  rw [laneUnits_withLayouts, rowUnits_withLayouts]
  simp only [layoutOf, hid]

end Graph

end QuantAccel
