import QuantAccel.Proofs.Builder

/-!
# Orders of the axes

An order is accepted for the axes of a tensor by marking each axis as it comes.
The marks stop at an axis that has none, or that comes twice; so as many axes as
there are marks leave no mark clear, and the order is a permutation
(`isAxisPermutation_iff`). Undoing an order notes at each axis where it stands.
In a permutation every axis has a place to note it at and no note is written
over, so that the notes are the inverse (`inverseAxes?_eq`). Orders are recorded
only once they are accepted and no later call changes the rank of a tensor, so
whatever order is recorded in a graph can be undone.
-/

namespace QuantAccel

variable {axes inverse inverse' : List Nat} {rank : Nat}

/-! ## Marking axes -/

/-- **Each axis finds its mark clear** exactly if the axes differ and their
marks were clear at the start. -/
theorem marksEach_iff {seen : List Bool} :
    marksEach seen axes ↔ axes.Nodup ∧ ∀ axis ∈ axes, seen[axis]? = some false := by
  induction axes generalizing seen with
  | nil => simp [marksEach]
  | cons axis rest ih =>
    have hset (other : Nat) : (seen.set axis true)[other]? = some false ↔
        other ≠ axis ∧ seen[other]? = some false := by
      by_cases h : axis = other
      · subst h
        simp [List.getElem?_set]
      · simp [h, Ne.symm h]
    rw [marksEach, Bool.and_eq_true, beq_iff_eq, ih, List.nodup_cons, List.forall_mem_cons]
    simp only [hset]
    constructor
    · rintro ⟨hfirst, hnodup, hrest⟩
      exact ⟨⟨fun hmem => (hrest axis hmem).1 rfl, hnodup⟩, hfirst,
        fun other hmem => (hrest other hmem).2⟩
    · rintro ⟨⟨hnot, hnodup⟩, hfirst, hrest⟩
      refine ⟨hfirst, hnodup, fun other hmem => ⟨?_, hrest other hmem⟩⟩
      rintro rfl
      exact hnot hmem

/-- Different axes within a rank, as many as the rank has, are all of them. -/
theorem perm_range_iff :
    axes.Perm (List.range rank) ↔
      axes.Nodup ∧ (∀ axis ∈ axes, axis < rank) ∧ axes.length = rank := by
  constructor
  · intro hperm
    refine ⟨hperm.nodup_iff.2 List.nodup_range, fun axis hmem => ?_, by simpa using hperm.length_eq⟩
    exact List.mem_range.1 (hperm.mem_iff.1 hmem)
  · rintro ⟨hnodup, hlt, hlength⟩
    have hsub : axes ⊆ List.range rank := fun axis hmem => List.mem_range.2 (hlt axis hmem)
    exact (hnodup.subperm hsub).perm_of_length_le (by simp [hlength])

/-- **Exactly the permutations of the axes are accepted.** -/
theorem isAxisPermutation_iff : isAxisPermutation axes rank ↔ axes.Perm (List.range rank) := by
  have hmark (axis : Nat) : (List.replicate rank false)[axis]? = some false ↔ axis < rank := by
    simp [List.getElem?_replicate]
  rw [isAxisPermutation, Bool.and_eq_true, marksEach_iff, beq_iff_eq, perm_range_iff, and_assoc]
  simp only [hmark]

/-! ## Noting places -/

/-- **What is noted at an axis is where it stands**, and places of no axis stay
as they are. -/
theorem exists_notePlaces (places : List Nat) (hlt : ∀ axis ∈ axes, axis < places.length)
    (hnodup : axes.Nodup) (i : Nat) :
    ∃ places', notePlaces places axes i = some places' ∧
      ∀ axis, places'[axis]? = if axis ∈ axes then some (i + axes.idxOf axis)
        else places[axis]? := by
  induction axes generalizing places i with
  | nil => exact ⟨places, rfl, fun axis => by simp⟩
  | cons first rest ih =>
    obtain ⟨hfirst, hrest⟩ := List.forall_mem_cons.1 hlt
    obtain ⟨hnot, hnodup⟩ := List.nodup_cons.1 hnodup
    obtain ⟨places', hrun, hplaces⟩ :=
      ih (places.set first i) (by simpa using hrest) hnodup (i + 1)
    refine ⟨places', by rw [notePlaces, if_pos hfirst, hrun], fun axis => ?_⟩
    rw [hplaces axis]
    by_cases heq : first = axis
    · -- the first axis does not come again, so its note stays
      subst heq
      simp [hnot, hfirst]
    · have hidx : i + 1 + rest.idxOf axis = i + (first :: rest).idxOf axis := by
        rw [List.idxOf_cons_ne _ heq]
        omega
      simp [heq, Ne.symm heq, hidx]

/-- Two orders of the axes of one rank, each of which undoes the other. -/
structure Inverts (rank : Nat) (axes inverse : List Nat) : Prop where
  axes_perm : axes.Perm (List.range rank)
  inverse_perm : inverse.Perm (List.range rank)
  place : ∀ i < rank, (axes[i]?.bind fun axis => inverse[axis]?) = some i
  axis : ∀ i < rank, (inverse[i]?.bind fun place => axes[place]?) = some i

theorem Inverts.symm (h : Inverts rank axes inverse) : Inverts rank inverse axes :=
  ⟨h.inverse_perm, h.axes_perm, h.axis, h.place⟩

/-- An order is undone in one way only. -/
theorem Inverts.unique (h : Inverts rank axes inverse) (h' : Inverts rank axes inverse') :
    inverse = inverse' := by
  have hlength := (perm_range_iff.1 h.inverse_perm).2.2
  have hlength' := (perm_range_iff.1 h'.inverse_perm).2.2
  refine List.ext_getElem? fun axis => ?_
  by_cases haxis : axis < rank
  · obtain ⟨place, hplace, hback⟩ := Option.bind_eq_some_iff.1 (h.axis axis haxis)
    have hlt : place < rank := by
      obtain ⟨hlt, -⟩ := List.getElem?_eq_some_iff.1 hback
      exact hlt.trans_eq (perm_range_iff.1 h.axes_perm).2.2
    have hsame := h'.place place hlt
    rw [hback, Option.bind_some] at hsame
    rw [hplace, hsame]
  · rw [List.getElem?_eq_none (by omega), List.getElem?_eq_none (by omega)]

/-- **The places where its axes stand invert a permutation.** -/
theorem inverts_idxOf (h : axes.Perm (List.range rank)) :
    Inverts rank axes ((List.range rank).map fun axis => axes.idxOf axis) := by
  obtain ⟨hnodup, hlt, hlength⟩ := perm_range_iff.1 h
  have hmem (axis : Nat) (haxis : axis < rank) : axis ∈ axes := h.mem_iff.2 (List.mem_range.2 haxis)
  have hat (axis : Nat) (haxis : axis < rank) :
      ((List.range rank).map fun axis => axes.idxOf axis)[axis]? = some (axes.idxOf axis) := by
    simp [haxis]
  refine ⟨h, perm_range_iff.2 ⟨?_, fun place hplace => ?_, by simp⟩, fun i hi => ?_, fun i hi => ?_⟩
  · -- two axes that stand at one place are one
    refine List.nodup_range.map_on fun axis haxis other _ hsame => ?_
    exact (List.idxOf_inj (hmem axis (List.mem_range.1 haxis))).1 hsame
  · obtain ⟨axis, haxis, rfl⟩ := List.mem_map.1 hplace
    rw [← hlength]
    exact List.idxOf_lt_length_iff.2 (hmem axis (List.mem_range.1 haxis))
  · have hi' : i < axes.length := by omega
    rw [List.getElem?_eq_getElem hi', Option.bind_some, hat _ (hlt _ (List.getElem_mem hi')),
      hnodup.idxOf_getElem]
  · rw [hat i hi, Option.bind_some]
    exact List.getElem?_idxOf (hmem i hi)

/-- **A permutation can be undone**: every axis has a place, and what is noted
there is where it stands. -/
theorem inverseAxes?_eq (h : axes.Perm (List.range rank)) :
    inverseAxes? axes = some ((List.range rank).map fun axis => axes.idxOf axis) := by
  obtain ⟨hnodup, hlt, hlength⟩ := perm_range_iff.1 h
  obtain ⟨places, hrun, hplaces⟩ := exists_notePlaces (List.replicate axes.length 0)
    (by simpa [hlength] using hlt) hnodup 0
  rw [inverseAxes?, hrun]
  refine congrArg some (List.ext_getElem? fun axis => ?_)
  rw [hplaces]
  by_cases haxis : axis < rank
  · simp [haxis, h.mem_iff.2 (List.mem_range.2 haxis)]
  · have hnot : axis ∉ axes := fun hmem => haxis (hlt axis hmem)
    simp [hnot, hlength, Nat.le_of_not_lt haxis]

theorem exists_inverts (h : axes.Perm (List.range rank)) :
    ∃ inverse, inverseAxes? axes = some inverse ∧ Inverts rank axes inverse :=
  ⟨_, inverseAxes?_eq h, inverts_idxOf h⟩

/-- **Undoing twice gives the order back.** -/
theorem inverseAxes?_inverse (h : Inverts rank axes inverse) :
    inverseAxes? inverse = some axes := by
  obtain ⟨twice, htwice, hinverts⟩ := exists_inverts h.inverse_perm
  rw [htwice, hinverts.unique h.symm]

/-! ## Orders in a graph -/

/-- An order that is recorded for the axes of a tensor can be undone, and undone
again. -/
def Tensor.Reversible (t : Tensor) : Prop :=
  ∀ axes, t.axes = some axes → ∃ inverse, t.reversedAxes = some inverse ∧
    Inverts t.shape.length axes inverse ∧ inverseAxes? inverse = some axes

theorem Tensor.reversible_of_perm {t : Tensor}
    (h : ∀ axes, t.axes = some axes → axes.Perm (List.range t.shape.length)) : t.Reversible := by
  intro axes haxes
  obtain ⟨inverse, hrun, hinverts⟩ := exists_inverts (h axes haxes)
  exact ⟨inverse, by rw [reversedAxes, haxes, Option.bind_some, hrun], hinverts,
    inverseAxes?_inverse hinverts⟩

namespace Graph

variable {g : Graph} {id : TensorId}

/-- What a call to record an order does. -/
theorem call_axes (hid : id < g.tensors.size) (axes : List Nat) :
    g.call (.axes id axes) =
      if isAxisPermutation axes (g.tensor id).shape.length then
        (.ok none, g.modifyTensor id fun t => { t with axes := some axes })
      else (.error (.notAPermutation axes (g.tensor id).shape.length), g) := by
  have hshape : g.shapeOf id = .ok (g.tensor id).shape := by
    simp [shapeOf, tensor, Array.getD_eq_getD_getElem?, hid]
  rw [call, steps, runFrom_bind, permuteAxes, runFrom_get_bind, runFrom_bind, runFrom_liftM, hshape]
  by_cases hperm : isAxisPermutation axes (g.tensor id).shape.length
  · simp only [hperm, if_true]
    rfl
  · simp only [hperm]
    rfl

theorem lasting_perm :
    Lasting fun t => ∀ axes, t.axes = some axes → axes.Perm (List.range t.shape.length) := by
  refine ⟨fun _ _ _ _ _ axes haxes => ?_, fun _ ht => ht, fun t axes haccepted _ axes' haxes => ?_⟩
  · cases haxes
  · obtain rfl := Option.some.inj haxes
    exact isAxisPermutation_iff.1 haccepted

theorem reversible_build (calls : List BuildCall) (id : TensorId) :
    ((build calls).tensor id).Reversible :=
  Tensor.reversible_of_perm (lasting_perm.of_build calls id)

/-- **Exactly the permutations of its axes can be recorded for a tensor, and
each of them can be undone.** Whatever calls came before, an order of the axes
of a tensor is accepted if and only if it is a permutation. It is then all that
changes of the tensor, and undoing it succeeds with the inverse permutation,
which undone gives the order back; the graph after a refusal is the graph
before. Every order that is recorded in the graph can be undone as well. -/
theorem axes_reversible (calls : List BuildCall) (hid : id < (build calls).tensors.size)
    (hrank : ((build calls).tensor id).shape.length = rank) (axes : List Nat) :
    ((∃ g', (build calls).call (.axes id axes) = (.ok none, g')) ↔ axes.Perm (List.range rank)) ∧
    (¬axes.Perm (List.range rank) →
      (build calls).call (.axes id axes) = (.error (.notAPermutation axes rank), build calls)) ∧
    (∀ g', (build calls).call (.axes id axes) = (.ok none, g') →
      g' = (build calls).modifyTensor id (fun t => { t with axes := some axes }) ∧
      ∃ inverse, (g'.tensor id).reversedAxes = some inverse ∧ Inverts rank axes inverse ∧
        inverseAxes? inverse = some axes) ∧
    ((build calls).tensor id).Reversible := by
  have hcall := call_axes hid axes
  rw [hrank] at hcall
  refine ⟨?_, fun hrefused => ?_, fun g' haccepted => ?_, reversible_build calls id⟩
  · rw [← isAxisPermutation_iff]
    constructor
    · rintro ⟨g', haccepted⟩
      by_contra hrefused
      rw [hcall, if_neg hrefused] at haccepted
      cases haccepted
    · intro hperm
      exact ⟨_, by rw [hcall, if_pos hperm]⟩
  · rw [hcall, if_neg fun h => hrefused (isAxisPermutation_iff.1 h)]
  · by_cases hperm : isAxisPermutation axes rank
    · rw [hcall, if_pos hperm] at haccepted
      obtain rfl := (Prod.mk.inj haccepted).2
      refine ⟨rfl, ?_⟩
      have hreversible : Tensor.Reversible { (build calls).tensor id with axes := some axes } := by
        refine Tensor.reversible_of_perm fun axes' haxes' => ?_
        obtain rfl := Option.some.inj haxes'
        exact hrank ▸ isAxisPermutation_iff.1 hperm
      rw [tensor_modify id hid, if_pos rfl, ← hrank]
      exact hreversible axes rfl
    · rw [hcall, if_neg hperm] at haccepted
      cases haccepted

/-- Three axes turned round by one are turned back by two; an order that names
an axis twice is refused. -/
theorem axes_reversible_turned :
    ∃ g, (build [.placeholder "x" [2, 3, 4] .int32]).call (.axes 0 [2, 0, 1]) = (.ok none, g) ∧
      (g.tensor 0).reversedAxes = some [1, 2, 0] ∧ inverseAxes? [1, 2, 0] = some [2, 0, 1] ∧
      (build [.placeholder "x" [2, 3, 4] .int32]).call (.axes 0 [2, 0, 2]) =
        (.error (.notAPermutation [2, 0, 2] 3), build [.placeholder "x" [2, 3, 4] .int32]) := by
  have hid : 0 < (build [.placeholder "x" [2, 3, 4] .int32]).tensors.size := by decide
  have hrank : ((build [.placeholder "x" [2, 3, 4] .int32]).tensor 0).shape.length = 3 := rfl
  obtain ⟨hiff, -, haccepted, -⟩ := axes_reversible _ hid hrank [2, 0, 1]
  obtain ⟨-, hrefused, -, -⟩ := axes_reversible _ hid hrank [2, 0, 2]
  obtain ⟨g, hg⟩ := hiff.2 (by decide)
  obtain ⟨rfl, inverse, hinverse, -, htwice⟩ := haccepted g hg
  obtain rfl : [1, 2, 0] = inverse := Option.some.inj hinverse
  exact ⟨_, hg, hinverse, htwice, hrefused (by decide)⟩

end Graph

end QuantAccel
