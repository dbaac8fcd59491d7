import QuantAccel.Proofs.Footprint

/-!
# What an overflow reports

Whether an entity fits is decided by its end rounded up to a chunk, and what is
reported is the end without the rounding. A bound that is a chunk multiple does
not tell the two apart, so the end that is reported exceeds it. Of any other
bound this is not so: an entity of as many bytes as the bound is refused with an
end that is the bound (`overflow_report_exceeds_iff`). Whatever a memory plan
reports is the report of one of its regions.
-/

namespace QuantAccel

section Allocate

variable {chunkSize bound start stop limit : Nat} {items : List (String × Nat)} {entity : String}

/-- **The end that is reported exceeds the bound when it is rounded up.** -/
theorem allocate_overflow (hchunk : 0 < chunkSize)
    (hspace : offsetAt chunkSize start items items.length < addressSpace)
    (h : allocate items start chunkSize bound = .error (.addressOverflow entity stop limit)) :
    limit = bound ∧ bound < roundUp stop chunkSize ∧ roundUp stop chunkSize < addressSpace := by
  obtain ⟨i, item, hitem, ⟨⟨-, hover⟩, -⟩, he⟩ := allocate_error hchunk hspace h
  obtain ⟨rfl, rfl, rfl⟩ := CompileError.addressOverflow.inj he
  have hlast := offsetAt_le_last chunkSize start items (i + 1)
  rw [offsetAt_succ hchunk hitem] at hover hlast
  exact ⟨rfl, hover, hlast.trans_lt hspace⟩

/-- A chunk multiple that the rounded end exceeds is exceeded by the end itself.
A bound without a chunk multiple above it in the address space is exceeded by
none. -/
theorem lt_of_lt_roundUp (hchunk : 0 < chunkSize)
    (hbound : chunkSize ∣ bound ∨ addressSpace ≤ roundUp bound chunkSize)
    (hover : bound < roundUp stop chunkSize) (hspace : roundUp stop chunkSize < addressSpace) :
    bound < stop := by
  rcases hbound with hdvd | hbeyond
  · exact (lt_iff_lt_of_le_iff_le (roundUp_le_iff hchunk hdvd)).1 hover
  · have hnext : roundUp bound chunkSize ≤ roundUp stop chunkSize :=
      (roundUp_le_iff hchunk (dvd_roundUp stop)).2 hover.le
    exact absurd (hnext.trans_lt hspace) hbeyond.not_gt

/-- An entity of as many bytes as the bound is refused unless the bound is a
chunk multiple. -/
theorem allocate_bound (hchunk : 0 < chunkSize) (hdvd : ¬ chunkSize ∣ bound)
    (hspace : roundUp bound chunkSize < addressSpace) (name : String) :
    allocate [(name, bound)] 0 chunkSize bound = .error (.addressOverflow name bound bound) := by
  have hover : bound < roundUp bound chunkSize := by
    refine lt_of_le_of_ne (le_roundUp bound hchunk) fun heq => hdvd ?_
    rw [heq]
    exact dvd_roundUp bound
  have hzero : roundUp 0 chunkSize = 0 := roundUp_of_dvd hchunk (Nat.dvd_zero _)
  rw [allocate_eq hchunk, hzero,
    allocateFrom_cons bound [] hchunk (Nat.dvd_zero _) (by simpa using hspace),
    if_neg (by simpa using hover)]
  simp

theorem allocate_of_placeRegion {k : RegionKind} {base : Nat} {e : CompileError}
    (h : placeRegion chunkSize bound k items base = .error e) :
    allocate items base chunkSize bound = .error e := by
  rw [placeRegion] at h
  cases hrun : allocate items base chunkSize bound with
  | error e' =>
    rw [hrun] at h
    cases h
    rfl
  | ok placed =>
    rw [hrun] at h
    cases h

end Allocate

namespace Graph

variable {g g' p : Graph} {chunkSize bound stop limit : Nat} {entity : String}

/-! ## Overflow of a plan -/

/-- Assigning addresses changes addresses only, and never runs out of memory. -/
theorem assignAddresses_spec (g : Graph) (slots : List (TensorId × Nat)) :
    (runFrom (assignAddresses slots) g).2.unaddressed = g.unaddressed ∧ ∀ entity stop limit,
      (runFrom (assignAddresses slots) g).1 ≠ .error (.addressOverflow entity stop limit) := by
  unfold assignAddresses
  induction slots generalizing g with
  | nil => exact ⟨rfl, fun _ _ _ => by rintro ⟨⟩⟩
  | cons s slots ih =>
    change (runFrom (_ >>= fun _ => slots.forM _) g).2.unaddressed = _ ∧
      ∀ _ _ _, (runFrom (_ >>= fun _ => slots.forM _) g).1 ≠ _
    rw [runFrom_bind, runFrom_get_bind]
    cases hassign : (g.tensor s.1).assignAddress s.2 with
    | error fault => exact ⟨rfl, fun _ _ _ => by rintro ⟨⟩⟩
    | ok t =>
      obtain ⟨rfl, -⟩ := assignAddress_ok hassign
      obtain ⟨hkept, hnever⟩ :=
        ih (g.modifyTensor s.1 fun _ => { g.tensor s.1 with address := some s.2 })
      refine ⟨hkept.trans ?_, hnever⟩
      simp only [unaddressed, mapTensors, modifyTensor]
      congr 1
      refine map_modify_eq fun t ht => ?_
      rw [tensor, Array.getD_eq_getD_getElem?, ht]
      rfl

theorem unaddressed_of_placeTensors {k : RegionKind} {ids : List TensorId} {base : Nat}
    {addresses : List Nat} {region : Region}
    (h : runFrom (placeTensors chunkSize bound k ids base) p = (.ok (addresses, region), g')) :
    placeRegion chunkSize bound k (p.sized ids) base = .ok (addresses, region) ∧
      g'.unaddressed = p.unaddressed := by
  rw [placeTensors, runFrom_get_bind] at h
  obtain ⟨⟨addresses', region'⟩, hplace, h⟩ := runFrom_liftM_bind_ok.1 h
  obtain ⟨_, p', hassign, h⟩ := runFrom_bind_ok.1 h
  obtain ⟨heq, rfl⟩ := Prod.mk.inj h
  obtain ⟨rfl, rfl⟩ := Prod.mk.inj (Except.ok.inj heq)
  have hkept := (assignAddresses_spec p (ids.zip addresses')).1
  rw [hassign] at hkept
  exact ⟨hplace, hkept⟩

theorem overflow_of_placeTensors {k : RegionKind} {ids : List TensorId} {base : Nat}
    (h : runFrom (placeTensors chunkSize bound k ids base) p =
      (.error (.addressOverflow entity stop limit), g')) :
    placeRegion chunkSize bound k (p.sized ids) base =
      .error (.addressOverflow entity stop limit) := by
  rw [placeTensors, runFrom_get_bind] at h
  rcases runFrom_bind_error.1 h with h | ⟨⟨addresses, region⟩, p', -, h⟩
  · exact (runFrom_liftM_error.1 h).1
  · rcases runFrom_bind_error.1 h with h | ⟨_, _, -, h⟩
    · exact absurd (congrArg (·.1) h) ((assignAddresses_spec p' (ids.zip addresses)).2 _ _ _)
    · cases h

section Plan

variable (hchunk : 0 < chunkSize) (hspace : g.footprint chunkSize < addressSpace)
include hchunk hspace

/-- A region that is placed is a region of the plan. -/
theorem eq_plannedRegion {k : RegionKind} {addresses : List Nat} {region : Region}
    (h : placeRegion chunkSize bound k (g.regionItems chunkSize k) (g.regionBase chunkSize k) =
      .ok (addresses, region)) : region = g.plannedRegion chunkSize k := by
  by_cases hfits : g.RegionFits chunkSize bound k
  · rw [placeRegion_planned hchunk hspace hfits] at h
    exact (Prod.mk.inj (Except.ok.inj h)).2.symm
  · obtain ⟨entity, stop, herror⟩ := placeRegion_refused hchunk hspace hfits
    rw [herror] at h
    cases h

/-- **An overflow of a plan is an overflow of one of its regions.** -/
theorem exists_region_of_overflow
    (h : g.planMemory chunkSize bound = (.error (.addressOverflow entity stop limit), g')) :
    ∃ k, placeRegion chunkSize bound k (g.regionItems chunkSize k) (g.regionBase chunkSize k) =
      .error (.addressOverflow entity stop limit) := by
  change runFrom (placeAll chunkSize bound) g = _ at h
  rw [placeAll, runFrom_get_bind] at h
  rcases runFrom_bind_error.1 h with hA | ⟨⟨addressesA, A⟩, g₁, hA, h⟩
  · exact ⟨.activations, overflow_of_placeTensors hA⟩
  obtain ⟨hplaceA, hkept₁⟩ := unaddressed_of_placeTensors hA
  obtain rfl := eq_plannedRegion hchunk hspace (k := .activations) hplaceA
  dsimp only at h
  rw [stop_activations] at h
  rcases runFrom_bind_error.1 h with hP | ⟨⟨addressesP, P⟩, g₂, hP, h⟩
  · have hplaceP := overflow_of_placeTensors hP
    rw [sized_eq_of_unaddressed_eq hkept₁] at hplaceP
    exact ⟨.parameters, hplaceP⟩
  obtain ⟨hplaceP, hkept₂⟩ := unaddressed_of_placeTensors hP
  rw [sized_eq_of_unaddressed_eq hkept₁] at hplaceP
  obtain rfl := eq_plannedRegion hchunk hspace (k := .parameters) hplaceP
  have hsized := sized_eq_of_unaddressed_eq (hkept₂.trans hkept₁)
  rw [runFrom_get_bind, hsized] at h
  rcases runFrom_bind_error.1 h with hR | ⟨⟨addressesR, R⟩, g₃, hR, h⟩
  · exact ⟨.reference, (runFrom_liftM_error.1 hR).1⟩
  obtain ⟨hplaceR, rfl⟩ := runFrom_liftM_ok.1 hR
  obtain rfl := eq_plannedRegion hchunk hspace (k := .reference) hplaceR
  rw [runFrom_get_bind, hsized] at h
  rcases runFrom_bind_error.1 h with hS | ⟨⟨addressesS, S⟩, g₄, -, h⟩
  · exact ⟨.scratch, (runFrom_liftM_error.1 hS).1⟩
  -- what is left only assigns addresses
  rcases runFrom_bind_error.1 h with h | ⟨_, _, -, h⟩
  · exact absurd (congrArg (·.1) h) ((assignAddresses_spec g₄ _).2 _ _ _)
  · cases h

/-- **What a plan reports**, for any graph. -/
theorem planMemory_overflow
    (h : g.planMemory chunkSize bound = (.error (.addressOverflow entity stop limit), g')) :
    limit = bound ∧ bound < roundUp stop chunkSize ∧ roundUp stop chunkSize < addressSpace := by
  obtain ⟨k, hplace⟩ := exists_region_of_overflow hchunk hspace h
  have hstop := (stop_le_footprint hchunk k).trans_lt hspace
  refine allocate_overflow hchunk ?_ (allocate_of_placeRegion hplace)
  rw [offsetAt, List.take_length, roundUp_of_dvd hchunk (dvd_regionBase k)]
  exact hstop

end Plan

end Graph

/-! ## When reports are truthful -/

/-- **Overflow reports are truthful exactly of chunk multiples.** As long as
offsets are addresses, every end that is reported exceeds the bound if and only
if the bound is a chunk multiple, or the next one is no address. Allocations and
memory plans report the bound they were given and an end that exceeds it when it
is rounded up to a chunk, and of these bounds the end itself does. -/
theorem overflow_report_exceeds_iff {chunkSize : Nat} (hchunk : 0 < chunkSize) (bound : Nat) :
    ((∀ items start entity stop limit, offsetAt chunkSize start items items.length < addressSpace →
        allocate items start chunkSize bound = .error (.addressOverflow entity stop limit) →
          limit < stop) ↔
      chunkSize ∣ bound ∨ addressSpace ≤ roundUp bound chunkSize) ∧
    (∀ items start entity stop limit, offsetAt chunkSize start items items.length < addressSpace →
      allocate items start chunkSize bound = .error (.addressOverflow entity stop limit) →
      limit = bound ∧ bound < roundUp stop chunkSize) ∧
    ∀ (g g' : Graph) entity stop limit, g.footprint chunkSize < addressSpace →
      g.planMemory chunkSize bound = (.error (.addressOverflow entity stop limit), g') →
      limit = bound ∧ bound < roundUp stop chunkSize ∧
      (chunkSize ∣ bound ∨ addressSpace ≤ roundUp bound chunkSize → limit < stop) := by
  refine ⟨⟨fun htrue => ?_, fun hbound items start entity stop limit hspace herror => ?_⟩,
    fun items start entity stop limit hspace herror => ?_,
      fun g g' entity stop limit hspace herror => ?_⟩
  · -- an entity of as many bytes as the bound tells its end from the rounded one
    by_contra! hnot
    obtain ⟨hdvd, hspace⟩ := hnot
    have hend : offsetAt chunkSize 0 [("", bound)] [("", bound)].length =
        roundUp bound chunkSize := by
      simp [offsetAt, roundUp_of_dvd hchunk (Nat.dvd_zero _)]
    exact lt_irrefl bound
      (htrue _ _ _ _ _ (hend.trans_lt hspace) (allocate_bound hchunk hdvd hspace ""))
  · obtain ⟨rfl, hover, hstop⟩ := allocate_overflow hchunk hspace herror
    exact lt_of_lt_roundUp hchunk hbound hover hstop
  · obtain ⟨hlimit, hover, -⟩ := allocate_overflow hchunk hspace herror
    exact ⟨hlimit, hover⟩
  · obtain ⟨rfl, hover, hstop⟩ := Graph.planMemory_overflow hchunk hspace herror
    exact ⟨rfl, hover, fun hbound => lt_of_lt_roundUp hchunk hbound hover hstop⟩

/-- With a bound of eight chunks, the entity that does not fit is reported to
end after the bound. -/
theorem overflow_report_exceeds_iff_big :
    offsetAt 64 0 [("a", 100), ("big", 1000)] 2 < addressSpace ∧ 64 ∣ 512 ∧
    ∃ entity stop, allocate [("a", 100), ("big", 1000)] 0 64 512 =
      .error (.addressOverflow entity stop 512) ∧
      512 < stop := by
  have hspace : offsetAt 64 0 [("a", 100), ("big", 1000)] 2 < addressSpace := by decide
  have herror : allocate [("a", 100), ("big", 1000)] 0 64 512 =
      .error (.addressOverflow "big" 1128 512) := rfl
  exact ⟨hspace, by decide, "big", 1128, herror,
    (overflow_report_exceeds_iff (by decide : 0 < 64) 512).1.2
      (.inl (by decide)) _ _ _ _ _ hspace herror⟩

/-- Half a chunk has no room for a byte, which is reported to end within the
bound. -/
theorem overflow_report_within_bound :
    allocate [("a", 1)] 0 64 32 = .error (.addressOverflow "a" 1 32) ∧ ¬ 32 < 1 ∧
    (CompileError.addressOverflow "a" 1 32).message =
      "address overflow while placing `a`: end offset 0x1 exceeds memory bound 0x20" :=
  ⟨rfl, by decide, by decide +kernel⟩

end QuantAccel
