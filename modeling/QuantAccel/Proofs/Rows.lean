import QuantAccel.Proofs.Layouts
import QuantAccel.Proofs.Widening

/-!
# Rows and bus words

A burst is the least number of elements that fills a bus word, and a padded row
is made of whole bursts: it fills a word, but it need not end with one. If the
width of the elements divides that of the bus, or is a multiple of it, a burst
is whole words and so is every row. Of any other width, a burst ends inside a
word, and a network of a single element has a row of one burst. So **rows are
whole bus words exactly where one width divides the other** (`rows_whole_iff`).
-/

namespace QuantAccel

/-! ## Bursts and words -/

/-- **Whole words, counted in elements.** The least number of elements that is
whole words divides into all others. -/
theorem dvd_mul_width_iff {bus width n : Nat} (hbus : 0 < bus) :
    bus ∣ n * width ↔ bus / bus.gcd width ∣ n := by
  have hgcd : 0 < bus.gcd width := Nat.gcd_pos_of_pos_left width hbus
  have hword := Nat.gcd_dvd_left bus width
  have hwidth := Nat.gcd_dvd_right bus width
  have hcoprime : (bus / bus.gcd width).Coprime (width / bus.gcd width) :=
    Nat.coprime_div_gcd_div_gcd hgcd
  calc bus ∣ n * width
      ↔ bus.gcd width * (bus / bus.gcd width) ∣ bus.gcd width * (n * (width / bus.gcd width)) := by
        rw [Nat.mul_div_cancel' hword, Nat.mul_left_comm, Nat.mul_div_cancel' hwidth]
    _ ↔ bus / bus.gcd width ∣ n * (width / bus.gcd width) := Nat.mul_dvd_mul_iff_left hgcd
    _ ↔ bus / bus.gcd width ∣ n := hcoprime.dvd_mul_right

/-- **A burst is whole words** exactly where one width divides the other. -/
theorem dvd_burst_iff {c : HardwareConfig} {width : Nat} (hbus : 0 < c.busWidth)
    (hwidth : 0 < width) :
    c.busWidth ∣ c.burstElements width * width ↔ width ∣ c.busWidth ∨ c.busWidth ∣ width := by
  change c.busWidth ∣ roundUp c.busWidth width ↔ _
  constructor
  · rintro ⟨words, hwords⟩
    have hle := le_roundUp c.busWidth hwidth
    have hlt := roundUp_lt c.busWidth hwidth
    rcases le_or_gt c.busWidth width with hwide | hnarrow
    · -- a single element fills the word
      have hone : roundUp c.busWidth width = width :=
        le_antisymm ((isLeast_roundUp hwidth _).2 ⟨dvd_rfl, hwide⟩)
          (Nat.le_of_dvd (hbus.trans_le hle) (dvd_roundUp _))
      exact .inr ⟨words, hone.symm.trans hwords⟩
    · -- the elements of a burst end before a second word does
      have hone : words = 1 := by
        rw [hwords] at hle hlt
        nlinarith
      rw [hone, Nat.mul_one] at hwords
      exact .inl (hwords ▸ dvd_roundUp c.busWidth)
  · rintro (hdvd | hdvd)
    · rw [roundUp_of_dvd hwidth hdvd]
    · exact hdvd.trans (dvd_roundUp _)

theorem burstElements_pos {c : HardwareConfig} {width : Nat} (hbus : 0 < c.busWidth)
    (hwidth : 0 < width) :
    0 < c.burstElements width :=
  Nat.div_pos (by omega) hwidth

/-- A bus of some width, on which factors are widened. -/
def HardwareConfig.wideningOn (bus : Nat) :
    HardwareConfig := { busWidth := bus, burstPolicy := .widen }

theorem validate_wideningOn {bus : Nat} (hbus : 0 < bus) :
    (HardwareConfig.wideningOn bus).validate = .ok () := by
  simp [HardwareConfig.validate, HardwareConfig.wideningOn, hbus.ne']

/-- Bits of a row of the layout. -/
def Tensor.rowBits (t : Tensor) : Nat :=
  t.padded.innermost * t.element.width

namespace Graph

variable {g q s : Graph} {c : HardwareConfig} {element : ElementType}

/-- A graph that was finished, quantized and scheduled for a configuration. -/
def ScheduledOn (s : Graph) (c : HardwareConfig) : Prop :=
  ∃ g ranges q requests, Finished g ∧ g.quantize ranges = .ok q ∧
    (q.schedule c requests).outcome = .ok s

theorem ScheduledOn.busWidth_pos (h : s.ScheduledOn c) : 0 < c.busWidth := by
  obtain ⟨g, ranges, q, requests, -, -, hs⟩ := h
  exact (validate_ok (schedule_ok_iff.1 hs).1).1

/-- **The row of a layout** is the last dimension, raised to a multiple of the
lane unit, and so to whole bursts. -/
theorem ScheduledOn.row (h : s.ScheduledOn c) {id : TensorId} (hid : id < s.tensors.size) :
    ∃ layout, (s.tensor id).layout = some layout ∧
      (s.tensor id).rowBits = layout.shape.innermost * (s.tensor id).element.width ∧
      layout.shape.innermost = roundUp (s.tensor id).innermost ((s.laneUnits c).getD id 1) ∧
      c.burstElements (s.tensor id).element.width ∣ layout.shape.innermost ∧
        0 < layout.shape.innermost := by
  obtain ⟨g, ranges, q, requests, hg, hq, hs⟩ := h
  obtain ⟨hvalid, -, hwell, -, harranged⟩ := scheduled_spec hg.wellFormed hq hs
  have hstreams := harranged.streams hwell (validate_ok hvalid).1
  have hlayout := layout_of_schedule hwell hs hid
  have hinner := Shape.innermost_padded ((s.laneUnits c).getD id 1) (s.rowUnits.getD id 1)
    (hwell.shape_ne_nil id hid)
  refine ⟨_, hlayout, ?_, hinner, ?_, ?_⟩
  · rw [Tensor.rowBits, Tensor.padded, hlayout]
    rfl
  · rw [hinner]
    exact (hstreams.lanesFit.burst id hid).trans (dvd_roundUp _)
  · rw [hinner]
    exact (hwell.positive id hid).innermost_pos.trans_le (le_roundUp _ (hstreams.laneUnits_pos id))

/-! ## Graphs of one element type -/

/-- Raising to the bursts of elements of one type. -/
theorem raised_uniform {ids : List TensorId} {burst : Nat} (hne : ids ≠ []) (hpos : 0 < burst)
    (h : ∀ id ∈ ids, q.burst c id = burst) : q.raised c ids 1 = burst := by
  obtain ⟨id, rest, rfl⟩ := List.exists_cons_of_ne_nil hne
  refine le_antisymm (raised_le_iff.2 ⟨hpos, fun i hi => (h i hi).le⟩) ?_
  exact (h id List.mem_cons_self).ge.trans (burst_le_raised List.mem_cons_self)

/-- With nothing requested, every factor of an operation is one burst. -/
theorem lanesFit_granted {o : Operation} {burst : Nat} (hpos : 0 < burst)
    (h : ∀ id ∈ o.tensors, q.burst c id = burst) :
    (q.granted c {} o).LanesFit fun _ => burst := by
  cases o with
  | matmul o =>
    have hstreamed : q.raised c o.streamed 1 = burst := by
      refine raised_uniform ?_ hpos (Matmul.forall_mem_streamed.2 ⟨h _ ?_, fun _ => h _ ?_⟩)
      · unfold Matmul.streamed
        split <;> simp
      · simp [Operation.tensors, Operation.inputs]
      · simp [Operation.tensors, Operation.inputs]
    have hcolumns : q.raisedColumns c o {} = burst :=
      raised_uniform (by simp) hpos
        (List.forall_mem_singleton.2 (h _ (Operation.output_mem_tensors (.matmul o))))
    rintro f hf
    obtain rfl := Option.some.inj hf
    simp [grantedFactors, hstreamed, hcolumns]
  | add _ | normalize _ | activate _ =>
    refine ⟨fun lanes hlanes _ _ => ?_, fun _ _ => rfl⟩
    obtain rfl := Option.some.inj hlanes
    exact (raised_uniform (List.ne_nil_of_mem (Operation.output_mem_tensors _)) hpos h).dvd

/-- Nothing requested is granted when factors are widened. -/
theorem grants_nothing (hpolicy : c.burstPolicy = .widen) (o : Operation) : q.Grants c {} o := by
  have hwiden : c.burstPolicy ≠ .reject := by simp [hpolicy]
  cases o with
  | matmul o => exact ⟨⟨by simp, by simp, by simp, by simp⟩, fun h => absurd h hwiden, by simp⟩
  | add _ | normalize _ | activate _ =>
    exact ⟨by simp, by simp, by simp, by simp, by simp, fun h => absurd h hwiden⟩

/-- **With nothing requested, widening pads rows of one element type to
bursts.** -/
theorem exists_schedule_uniform (hq : q.WellFormed) (hvalid : c.validate = .ok ())
    (hpolicy : c.burstPolicy = .widen)
    (helement : ∀ id < q.tensors.size, (q.tensor id).element = element) :
    ∃ s, (q.schedule c []).outcome = .ok s ∧
      ∀ id < s.tensors.size, (s.laneUnits c).getD id 1 = c.burstElements element.width := by
  have hs : (q.schedule c []).outcome = .ok ((q.withGranted c []).withLayouts c) :=
    schedule_ok_iff.2 ⟨hvalid, rfl, fun op _ => grants_nothing hpolicy op.operation, rfl⟩
  obtain ⟨-, hlogical, harranged⟩ := schedule_spec hq hs
  have hsame := sameDeclaration (declared_eq_of_logical_eq hlogical)
  have hbus := (validate_ok hvalid).1
  have hstreams := harranged.streams (hsame.wellFormed hq) hbus
  have hpos : 0 < c.burstElements element.width := burstElements_pos hbus element.width_pos
  -- one burst everywhere fits
  have hfit : ((q.withGranted c []).withLayouts c).LanesFit c fun _ =>
    c.burstElements element.width := by
    refine ⟨fun id hid => ?_, fun op hop => ?_⟩
    · rw [hsame.element, helement id (hsame.tensors_size ▸ hid)]
    · simp only [withLayouts, mapTensors, withGranted, Array.toList_map, List.mem_map] at hop
      obtain ⟨op, hop, rfl⟩ := hop
      refine lanesFit_granted hpos fun id hid => ?_
      obtain ⟨hlt, heq⟩ := hq.operator_id.exists_of_mem hop
      rw [burst, helement id (hq.tensors_lt hlt (by rwa [heq]))]
  refine ⟨_, hs, fun id hid => Nat.dvd_antisymm (hstreams.least hfit id) ?_⟩
  have hburst := hstreams.lanesFit.burst id hid
  rwa [hsame.element, helement id (hsame.tensors_size ▸ hid)] at hburst

/-! ## A network of a single element -/

/-- An activation of one element. -/
def pointCalls (element : ElementType) : List BuildCall :=
  [.placeholder "x" [1] element, .activation "y" 0 .relu element, .output 1]

def pointRanges : ValueRanges := [("x", ⟨0, 1⟩), ("y", ⟨0, 1⟩)]

/-- What the calls build, and the same with parameters for both tensors. -/
def point (element : ElementType) (quant : Option QuantParams) : Graph where
  tensors := #[{ id := 0, name := "x", shape := [1], element, kind := .placeholder, quant },
    { id := 1, name := "y", shape := [1], element, kind := .output, quant }]
  operators := #[⟨0, "y", .activate { input := 0, output := 1, activation := .relu }⟩]
  tensorNames := [("y", 1), ("x", 0)]
  operatorNames := [("y", 0)]

theorem build_pointCalls (element : ElementType) :
    build (pointCalls element) = point element none := rfl

theorem finished_point (element : ElementType) : (point element none).Finished := by
  have hfinish := (wellFormed_build (pointCalls element)).finish_eq
  have houtputs : (point element none).outputs = [1] := rfl
  rw [build_pointCalls, if_neg (by simp [houtputs])] at hfinish
  exact ⟨pointCalls element, hfinish⟩

theorem order_point (element : ElementType) (quant : Option QuantParams) :
    (point element quant).order = .ok [0] := by
  have hdeclared : (point element quant).declared = (point element none).declared := by
    simp [declared, point, Tensor.declared]
  have hwell := (finished_point element).wellFormed
  obtain ⟨order, horder⟩ := hwell.exists_order
  have hperm := (ordered_of_order hwell.operator_id horder).perm
  rw [order_eq_of_declared_eq hdeclared, horder, List.perm_singleton.1 hperm]

/-- Parameters of the range from zero to one. -/
def unitParams (signed : Bool) : QuantParams where
  scale := quantizedMax (bitsNeeded 1 signed) signed / 1
  width := bitsNeeded 1 signed
  range := ⟨0, 1⟩
  source := .declared

/-- Two bits have room for the range from zero to one. -/
theorem declared_unit (name : String) (h : 2 ≤ element.width) :
    QuantParams.declared name element ⟨0, 1⟩ = .ok (unitParams element.signed) := by
  have hordered : ¬(!((0 : Float).isFinite && (1 : Float).isFinite) || (0 : Float) > 1) := by
    decide +kernel
  have hnegative : ¬(0 : Float) < 0 := by decide +kernel
  have hrange : QuantParams.checkRange name element ⟨0, 1⟩ = .ok () := by
    rw [QuantParams.checkRange, if_neg hordered, if_neg (by simp [hnegative])]
    rfl
  have hmagnitude : ValueRange.magnitude ⟨0, 1⟩ = 1 := by decide +kernel
  have hnonzero : ((1 : Float) == 0) = false := by decide +kernel
  have hneeded : ∀ signed, bitsNeeded 1 signed ≤ 2 := by decide +kernel
  have hwidth : ¬element.width < bitsNeeded 1 element.signed := Nat.not_lt.2 ((hneeded _).trans h)
  rw [QuantParams.declared, hrange, ok_bind, hmagnitude, if_neg (by simp [hnonzero]), if_neg hwidth]
  rfl

theorem withInitialQuant_of_forall {ranges : ValueRanges} {quant : Option QuantParams}
    (h : ∀ t ∈ g.tensors.toList, t.initialQuant ranges = .ok quant) :
    g.withInitialQuant ranges = .ok (g.mapTensors fun t => { t with quant }) := by
  refine bind_ok_iff.2 ⟨g.tensors.toList.map fun t => { t with quant }, mapM_ok_iff.2 ?_, ?_⟩
  · rw [List.forall₂_map_right_iff, List.forall₂_same]
    exact fun t ht => bind_ok_iff.2 ⟨_, h t ht, rfl⟩
  · rw [← Array.toList_map, Array.toArray_toList]
    rfl

theorem withInitialQuant_point (h : 2 ≤ element.width) :
    (point element none).unquantized.withInitialQuant pointRanges =
      .ok (point element (some (unitParams element.signed))) := by
  have hinitial : ∀ t ∈ (point element none).unquantized.tensors.toList,
      t.initialQuant pointRanges = .ok (some (unitParams element.signed)) := by
    simp only [unquantized, mapTensors, point, List.map_toArray, List.map_cons, List.map_nil,
      List.forall_mem_cons]
    refine ⟨?_, ?_, by simp⟩
    · change some <$> QuantParams.declared "x" element ⟨0, 1⟩ = _
      rw [declared_unit _ h]
      rfl
    · change some <$> QuantParams.declared "y" element ⟨0, 1⟩ = _
      rw [declared_unit _ h]
      rfl
  rw [withInitialQuant_of_forall hinitial]
  simp [unquantized, mapTensors, point]

/-- **Every element type of two bits or more has a network.** -/
theorem exists_quantize_point (h : 2 ≤ element.width) :
    ∃ q, (point element none).quantize pointRanges = .ok q := by
  -- both scales are the same, so the multiplier is that of the ratio one
  have hrescale : ∀ signed,
      (accumulatorRescale "y" (unitParams signed).scale (unitParams signed).scale none
      (some .relu)).isOk = true := by decide +kernel
  obtain ⟨rescale, hrescale⟩ := exists_ok_of_isOk (hrescale element.signed)
  obtain ⟨q, hwalk, hchecked⟩ :
      ∃ q, (point element (some (unitParams element.signed))).quantizeOperator 0 = .ok q ∧
      q.checkQuantized = .ok () := by
    refine ⟨_, bind_ok_iff.2 ⟨(), rfl, bind_ok_iff.2 ⟨_, rfl, bind_ok_iff.2
      ⟨_, bind_ok_iff.2 ⟨rescale, hrescale, rfl⟩, rfl⟩⟩⟩, ?_⟩
    simp [checkQuantized, modifyTensor, modifyOperator, point]
    rfl
  refine ⟨q.withParameterInts, bind_ok_iff.2 ⟨_, withInitialQuant_point h, bind_ok_iff.2
    ⟨[0], mapError_ok_iff.2 (order_point _ _),
      bind_ok_iff.2 ⟨q, ?_, bind_ok_iff.2 ⟨(), hchecked, rfl⟩⟩⟩⟩⟩
  rw [List.foldlM_cons, hwalk]
  rfl

/-- **The row of a single element is one burst.** -/
theorem exists_row_burst (hvalid : c.validate = .ok ()) (hpolicy : c.burstPolicy = .widen)
    (element : ElementType) (h : 2 ≤ element.width) :
    ∃ s, ScheduledOn s c ∧ ∃ id < s.tensors.size, (s.tensor id).element = element ∧
      (s.tensor id).rowBits = c.burstElements element.width * element.width := by
  have hg := finished_point element
  obtain ⟨q, hq⟩ := exists_quantize_point h
  have hsame := sameDeclaration (quantize_spec hg.wellFormed hq).1
  have helement : ∀ id < q.tensors.size, (q.tensor id).element = element := by
    intro id hid
    rw [hsame.tensors_size] at hid
    rw [hsame.element]
    have hid : id < 2 := hid
    interval_cases id <;> rfl
  obtain ⟨s, hs, hunit⟩ := exists_schedule_uniform
    (hsame.wellFormed hg.wellFormed) hvalid hpolicy helement
  have hsame' := sameDeclaration (scheduled_spec hg.wellFormed hq hs).2.1
  have hscheduled : ScheduledOn s c := ⟨_, _, q, [], hg, hq, hs⟩
  have hid : 0 < s.tensors.size := by
    rw [hsame'.tensors_size]
    exact Nat.two_pos
  have helem : (s.tensor 0).element = element := hsame'.element 0
  have hshape : (s.tensor 0).shape = [1] := hsame'.shape 0
  obtain ⟨layout, -, hbits, hinner, -⟩ := hscheduled.row hid
  refine ⟨s, hscheduled, 0, hid, helem, ?_⟩
  have hburst : 0 < c.burstElements element.width :=
    burstElements_pos (validate_ok hvalid).1 element.width_pos
  have hround : roundUp 1 (c.burstElements element.width) = c.burstElements element.width := by
    rw [roundUp, Nat.add_sub_cancel_left, Nat.div_self hburst, Nat.one_mul]
  rw [hbits, hinner, hunit 0 hid, helem, Tensor.innermost, hshape]
  exact congrArg (· * element.width) hround

/-! ## Whole rows -/

/-- **Rows are whole bus words exactly where one width divides the other.** Of
all that is scheduled for a bus, the rows of an element type are whole words if
and only if its width divides that of the bus or is a multiple of it. Of every
type rows are whole bursts and fill a word, and they are whole words if and only
if the least number of elements that is whole words divides into them. -/
theorem rows_whole_iff (bus : Nat) (element : ElementType) :
    ((∀ c s, c.busWidth = bus → ScheduledOn s c → ∀ id < s.tensors.size,
      (s.tensor id).element = element →
        bus ∣ (s.tensor id).rowBits) ↔ element.width ∣ bus ∨ bus ∣ element.width) ∧
    ∀ c s, c.busWidth = bus → ScheduledOn s c → ∀ id < s.tensors.size,
      (s.tensor id).element = element →
      ∃ layout, (s.tensor id).layout = some layout ∧
        (s.tensor id).rowBits = layout.shape.innermost * element.width ∧
        c.burstElements element.width ∣ layout.shape.innermost ∧ bus ≤ (s.tensor id).rowBits ∧
        (bus ∣ (s.tensor id).rowBits ↔ bus / bus.gcd element.width ∣ layout.shape.innermost) := by
  have hwidth := element.width_pos
  refine ⟨⟨fun hwhole => ?_, ?_⟩, ?_⟩
  · by_contra! hnot
    have hbus : 0 < bus := Nat.pos_of_ne_zero fun hzero => hnot.1 (hzero ▸ dvd_zero _)
    have hwide : 2 ≤ element.width := by
      by_contra hone
      exact hnot.1 (Nat.le_antisymm (by omega) hwidth ▸ one_dvd _)
    obtain ⟨s, hs, id, hid, helement, hrow⟩ :=
      exists_row_burst (validate_wideningOn hbus) rfl element hwide
    have hburst := hwhole _ s rfl hs id hid helement
    rw [hrow] at hburst
    exact not_or.2 hnot ((dvd_burst_iff (c := .wideningOn bus) hbus hwidth).1 hburst)
  · rintro hdvd c s rfl hs id hid rfl
    obtain ⟨layout, -, hbits, -, hburst, -⟩ := hs.row hid
    rw [hbits]
    exact ((dvd_burst_iff hs.busWidth_pos hwidth).2 hdvd).trans (Nat.mul_dvd_mul_right hburst _)
  · rintro c s rfl hs id hid rfl
    obtain ⟨layout, hlayout, hbits, -, hburst, hpos⟩ := hs.row hid
    refine ⟨layout, hlayout, hbits, hburst, ?_, ?_⟩
    · rw [hbits]
      calc c.busWidth ≤ c.burstElements (s.tensor id).element.width * (s.tensor id).element.width :=
            le_roundUp _ hwidth
        _ ≤ layout.shape.innermost * (s.tensor id).element.width :=
            Nat.mul_le_mul_right _ (Nat.le_of_dvd hpos hburst)
    · rw [hbits]
      exact dvd_mul_width_iff hs.busWidth_pos

/-- On a bus of a byte, elements of a byte have rows of whole words in the dense
layer. -/
theorem rows_whole_iff_dense : ∃ s, ScheduledOn s denseConfig ∧ (s.tensor 0).element = narrow 0 ∧
    8 ∣ (s.tensor 0).rowBits := by
  have hrun : densePlan.toOption.map (fun p => (p.1.tensors.size, (p.1.tensor 0).element)) =
      some (5, narrow 0) := by decide +kernel
  obtain ⟨⟨s, map⟩, hplan, hread⟩ := Option.map_eq_some_iff.1 hrun
  simp only [Prod.mk.injEq] at hread
  obtain ⟨hsize, helement⟩ := hread
  simp only [toOption_eq_some_iff, densePlan, bind_ok_iff, mapError_ok_iff, pure_ok_iff] at hplan
  obtain ⟨g, hfinish, q, hq, s', hs, _, -, heq⟩ := hplan
  obtain ⟨rfl, rfl⟩ := Prod.mk.inj heq
  have hscheduled : ScheduledOn s' denseConfig := ⟨g, _, q, _, ⟨_, hfinish⟩, hq, hs⟩
  exact ⟨s', hscheduled, helement,
    (rows_whole_iff 8 (narrow 0)).1.2 (by decide) denseConfig s' rfl hscheduled 0
      (by omega) helement⟩

/-- On a bus of four bytes, a row of elements of three bytes ends inside the
second word. -/
theorem row_inside_word : ∃ s, ScheduledOn s (.wideningOn 32) ∧ ∃ id < s.tensors.size,
    (s.tensor id).element.width = 24 ∧ (s.tensor id).rowBits = 48 ∧
      ¬ 32 ∣ (s.tensor id).rowBits := by
  obtain ⟨s, hs, id, hid, helement, hrow⟩ :=
    exists_row_burst (validate_wideningOn (by decide : 0 < 32)) rfl
    ⟨24, true, by decide, by decide⟩ (by decide)
  have hrow : (s.tensor id).rowBits = 48 := hrow
  refine ⟨s, hs, id, hid, by rw [helement], hrow, ?_⟩
  rw [hrow]
  decide

end Graph

end QuantAccel
