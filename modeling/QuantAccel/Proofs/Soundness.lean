import QuantAccel.Proofs.Bench
import QuantAccel.Proofs.Protocol

/-!
# What a report says

The bench compares outputs with references that lie in the same image as the
device works on. That is sound for every device that keeps to the checks of the
image, however it behaves otherwise: inputs, parameters and references were
loaded into places that keep apart, all of these are guarded from before the
start until the device is done, and so they are in the end what was loaded in
the beginning.
-/

namespace QuantAccel

/-- The values of a tensor in an image, at the address of the tensor. -/
def Image.Has (image : Image) (t : Tensor) (values : Array Int) : Prop :=
  ∃ address, t.address = some address ∧ image.readTensor address t = .ok values

/-- A tensor is read with as many values as it has elements. -/
theorem Image.size_of_readTensor {image : Image} {base : Nat} {t : Tensor} {values : Array Int}
    (h : image.readTensor base t = .ok values) : values.size = t.volume := by
  simp only [readTensor, bind_ok_iff, pure_ok_iff] at h
  obtain ⟨bytes, -, layout, -, rfl⟩ := h
  exact size_unpack _ _ _ _ _

namespace Design

variable {d : Design} {image : Image} {stimulus : Stimulus} {id : TensorId}

theorem Prepared.stop_le_size (hd : d.Prepared) (hid : id < d.graph.tensors.size) :
    (d.graph.tensor id).address.getD 0 + (d.graph.tensor id).memorySize ≤ d.memory.size :=
  le_trans (hd.sound.inside_home (hd.extent_tensor hid)).2 (hd.sound.stop_le_size _)

/-- What is read at the address of a tensor is what the image has of it. -/
theorem Prepared.has_of_read (hd : d.Prepared) (hid : id < d.graph.tensors.size)
    {values : Array Int}
    (h : image.readTensor ((d.graph.tensor id).address.getD 0) (d.graph.tensor id) = .ok values) :
    image.Has (d.graph.tensor id) values := by
  obtain ⟨address, haddress⟩ := Option.isSome_iff_exists.1 (hd.isSome_address hid)
  rw [haddress] at h
  exact ⟨address, haddress, h⟩

/-- Every tensor of a design has some values in an image of the size of its
memory. -/
theorem Prepared.exists_has (hd : d.Prepared) (hsize : image.size = d.memory.size)
    (hid : id < d.graph.tensors.size) : ∃ values, image.Has (d.graph.tensor id) values := by
  have hin := hd.stop_le_size hid
  rw [← hsize] at hin
  exact ⟨_, hd.has_of_read hid (Image.readTensor_eq_elements (hd.arranged.laid id hid) hin)⟩

/-- A loaded image has the inputs of the stimulus, reduced to their element
types. -/
theorem Loaded.has_input (h : d.Loaded stimulus image) (hd : d.Prepared)
    (hsize : image.size = d.memory.size) (hid : id ∈ d.graph.placeholders) :
    ∃ values, stimulus.inputs id = some values ∧
      image.Has (d.graph.tensor id) (values.map (d.graph.tensor id).element.reduce) := by
  obtain ⟨values, hvalues, hcarries⟩ := h.inputs id hid
  have hlt := (hd.wellFormed.mem_idsWhere.1 hid).1
  have hin := hd.stop_le_size hlt
  rw [← hsize] at hin
  exact ⟨values, hvalues, hd.has_of_read hlt (hcarries.readTensor_eq (hd.arranged.laid id hlt) hin)⟩

/-- A loaded image has the integers of the parameters. -/
theorem Loaded.has_parameter (h : d.Loaded stimulus image) (hd : d.Prepared)
    (hsize : image.size = d.memory.size) (hid : id < d.graph.tensors.size)
    (hparam : (d.graph.tensor id).kind.isParameter) :
    ∃ ints, (d.graph.tensor id).ints = some ints ∧ image.Has (d.graph.tensor id) ints := by
  have hstop := hd.sound.stop_le_size .parameters
  rw [← hsize] at hstop
  obtain ⟨ints, address, hints, haddress, hread⟩ :=
    hd.readTensor_parameter h.parameters hstop hid hparam
  exact ⟨ints, hints, address, haddress, hread⟩

/-- Every output has its expected values. -/
theorem Loaded.reference (h : d.Loaded stimulus image) (hd : d.Prepared)
    (hid : id ∈ d.graph.outputs) :
    ∃ values, stimulus.references id = some values ∧ values.size = (d.graph.tensor id).volume := by
  obtain ⟨p, hp, rfl⟩ := List.mem_map.1 (hd.sound.reference_ids ▸ hid)
  obtain ⟨values, hvalues, hcarries⟩ := h.references p hp
  exact ⟨values, hvalues, hcarries.count⟩

end Design

/-- The elements at which a tensor has other values than the expected ones. -/
def Tensor.differences (t : Tensor) (actual expected : Array Int) : List Mismatch :=
  (List.range t.volume).filterMap fun index =>
    if actual.getD index 0 = expected.getD index 0 then none
    else some
      { output := t.name, index, expected := expected.getD index 0, actual := actual.getD index 0 }

/-- The report counts all elements of the outputs and lists those at which their
values are not the expected ones: outputs in their order, elements in ascending
order. -/
structure Report.Compares (r : Report) (d : Design) (actual expected : TensorId → Array Int) :
    Prop where
  mismatches : r.mismatches = d.graph.outputs.flatMap fun id =>
    (d.graph.tensor id).differences (actual id) (expected id)
  checked : r.checked = (d.graph.outputs.map fun id => (d.graph.tensor id).volume).sum
  verdict : r.verdict = .passed ↔ r.mismatches = []

namespace Bench

open Device (Steps Runs)

variable {σ κ : Type} {b b' : Bench σ κ} {u : Unit}

/-! ## Starting and waiting -/

section Wait

variable [Device σ]

/-- The bench once its device is started. -/
def running [Clock κ] (b : Bench σ κ) (s : σ) (journal : Array Event) : Bench σ κ :=
  { b with device := s, journal, startedAt := Clock.cycles b.clock, state := .running }

/-- A start strobes the device and takes the time. -/
theorem start_ok [Clock κ] (h : runFrom (start : Action σ κ Unit) b = (.ok u, b')) :
    ∃ s journal, (Device.writeControl b.device Register.start.offset startStrobe).outcome = .ok s ∧
      b' = b.running s journal := by
  obtain ⟨_, b₀, hrequire, h⟩ := runFrom_bind_ok.1 h
  obtain rfl : b = b₀ := (runFrom_require.1 hrequire).2.symm
  obtain ⟨_, b₁, hwrite, hrest⟩ := runFrom_bind_ok.1 h
  obtain ⟨s, hs, rfl⟩ := runFrom_writeControl.1 hwrite
  rw [runFrom_modify] at hrest
  obtain ⟨-, rfl⟩ := Prod.mk.inj hrest
  exact ⟨s, _, hs, rfl⟩

/-- The bench after an edge. -/
def afterEdge [Clock κ] (b : Bench σ κ) : Bench σ κ :=
  b.moved (Device.step b.device b.image).device (Device.step b.device b.image).image
    (Clock.tick b.clock).2
    (b.journal ++ (Device.step b.device b.image).events)

/-- An edge without a fault answers with the count of the clock. -/
theorem runFrom_edge_ok [Clock κ] (h : (Device.step b.device b.image).fault = none) :
    runFrom (edge : Action σ κ Nat) b = (.ok (Clock.tick b.clock).1, b.afterEdge) :=
  runFrom_edge.2 ⟨rfl, _, _, ⟨rfl, rfl, h⟩, rfl⟩

/-- **One round of polling**: an edge without a fault, and then the status and
the time decide. -/
theorem runFrom_poll_succ_of_read [Clock κ] {fuel : Nat} {status : UInt32}
    (hfault : (Device.step b.device b.image).fault = none)
    (hread : Device.readControl b.afterEdge.device Register.status.offset = .ok status) :
    runFrom (poll (fuel + 1) : Action σ κ Nat) b =
      if status &&& Status.done ≠ 0 then (.ok ((Clock.tick b.clock).1 - b.startedAt), b.afterEdge)
      else if b.config.maxCycles ≤ (Clock.tick b.clock).1 - b.startedAt then
        (.error (.timeout (Device.name b.afterEdge.device) ((Clock.tick b.clock).1 - b.startedAt)),
          b.afterEdge.noted
            [.deviceStuck (Device.name b.afterEdge.device) ((Clock.tick b.clock).1 - b.startedAt)])
      else runFrom (poll fuel) b.afterEdge := by
  have hstart : b.afterEdge.startedAt = b.startedAt := rfl
  have hconfig : b.afterEdge.config = b.config := rfl
  rw [poll, runFrom_bind, runFrom_edge_ok hfault]
  dsimp only
  rw [runFrom_get_bind]
  simp only [hread, hstart, hconfig, runFrom_bind, runFrom_liftM, bne_iff_ne]
  split
  · rfl
  · split
    · rw [runFrom_bind, runFrom_note]
      rfl
    · rfl

/-- **Polling is a run of the device**, of any length. -/
theorem poll_ok [Clock κ] {fuel elapsed : Nat}
    (h : runFrom (poll fuel : Action σ κ Nat) b = (.ok elapsed, b')) :
    ∃ n s image clock journal, Runs (fun _ => True) n b.device b.image s image ∧
      b' = b.moved s image clock journal := by
  induction fuel generalizing b with
  | zero =>
    rw [poll, runFrom_get_bind, runFrom_throw] at h
    cases h
  | succ fuel ih =>
    obtain ⟨now, b₁, hedge, h⟩ := runFrom_bind_ok.1 h
    obtain ⟨-, s, image, hstep, rfl⟩ := runFrom_edge.1 hedge
    rw [runFrom_get_bind] at h
    obtain ⟨status, -, hrest⟩ := runFrom_liftM_bind_ok.1 h
    -- done, out of time, or another round
    split at hrest
    · rw [runFrom_pure] at hrest
      obtain ⟨-, rfl⟩ := Prod.mk.inj hrest
      exact ⟨1, s, image, _, _, .single hstep, rfl⟩
    · split at hrest
      · rw [runFrom_bind, runFrom_note] at hrest
        cases hrest
      · obtain ⟨n, s', image', clock, journal, hrun, rfl⟩ := ih hrest
        exact ⟨n + 1, s', image', clock, journal, .edge hstep (fun _ => trivial) hrun, rfl⟩

/-- The bench once its device is done. -/
def waited (b : Bench σ κ) (elapsed : Nat) (counter : UInt32) : Bench σ κ :=
  { b with
    cycles := elapsed, handshake := counter, image := b.image.unprotectAll, state := .verifying }

/-- **Waiting polls and reads the counter**, and fails only where one of these
does. -/
theorem runFrom_wait [Clock κ] (h : b.state = .running) :
    match runFrom (poll (max b.config.maxCycles (Nat.pow 2 62))) (b.inState .waiting) with
    | (.error e, b₁) => runFrom (wait : Action σ κ Nat) b = (.error e, b₁)
    | (.ok elapsed, b₁) =>
      match b₁.image.readWord b₁.design.memory.handshake with
      | .error e => runFrom (wait : Action σ κ Nat) b = (.error e, { b₁ with cycles := elapsed })
      | .ok counter => ∃ events,
        runFrom (wait : Action σ κ Nat) b =
          (.ok elapsed, (b₁.noted events).waited elapsed counter) := by
  rcases hpoll : runFrom (poll (max b.config.maxCycles (Nat.pow 2 62))) (b.inState .waiting) with
    ⟨e | elapsed, b₁⟩ <;> dsimp only
  · rw [wait, runFrom_require_bind, if_pos h]
    refine runFrom_bind_error.2 (.inr ⟨⟨⟩, b.inState .waiting, rfl, ?_⟩)
    rw [runFrom_get_bind]
    exact runFrom_bind_error.2 (.inl hpoll)
  · cases hword : b₁.image.readWord b₁.design.memory.handshake with
    | error e =>
      rw [wait, runFrom_require_bind, if_pos h]
      refine runFrom_bind_error.2 (.inr ⟨⟨⟩, b.inState .waiting, rfl, ?_⟩)
      rw [runFrom_get_bind]
      refine runFrom_bind_error.2 (.inr ⟨elapsed, b₁, hpoll, ?_⟩)
      rw [runFrom_bind, runFrom_modify]
      dsimp only
      rw [runFrom_get_bind]
      exact runFrom_bind_error.2 (.inl (runFrom_liftM_error.2 ⟨hword, rfl⟩))
    | ok counter =>
      refine ⟨(if counter.toNat ≠ b₁.design.graph.operators.size then
        [.handshakeDiffers counter.toNat b₁.design.graph.operators.size] else []) ++
          [.deviceFinished (Device.name b₁.device) elapsed], ?_⟩
      rw [wait, runFrom_require_bind, if_pos h]
      refine runFrom_bind_ok.2 ⟨⟨⟩, b.inState .waiting, rfl, ?_⟩
      rw [runFrom_get_bind]
      refine runFrom_bind_ok.2 ⟨elapsed, b₁, hpoll, ?_⟩
      rw [runFrom_bind, runFrom_modify]
      dsimp only
      rw [runFrom_get_bind]
      refine runFrom_liftM_bind_ok.2 ⟨counter, hword, ?_⟩
      dsimp only
      rw [← noted_noted]
      split
      · rw [runFrom_bind, runFrom_note]
        rfl
      · rw [noted_nil]
        rfl

/-- A wait that succeeds ran the device for some edges, and read the handshake
word after the last one. -/
theorem wait_ok [Clock κ] {elapsed : Nat}
    (h : runFrom (wait : Action σ κ Nat) b = (.ok elapsed, b')) (hstate : b.state = .running) :
    ∃ n s image clock journal counter, Runs (fun _ => True) n b.device b.image s image ∧
      image.readWord b.design.memory.handshake = .ok counter ∧
      b' = (b.moved s image clock journal).waited elapsed counter := by
  have hwait := runFrom_wait hstate
  rcases hpoll : runFrom (poll (max b.config.maxCycles (Nat.pow 2 62))) (b.inState .waiting) with
    ⟨e | elapsed₁, b₁⟩ <;> rw [hpoll] at hwait <;> dsimp only at hwait
  · rw [hwait] at h
    cases h
  · obtain ⟨n, s, image, clock, journal, hrun, rfl⟩ := poll_ok hpoll
    dsimp only [moved, inState] at hwait
    cases hword : image.readWord b.design.memory.handshake with
    | error e =>
      rw [hword] at hwait
      dsimp only at hwait
      rw [hwait] at h
      cases h
    | ok counter =>
      rw [hword] at hwait
      obtain ⟨events, hwait⟩ := hwait
      rw [hwait] at h
      cases h
      exact ⟨n, s, image, clock, journal ++ events, counter, hrun, hword, rfl⟩

end Wait

/-! ## Comparing -/

/-- The comparison of an output with its reference, by itself. -/
def checkOutput (d : Design) (image : Image) (p : TensorId × Nat) :
    Except SimulationError (Nat × List Mismatch) := do
  let t := d.graph.tensor p.1
  let some address := t.address | throw (.layout t.name .outputWithoutAddress)
  let actual ← image.readTensor address t
  let expected ← image.readTensor p.2 t
  return (actual.size, compare t.name actual expected)

/-- The comparison of an output depends on the design and the image alone, and
notes what it finds. -/
theorem runFrom_verifyOutput (p : TensorId × Nat) (b : Bench σ κ) :
    ∃ events, runFrom (verifyOutput p.1 p.2) b =
      (checkOutput b.design b.image p, b.noted events) := by
  rw [verifyOutput, runFrom_get_bind, checkOutput]
  dsimp only
  cases (b.design.graph.tensor p.1).address with
  | none => exact ⟨[], by rw [noted_nil]; rfl⟩
  | some address =>
    simp only [runFrom_bind, runFrom_liftM, runFrom_notes]
    cases b.image.readTensor address (b.design.graph.tensor p.1) with
    | error e => exact ⟨[], by rw [noted_nil]; rfl⟩
    | ok actual =>
      cases b.image.readTensor p.2 (b.design.graph.tensor p.1) with
      | error e => exact ⟨[], by rw [noted_nil]; rfl⟩
      | ok expected => exact ⟨_, rfl⟩

/-- All comparisons, one after the other, see the same image. -/
theorem runFrom_verifyOutputs (l : List (TensorId × Nat)) (b : Bench σ κ) :
    ∃ events, runFrom (l.mapM fun (id, address) => verifyOutput id address) b =
      (l.mapM (checkOutput b.design b.image), b.noted events) := by
  induction l generalizing b with
  | nil => exact ⟨[], by rw [noted_nil]; rfl⟩
  | cons p l ih =>
    rw [List.mapM_cons, List.mapM_cons, runFrom_bind]
    obtain ⟨events, hfirst⟩ := runFrom_verifyOutput p b
    obtain ⟨events', hrest⟩ := ih (b.noted events)
    rw [hfirst]
    cases checkOutput b.design b.image p with
    | error e => exact ⟨events, rfl⟩
    | ok r =>
      refine ⟨events ++ events', ?_⟩
      dsimp only
      rw [noted_noted] at hrest
      change _ = (l.mapM (checkOutput b.design b.image), _) at hrest
      rw [runFrom_bind, hrest]
      cases l.mapM (checkOutput b.design b.image) <;> rfl

/-- The report on what the comparisons found. -/
def reportOf [Device σ] (b : Bench σ κ) (found : List (Nat × List Mismatch)) : Report :=
  { device := Device.name b.device, cycles := b.cycles, handshake := b.handshake
    checked := (found.map (·.1)).sum, mismatches := found.flatMap (·.2)
    verdict := if (found.flatMap (·.2)).isEmpty then .passed else .failed }

/-- A report passes exactly if it lists no mismatch. -/
theorem passed_reportOf [Device σ] (b : Bench σ κ) (found : List (Nat × List Mismatch)) :
    (b.reportOf found).verdict = .passed ↔ (b.reportOf found).mismatches = [] := by
  simp only [reportOf]
  generalize found.flatMap (·.2) = mismatches
  cases mismatches <;> simp

/-- **Verifying reports what the comparisons find**, and fails only where one of
them does. -/
theorem runFrom_verify [Device σ] (h : b.state = .verifying) :
    ∃ events, runFrom (verify : Action σ κ Report) b =
      match b.design.memory.reference.mapM (checkOutput b.design b.image) with
      | .error e => (.error e, b.noted events)
      | .ok found =>
        (.ok (b.reportOf found), (b.noted events).inState (.done (b.reportOf found).verdict)) := by
  obtain ⟨events, hfound⟩ := runFrom_verifyOutputs b.design.memory.reference b
  rw [verify, runFrom_require_bind, if_pos h, runFrom_get_bind, runFrom_bind, hfound]
  cases b.design.memory.reference.mapM (checkOutput b.design b.image) with
  | error e => exact ⟨events, rfl⟩
  | ok found =>
    dsimp only
    -- a failed comparison makes one more entry in the journal
    by_cases hnone : (found.flatMap (·.2)).isEmpty
    · refine ⟨events, ?_⟩
      simp only [hnone, if_true, reduceCtorEq, if_false, reportOf, foldr_add]
      rfl
    · refine ⟨events ++ [.elementsDiffer (found.flatMap (·.2)).length (found.map (·.1)).sum], ?_⟩
      simp only [hnone, Bool.false_eq_true, if_true, if_false, reportOf, runFrom_bind, runFrom_note,
        noted_noted, foldr_add]
      rfl

/-- An output that can be read is compared element by element. -/
theorem checkOutput_eq {d : Design} {image : Image} {p : TensorId × Nat}
    {actual expected : Array Int} (hactual : image.Has (d.graph.tensor p.1) actual)
    (hexpected : image.readTensor p.2 (d.graph.tensor p.1) = .ok expected) :
    checkOutput d image p = .ok ((d.graph.tensor p.1).volume,
      (d.graph.tensor p.1).differences actual expected) := by
  obtain ⟨address, haddress, hread⟩ := hactual
  have hsize := Image.size_of_readTensor hread
  have hsize' := Image.size_of_readTensor hexpected
  simp only [checkOutput, haddress, hread, hexpected, bind, Except.bind, pure, Except.pure, compare,
    hsize, hsize', min_self]
  rfl

/-- **On a loaded image the report compares with the references of the
stimulus**, reduced to the width of the outputs. -/
theorem verify_eq [Device σ] (hstate : b.state = .verifying) (hd : b.design.Prepared)
    (hsize : b.image.size = b.design.memory.size) (hloaded : b.design.Loaded b.stimulus b.image)
    {actual expected : TensorId → Array Int}
    (hactual : ∀ id ∈ b.design.graph.outputs, b.image.Has (b.design.graph.tensor id) (actual id))
    (hexpected : ∀ id ∈ b.design.graph.outputs, ∀ values, b.stimulus.references id = some values →
      expected id = values.map (b.design.graph.tensor id).element.reduce) :
    ∃ found events, runFrom (verify : Action σ κ Report) b =
        (.ok (b.reportOf found), (b.noted events).inState (.done (b.reportOf found).verdict)) ∧
      (b.reportOf found).Compares b.design actual expected := by
  -- a reference reads as its values reduced to the width, since it was packed
  -- so
  have hcheck (p : TensorId × Nat) (hp : p ∈ b.design.memory.reference) :
      checkOutput b.design b.image p = .ok ((b.design.graph.tensor p.1).volume,
        (b.design.graph.tensor p.1).differences (actual p.1) (expected p.1)) := by
    have hid : p.1 ∈ b.design.graph.outputs := hd.sound.reference_ids ▸ List.mem_map_of_mem hp
    obtain ⟨values, hvalues, hcarries⟩ := hloaded.references p hp
    have hinside := (hd.sound.inside_home (hd.sound.reference_extent p hp)).2
    have hstop := hd.sound.stop_le_size (b.design.graph.home (.reference p.1))
    simp only [Extent.stop] at hinside
    refine checkOutput_eq (hactual p.1 hid) ?_
    rw [hexpected p.1 hid values hvalues]
    exact hcarries.readTensor_eq (hd.arranged.laid _ (hd.reference_output hp).1) (by omega)
  have hfound : b.design.memory.reference.mapM (checkOutput b.design b.image) =
      .ok (b.design.memory.reference.map fun p => ((b.design.graph.tensor p.1).volume,
        (b.design.graph.tensor p.1).differences (actual p.1) (expected p.1))) := by
    rw [mapM_ok_iff, List.forall₂_map_right_iff, List.forall₂_same]
    exact hcheck
  obtain ⟨events, hverify⟩ := runFrom_verify hstate
  rw [hfound] at hverify
  -- there is one reference for each output, in the order of the outputs
  refine ⟨_, events, hverify, ⟨?_, ?_, ?_⟩⟩
  · simp only [reportOf, ← hd.sound.reference_ids, List.flatMap_map]
  · simp only [reportOf, ← hd.sound.reference_ids, List.map_map, Function.comp_def]
  · exact b.passed_reportOf _

/-! ## Whole runs -/

section Run

variable [Device σ]

/-- A new bench has a filled image of the size of the plan. -/
theorem create_ok {design : Design} {device : σ} {clock : κ} {stimulus : Stimulus}
    {config : SimulationConfig} (h : create design device clock stimulus config = .ok b) :
    b = { design, device, clock, config, stimulus
          image := .filled design.memory.size config.fillByte } := by
  unfold create at h
  simp only [bind_ok_iff, check_ok_iff, pure_ok_iff] at h
  obtain ⟨_, -, _, -, -, rfl⟩ := h
  rfl

/-- What was loaded survives every run of a device that keeps to the checks. -/
theorem loaded_of_runs {d : Design} (hd : d.Prepared) (hσ : Device.Checked σ) {stimulus : Stimulus}
    {image image' : Image} (hloaded : d.Loaded stimulus image) (hguarded : image.GuardedBy d.guards)
    {P : σ → Prop} {n : Nat} {s s' : σ} (hrun : Runs P n s image s' image') :
    d.Loaded stimulus image' := by
  refine hloaded.of_changesOnly hd (hrun.accessed hσ).changesOnly fun x hx a ha => ?_
  -- an address under guard would have been written
  by_contra hin
  rw [not_or, not_lt, not_le] at hin
  exact hguarded.not_unprotected hx hin.1 hin.2 ha

/-- The image in which a bench compares: nothing that was loaded has changed
since. -/
theorem run_ok [Clock κ] {report : Report}
    (h : runFrom (run : Action σ κ Report) b = (.ok report, b')) (hd : b.design.Prepared)
    (hσ : Device.Checked σ) (hopen : b.image.protections = []) :
    ∃ b₁, runFrom (verify : Action σ κ Report) b₁ = (.ok report, b') ∧ b₁.state = .verifying ∧
      b₁.design = b.design ∧ b₁.stimulus = b.stimulus ∧ b₁.image.size = b.image.size ∧
      b.design.Loaded b.stimulus b₁.image := by
  obtain ⟨_, b₁, haddress, h⟩ := runFrom_bind_ok.1 h
  obtain ⟨-, -, -, s, image, clock, journal, -, -, -, -, -, rfl, hloaded, hsize, hguarded⟩ :=
    address_ok haddress hd hσ hopen
  obtain ⟨_, b₂, hstart, h⟩ := runFrom_bind_ok.1 h
  obtain ⟨s', journal', -, rfl⟩ := start_ok hstart
  obtain ⟨elapsed, b₃, hwait, h⟩ := runFrom_bind_ok.1 h
  obtain ⟨n, s'', image', clock', journal'', counter, hrun, -, rfl⟩ := wait_ok hwait rfl
  refine ⟨_, h, rfl, rfl, rfl, ?_, ?_⟩
  · exact ((hrun.accessed hσ).changesOnly.size).trans hsize
  · exact (loaded_of_runs hd hσ hloaded hguarded hrun).of_bytes_eq rfl

/-- **A report is sound against every device that keeps to the checks of the
image**, and under every clock. What it compares with are the references of the
stimulus, reduced to the width of each output; it lists exactly the elements at
which the outputs have other values in the end, and passes if there are none.
Inputs and parameters are still what was loaded. -/
theorem run_sound {g : Graph} {ctx : Context} {ranges : ValueRanges} {requests : AttributeRequests}
    {β μ : Type} [Backend β μ] {backend : β} {c : Compilation μ} (hg : g.Finished)
    (hc : (g.compile ctx ranges requests backend).result.outcome = .ok c) [Clock κ]
    (hσ : Device.Checked σ) {device : σ} {clock : κ} {stimulus : Stimulus}
    {config : SimulationConfig} (hb : create c.design device clock stimulus config = .ok b)
    {report : Report} (h : runFrom (run : Action σ κ Report) b = (.ok report, b')) :
    (∃ actual expected : TensorId → Array Int,
      (∀ id ∈ c.design.graph.outputs, b'.image.Has (c.design.graph.tensor id) (actual id) ∧
        ∃ values, stimulus.references id = some values ∧
          values.size = (c.design.graph.tensor id).volume ∧
          expected id = values.map (c.design.graph.tensor id).element.reduce) ∧
      report.Compares c.design actual expected) ∧
    (∀ id ∈ c.design.graph.placeholders, ∃ values, stimulus.inputs id = some values ∧
      b'.image.Has (c.design.graph.tensor id)
        (values.map (c.design.graph.tensor id).element.reduce)) ∧
    (∀ id < c.design.graph.tensors.size, (c.design.graph.tensor id).kind.isParameter →
      ∃ ints, (c.design.graph.tensor id).ints = some ints ∧
        b'.image.Has (c.design.graph.tensor id) ints) := by
  obtain ⟨hd, -⟩ := Graph.compile_ok hg hc
  obtain rfl := create_ok hb
  obtain ⟨b₁, hverify, hstate, hdesign, hstimulus, hsize, hloaded⟩ := run_ok h hd hσ rfl
  dsimp only at hdesign hstimulus hsize hloaded
  have hsize : b₁.image.size = c.design.memory.size := hsize.trans Array.size_replicate
  have hvalues : ∀ id ∈ c.design.graph.outputs, ∃ values,
      b₁.image.Has (c.design.graph.tensor id) values :=
    fun id hid => hd.exists_has hsize (hd.wellFormed.mem_idsWhere.1 hid).1
  choose! actual hactual using hvalues
  have hreferences : ∀ id ∈ c.design.graph.outputs, ∃ values expected, stimulus.references id =
      some values ∧
      values.size = (c.design.graph.tensor id).volume ∧
      expected = values.map (c.design.graph.tensor id).element.reduce := fun id hid => by
    obtain ⟨values, hvalues, hcount⟩ := hloaded.reference hd hid
    exact ⟨values, _, hvalues, hcount, rfl⟩
  choose! values expected hreference using hreferences
  have hexpected : ∀ id ∈ b₁.design.graph.outputs, ∀ values, b₁.stimulus.references id =
      some values →
      expected id = values.map (b₁.design.graph.tensor id).element.reduce := by
    rw [hdesign, hstimulus]
    intro id hid values' hvalues'
    obtain ⟨hvalues, -, hexpected⟩ := hreference id hid
    obtain rfl := Option.some.inj (hvalues.symm.trans hvalues')
    exact hexpected
  -- the report is that of the last action, and a run has one outcome
  obtain ⟨found, events, hrun, hcompares⟩ :=
    verify_eq hstate (hdesign ▸ hd) (by rw [hsize, hdesign])
    (by rw [hdesign, hstimulus]; exact hloaded) (by rw [hdesign]; exact hactual) hexpected
  obtain ⟨hreport, rfl⟩ := Prod.mk.inj (hverify.symm.trans hrun)
  obtain rfl := Except.ok.inj hreport
  rw [hdesign] at hcompares
  refine ⟨⟨actual, expected,
    fun id hid => ⟨hactual id hid, values id, hreference id hid⟩, hcompares⟩,
    fun id hid => hloaded.has_input hd hsize hid, fun id hid => hloaded.has_parameter hd hsize hid⟩

end Run

/-- The dense layer passes on the inputs of its stimulus, and its one output is
compared. -/
theorem run_sound_dense : ∃ (b b' : Bench Machine CycleClock) (report : Report)
    (actual expected : TensorId → Array Int),
    runFrom run b = (.ok report, b') ∧ report.verdict = .passed ∧ b.design.graph.outputs ≠ [] ∧
    (∀ id ∈ b.design.graph.outputs, b'.image.Has (b.design.graph.tensor id) (actual id) ∧
      ∃ values, b.stimulus.references id = some values ∧
        expected id = values.map (b.design.graph.tensor id).element.reduce) ∧
    report.Compares b.design actual expected := by
  have hpasses : ((dense 1000).toOption.any fun b =>
      (runFrom run b).1.toOption.any fun report =>
        decide (report.verdict = .passed ∧ b.design.graph.outputs ≠ [])) = true := by decide +kernel
  obtain ⟨b, hb, hpasses⟩ := (Option.any_eq_true _ _).1 hpasses
  obtain ⟨report, hreport, hpassed⟩ := (Option.any_eq_true _ _).1 hpasses
  obtain ⟨g, c, stimulus, hg, hc, hcreate⟩ := dense_ok (toOption_eq_some_iff.1 hb)
  have hrun : runFrom run b = (.ok report, (runFrom run b).2) :=
    Prod.ext (toOption_eq_some_iff.1 hreport) rfl
  obtain ⟨⟨actual, expected, hvalues, hcompares⟩, -, -⟩ :=
    run_sound hg hc Machine.checked hcreate hrun
  obtain rfl := create_ok hcreate
  refine ⟨_, _, report, actual, expected, hrun, (of_decide_eq_true hpassed).1,
    (of_decide_eq_true hpassed).2, fun id hid => ?_, hcompares⟩
  obtain ⟨hactual, values, hvalues, -, hexpected⟩ := hvalues id hid
  exact ⟨hactual, values, hvalues, hexpected⟩

end Bench

end QuantAccel
