import QuantAccel.Proofs.Refinement
import QuantAccel.Proofs.Soundness

/-!
# Simulation of a machine

The bench drives the machine of a design from the first edge to the verdict, and
nothing in between fails: inputs and references in range can be loaded, the
planned place hosts the machine, and polling sees it done after as many cycles
as its plans have. So the report is known before the run: it compares the
references with the values of the evaluator.
-/

namespace QuantAccel

/-- Values for some tensors of a graph, one for each element and all in
range. -/
def Valuation.Suits (v : Valuation Int) (g : Graph) (ids : List TensorId) : Prop :=
  ∀ id ∈ ids, ∃ values, v id = some values ∧ values.size = (g.tensor id).volume ∧
    ∀ n ∈ values, (g.tensor id).element.Contains n

instance (v : Valuation Int) (g : Graph) (ids : List TensorId) : Decidable (v.Suits g ids) :=
  decidable_of_iff (∀ id ∈ ids, ∃ values ∈ v id, values.size = (g.tensor id).volume ∧
    ∀ n ∈ values, (g.tensor id).element.Contains n) Iff.rfl

/-- A design and a stimulus that a bench can run a machine with: a chunk has
room for a word, registers for every address, and the values are in range. -/
structure Design.Drivable (d : Design) (stimulus : Stimulus) : Prop where
  chunk : 4 ≤ d.config.chunkSize
  size : d.memory.size ≤ 2 ^ 32
  inputs : stimulus.inputs.Suits d.graph d.graph.placeholders
  references : stimulus.references.Suits d.graph d.graph.outputs

instance (d : Design) (stimulus : Stimulus) : Decidable (d.Drivable stimulus) :=
  decidable_of_iff (4 ≤ d.config.chunkSize ∧ d.memory.size ≤ 2 ^ 32 ∧
      stimulus.inputs.Suits d.graph d.graph.placeholders ∧
        stimulus.references.Suits d.graph d.graph.outputs)
    ⟨fun ⟨hchunk, hsize, hinputs, hreferences⟩ => ⟨hchunk, hsize, hinputs, hreferences⟩,
      fun h => ⟨h.chunk, h.size, h.inputs, h.references⟩⟩

/-- Inputs in range are loaded as they are. -/
theorem Design.Loaded.has_suited {d : Design} {stimulus : Stimulus} {image : Image}
    (h : d.Loaded stimulus image) (hd : d.Prepared) (hsize : image.size = d.memory.size)
    (hinputs : stimulus.inputs.Suits d.graph d.graph.placeholders) {id : TensorId}
    (hid : id ∈ d.graph.placeholders) :
    ∃ values, stimulus.inputs id = some values ∧ image.Has (d.graph.tensor id) values := by
  obtain ⟨values, hvalues, hhas⟩ := h.has_input hd hsize hid
  obtain ⟨values', hvalues', -, hcontains⟩ := hinputs id hid
  obtain rfl := Option.some.inj (hvalues.symm.trans hvalues')
  rw [ElementType.map_reduce_of_contains hcontains] at hhas
  exact ⟨values, hvalues, hhas⟩

namespace Bench

open Device (Steps Runs)

/-! ## Addressing succeeds -/

section Address

variable {σ κ : Type} {b : Bench σ κ}

/-- A bench with an image of the size of its memory, all of which can be
written. -/
structure Open (b : Bench σ κ) : Prop where
  prepared : b.design.Prepared
  size : b.image.size = b.design.memory.size
  unprotected : b.image.protections = []

namespace Open

theorem writable (h : b.Open) {address length : Nat}
    (hle : address + length ≤ b.design.memory.size) :
    b.image.Writable address length :=
  ⟨h.size ▸ hle, by simp [h.unprotected]⟩

theorem writable_extent (h : b.Open) {e : Entity} {x : Extent}
    (he : b.design.memory.extent? b.design.graph e = some x) : b.image.Writable x.base x.size :=
  h.writable (le_trans (h.prepared.sound.inside_home he).2 (h.prepared.sound.stop_le_size _))

theorem moved (h : b.Open) {touched : Set Nat} {image : Image}
    (hc : Image.ChangesOnly touched b.image image) (s : σ) (clock : κ) (journal : Array Event) :
    (b.moved s image clock journal).Open :=
  ⟨h.prepared, hc.size.trans h.size, hc.protections.trans h.unprotected⟩

end Open

theorem exists_loadInput (h : b.Open) {id : TensorId} (hid : id ∈ b.design.graph.placeholders)
    (hinputs : b.stimulus.inputs.Suits b.design.graph b.design.graph.placeholders) :
    ∃ image journal, runFrom (loadInput id) b = (.ok ⟨⟩, b.moved b.device image b.clock journal) ∧
      (b.moved b.device image b.clock journal).Open := by
  obtain ⟨hlt, -⟩ := h.prepared.wellFormed.mem_idsWhere.1 hid
  have hlaid := h.prepared.arranged.laid id hlt
  obtain ⟨address, haddress, hextent⟩ := h.prepared.sound.exists_address hlt
  obtain ⟨values, hvalues, hcount, -⟩ := hinputs id hid
  obtain ⟨image, himage⟩ := Image.exists_loadTensor hlaid hcount (h.writable_extent hextent)
  have hchanges := (Image.loadTensor_spec hlaid himage).2
  obtain ⟨journal, hrun⟩ : ∃ journal, runFrom (loadInput id) b =
      (.ok ⟨⟩, b.moved b.device image b.clock journal) := by
    rw [loadInput, runFrom_get_bind]
    dsimp only
    rw [haddress, hvalues]
    exact ⟨_, runFrom_bind_ok.2 ⟨⟨⟩, _, runFrom_onImage.2 ⟨image, himage, rfl⟩, runFrom_note _ _⟩⟩
  exact ⟨image, journal, hrun, h.moved hchanges _ _ _⟩

theorem exists_loadReference (h : b.Open) {p : TensorId × Nat} (hp : p ∈ b.design.memory.reference)
    (hreferences : b.stimulus.references.Suits b.design.graph b.design.graph.outputs) :
    ∃ image journal, runFrom (loadReference p.1 p.2) b =
        (.ok ⟨⟩, b.moved b.device image b.clock journal) ∧
      (b.moved b.device image b.clock journal).Open := by
  have hlaid := h.prepared.arranged.laid p.1 (h.prepared.reference_output hp).1
  have hid : p.1 ∈ b.design.graph.outputs := h.prepared.sound.reference_ids ▸ List.mem_map_of_mem hp
  obtain ⟨values, hvalues, hcount, -⟩ := hreferences p.1 hid
  obtain ⟨image, himage⟩ := Image.exists_loadTensor hlaid hcount
    (h.writable_extent (h.prepared.sound.reference_extent p hp))
  have hchanges := (Image.loadTensor_spec hlaid himage).2
  have hrun : runFrom (loadReference p.1 p.2) b =
      (.ok ⟨⟩, b.moved b.device image b.clock b.journal) := by
    rw [loadReference, runFrom_get_bind, hvalues]
    exact runFrom_onImage.2 ⟨image, himage, rfl⟩
  exact ⟨image, b.journal, hrun, h.moved hchanges _ _ _⟩

/-- Loads succeed one after the other if each does on an open bench. -/
theorem exists_loads {α : Type} {l : List α} {f : α → Action σ κ Unit} (h : b.Open)
    (hload : ∀ a ∈ l, ∀ image journal, (b.moved b.device image b.clock journal).Open →
      ∃ image' journal', runFrom (f a) (b.moved b.device image b.clock journal) =
          (.ok ⟨⟩, b.moved b.device image' b.clock journal') ∧
        (b.moved b.device image' b.clock journal').Open) :
    ∃ b', runFrom (l.forM f) b = (.ok ⟨⟩, b') := by
  obtain ⟨b', hb', -⟩ := runFrom_forM_exists (I := fun b₁ => ∃ image journal,
    b₁ = b.moved b.device image b.clock journal ∧ b₁.Open) (fun a ha b₁ hb₁ => by
      obtain ⟨image, journal, rfl, hopen⟩ := hb₁
      obtain ⟨image', journal', hrun, hopen'⟩ := hload a ha image journal hopen
      exact ⟨_, hrun, image', journal', rfl, hopen'⟩) ⟨b.image, b.journal, rfl, h⟩
  exact ⟨b', hb'⟩

/-- **Loading succeeds** with a stimulus that suits the design. -/
theorem exists_loadImage (h : b.Open) (hdrive : b.design.Drivable b.stimulus) :
    ∃ b', runFrom (loadImage : Action σ κ Unit) b = (.ok ⟨⟩, b') := by
  have hd := h.prepared
  obtain ⟨hblob, -⟩ := Graph.parameterBlob_ok hd.wellFormed hd.quantized hd.arranged
    hd.sound hd.blob
  -- each load succeeds on an open bench, and what is known of a load that
  -- succeeded keeps the bench open
  obtain ⟨b₂, hload⟩ := exists_loads (l := b.design.inputs) h fun id hid image journal hopen =>
    exists_loadInput hopen hid hdrive.inputs
  obtain ⟨image₂, journal₂, rfl, -, hchanges₂⟩ := loadInputs_ok hload rfl hd
  have hopen₂ := h.moved hchanges₂ b.device b.clock journal₂
  obtain ⟨r, hr, -⟩ := hd.sound.region_ok .parameters
  have hbase := (hd.region_whole hr).1
  have hwritable := hopen₂.writable (le_of_eq_of_le hblob (hd.sound.stop_le_size _))
  have hwrite := Image.write_eq_ok.2 ⟨hwritable, rfl⟩
  have hchanges₃ := (Image.holds_of_write hwrite).2
  have hopen₃ := hopen₂.moved hchanges₃ b.device b.clock journal₂
  obtain ⟨b₄, hrefer⟩ := exists_loads (l := b.design.memory.reference) hopen₃
    fun p hp image journal hopen => exists_loadReference hopen hp hdrive.references
  obtain ⟨image₄, journal₄, rfl, -, hchanges₄⟩ := loadReferences_ok hrefer rfl hd
  have hopen₄ := hopen₃.moved hchanges₄ b.device b.clock journal₄
  have hchunk' : 4 ≤ b.design.memory.chunkSize := hd.sound.chunkSize_eq ▸ hdrive.chunk
  have hword := (hopen₄.writable_extent (e := .handshake) rfl).mono le_rfl
    (Nat.add_le_add_left hchunk' _)
  rw [loadImage, runFrom_get_bind]
  refine runFrom_bind_exists hload ?_
  refine runFrom_bind_exists
    (runFrom_liftM_ok.2 ⟨mapError_ok_iff.2 (map_ok_iff.2 ⟨r, hr, hbase⟩), rfl⟩) ?_
  refine runFrom_bind_exists (a := ⟨⟩) (runFrom_onImage.2 ⟨_, hwrite, rfl⟩) ?_
  refine runFrom_bind_exists hrefer ?_
  exact ⟨_, runFrom_onImage.2 ⟨_, Image.storing_of_writable hword _, rfl⟩⟩

theorem exists_protectAll (hd : b.design.Prepared) :
    ∃ b', runFrom (protectAll : Action σ κ Unit) b = (.ok ⟨⟩, b') := by
  obtain ⟨b₁, hinputs, hdesign⟩ : ∃ b₁, runFrom (b.design.inputs.forM protectInput) b =
      (.ok ⟨⟩, b₁) ∧
      b₁.design = b.design := by
    refine runFrom_forM_exists (I := fun b₁ : Bench σ κ => b₁.design = b.design)
      (fun id _ b₁ hb₁ => ?_) rfl
    refine ⟨_, runFrom_modify _ _, ?_⟩
    dsimp only
    split
    · exact hb₁
    · exact hb₁
  obtain ⟨rp, hrp, -⟩ := hd.sound.region_ok .parameters
  obtain ⟨rr, hrr, -⟩ := hd.sound.region_ok .reference
  rw [← hdesign] at hrp hrr
  rw [protectAll, runFrom_get_bind]
  refine runFrom_bind_exists hinputs ?_
  refine runFrom_bind_exists (a := ⟨⟩) (runFrom_protectRegion.2 ⟨rp, hrp, rfl⟩) ?_
  exact ⟨_, runFrom_protectRegion.2 ⟨rr, hrr, rfl⟩⟩

/-- Edges of the bench follow a run of its device. -/
theorem runFrom_edges [Device σ] [Clock κ] {P : σ → Prop} {n : Nat} {s : σ} {image : Image}
    (h : Runs P n b.device b.image s image) :
    ∃ clock journal, runFrom (edges n : Action σ κ Unit) b =
      (.ok ⟨⟩, b.moved s image clock journal) := by
  induction n generalizing b with
  | zero =>
    cases h
    exact ⟨b.clock, b.journal, rfl⟩
  | succ n ih =>
    cases h with
    | edge first _ rest =>
      obtain ⟨clock, journal, hrest⟩ := ih (b := b.moved _ _ (Clock.tick b.clock).2
        (b.journal ++ (Device.step b.device b.image).events)) rest
      refine ⟨clock, journal, ?_⟩
      rw [edges]
      exact runFrom_bind_ok.2 ⟨_, _, runFrom_edge.2 ⟨rfl, _, _, first, rfl⟩, hrest⟩

end Address

end Bench

/-! ## The machine in its place -/

namespace Design.Prepared

variable {d : Design} (hd : d.Prepared)
include hd

theorem handshake_mem : d.memory.base .scratch ≤ d.memory.handshake ∧
    d.memory.handshake + d.config.chunkSize ≤ d.memory.size := by
  have hinside := hd.sound.inside_home (e := .handshake) rfl
  simp only [Graph.home, Extent.stop, hd.sound.chunkSize_eq, hd.sound.stop_scratch] at hinside
  exact hinside

/-- A design has an output, so it has an operator. -/
theorem operators_pos : 0 < d.graph.operators.size := by
  obtain ⟨id, hid⟩ := List.exists_mem_of_ne_nil _ hd.outputs_ne_nil
  obtain ⟨-, i, hi, -⟩ := hd.wellFormed.exists_writer hid
  exact Nat.zero_lt_of_lt hi

/-- The results of the operators begin at different bytes, all before the
counter. -/
theorem operators_le : d.graph.operators.size ≤ d.memory.handshake := by
  have hplace (i : OperatorId) (hi : i < d.graph.operators.size) :=
    hd.extent_tensor (hd.wellFormed.output_lt i hi)
  have hpos (i : OperatorId) (hi : i < d.graph.operators.size) :=
    (hd.arranged.laid _ (hd.wellFormed.output_lt i hi)).memorySize_pos
  -- a result has at least one byte, so that no two begin at the same one
  have hcard := Finset.card_le_card_of_injOn
    (s := Finset.range d.graph.operators.size) (t := Finset.range d.memory.handshake)
    (fun i => (d.graph.tensor (d.graph.operator i).output).address.getD 0) ?_ ?_
  · simpa using hcard
  · intro i hi
    rw [Finset.mem_coe, Finset.mem_range] at hi
    rw [Finset.mem_coe, Finset.mem_range]
    have hbelow := hd.sound.below_handshake _ _ (hplace i hi) (by simp)
    have := hpos i hi
    simp only [Extent.stop] at hbelow ⊢
    omega
  · intro i hi j hj heq
    rw [Finset.mem_coe, Finset.mem_range] at hi hj
    by_contra hne
    have hdistinct : (d.graph.operator i).output ≠ (d.graph.operator j).output :=
      fun hout => hne (hd.wellFormed.output_injective i hi j hj hout)
    have hapart := hd.sound.apart _ _ _ _ (hplace i hi) (hplace j hj) (by simpa using hdistinct)
    have := hpos i hi
    have := hpos j hj
    simp only [Extent.Apart, Extent.stop] at hapart heq
    omega

/-- What the device writes keeps apart from what it only reads. -/
theorem guards_apart {e : Entity} {x : Extent} (he : d.memory.extent? d.graph e = some x)
    (hhome : d.graph.home e = .activations ∨ d.graph.home e = .scratch)
    (hne : ∀ id ∈ d.graph.placeholders, e ≠ .tensor id) {y : Extent} (hy : y ∈ d.guards) :
    y.Apart x := by
  have hinside := hd.sound.inside_home he
  have hparameters := hd.sound.base_parameters
  have hreference := hd.sound.base_reference
  have hscratch := hd.sound.base_scratch
  have hle (k : RegionKind) := MemoryMap.Sound.base_le_stop d.memory k
  have hmiddle := hle .parameters
  have hmiddle' := hle .reference
  simp only [guards, List.mem_append, List.mem_filterMap, List.mem_cons, List.not_mem_nil,
    or_false] at hy
  rcases hy with ⟨id, hid, hextent⟩ | rfl | rfl
  · exact hd.sound.apart _ _ _ _ hextent he (hne id hid).symm
  -- the two guarded regions lie between activations and scratch
  all_goals
    simp only [Extent.Apart, Extent.stop, MemoryMap.whole] at hinside ⊢
    rcases hhome with hhome | hhome <;> rw [hhome] at hinside <;> omega

end Design.Prepared

namespace Machine

open Device (Steps Runs)

variable {m : Machine} {image : Image}

/-- A machine without work stays as it is. -/
theorem runs_idle (hstart : m.registers.start = false) (hphase : m.phase = .idle)
    (image : Image) (n : Nat) :
    Runs (fun _ => True) n m image m image := by
  induction n with
  | zero => exact .refl _ _
  | succ n ih => exact .edge (steps_idle hstart hphase image) (fun _ => trivial) ih

/-- An edge changes no name. -/
theorem name_step (m : Machine) (image : Image) : (Device.step m image).device.name = m.name := by
  by_cases hstart : m.registers.start
  · rw [(steps_launch hstart image).device_eq, arrived]
    split <;> rfl
  · rw [Bool.not_eq_true] at hstart
    by_cases hphase : m.phase = .idle
    · rw [(steps_idle hstart hphase image).device_eq]
    · obtain ⟨_, _, -, h⟩ | ⟨_, -, h⟩ | ⟨_, -, h⟩ := moves_step hstart hphase image
      all_goals rw [h]

/-- The machine after a reset, with its registers pointing where the memory plan
says. -/
def addressed (m : Machine) : Machine :=
  { m.reset with
    registers :=
      { globalAddress := UInt32.ofNat (m.design.memory.base .scratch)
        handshakeAddress := UInt32.ofNat m.design.memory.handshake } }

theorem planned_addressed (hd : m.design.Prepared) {stimulus : Stimulus}
    (hdrive : m.design.Drivable stimulus) :
    m.addressed.Planned := by
  obtain ⟨hle, hlt⟩ := hd.handshake_mem
  have hchunk := hdrive.chunk
  have hlt' : m.design.memory.handshake < UInt32.size := lt_of_lt_of_le (by omega) hdrive.size
  exact ⟨UInt32.toNat_ofNat_of_lt' (lt_of_le_of_lt hle hlt'), UInt32.toNat_ofNat_of_lt' hlt'⟩

theorem Planned.location_eq (h : m.Planned) (hd : m.design.Prepared) {id : TensorId}
    (hid : id < m.design.graph.tensors.size) :
    m.location id = (m.design.graph.tensor id).address.getD 0 := by
  have hextent := (h.extent_eq hd hid).symm.trans (hd.extent_tensor hid)
  exact congrArg Extent.base (Option.some.inj hextent)

/-- **A loaded image under guard hosts the machine** at its planned place. -/
theorem Planned.hosted_of_loaded (h : m.Planned) (hd : m.design.Prepared)
    (hchunk : 4 ≤ m.design.config.chunkSize) {stimulus : Stimulus}
    (hloaded : m.design.Loaded stimulus image) (hsize : image.size = m.design.memory.size)
    (hguarded : image.GuardedBy m.design.guards) :
    m.Hosted image := by
  have hin {e : Entity} {x : Extent} (he : m.design.memory.extent? m.design.graph e = some x) :
      x.base + x.size ≤ image.size :=
    hsize.symm ▸ le_trans (hd.sound.inside_home he).2 (hd.sound.stop_le_size _)
  refine h.hosted hd hchunk (hsize.symm ▸ hd.sound.stop_le_size _) hloaded.parameters
    (fun id hid hresult => ?_) ?_
  · have hextent := h.extent_eq hd hid
    refine hguarded.writable (hin hextent) fun y hy => hd.guards_apart hextent ?_ ?_ hy
    · -- an output is an activation, an intermediate is in scratch
      cases hk : (m.design.graph.tensor id).kind <;>
        simp_all [TensorKind.isResult, TensorKind.isIntermediate, TensorKind.isOutput, Graph.home,
          TensorKind.region]
    · rintro id' hid' heq
      obtain rfl : id = id' := by simpa using heq
      have hkind := (hd.wellFormed.mem_idsWhere.1 hid').2
      cases hk : (m.design.graph.tensor id).kind <;>
        simp_all [TensorKind.isResult, TensorKind.isIntermediate, TensorKind.isOutput,
          TensorKind.isPlaceholder]
  · have hextent : m.design.memory.extent? m.design.graph .handshake =
        some ⟨m.design.memory.handshake, m.design.config.chunkSize⟩ := by
      rw [← hd.sound.chunkSize_eq]
      rfl
    exact hguarded.writable (hin hextent) fun y hy =>
      hd.guards_apart hextent (.inr rfl) (fun _ _ => by simp) hy

/-- **The addressed machine runs to its end** on the loaded image, and leaves
the values of the evaluator there. -/
theorem runs_addressed {d : Design} {order : List OperatorId} (hm : m.Emitted d order)
    (hd : d.Prepared) {stimulus : Stimulus} (hdrive : d.Drivable stimulus)
    (hloaded : d.Loaded stimulus image) (hsize : image.size = d.memory.size)
    (hguarded : image.GuardedBy d.guards) :
    ∃ v m' image', d.graph.evaluate stimulus.inputs = .ok v ∧
      Runs Busy (1 + (m.plans.map (·.cycles)).sum) m.addressed.started image m' image' ∧
      m'.registers.status = Status.done ∧
      (∀ id ∈ d.graph.outputs, ∃ values, v id = some values ∧
        image'.Has (d.graph.tensor id) values) ∧
      (image'.bytes.wordAt d.memory.handshake).toNat = d.graph.operators.size := by
  obtain rfl := hm.design
  obtain ⟨hscratch, hcounter⟩ := planned_addressed hd hdrive
  have hplanned : m.addressed.started.Planned := ⟨hscratch, hcounter⟩
  have hhosted := hplanned.hosted_of_loaded hd hdrive.chunk hloaded hsize hguarded
  obtain ⟨v, image', hv, hrun, hprogress⟩ :=
    hhosted.runs hd ⟨rfl, hm.ports, hm.order_ok, hm.plans⟩ rfl
  have hordered := hm.ordered hd
  have hplaceholders (id : TensorId) (hid : id ∈ m.design.graph.placeholders) :
      m.addressed.started.valuesIn image id = stimulus.inputs id := by
    obtain ⟨values, hvalues, address, haddress, hread⟩ :=
      hloaded.has_suited hd hsize hdrive.inputs hid
    have hlocation : m.addressed.started.location id = address := by
      rw [hplanned.location_eq hd (hd.wellFormed.mem_idsWhere.1 hid).1]
      exact congrArg (·.getD 0) haddress
    rw [hvalues, valuesIn, hlocation]
    exact toOption_eq_some_iff.2 hread
  refine ⟨v, _, image', (Graph.evaluate_congr hplaceholders).symm.trans hv, hrun, rfl,
    fun id hid => ?_, ?_⟩
  · obtain ⟨hlt, i, hi, hout⟩ := hd.wellFormed.exists_writer hid
    obtain ⟨values, hvalues, hread⟩ :=
      hprogress.values id hlt (.inr ⟨i, hordered.mem_iff.2 hi, hout⟩)
    rw [hplanned.location_eq hd hlt] at hread
    exact ⟨values, hvalues, hd.has_of_read hlt hread⟩
  · -- the counter does not wrap: there are fewer operators than addresses
    have hlength : order.length = m.design.graph.operators.size := by
      rw [hordered.perm.length_eq, List.length_range]
    have hlt : order.length < 2 ^ 32 := by
      have := hd.operators_le
      have := hd.handshake_mem
      have := hdrive.chunk
      have := hdrive.size
      omega
    have hword := hprogress.counter (List.ne_nil_of_length_pos (hlength ▸ hd.operators_pos))
    have hbase : m.addressed.started.counter.base = m.design.memory.handshake := hplanned.counter
    rw [← hbase, hword, UInt32.toNat_ofNat_of_lt' hlt, hlength]

end Machine

/-- The elements differ nowhere exactly if the values are equal. -/
theorem Tensor.differences_eq_nil_iff {t : Tensor} {actual expected : Array Int}
    (hactual : actual.size = t.volume) (hexpected : expected.size = t.volume) :
    t.differences actual expected = [] ↔ actual = expected := by
  rw [differences, List.filterMap_eq_nil_iff]
  constructor
  · intro h
    refine Array.ext (hactual.trans hexpected.symm) fun i hi hi' => ?_
    have hsame : actual.getD i 0 = expected.getD i 0 := by
      by_contra hne
      have hnone := h i (List.mem_range.2 (hactual ▸ hi))
      rw [if_neg hne] at hnone
      cases hnone
    simpa [Array.getD_eq_getD_getElem?, hi, hi'] using hsame
  · rintro rfl i -
    exact if_pos rfl

namespace Bench

open Device (Steps Runs)

variable {κ : Type} {b : Bench Machine κ}

theorem exists_program (hd : b.design.Prepared) (hdrive : b.design.Drivable b.stimulus) :
    ∃ b', runFrom (program : Action Machine κ Unit) b = (.ok ⟨⟩, b') := by
  obtain ⟨hle, hlt⟩ := hd.handshake_mem
  obtain ⟨r, hr, -⟩ := hd.sound.region_ok .scratch
  have hbase := (hd.region_whole hr).1
  have hregister {what : String} {value : Nat} (hvalue : value ≤ b.design.memory.handshake) :
      registerValue what value = .ok (UInt32.ofNat value) := by
    have hchunk := hdrive.chunk
    have hsize := hdrive.size
    exact registerValue_ok.2 ⟨by omega, rfl⟩
  rw [program, runFrom_get_bind]
  refine runFrom_bind_exists
    (runFrom_liftM_ok.2 ⟨mapError_ok_iff.2 (map_ok_iff.2 ⟨r, hr, hbase⟩), rfl⟩) ?_
  refine runFrom_bind_exists (runFrom_liftM_ok.2 ⟨hregister hle, rfl⟩) ?_
  refine runFrom_bind_exists (a := ⟨⟩)
    (runFrom_writeControl.2 ⟨_, Machine.writeControl_eq _ _ _, rfl⟩) ?_
  refine runFrom_bind_exists (runFrom_liftM_ok.2 ⟨hregister le_rfl, rfl⟩) ?_
  exact ⟨_, runFrom_writeControl.2 ⟨_, Machine.writeControl_eq _ _ _, rfl⟩⟩

/-- **Addressing a machine succeeds** with a stimulus that suits the design. -/
theorem runFrom_address [Clock κ] (h : b.Open) (hstate : b.state = .idle)
    (hdesign : b.device.design = b.design) (hdrive : b.design.Drivable b.stimulus) :
    ∃ image clock journal, runFrom (address : Action Machine κ Unit) b =
        (.ok ⟨⟩, (b.moved b.device.addressed image clock journal).inState .addressed) ∧
      b.design.Loaded b.stimulus image ∧ image.size = b.design.memory.size ∧
      image.GuardedBy b.design.guards := by
  have hd := h.prepared
  have hwarm := Machine.runs_idle (m := b.device.reset) rfl rfl b.image b.config.warmupCycles
  -- that it succeeds; what it leaves is then known for every device
  obtain ⟨b', haddress⟩ : ∃ b', runFrom (address : Action Machine κ Unit) b = (.ok ⟨⟩, b') := by
    obtain ⟨clock₁, journal₁, hedges⟩ :=
      runFrom_edges (b := b.moved b.device.reset b.image b.clock b.journal) hwarm
    have hopen₁ := h.moved (.refl ∅ b.image) b.device.reset clock₁ journal₁
    obtain ⟨b₂, hload⟩ := exists_loadImage hopen₁ hdrive
    obtain ⟨image₂, journal₂, rfl, -⟩ := loadImage_ok hload hd
    obtain ⟨b₃, hprogram⟩ := exists_program (b := b.moved b.device.reset image₂ clock₁ journal₂) hd
      hdrive
    obtain ⟨-, -, s₁, s₂, journal₃, -, -, rfl⟩ := program_ok hprogram hd
    obtain ⟨b₄, hprotect⟩ := exists_protectAll (b := b.moved s₂ image₂ clock₁ journal₃) hd
    rw [address, runFrom_require_bind, if_pos hstate]
    refine runFrom_bind_exists (runFrom_modify _ _) ?_
    rw [runFrom_get_bind]
    refine runFrom_bind_exists hedges ?_
    refine runFrom_bind_exists hload ?_
    refine runFrom_bind_exists hprogram ?_
    refine runFrom_bind_exists hprotect ?_
    rw [runFrom_get_bind]
    exact runFrom_bind_exists (runFrom_note _ _) ⟨_, runFrom_modify _ _⟩
  obtain ⟨s₀, image₀, s₁, s₂, image, clock, journal, hwarm', -, -, hs₁, hs₂, rfl, hloaded, hsame,
      hguarded⟩ :=
    address_ok haddress hd Machine.checked h.unprotected
  -- the warm-up leaves a machine without work as it was
  obtain ⟨rfl, -⟩ := hwarm.unique hwarm'
  rw [Machine.writeControl_eq, Except.ok.injEq] at hs₁
  subst hs₁
  rw [Machine.writeControl_eq, Except.ok.injEq] at hs₂
  subst hs₂
  refine ⟨image, clock, journal, ?_, hloaded, hsame.trans h.size, hguarded⟩
  rw [haddress, Machine.addressed, hdesign]
  rfl

/-! ## Polling -/

section Poll

variable {b : Bench Machine CycleClock} {m s : Machine} {image : Image} {fuel n elapsed : Nat}

/-- The bench after an edge. -/
def ticked (b : Bench Machine CycleClock) (s : Machine) (image : Image) :
    Bench Machine CycleClock :=
  b.moved s image ⟨b.clock.cycles + 1⟩ (b.journal ++ (Device.step b.device b.image).events)

/-- A round of polling a machine, with a cycle for each edge. -/
theorem runFrom_poll_succ (hstep : Steps b.device b.image s image)
    (hclock : b.clock.cycles = b.startedAt + elapsed) :
    runFrom (poll (fuel + 1)) b =
      if s.registers.status &&& Status.done ≠ 0 then (.ok (elapsed + 1), b.ticked s image)
      else if b.config.maxCycles ≤ elapsed + 1 then
        (.error (.timeout s.name (elapsed + 1)),
          (b.ticked s image).noted [.deviceStuck s.name (elapsed + 1)])
      else runFrom (poll fuel) (b.ticked s image) := by
  obtain ⟨rfl, rfl, hfault⟩ := hstep
  have hnow : (Clock.tick b.clock).1 - b.startedAt = elapsed + 1 := by
    change b.clock.cycles + 1 - b.startedAt = elapsed + 1
    omega
  rw [runFrom_poll_succ_of_read hfault rfl, hnow]
  rfl

/-- The time that has passed after an edge. -/
theorem clock_ticked (hclock : b.clock.cycles = b.startedAt + elapsed) :
    (b.ticked s image).clock.cycles = (b.ticked s image).startedAt + (elapsed + 1) := by
  simp only [ticked, moved]
  omega

/-- **Polling ends when the machine does**, in time. -/
theorem runFrom_poll_done (h : Runs Machine.Busy n b.device b.image m image) (hn : n ≠ 0)
    (hdone : m.registers.status = Status.done) (hfuel : n ≤ fuel)
    (hclock : b.clock.cycles = b.startedAt + elapsed) (hmax : elapsed + n ≤ b.config.maxCycles) :
    ∃ clock journal, runFrom (poll fuel) b =
      (.ok (elapsed + n), b.moved m image clock journal) := by
  induction n generalizing b fuel elapsed with
  | zero => exact absurd rfl hn
  | succ n ih =>
    obtain ⟨fuel, rfl⟩ := Nat.exists_eq_add_of_le' (Nat.lt_of_lt_of_le n.succ_pos hfuel)
    cases h with
    | edge first between rest =>
      rw [runFrom_poll_succ first hclock]
      by_cases hlast : n = 0
      · subst hlast
        cases rest
        rw [if_pos (by rw [hdone]; decide)]
        exact ⟨_, _, rfl⟩
      · -- a busy machine is not done, and the limit lies after the end
        have hbusy := between hlast
        rw [if_neg (by rw [hbusy]; decide), if_neg (by omega)]
        have hmax' : elapsed + 1 + n ≤ b.config.maxCycles := by omega
        obtain ⟨clock, journal, hrest⟩ :=
          ih (b := b.ticked _ _) rest hlast (Nat.le_of_succ_le_succ hfuel)
            (clock_ticked hclock) hmax'
        rw [hrest, Nat.add_right_comm, Nat.add_assoc]
        exact ⟨clock, journal, rfl⟩

/-- **Polling ends when the time is over** and the machine is still busy. -/
theorem runFrom_poll_timeout (h : Runs Machine.Busy n b.device b.image m image)
    (hfuel : b.config.maxCycles ≤ elapsed + fuel) (hclock : b.clock.cycles = b.startedAt + elapsed)
    (hbefore : elapsed < b.config.maxCycles) (hlate : b.config.maxCycles < elapsed + n) :
    ∃ b', runFrom (poll fuel) b = (.error (.timeout b.device.name b.config.maxCycles), b') ∧
      b'.state = b.state := by
  -- the bench gives up at an edge inside the run, where the machine is still
  -- busy
  induction n generalizing b fuel elapsed with
  | zero => omega
  | succ n ih =>
    obtain ⟨fuel, rfl⟩ := Nat.exists_eq_add_of_le' (show 1 ≤ fuel by omega)
    cases h with
    | @edge _ _ s _ _ image' _ first between rest =>
      have hbusy := between (by omega)
      have hname : s.name = b.device.name := first.device_eq ▸ Machine.name_step b.device b.image
      rw [runFrom_poll_succ first hclock, if_neg (by rw [hbusy]; decide)]
      split
      · have hnow : elapsed + 1 = b.config.maxCycles := by omega
        rw [hnow, hname]
        exact ⟨_, rfl, rfl⟩
      · have hfuel' : b.config.maxCycles ≤ elapsed + 1 + fuel := by omega
        have hlate' : b.config.maxCycles < elapsed + 1 + n := by omega
        obtain ⟨b', hrest, hstate⟩ := ih (b := b.ticked s image') rest hfuel' (clock_ticked hclock)
          (by simp only [ticked, moved]; omega) hlate'
        exact ⟨b', by rw [hrest, ← hname]; rfl, hstate⟩

/-- Waiting for a machine that ends in time. -/
theorem runFrom_wait_done (hstate : b.state = .running)
    (h : Runs Machine.Busy n b.device b.image m image) (hn : n ≠ 0)
    (hdone : m.registers.status = Status.done) (hclock : b.clock.cycles = b.startedAt)
    (hmax : n ≤ b.config.maxCycles) (hcounter : b.design.memory.handshake + 4 ≤ image.size) :
    ∃ clock journal, runFrom (wait : Action Machine CycleClock Nat) b =
      (.ok n, (b.moved m image clock journal).waited n
        (image.bytes.wordAt b.design.memory.handshake)) := by
  have hnow : (b.inState .waiting).clock.cycles = (b.inState .waiting).startedAt + 0 := hclock
  have hfuel : n ≤ max b.config.maxCycles (Nat.pow 2 62) := le_trans hmax (le_max_left _ _)
  obtain ⟨clock, journal, hpoll⟩ :=
    runFrom_poll_done (b := b.inState .waiting) h hn hdone hfuel hnow
    (by rwa [Nat.zero_add])
  have hword := Image.readWord_eq hcounter
  have hwait := runFrom_wait hstate
  rw [hpoll] at hwait
  dsimp only [moved, inState] at hwait
  rw [hword, Nat.zero_add] at hwait
  obtain ⟨events, hwait⟩ := hwait
  exact ⟨clock, journal ++ events, hwait⟩

/-- Waiting for a machine that takes too long. -/
theorem runFrom_wait_timeout (hstate : b.state = .running)
    (h : Runs Machine.Busy n b.device b.image m image) (hclock : b.clock.cycles = b.startedAt)
    (hpos : 0 < b.config.maxCycles) (hlate : b.config.maxCycles < n) :
    ∃ b', runFrom (wait : Action Machine CycleClock Nat) b =
        (.error (.timeout b.device.name b.config.maxCycles), b') ∧ b'.state = .waiting := by
  have hnow : (b.inState .waiting).clock.cycles = (b.inState .waiting).startedAt + 0 := hclock
  have hfuel : b.config.maxCycles ≤ 0 + max b.config.maxCycles (Nat.pow 2 62) := by
    rw [Nat.zero_add]
    exact le_max_left _ _
  obtain ⟨b', hpoll, hstate'⟩ := runFrom_poll_timeout (b := b.inState .waiting) h hfuel hnow hpos
    (by rwa [Nat.zero_add])
  have hwait := runFrom_wait hstate
  rw [hpoll] at hwait
  exact ⟨b', hwait, hstate'⟩

end Poll

/-! ## Whole runs -/

theorem runFrom_start {b : Bench Machine κ} [Clock κ] (hstate : b.state = .addressed)
    (hidle : b.device.registers.status &&& Status.busy = 0) :
    ∃ journal, runFrom (start : Action Machine κ Unit) b =
      (.ok ⟨⟩, b.running b.device.started journal) := by
  have hwrite := Machine.writeControl_start hidle (show startStrobe &&& startStrobe ≠ 0 by decide)
  rw [start, runFrom_require_bind, if_pos hstate]
  exact ⟨_, runFrom_bind_ok.2 ⟨⟨⟩, _, runFrom_writeControl.2 ⟨_, hwrite, rfl⟩, runFrom_modify _ _⟩⟩

/-- The bench with its machine started on a loaded image. -/
def launched [Clock κ] (b : Bench Machine κ) (image : Image) (clock : κ) (journal : Array Event) :
    Bench Machine κ :=
  (b.moved b.device.addressed image clock journal).running b.device.addressed.started journal

/-- **Addressing and starting bring a machine to its run.** -/
theorem runFrom_launch {b : Bench Machine κ} [Clock κ] (h : b.Open) (hstate : b.state = .idle)
    (hdesign : b.device.design = b.design) (hdrive : b.design.Drivable b.stimulus) :
    ∃ image clock journal, (∀ {α : Type} (x : Action Machine κ α),
        runFrom (address >>= fun _ => start >>= fun _ => x) b =
          runFrom x (b.launched image clock journal)) ∧
      b.design.Loaded b.stimulus image ∧ image.size = b.design.memory.size ∧
      image.GuardedBy b.design.guards := by
  obtain ⟨image, clock, journal, haddress, hloaded⟩ := runFrom_address h hstate hdesign hdrive
  obtain ⟨journal', hstart⟩ := runFrom_start
    (b := (b.moved b.device.addressed image clock journal).inState .addressed) rfl
    (show (0 : UInt32) &&& Status.busy = 0 by decide)
  refine ⟨image, clock, journal', fun x => ?_, hloaded⟩
  rw [runFrom_bind, haddress]
  dsimp only
  rw [runFrom_bind, hstart]
  rfl

/-- A device with the ports of every accelerator comes onto a bench. -/
theorem create_eq {σ : Type} [Device σ] {design : Design} {device : σ} {config : SimulationConfig}
    (hports : Device.ports device = Port.standard design.config.busWidth)
    (hconfig : config.validate = .ok ()) (clock : κ) (stimulus : Stimulus) :
    create design device clock stimulus config =
      .ok { design, device, clock, config, stimulus
            image := .filled design.memory.size config.fillByte } := by
  -- each port that the bench asks for is the first one of its name
  have hport (p : Port)
      (hp : (Port.standard design.config.busWidth).find? (fun q => q.name == p.name) = some p) :
      Device.port? device p.name = some p := by
    rw [Device.port?, hports, hp]
  have hcontrol := hport ⟨Port.controlName, .control, 32⟩ rfl
  have hdata := hport ⟨Port.dataName, .data, design.config.busWidth⟩ rfl
  have hclock := hport ⟨Port.clockName, .clock, 1⟩ rfl
  have hreset := hport ⟨Port.resetName, .reset, 1⟩ rfl
  simp [create, hconfig, hcontrol, hdata, hclock, hreset]
  rfl

/-- **A run on a bench with a machine**: it succeeds if the bench waits for the
plans, and compares the references with the values of the evaluator; otherwise
its time is over. -/
theorem runFrom_run {b : Bench Machine CycleClock} {order : List OperatorId} (h : b.Open)
    (hstate : b.state = .idle) (hm : b.device.Emitted b.design order)
    (hdrive : b.design.Drivable b.stimulus) (hmax : 0 < b.config.maxCycles) :
    ∃ v, b.design.graph.evaluate b.stimulus.inputs = .ok v ∧
      (1 + (b.device.plans.map (·.cycles)).sum ≤ b.config.maxCycles → ∃ report b',
        runFrom run b = (.ok report, b') ∧ report.cycles = 1 + (b.device.plans.map (·.cycles)).sum ∧
        report.handshake.toNat = b.design.graph.operators.size ∧
        report.Compares b.design (fun id => (v id).getD #[])
          (fun id => (b.stimulus.references id).getD #[])) ∧
      (b.config.maxCycles < 1 + (b.device.plans.map (·.cycles)).sum → ∃ b',
        runFrom run b = (.error (.timeout b.device.name b.config.maxCycles), b') ∧
          b'.state = .waiting) ∧
      ∀ id ∈ b.design.graph.outputs, ∃ values, v id = some values ∧
        values.size = (b.design.graph.tensor id).volume := by
  have hd := h.prepared
  obtain ⟨image, clock, journal, hlaunch, hloaded, himage, hguarded⟩ :=
    runFrom_launch h hstate hm.design hdrive
  obtain ⟨v, m', image', hv, hruns, hdone, houtputs, hcounter⟩ :=
    Machine.runs_addressed hm hd hdrive hloaded himage hguarded
  have hrun : runFrom run b = runFrom (wait >>= fun _ => verify) (b.launched image clock journal) :=
    hlaunch _
  refine ⟨v, hv, fun hle => ?_, fun hlt => ?_, fun id hid => ?_⟩
  · have hsame := (hruns.accessed Machine.checked).changesOnly.size.trans himage
    have hin : b.design.memory.handshake + 4 ≤ image'.size := by
      have := hd.handshake_mem
      have := hdrive.chunk
      omega
    obtain ⟨clock₃, journal₃, hwait⟩ :=
      runFrom_wait_done (b := b.launched image clock journal) rfl hruns
      (by omega) hdone rfl hle hin
    -- the references are still there, and those in range are compared as they
    -- are
    have hloaded' := (loaded_of_runs hd Machine.checked hloaded hguarded hruns).of_bytes_eq
      (show image'.unprotectAll.bytes = image'.bytes from rfl)
    have hactual (id : TensorId) (hid : id ∈ b.design.graph.outputs) :
        image'.Has (b.design.graph.tensor id) ((v id).getD #[]) := by
      obtain ⟨values, hvalues, hhas⟩ := houtputs id hid
      rwa [hvalues]
    have hexpected (id : TensorId) (hid : id ∈ b.design.graph.outputs) (values : Array Int)
        (hvalues : b.stimulus.references id = some values) :
        (b.stimulus.references id).getD #[] =
          values.map (b.design.graph.tensor id).element.reduce := by
      obtain ⟨values', hvalues', -, hcontains⟩ := hdrive.references id hid
      obtain rfl := Option.some.inj (hvalues.symm.trans hvalues')
      rw [ElementType.map_reduce_of_contains hcontains, hvalues, Option.getD_some]
    obtain ⟨found, events, hverify, hcompares⟩ :=
      verify_eq (b := ((b.launched image clock journal).moved m'
      image' clock₃ journal₃).waited _ (image'.bytes.wordAt b.design.memory.handshake)) rfl hd
        hsame hloaded'
      hactual hexpected
    exact ⟨_, _, hrun.trans (runFrom_bind_ok.2 ⟨_, _, hwait, hverify⟩), rfl, hcounter, hcompares⟩
  · obtain ⟨b', hwait, hwaiting⟩ :=
      runFrom_wait_timeout (b := b.launched image clock journal) rfl hruns rfl
      hmax hlt
    exact ⟨b', hrun.trans (runFrom_bind_error.2 (.inl hwait)), hwaiting⟩
  · obtain ⟨values, hvalues, address, -, hread⟩ := houtputs id hid
    exact ⟨values, hvalues, Image.size_of_readTensor hread⟩

/-- **The report on a compiled machine is that of the evaluator.** The machine
of a compilation is on a bench with inputs and references in range, and `T` is
one cycle for its start and those of all its plans. If the bench waits that
long, its run succeeds: `T` cycles, all operators counted, and the mismatches
are where the references differ from the values of the evaluator, so it passes
exactly if they are those. If not, the time is over when the limit is
reached. -/
theorem report_eq_evaluation {g : Graph} {ctx : Context} {ranges : ValueRanges}
    {requests : AttributeRequests} {backend : MachineBackend} {c : Compilation Machine}
    (hg : g.Finished) (hc : (g.compile ctx ranges requests backend).result.outcome = .ok c)
    (hchunk : 4 ≤ c.design.config.chunkSize) (hsize : c.design.memory.size ≤ 2 ^ 32)
    {stimulus : Stimulus}
    (hinputs : stimulus.inputs.Suits c.design.graph c.design.graph.placeholders)
    (hreferences : stimulus.references.Suits c.design.graph c.design.graph.outputs)
    {config : SimulationConfig} (hconfig : config.validate = .ok ()) (clock : CycleClock) {T : Nat}
    (hT : T = 1 + (c.product.plans.map (·.cycles)).sum) :
    ∃ b v, create c.design c.product clock stimulus config = .ok b ∧
      c.design.graph.evaluate stimulus.inputs = .ok v ∧
      (T ≤ config.maxCycles → ∃ report b', runFrom run b = (.ok report, b') ∧ report.cycles = T ∧
        report.handshake.toNat = c.design.graph.operators.size ∧
        report.checked =
          (c.design.graph.outputs.map fun id => (c.design.graph.tensor id).volume).sum ∧
        report.mismatches = c.design.graph.outputs.flatMap (fun id =>
          (c.design.graph.tensor id).differences ((v id).getD #[])
            ((stimulus.references id).getD #[])) ∧
        (report.verdict = .passed ↔ ∀ id ∈ c.design.graph.outputs, v id = stimulus.references id)) ∧
      (config.maxCycles < T → ∃ b',
        runFrom run b = (.error (.timeout c.product.name config.maxCycles), b') ∧
          b'.state = .waiting) := by
  obtain ⟨hd, order, he⟩ := Graph.compile_emitted hg hc
  have hports : Device.ports c.product = Port.standard c.design.config.busWidth := he.ports
  have hcreate := create_eq hports hconfig clock stimulus
  have hmax : 0 < config.maxCycles := by
    rw [SimulationConfig.validate] at hconfig
    split at hconfig
    · cases hconfig
    · omega
  obtain ⟨v, hv, hdone, htimeout, houtputs⟩ := runFrom_run
    (b := ⟨c.design, c.product, clock, config, stimulus,
      .filled c.design.memory.size config.fillByte, .idle,
      0, 0, 0, #[]⟩) ⟨hd, Array.size_replicate, rfl⟩ rfl he
        ⟨hchunk, hsize, hinputs, hreferences⟩ hmax
  dsimp only at hv hdone htimeout houtputs
  rw [← hT] at hdone htimeout
  refine ⟨_, v, hcreate, hv, fun hle => ?_, htimeout⟩
  obtain ⟨report, b', hrun, hcycles, hhandshake, hcompares⟩ := hdone hle
  refine ⟨report, b', hrun, hcycles, hhandshake, hcompares.checked, hcompares.mismatches, ?_⟩
  -- the verdict, output by output
  rw [hcompares.verdict, hcompares.mismatches, List.flatMap_eq_nil_iff]
  refine forall₂_congr fun id hid => ?_
  obtain ⟨values, hvalues, hcount⟩ := houtputs id hid
  obtain ⟨values', hvalues', hcount', -⟩ := hreferences id hid
  rw [hvalues, hvalues', Option.getD_some, Option.getD_some, Option.some.injEq]
  exact Tensor.differences_eq_nil_iff hcount hcount'

/-- Inputs of the dense layer, and references that are wrong at one element. -/
def denseStimulus : Stimulus where
  inputs _ := some #[1, 2, 3, -1, 0, 5]
  references _ := some #[0, 0, 1, 0]

theorem report_eq_evaluation_dense : ∃ (c : Compilation Machine) (b b' : Bench Machine CycleClock)
    (report : Report), create c.design c.product {} denseStimulus {} = .ok b ∧
      runFrom run b = (.ok report, b') ∧ report.cycles = 34 ∧ report.handshake.toNat = 2 ∧
      report.checked = 4 ∧ report.mismatches = [⟨"z", 2, 1, 2⟩] ∧ report.verdict ≠ .passed := by
  have hok : (Graph.denseCompilation.toOption.any fun c =>
      decide (c.design.Drivable denseStimulus ∧
        34 = 1 + (c.product.plans.map (·.cycles)).sum ∧ c.design.graph.operators.size = 2 ∧
        (c.design.graph.outputs.map fun id => (c.design.graph.tensor id).volume).sum = 4) &&
      (c.design.graph.evaluate denseStimulus.inputs).toOption.any fun v =>
        decide (c.design.graph.outputs.flatMap (fun id => (c.design.graph.tensor id).differences
            ((v id).getD #[]) ((denseStimulus.references id).getD #[])) = [⟨"z", 2, 1, 2⟩] ∧
          ¬∀ id ∈ c.design.graph.outputs, v id = denseStimulus.references id)) = true := by
            decide +kernel
  obtain ⟨c, hc, hok⟩ := (Option.any_eq_true _ _).1 hok
  rw [Bool.and_eq_true, decide_eq_true_eq] at hok
  obtain ⟨⟨hdrive, hcycles, hoperators, hvolume⟩, hevaluate⟩ := hok
  obtain ⟨v, hv, hvalues⟩ := (Option.any_eq_true _ _).1 hevaluate
  obtain ⟨hmismatches, hdiffers⟩ := of_decide_eq_true hvalues
  obtain ⟨g, hg, hcompile⟩ := Graph.denseCompilation_ok (toOption_eq_some_iff.1 hc)
  have hvalid : ({} : SimulationConfig).validate = .ok () := rfl
  obtain ⟨b, v', hb, hv', hdone, -⟩ :=
    report_eq_evaluation hg hcompile hdrive.chunk hdrive.size hdrive.inputs hdrive.references
      hvalid {} hcycles
  obtain rfl : v = v' := Except.ok.inj ((toOption_eq_some_iff.1 hv).symm.trans hv')
  obtain ⟨report, b', hrun, hT, hcounted, hchecked, hlisted, hverdict⟩ := hdone (by decide)
  exact ⟨c, b, b', report, hb, hrun, hT, hcounted.trans hoperators, hchecked.trans hvolume,
    hlisted.trans hmismatches, fun hpassed => hdiffers (hverdict.1 hpassed)⟩

end Bench

end QuantAccel
