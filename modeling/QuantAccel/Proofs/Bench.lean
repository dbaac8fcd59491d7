import QuantAccel.Bench.Basic
import QuantAccel.Proofs.Guard

/-!
# Actions of the bench

What it takes for each action of a bench to succeed, and what the bench is then.
An action changes a few fields of the bench and its journal; all edges are runs
of the device, whatever the device is. Addressing loads region after region, so
that no load disturbs another, and then guards all that it loaded.
-/

namespace QuantAccel

namespace Bench

open Device (Steps Runs)

/-! ## Parts of actions -/

section Parts

variable {σ κ : Type} {b b' : Bench σ κ}

/-- The bench with its moving parts replaced. -/
def moved (b : Bench σ κ) (device : σ) (image : Image) (clock : κ) (journal : Array Event) :
    Bench σ κ :=
  { b with device, image, clock, journal }

/-- The bench in another state. -/
def inState (b : Bench σ κ) (state : BenchState) : Bench σ κ :=
  { b with state }

/-- The bench with more in its journal. -/
def noted (b : Bench σ κ) (events : List Event) : Bench σ κ :=
  b.moved b.device b.image b.clock (b.journal ++ events)

theorem noted_nil (b : Bench σ κ) : b.noted [] = b := by
  simp [noted, moved]

/-- Events noted one after the other are noted at once. -/
theorem noted_noted (b : Bench σ κ) (events events' : List Event) :
    (b.noted events).noted events' = b.noted (events ++ events') := by
  have hjournal : b.journal ++ events ++ events' = b.journal ++ (events ++ events') := by
    apply Array.ext'
    simp
  simp only [noted, moved, hjournal]

/-- A note adds its event to the journal and changes nothing else. -/
theorem runFrom_note (e : Event) (b : Bench σ κ) : runFrom (note e) b = (.ok ⟨⟩, b.noted [e]) := by
  rw [note, runFrom_modify, noted, moved]
  simp

/-- A loop of notes adds the events of the list in order. -/
theorem runFrom_notes {α : Type} (f : α → Event) (l : List α) (b : Bench σ κ) :
    runFrom (l.forM fun a => note (f a)) b = (.ok ⟨⟩, b.noted (l.map f)) := by
  induction l generalizing b with
  | nil => exact runFrom_forM_nil.2 (by simp [noted, moved])
  | cons a l ih =>
    refine runFrom_forM_cons.2 ⟨_, runFrom_note (f a) b, ?_⟩
    rw [ih]
    simp [noted, moved]

/-- A required state is the state of the bench, which does not change. -/
theorem runFrom_require {state : BenchState} {action : BenchAction} {u : Unit} :
    runFrom (require state action : Action σ κ Unit) b = (.ok u, b') ↔
      b.state = state ∧ b' = b := by
  rw [require, runFrom_bind, runFrom_get]
  by_cases h : b.state = state
  · simp [h, runFrom_pure, eq_comm]
  · simp [h, runFrom_throw]

/-- A change of the image takes effect on the image alone. -/
theorem runFrom_onImage {change : Image → Except SimulationError Image} {u : Unit} :
    runFrom (onImage change : Action σ κ Unit) b = (.ok u, b') ↔
      ∃ image, change b.image = .ok image ∧ b' = b.moved b.device image b.clock b.journal := by
  simp only [onImage, runFrom_bind_ok, runFrom_get, runFrom_set, runFrom_liftM_ok, Prod.mk.injEq,
    Except.ok.injEq]
  constructor
  · rintro ⟨_, _, ⟨rfl, rfl⟩, image, _, ⟨himage, rfl⟩, -, rfl⟩
    exact ⟨image, himage, rfl⟩
  · rintro ⟨image, himage, rfl⟩
    exact ⟨_, _, ⟨rfl, rfl⟩, image, _, ⟨himage, rfl⟩, trivial, rfl⟩

/-- What a write to a register does to the bench, and what it answers. -/
theorem runFrom_writeControl_eq [Device σ] (r : Register) (value : UInt32) (b : Bench σ κ) :
    runFrom (writeControl r value) b =
      ((fun _ => ()) <$> (Device.writeControl b.device r.offset value).outcome,
        b.moved (Device.writeControl b.device r.offset value).device b.image b.clock
          (b.journal ++ (Device.writeControl b.device r.offset value).events)) := by
  rw [writeControl, runFrom_get_bind, runFrom_bind, runFrom_set]
  unfold ControlWrite.outcome
  cases (Device.writeControl b.device r.offset value).fault <;> rfl

/-- A register write takes effect on the device, and the journal gets the
events of the device. -/
theorem runFrom_writeControl [Device σ] {r : Register} {value : UInt32} {u : Unit} :
    runFrom (writeControl r value) b = (.ok u, b') ↔
      ∃ s, (Device.writeControl b.device r.offset value).outcome = .ok s ∧
        b' = b.moved s b.image b.clock
          (b.journal ++ (Device.writeControl b.device r.offset value).events) := by
  rw [runFrom_writeControl_eq]
  constructor
  · intro h
    obtain ⟨hout, rfl⟩ := Prod.mk.inj h
    obtain ⟨s, hs, -⟩ := map_ok_iff.1 hout
    obtain ⟨-, rfl⟩ := ControlWrite.outcome_eq_ok.1 hs
    exact ⟨_, hs, rfl⟩
  · rintro ⟨s, hs, rfl⟩
    obtain ⟨-, rfl⟩ := ControlWrite.outcome_eq_ok.1 hs
    rw [hs]
    rfl

/-- **An edge of the bench is an edge of its device.** -/
theorem runFrom_edge [Device σ] [Clock κ] {now : Nat} :
    runFrom (edge : Action σ κ Nat) b = (.ok now, b') ↔
      now = (Clock.tick b.clock).1 ∧ ∃ s image, Steps b.device b.image s image ∧
        b' = b.moved s image (Clock.tick b.clock).2
          (b.journal ++ (Device.step b.device b.image).events) := by
  simp only [edge, runFrom_bind_ok, runFrom_get, runFrom_set, runFrom_modifyGet, Prod.mk.injEq,
    Except.ok.injEq]
  constructor
  · rintro ⟨_, _, ⟨rfl, rfl⟩, _, _, ⟨rfl, rfl⟩, _, _, ⟨-, rfl⟩, h⟩
    dsimp only at h
    cases hf : (Device.step b.device b.image).fault with
    | none =>
      rw [hf] at h
      obtain ⟨hnow, rfl⟩ := Prod.mk.inj h
      exact ⟨(Except.ok.inj hnow).symm, _, _, ⟨rfl, rfl, hf⟩, rfl⟩
    | some fault =>
      rw [hf] at h
      cases (Prod.mk.inj h).1
  · rintro ⟨rfl, s, image, ⟨rfl, rfl, hf⟩, rfl⟩
    refine ⟨_, _, ⟨rfl, rfl⟩, _, _, ⟨rfl, rfl⟩, ⟨⟩, _, ⟨trivial, rfl⟩, ?_⟩
    dsimp only
    rw [hf]
    rfl

/-- **Edges one after the other are a run of the device.** -/
theorem edges_ok [Device σ] [Clock κ] {n : Nat} {u : Unit}
    (h : runFrom (edges n : Action σ κ Unit) b = (.ok u, b')) :
    ∃ s image clock journal, Runs (fun _ => True) n b.device b.image s image ∧
      b' = b.moved s image clock journal := by
  induction n generalizing b with
  | zero =>
    obtain ⟨-, rfl⟩ := Prod.mk.inj h
    exact ⟨_, _, _, _, .refl _ _, rfl⟩
  | succ n ih =>
    rw [edges, runFrom_bind_ok] at h
    obtain ⟨now, b₁, hfirst, hrest⟩ := h
    obtain ⟨-, s, image, hstep, rfl⟩ := runFrom_edge.1 hfirst
    obtain ⟨s', image', clock, journal, hrun, rfl⟩ := ih hrest
    exact ⟨s', image', clock, journal, .edge hstep (fun _ => trivial) hrun, rfl⟩

/-- An input that was loaded is one of the stimulus, and is stored at the
address of its tensor. -/
theorem loadInput_ok {id : TensorId} {u : Unit}
    (h : runFrom (loadInput id : Action σ κ Unit) b = (.ok u, b')) :
    ∃ values image journal, b.stimulus.inputs id = some values ∧
      b.image.loadTensor ((b.design.graph.tensor id).address.getD 0)
        (b.design.graph.tensor id) values =
        .ok image ∧ b' = b.moved b.device image b.clock journal := by
  rw [loadInput, runFrom_bind, runFrom_get] at h
  dsimp only at h
  cases haddress : (b.design.graph.tensor id).address <;> cases hvalues : b.stimulus.inputs id <;>
    rw [haddress, hvalues] at h <;> dsimp only at h
  case some.some address values =>
    rw [runFrom_bind_ok] at h
    obtain ⟨_, b₁, hload, hnote⟩ := h
    obtain ⟨image, himage, rfl⟩ := runFrom_onImage.1 hload
    obtain ⟨-, rfl⟩ := Prod.mk.inj ((runFrom_note _ _).symm.trans hnote)
    exact ⟨values, image, _, rfl, himage, rfl⟩
  all_goals cases (Prod.mk.inj h).1

/-- A reference that was loaded is one of the stimulus, and is stored at the
address that the plan has for it, in the layout of the output. -/
theorem loadReference_ok {id : TensorId} {address : Nat} {u : Unit}
    (h : runFrom (loadReference id address : Action σ κ Unit) b = (.ok u, b')) :
    ∃ values image journal, b.stimulus.references id = some values ∧
      b.image.loadTensor address (b.design.graph.tensor id) values = .ok image ∧
      b' = b.moved b.device image b.clock journal := by
  rw [loadReference, runFrom_bind, runFrom_get] at h
  dsimp only at h
  cases hvalues : b.stimulus.references id with
  | none =>
    rw [hvalues] at h
    cases (Prod.mk.inj h).1
  | some values =>
    rw [hvalues] at h
    obtain ⟨image, himage, rfl⟩ := runFrom_onImage.1 h
    exact ⟨values, image, _, rfl, himage, rfl⟩

/-- **Loads that keep apart all stay**, and change their own places only. -/
theorem loads_ok {α : Type} {l : List α} {f : α → Action σ κ Unit} {place : α → Nat}
    {tensor : α → Tensor} {values : α → Option (Array Int)} {touched : Set Nat} {u : Unit}
    (hload : ∀ a ∈ l, ∀ image journal b₂, runFrom (f a) (b.moved b.device image b.clock journal) =
      (.ok ⟨⟩, b₂) → ∃ vs image' journal', values a = some vs ∧
        image.loadTensor (place a) (tensor a) vs = .ok image' ∧
        b₂ = b.moved b.device image' b.clock journal')
    (hlaid : ∀ a ∈ l, (tensor a).Laid)
    (hapart : l.Pairwise fun a a' =>
      Extent.Apart ⟨place a, (tensor a).memorySize⟩ ⟨place a', (tensor a').memorySize⟩)
    (hinside : ∀ a ∈ l, Set.Ico (place a) (place a + (tensor a).memorySize) ⊆ touched)
    (h : runFrom (l.forM f) b = (.ok u, b')) :
    ∃ image journal, b' = b.moved b.device image b.clock journal ∧
      (∀ a ∈ l, ∃ vs, values a = some vs ∧ image.Carries (place a) (tensor a) vs) ∧
      Image.ChangesOnly touched b.image image := by
  refine runFrom_forM_keeps (I := fun before b₁ => ∃ image journal,
    b₁ = b.moved b.device image b.clock journal ∧
    (∀ a ∈ before, ∃ vs, values a = some vs ∧ image.Carries (place a) (tensor a) vs) ∧
    Image.ChangesOnly touched b.image image) ?_ ⟨b.image, b.journal, rfl, by simp, .refl _ _⟩ h
  rintro before a after _ b₂ hsplit ⟨image, journal, rfl, hcarries, hchanges⟩ ha
  have hmem : a ∈ l := by rw [hsplit]; simp
  obtain ⟨vs, image', journal', hvs, himage, rfl⟩ := hload a hmem image journal b₂ ha
  obtain ⟨hnew, hchange⟩ := Image.loadTensor_spec (hlaid a hmem) himage
  refine ⟨image', journal', rfl, fun a' ha' => ?_, hchanges.trans (hchange.mono (hinside a hmem))⟩
  rcases List.mem_append.1 ha' with ha' | ha'
  · -- an earlier load keeps apart from this one
    obtain ⟨vs', hvs', hcarries'⟩ := hcarries a' ha'
    refine ⟨vs', hvs', hcarries'.of_changesOnly hchange fun i hi => ?_⟩
    rw [hsplit] at hapart
    have := (List.pairwise_append.1 hapart).2.2 a' ha' a List.mem_cons_self
    simp only [Extent.Apart, Extent.stop, Set.mem_Ico] at this hi
    omega
  · obtain rfl := List.mem_singleton.1 ha'
    exact ⟨vs, hvs, hnew⟩

/-! ## Guards -/

/-- The loop over the inputs protects the extent of each, after what was
protected before, and changes no byte. -/
theorem protectInputs_ok {d : Design} {guards : List Extent} {u : Unit}
    (h : runFrom (d.inputs.forM protectInput : Action σ κ Unit) b = (.ok u, b')) (hb : b.design = d)
    (haddress : ∀ id ∈ d.inputs, (d.graph.tensor id).address.isSome)
    (hguard : b.image.GuardedBy guards) :
    ∃ image, b' = b.moved b.device image b.clock b.journal ∧ image.bytes = b.image.bytes ∧
      image.GuardedBy
        (guards ++ d.inputs.filterMap fun id => d.memory.extent? d.graph (.tensor id)) := by
  subst hb
  refine runFrom_forM_keeps (I := fun before b₁ => ∃ image,
    b₁ = b.moved b.device image b.clock b.journal ∧ image.bytes = b.image.bytes ∧
      image.GuardedBy (guards ++ before.filterMap fun id =>
      b.design.memory.extent? b.design.graph (.tensor id))) ?_
        ⟨b.image, rfl, rfl, by simpa using hguard⟩ h
  rintro before id after _ b₂ hsplit ⟨image, rfl, hbytes, hguarded⟩ hid
  obtain ⟨address, ha⟩ := Option.isSome_iff_exists.1 (haddress id (by rw [hsplit]; simp))
  rw [protectInput, runFrom_modify] at hid
  obtain ⟨-, rfl⟩ := Prod.mk.inj hid
  have ha' : ((b.moved b.device image b.clock b.journal).design.graph.tensor id).address =
      some address := ha
  refine ⟨image.protect ("input " ++ (b.design.graph.tensor id).name) address
    (b.design.graph.tensor id).memorySize, by simp only [ha']; rfl,
    by rw [Image.bytes_protect, hbytes], ?_⟩
  have hextent : b.design.memory.extent? b.design.graph (.tensor id) =
      some ⟨address, (b.design.graph.tensor id).memorySize⟩ := by
    rw [MemoryMap.extent?, ha]
    rfl
  rw [List.filterMap_append, ← List.append_assoc, List.filterMap_cons, hextent]
  exact hguarded.protect _ ⟨address, (b.design.graph.tensor id).memorySize⟩

/-- A region is protected from its base on, for its size. -/
theorem runFrom_protectRegion {k : RegionKind} {name : String} {u : Unit} :
    runFrom (protectRegion k name : Action σ κ Unit) b = (.ok u, b') ↔
      ∃ r, b.design.memory.region k = .ok r ∧
        b' = b.moved b.device (b.image.protect name r.base r.size) b.clock b.journal := by
  simp only [protectRegion, runFrom_bind_ok, runFrom_get, runFrom_modify, runFrom_liftM_ok,
    mapError_ok_iff, Prod.mk.injEq, Except.ok.injEq]
  constructor
  · rintro ⟨_, _, ⟨rfl, rfl⟩, r, _, ⟨hr, rfl⟩, -, rfl⟩
    exact ⟨r, hr, rfl⟩
  · rintro ⟨r, hr, rfl⟩
    exact ⟨_, _, ⟨rfl, rfl⟩, r, _, ⟨hr, rfl⟩, trivial, rfl⟩

/-- A number fits a register exactly if it is a word of 32 bits, and is stored
as it is. -/
theorem registerValue_ok {what : String} {value : Nat} {r : UInt32} :
    registerValue what value = .ok r ↔ value < 2 ^ 32 ∧ r = UInt32.ofNat value := by
  unfold registerValue
  split <;> simp_all [eq_comm]

end Parts

end Bench

/-! ## What addressing leaves -/

/-- The image has the inputs and the references of a stimulus in their places,
and the parameters. -/
structure Design.Loaded (d : Design) (stimulus : Stimulus) (image : Image) : Prop where
  inputs : ∀ id ∈ d.graph.placeholders, ∃ values, stimulus.inputs id = some values ∧
    image.Carries ((d.graph.tensor id).address.getD 0) (d.graph.tensor id) values
  parameters : image.Holds (d.memory.base .parameters) d.blob
  references : ∀ p ∈ d.memory.reference, ∃ values, stimulus.references p.1 = some values ∧
    image.Carries p.2 (d.graph.tensor p.1) values

/-- The bytes of a region. -/
def MemoryMap.whole (map : MemoryMap) (k : RegionKind) : Extent :=
  ⟨map.base k, map.stop k - map.base k⟩

/-- What a device only reads: the inputs, the parameters and the references. -/
def Design.guards (d : Design) : List Extent :=
  d.graph.placeholders.filterMap (fun id => d.memory.extent? d.graph (.tensor id)) ++
    [d.memory.whole .parameters, d.memory.whole .reference]

namespace Design.Prepared

variable {d : Design} (hd : d.Prepared)
include hd

/-- The memory plan has an extent for every tensor, from its address on and as
long as the tensor is. -/
theorem extent_tensor {id : TensorId} (hid : id < d.graph.tensors.size) :
    d.memory.extent? d.graph (.tensor id) =
      some ⟨(d.graph.tensor id).address.getD 0, (d.graph.tensor id).memorySize⟩ := by
  obtain ⟨address, haddress, hextent⟩ := hd.sound.exists_address hid
  rw [hextent, haddress, Option.getD_some]

/-- Every tensor of a prepared design has an address. -/
theorem isSome_address {id : TensorId} (hid : id < d.graph.tensors.size) :
    (d.graph.tensor id).address.isSome := by
  obtain ⟨address, haddress, -⟩ := hd.sound.exists_address hid
  rw [haddress]
  rfl

/-- An input lies at its address in the region of the activations. -/
theorem extent_input {id : TensorId} (hid : id ∈ d.graph.placeholders) :
    d.memory.extent? d.graph (.tensor id) =
        some ⟨(d.graph.tensor id).address.getD 0, (d.graph.tensor id).memorySize⟩ ∧
      d.graph.home (.tensor id) = .activations := by
  obtain ⟨hlt, hkind⟩ := hd.wellFormed.mem_idsWhere.1 hid
  refine ⟨hd.extent_tensor hlt, ?_⟩
  rw [Graph.home]
  cases hk : (d.graph.tensor id).kind <;> simp [hk, TensorKind.isPlaceholder] at hkind
  rfl

/-- Slots for references are those of the outputs. -/
theorem reference_output {p : TensorId × Nat} (hp : p ∈ d.memory.reference) :
    p.1 < d.graph.tensors.size ∧ (d.graph.tensor p.1).kind.isOutput := by
  have hmem : p.1 ∈ d.graph.outputs := hd.sound.reference_ids ▸ List.mem_map_of_mem hp
  exact hd.wellFormed.mem_idsWhere.1 hmem

/-- A region that is found is whole. -/
theorem region_whole {k : RegionKind} {r : Region} (h : d.memory.region k = .ok r) :
    r.base = d.memory.base k ∧ (⟨r.base, r.size⟩ : Extent) = d.memory.whole k := by
  obtain ⟨r', hr', -, -, hbase, hstop, -⟩ := hd.sound.region_ok k
  obtain rfl : r = r' := Except.ok.inj (h.symm.trans hr')
  refine ⟨hbase, ?_⟩
  rw [MemoryMap.whole, ← hbase, ← hstop, Region.stop, Nat.add_sub_cancel_left]

end Design.Prepared

namespace Design.Loaded

variable {d : Design} {stimulus : Stimulus} {image image' : Image}

/-- What is loaded is a matter of the bytes. -/
theorem of_bytes_eq (h : d.Loaded stimulus image) (hbytes : image'.bytes = image.bytes) :
    d.Loaded stimulus image' := by
  have hholds {base : Nat} {data : Bytes} (hdata : image.Holds base data) :
      image'.Holds base data :=
    fun i hi => by rw [hbytes]; exact hdata i hi
  refine ⟨fun id hid => ?_, hholds h.parameters, fun p hp => ?_⟩
  · obtain ⟨values, hvalues, hcarries⟩ := h.inputs id hid
    exact ⟨values, hvalues, hcarries.count, hholds hcarries.holds⟩
  · obtain ⟨values, hvalues, hcarries⟩ := h.references p hp
    exact ⟨values, hvalues, hcarries.count, hholds hcarries.holds⟩

/-- What is loaded survives changes that stay away from it. -/
theorem of_changesOnly (h : d.Loaded stimulus image) (hd : d.Prepared) {touched : Set Nat}
    (hc : Image.ChangesOnly touched image image')
    (hout : ∀ x ∈ d.guards, ∀ a ∈ touched, a < x.base ∨ x.stop ≤ a) : d.Loaded stimulus image' := by
  have hblob := (Graph.parameterBlob_ok hd.wellFormed hd.quantized hd.arranged hd.sound hd.blob).1
  have hparameters := hout (d.memory.whole .parameters) (by simp [guards])
  have hreference := hout (d.memory.whole .reference) (by simp [guards])
  simp only [MemoryMap.whole, Extent.stop] at hparameters hreference
  refine ⟨fun id hid => ?_, h.parameters.of_changesOnly hc fun a ha => ?_, fun p hp => ?_⟩
  · obtain ⟨values, hvalues, hcarries⟩ := h.inputs id hid
    refine ⟨values, hvalues, hcarries.of_changesOnly hc
      (hout ⟨(d.graph.tensor id).address.getD 0, (d.graph.tensor id).memorySize⟩ ?_)⟩
    exact List.mem_append_left _ (List.mem_filterMap.2 ⟨id, hid, (hd.extent_input hid).1⟩)
  · have := hparameters a ha
    omega
  · -- a slot is inside the guarded region
    obtain ⟨values, hvalues, hcarries⟩ := h.references p hp
    refine ⟨values, hvalues, hcarries.of_changesOnly hc fun a ha => ?_⟩
    have := hreference a ha
    have := hd.sound.inside_home (hd.sound.reference_extent p hp)
    simp only [Graph.home, Extent.stop] at this
    omega

end Design.Loaded

/-- **Loading goes up in memory**: inputs, parameters, references and the
counter are stored one above the other, so each store leaves what was loaded
before it. -/
theorem Design.Prepared.loaded {d : Design} (hd : d.Prepared) {stimulus : Stimulus}
    {image₂ image₃ image₄ image₅ : Image}
    (hinputs : ∀ id ∈ d.graph.placeholders, ∃ values, stimulus.inputs id = some values ∧
      image₂.Carries ((d.graph.tensor id).address.getD 0) (d.graph.tensor id) values)
    (hparameters : image₂.write (d.memory.base .parameters) d.blob = .ok image₃)
    (hchanges₄ : Image.ChangesOnly (d.memory.bytes .reference) image₃ image₄)
    (hreferences : ∀ p ∈ d.memory.reference, ∃ values, stimulus.references p.1 = some values ∧
      image₄.Carries p.2 (d.graph.tensor p.1) values)
    (hword : image₄.writeWord d.memory.handshake 0 = .ok image₅) :
    d.Loaded stimulus image₅ ∧ image₅.size = image₂.size ∧
      image₅.protections = image₂.protections := by
  have hblob := (Graph.parameterBlob_ok hd.wellFormed hd.quantized hd.arranged hd.sound hd.blob).1
  have hscratch := hd.sound.stop_parameters_le
  have hhandshake := (hd.sound.inside_home (e := .handshake) rfl).1
  simp only [Graph.home] at hhandshake
  obtain ⟨hholds, hchanges₃⟩ := Image.holds_of_write hparameters
  have hchanges₅ : Image.ChangesOnly (Set.Ici d.memory.handshake) image₄ image₅ := by
    obtain ⟨hw, rfl⟩ := Image.storing_eq_ok.1 hword
    exact (Image.changesOnly_splice image₄ (Bytes.ofWord 0) hw.inBounds).mono
      Set.Ico_subset_Ici_self
  -- from each phase on, nothing below the next region changes
  have htail : Image.ChangesOnly (Set.Ici (d.memory.stop .parameters)) image₃ image₅ := by
    refine (hchanges₄.mono ?_).trans (hchanges₅.mono ?_)
    · rw [MemoryMap.bytes, hd.sound.base_reference]
      exact Set.Ico_subset_Ici_self
    · exact Set.Ici_subset_Ici.2 (by omega)
  have hall : Image.ChangesOnly (Set.Ici (d.memory.base .parameters)) image₂ image₅ := by
    refine (hchanges₃.mono Set.Ico_subset_Ici_self).trans (htail.mono ?_)
    exact Set.Ici_subset_Ici.2 (by omega)
  refine ⟨⟨fun id hid => ?_, hholds.of_changesOnly htail fun a ha => ?_, fun p hp => ?_⟩, hall.size,
    hall.protections⟩
  · obtain ⟨values, hvalues, hcarries⟩ := hinputs id hid
    refine ⟨values, hvalues, hcarries.of_changesOnly hall fun a ha => ?_⟩
    obtain ⟨hextent, hhome⟩ := hd.extent_input hid
    have hinside := (hd.sound.inside_home hextent).2
    rw [hhome, ← hd.sound.base_parameters] at hinside
    simp only [Extent.stop, Set.mem_Ici] at hinside ha
    omega
  · rw [Set.mem_Ici] at ha
    omega
  · obtain ⟨values, hvalues, hcarries⟩ := hreferences p hp
    refine ⟨values, hvalues, hcarries.of_changesOnly hchanges₅ fun a ha => ?_⟩
    have hbelow := hd.sound.below_handshake _ _ (hd.sound.reference_extent p hp) (by simp)
    simp only [Extent.stop, Set.mem_Ici] at hbelow ha
    omega

namespace Bench

section Address

open Device (Steps Runs)

variable {σ κ : Type} {b b' : Bench σ κ} {u : Unit}

/-- **After the inputs are loaded, the image carries them**, and nothing
outside the region of the activations has changed. One input does not overwrite
another, since their extents are apart. -/
theorem loadInputs_ok {d : Design}
    (h : runFrom (d.inputs.forM loadInput : Action σ κ Unit) b = (.ok u, b')) (hb : b.design = d)
    (hd : d.Prepared) :
    ∃ image journal, b' = b.moved b.device image b.clock journal ∧
      (∀ id ∈ d.graph.placeholders, ∃ values, b.stimulus.inputs id = some values ∧
        image.Carries ((d.graph.tensor id).address.getD 0) (d.graph.tensor id) values) ∧
      Image.ChangesOnly (d.memory.bytes .activations) b.image image := by
  subst hb
  refine loads_ok (fun id _ image journal b₂ h => loadInput_ok h) (fun id hid => ?_) ?_
    (fun id hid => ?_) h
  · exact hd.arranged.laid id (hd.wellFormed.mem_idsWhere.1 hid).1
  · refine (hd.wellFormed.nodup_idsWhere _).imp_of_mem fun {id id'} hid hid' hne => ?_
    exact hd.sound.apart _ _ _ _ (hd.extent_input hid).1 (hd.extent_input hid').1
      (by simpa using hne)
  · obtain ⟨hextent, hhome⟩ := hd.extent_input hid
    exact hhome ▸ hd.sound.bytes_subset hextent

/-- **After the references are loaded, the image carries them**, and nothing
outside the region of the references has changed. -/
theorem loadReferences_ok {d : Design}
    (h : runFrom (d.memory.reference.forM fun (id, address) => loadReference id address :
      Action σ κ Unit) b = (.ok u, b')) (hb : b.design = d) (hd : d.Prepared) :
    ∃ image journal, b' = b.moved b.device image b.clock journal ∧
      (∀ p ∈ d.memory.reference, ∃ values, b.stimulus.references p.1 = some values ∧
        image.Carries p.2 (d.graph.tensor p.1) values) ∧
      Image.ChangesOnly (d.memory.bytes .reference) b.image image := by
  subst hb
  have hnodup : b.design.memory.reference.Pairwise fun p q => p.1 ≠ q.1 :=
    List.pairwise_map.1 (hd.sound.reference_ids ▸ hd.wellFormed.nodup_idsWhere _)
  refine loads_ok (fun p _ image journal b₂ h => loadReference_ok h) (fun p hp => ?_) ?_
    (fun p hp => ?_) h
  · exact hd.arranged.laid _ (hd.reference_output hp).1
  · refine hnodup.imp_of_mem fun {p q} hp hq hne => ?_
    exact hd.sound.apart _ _ _ _ (hd.sound.reference_extent p hp) (hd.sound.reference_extent q hq)
      (by simpa using hne)
  · exact hd.sound.bytes_subset (hd.sound.reference_extent p hp)

/-- **What loading leaves.** -/
theorem loadImage_ok (h : runFrom (loadImage : Action σ κ Unit) b = (.ok u, b'))
    (hd : b.design.Prepared) :
    ∃ image journal, b' = b.moved b.device image b.clock journal ∧
      b.design.Loaded b.stimulus image ∧
      image.size = b.image.size ∧ image.protections = b.image.protections := by
  rw [loadImage, runFrom_get_bind] at h
  obtain ⟨_, b₂, hinputs, hrest⟩ := runFrom_bind_ok.1 h
  obtain ⟨image₂, journal₂, rfl, hcarried, hchanges₂⟩ := loadInputs_ok hinputs rfl hd
  obtain ⟨base, hbase, hrest⟩ := runFrom_liftM_bind_ok.1 hrest
  obtain ⟨r, hr, rfl⟩ := map_ok_iff.1 (mapError_ok_iff.1 hbase)
  obtain ⟨_, b₃, hblob, hrest⟩ := runFrom_bind_ok.1 hrest
  obtain ⟨image₃, himage₃, hb₃⟩ := runFrom_onImage.1 hblob
  obtain rfl : b₃ = b.moved b.device image₃ b.clock journal₂ := hb₃
  obtain ⟨_, b₄, hreferences, hword⟩ := runFrom_bind_ok.1 hrest
  obtain ⟨image₄, journal₄, hb₄, hreferred, hchanges₄⟩ := loadReferences_ok hreferences rfl hd
  obtain rfl : b₄ = b.moved b.device image₄ b.clock journal₄ := hb₄
  obtain ⟨image₅, himage₅, rfl⟩ := runFrom_onImage.1 hword
  rw [(hd.region_whole hr).1] at himage₃
  obtain ⟨hloaded, hsize, hprotections⟩ := hd.loaded hcarried himage₃ hchanges₄ hreferred himage₅
  exact ⟨image₅, journal₄, rfl, hloaded, hsize.trans hchanges₂.size,
    hprotections.trans hchanges₂.protections⟩

/-- **What is protected before a start are the inputs, the parameters and the
references**, in an image whose bytes are those from before. -/
theorem protectAll_ok (h : runFrom (protectAll : Action σ κ Unit) b = (.ok u, b'))
    (hd : b.design.Prepared) (hopen : b.image.protections = []) :
    ∃ image, b' = b.moved b.device image b.clock b.journal ∧ image.bytes = b.image.bytes ∧
      image.GuardedBy b.design.guards := by
  have hnone : b.image.GuardedBy [] := congrArg (List.map _) hopen
  rw [protectAll, runFrom_get_bind] at h
  obtain ⟨_, b₁, hinputs, hrest⟩ := runFrom_bind_ok.1 h
  obtain ⟨image₁, hb₁, hbytes₁, hguarded₁⟩ := protectInputs_ok hinputs rfl
    (fun id hid => hd.isSome_address (hd.wellFormed.mem_idsWhere.1 hid).1) hnone
  obtain rfl : b₁ = b.moved b.device image₁ b.clock b.journal := hb₁
  obtain ⟨_, b₂, hparameters, hreference⟩ := runFrom_bind_ok.1 hrest
  obtain ⟨rp, hrp, hb₂⟩ := runFrom_protectRegion.1 hparameters
  obtain rfl : b₂ = b.moved b.device
      (image₁.protect "parameters" rp.base rp.size) b.clock b.journal := hb₂
  obtain ⟨rr, hrr, hb₃⟩ := runFrom_protectRegion.1 hreference
  refine ⟨_, hb₃, ?_, ?_⟩
  · rw [Image.bytes_protect]
    exact (Image.bytes_protect _ _ _ _).trans hbytes₁
  · have hguarded := (hguarded₁.protect "parameters" ⟨rp.base, rp.size⟩).protect "reference"
      ⟨rr.base, rr.size⟩
    rw [List.nil_append, List.append_assoc] at hguarded
    rw [Design.guards, ← (hd.region_whole hrp).2, ← (hd.region_whole hrr).2]
    exact hguarded

variable [Device σ]

/-- **Programming a device writes two registers**, the base of the scratch
region and the handshake address, in this order, and only for addresses of 32
bits. -/
theorem program_ok (h : runFrom (program : Action σ κ Unit) b = (.ok u, b'))
    (hd : b.design.Prepared) :
    b.design.memory.base .scratch < 2 ^ 32 ∧ b.design.memory.handshake < 2 ^ 32 ∧
      ∃ s₁ s₂ journal, (Device.writeControl b.device Register.globalAddress.offset
          (UInt32.ofNat (b.design.memory.base .scratch))).outcome = .ok s₁ ∧
        (Device.writeControl s₁ Register.handshakeAddress.offset
          (UInt32.ofNat b.design.memory.handshake)).outcome = .ok s₂ ∧
        b' = b.moved s₂ b.image b.clock journal := by
  rw [program, runFrom_get_bind] at h
  obtain ⟨base, hbase, h⟩ := runFrom_liftM_bind_ok.1 h
  obtain ⟨value, hvalue, h⟩ := runFrom_liftM_bind_ok.1 h
  obtain ⟨r, hr, rfl⟩ := map_ok_iff.1 (mapError_ok_iff.1 hbase)
  rw [(hd.region_whole hr).1] at hvalue
  obtain ⟨hlt, rfl⟩ := registerValue_ok.1 hvalue
  obtain ⟨_, b₁, hscratch, hrest⟩ := runFrom_bind_ok.1 h
  obtain ⟨s₁, hs₁, rfl⟩ := runFrom_writeControl.1 hscratch
  obtain ⟨value', hvalue', hhandshake⟩ := runFrom_liftM_bind_ok.1 hrest
  obtain ⟨hlt', rfl⟩ := registerValue_ok.1 hvalue'
  obtain ⟨s₂, hs₂, rfl⟩ := runFrom_writeControl.1 hhandshake
  exact ⟨hlt, hlt', s₁, s₂, _, hs₁, hs₂, rfl⟩

variable [Clock κ]

/-- **What addressing leaves**: the device after its warm-up has its two
registers written, and the image has all that was loaded, under guard. -/
theorem address_ok (h : runFrom (address : Action σ κ Unit) b = (.ok u, b'))
    (hd : b.design.Prepared) (hσ : Device.Checked σ) (hopen : b.image.protections = []) :
    ∃ s₀ image₀ s₁ s₂ image clock journal,
      Runs (fun _ => True) b.config.warmupCycles (Device.reset b.device) b.image s₀ image₀ ∧
      b.design.memory.base .scratch < 2 ^ 32 ∧ b.design.memory.handshake < 2 ^ 32 ∧
      (Device.writeControl s₀ Register.globalAddress.offset
        (UInt32.ofNat (b.design.memory.base .scratch))).outcome = .ok s₁ ∧
      (Device.writeControl s₁ Register.handshakeAddress.offset
        (UInt32.ofNat b.design.memory.handshake)).outcome = .ok s₂ ∧
      b' = (b.moved s₂ image clock journal).inState .addressed ∧
      b.design.Loaded b.stimulus image ∧ image.size = b.image.size ∧
        image.GuardedBy b.design.guards := by
  obtain ⟨_, b₀, hrequire, h⟩ := runFrom_bind_ok.1 h
  obtain rfl : b = b₀ := (runFrom_require.1 hrequire).2.symm
  rw [runFrom_bind, runFrom_modify] at h
  dsimp only at h
  rw [runFrom_get_bind] at h
  obtain ⟨_, b₁, hedges, h⟩ := runFrom_bind_ok.1 h
  obtain ⟨s₀, image₁, clock, journal₁, hwarm, hb₁⟩ := edges_ok hedges
  obtain rfl : b₁ = b.moved s₀ image₁ clock journal₁ := hb₁
  -- the warm-up may write, but it comes before anything is loaded
  have hwarmed := (hwarm.accessed hσ).changesOnly
  obtain ⟨_, b₂, hload, hrest⟩ := runFrom_bind_ok.1 h
  obtain ⟨image₂, journal₂, hb₂, hloaded, hsize, hprotections⟩ := loadImage_ok hload hd
  obtain rfl : b₂ = b.moved s₀ image₂ clock journal₂ := hb₂
  obtain ⟨_, b₃, hprogram, hrest⟩ := runFrom_bind_ok.1 hrest
  obtain ⟨hlt, hlt', s₁, s₂, journal₃, hs₁, hs₂, hb₃⟩ := program_ok hprogram hd
  obtain rfl : b₃ = b.moved s₂ image₂ clock journal₃ := hb₃
  obtain ⟨_, b₄, hprotect, hrest⟩ := runFrom_bind_ok.1 hrest
  obtain ⟨image₄, hb₄, hbytes, hguarded⟩ := protectAll_ok hprotect hd
    (hprotections.trans (hwarmed.protections.trans hopen))
  obtain rfl : b₄ = b.moved s₂ image₄ clock journal₃ := hb₄
  rw [runFrom_get_bind, runFrom_bind, runFrom_note] at hrest
  obtain ⟨-, rfl⟩ := Prod.mk.inj hrest
  exact ⟨s₀, image₁, s₁, s₂, image₄, clock, _, hwarm, hlt, hlt', hs₁, hs₂, rfl,
    hloaded.of_bytes_eq hbytes,
    (congrArg Array.size hbytes).trans (hsize.trans hwarmed.size), hguarded⟩

end Address

end Bench

end QuantAccel
