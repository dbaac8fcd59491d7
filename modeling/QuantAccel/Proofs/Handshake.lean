import QuantAccel.Proofs.Compile
import QuantAccel.Proofs.Protection

/-!
# Room for the handshake word

A device counts its operators in a word of four bytes, and the memory plan sets
aside one chunk for it. The chunk is the last extent of the stack, so memory
ends where the chunk does, and nothing rounds it up to the word: there is room
exactly if a chunk has four bytes. A configuration may have smaller ones. The
design still compiles then, and every access to its handshake word is out of
bounds (`handshakeRoom_iff`).
-/

namespace QuantAccel

/-- A stack ends with its last extent, rounded up to a chunk. -/
theorem Stacked.stop_eq_last {chunkSize start stop : Nat} {extents : List Extent} {last : Extent}
    (h : Stacked chunkSize start (extents ++ [last]) stop) :
    stop = roundUp last.stop chunkSize := by
  induction extents generalizing start with
  | nil => exact h.2
  | cons _ extents ih => exact ih h.2

/-- The handshake word of a design has a place of its own: it lies in the
scratch region and so in memory, it keeps apart from every tensor, and neither
clearing it nor publishing a counter there is ever out of the bounds of an image
of the planned size. -/
structure Design.HandshakeRoom (d : Design) : Prop where
  inside : ∃ scratch, d.memory.region .scratch = .ok scratch ∧ scratch.base ≤ d.memory.handshake ∧
    d.memory.handshake + 4 ≤ scratch.stop
  below_end : d.memory.handshake + 4 ≤ d.memory.size
  apart : ∀ id < d.graph.tensors.size, ∃ address, (d.graph.tensor id).address = some address ∧
    Extent.Apart ⟨address, (d.graph.tensor id).memorySize⟩ ⟨d.memory.handshake, 4⟩
  clears : ∀ image : Image, image.size = d.memory.size → ∀ word a n size,
    image.writeWord d.memory.handshake word ≠ .error (.outOfBounds a n size)
  publishes : ∀ (m : Machine) (image : Image), image.size = d.memory.size →
    m.registers.handshakeAddress.toNat = d.memory.handshake → ∀ i a n size,
      (m.complete i image).fault ≠ some (.outOfBounds a n size)

namespace Graph

variable {g placed : Graph} {map : MemoryMap} {chunkSize bound : Nat}

/-- **Memory ends with the handshake chunk.** -/
theorem Stacks.size_eq_handshake {regions : RegionKind → Region}
    {slots : RegionKind → List (TensorId × Nat)}
    (h : Stacks g placed map chunkSize bound regions slots) :
    map.size = map.handshake + chunkSize := by
  have hstack := h.stack_all
  have hmem := hstack.mem h.chunk_pos (Nat.dvd_zero _)
    (List.mem_append_right _ (List.mem_singleton_self _))
  have hdvd : chunkSize ∣ map.handshake + chunkSize := Nat.dvd_add hmem.1 dvd_rfl
  rw [hstack.stop_eq_last, Extent.stop, roundUp_of_dvd h.chunk_pos hdvd]

theorem planMemory_size (hg : g.WellFormed) (h : g.planMemory chunkSize bound = (.ok map, placed)) :
    map.size = map.handshake + chunkSize := by
  obtain ⟨regions, slots, hstacks⟩ := planMemory_stacks hg h
  exact hstacks.size_eq_handshake

theorem prepare_size {ctx : Context} {ranges : ValueRanges} {requests : AttributeRequests}
    {d : Design} (hg : g.Finished) (h : (g.prepare ctx ranges requests).outcome = .ok d) :
    d.config = ctx.config ∧ d.memory.size = d.memory.handshake + ctx.config.chunkSize := by
  simp only [prepare, Traced.outcome_bind, bind_ok_iff, outcome_during, mapError_ok_iff] at h
  obtain ⟨q, hq, s, hs, hd⟩ := h
  obtain ⟨-, -, hwell, -, -⟩ := scheduled_spec hg.wellFormed hq hs
  obtain ⟨hplan, -, hconfig, -⟩ := toDesign_ok hd
  exact ⟨hconfig, planMemory_size hwell hplan⟩

end Graph

/-- A completion fails just where its store of the counter does. -/
theorem Machine.fault_complete (m : Machine) (i : Nat) (image : Image) :
    (m.complete i image).fault = image.storeFault? m.registers.handshakeAddress.toNat 4 := by
  unfold complete Image.attempt
  dsimp only
  cases image.storeFault? m.registers.handshakeAddress.toNat 4 with
  | some fault => rfl
  | none =>
    dsimp only
    split <;> rfl

namespace Image

variable {image : Image} {address length : Nat}

/-- A store in bounds is refused for a protection only. -/
theorem storeFault?_ne_outOfBounds (h : address + length ≤ image.size) (a n size : Nat) :
    image.storeFault? address length ≠ some (.outOfBounds a n size) := by
  intro hfault
  obtain ⟨p, -, -, -, heq⟩ := storeFault?_inside h hfault
  cases heq

end Image

namespace Design.Prepared

variable {d : Design}

/-- A word that lies in memory has a place of its own. -/
theorem handshakeRoom (hd : d.Prepared) (hword : d.memory.handshake + 4 ≤ d.memory.size) :
    d.HandshakeRoom where
  inside := by
    obtain ⟨scratch, hscratch, -, -, hbase, hstop, -⟩ := hd.sound.region_ok .scratch
    have hinside := hd.sound.inside_home (e := .handshake) rfl
    have hend := hd.sound.stop_scratch
    simp only [Graph.home] at hinside
    exact ⟨scratch, hscratch, by omega, by omega⟩
  below_end := hword
  apart id hid := by
    obtain ⟨address, haddress, hextent⟩ := hd.sound.exists_address hid
    have hbelow := hd.sound.below_handshake _ _ hextent (by simp)
    exact ⟨address, haddress, .inl hbelow⟩
  clears image hsize word a n size hfault := by
    refine Image.storeFault?_ne_outOfBounds ?_ a n size (Image.storing_eq_error.1 hfault)
    omega
  publishes m image hsize hregister i a n size hfault := by
    rw [m.fault_complete, hregister] at hfault
    exact Image.storeFault?_ne_outOfBounds (by omega) a n size hfault

/-- **There is room for the word exactly in a chunk of four bytes.** -/
theorem handshakeRoom_iff_chunk (hd : d.Prepared)
    (hsize : d.memory.size = d.memory.handshake + d.config.chunkSize) :
    d.HandshakeRoom ↔ 4 ≤ d.config.chunkSize := by
  constructor
  · intro hroom
    have hbelow := hroom.below_end
    omega
  · intro hchunk
    exact hd.handshakeRoom (by omega)

end Design.Prepared

namespace Graph

variable {g : Graph} {ctx : Context} {ranges : ValueRanges} {requests : AttributeRequests}

/-- **When the handshake word of a compiled design has room.** It has its place
in scratch, in bounds and apart from all tensors, exactly if the chunks of the
configuration have four bytes or more. With smaller chunks, which a valid
configuration may have, clearing the word and publishing a counter there are
always out of the bounds of the planned memory. -/
theorem handshakeRoom_iff {β μ : Type} [Backend β μ] {backend : β} {c : Compilation μ}
    (hg : g.Finished) (h : (g.compile ctx ranges requests backend).result.outcome = .ok c) :
    (c.design.HandshakeRoom ↔ 4 ≤ ctx.config.chunkSize) ∧
      (ctx.config.chunkSize < 4 → ∀ image : Image, image.size = c.design.memory.size →
        (∀ word, image.writeWord c.design.memory.handshake word =
          .error (.outOfBounds c.design.memory.handshake 4 c.design.memory.size)) ∧
        ∀ m : Machine, m.registers.handshakeAddress.toNat = c.design.memory.handshake → ∀ i,
          (m.complete i image).fault =
            some (.outOfBounds c.design.memory.handshake 4 c.design.memory.size)) := by
  obtain ⟨hd, -⟩ := compile_ok hg h
  obtain ⟨hconfig, hsize⟩ := prepare_size hg (compile_stages h).1
  refine ⟨?_, fun hchunk image himage => ?_⟩
  · rw [← hconfig]
    exact hd.handshakeRoom_iff_chunk (by rw [hconfig]; exact hsize)
  · have hfault : image.storeFault? c.design.memory.handshake 4 =
        some (.outOfBounds c.design.memory.handshake 4 c.design.memory.size) := by
      rw [← himage]
      exact Image.storeFault?_outside (by omega)
    refine ⟨fun word => Image.storing_eq_error.2 hfault, fun m hregister i => ?_⟩
    rw [m.fault_complete, hregister, hfault]

theorem handshakeRoom_iff_dense : ∃ (g : Graph) (c : Compilation Machine), Finished g ∧
    (g.compile denseContext denseRanges [] ({} : MachineBackend)).result.outcome = .ok c ∧
      c.design.HandshakeRoom := by
  obtain ⟨g, c, hg, hc, -, -⟩ := exists_denseCompilation
  exact ⟨g, c, hg, hc, (handshakeRoom_iff hg hc).1.2 (by decide)⟩

/-- Chunks of two bytes. -/
def tightContext : Context := { denseContext with config := { denseConfig with chunkSize := 2 } }

/-- The dense layer, compiled to a machine with chunks of two bytes. -/
def tightCompilation : Except CompileError (Compilation Machine) := do
  let g ← (build denseCalls).finish.outcome.mapError .graph
  (g.compile tightContext denseRanges [] ({} : MachineBackend)).result.outcome

/-- With chunks of two bytes the dense layer compiles, and its handshake word
does not fit. -/
theorem handshake_overruns_tight : ∃ (g : Graph) (c : Compilation Machine), Finished g ∧
    tightContext.config.validate = .ok () ∧
    (g.compile tightContext denseRanges [] ({} : MachineBackend)).result.outcome = .ok c ∧
      ¬ c.design.HandshakeRoom := by
  have hoverrun : (tightCompilation.toOption.any fun c =>
      c.design.memory.size < c.design.memory.handshake + 4) = true := by decide +kernel
  obtain ⟨c, hc, hlt⟩ := (Option.any_eq_true _ _).1 hoverrun
  have hcompile := toOption_eq_some_iff.1 hc
  simp only [tightCompilation, bind_ok_iff, mapError_ok_iff] at hcompile
  obtain ⟨g, hfinish, hcompile⟩ := hcompile
  refine ⟨g, c, ⟨_, hfinish⟩, rfl, hcompile, fun hroom => ?_⟩
  have hbelow := hroom.below_end
  have hover := of_decide_eq_true hlt
  omega

end Graph

end QuantAccel
