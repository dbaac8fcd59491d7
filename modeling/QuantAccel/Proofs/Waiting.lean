import QuantAccel.Proofs.Failure
import QuantAccel.Proofs.Host
import QuantAccel.Proofs.Soundness

/-!
# Waiting in bounded time

Waiting is a loop without a bound of its own: an edge, and then the device and
the clock decide whether there is another. What ends it is said here edge by
edge, without the loop. An edge fails, completes the run, or leaves it pending,
and a pending edge is the last one if the time is over. A clock that advances
runs out of time within as many edges as the limit has cycles, so that **waiting
ends for every device**, and the bound that the loop is given in its definition
is never met. Status comes before time: a device that is done at the edge that
reaches the limit is in time.

What a device raises itself is passed on as it is, even if it is a timeout, and
then says nothing about the limit (`wait_passes_timeout`). The machine raises
none (`noTimeout`).
-/

namespace QuantAccel

/-! ## Clocks -/

namespace Clock

variable {κ : Type} [Clock κ] {c : κ} {n : Nat}

/-- The clock after some edges. -/
def after (n : Nat) (c : κ) : κ := (fun c => (tick c).2)^[n] c

/-- Each of the next `n` edges gives the count that the clock has then, and that
is greater than before. `counts` is the documented contract of `Clock.tick`,
which gives the new count of cycles; `increases` is what is asked of a clock
here. -/
structure Advances (c : κ) (n : Nat) : Prop where
  counts : ∀ i < n, (tick (after i c)).1 = cycles (after (i + 1) c)
  increases : ∀ i < n, cycles (after i c) < cycles (after (i + 1) c)

theorem after_succ (n : Nat) (c : κ) : after (n + 1) c = after n (tick c).2 := rfl

/-- A clock that advances counts an edge as a cycle at least. -/
theorem Advances.add_le (h : Advances c n) {i : Nat} (hi : i ≤ n) :
    cycles c + i ≤ cycles (after i c) := by
  induction i with
  | zero => exact le_rfl
  | succ i ih =>
    have hbefore := ih (by omega)
    have hedge := h.increases i (by omega)
    omega

/-- Each tick of the cycle clock counts one cycle. -/
theorem cycles_after (n : Nat) (c : CycleClock) : cycles (after n c) = c.cycles + n := by
  induction n generalizing c with
  | zero => rfl
  | succ n ih =>
    rw [after_succ, ih]
    change c.cycles + 1 + n = c.cycles + (n + 1)
    omega

theorem tick_after (n : Nat) (c : CycleClock) : (tick (after n c)).1 = c.cycles + n + 1 :=
  congrArg (· + 1) (cycles_after n c)

/-- The cycle clock fulfils the contract of `tick`. -/
theorem advances_cycleClock (c : CycleClock) (n : Nat) : Advances c n where
  counts := by
    intro i _
    rw [tick_after, cycles_after]
    rfl
  increases := by
    intro i _
    rw [cycles_after, cycles_after]
    omega

end Clock

/-! ## Edges -/

namespace Edge

variable {σ : Type} [Device σ]

/-- The edge fails, or the status cannot be read after it. -/
def Fails (e : Edge σ) (error : SimulationError) : Prop :=
  e.fault = some error ∨ e.fault = none ∧
    Device.readControl e.device Register.status.offset = .error error

/-- The device is done. -/
def Completes (e : Edge σ) : Prop :=
  e.fault = none ∧ Device.ShowsDone e.device

/-- The device is not done yet. -/
def Pending (e : Edge σ) : Prop :=
  e.fault = none ∧ ∃ status, Device.readControl e.device Register.status.offset = .ok status ∧
    status &&& Status.done = 0

/-- An edge fails, completes the run or leaves it pending. -/
theorem fails_or_completes_or_pending (e : Edge σ) :
    (∃ error, e.Fails error) ∨ e.Completes ∨ e.Pending := by
  cases hfault : e.fault with
  | some error => exact .inl ⟨error, .inl hfault⟩
  | none =>
    cases hread : Device.readControl e.device Register.status.offset with
    | error error => exact .inl ⟨error, .inr ⟨hfault, hread⟩⟩
    | ok status =>
      by_cases hdone : status &&& Status.done = 0
      · exact .inr (.inr ⟨hfault, status, hread, hdone⟩)
      · exact .inr (.inl ⟨hfault, status, hread, hdone⟩)

/-- An edge that completes the run does not fail. -/
theorem Completes.not_fails {e : Edge σ} (h : e.Completes) (error : SimulationError) :
    ¬e.Fails error := by
  obtain ⟨hfault, status, hread, -⟩ := h
  rintro (hfault' | ⟨-, hread'⟩)
  · cases hfault.symm.trans hfault'
  · cases hread.symm.trans hread'

/-- An edge fails in one way only. -/
theorem Fails.unique {e : Edge σ} {error error' : SimulationError} (h : e.Fails error)
    (h' : e.Fails error') :
    error = error' := by
  rcases h with hfault | ⟨hfault, hread⟩ <;> rcases h' with hfault' | ⟨hfault', hread'⟩
  · exact Option.some.inj (hfault.symm.trans hfault')
  · cases hfault.symm.trans hfault'
  · cases hfault.symm.trans hfault'
  · exact Except.error.inj (hread.symm.trans hread')

/-- Nor does one that leaves it pending. -/
theorem Pending.not_fails {e : Edge σ} (h : e.Pending) (error : SimulationError) :
    ¬e.Fails error := by
  obtain ⟨hfault, status, hread, -⟩ := h
  rintro (hfault' | ⟨-, hread'⟩)
  · cases hfault.symm.trans hfault'
  · cases hread.symm.trans hread'

/-- A device whose run is pending does not show that it is done. -/
theorem Pending.not_showsDone {e : Edge σ} (h : e.Pending) : ¬Device.ShowsDone e.device := by
  rintro ⟨status, hread, hdone⟩
  obtain ⟨-, status', hread', hpending⟩ := h
  obtain rfl := Except.ok.inj (hread.symm.trans hread')
  exact hdone hpending

end Edge

theorem Device.edgeUnder_quiet_succ {σ : Type} [Device σ] (s : σ) (image : Image) (n : Nat) :
    edgeUnder quiet s image (n + 1) = edgeUnder quiet (step s image).device
      (step s image).image n := by
  induction n with
  | zero => rfl
  | succ n ih =>
    rw [edgeUnder, ih]
    rfl

/-- A word is refused only if it is not all in the image. -/
theorem Image.readWord_error {image : Image} {address : Nat} {e : SimulationError}
    (h : image.readWord address = .error e) : e = .outOfBounds address 4 image.size := by
  by_cases hin : address + 4 ≤ image.size
  · rw [readWord_eq hin] at h
    cases h
  · rw [readWord, boundsFault?, if_neg hin] at h
    exact (Except.error.inj h).symm

/-! ## Timeouts of a device -/

/-- An error that is no timeout. -/
def SimulationError.NoTimeout (e : SimulationError) : Prop :=
  ∀ name c, e ≠ .timeout name c

/-- No edge of the device fails with a timeout. -/
def Device.NoTimeout (σ : Type) [Device σ] : Prop :=
  ∀ (s : σ) (image : Image) (error : SimulationError), (Device.step s image).Fails error →
    error.NoTimeout

namespace Image

variable {image image' : Image} {address length base : Nat} {fault : SimulationError}

/-- A read out of bounds is no timeout. -/
theorem noTimeout_of_bounds (h : image.boundsFault? address length = some fault) :
    fault.NoTimeout := by
  unfold boundsFault? at h
  split at h
  · cases h
  · cases h
    simp [SimulationError.NoTimeout]

/-- A store that is refused is no timeout. -/
theorem noTimeout_of_attempt {change : Bytes → Bytes}
    (h : image.attempt address length change = (some fault, image')) : fault.NoTimeout := by
  unfold attempt at h
  split at h
  · rename_i hstore
    cases h
    unfold storeFault? at hstore
    split at hstore
    · rename_i hbounds
      cases hstore
      exact noTimeout_of_bounds hbounds
    · obtain ⟨p, -, rfl⟩ := Option.map_eq_some_iff.1 hstore
      simp [SimulationError.NoTimeout]
  · cases h

theorem raises_layoutOf (t : Tensor) : Raises SimulationError.NoTimeout (layoutOf t) := by
  unfold layoutOf
  split
  · exact raises_ok _
  · exact raises_error (by simp [SimulationError.NoTimeout])

/-- A tensor is read, or its layout or its extent is at fault. -/
theorem raises_readTensor (image : Image) (base : Nat) (t : Tensor) :
    Raises SimulationError.NoTimeout (image.readTensor base t) := by
  have hread : Raises SimulationError.NoTimeout (image.read base t.memorySize) := by
    unfold read
    split
    · rename_i hbounds
      exact raises_error (noTimeout_of_bounds hbounds)
    · exact raises_ok _
  exact hread.bind fun _ _ => (raises_layoutOf t).bind fun _ _ => raises_ok _

theorem raises_elementSpan (base : Nat) (t : Tensor) (index : Nat) :
    Raises SimulationError.NoTimeout (elementSpan base t index) :=
  (raises_layoutOf t).bind fun _ _ => raises_ok _

end Image

namespace Machine

variable (m : Machine) {image : Image} {fault : SimulationError}

theorem raises_addressOf (id : TensorId) : Raises SimulationError.NoTimeout (m.addressOf id) := by
  unfold addressOf
  dsimp only
  split
  · refine Raises.bind (.mapError fun e _ => by
      simp [SimulationError.NoTimeout, SimulationError.graph]) fun _ _ => ?_
    exact .ite (raises_ok _) (raises_ok _)
  · exact raises_error (by simp [SimulationError.NoTimeout])

/-- Operands are read one by one. -/
theorem raises_readOperands (image : Image) (op : Operator) :
    Raises SimulationError.NoTimeout (m.readOperands image op) :=
  raises_mapM fun id _ => (m.raises_addressOf id).bind fun _ _ => image.raises_readTensor _ _

/-- An element of a result is computed, or the operator is not quantized. -/
theorem raises_element (op : Operator) (operands : List (Array Int)) (index : Nat) :
    Raises SimulationError.NoTimeout (m.element op operands index) := by
  have hrequired {β : Type} (rescale : Option β) :
      Raises SimulationError.NoTimeout (required op rescale) := by
    unfold required
    split
    · exact raises_ok _
    · exact raises_error (by simp [SimulationError.NoTimeout])
  unfold element
  split <;> exact (hrequired _).bind fun _ _ => raises_ok _

/-- An element is computed and stored, each with faults of its own. -/
theorem noTimeout_storeElement (op : Operator) (operands : List (Array Int)) (base index : Nat)
    (h : (m.storeElement op operands base image index).1 = some fault) : fault.NoTimeout := by
  unfold storeElement at h
  dsimp only at h
  split at h
  · rename_i herror
    cases h
    exact m.raises_element op operands index _ herror
  · rename_i herror
    cases h
    exact Image.raises_elementSpan base _ index _ herror
  · exact Image.noTimeout_of_attempt (Prod.ext h rfl)

/-- A run of elements stops at the first fault. -/
theorem noTimeout_storeElements (op : Operator) (operands : List (Array Int)) (base : Nat)
    (indices : List Nat) (h : (m.storeElements op operands base indices image).1 = some fault) :
    fault.NoTimeout := by
  induction indices generalizing image with
  | nil => cases h
  | cons index rest ih =>
    unfold storeElements at h
    split at h
    · rename_i hstore
      exact m.noTimeout_storeElement op operands base index ((congrArg Prod.fst hstore).trans h)
    · exact ih h

/-- A tile is stored at the address of its output. -/
theorem noTimeout_storeTile (i : Nat) (tile : Tile) (operands : List (Array Int))
    (h : (m.storeTile i tile operands image).1 = some fault) : fault.NoTimeout := by
  unfold storeTile at h
  dsimp only at h
  split at h
  · rename_i herror
    cases h
    exact m.raises_addressOf _ _ herror
  · exact m.noTimeout_storeElements _ operands _ _ h

/-- The end of an operator stores the handshake word. -/
theorem noTimeout_complete (i : Nat) (h : (m.complete i image).fault = some fault) :
    fault.NoTimeout := by
  unfold complete at h
  dsimp only at h
  split at h
  · rename_i hattempt
    cases h
    exact Image.noTimeout_of_attempt hattempt
  · split at h <;> cases h

/-- The end of a fetch reads the operands and clears the output. -/
theorem noTimeout_latch (i : Nat) (h : (m.latch i image).fault = some fault) : fault.NoTimeout := by
  unfold latch at h
  dsimp only at h
  split at h
  · rename_i herror
    cases h
    exact m.raises_readOperands image _ _ herror
  · rename_i herror
    cases h
    exact m.raises_addressOf _ _ herror
  · split at h
    · rename_i hattempt
      cases h
      exact Image.noTimeout_of_attempt hattempt
    · cases h

/-- The end of a tile stores it, and perhaps completes the operator. -/
theorem noTimeout_finishTile (i : Nat) (tile : Tile) (later : List Tile)
    (operands : List (Array Int))
    (h : (m.finishTile i tile later operands image).fault = some fault) : fault.NoTimeout := by
  unfold finishTile at h
  split at h
  · rename_i hstore
    cases h
    exact m.noTimeout_storeTile i tile operands (congrArg Prod.fst hstore)
  · split at h
    · cases h
    · exact m.noTimeout_complete i h

/-- **The machine raises no timeout.** It fails at the image, at a layout or at
what the compiler left out, and its status can always be read. -/
theorem noTimeout : Device.NoTimeout Machine := by
  rintro m image error (hfault | ⟨-, hread⟩)
  · change (m.step image).fault = some error at hfault
    unfold step at hfault
    split at hfault
    · unfold launch at hfault
      dsimp only at hfault
      split at hfault <;> cases hfault
    · split at hfault
      · cases hfault
      · split at hfault
        · cases hfault
        · exact m.noTimeout_latch _ hfault
      · split at hfault
        · cases hfault
        · exact m.noTimeout_finishTile _ _ _ _ hfault
  · cases hread

end Machine

/-- A valid configuration has a limit of at least one cycle. -/
theorem SimulationConfig.maxCycles_pos {c : SimulationConfig} (h : c.validate = .ok ()) :
    0 < c.maxCycles := by
  unfold validate at h
  split at h
  · cases h
  · omega

namespace Bench

variable {σ κ : Type} [Device σ] [Clock κ] {b b' : Bench σ κ} {fuel last n : Nat}

/-! ## Polling -/

/-- Edge `k` of the device from now on. -/
def edgeAt (b : Bench σ κ) (k : Nat) : Edge σ :=
  Device.edgeUnder Device.quiet b.device b.image k

/-- The cycles that have passed since the start when edge `k` from now on is
over. -/
def elapsedAt (b : Bench σ κ) (k : Nat) : Nat :=
  (Clock.tick (Clock.after k b.clock)).1 - b.startedAt

omit [Device σ] in
theorem elapsedAt_zero (b : Bench σ κ) : (Clock.tick b.clock).1 - b.startedAt = b.elapsedAt 0 := rfl

/-- Edges are counted from where the bench is. -/
theorem edgeAt_afterEdge (b : Bench σ κ) (k : Nat) : b.afterEdge.edgeAt k = b.edgeAt (k + 1) :=
  (Device.edgeUnder_quiet_succ b.device b.image k).symm

/-- How edge `last` ends the loop: it fails, the device is done, or the time is
over. -/
inductive PollEnds (b : Bench σ κ) (last : Nat) : Except SimulationError Nat → Prop
  | failed {error : SimulationError} : (b.edgeAt last).Fails error → PollEnds b last (.error error)
  | completed : (b.edgeAt last).Completes → PollEnds b last (.ok (b.elapsedAt last))
  | timedOut : (b.edgeAt last).Pending → b.config.maxCycles ≤ b.elapsedAt last →
      PollEnds b last (.error (.timeout (Device.name (b.edgeAt last).device) (b.elapsedAt last)))

/-- The loop goes on past every edge before `last` and makes that one. The bench
has then made `last + 1` edges of its clock, and as many of its device. -/
structure Rounds (b : Bench σ κ) (last : Nat) (b' : Bench σ κ) : Prop where
  before : ∀ k < last, (b.edgeAt k).Pending ∧ b.elapsedAt k < b.config.maxCycles
  clock : b'.clock = Clock.after (last + 1) b.clock
  device : b'.device = (b.edgeAt last).device

/-- The loop ends with edge `last`. -/
structure Polls (b : Bench σ κ) (last : Nat) (outcome : Except SimulationError Nat)
    (b' : Bench σ κ) : Prop
    extends b.Rounds last b' where
  ends : b.PollEnds last outcome
  image : b'.image = (b.edgeAt last).image
  design : b'.design = b.design

/-- An edge that fails is made all the same, and its error is passed on. -/
theorem runFrom_edge_fault {error : SimulationError} (h : (b.edgeAt 0).fault = some error) :
    runFrom (edge : Action σ κ Nat) b = (.error error, b.afterEdge) := by
  have hfault : (Device.step b.device b.image).fault = some error := h
  rw [edge, runFrom_bind, runFrom_modifyGet]
  dsimp only
  rw [runFrom_get_bind, runFrom_bind, runFrom_set]
  dsimp only
  rw [hfault]
  rfl

/-- An edge that fails ends the wait with its error. -/
theorem runFrom_poll_failed {error : SimulationError} (h : (b.edgeAt 0).Fails error) :
    runFrom (poll (fuel + 1) : Action σ κ Nat) b = (.error error, b.afterEdge) := by
  rcases h with hfault | ⟨hfault, hread⟩
  · rw [poll, runFrom_bind, runFrom_edge_fault hfault]
  · have hread' : Device.readControl b.afterEdge.device Register.status.offset =
        .error error := hread
    rw [poll, runFrom_bind, runFrom_edge_ok hfault]
    dsimp only
    rw [runFrom_get_bind]
    simp only [hread', runFrom_bind, runFrom_liftM]

/-- **The first edge is the last** unless it is pending and there is time. -/
theorem polls_zero (hend : (b.edgeAt 0).Pending → b.config.maxCycles ≤ b.elapsedAt 0) :
    b.Polls 0 (runFrom (poll (fuel + 1)) b).1 (runFrom (poll (fuel + 1)) b).2 := by
  rcases (b.edgeAt 0).fails_or_completes_or_pending with ⟨error, hfails⟩ | hdone | hpending
  · rw [runFrom_poll_failed hfails]
    exact ⟨⟨by simp, rfl, rfl⟩, .failed hfails, rfl, rfl⟩
  · obtain ⟨status, hread, hstatus⟩ := hdone.2
    rw [runFrom_poll_succ_of_read hdone.1 hread, if_pos hstatus]
    exact ⟨⟨by simp, rfl, rfl⟩, .completed hdone, rfl, rfl⟩
  · obtain ⟨status, hread, hstatus⟩ := hpending.2
    rw [runFrom_poll_succ_of_read hpending.1 hread, elapsedAt_zero, if_neg (not_not.2 hstatus),
      if_pos (hend hpending)]
    exact ⟨⟨by simp, rfl, rfl⟩, .timedOut hpending (hend hpending), rfl, rfl⟩

/-- Edges after a pending one end the loop as they would from there. -/
theorem PollEnds.of_afterEdge {outcome : Except SimulationError Nat}
    (h : b.afterEdge.PollEnds last outcome) :
    b.PollEnds (last + 1) outcome := by
  have hedge := b.edgeAt_afterEdge last
  cases h with
  | failed hfails => exact .failed (hedge ▸ hfails)
  | completed hdone => exact .completed (hedge ▸ hdone)
  | timedOut hpending htime =>
    rw [hedge] at hpending ⊢
    exact .timedOut hpending htime

/-- A wait whose first edge is pending within the limit goes on after it. This
is the step of the induction over the edges. -/
theorem Polls.of_afterEdge {outcome : Except SimulationError Nat} (hpending : (b.edgeAt 0).Pending)
    (htime : b.elapsedAt 0 < b.config.maxCycles) (h : b.afterEdge.Polls last outcome b') :
    b.Polls (last + 1) outcome b' where
  before := by
    intro k hk
    cases k with
    | zero => exact ⟨hpending, htime⟩
    | succ k =>
      have hbefore := h.before k (by omega)
      rwa [edgeAt_afterEdge] at hbefore
  ends := h.ends.of_afterEdge
  clock := h.clock
  device := h.device.trans (congrArg Edge.device (b.edgeAt_afterEdge last))
  image := h.image.trans (congrArg Edge.image (b.edgeAt_afterEdge last))
  design := h.design

/-- **Polling ends at an edge where the time is over, or before.** The induction
is on the edges that are left until then: an edge that does not end the loop
leaves one less. -/
theorem exists_polls (hfuel : n < fuel) (htime : b.config.maxCycles ≤ b.elapsedAt n) :
    ∃ last ≤ n, b.Polls last (runFrom (poll fuel) b).1 (runFrom (poll fuel) b).2 := by
  obtain ⟨fuel, rfl⟩ := Nat.exists_eq_add_of_le' (Nat.lt_of_le_of_lt n.zero_le hfuel)
  induction n generalizing b fuel with
  | zero => exact ⟨0, le_rfl, polls_zero fun _ => htime⟩
  | succ n ih =>
    by_cases hend : (b.edgeAt 0).Pending → b.config.maxCycles ≤ b.elapsedAt 0
    · exact ⟨0, Nat.zero_le _, polls_zero hend⟩
    · obtain ⟨hpending, hleft⟩ : (b.edgeAt 0).Pending ∧ ¬b.config.maxCycles ≤ b.elapsedAt 0 := by
        simpa using hend
      obtain ⟨status, hread, hstatus⟩ := hpending.2
      obtain ⟨fuel, rfl⟩ := Nat.exists_eq_add_of_le' (show 1 ≤ fuel by omega)
      obtain ⟨last, hlast, hpolls⟩ := ih (b := b.afterEdge) htime fuel (by omega)
      rw [runFrom_poll_succ_of_read hpending.1 hread, elapsedAt_zero, if_neg (not_not.2 hstatus),
        if_neg hleft]
      exact ⟨last + 1, by omega, hpolls.of_afterEdge hpending (not_le.1 hleft)⟩

/-! ## The start -/

/-- The bench comes from an idle one by calls, whether these succeed or not. -/
def Reached (b : Bench σ κ) : Prop :=
  ∃ (b₀ : Bench σ κ) (actions : List BenchAction), b₀.state = .idle ∧ (b₀.callAll actions).2 = b

/-- While the device runs and nobody waits, the clock stands where it was at the
start. -/
def Stamped (b : Bench σ κ) : Prop :=
  b.state = .running → b.startedAt = Clock.cycles b.clock

/-- A call leaves a running bench only if it is the start, which takes the time,
or if it is refused. -/
theorem Stamped.call (h : b.Stamped) (action : BenchAction) : (b.call action).2.Stamped := by
  intro hrunning
  by_cases hs : b.state = action.source
  · cases hcall : (b.call action).1 with
    | error e =>
      rw [call_failed hs hcall] at hrunning
      cases action <;> cases hrunning
    | ok a =>
      rw [(call_ok hcall).2] at hrunning
      cases action with
      | start =>
        obtain ⟨s, journal, -, heq⟩ :=
          start_ok (Prod.ext hcall rfl : runFrom start b = (.ok a, (b.call .start).2))
        rw [heq]
        rfl
      | address | wait | verify => cases hrunning
  · rw [call_refused hs] at hrunning ⊢
    exact h hrunning

/-- So it is with a sequence of calls. -/
theorem Stamped.callAll (h : b.Stamped) (actions : List BenchAction) :
    (b.callAll actions).2.Stamped := by
  induction actions generalizing b with
  | nil => exact h
  | cons action actions ih => exact ih (h.call action)

/-- Every bench that calls lead to is stamped, since an idle one is. -/
theorem Reached.stamped (h : b.Reached) : b.Stamped := by
  obtain ⟨b₀, actions, hidle, rfl⟩ := h
  exact Stamped.callAll (fun hrunning => by rw [hidle] at hrunning; cases hrunning) actions

/-! ## Waiting -/

/-- How edge `last` ends waiting: as it ends the loop, and once the device is
done the counter is read. -/
def WaitEnds (b : Bench σ κ) (last : Nat) (outcome : Except SimulationError Nat) : Prop :=
  ∃ polled, b.PollEnds last polled ∧ outcome = do
    let elapsed ← polled
    let _ ← (b.edgeAt last).image.readWord b.design.memory.handshake
    return elapsed

/-- The state of the bench has no part in the loop. -/
theorem PollEnds.of_inState {outcome : Except SimulationError Nat} {state : BenchState}
    (h : (b.inState state).PollEnds last outcome) : b.PollEnds last outcome := by
  cases h with
  | failed hfails => exact .failed hfails
  | completed hdone => exact .completed hdone
  | timedOut hpending htime => exact .timedOut hpending htime

omit [Device σ] in
/-- The time is over with the last of as many edges as the limit has cycles. -/
theorem maxCycles_le_elapsedAt (hstart : b.startedAt = Clock.cycles b.clock)
    (hpos : 0 < b.config.maxCycles) (hclock : Clock.Advances b.clock b.config.maxCycles) :
    b.config.maxCycles ≤ b.elapsedAt (b.config.maxCycles - 1) := by
  have hcount := hclock.counts (b.config.maxCycles - 1) (by omega)
  rw [Nat.sub_add_cancel hpos] at hcount
  have hle := hclock.add_le le_rfl
  rw [elapsedAt, hcount, hstart]
  omega

/-- **Waiting ends for every device.** -/
theorem exists_waitEnds (hrunning : b.state = .running)
    (hstart : b.startedAt = Clock.cycles b.clock) (hpos : 0 < b.config.maxCycles)
    (hclock : Clock.Advances b.clock b.config.maxCycles) :
    ∃ last < b.config.maxCycles, b.Rounds last (b.call .wait).2 ∧
      b.WaitEnds last (b.call .wait).1 := by
  have hfuel : b.config.maxCycles - 1 < max b.config.maxCycles (Nat.pow 2 62) :=
    lt_of_lt_of_le (by omega) (le_max_left _ _)
  obtain ⟨last, hlast, hpolls⟩ := exists_polls (b := b.inState .waiting) hfuel
    (maxCycles_le_elapsedAt hstart hpos hclock)
  have hwait := runFrom_wait hrunning
  rcases hpoll : runFrom (poll (max b.config.maxCycles (Nat.pow 2 62))) (b.inState .waiting) with
    ⟨e | elapsed, b₁⟩ <;> rw [hpoll] at hwait hpolls <;> dsimp only at hwait hpolls
  · have hcall : b.call .wait = (.error e, b₁) := hwait
    rw [hcall]
    exact ⟨last, by omega, ⟨hpolls.before, hpolls.clock, hpolls.device⟩, _,
      hpolls.ends.of_inState, rfl⟩
  · have hread : (b.edgeAt last).image.readWord b.design.memory.handshake =
        b₁.image.readWord b₁.design.memory.handshake := by rw [hpolls.image, hpolls.design]; rfl
    cases hword : b₁.image.readWord b₁.design.memory.handshake with
    | error e =>
      rw [hword] at hwait hread
      have hcall : b.call .wait = (.error e, { b₁ with cycles := elapsed }) := hwait
      rw [hcall]
      refine ⟨last, by omega, ⟨hpolls.before, hpolls.clock, hpolls.device⟩, _,
        hpolls.ends.of_inState, ?_⟩
      rw [hread]
      rfl
    | ok counter =>
      rw [hword] at hwait hread
      obtain ⟨events, hwait⟩ := hwait
      have hcall : b.call .wait = (.ok elapsed, (b₁.noted events).waited elapsed counter) := hwait
      rw [hcall]
      refine ⟨last, by omega, ⟨hpolls.before, hpolls.clock, hpolls.device⟩, _,
        hpolls.ends.of_inState, ?_⟩
      rw [hread]
      rfl

namespace WaitEnds

variable {name : String} {c : Nat}

/-- Waiting succeeds with the time that has passed. -/
theorem eq_elapsedAt (h : b.WaitEnds last (.ok c)) : c = b.elapsedAt last := by
  obtain ⟨polled, hends, heq⟩ := h
  obtain ⟨elapsed, rfl, hcounter⟩ := bind_ok_iff.1 heq.symm
  obtain ⟨-, -, helapsed⟩ := bind_ok_iff.1 hcounter
  cases hends with
  | completed _ => exact (pure_ok_iff.1 helapsed).symm

/-- **What the device raises is passed on as it is.** -/
theorem of_fails {outcome : Except SimulationError Nat} {error : SimulationError}
    (h : b.WaitEnds last outcome) (hfails : (b.edgeAt last).Fails error) :
    outcome = .error error := by
  obtain ⟨polled, hends, rfl⟩ := h
  cases hends with
  | failed hfails' => rw [hfails.unique hfails']; rfl
  | completed hdone => exact absurd hfails (hdone.not_fails error)
  | timedOut hpending _ => exact absurd hfails (hpending.not_fails error)

/-- **A timeout is the device's own, or one of a device that is not done when
the time is over.** Where the device is done, all that can fail is to read the
counter. -/
theorem timeout (h : b.WaitEnds last (.error (.timeout name c))) :
    (b.edgeAt last).Fails (.timeout name c) ∨
      (b.edgeAt last).Pending ∧ b.config.maxCycles ≤ c ∧ c = b.elapsedAt last ∧
        name = Device.name (b.edgeAt last).device := by
  obtain ⟨polled, hends, heq⟩ := h
  cases hends with
  | failed hfails =>
    cases heq
    exact .inl hfails
  | timedOut hpending htime =>
    cases heq
    exact .inr ⟨hpending, htime, rfl, rfl⟩
  | completed _ =>
    cases hword : (b.edgeAt last).image.readWord b.design.memory.handshake with
    | ok counter =>
      rw [hword] at heq
      cases heq
    | error e =>
      obtain rfl := Image.readWord_error hword
      rw [hword] at heq
      cases heq

end WaitEnds

omit [Device σ] in
/-- With a cycle for each edge, the time that has passed is the number of
edges. -/
theorem elapsedAt_cycleClock {b : Bench σ CycleClock}
    (hstart : b.startedAt = Clock.cycles b.clock) (k : Nat) :
    b.elapsedAt k = k + 1 := by
  have hcycles : Clock.cycles b.clock = b.clock.cycles := rfl
  rw [elapsedAt, Clock.tick_after, hstart, hcycles]
  omega

/-- **Waiting in bounded time.** Let a bench come to run its device by any
calls, with any device, and with a clock that advances. Then waiting ends within
as many edges as the limit has cycles, each of them an edge of the clock and of
the device. What the device raises at the last edge is passed on as it is. Any
other timeout gives the cycles since the start, which reach the limit, and names
a device that is not done after the last edge; a device that is done at this
edge is in time. If the clock counts a cycle for each edge, then the result is
the number of edges, and a timeout that the device did not raise says the limit.
The machine raises no timeout. -/
theorem wait_bounded :
    (∀ (σ κ : Type) [Device σ] [Clock κ] (b : Bench σ κ), b.Reached → b.state = .running →
      b.config.validate = .ok () → Clock.Advances b.clock b.config.maxCycles →
      ∃ last < b.config.maxCycles, b.Rounds last (b.call .wait).2 ∧
        b.WaitEnds last (b.call .wait).1 ∧
        (∀ error, (b.edgeAt last).Fails error → (b.call .wait).1 = .error error) ∧
        (∀ name c, (b.call .wait).1 = .error (.timeout name c) →
          (b.edgeAt last).Fails (.timeout name c) ∨
          b.config.maxCycles ≤ c ∧ c = b.elapsedAt last ∧
            name = Device.name (b.edgeAt last).device ∧
            ¬Device.ShowsDone (b.edgeAt last).device) ∧
        ((b.edgeAt last).Completes → ∀ name c, (b.call .wait).1 ≠ .error (.timeout name c))) ∧
    (∀ (σ : Type) [Device σ] (b : Bench σ CycleClock), b.Reached → b.state = .running →
      b.config.validate = .ok () →
      ∃ last < b.config.maxCycles, b.Rounds last (b.call .wait).2 ∧
        (∀ c : Nat, (b.call .wait).1 = .ok c → c = last + 1 ∧ 1 ≤ c ∧ c ≤ b.config.maxCycles) ∧
        ∀ name c, (b.call .wait).1 = .error (.timeout name c) →
          (b.edgeAt last).Fails (.timeout name c) ∨ c = b.config.maxCycles) ∧
    Device.NoTimeout Machine := by
  refine ⟨?_, ?_, Machine.noTimeout⟩
  · intro σ κ _ _ b hreached hrunning hvalid hclock
    obtain ⟨last, hlast, hrounds, hends⟩ :=
      exists_waitEnds hrunning (hreached.stamped hrunning)
        (SimulationConfig.maxCycles_pos hvalid) hclock
    refine ⟨last, hlast, hrounds, hends, fun error => hends.of_fails, fun name c htimeout => ?_,
      fun hdone name c htimeout => ?_⟩
    · rw [htimeout] at hends
      refine hends.timeout.imp_right ?_
      rintro ⟨hpending, htime, hc, hname⟩
      exact ⟨htime, hc, hname, hpending.not_showsDone⟩
    · rw [htimeout] at hends
      rcases hends.timeout with hfails | ⟨hpending, -, -, -⟩
      · exact hdone.not_fails _ hfails
      · exact hpending.not_showsDone hdone.2
  · intro σ _ b hreached hrunning hvalid
    have hstart := hreached.stamped hrunning
    obtain ⟨last, hlast, hrounds, hends⟩ :=
      exists_waitEnds hrunning hstart (SimulationConfig.maxCycles_pos hvalid)
        (Clock.advances_cycleClock _ _)
    have helapsed := elapsedAt_cycleClock hstart last
    refine ⟨last, hlast, hrounds, fun c hok => ?_, fun name c htimeout => ?_⟩
    · rw [hok] at hends
      have hc := hends.eq_elapsedAt
      omega
    · rw [htimeout] at hends
      refine hends.timeout.imp_right ?_
      rintro ⟨-, htime, hc, -⟩
      omega

/-- The dense layer is done at its edge 34, which is in time where this edge
reaches the limit. -/
theorem wait_bounded_dense : ∃ b : Bench Machine CycleClock, b.Reached ∧ b.state = .running ∧
    b.config.maxCycles = 34 ∧ (b.call .wait).1 = .ok (34 : Nat) ∧ b.Rounds 33 (b.call .wait).2 ∧
    ∃ last < 34, b.WaitEnds last (b.call .wait).1 := by
  have hrun : (dense 34).toOption.map (fun b₀ =>
      let b := (b₀.callAll [.address, .start]).2
      (b₀.state, b.state, b.config.maxCycles,
        ((b.call .wait).1 : Except SimulationError Nat).toOption)) =
        some (.idle, .running, 34, some 34) := by decide +kernel
  obtain ⟨b₀, -, hread⟩ := Option.map_eq_some_iff.1 hrun
  simp only [Prod.mk.injEq] at hread
  obtain ⟨hidle, hrunning, hmax, hcycles⟩ := hread
  have hok : ((b₀.callAll [.address, .start]).2.call .wait).1 = .ok (34 : Nat) :=
    toOption_eq_some_iff.1 hcycles
  have hreached : (b₀.callAll [.address, .start]).2.Reached := ⟨b₀, _, hidle, rfl⟩
  generalize (b₀.callAll [.address, .start]).2 = b at hrunning hmax hok hreached
  have hvalid : b.config.validate = .ok () := by rw [SimulationConfig.validate, hmax]; rfl
  obtain ⟨last, -, hrounds, hcycles, -⟩ := wait_bounded.2.1 Machine b hreached hrunning hvalid
  obtain ⟨last', hlast', -, hends, -⟩ :=
    wait_bounded.1 Machine CycleClock b hreached hrunning hvalid
    (Clock.advances_cycleClock _ _)
  obtain rfl : last = 33 := by
    have hlast := (hcycles 34 hok).1
    omega
  exact ⟨b, hreached, hrunning, hmax, hok, hrounds, last', hmax ▸ hlast', hends⟩

-- one cycle less, and the bench is left waiting
example : ((dense 33).toOption.map fun b => (b.callAll [.address, .start, .wait]).2.state) =
    some .waiting := by
  decide +kernel

/-- A device that gives up at once: from its start on, every edge raises a
timeout. -/
structure Impatient where
  ports : List Port
  started : Bool := false

instance : Device Impatient where
  name _ := "impatient"
  ports d := d.ports
  reset d := { d with started := false }
  writeControl d offset _ :=
    { device := { d with started := d.started || offset == Register.start.offset } }
  readControl _ _ := .ok 0
  step d image :=
    { device := d, image, fault := if d.started then some (.timeout "impatient" 0) else none }

/-- The design of the dense layer on a bench with such a device. -/
def impatient : Except SimulationError (Bench Impatient CycleClock) := do
  let c ← Graph.denseCompilation.mapError .compile
  let stimulus ←
    (Stimulus.ofInputs c.design.graph fun _ => some #[1, 2, 3, -1, 0, 5]).mapError .graph
  create c.design ⟨Device.ports c.product, false⟩ {} stimulus { maxCycles := 34 }

/-- **A timeout need not come from the bench.** A device that raises one at its
first edge is passed on as it is: no cycle has passed of the 34 that it has. -/
theorem wait_passes_timeout : ∃ b : Bench Impatient CycleClock, b.Reached ∧ b.state = .running ∧
    b.config.validate = .ok () ∧ Clock.Advances b.clock b.config.maxCycles ∧
    (b.call .wait).1 = .error (.timeout "impatient" 0) ∧ ¬b.config.maxCycles ≤ 0 := by
  have hrun : impatient.toOption.map (fun b₀ =>
      let b := (b₀.callAll [.address, .start]).2
      (b₀.state, b.state, b.config.maxCycles, b.device.started)) =
        some (.idle, .running, 34, true) := by decide +kernel
  obtain ⟨b₀, -, hread⟩ := Option.map_eq_some_iff.1 hrun
  simp only [Prod.mk.injEq] at hread
  obtain ⟨hidle, hrunning, hmax, hstarted⟩ := hread
  have hreached : (b₀.callAll [.address, .start]).2.Reached := ⟨b₀, _, hidle, rfl⟩
  generalize (b₀.callAll [.address, .start]).2 = b at hrunning hmax hstarted hreached
  have hclock := Clock.advances_cycleClock b.clock b.config.maxCycles
  have hfails : (b.edgeAt 0).Fails (.timeout "impatient" 0) := .inl (if_pos hstarted)
  obtain ⟨last, -, hrounds, hends⟩ := exists_waitEnds hrunning (hreached.stamped hrunning)
    (by omega) hclock
  -- the first edge fails, so none is made after it
  obtain rfl : last = 0 := by
    by_contra hne
    exact (hrounds.before 0 (by omega)).1.not_fails _ hfails
  have hvalid : b.config.validate = .ok () := by rw [SimulationConfig.validate, hmax]; rfl
  exact ⟨b, hreached, hrunning, hvalid, hclock, hends.of_fails hfails, by omega⟩

end Bench

end QuantAccel
