import QuantAccel.Proofs.Refinement

/-!
# The host of a machine

A host reaches a device through its control port, its clock and its reset, in
any order. An access to the control port moves nothing but registers, and a
machine that is busy with no request pending (`Engaged`) ignores every write to
START and STATUS. So nothing that a host does there can disturb a run, and a
machine that an edge has stopped stays stopped: it is still busy, it has no
work, and no request can reach it.
-/

namespace QuantAccel

/-- An access to the control port. -/
inductive ControlAccess where
  | read (offset : UInt32)
  | write (offset value : UInt32)
  deriving Repr, DecidableEq

/-- The access that requests a start. -/
def ControlAccess.strobe : ControlAccess := .write Register.start.offset startStrobe

/-- What a host can do to a device. -/
inductive DeviceCall where
  | control (access : ControlAccess)
  | edge (image : Image)
  | reset

/-- Accesses that move neither base of the machine: reads, writes to START and
STATUS, and writes to no register at all. -/
def ControlAccess.Harmless : ControlAccess → Prop
  | .read _ => True
  | .write offset _ =>
    offset = Register.start.offset ∨ offset = Register.status.offset ∨
      Register.ofOffset? offset = none

/-! ## Devices under a host -/

namespace Device

variable {σ : Type} [Device σ]

/-- The device after an access, whether this is refused or not. -/
def access (s : σ) : ControlAccess → σ
  | .read _ => s
  | .write offset value => (writeControl s offset value).device

def call (s : σ) : DeviceCall → σ
  | .control a => access s a
  | .edge image => (step s image).device
  | .reset => reset s

/-- The device after calls one after the other. -/
def afterCalls (s : σ) (calls : List DeviceCall) : σ := calls.foldl call s

/-- Edge `n` of a run, where the host makes the accesses `host k` between the
edges `k` and `k + 1`. -/
def edgeUnder (host : Nat → List ControlAccess) (s : σ) (image : Image) : Nat → Edge σ
  | 0 => step s image
  | n + 1 => step ((host n).foldl access (edgeUnder host s image n).device)
    (edgeUnder host s image n).image

/-- A host that waits. -/
def quiet : Nat → List ControlAccess := fun _ => []

/-- A host that never leaves a device alone. -/
def insistent : Nat → List ControlAccess := fun n =>
  [.strobe, .write Register.status.offset Status.done, .write 0x40 (UInt32.ofNat n),
    .read Register.status.offset]

/-- The status register of a device reads DONE. -/
def ShowsDone (s : σ) : Prop :=
  ∃ status, readControl s Register.status.offset = .ok status ∧ status &&& Status.done ≠ 0

/-- What every call keeps, calls one after the other keep. -/
theorem afterCalls_keeps {P : σ → Prop} {calls : List DeviceCall}
    (hcall : ∀ s, ∀ a ∈ calls, P s → P (call s a)) {s : σ} (hs : P s) : P (afterCalls s calls) := by
  unfold afterCalls
  induction calls generalizing s with
  | nil => exact hs
  | cons a calls ih =>
    exact ih (fun s b hb => hcall s b (.tail _ hb)) (hcall s a (.head _) hs)

/-- Runs that agree until DONE show it first at the same edge. -/
theorem isLeast_showsDone_iff {run run' : Nat → Edge σ}
    (h : ∀ n, (∀ k < n, ¬ShowsDone (run' k).device) → run n = run' n) (n : Nat) :
    IsLeast {k | ShowsDone (run k).device} n ↔ IsLeast {k | ShowsDone (run' k).device} n := by
  constructor
  · rintro ⟨hdone, hleast⟩
    have hearlier : ∀ k < n, ¬ShowsDone (run' k).device := by
      intro k
      induction k using Nat.strong_induction_on with
      | _ k ih =>
        intro hk hdone'
        have hagree := h k fun j hj => ih j hj (lt_trans hj hk)
        exact absurd (hleast (show ShowsDone (run k).device from hagree ▸ hdone')) (not_le.2 hk)
    exact ⟨show ShowsDone _ from h n hearlier ▸ hdone,
      fun k hk => not_lt.1 fun hlt => hearlier k hlt hk⟩
  · rintro ⟨hdone, hleast⟩
    have hearlier : ∀ k < n, ¬ShowsDone (run' k).device := fun k hk hdone' =>
      absurd (hleast hdone') (not_le.2 hk)
    refine ⟨show ShowsDone _ from (h n hearlier).symm ▸ hdone, fun k hk => not_lt.1 fun hlt => ?_⟩
    have hagree := h k fun j hj => hearlier j (lt_trans hj hlt)
    exact hearlier k hlt (hagree ▸ hk)

end Device

namespace Machine

open Device (Steps access call afterCalls edgeUnder quiet insistent ShowsDone)

variable {m : Machine} {image : Image}

theorem showsDone_iff : ShowsDone m ↔ m.registers.status &&& Status.done ≠ 0 := by
  simp [ShowsDone, Device.readControl, Registers.read, Register.ofOffset?, Register.offset,
    Registers.get]

theorem showsDone_of_status (h : m.registers.status = Status.done) : ShowsDone m :=
  showsDone_iff.2 (by rw [h]; decide)

/-- A busy machine does not show that it is done. -/
theorem Busy.not_showsDone (h : m.Busy) : ¬ShowsDone m := by
  rw [showsDone_iff, show m.registers.status = Status.busy from h]
  decide

/-! ## Accesses to a machine -/

theorem access_register (m : Machine) (r : Register) (value : UInt32) :
    access m (.write r.offset value) = { m with registers := m.registers.set value r } :=
  (ControlWrite.outcome_eq_ok.1 (writeControl_eq m r value)).2

/-- A write to no register is refused, and changes nothing. -/
theorem access_unknown (m : Machine) {offset : UInt32} (h : Register.ofOffset? offset = none)
    (value : UInt32) :
    access m (.write offset value) = m := by
  simp only [access, Device.writeControl, ControlWrite.ofTraced, Registers.write, h,
    Traced.outcome_bind, Traced.outcome_note, Traced.outcome_throw]
  rfl

/-- An access leaves all but the registers, and the status among them; and it
makes a request only where the machine is not busy. -/
theorem access_spec (m : Machine) (a : ControlAccess) : ∃ registers : Registers,
    access m a = { m with registers } ∧ registers.status = m.registers.status ∧
      (registers.start → m.registers.start ∨ m.registers.status &&& Status.busy = 0) := by
  cases a with
  | read => exact ⟨m.registers, rfl, rfl, .inl⟩
  | write offset value =>
    cases h : Register.ofOffset? offset with
    | none => exact ⟨m.registers, access_unknown m h value, rfl, .inl⟩
    | some r =>
      obtain rfl : r.offset = offset := by simpa using List.find?_some h
      refine ⟨_, access_register m r value, ?_⟩
      cases r with
      | start => exact ⟨rfl, fun hstart => .inr (by simpa using (Bool.and_eq_true_iff.1 hstart).2)⟩
      | status => exact ⟨rfl, .inl⟩
      | globalAddress => exact ⟨rfl, .inl⟩
      | handshakeAddress => exact ⟨rfl, .inl⟩

/-! ## Runs under a host -/

/-- Busy, with no request pending. -/
structure Engaged (m : Machine) : Prop where
  start : m.registers.start = false
  busy : m.Busy

/-- No access makes a request of a busy machine. -/
theorem Engaged.access (h : m.Engaged) (a : ControlAccess) :
    (access m a).Engaged ∧ (access m a).phase = m.phase := by
  obtain ⟨registers, heq, hstatus, hstart⟩ := access_spec m a
  rw [heq]
  refine ⟨⟨Bool.eq_false_iff.2 fun hrequest => ?_, hstatus.trans h.busy⟩, rfl⟩
  rcases hstart hrequest with hpending | hidle
  · exact absurd hpending (by simp [h.start])
  · rw [h.busy] at hidle
    exact absurd hidle (by decide)

/-- A busy machine does not notice a harmless access. -/
theorem Engaged.access_harmless (h : m.Engaged) {a : ControlAccess} (ha : a.Harmless) :
    Device.access m a = m := by
  cases a with
  | read => rfl
  | write offset value =>
    rcases ha with rfl | rfl | hnone
    · have hset : m.registers.set value .start = { m.registers with start := false } := by
        have hbusy : m.registers.status = Status.busy := h.busy
        simp [Registers.set, hbusy, Status.busy]
      rw [access_register, hset, ← h.start]
    · exact access_register m .status value
    · exact access_unknown m hnone value

/-- A machine that is engaged is not moved by harmless accesses, however
many. -/
theorem Engaged.accesses_harmless (h : m.Engaged) {accesses : List ControlAccess}
    (haccesses : ∀ a ∈ accesses, a.Harmless) : accesses.foldl Device.access m = m := by
  induction accesses with
  | nil => rfl
  | cons a rest ih =>
    rw [List.foldl_cons, h.access_harmless (haccesses a (.head _))]
    exact ih fun b hb => haccesses b (.tail _ hb)

/-- Only DONE ends the engagement: a fault does not. -/
theorem Engaged.step (h : m.Engaged) (image : Image) :
    (Device.step m image).device.Engaged ∨ ShowsDone (Device.step m image).device := by
  by_cases hphase : m.phase = .idle
  · rw [(steps_idle h.start hphase image).device_eq]
    exact .inl h
  obtain ⟨phase, completed, -, hdevice⟩ | ⟨completed, -, hdevice⟩ | ⟨completed, -, hdevice⟩ :=
    moves_step h.start hphase image
  · rw [hdevice]
    exact .inl ⟨h.start, h.busy⟩
  · rw [hdevice]
    exact .inr (showsDone_of_status rfl)
  · rw [hdevice]
    exact .inl ⟨h.start, h.busy⟩

/-- The edge that takes a request engages the machine, unless it has nothing to
do. -/
theorem engaged_launch (hstart : m.registers.start) (image : Image) :
    (Device.step m image).device.Engaged ∨ ShowsDone (Device.step m image).device := by
  rw [(steps_launch hstart image).device_eq, arrived]
  split
  · exact .inl ⟨rfl, rfl⟩
  · exact .inr (showsDone_of_status rfl)

/-- A run engages the machine from its first edge until DONE. -/
theorem engaged_edgeUnder (hstart : m.registers.start) (image : Image) {n : Nat}
    (hdone : ∀ k ≤ n, ¬ShowsDone (edgeUnder quiet m image k).device) :
    (edgeUnder quiet m image n).device.Engaged := by
  induction n with
  | zero => exact (engaged_launch hstart image).resolve_right (hdone 0 le_rfl)
  | succ n ih =>
    have hengaged := ih fun k hk => hdone k (by omega)
    exact (hengaged.step _).resolve_right (hdone (n + 1) le_rfl)

/-- **No host disturbs a run through START and STATUS.** Let an edge take a
start request, and let a host read the control port, write to START, to STATUS
and to no register as it likes between this edge and the later ones. Then up to
DONE every edge is as if the host waited (the machine, the image, the events and
the fault), the machine is the same after each access between two edges, and
DONE shows first at the same edge. -/
theorem edgeUnder_harmless (hstart : m.registers.start) (image : Image)
    {host : Nat → List ControlAccess} (hhost : ∀ k, ∀ a ∈ host k, a.Harmless) :
    (∀ n, (∀ k < n, ¬ShowsDone (edgeUnder quiet m image k).device) →
      edgeUnder host m image n = edgeUnder quiet m image n) ∧
    (∀ n, (∀ k ≤ n, ¬ShowsDone (edgeUnder quiet m image k).device) → ∀ made, made <+: host n →
      made.foldl access (edgeUnder host m image n).device = (edgeUnder quiet m image n).device) ∧
    ∀ n, IsLeast {k | ShowsDone (edgeUnder host m image k).device} n ↔
      IsLeast {k | ShowsDone (edgeUnder quiet m image k).device} n := by
  have hagree : ∀ n, (∀ k < n, ¬ShowsDone (edgeUnder quiet m image k).device) →
      edgeUnder host m image n = edgeUnder quiet m image n := by
    intro n hdone
    induction n with
    | zero => rfl
    | succ n ih =>
      have hengaged : (edgeUnder quiet m image n).device.Engaged :=
        engaged_edgeUnder hstart image fun k hk => hdone k (by omega)
      rw [edgeUnder, ih fun k hk => hdone k (by omega), hengaged.accesses_harmless (hhost n)]
      rfl
  refine ⟨hagree, fun n hdone made hmade => ?_, Device.isLeast_showsDone_iff hagree⟩
  rw [hagree n fun k hk => hdone k hk.le]
  exact (engaged_edgeUnder hstart image hdone).accesses_harmless fun a ha =>
    hhost n a (hmade.mem ha)

/-- However insistent the host is, the dense layer shows that it is done after
33 edges, as it does undisturbed. -/
theorem edgeUnder_harmless_dense : ∃ (g : Graph) (c : Compilation Machine),
    (g.compile Graph.denseContext Graph.denseRanges [] ({} : MachineBackend)).result.outcome =
      .ok c ∧
    let m := access c.product .strobe
    let image := Image.filled c.design.memory.size 0
    m.registers.start ∧ (∀ k, ∀ a ∈ insistent k, a.Harmless) ∧
    (∀ n ≤ 33, edgeUnder insistent m image n = edgeUnder quiet m image n) ∧
    IsLeast {k | ShowsDone (edgeUnder insistent m image k).device} 33 := by
  -- both operators take 33 cycles, after the edge that takes the request
  have hok : (Graph.denseCompilation.toOption.any fun c =>
      (access c.product .strobe).registers.start && (List.range 34).all fun k =>
        (edgeUnder quiet (access c.product .strobe)
          (Image.filled c.design.memory.size 0) k).device.registers.status
          == if k = 33 then Status.done else Status.busy) = true := by decide +kernel
  obtain ⟨c, hc, hrun⟩ := (Option.any_eq_true _ _).1 hok
  obtain ⟨g, -, hcompile⟩ := Graph.denseCompilation_ok (toOption_eq_some_iff.1 hc)
  simp only [Bool.and_eq_true, List.all_eq_true, List.mem_range, beq_iff_eq] at hrun
  obtain ⟨hstart, hstatus⟩ := hrun
  have hhost : ∀ k, ∀ a ∈ insistent k, a.Harmless := by
    intro k a ha
    simp only [insistent, List.mem_cons, List.not_mem_nil, or_false] at ha
    rcases ha with rfl | rfl | rfl | rfl
    · exact .inl rfl
    · exact .inr (.inl rfl)
    · exact .inr (.inr (by decide))
    · trivial
  have hbusy : ∀ k < 33, ¬ShowsDone (edgeUnder quiet (access c.product .strobe)
      (Image.filled c.design.memory.size 0) k).device := fun k hk =>
    Busy.not_showsDone ((hstatus k (by omega)).trans (if_neg (by omega)))
  obtain ⟨hedges, -, hdone⟩ := edgeUnder_harmless hstart (Image.filled c.design.memory.size 0) hhost
  refine ⟨g, c, hcompile, hstart, hhost, fun n hn => hedges n fun k hk => hbusy k (by omega),
    (hdone 33).2 ?_⟩
  exact ⟨showsDone_of_status (hstatus 33 (by omega)),
    fun k hk => not_lt.1 fun hlt => hbusy k hlt hk⟩

/-! ## Machines that have failed -/

/-- What holds of a machine whatever its host has done: it is busy while it
works, and a request is pending only where it is not. -/
structure Coherent (m : Machine) : Prop where
  busy : m.phase ≠ .idle → m.Busy
  ready : m.registers.start → m.registers.status &&& Status.busy = 0

/-- Busy for good: there is no work, and no request can be made. -/
structure Stopped (m : Machine) : Prop extends m.Engaged where
  idle : m.phase = .idle

/-- No access makes a machine incoherent. -/
theorem Coherent.access (h : m.Coherent) (a : ControlAccess) : (access m a).Coherent := by
  obtain ⟨registers, heq, hstatus, hstart⟩ := access_spec m a
  rw [heq]
  refine ⟨fun hphase => hstatus.trans (h.busy hphase), fun hrequest => ?_⟩
  rw [hstatus]
  exact (hstart hrequest).elim h.ready id

theorem coherent_of_no_request (hstart : m.registers.start = false)
    (hbusy : m.phase ≠ .idle → m.Busy) :
    m.Coherent :=
  ⟨hbusy, fun hrequest => absurd hrequest (by simp [hstart])⟩

/-- A machine as it was emitted is coherent. -/
theorem coherent_of_fresh (hregisters : m.registers = {}) (hphase : m.phase = .idle) : m.Coherent :=
  coherent_of_no_request (by rw [hregisters]) fun hwork => absurd hphase hwork

/-- No edge makes a request, and the status follows the work. -/
theorem Coherent.step (h : m.Coherent) (image : Image) : (Device.step m image).device.Coherent := by
  by_cases hstart : m.registers.start
  · rw [(steps_launch hstart image).device_eq, arrived]
    split
    · exact coherent_of_no_request rfl fun _ => rfl
    · exact coherent_of_no_request rfl fun hwork => absurd rfl hwork
  · rw [Bool.not_eq_true] at hstart
    by_cases hphase : m.phase = .idle
    · rwa [(steps_idle hstart hphase image).device_eq]
    obtain ⟨phase, completed, -, hdevice⟩ | ⟨completed, -, hdevice⟩ | ⟨completed, -, hdevice⟩ :=
      moves_step hstart hphase image
    · rw [hdevice]
      exact coherent_of_no_request hstart fun _ => h.busy hphase
    · rw [hdevice]
      exact coherent_of_no_request hstart fun hwork => absurd rfl hwork
    · rw [hdevice]
      exact coherent_of_no_request hstart fun hwork => absurd rfl hwork

/-- Coherence is an invariant of every call, a reset included. -/
theorem Coherent.call (h : m.Coherent) (a : DeviceCall) : (call m a).Coherent := by
  cases a with
  | control a => exact h.access a
  | edge image => exact h.step image
  | reset => exact coherent_of_fresh rfl rfl

/-- An edge that fails stops the machine. -/
theorem Coherent.stopped_of_fault (h : m.Coherent) (hfault : (Device.step m image).fault ≠ none) :
    (Device.step m image).device.Stopped := by
  have hstart : m.registers.start = false :=
    Bool.eq_false_iff.2 fun hstart => hfault (steps_launch hstart image).fault_eq
  have hphase : m.phase ≠ .idle := fun hphase => hfault (steps_idle hstart hphase image).fault_eq
  obtain ⟨_, _, hnone, -⟩ | ⟨_, hnone, -⟩ | ⟨completed, -, hdevice⟩ :=
    moves_step hstart hphase image
  · exact absurd hnone hfault
  · exact absurd hnone hfault
  · rw [hdevice]
    exact ⟨⟨hstart, h.busy hphase⟩, rfl⟩

theorem Stopped.steps (h : m.Stopped) (image : Image) : Steps m image m image :=
  steps_idle h.start h.idle image

/-- Only a reset gets a stopped machine going again. -/
theorem Stopped.call (h : m.Stopped) {a : DeviceCall} (ha : a ≠ .reset) : (call m a).Stopped := by
  cases a with
  | control a =>
    obtain ⟨hengaged, hphase⟩ := h.toEngaged.access a
    exact ⟨hengaged, hphase.trans h.idle⟩
  | edge image =>
    rw [Device.call, (h.steps image).device_eq]
    exact h
  | reset => contradiction

/-- **A machine that fails stops.** Let a machine come out of a compilation, let
a host do anything with it, and let an edge fail. Whatever the host does then,
short of a reset, no edge on any image fails again or changes a byte, and the
status never shows DONE. -/
theorem stopped_until_reset {g : Graph} {ctx : Context} {ranges : ValueRanges}
    {requests : AttributeRequests} {backend : MachineBackend} {c : Compilation Machine}
    (hc : (g.compile ctx ranges requests backend).result.outcome = .ok c)
    {history : List DeviceCall} {image : Image}
    (hfault : (Device.step (afterCalls c.product history) image).fault ≠ none)
    {later : List DeviceCall} (hlater : .reset ∉ later) :
    let now := afterCalls (Device.step (afterCalls c.product history) image).device later
    (∀ image', Steps now image' now image') ∧ ¬ShowsDone now := by
  intro now
  have hcoherent : (afterCalls c.product history).Coherent := by
    obtain ⟨hregisters, hphase⟩ := Graph.compile_fresh hc
    exact Device.afterCalls_keeps (fun m a _ h => h.call a) (coherent_of_fresh hregisters hphase)
  have hnow : now.Stopped :=
    Device.afterCalls_keeps (fun m a ha h => h.call (ne_of_mem_of_not_mem ha hlater))
      (hcoherent.stopped_of_fault hfault)
  exact ⟨hnow.steps, hnow.busy.not_showsDone⟩

theorem stopped_until_reset_dense : ∃ (g : Graph) (c : Compilation Machine),
    (g.compile Graph.denseContext Graph.denseRanges [] ({} : MachineBackend)).result.outcome =
      .ok c ∧
    let history := .control .strobe :: List.replicate 17 (.edge (Image.filled 0 0))
    let failed := Device.step (afterCalls c.product history) (Image.filled 0 0)
    let now := afterCalls failed.device
      [.control .strobe, .edge (Image.filled 64 0), .control (.read Register.status.offset)]
    failed.fault ≠ none ∧ (∀ image', Steps now image' now image') ∧ ¬ShowsDone now := by
  -- the operands are due at the edge after these, and an empty image has none
  have hok : (Graph.denseCompilation.toOption.any fun c =>
      (Device.step
        (afterCalls c.product (.control .strobe :: List.replicate 17 (.edge (Image.filled 0 0))))
        (Image.filled 0 0)).fault.isSome) = true := by decide +kernel
  obtain ⟨c, hc, hfails⟩ := (Option.any_eq_true _ _).1 hok
  obtain ⟨g, -, hcompile⟩ := Graph.denseCompilation_ok (toOption_eq_some_iff.1 hc)
  have hfault := Option.isSome_iff_ne_none.1 hfails
  exact ⟨g, c, hcompile, hfault, stopped_until_reset hcompile hfault (by simp)⟩

end Machine

end QuantAccel
