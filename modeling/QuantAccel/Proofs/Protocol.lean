import QuantAccel.Bench.Basic
import QuantAccel.Machine.Basic
import QuantAccel.Proofs.Compile

/-!
# The protocol of the bench

A bench goes through its states in one direction, whatever its device and its
clock do and in whatever order it is called. A call from any state but its own
is refused and changes nothing at all. Every other call keeps the state while it
works (`Keeps`) and moves on at its very end (`Settles`), so that a call that
fails on the way leaves the bench where it was; only `wait` moves at its
beginning as well, and a bench that fails there has no call left that it would
accept.
-/

namespace QuantAccel

namespace BenchState

/-- Position of a state in the order of a run. -/
def rank : BenchState → Nat
  | idle => 0
  | addressed => 1
  | running => 2
  | waiting => 3
  | verifying => 4
  | done _ => 5

/-- The first state is the second or comes before it. -/
def Precedes (s s' : BenchState) : Prop :=
  s = s' ∨ s.rank < s'.rank

/-- The order of the states is transitive. -/
theorem Precedes.trans {s s' s'' : BenchState} (h : s.Precedes s') (h' : s'.Precedes s'') :
    s.Precedes s'' := by
  rcases h with rfl | h
  · exact h'
  rcases h' with rfl | h'
  · exact .inr h
  · exact .inr (lt_trans h h')

/-- The calls that can still succeed from a state, in the only order in which
they can. -/
def remaining : BenchState → List BenchAction
  | idle => [.address, .start, .wait, .verify]
  | addressed => [.start, .wait, .verify]
  | running => [.wait, .verify]
  | verifying => [.verify]
  | waiting | done _ => []

end BenchState

namespace Bench

variable {σ κ α β : Type}

/-! ## Parts that keep the state -/

/-- The action leaves the state of the bench as it is, whether it succeeds or
not. -/
def Keeps (x : Action σ κ α) : Prop :=
  ∀ b, (runFrom x b).2.state = b.state

/-- The action ends in a state of its own if it succeeds, and leaves the state
as it is if it fails. -/
def Settles (x : Action σ κ α) (target : α → BenchState) : Prop :=
  ∀ b, match runFrom x b with
    | (.ok a, b') => b'.state = target a
    | (.error _, b') => b'.state = b.state

theorem keeps_pure (a : α) : Keeps (pure a : Action σ κ α) := fun _ => rfl

theorem keeps_throw (e : SimulationError) : Keeps (throw e : Action σ κ α) := fun _ => rfl

theorem keeps_get : Keeps (get : Action σ κ (Bench σ κ)) := fun _ => rfl

theorem keeps_liftM (x : Except SimulationError α) : Keeps (liftM x : Action σ κ α) := fun _ => rfl

/-- A change of the bench keeps its state if it leaves that field alone. -/
theorem keeps_modify {f : Bench σ κ → Bench σ κ} (h : ∀ b, (f b).state = b.state) :
    Keeps (modify f : Action σ κ PUnit) := h

/-- A sequence keeps the state if each part does. -/
theorem Keeps.bind {x : Action σ κ α} {f : α → Action σ κ β} (hx : Keeps x)
    (hf : ∀ a, Keeps (f a)) :
    Keeps (x >>= f) := by
  intro b
  have hfirst := hx b
  rw [runFrom_bind]
  rcases hrun : runFrom x b with ⟨_ | a, b'⟩ <;> rw [hrun] at hfirst
  · exact hfirst
  · exact (hf a b').trans hfirst

/-- What a part does after reading the bench may depend on what it read. -/
theorem keeps_of_get {f : Bench σ κ → Action σ κ β} (h : ∀ b, Keeps (f b)) : Keeps (get >>= f) :=
  keeps_get.bind h

/-- A loop keeps the state if its body does, for the members of the list. -/
theorem keeps_forM {l : List α} {f : α → Action σ κ PUnit} (h : ∀ a ∈ l, Keeps (f a)) :
    Keeps (l.forM f) := by
  induction l with
  | nil => exact keeps_pure _
  | cons a l ih =>
    change Keeps (f a >>= fun _ => l.forM f)
    exact (h a List.mem_cons_self).bind fun _ => ih fun a' ha' => h a' (List.mem_cons_of_mem a ha')

/-- So does a loop that collects values. -/
theorem keeps_mapM {l : List α} {f : α → Action σ κ β} (h : ∀ a ∈ l, Keeps (f a)) :
    Keeps (l.mapM f) := by
  induction l with
  | nil => rw [List.mapM_nil]; exact keeps_pure _
  | cons a l ih =>
    rw [List.mapM_cons]
    refine (h a List.mem_cons_self).bind fun b => ?_
    exact (ih fun a' ha' => h a' (List.mem_cons_of_mem a ha')).bind fun _ => keeps_pure _

/-- Work that keeps the state, before the step that settles it. -/
theorem Keeps.settles {x : Action σ κ α} {f : α → Action σ κ β} {target : β → BenchState}
    (hx : Keeps x) (hf : ∀ a, Settles (f a) target) : Settles (x >>= f) target := by
  intro b
  have hfirst := hx b
  rw [runFrom_bind]
  rcases hrun : runFrom x b with ⟨_ | a, b'⟩ <;> rw [hrun] at hfirst
  · exact hfirst
  · have hrest := hf a b'
    dsimp only at hfirst ⊢
    rcases hlast : runFrom (f a) b' with ⟨_ | _, b''⟩ <;> rw [hlast] at hrest
    · exact hrest.trans hfirst
    · exact hrest

/-- A change of the bench settles it in the state that the change sets. -/
theorem settles_modify {f : Bench σ κ → Bench σ κ} {target : PUnit → BenchState}
    (h : ∀ b, (f b).state = target ⟨⟩) : Settles (modify f : Action σ κ PUnit) target := h

/-- The result that is returned after the state is settled. -/
theorem Settles.map {x : Action σ κ α} {f : α → β} {target : β → BenchState}
    (hx : Settles x fun a => target (f a)) : Settles (x >>= fun a => pure (f a)) target := by
  intro b
  have hfirst := hx b
  rw [runFrom_bind]
  rcases hrun : runFrom x b with ⟨_ | a, b'⟩ <;> rw [hrun] at hfirst <;> exact hfirst

theorem keeps_note (e : Event) : Keeps (note e : Action σ κ Unit) := fun _ => rfl

/-- A change of the image keeps the state, also one that fails. -/
theorem keeps_onImage (change : Image → Except SimulationError Image) :
    Keeps (onImage change : Action σ κ Unit) := by
  intro b
  rw [onImage, runFrom_bind, runFrom_get]
  dsimp only
  rw [runFrom_bind, runFrom_liftM]
  cases change b.image <;> rfl

section Device

variable [Device σ]

/-- A register write keeps the state of the bench, whatever the device makes of
it. -/
theorem keeps_writeControl (r : Register) (value : UInt32) :
    Keeps (writeControl r value : Action σ κ Unit) := by
  intro b
  rw [writeControl, runFrom_get_bind, runFrom_bind, runFrom_set]
  dsimp only
  cases (Device.writeControl b.device r.offset value).fault <;> rfl

variable [Clock κ]

/-- An edge of the clock keeps the state of the bench. -/
theorem keeps_edge : Keeps (edge : Action σ κ Nat) := by
  intro b
  -- the image is taken off the bench and put back with the new one
  simp only [edge, runFrom_bind, runFrom_modifyGet, runFrom_get, runFrom_set]
  cases (Device.step b.device b.image).fault <;> rfl

/-- So does any number of edges. -/
theorem keeps_edges (n : Nat) : Keeps (edges n : Action σ κ Unit) := by
  induction n with
  | zero => exact keeps_pure _
  | succ n ih => exact keeps_edge.bind fun _ => ih

/-- Waiting for the device keeps the state, whether it ends with the device
done, with an error or with the limit. -/
theorem keeps_poll (fuel : Nat) : Keeps (poll fuel : Action σ κ Nat) := by
  induction fuel with
  | zero => exact keeps_of_get fun _ => keeps_throw _
  | succ fuel ih =>
    refine keeps_edge.bind fun now => keeps_of_get fun b => (keeps_liftM _).bind fun status => ?_
    split
    · exact keeps_pure _
    · split
      · exact (keeps_note _).bind fun _ => keeps_throw _
      · exact ih

end Device

/-- Loading an input keeps the state. -/
theorem keeps_loadInput (id : TensorId) : Keeps (loadInput id : Action σ κ Unit) := by
  refine keeps_of_get fun b => ?_
  dsimp only
  split
  · exact (keeps_onImage _).bind fun _ => keeps_note _
  · exact keeps_throw _

/-- Loading a reference keeps the state. -/
theorem keeps_loadReference (id : TensorId) (address : Nat) :
    Keeps (loadReference id address : Action σ κ Unit) := by
  refine keeps_of_get fun b => ?_
  dsimp only
  split
  · exact keeps_onImage _
  · exact keeps_throw _

/-- Protecting an input keeps the state. -/
theorem keeps_protectInput (id : TensorId) : Keeps (protectInput id : Action σ κ Unit) := by
  refine keeps_modify fun b => ?_
  dsimp only
  split <;> rfl

/-- Protecting a region keeps the state. -/
theorem keeps_protectRegion (k : RegionKind) (name : String) :
    Keeps (protectRegion k name : Action σ κ Unit) :=
  keeps_of_get fun _ => (keeps_liftM _).bind fun _ => keeps_modify fun _ => rfl

/-- The first part of addressing fills the image: parameters, inputs and
references. It keeps the state. -/
theorem keeps_loadImage : Keeps (loadImage : Action σ κ Unit) := by
  refine keeps_of_get fun b => (keeps_forM fun _ _ => keeps_loadInput _).bind fun _ => ?_
  refine (keeps_liftM _).bind fun _ => (keeps_onImage _).bind fun _ => ?_
  exact (keeps_forM fun _ _ => keeps_loadReference _ _).bind fun _ => keeps_onImage _

/-- The second part, which writes the two address registers, keeps the
state. -/
theorem keeps_program [Device σ] : Keeps (program : Action σ κ Unit) := by
  refine keeps_of_get fun b => (keeps_liftM _).bind fun _ => (keeps_liftM _).bind fun _ => ?_
  refine (keeps_writeControl _ _).bind fun _ => (keeps_liftM _).bind fun _ => ?_
  exact keeps_writeControl _ _

/-- The third part, which protects what the device may not write, keeps the
state. -/
theorem keeps_protectAll : Keeps (protectAll : Action σ κ Unit) := by
  refine keeps_of_get fun b => (keeps_forM fun _ _ => keeps_protectInput _).bind fun _ => ?_
  exact (keeps_protectRegion _ _).bind fun _ => keeps_protectRegion _ _

/-- The comparison of an output with its reference keeps the state. -/
theorem keeps_verifyOutput (id : TensorId) (reference : Nat) :
    Keeps (verifyOutput id reference : Action σ κ (Nat × List Mismatch)) := by
  refine keeps_of_get fun b => ?_
  dsimp only
  split
  · refine (keeps_liftM _).bind fun actual => (keeps_liftM _).bind fun expected => ?_
    exact (keeps_forM fun m _ => keeps_note _).bind fun _ => keeps_pure _
  · exact keeps_throw _

/-! ## Calls -/

end Bench

namespace BenchAction

/-- The state in which an action is possible. -/
def source : BenchAction → BenchState
  | address => .idle
  | start => .addressed
  | wait => .running
  | verify => .verifying

/-- What a successful action returns: `wait` its cycles, `verify` its report. -/
def Answer : BenchAction → Type
  | address | start => Unit
  | wait => Nat
  | verify => Report

/-- The state that a successful action leaves. -/
def target : (action : BenchAction) → action.Answer → BenchState
  | address, _ => .addressed
  | start, _ => .running
  | wait, _ => .verifying
  | verify, report => .done (Report.verdict report)

/-- The state that a failed action leaves. -/
def stuck : BenchAction → BenchState
  | wait => .waiting
  | action => action.source

end BenchAction

namespace Bench

variable {σ κ α β : Type}

section Follows

/-- The action is refused outside its state, and from its state leaves the state
that its outcome says. -/
def Follows (x : Action σ κ α) (action : BenchAction) (target : α → BenchState) : Prop :=
  ∀ b, if b.state = action.source then
      match runFrom x b with
      | (.ok a, b') => b'.state = target a
      | (.error _, b') => b'.state = action.stuck
    else runFrom x b = (.error (.invalidTransition b.state action), b)

/-- An action that requires a state runs on from that state and is refused from
every other, with the bench as it was. -/
theorem runFrom_require_bind (action : BenchAction) (state : BenchState) (f : Unit → Action σ κ α)
    (b : Bench σ κ) :
    runFrom (require state action >>= f) b =
      if b.state = state then runFrom (f ()) b
      else (.error (.invalidTransition b.state action), b) := by
  rw [runFrom_bind, require, runFrom_bind, runFrom_get]
  by_cases h : b.state = state
  · simp [h, runFrom_pure]
  · simp [h, runFrom_throw]

/-- An action that moves only at its end. -/
theorem Settles.follows {f : Unit → Action σ κ α} {action : BenchAction} {target : α → BenchState}
    (h : Settles (f ()) target) (hstuck : action.stuck = action.source) :
    Follows (require action.source action >>= f) action target := by
  intro b
  rw [runFrom_require_bind]
  by_cases hs : b.state = action.source
  · have hrest := h b
    simp only [hs, if_true]
    rcases hrun : runFrom (f ()) b with ⟨_ | _, b'⟩ <;> rw [hrun] at hrest
    · exact hrest.trans (hs.trans hstuck.symm)
    · exact hrest
  · simp only [hs, if_false]

/-- An action that also moves at its beginning. -/
theorem Settles.follows_moved {f : PUnit → Action σ κ α} {action : BenchAction}
    {target : α → BenchState} {g : Bench σ κ → Bench σ κ} (h : Settles (f ⟨⟩) target)
    (hstuck : ∀ b, (g b).state = action.stuck) :
    Follows (require action.source action >>= fun _ => modify g >>= f) action target := by
  intro b
  rw [runFrom_require_bind]
  by_cases hs : b.state = action.source
  · have hrest := h (g b)
    simp only [hs, if_true, runFrom_bind, runFrom_modify]
    rcases hrun : runFrom (f ⟨⟩) (g b) with ⟨_ | _, b'⟩ <;> rw [hrun] at hrest
    · exact hrest.trans (hstuck b)
    · exact hrest
  · simp only [hs, if_false]

end Follows

section Call

variable [Device σ] [Clock κ]

/-- Addressing leads from idle to addressed; on an error the bench is still
idle. -/
theorem follows_address : Follows (address : Action σ κ Unit) .address fun _ => .addressed := by
  refine Settles.follows ?_ rfl
  refine Keeps.settles (keeps_modify fun _ => rfl) fun _ => keeps_get.settles fun b => ?_
  refine (keeps_edges _).settles fun _ => keeps_loadImage.settles fun _ => ?_
  refine keeps_program.settles fun _ => keeps_protectAll.settles fun _ => ?_
  refine keeps_get.settles fun _ => (keeps_note _).settles fun _ => ?_
  exact settles_modify fun _ => rfl

/-- Starting leads from addressed to running; on an error the bench is still
addressed. -/
theorem follows_start : Follows (start : Action σ κ Unit) .start fun _ => .running := by
  refine Settles.follows ?_ rfl
  exact (keeps_writeControl _ _).settles fun _ => settles_modify fun _ => rfl

/-- Waiting leads from running to verifying, with the state *waiting* in
between; on an error the bench stays there. -/
theorem follows_wait : Follows (wait : Action σ κ Nat) .wait fun _ => .verifying := by
  refine Settles.follows_moved ?_ fun _ => rfl
  refine keeps_get.settles fun _ => (keeps_poll _).settles fun elapsed => ?_
  refine Keeps.settles (keeps_modify fun _ => rfl) fun _ => keeps_get.settles fun b => ?_
  refine (keeps_liftM _).settles fun counter => ?_
  dsimp only
  split
  · refine (keeps_note _).settles fun _ => ?_
    refine Keeps.settles (keeps_modify fun _ => rfl) fun _ => (keeps_note _).settles fun _ => ?_
    exact Settles.map (settles_modify fun _ => rfl)
  · refine Keeps.settles (keeps_modify fun _ => rfl) fun _ => (keeps_note _).settles fun _ => ?_
    exact Settles.map (settles_modify fun _ => rfl)

omit [Clock κ] in
/-- Verifying leads to the end, with the verdict of the report. -/
theorem follows_verify : Follows (verify : Action σ κ Report) .verify fun r => .done r.verdict := by
  refine Settles.follows ?_ rfl
  refine keeps_get.settles fun b =>
    (keeps_mapM fun _ _ => keeps_verifyOutput _ _).settles fun found => ?_
  dsimp only
  generalize (if (found.flatMap (·.2)).isEmpty then Verdict.passed else .failed) = verdict
  split
  · exact (keeps_note _).settles fun _ => Settles.map (settles_modify fun _ => rfl)
  · exact Settles.map (settles_modify fun _ => rfl)

/-- The action of the bench behind a name. -/
def act : (action : BenchAction) → Action σ κ action.Answer
  | .address => address
  | .start => start
  | .wait => wait
  | .verify => verify

/-- **Every action follows the protocol**, from its source to its target. -/
theorem follows_act (action : BenchAction) :
    Follows (act action : Action σ κ action.Answer) action action.target := by
  cases action with
  | address => exact follows_address
  | start => exact follows_start
  | wait => exact follows_wait
  | verify => exact follows_verify

/-- The outcome of a call, and the bench after it. -/
def call (b : Bench σ κ) (action : BenchAction) :
    Except SimulationError action.Answer × Bench σ κ :=
  runFrom (act action) b

/-- The outcomes of a sequence of calls, and the bench after it. -/
def callAll (b : Bench σ κ) :
    List BenchAction →
      List ((action : BenchAction) × Except SimulationError action.Answer) × Bench σ κ
  | [] => ([], b)
  | action :: actions =>
    let (outcome, b') := b.call action
    let (outcomes, b'') := b'.callAll actions
    (⟨action, outcome⟩ :: outcomes, b'')

/-- The actions of a sequence of calls that succeeded. -/
def successes (b : Bench σ κ) (actions : List BenchAction) : List BenchAction :=
  ((b.callAll actions).1.filter fun c => c.2.isOk).map (·.1)

variable {b : Bench σ κ} {action : BenchAction}

/-- An action called from another state than its source is refused, and the
bench is as it was. -/
theorem call_refused (h : b.state ≠ action.source) :
    b.call action = (.error (.invalidTransition b.state action), b) := by
  have hf := follows_act action b
  rwa [if_neg h] at hf

/-- An action that succeeds was called from its source and ends in its
target. -/
theorem call_ok {a : action.Answer} (h : (b.call action).1 = .ok a) :
    b.state = action.source ∧ (b.call action).2.state = action.target a := by
  have hf := follows_act action b
  split at hf
  · rename_i hs
    rcases hrun : b.call action with ⟨_ | a', b'⟩ <;> rw [hrun] at h <;> cases h
    rw [show runFrom (act action) b = (.ok a, b') from hrun] at hf
    exact ⟨hs, hf⟩
  · rw [call, hf] at h
    cases h

/-- An action that fails from its source ends where it is stuck. -/
theorem call_failed {e : SimulationError} (hs : b.state = action.source)
    (h : (b.call action).1 = .error e) : (b.call action).2.state = action.stuck := by
  have hf := follows_act action b
  rw [if_pos hs] at hf
  rcases hrun : b.call action with ⟨_ | _, b'⟩ <;> rw [hrun] at h <;> cases h
  rwa [show runFrom (act action) b = (.error e, b') from hrun] at hf

/-- One call moves forward or not at all. -/
theorem call_precedes (b : Bench σ κ) (action : BenchAction) :
    b.state.Precedes (b.call action).2.state := by
  by_cases hs : b.state = action.source
  · cases h : (b.call action).1 with
    | ok a =>
      rw [(call_ok h).2, hs]
      cases action <;> simp [BenchState.Precedes, BenchState.rank, BenchAction.source,
        BenchAction.target]
    | error e =>
      rw [call_failed hs h, hs]
      cases action <;>
        simp [BenchState.Precedes, BenchState.rank, BenchAction.source, BenchAction.stuck]
  · rw [call_refused hs]
    exact .inl rfl

/-! ## Runs of calls -/

/-- A sequence of calls moves forward or not at all. -/
theorem callAll_precedes (actions : List BenchAction) (b : Bench σ κ) :
    b.state.Precedes (b.callAll actions).2.state := by
  induction actions generalizing b with
  | nil => exact .inl rfl
  | cons action actions ih => exact (b.call_precedes action).trans (ih _)

/-- The actions of a sequence that succeed are read off from the first call
on. -/
theorem successes_cons (b : Bench σ κ) (action : BenchAction) (actions : List BenchAction) :
    b.successes (action :: actions) =
      if (b.call action).1.isOk then action :: (b.call action).2.successes actions
      else (b.call action).2.successes actions := by
  simp only [successes, callAll, List.filter_cons]
  split <;> rfl

/-- The calls that succeed are, in their order, the first ones of those that
remain. -/
theorem successes_prefix (actions : List BenchAction) (b : Bench σ κ) :
    b.successes actions <+: b.state.remaining := by
  induction actions generalizing b with
  | nil => exact List.nil_prefix
  | cons action actions ih =>
    have hrest := ih (b.call action).2
    rw [successes_cons]
    cases h : (b.call action).1 with
    | ok a =>
      obtain ⟨hs, ht⟩ := call_ok h
      have hstep : action.source.remaining = action :: (action.target a).remaining := by
        cases action <;> rfl
      rw [ht] at hrest
      rw [hs, hstep]
      exact (List.prefix_cons_inj action).2 hrest
    | error e =>
      by_cases hs : b.state = action.source
      · rw [call_failed hs h] at hrest
        have hstuck : action.stuck.remaining <+: action.source.remaining := by
          cases action <;> simp [BenchAction.stuck, BenchAction.source, BenchState.remaining]
        rw [hs]
        exact hrest.trans hstuck
      · rw [call_refused hs] at hrest ⊢
        exact hrest

/-- A bench that no call accepts refuses every sequence of calls, and stays as
it is. -/
theorem callAll_refused {b : Bench σ κ} (h : ∀ action : BenchAction, b.state ≠ action.source)
    (actions : List BenchAction) :
    b.callAll actions =
      (actions.map fun action => ⟨action, .error (.invalidTransition b.state action)⟩, b) := by
  induction actions with
  | nil => rfl
  | cons action actions ih =>
    rw [callAll, call_refused (h action)]
    dsimp only
    rw [ih]
    rfl

/-- No action starts from the state *waiting*, so a bench that is there is
lost. -/
theorem waiting_ne_source (action : BenchAction) : BenchState.waiting ≠ action.source := by
  cases action <;> simp [BenchAction.source]

/-- The protocol of a bench, for every device and every clock. Outside its state
a call is refused and the bench stays as it is. No call moves back. On an idle
bench the calls that succeed are, in their order, the first ones of `address`,
`start`, `wait` and `verify`, so that there is one report at most and only after
one success of each of the others. A `wait` that fails on a running device
leaves a bench from which every further call fails and which is never done. -/
theorem protocol (b : Bench σ κ) :
    (∀ action : BenchAction, b.state ≠ action.source →
      b.call action = (.error (.invalidTransition b.state action), b)) ∧
    (∀ actions, b.state.Precedes (b.callAll actions).2.state) ∧
    (b.state = .idle → ∀ actions, b.successes actions <+: [.address, .start, .wait, .verify]) ∧
    (∀ e, b.state = .running → (b.call .wait).1 = .error e →
      (b.call .wait).2.state = .waiting ∧
        ∀ actions, (b.call .wait).2.successes actions = [] ∧
          ∀ v, ((b.call .wait).2.callAll actions).2.state ≠ .done v) := by
  refine ⟨fun action => call_refused, fun actions => b.callAll_precedes actions, ?_, ?_⟩
  · intro hidle actions
    have h := successes_prefix actions b
    rwa [hidle] at h
  · intro e hrunning hfailed
    have hwaiting : (b.call .wait).2.state = .waiting := call_failed hrunning hfailed
    refine ⟨hwaiting, fun actions => ⟨?_, fun v => ?_⟩⟩
    · have h := successes_prefix actions (b.call .wait).2
      rw [hwaiting] at h
      exact List.prefix_nil.1 h
    · have hsame := callAll_refused (fun action => hwaiting ▸ waiting_ne_source action) actions
      rw [hsame, hwaiting]
      exact BenchState.noConfusion

end Call

/-- The dense layer on a bench with its own machine and a limit of cycles. -/
def dense (maxCycles : Nat) : Except SimulationError (Bench Machine CycleClock) := do
  let c ← Graph.denseCompilation.mapError .compile
  let stimulus ←
    (Stimulus.ofInputs c.design.graph fun _ => some #[1, 2, 3, -1, 0, 5]).mapError .graph
  create c.design c.product {} stimulus { maxCycles }

/-- The bench of the dense layer is that of a compiled graph and a stimulus of
it. -/
theorem dense_ok {maxCycles : Nat} {b : Bench Machine CycleClock} (h : dense maxCycles = .ok b) :
    ∃ (g : Graph) (c : Compilation Machine) (stimulus : Stimulus), g.Finished ∧
      (g.compile Graph.denseContext Graph.denseRanges [] ({} : MachineBackend)).result.outcome =
        .ok c ∧
      create c.design c.product {} stimulus { maxCycles } = .ok b := by
  simp only [dense, bind_ok_iff, mapError_ok_iff] at h
  obtain ⟨c, hc, stimulus, -, hcreate⟩ := h
  obtain ⟨g, hg, hcompile⟩ := Graph.denseCompilation_ok hc
  exact ⟨g, c, stimulus, hg, hcompile, hcreate⟩

/-- A dense layer that is given three cycles does not finish in time, and
nothing succeeds after that. -/
theorem protocol_dense : ∃ b : Bench Machine CycleClock, b.state = .running ∧
    (∃ e, (b.call .wait).1 = .error e) ∧ (b.call .wait).2.state = .waiting ∧
      (b.call .wait).2.successes [.wait, .verify, .address, .verify] = [] := by
  have hstuck : ((dense 3).toOption.any fun b =>
      let b := (b.callAll [.verify, .address, .start, .address]).2
      decide (b.state = .running) && !(b.call .wait).1.isOk) = true := by decide +kernel
  obtain ⟨b, -, hb⟩ := (Option.any_eq_true _ _).1 hstuck
  simp only [Bool.and_eq_true, decide_eq_true_eq, Bool.not_eq_true'] at hb
  obtain ⟨hrunning, hfailed⟩ := hb
  generalize (b.callAll [.verify, .address, .start, .address]).2 = b' at hrunning hfailed
  cases hwait : (b'.call .wait).1 with
  | ok n =>
    rw [hwait] at hfailed
    cases hfailed
  | error e =>
    obtain ⟨hwaiting, hrest⟩ := (protocol b').2.2.2 e hrunning hwait
    exact ⟨b', hrunning, ⟨e, hwait⟩, hwaiting, (hrest _).1⟩

-- within its limit the same machine gives one report, however often it is asked
example : ((dense 1000).toOption.map fun b =>
    b.successes [.verify, .address, .start, .start, .wait, .verify, .verify]) =
      some [.address, .start, .wait, .verify] := by decide +kernel

end Bench

end QuantAccel
