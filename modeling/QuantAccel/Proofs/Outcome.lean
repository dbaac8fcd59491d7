import Mathlib
import QuantAccel.Event

/-!
# Successful outcomes

What it takes for a computation that can fail to succeed: a sequence succeeds
when its parts do, a check when its condition does not hold, and a fold when
every one of its steps does. A property that the steps of a successful fold keep
holds at its end.
-/

namespace QuantAccel

section Except

variable {ε δ α β : Type}

/-- A sequence succeeds if both parts do. -/
theorem bind_ok_iff {x : Except ε α} {f : α → Except ε β} {b : β} :
    (x >>= f) = .ok b ↔ ∃ a, x = .ok a ∧ f a = .ok b := by
  cases x <;> simp [bind, Except.bind]

/-- A sequence has a result if its second part has one for that of the first. -/
theorem bind_exists {x : Except ε α} {f : α → Except ε β} {a : α} (hx : x = .ok a)
    (hf : ∃ b, f a = .ok b) : ∃ b, (x >>= f) = .ok b := by
  obtain ⟨b, hb⟩ := hf
  exact ⟨b, bind_ok_iff.2 ⟨a, hx, hb⟩⟩

theorem map_ok_iff {x : Except ε α} {f : α → β} {b : β} :
    (f <$> x) = .ok b ↔ ∃ a, x = .ok a ∧ f a = b := by
  cases x <;> simp [Functor.map, Except.map]

theorem pure_ok_iff {a b : α} : (pure a : Except ε α) = .ok b ↔ a = b := by
  simp [pure, Except.pure]

theorem mapError_ok_iff {x : Except ε α} {f : ε → δ} {a : α} :
    x.mapError f = .ok a ↔ x = .ok a := by
  cases x <;> simp [Except.mapError]

theorem toOption_eq_some_iff {x : Except ε α} {a : α} : x.toOption = some a ↔ x = .ok a := by
  cases x <;> simp [Except.toOption]

theorem exists_ok_of_isOk {x : Except ε α} (h : x.isOk = true) : ∃ a, x = .ok a := by
  cases x with
  | error e => cases h
  | ok a => exact ⟨a, rfl⟩

theorem exists_error_of_isOk {x : Except ε α} (h : x.isOk = false) : ∃ e, x = .error e := by
  cases x with
  | error e => exact ⟨e, rfl⟩
  | ok a => cases h

/-- A check that throws lets through only where its condition fails. -/
theorem check_ok_iff {c : Prop} [Decidable c] {e : ε} {f : β → Except ε α}
    {x : Except ε α} {a : α} :
    (if c then throw e >>= f else x) = .ok a ↔ ¬c ∧ x = .ok a := by
  by_cases hc : c <;> simp [hc, throw, throwThe, MonadExceptOf.throw, bind, Except.bind]

/-- A final check that throws. -/
theorem check_unit_ok_iff {c : Prop} [Decidable c] {e : ε} {u : Unit} :
    (if c then throw e else pure () : Except ε Unit) = .ok u ↔ ¬c := by
  by_cases hc : c <;> simp [hc, throw, throwThe, MonadExceptOf.throw, pure, Except.pure]

/-- The same check in a computation with events. -/
theorem traced_check_ok_iff {c : Prop} [Decidable c] {e : ε} {f : β → Traced ε α} {x : Traced ε α}
    {a : α} : (if c then throw e >>= f else x).outcome = .ok a ↔ ¬c ∧ x.outcome = .ok a := by
  by_cases hc : c
  · simp [hc, bind_ok_iff]
  · simp [hc]

/-- **What every step of a successful fold keeps holds at its end.** -/
theorem foldlM_keeps {f : β → α → Except ε β} {P : β → Prop} {l : List α} {b b' : β}
    (hstep : ∀ b b', ∀ a ∈ l, P b → f b a = .ok b' → P b') (hstart : P b)
    (h : l.foldlM f b = .ok b') : P b' := by
  induction l generalizing b with
  | nil =>
    obtain rfl : b = b' := pure_ok_iff.1 h
    exact hstart
  | cons a l ih =>
    rw [List.foldlM_cons, bind_ok_iff] at h
    obtain ⟨c, hc, h⟩ := h
    have hc' := hstep b c a List.mem_cons_self hstart hc
    exact ih (fun b b' a' ha' => hstep b b' a' (List.mem_cons_of_mem a ha')) hc' h

/-- **A fold succeeds if every step does** from where the steps before it lead.
The invariant may speak of the elements gone through. -/
theorem foldlM_exists {f : β → α → Except ε β} {I : List α → β → Prop} {l : List α} {b : β}
    (hstep : ∀ before a after b, l = before ++ a :: after → I before b →
      ∃ b', f b a = .ok b' ∧ I (before ++ [a]) b')
    (hstart : I [] b) : ∃ b', l.foldlM f b = .ok b' ∧ I l b' := by
  suffices h : ∀ rest before b, l = before ++ rest → I before b →
      ∃ b', rest.foldlM f b = .ok b' ∧ I l b' from h l [] b rfl hstart
  intro rest
  induction rest with
  | nil =>
    intro before b hl hI
    rw [List.append_nil] at hl
    exact ⟨b, rfl, hl ▸ hI⟩
  | cons a rest ih =>
    intro before b hl hI
    obtain ⟨b₁, hb₁, hI₁⟩ := hstep before a rest b hl hI
    obtain ⟨b', hb', hI'⟩ := ih (before ++ [a]) b₁ (by simp [hl]) hI₁
    exact ⟨b', by rw [List.foldlM_cons]; exact bind_ok_iff.2 ⟨b₁, hb₁, hb'⟩, hI'⟩

/-- **A fold goes through or stops.** If it goes through, the invariant holds at
its end; if it stops, then at an element up to which the invariant held. The
invariant may speak of the elements gone through. -/
theorem foldlM_outcome {f : β → α → Except ε β} {I : List α → β → Prop} {l : List α} {b : β}
    (hstep : ∀ before a after b b', l = before ++ a :: after → I before b → f b a = .ok b' →
      I (before ++ [a]) b')
    (hstart : I [] b) :
    (∀ b', l.foldlM f b = .ok b' → I l b') ∧ ∀ e, l.foldlM f b = .error e →
      ∃ before a after c, l = before ++ a :: after ∧ I before c ∧ f c a = .error e := by
  suffices hrest : ∀ rest before b, l = before ++ rest → I before b →
      (∀ b', rest.foldlM f b = .ok b' → I l b') ∧ ∀ e, rest.foldlM f b = .error e →
        ∃ before a after c, l = before ++ a :: after ∧ I before c ∧ f c a = .error e from
    hrest l [] b rfl hstart
  intro rest
  induction rest with
  | nil =>
    intro before b hl hI
    rw [List.append_nil] at hl
    refine ⟨fun b' h => ?_, fun e h => by cases h⟩
    obtain rfl := pure_ok_iff.1 h
    exact hl ▸ hI
  | cons a rest ih =>
    intro before b hl hI
    rw [List.foldlM_cons]
    cases hb : f b a with
    | error e =>
      exact ⟨fun b' h => (by cases h), fun e' h => ⟨before, a, rest, b, hl, hI, hb.trans h⟩⟩
    | ok b₁ => exact ih (before ++ [a]) b₁ (by simp [hl]) (hstep before a rest b b₁ hl hI hb)

/-- Outcomes that fail alike, or succeed with results in a relation. -/
inductive Alike (R : α → α → Prop) : Except ε α → Except ε α → Prop
  | error (e : ε) : Alike R (.error e) (.error e)
  | ok {a a' : α} (h : R a a') : Alike R (.ok a) (.ok a')

namespace Alike

variable {R : α → α → Prop} {x x' : Except ε α}

/-- Outcomes that are the same after an erasure. -/
theorem of_map_eq {e : α → δ} (h : e <$> x' = e <$> x) : Alike (fun a a' => e a' = e a) x x' := by
  cases x <;> cases x' <;> simp only [Functor.map, Except.map, reduceCtorEq, Except.error.injEq,
    Except.ok.injEq] at h
  case error.error => exact h ▸ .error _
  case ok.ok => exact .ok h

theorem of_eq (h : x' = x) : Alike (fun a a' => a' = a) x x' :=
  of_map_eq (e := id) (congrArg (id <$> ·) h)

/-- **Sequences of parts that come out alike.** -/
theorem bind {S : β → β → Prop} {f f' : α → Except ε β} (hx : Alike R x x')
    (hf : ∀ a a', x = .ok a → x' = .ok a' → R a a' → Alike S (f a) (f' a')) :
    Alike S (x >>= f) (x' >>= f') := by
  cases hx with
  | error e => exact .error e
  | ok h => exact hf _ _ rfl rfl h

/-- What is said of the two values can be weakened, knowing where they come
from. -/
theorem imp {S : α → α → Prop} (hx : Alike R x x')
    (h : ∀ a a', x = .ok a → x' = .ok a' → R a a' → S a a') : Alike S x x' := by
  cases hx with
  | error e => exact .error e
  | ok hR => exact .ok (h _ _ rfl rfl hR)

/-- The second computation succeeds where the first one does. -/
theorem exists_ok {a : α} (hx : Alike R x x') (h : x = .ok a) : ∃ a', x' = .ok a' ∧ R a a' := by
  cases hx with
  | error => cases h
  | ok hR =>
    obtain rfl := Except.ok.inj h
    exact ⟨_, rfl, hR⟩

/-- The second computation fails with the error of the first one. -/
theorem eq_error {e : ε} (hx : Alike R x x') (h : x = .error e) : x' = .error e := by
  cases hx with
  | error => exact h
  | ok => cases h

/-- **Two folds side by side** come out alike if their steps do. The relation
may speak of the elements gone through. -/
theorem foldlM {f f' : β → α → Except ε β} {R : List α → β → β → Prop} {l : List α} {b b' : β}
    (hstep : ∀ before a after b b', l = before ++ a :: after → R before b b' →
      Alike (R (before ++ [a])) (f b a) (f' b' a))
    (hstart : R [] b b') : Alike (R l) (l.foldlM f b) (l.foldlM f' b') := by
  suffices hrest : ∀ rest before b b', l = before ++ rest → R before b b' →
      Alike (R l) (rest.foldlM f b) (rest.foldlM f' b') from hrest l [] b b' rfl hstart
  intro rest
  induction rest with
  | nil =>
    intro before b b' hl hR
    rw [List.append_nil] at hl
    exact .ok (hl ▸ hR)
  | cons a rest ih =>
    intro before b b' hl hR
    rw [List.foldlM_cons, List.foldlM_cons]
    exact (hstep before a rest b b' hl hR).bind fun c c' _ _ hc =>
      ih (before ++ [a]) c c' (by simp [hl]) hc

end Alike

/-- A fold is a matter of what its steps do at the elements of the list. -/
theorem foldlM_congr {f f' : β → α → Except ε β} {l : List α}
    (h : ∀ a ∈ l, ∀ b, f' b a = f b a) (b : β) :
    l.foldlM f' b = l.foldlM f b := by
  induction l generalizing b with
  | nil => rfl
  | cons a l ih =>
    simp only [List.foldlM_cons, h a List.mem_cons_self]
    congr 1
    funext b'
    exact ih (fun a' ha' => h a' (List.mem_cons_of_mem a ha')) b'

/-- The outcome of a fold with events is the fold of the outcomes. -/
theorem outcome_foldlM {f : β → α → Traced ε β} (l : List α) (b : β) :
    (l.foldlM f b).outcome = l.foldlM (fun b a => (f b a).outcome) b := by
  induction l generalizing b with
  | nil => rfl
  | cons a l ih => simp only [List.foldlM_cons, Traced.outcome_bind, ih]

/-- A map succeeds when it does at every element, and gives the results in
order. -/
theorem mapM_ok_iff {f : α → Except ε β} {l : List α} {l' : List β} :
    l.mapM f = .ok l' ↔ List.Forall₂ (fun a b => f a = .ok b) l l' := by
  induction l generalizing l' with
  | nil => cases l' <;> simp [pure, Except.pure]
  | cons a l ih =>
    rw [List.mapM_cons]
    simp only [bind_ok_iff, pure_ok_iff, ih, List.forall₂_cons_left_iff]
    constructor
    · rintro ⟨b, hb, bs, hbs, rfl⟩
      exact ⟨b, bs, hb, hbs, rfl⟩
    · rintro ⟨b, bs, hb, hbs, rfl⟩
      exact ⟨b, hb, bs, hbs, rfl⟩

/-- A map after an erasure that its steps do not see. -/
theorem mapM_map_comm {f : α → Except ε α} {e : α → α} (h : ∀ a, f (e a) = e <$> f a) (l : List α) :
    (l.map e).mapM f = List.map e <$> l.mapM f := by
  induction l with
  | nil => rfl
  | cons a l ih =>
    simp only [List.map_cons, List.mapM_cons, h, ih]
    cases f a with
    | error => rfl
    | ok b => cases l.mapM f <;> rfl

end Except

/-! ## Computations that keep their state when they fail -/

section State

variable {ε σ α β : Type} {s s' : σ}

/-- A computation with state, run from a state: its outcome, and the state after
it. -/
def runFrom (x : ExceptT ε (StateM σ) α) (s : σ) : Except ε α × σ :=
  x.run.run s

/-- A sequence goes on from the state that its first part left, also from that
of a failure. -/
theorem runFrom_bind (x : ExceptT ε (StateM σ) α) (f : α → ExceptT ε (StateM σ) β) (s : σ) :
    runFrom (x >>= f) s =
      match runFrom x s with
      | (.ok a, s') => runFrom (f a) s'
      | (.error e, s') => (.error e, s') := by
  simp only [runFrom, ExceptT.run_bind, StateT.run_bind]
  rcases h : x.run.run s with ⟨_ | _, _⟩ <;> rfl

theorem runFrom_pure (a : α) (s : σ) :
    runFrom (pure a : ExceptT ε (StateM σ) α) s = (.ok a, s) := rfl

theorem runFrom_throw (e : ε) (s : σ) :
    runFrom (throw e : ExceptT ε (StateM σ) α) s = (.error e, s) := rfl

theorem runFrom_get (s : σ) : runFrom (get : ExceptT ε (StateM σ) σ) s = (.ok s, s) := rfl

theorem runFrom_set (s s' : σ) :
    runFrom (set s' : ExceptT ε (StateM σ) PUnit) s = (.ok ⟨⟩, s') := rfl

theorem runFrom_modify (f : σ → σ) (s : σ) :
    runFrom (modify f : ExceptT ε (StateM σ) PUnit) s = (.ok ⟨⟩, f s) := rfl

theorem runFrom_modifyGet (f : σ → α × σ) (s : σ) :
    runFrom (modifyGet f : ExceptT ε (StateM σ) α) s = (.ok (f s).1, (f s).2) := rfl

theorem runFrom_liftM (x : Except ε α) (s : σ) :
    runFrom (liftM x : ExceptT ε (StateM σ) α) s = (x, s) := rfl

/-- **A sequence succeeds when its parts do**, each from the state that the one
before it left. -/
theorem runFrom_bind_ok {x : ExceptT ε (StateM σ) α} {f : α → ExceptT ε (StateM σ) β} {b : β} :
    runFrom (x >>= f) s = (.ok b, s') ↔
      ∃ a t, runFrom x s = (.ok a, t) ∧ runFrom (f a) t = (.ok b, s') := by
  rw [runFrom_bind]
  rcases runFrom x s with ⟨_ | a, t⟩ <;> simp

/-- A sequence succeeds if its second part does from where the first one
ended. -/
theorem runFrom_bind_exists {x : ExceptT ε (StateM σ) α} {f : α → ExceptT ε (StateM σ) β}
    {a : α} {b : β} {t : σ} (hx : runFrom x s = (.ok a, t))
    (hf : ∃ s', runFrom (f a) t = (.ok b, s')) :
    ∃ s', runFrom (x >>= f) s = (.ok b, s') := by
  obtain ⟨s', hs'⟩ := hf
  exact ⟨s', runFrom_bind_ok.2 ⟨a, t, hx, hs'⟩⟩

/-- **A sequence fails where one of its parts does**, and keeps the state that
this part left. -/
theorem runFrom_bind_error {x : ExceptT ε (StateM σ) α} {f : α → ExceptT ε (StateM σ) β} {e : ε} :
    runFrom (x >>= f) s = (.error e, s') ↔
      runFrom x s = (.error e, s') ∨ ∃ a t, runFrom x s = (.ok a, t) ∧
        runFrom (f a) t = (.error e, s') := by
  rw [runFrom_bind]
  rcases runFrom x s with ⟨_ | a, t⟩ <;> simp

/-- A computation without state fails as it is, in the same state. -/
theorem runFrom_liftM_error {x : Except ε α} {e : ε} :
    runFrom (liftM x : ExceptT ε (StateM σ) α) s = (.error e, s') ↔ x = .error e ∧ s' = s := by
  rw [runFrom_liftM, Prod.mk.injEq, eq_comm (a := s)]

theorem runFrom_liftM_ok {x : Except ε α} {a : α} :
    runFrom (liftM x : ExceptT ε (StateM σ) α) s = (.ok a, s') ↔ x = .ok a ∧ s' = s := by
  rw [runFrom_liftM, Prod.mk.injEq, eq_comm (a := s)]

theorem runFrom_get_bind (f : σ → ExceptT ε (StateM σ) β) (s : σ) :
    runFrom (get >>= f) s = runFrom (f s) s := by
  rw [runFrom_bind, runFrom_get]

/-- A computation without state at the front of a sequence leaves the state to
the rest. -/
theorem runFrom_liftM_bind_ok {x : Except ε α} {f : α → ExceptT ε (StateM σ) β} {b : β} :
    runFrom ((liftM x : ExceptT ε (StateM σ) α) >>= f) s = (.ok b, s') ↔
      ∃ a, x = .ok a ∧ runFrom (f a) s = (.ok b, s') := by
  rw [runFrom_bind, runFrom_liftM]
  cases x <;> simp

theorem runFrom_forM_nil {f : α → ExceptT ε (StateM σ) PUnit} {u : PUnit} :
    runFrom ([].forM f) s = (.ok u, s') ↔ s' = s := by
  change runFrom (pure ⟨⟩) s = (.ok u, s') ↔ s' = s
  simp [runFrom_pure, eq_comm]

/-- A loop succeeds if its first round does and the others do from there. -/
theorem runFrom_forM_cons {f : α → ExceptT ε (StateM σ) PUnit} {a : α} {l : List α} {u : PUnit} :
    runFrom ((a :: l).forM f) s = (.ok u, s') ↔
      ∃ t, runFrom (f a) s = (.ok ⟨⟩, t) ∧ runFrom (l.forM f) t = (.ok u, s') := by
  change runFrom (f a >>= fun _ => l.forM f) s = (.ok u, s') ↔ _
  rw [runFrom_bind_ok]
  exact ⟨fun ⟨_, t, h⟩ => ⟨t, h⟩, fun ⟨t, h⟩ => ⟨⟨⟩, t, h⟩⟩

/-- **A sequence of actions succeeds if each does** where the invariant holds,
and keeps it. -/
theorem runFrom_forM_exists {f : α → ExceptT ε (StateM σ) PUnit} {I : σ → Prop} {l : List α}
    (hstep : ∀ a ∈ l, ∀ s, I s → ∃ s', runFrom (f a) s = (.ok ⟨⟩, s') ∧ I s') (hstart : I s) :
    ∃ s', runFrom (l.forM f) s = (.ok ⟨⟩, s') ∧ I s' := by
  induction l generalizing s with
  | nil => exact ⟨s, runFrom_forM_nil.2 rfl, hstart⟩
  | cons a l ih =>
    obtain ⟨t, ha, ht⟩ := hstep a List.mem_cons_self s hstart
    obtain ⟨s', hrest, hs'⟩ := ih (fun a' ha' => hstep a' (List.mem_cons_of_mem a ha')) ht
    exact ⟨s', runFrom_forM_cons.2 ⟨t, ha, hrest⟩, hs'⟩

/-- **What every action of a successful sequence keeps holds at its end.** The
invariant may speak of the elements gone through. -/
theorem runFrom_forM_keeps {f : α → ExceptT ε (StateM σ) PUnit} {I : List α → σ → Prop} {l : List α}
    {u : PUnit}
    (hstep : ∀ before a after s s', l = before ++ a :: after → I before s →
      runFrom (f a) s = (.ok ⟨⟩, s') → I (before ++ [a]) s')
    (hstart : I [] s) (h : runFrom (l.forM f) s = (.ok u, s')) : I l s' := by
  suffices hrest : ∀ rest before s, l = before ++ rest → I before s →
      runFrom (rest.forM f) s = (.ok u, s') → I l s' from hrest l [] s rfl hstart h
  intro rest
  induction rest with
  | nil =>
    intro before s hl hI h
    rw [List.append_nil] at hl
    exact runFrom_forM_nil.1 h ▸ hl ▸ hI
  | cons a rest ih =>
    intro before s hl hI h
    obtain ⟨t, ha, h⟩ := runFrom_forM_cons.1 h
    exact ih (before ++ [a]) t (by simp [hl]) (hstep before a rest s t hl hI ha) h

end State

end QuantAccel
