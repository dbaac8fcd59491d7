import QuantAccel.Proofs.Compile

/-!
# Identifiers of a context

A context gives out no identifier twice. A reservation asks for a base, and gets
the base itself or the base with a number; which one depends on the identifiers
in use and on nothing else (`Chooses`). That the search for a number ends is a
matter of counting: the base is in use, its candidates are all different, and so
one of the first candidates, as many as there are identifiers in use, is free
(`exists_free_candidate`).

Everything that happens to a context takes identifiers by reservations
(`Takes`), the emission of a machine with a block for each operator included.
Distinctness over a whole history is that of its parts.
-/

namespace QuantAccel

theorem Graph.block_planOperator {g : Graph} {busWidth latency : Nat} {op : Operator}
    {block : String} {plan : OperatorPlan}
    (h : g.planOperator busWidth latency op block = .ok plan) : plan.block = block := by
  unfold planOperator at h
  split at h <;> cases h
  rfl

namespace Context

variable {taken used used' names names' : List String} {base identifier name : String}
variable {c c' c'' ctx : Context}

/-! ## Candidates -/

/-- The base with a number. -/
def candidate (base : String) (n : Nat) : String :=
  base ++ "_" ++ toString n

theorem candidate_injective (base : String) : Function.Injective (candidate base) := by
  intro m n h
  exact Nat.repr_inj.1 ((String.append_right_inj _).1 h)

theorem candidate_ne_base (base : String) (n : Nat) : candidate base n ≠ base := by
  intro h
  have hlength := congrArg String.length h
  simp only [candidate, String.length_append] at hlength
  have : "_".length = 1 := rfl
  omega

/-- **One of the first candidates is free** where the base is taken: the base
and as many candidates as there are identifiers are one more than these can
be. -/
theorem exists_free_candidate (hbase : base ∈ taken) :
    ∃ n, 1 ≤ n ∧ n ≤ taken.length ∧ candidate base n ∉ taken := by
  by_contra! hall
  have hsub : insert base ((Finset.Icc 1 taken.length).image (candidate base)) ⊆
      taken.toFinset := by
    intro x hx
    simp only [Finset.mem_insert, Finset.mem_image, Finset.mem_Icc] at hx
    obtain rfl | ⟨n, ⟨hl, hh⟩, rfl⟩ := hx
    · exact List.mem_toFinset.2 hbase
    · exact List.mem_toFinset.2 (hall n hl hh)
  have hnew : base ∉ (Finset.Icc 1 taken.length).image (candidate base) := by
    intro hmem
    obtain ⟨n, -, hn⟩ := Finset.mem_image.1 hmem
    exact candidate_ne_base base n hn
  have hcard := (Finset.card_le_card hsub).trans taken.toFinset_card_le
  rw [Finset.card_insert_of_notMem hnew,
    Finset.card_image_of_injective _ (candidate_injective base), Nat.card_Icc] at hcard
  omega

theorem numbered_zero (taken : List String) (base : String) (n : Nat) :
    numbered taken base 0 n = candidate base n := rfl

theorem numbered_succ (taken : List String) (base : String) (fuel n : Nat) :
    numbered taken base (fuel + 1) n =
      if candidate base n ∈ taken then numbered taken base fuel (n + 1) else candidate base n :=
  if_congr List.contains_iff_mem rfl rfl

/-- **The search finds the least free number** from where it begins, if its fuel
takes it there. -/
theorem numbered_eq_candidate {fuel n m : Nat}
    (hm : IsLeast {k | n ≤ k ∧ candidate base k ∉ taken} m) (hfuel : m ≤ n + fuel) :
    numbered taken base fuel n = candidate base m := by
  induction fuel generalizing n with
  | zero =>
    have := hm.1.1
    rw [numbered_zero, show m = n by omega]
  | succ fuel ih =>
    rw [numbered_succ]
    by_cases htaken : candidate base n ∈ taken
    · -- the number is passed over, so the least free one comes later
      have hlater : n + 1 ≤ m := by
        have := hm.1.1
        have : m ≠ n := fun heq => hm.1.2 (heq ▸ htaken)
        omega
      have hrest : IsLeast {k | n + 1 ≤ k ∧ candidate base k ∉ taken} m :=
        ⟨⟨hlater, hm.1.2⟩, fun k hk => hm.2 ⟨by have := hk.1; omega, hk.2⟩⟩
      rw [if_pos htaken]
      exact ih hrest (by omega)
    · have hfirst : m ≤ n := hm.2 ⟨le_rfl, htaken⟩
      have := hm.1.1
      rw [if_neg htaken, show m = n by omega]

/-! ## One reservation -/

/-- What a base becomes while some identifiers are in use: it stays as it is if
it is free, and else gets the least number from one on that makes it free. No
more numbers are tried than there are identifiers in use. -/
def Chooses (used : List String) (base identifier : String) : Prop :=
  (base ∉ used ∧ identifier = base) ∨
    base ∈ used ∧ ∃ n ≤ used.length, IsLeast {n | 1 ≤ n ∧ candidate base n ∉ used} n ∧
      identifier = candidate base n

theorem Chooses.not_mem (h : Chooses used base identifier) : identifier ∉ used := by
  obtain ⟨hfree, rfl⟩ | ⟨-, n, -, hn, rfl⟩ := h
  · exact hfree
  · exact hn.1.2

/-- The order in which identifiers were taken does not matter. -/
theorem Chooses.of_perm (hperm : used.Perm used') (h : Chooses used base identifier) :
    Chooses used' base identifier := by
  simpa only [Chooses, hperm.mem_iff, hperm.length_eq] using h

/-- **A reservation chooses**, whatever is in use. -/
theorem chooses_freeIdentifier (c : Context) (base : String) :
    Chooses c.identifiers base (c.freeIdentifier base) := by
  rw [freeIdentifier, isReserved]
  by_cases hbase : base ∈ c.identifiers
  · rw [if_pos (List.contains_iff_mem.2 hbase)]
    obtain ⟨k, hpos, hlength, hfree⟩ := exists_free_candidate hbase
    -- the least of the free numbers, of which there is one
    obtain ⟨n, hn⟩ : ∃ n, IsLeast {n | 1 ≤ n ∧ candidate base n ∉ c.identifiers} n :=
      ⟨_, Nat.isLeast_find ⟨k, hpos, hfree⟩⟩
    have hle : n ≤ c.identifiers.length := (hn.2 ⟨hpos, hfree⟩).trans hlength
    exact .inr ⟨hbase, n, hle, hn, numbered_eq_candidate hn (by omega)⟩
  · rw [if_neg (fun h => hbase (List.contains_iff_mem.1 h))]
    exact .inl ⟨hbase, rfl⟩

/-! ## What a history takes -/

/-- The second context has some identifiers in use beside those of the first, in
the order in which they were taken, and takes none twice. -/
structure Takes (c : Context) (names : List String) (c' : Context) : Prop where
  identifiers : c'.identifiers = names.reverse ++ c.identifiers
  nodup : c.identifiers.Nodup → c'.identifiers.Nodup

theorem Takes.refl (c : Context) : c.Takes [] c :=
  ⟨rfl, id⟩

theorem Takes.trans (h : c.Takes names c') (h' : c'.Takes names' c'') :
    c.Takes (names ++ names') c'' where
  identifiers := by rw [h'.identifiers, h.identifiers, List.reverse_append, List.append_assoc]
  nodup hc := h'.nodup (h.nodup hc)

/-- A reservation takes the identifier that it gives. -/
theorem takes_reserve (c : Context) (base : String) :
    c.Takes [(c.reserve base).1] (c.reserve base).2 where
  identifiers := rfl
  nodup hc := List.nodup_cons.2 ⟨(chooses_freeIdentifier c base).not_mem, hc⟩

/-- A fresh context has the name of its design in use. -/
theorem identifiers_of_create {config : HardwareConfig} (h : create name config = .ok ctx) :
    ctx.identifiers = [name] := by
  simp only [create, check_ok_iff, bind_ok_iff, pure_ok_iff] at h
  obtain ⟨-, _, -, rfl⟩ := h
  rfl

/-- **What a history took that began in a fresh context** is in use afterwards,
and nothing else but the name of the design; nothing was taken twice. -/
theorem Takes.of_create {config : HardwareConfig} (hctx : create name config = .ok ctx)
    (h : ctx.Takes names c) :
    (name :: names).Nodup ∧
      ∀ identifier, c.isReserved identifier ↔ identifier = name ∨ identifier ∈ names := by
  have hname := identifiers_of_create hctx
  have hused : c.identifiers.Perm (name :: names) := by
    rw [h.identifiers, hname]
    exact List.perm_append_comm.trans (names.reverse_perm.cons name)
  refine ⟨hused.nodup_iff.1 (h.nodup (by rw [hname]; exact List.nodup_singleton name)),
    fun identifier => ?_⟩
  rw [isReserved, List.contains_iff_mem, hused.mem_iff, List.mem_cons]

/-! ## Reservations one after the other -/

/-- The identifiers that reservations give one after the other, and the context
after them. -/
def reserveAll (c : Context) : List String → List String × Context
  | [] => ([], c)
  | base :: bases =>
    let rest := (c.reserve base).2.reserveAll bases
    ((c.reserve base).1 :: rest.1, rest.2)

theorem length_reserveAll (c : Context) (bases : List String) :
    (c.reserveAll bases).1.length = bases.length := by
  induction bases generalizing c with
  | nil => rfl
  | cons base bases ih => rw [reserveAll, List.length_cons, ih, List.length_cons]

theorem takes_reserveAll (c : Context) (bases : List String) :
    c.Takes (c.reserveAll bases).1 (c.reserveAll bases).2 := by
  induction bases generalizing c with
  | nil => exact .refl c
  | cons base bases ih => exact (takes_reserve c base).trans (ih (c.reserve base).2)

/-- **Each reservation chooses** among what was in use at first and what the
reservations before it took. -/
theorem chooses_reserveAll (c : Context) (bases : List String) {k : Nat}
    (hbase : bases[k]? = some base) (hidentifier : (c.reserveAll bases).1[k]? = some identifier) :
    Chooses (((c.reserveAll bases).1.take k).reverse ++ c.identifiers) base identifier := by
  induction bases generalizing c k with
  | nil => cases hbase
  | cons first bases ih =>
    cases k with
    | zero =>
      obtain rfl := Option.some.inj hbase
      obtain rfl := Option.some.inj hidentifier
      exact chooses_freeIdentifier c first
    | succ k =>
      have hrest := ih (c.reserve first).2 hbase hidentifier
      rw [(takes_reserve c first).identifiers] at hrest
      simpa [reserveAll] using hrest

/-! ## Emission -/

/-- Planning operators takes the identifiers of their blocks. -/
theorem takes_planOperators {d : Design} {machineName : String} {latency : Nat}
    {order : List OperatorId} {plans : List OperatorPlan}
    (h : (planOperators d machineName latency order c).outcome = .ok (plans, c')) :
    c.Takes (plans.map (·.block)) c' := by
  induction order generalizing c plans with
  | nil =>
    obtain ⟨rfl, rfl⟩ := Prod.mk.inj (Except.ok.inj h)
    exact .refl c
  | cons id order ih =>
    simp only [planOperators, Traced.outcome_bind, bind_ok_iff, Traced.outcome_liftM,
      mapError_ok_iff, Traced.outcome_pure, Except.ok.injEq, Prod.mk.injEq] at h
    obtain ⟨plan, hplan, -, -, ⟨rest, after⟩, hrest, rfl, rfl⟩ := h
    have hblock := Graph.block_planOperator hplan
    rw [List.map_cons, hblock]
    exact (takes_reserve c _).trans (ih hrest)

/-- **Emitting a machine takes its name and the identifiers of its blocks.** -/
theorem takes_machine {d : Design} {latency : Nat} {m : Machine}
    (h : (d.machine latency c).outcome = .ok (m, c')) :
    c.Takes (m.name :: m.plans.map (·.block)) c' := by
  simp only [Design.machine, Traced.outcome_bind, bind_ok_iff, Traced.outcome_liftM,
    mapError_ok_iff, Traced.outcome_pure, Except.ok.injEq, Prod.mk.injEq] at h
  obtain ⟨order, -, ⟨plans, after⟩, hplans, -, -, rfl, rfl⟩ := h
  exact (takes_reserve c d.name).trans (takes_planOperators hplans)

/-- What happens to a context: an identifier is reserved, a stage begins, or a
design is emitted. -/
inductive Step where
  | reserve (base : String)
  | enter (stage : Stage)
  | emit (backend : MachineBackend) (design : Design)

/-- The identifiers that a step takes, and the context after it. An emission
that fails has no machine to name; what it reserved until then counts as
reservations. -/
def step (c : Context) : Step → Except CompileError (List String × Context)
  | .reserve base => .ok ([(c.reserve base).1], (c.reserve base).2)
  | .enter stage => .ok ([], { c with stage := some stage })
  | .emit backend design => do
    let (m, c) ← (Backend.emit backend c design).2.outcome
    return (m.name :: m.plans.map (·.block), c)

/-- The identifiers that steps take one after the other, and the context after
them. -/
def steps (c : Context) : List Step → Except CompileError (List String × Context)
  | [] => .ok ([], c)
  | s :: rest => do
    let (names, c) ← c.step s
    let (more, c) ← c.steps rest
    return (names ++ more, c)

theorem takes_step {s : Step} (h : c.step s = .ok (names, c')) : c.Takes names c' := by
  cases s with
  | reserve base =>
    obtain ⟨rfl, rfl⟩ := Prod.mk.inj (Except.ok.inj h)
    exact takes_reserve c base
  | enter stage =>
    obtain ⟨rfl, rfl⟩ := Prod.mk.inj (Except.ok.inj h)
    exact ⟨rfl, id⟩
  | emit backend design =>
    simp only [step, bind_ok_iff, pure_ok_iff, Prod.mk.injEq] at h
    obtain ⟨⟨m, after⟩, hemit, rfl, rfl⟩ := h
    exact takes_machine hemit

theorem takes_steps {s : List Step} (h : c.steps s = .ok (names, c')) : c.Takes names c' := by
  induction s generalizing c names with
  | nil =>
    obtain ⟨rfl, rfl⟩ := Prod.mk.inj (Except.ok.inj h)
    exact .refl c
  | cons first rest ih =>
    simp only [steps, bind_ok_iff, pure_ok_iff, Prod.mk.injEq] at h
    obtain ⟨⟨taken, middle⟩, hfirst, ⟨more, after⟩, hrest, rfl, rfl⟩ := h
    exact (takes_step hfirst).trans (ih hrest)

/-- **No identifier is given twice.** In a fresh context identifiers are
reserved for any bases, one after the other. Each reservation ends, with the
base itself if it is free and else with the least number that is free; the
identifiers differ from each other and from the name of the design, and exactly
these are in use afterwards. So every machine that is emitted in the context,
every block of such a machine, and whatever is reserved in between, has a name
of its own. -/
theorem reservations_distinct {config : HardwareConfig} (hctx : create name config = .ok ctx) :
    (∀ bases : List String,
      let run := ctx.reserveAll bases
      run.1.length = bases.length ∧ (name :: run.1).Nodup ∧
      (∀ k base identifier, bases[k]? = some base → run.1[k]? = some identifier →
        Chooses (name :: run.1.take k) base identifier) ∧
      ∀ identifier, run.2.isReserved identifier ↔ identifier = name ∨ identifier ∈ run.1) ∧
    ∀ history names ctx', ctx.steps history = .ok (names, ctx') →
      (name :: names).Nodup ∧
        ∀ identifier, ctx'.isReserved identifier ↔ identifier = name ∨ identifier ∈ names := by
  refine ⟨fun bases => ?_, fun history names ctx' h => (takes_steps h).of_create hctx⟩
  intro run
  obtain ⟨hnodup, hreserved⟩ := (takes_reserveAll ctx bases).of_create hctx
  refine ⟨length_reserveAll ctx bases, hnodup, fun k base identifier hbase hidentifier =>
    ?_, hreserved⟩
  refine (chooses_reserveAll ctx bases hbase hidentifier).of_perm ?_
  rw [identifiers_of_create hctx]
  exact List.perm_append_comm.trans ((run.1.take k).reverse_perm.cons name)

/-- Numbers that were asked for by name are passed over, and the dense layer is
emitted twice. -/
theorem reservations_distinct_dense : ∃ d names ctx',
    create "dense" Graph.denseConfig = .ok Graph.denseContext ∧
    (Graph.denseContext.reserveAll ["a_1", "a", "a", "dense"]).1 = ["a_1", "a", "a_2", "dense_1"] ∧
    ("dense" :: (Graph.denseContext.reserveAll ["a_1", "a", "a", "dense"]).1).Nodup ∧
    Graph.denseContext.steps [.emit {} d, .reserve "add_z", .enter .emit, .emit {} d] =
      .ok (names, ctx') ∧
    names = ["dense_1", "matmul_y", "add_z", "add_z_1", "dense_2", "matmul_y_1", "add_z_2"] ∧
    ("dense" :: names).Nodup := by
  have hok : (Graph.denseCompilation.toOption.any fun c =>
      (Graph.denseContext.steps [.emit {} c.design, .reserve "add_z", .enter .emit,
        .emit {} c.design]).toOption.any fun r =>
          r.1 = ["dense_1", "matmul_y", "add_z", "add_z_1", "dense_2", "matmul_y_1", "add_z_2"]) =
            true := by
    decide +kernel
  obtain ⟨c, -, hrun⟩ := (Option.any_eq_true _ _).1 hok
  obtain ⟨⟨names, ctx'⟩, hsteps, hnames⟩ := (Option.any_eq_true _ _).1 hrun
  have hctx : create "dense" Graph.denseConfig = .ok Graph.denseContext := rfl
  obtain ⟨hreserve, hhistory⟩ := reservations_distinct hctx
  have hsteps := toOption_eq_some_iff.1 hsteps
  exact ⟨c.design, names, ctx', hctx, by decide +kernel, (hreserve _).2.1, hsteps,
    of_decide_eq_true hnames, (hhistory _ _ _ hsteps).1⟩

end Context

end QuantAccel
