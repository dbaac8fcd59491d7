import QuantAccel.Proofs.Construction

/-!
# Steps that fail

The steps of a call write to the graph one after the other, so a call that fails
halfway would leave a part of its work behind: a result without an operator.
That does not happen. Every operator has the name of its result (`Named`), so a
name that is free for the result is free for the operator too, and the second
step of a call cannot fail once the first has not. With that, a call that fails
changes nothing, and what the calls that succeed keep holds of every graph that
is built. A property that new tensors have and that marks keep is one of all
tensors of such a graph (`Lasting.of_build`).
-/

namespace QuantAccel

/-! ## Tables of names -/

/-- The table gives exactly the positions below `n` under their names, and no
name twice. -/
structure NameTable (table : List (String × Nat)) (n : Nat) (name : Nat → String) : Prop where
  nodup : (table.map (·.1)).Nodup
  mem_iff : ∀ s i, (s, i) ∈ table ↔ i < n ∧ name i = s

namespace NameTable

variable {table : List (String × Nat)} {n : Nat} {name name' : Nat → String} {s : String}

theorem nil : NameTable [] 0 name :=
  ⟨List.nodup_nil, fun s i => by simp⟩

/-- A name table is one of the names that it lists. -/
theorem congr (h : NameTable table n name) (hname : ∀ i < n, name' i = name i) :
    NameTable table n name' := by
  refine ⟨h.nodup, fun s i => (h.mem_iff s i).trans ?_⟩
  constructor
  · rintro ⟨hi, rfl⟩
    exact ⟨hi, hname i hi⟩
  · rintro ⟨hi, rfl⟩
    exact ⟨hi, (hname i hi).symm⟩

/-- A name that is not in the table is free. -/
theorem lookup_eq_none_iff (h : NameTable table n name) :
    table.lookup s = none ↔ ∀ i < n, name i ≠ s := by
  rw [List.lookup_eq_none_iff]
  constructor
  · rintro hnone i hi rfl
    simpa using hnone (name i, i) ((h.mem_iff _ i).2 ⟨hi, rfl⟩)
  · rintro hfree ⟨s', i⟩ hmem
    obtain ⟨hi, rfl⟩ := (h.mem_iff s' i).1 hmem
    exact bne_iff_ne.2 (hfree i hi).symm

/-- One more position, under a name that is free. -/
theorem push (h : NameTable table n name) (hfree : table.lookup s = none)
    (hname : ∀ i < n, name' i = name i) (hnew : name' n = s) :
    NameTable ((s, n) :: table) (n + 1) name' := by
  have hs := h.lookup_eq_none_iff.1 hfree
  refine ⟨?_, fun s' i => ?_⟩
  · rw [List.map_cons, List.nodup_cons]
    refine ⟨fun hmem => ?_, h.nodup⟩
    obtain ⟨⟨s', i⟩, hin, heq⟩ := List.mem_map.1 hmem
    obtain ⟨hi, hi'⟩ := (h.mem_iff s' i).1 hin
    exact hs i hi (hi'.trans heq)
  · rw [List.mem_cons, (h.congr hname).mem_iff, Prod.mk.injEq]
    constructor
    · rintro (⟨rfl, rfl⟩ | ⟨hi, rfl⟩)
      · exact ⟨by omega, hnew⟩
      · exact ⟨by omega, rfl⟩
    · rintro ⟨hi, rfl⟩
      rcases Nat.lt_succ_iff_lt_or_eq.1 hi with hi | rfl
      · exact .inr ⟨hi, rfl⟩
      · exact .inl ⟨hnew, rfl⟩

/-- A name is that of one position. -/
theorem injective (h : NameTable table n name) {i j : Nat} (hi : i < n) (hj : j < n)
    (heq : name i = name j) : i = j := by
  have hin := (h.mem_iff (name j) i).2 ⟨hi, heq⟩
  have hjn := (h.mem_iff (name j) j).2 ⟨hj, rfl⟩
  exact congrArg Prod.snd (List.inj_on_of_nodup_map h.nodup hin hjn rfl)

end NameTable

namespace Graph

variable {g g' : Graph} {name : String} {shape : Shape} {element : ElementType} {id : TensorId}

/-- What holds of the names and the values of a graph while it is built. -/
structure Named (g : Graph) : Prop where
  tensors : NameTable g.tensorNames g.tensors.size fun id => (g.tensor id).name
  operators : NameTable g.operatorNames g.operators.size fun id => (g.operator id).name
  operator_name : ∀ i < g.operators.size, (g.operator i).name =
    (g.tensor (g.operator i).output).name
  finite : ∀ id < g.tensors.size, ∀ values, (g.tensor id).kind.values? = some values →
    ∀ v ∈ values, v.isFinite

theorem named_empty : ({} : Graph).Named :=
  ⟨.nil, .nil, fun _ hi => absurd hi (Nat.not_lt_zero _), fun _ hi => absurd hi (Nat.not_lt_zero _)⟩

section Push

variable {t : Tensor}

/-- A new tensor under a name that is free. -/
theorem Named.push_names (hn : g.Named) (ht : g'.tensors = g.tensors.push t)
    (hnames : g'.tensorNames = (t.name, g.tensors.size) :: g.tensorNames)
    (hfree : g.tensorNamed? t.name = none) :
    NameTable g'.tensorNames g'.tensors.size fun id => (g'.tensor id).name := by
  rw [hnames, ht, Array.size_push]
  refine hn.tensors.push hfree (fun id hid => ?_) ?_
  · rw [tensor_of_push ht hid]
  · rw [tensor_of_push_self ht]

/-- The values of all parameters stay finite when a tensor with finite values
is added. -/
theorem Named.push_finite (hn : g.Named) (ht : g'.tensors = g.tensors.push t)
    (hfinite : ∀ values, t.kind.values? = some values → ∀ v ∈ values, v.isFinite) :
    ∀ id < g'.tensors.size, ∀ values, (g'.tensor id).kind.values? = some values →
      ∀ v ∈ values, v.isFinite :=
  (forall_tensor_push
    (P := fun _ t => ∀ values, t.kind.values? = some values → ∀ v ∈ values, v.isFinite) ht).2
    ⟨hn.finite, hfinite⟩

end Push

/-- **Every step keeps the names.** -/
theorem Named.step (hn : g.Named) (hg : g.WellFormed) (h : g.Step g') : g'.Named := by
  -- the check of a new tensor is what keeps names apart; marks leave names
  -- alone
  cases h with
  | tensor hcheck hkind hfinite =>
    obtain ⟨hfree, -⟩ := checkTensor_ok hcheck
    refine ⟨hn.push_names rfl rfl hfree, hn.operators, fun i hi => ?_, hn.push_finite rfl hfinite⟩
    refine (hn.operator_name i hi).trans (congrArg Tensor.name ?_)
    exact (tensor_of_push rfl (hg.output_lt i hi)).symm
  | result hcheck hname hout hin hshaped =>
    obtain ⟨hfree, -⟩ := checkTensor_ok hcheck
    refine ⟨hn.push_names rfl rfl hfree, ?_, fun i hi => ?_,
      hn.push_finite rfl fun values hvalues => by cases hvalues⟩
    · dsimp only
      rw [Array.size_push]
      refine hn.operators.push hname (fun i hi => ?_) ?_
      · rw [operator_of_push rfl hi]
      · rw [operator_of_push_self rfl]
    · dsimp only at hi
      rw [Array.size_push] at hi
      rcases Nat.lt_succ_iff_lt_or_eq.1 hi with hi | rfl
      · rw [operator_of_push rfl hi, tensor_of_push rfl (hg.output_lt i hi)]
        exact hn.operator_name i hi
      · rw [operator_of_push_self rfl, Operator.output, hout, tensor_of_push_self rfl]
  | @mark id f hf hresult hvalues =>
    have hsize : (g.modifyTensor id f).tensors.size = g.tensors.size := Array.size_modify
    have hname (i : TensorId) (hi : i < g.tensors.size) :
        ((g.modifyTensor id f).tensor i).name = (g.tensor i).name := by
      rw [tensor_modify id hi]
      split
      · exact (hf _).2.1
      · rfl
    refine ⟨?_, hn.operators, fun i hi => ?_, fun i hi => ?_⟩
    · rw [hsize]
      exact hn.tensors.congr hname
    · exact (hn.operator_name i hi).trans (hname _ (hg.output_lt i hi)).symm
    · rw [hsize] at hi
      rw [tensor_modify id hi]
      split
      · subst id
        rw [hvalues]
        exact hn.finite i hi
      · exact hn.finite i hi

/-! ## Calls that fail -/

/-- **A name that is free for a tensor is free for an operator.** -/
theorem Named.operatorNamed?_eq_none (hn : g.Named) (hg : g.WellFormed)
    (hfree : g.tensorNamed? name = none) : g.operatorNamed? name = none := by
  refine hn.operators.lookup_eq_none_iff.2 fun i hi heq => ?_
  refine hn.tensors.lookup_eq_none_iff.1 hfree _ (hg.output_lt i hi) ?_
  rw [← hn.operator_name i hi, heq]

variable {fault : GraphFault}

/-- A tensor that is refused changes nothing. -/
theorem addTensor_error {kind : TensorKind}
    (h : runFrom (addTensor name shape element kind) g = (.error fault, g')) : g' = g := by
  rw [runFrom_addTensor] at h
  split at h
  · cases h
    rfl
  · cases h

/-- A parameter that is refused changes nothing. -/
theorem addParameter_error {kind : Array Float → TensorKind} {values : Array Float}
    (h : runFrom (addParameter kind name shape element values) g = (.error fault, g')) :
    g' = g := by
  rcases runFrom_bind_error.1 h with hcheck | ⟨_, t, hcheck, hadd⟩
  · exact (runFrom_liftM_error.1 hcheck).2
  · obtain ⟨-, rfl⟩ := runFrom_liftM_ok.1 hcheck
    exact addTensor_error hadd

/-- The tensor is added only where the operator can be added as well. -/
theorem addResult_error (hn : g.Named) (hg : g.WellFormed)
    {shapeFrom : Graph → Except GraphFault Shape} {operation : TensorId → Operation}
    (h : runFrom (addResult name shapeFrom element operation) g = (.error fault, g')) : g' = g := by
  rw [addResult, runFrom_bind, runFrom_get] at h
  rcases runFrom_bind_error.1 h with hshape | ⟨shape, t, hshape, hrest⟩
  · exact (runFrom_liftM_error.1 hshape).2
  obtain ⟨-, rfl⟩ := runFrom_liftM_ok.1 hshape
  rcases runFrom_bind_error.1 hrest with hadd | ⟨output, g₁, hadd, hrest'⟩
  · exact addTensor_error hadd
  rw [runFrom_addTensor] at hadd
  split at hadd
  · cases hadd
  · rename_i hcheck
    cases hadd
    -- the tensor is in, so the operator has to get in too
    have hfree := hn.operatorNamed?_eq_none hg (checkTensor_ok hcheck).1
    rw [runFrom_bind, runFrom_addOperator, if_neg] at hrest'
    · cases hrest'
    · exact Option.not_isSome_iff_eq_none.2 hfree

/-- A mark that is refused changes nothing. -/
theorem markOutput_error (h : runFrom (markOutput id) g = (.error fault, g')) : g' = g := by
  rw [markOutput, runFrom_bind, runFrom_get] at h
  dsimp only at h
  split at h
  · cases h
    rfl
  · split at h
    · cases h
    · cases h
      rfl

/-- A permutation that is refused changes nothing. -/
theorem permuteAxes_error {axes : List Nat}
    (h : runFrom (permuteAxes id axes) g = (.error fault, g')) : g' = g := by
  rw [permuteAxes, runFrom_bind, runFrom_get] at h
  rcases runFrom_bind_error.1 h with hshape | ⟨shape, t, hshape, hrest⟩
  · exact (runFrom_liftM_error.1 hshape).2
  obtain ⟨-, rfl⟩ := runFrom_liftM_ok.1 hshape
  split at hrest
  · cases hrest
  · cases hrest
    rfl

/-- **A call that fails leaves the graph as it was.** -/
theorem call_error (hn : g.Named) (hg : g.WellFormed) {c : BuildCall}
    (h : g.call c = (.error fault, g')) : g' = g := by
  -- the answer that follows the steps of a call does not fail
  have hsteps {α : Type} {x : Building α} {f : α → Option TensorId}
      (h : runFrom (x >>= fun a => pure (f a)) g = (.error fault, g')) :
      runFrom x g = (.error fault, g') := by
    rcases runFrom_bind_error.1 h with h | ⟨a, t, -, h⟩
    · exact h
    · cases h
  cases c with
  | placeholder name shape element => exact addTensor_error (hsteps h)
  | trained name shape element values => exact addParameter_error (hsteps h)
  | fixed name shape element values => exact addParameter_error (hsteps h)
  | matmul name left right bias element => exact addResult_error hn hg (hsteps h)
  | linear name input weights bias activation element => exact addResult_error hn hg (hsteps h)
  | sum name left right element => exact addResult_error hn hg (hsteps h)
  | normalization name input gain offset activation element =>
    exact addResult_error hn hg (hsteps h)
  | activation name input activation element => exact addResult_error hn hg (hsteps h)
  | output id => exact markOutput_error (hsteps h)
  | axes id axes => exact permuteAxes_error (hsteps h)

/-! ## Built graphs -/

/-- **What every call keeps holds of every graph that is built.** -/
theorem build_keeps {I : Graph → Prop} (hempty : I {}) (hcall : ∀ g c, I g → I (call g c).2)
    (calls : List BuildCall) : I (build calls) :=
  List.foldlRecOn calls _ hempty fun g hg c _ => hcall g c hg

/-- **Every graph that is built is well formed**, whatever calls failed on the
way. -/
theorem built_spec (calls : List BuildCall) : (build calls).WellFormed ∧ (build calls).Named := by
  refine build_keeps (I := fun g => g.WellFormed ∧ g.Named) ⟨wellFormed_empty, named_empty⟩ ?_ calls
  rintro g c ⟨hg, hn⟩
  rcases hc : g.call c with ⟨fault | added, g'⟩
  · obtain rfl := call_error hn hg hc
    exact ⟨hg, hn⟩
  · exact ⟨hg.step (step_call hc), hn.step hg (step_call hc)⟩

/-- Every graph that is built by calls is well formed, also where some of them
failed. -/
theorem wellFormed_build (calls : List BuildCall) : (build calls).WellFormed := (built_spec calls).1

/-- A finished graph was built by calls and has an output. -/
theorem Finished.exists_build (h : g.Finished) :
    ∃ calls, g = build calls ∧ g.outputs ≠ [] := by
  obtain ⟨calls, h⟩ := h
  simp only [finish, traced_check_ok_iff] at h
  obtain ⟨hne, h⟩ := h
  simp only [Traced.outcome_bind, bind_ok_iff, Traced.outcome_pure, Except.ok.injEq] at h
  obtain ⟨-, -, -, -, rfl⟩ := h
  exact ⟨calls, rfl, fun hnil => hne (by rw [hnil]; rfl)⟩

/-- **A finished graph is well formed.** -/
theorem Finished.wellFormed (h : g.Finished) : g.WellFormed := by
  obtain ⟨calls, rfl, -⟩ := h.exists_build
  exact wellFormed_build calls

theorem Finished.named (h : g.Finished) : g.Named := by
  obtain ⟨calls, rfl, -⟩ := h.exists_build
  exact (built_spec calls).2

/-! ## What all tensors have -/

/-- A property that new tensors have and that marks keep. -/
structure Lasting (P : Tensor → Prop) : Prop where
  fresh : ∀ id name shape element kind, P { id, name, shape, element, kind }
  output : ∀ t : Tensor, P t → P { t with kind := .output }
  axes : ∀ (t : Tensor) (axes : List Nat), isAxisPermutation axes t.shape.length → P t →
    P { t with axes := some axes }

section Keeps

variable {α β : Type} {P : Tensor → Prop}

/-- A part of a call, whether it succeeds or not, after which all tensors have a
property if all had it before. -/
def Keeps (P : Tensor → Prop) (x : Building α) : Prop :=
  ∀ g : Graph, (∀ id, P (g.tensor id)) → ∀ id, P ((runFrom x g).2.tensor id)

theorem keeps_pure (a : α) : Keeps P (pure a : Building α) := fun _ hg => hg

theorem keeps_liftM (x : Except GraphFault α) : Keeps P (liftM x : Building α) := fun _ hg => hg

/-- A sequence keeps a property of the tensors if each part does. -/
theorem Keeps.bind {x : Building α} {f : α → Building β} (hx : Keeps P x)
    (hf : ∀ a, Keeps P (f a)) :
    Keeps P (x >>= f) := by
  intro g hg
  have hfirst := hx g hg
  rw [runFrom_bind]
  rcases hrun : runFrom x g with ⟨_ | a, g'⟩ <;> rw [hrun] at hfirst
  · exact hfirst
  · exact hf a g' hfirst

/-- A change of one tensor keeps a property of all if the new tensor has it. -/
theorem forall_modifyTensor (hg : ∀ id, P (g.tensor id)) {f : Tensor → Tensor}
    (hf : P (f (g.tensor id))) :
    ∀ i, P ((g.modifyTensor id f).tensor i) := by
  intro i
  by_cases hi : i < g.tensors.size
  · rw [tensor_modify id hi]
    split
    · subst id
      exact hf
    · exact hg i
  · have hout : g.tensors.size ≤ i := Nat.le_of_not_lt hi
    have hsame : (g.modifyTensor id f).tensor i = g.tensor i := by
      simp [tensor, modifyTensor, Array.getD_eq_getD_getElem?, hout]
    rw [hsame]
    exact hg i

/-- A new tensor has a lasting property. -/
theorem Lasting.keeps_addTensor (h : Lasting P) (name : String) (shape : Shape)
    (element : ElementType) (kind : TensorKind) : Keeps P (addTensor name shape element kind) := by
  intro g hg
  rw [runFrom_addTensor]
  split
  · exact hg
  · intro i
    rcases Nat.lt_trichotomy i g.tensors.size with hi | rfl | hi
    · rw [tensor_of_push rfl hi]
      exact hg i
    · rw [tensor_of_push_self rfl]
      exact h.fresh _ _ _ _ _
    · -- past the end of either graph
      have hold := hg i
      simp only [tensor, Array.getD_eq_getD_getElem?] at hold ⊢
      rwa [Array.getElem?_eq_none (by simp; omega), ← Array.getElem?_eq_none hi.le]

theorem Lasting.keeps_addParameter (h : Lasting P) (kind : Array Float → TensorKind) (name : String)
    (shape : Shape) (element : ElementType) (values : Array Float) :
    Keeps P (addParameter kind name shape element values) :=
  (keeps_liftM _).bind fun _ => h.keeps_addTensor _ _ _ _

/-- So has the output of a new operator. -/
theorem Lasting.keeps_addResult (h : Lasting P) (name : String)
    (shapeFrom : Graph → Except GraphFault Shape) (element : ElementType)
    (operation : TensorId → Operation) :
    Keeps P (addResult name shapeFrom element operation) := by
  have hget : Keeps P (get : Building Graph) := fun _ hg => hg
  have hoperator (operation : Operation) : Keeps P (addOperator name operation) := by
    intro g hg
    rw [runFrom_addOperator]
    split
    · exact hg
    · exact hg
  unfold addResult
  refine hget.bind fun g => (keeps_liftM _).bind fun shape => ?_
  exact (h.keeps_addTensor _ _ _ _).bind fun output => (hoperator _).bind fun _ => keeps_pure _

/-- A mark keeps a lasting property. -/
theorem Lasting.keeps_markOutput (h : Lasting P) (id : TensorId) : Keeps P (markOutput id) := by
  intro g hg
  rw [markOutput, runFrom_get_bind]
  split
  · exact hg
  · split
    · exact forall_modifyTensor hg (h.output _ (hg id))
    · exact hg

/-- So does a permutation of axes. -/
theorem Lasting.keeps_permuteAxes (h : Lasting P) (id : TensorId) (axes : List Nat) :
    Keeps P (permuteAxes id axes) := by
  intro g hg
  rw [permuteAxes, runFrom_get_bind, runFrom_bind, runFrom_liftM]
  cases hshape : g.shapeOf id with
  | error fault => exact hg
  | ok shape =>
    obtain ⟨-, rfl⟩ := shapeOf_ok hshape
    dsimp only
    split
    · rename_i haxes
      exact forall_modifyTensor hg (h.axes _ _ haxes (hg id))
    · exact hg

/-- **A call keeps what lasts**, whether it succeeds or not. -/
theorem Lasting.keeps_steps (h : Lasting P) (c : BuildCall) : Keeps P (steps c) := by
  cases c with
  | placeholder name shape element => exact (h.keeps_addTensor _ _ _ _).bind fun _ => keeps_pure _
  | trained name shape element values =>
    exact (h.keeps_addParameter _ _ _ _ _).bind fun _ => keeps_pure _
  | fixed name shape element values =>
    exact (h.keeps_addParameter _ _ _ _ _).bind fun _ => keeps_pure _
  | matmul name left right bias element =>
    exact (h.keeps_addResult _ _ _ _).bind fun _ => keeps_pure _
  | linear name input weights bias activation element =>
    exact (h.keeps_addResult _ _ _ _).bind fun _ => keeps_pure _
  | sum name left right element => exact (h.keeps_addResult _ _ _ _).bind fun _ => keeps_pure _
  | normalization name input gain offset activation element =>
    exact (h.keeps_addResult _ _ _ _).bind fun _ => keeps_pure _
  | activation name input activation element =>
    exact (h.keeps_addResult _ _ _ _).bind fun _ => keeps_pure _
  | output id => exact (h.keeps_markOutput id).bind fun _ => keeps_pure _
  | axes id axes => exact (h.keeps_permuteAxes id axes).bind fun _ => keeps_pure _

/-- **All tensors of a graph that was built have what lasts.** -/
theorem Lasting.of_build (h : Lasting P) (calls : List BuildCall) :
    ∀ id, P ((build calls).tensor id) :=
  build_keeps (fun _ => h.fresh _ _ _ _ _) (fun g c hg => h.keeps_steps c g hg) calls

end Keeps

/-! ## Finishing -/

/-- The operators of a well formed graph can be ordered. -/
theorem WellFormed.exists_order (hg : g.WellFormed) : ∃ order, g.order = .ok order := by
  -- operands are older than results
  have hacyclic : g.Acyclic := acyclic_of_rank (fun i => (g.operator i).output) fun i j hij =>
    hg.operand_lt j hij.2.1 _ hij.2.2
  exact Graph.exists_order hg.operator_id hg.output_injective hacyclic

/-- A well-formed graph is finished as it is, if it has an output. -/
theorem WellFormed.finish_eq (hg : g.WellFormed) :
    g.finish.outcome = if g.outputs = [] then .error .noOutputs else .ok g := by
  obtain ⟨order, horder⟩ := hg.exists_order
  unfold finish
  by_cases hnil : g.outputs = []
  · simp only [hnil, List.isEmpty_nil, if_true, Traced.outcome_bind, Traced.outcome_throw]
    rfl
  · have hsome : g.outputs.isEmpty = false := by simpa using hnil
    simp only [hsome, hnil, Bool.false_eq_true, if_false, Traced.outcome_bind, Traced.outcome_liftM,
      horder]
    rfl

/-- **What holds of a graph while it is built.** After any calls, with any
arguments and some of them failed, the graph is well formed and named; a further
call that fails changes nothing; and only a graph without a mark for an output
cannot be finished. -/
theorem build_invariant (calls : List BuildCall) :
    (build calls).WellFormed ∧ (build calls).Named ∧
    (∀ c fault g', (build calls).call c = (.error fault, g') → g' = build calls) ∧
    (build calls).finish.outcome =
      if (build calls).outputs = [] then .error .noOutputs else .ok (build calls) := by
  obtain ⟨hg, hn⟩ := built_spec calls
  exact ⟨hg, hn, fun c fault g' h => call_error hn hg h, hg.finish_eq⟩

end Graph

end QuantAccel
