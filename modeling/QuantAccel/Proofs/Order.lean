import QuantAccel.Proofs.Search

/-!
# The dependency order

The fuel of a graph is enough for its search, so the nodes that were left are
all operators, each once (`left_of_all`). The first check reads that no tensor
is written twice. The second search reads that dependencies come first: one that
does not was left too early, and what reads it leads back to it. So **operators
have an order exactly when no tensor is written twice and no operator feeds
itself**, directly or through others.
-/

namespace QuantAccel

/-- A running total is a sum. -/
theorem foldr_add {α : Type} (f : α → Nat) (l : List α) :
    l.foldr (fun a n => f a + n) 0 = (l.map f).sum :=
  (List.foldr_map).symm

end QuantAccel

namespace QuantAccel.Graph

/-! ## The graph -/

variable {g : Graph} {order : List OperatorId}

/-- Operators stand at the positions that their ids name. -/
def OperatorsIndexed (g : Graph) : Prop :=
  ∀ i < g.operators.size, (g.operator i).id = i

instance : Decidable g.OperatorsIndexed :=
  inferInstanceAs (Decidable (∀ i < g.operators.size, (g.operator i).id = i))

theorem operator_eq_getElem {i : OperatorId} (h : i < g.operators.size) :
    g.operator i = g.operators[i] := by
  simp [operator, Array.getD_eq_getD_getElem?, h]

theorem OperatorsIndexed.ids_eq (h : g.OperatorsIndexed) :
    g.operators.toList.map (·.id) = List.range g.operators.size := by
  refine List.ext_getElem (by simp) fun i hi _ => ?_
  have hi' : i < g.operators.size := by simpa using hi
  have hid := h i hi'
  rw [operator_eq_getElem hi'] at hid
  simpa using hid

/-- An operator of the graph is the one at its id. -/
theorem OperatorsIndexed.exists_of_mem (h : g.OperatorsIndexed) {op : Operator}
    (hop : op ∈ g.operators.toList) :
    op.id < g.operators.size ∧ g.operator op.id = op := by
  obtain ⟨i, hi, rfl⟩ := List.getElem_of_mem hop
  have hi' : i < g.operators.size := by simpa using hi
  have hid := h i hi'
  rw [operator_eq_getElem hi'] at hid
  simp only [Array.getElem_toList, hid]
  exact ⟨hi', operator_eq_getElem hi'⟩

theorem operator_mem {i : OperatorId} (hi : i < g.operators.size) :
    g.operator i ∈ g.operators.toList := by
  rw [operator_eq_getElem hi]
  exact Array.mem_toList_iff.2 (Array.getElem_mem hi)

/-- A producer is an operator that writes the tensor. -/
theorem OperatorsIndexed.output_of_producer? (h : g.OperatorsIndexed) {id : TensorId}
    {k : OperatorId} (hp : g.producer? id = some k) :
    k < g.operators.size ∧ (g.operator k).output = id := by
  obtain ⟨op, hfind, rfl⟩ := Option.map_eq_some_iff.1 hp
  obtain ⟨hlt, heq⟩ := h.exists_of_mem (List.mem_of_find?_eq_some hfind)
  refine ⟨hlt, ?_⟩
  rw [heq]
  simpa using List.find?_some hfind

/-- Every successor of a node is a node. -/
theorem OperatorsIndexed.dependents_lt (h : g.OperatorsIndexed) {id k : OperatorId}
    (hk : k ∈ g.dependents id) : k < g.operators.size := by
  simp only [dependents, List.mem_reverse, List.mem_flatMap, List.mem_map] at hk
  obtain ⟨op, hop, -, -, rfl⟩ := hk
  exact (h.exists_of_mem hop).1

/-- An operand has one producer at most. -/
theorem sum_produced_le (g : Graph) (s : Finset OperatorId) (inputs : List TensorId) :
    ∑ id ∈ s, (inputs.filter fun input => g.producer? input == some id).length ≤ inputs.length := by
  induction inputs with
  | nil => simp
  | cons input inputs ih =>
    have hone : ∑ id ∈ s, (if (g.producer? input == some id) = true then 1 else 0) ≤ 1 := by
      cases hp : g.producer? input with
      | none => simp
      | some k =>
        have heq : ∀ id, (some k == some id) = true ↔ k = id := by simp
        simp only [heq, Finset.sum_ite_eq]
        split <;> omega
    have hsplit : ∀ id, ((input :: inputs).filter fun i => g.producer? i == some id).length =
        (if (g.producer? input == some id) = true then 1 else 0) +
          (inputs.filter fun i => g.producer? i == some id).length := by
      intro id
      rw [List.filter_cons]
      split
      · rw [List.length_cons, Nat.add_comm]
      · rw [Nat.zero_add]
    simp only [hsplit, Finset.sum_add_distrib, List.length_cons]
    omega

/-- All dependencies together are at most all operands. -/
theorem sum_dependents_le (g : Graph) :
    ∑ id ∈ Finset.range g.operators.size, (g.dependents id).length ≤
      (g.operators.toList.map fun op => op.inputs.length).sum := by
  unfold dependents
  generalize g.operators.toList = ops
  generalize Finset.range g.operators.size = s
  simp only [List.length_reverse, List.length_flatMap, List.length_map]
  induction ops with
  | nil => simp
  | cons op ops ih =>
    -- the sums change places: over the operands of each operator first
    simp only [List.map_cons, List.sum_cons, Finset.sum_add_distrib]
    exact Nat.add_le_add (g.sum_produced_le s op.inputs) ih

theorem searchFuel_enough (g : Graph) :
    ∑ id ∈ Finset.range g.operators.size, ((g.dependents id).length + 1) + 1 ≤ g.searchFuel := by
  have := sum_dependents_le g
  rw [Finset.sum_add_distrib, Finset.sum_const, Finset.card_range, searchFuel, foldr_add]
  simp only [smul_eq_mul, mul_one]
  omega

/-- A search over all operators that succeeds has found them all. -/
theorem OperatorsIndexed.spec_of_all (h : g.OperatorsIndexed) {s : Search}
    (hall : Search.all g.dependents g.searchFuel (List.range g.operators.size) {} = .ok s) :
    Search.Sound (Finset.range g.operators.size) [] s ∧ Search.Nested g.dependents [] s ∧
      ∀ i < g.operators.size, i ∈ s.found := by
  obtain ⟨hsound, hnested, hfound⟩ := Search.all_spec
    (fun n _ k hk => Finset.mem_range.2 (h.dependents_lt hk)) (searchFuel_enough g)
    (fun n hn => Finset.mem_range.2 (List.mem_range.1 hn)) (Search.sound_empty _)
      (Search.nested_empty _) hall
  exact ⟨hsound, hnested, fun i hi => hfound i (.inr (List.mem_range.2 hi))⟩

/-- **A search over all operators that succeeds** has left each of them once. -/
theorem OperatorsIndexed.left_of_all (h : g.OperatorsIndexed) {s : Search}
    (hall : Search.all g.dependents g.searchFuel (List.range g.operators.size) {} = .ok s) :
    s.left.Nodup ∧ ∀ i, i ∈ s.left ↔ i < g.operators.size := by
  obtain ⟨hsound, -, hfound⟩ := h.spec_of_all hall
  refine ⟨hsound.nodup, fun i => ⟨fun hi => ?_, fun hi => ?_⟩⟩
  · exact Finset.mem_range.1 (hsound.found_mem i (hsound.found_of_left i hi))
  · simpa using hsound.pending i (hfound i hi)

/-! ## The two checks -/

/-- Without a double writer all outputs differ. -/
theorem nodup_of_doubleWriter? {earlier rest : List Operator}
    (hnodup : (earlier.map (·.output)).Nodup) (h : doubleWriter? earlier rest = none) :
    ((earlier ++ rest).map (·.output)).Nodup := by
  induction rest generalizing earlier with
  | nil => simpa using hnodup
  | cons op rest ih =>
    rw [doubleWriter?] at h
    cases hfind : earlier.find? fun other => other.output == op.output with
    | some other => rw [hfind] at h; cases h
    | none =>
      rw [hfind] at h
      have hnew : op.output ∉ earlier.map (·.output) := by
        simp only [List.mem_map, not_exists, not_and]
        intro other hother heq
        have := List.find?_eq_none.1 hfind other hother
        simp [heq] at this
      have hstep : ((earlier ++ [op]).map (·.output)).Nodup := by
        rw [List.map_append, List.nodup_append]
        refine ⟨hnodup, by simp, fun a ha b hb => ?_⟩
        rintro rfl
        simp only [List.map_cons, List.map_nil, List.mem_singleton] at hb
        exact hnew (hb ▸ ha)
      simpa using ih hstep h

/-- A double writer writes what an operator before it writes. -/
theorem exists_of_doubleWriter? {earlier rest : List Operator} {first second : Operator}
    (h : doubleWriter? earlier rest = some (first, second)) : first.output = second.output ∧
      ∃ before after, rest = before ++ second :: after ∧ first ∈ earlier ++ before := by
  induction rest generalizing earlier with
  | nil => cases h
  | cons op rest ih =>
    rw [doubleWriter?] at h
    cases hfind : earlier.find? fun other => other.output == op.output with
    | some other =>
      rw [hfind] at h
      obtain ⟨rfl, rfl⟩ := Prod.mk.inj (Option.some.inj h)
      have hout := List.find?_some hfind
      exact ⟨eq_of_beq hout, [], rest, rfl, by simpa using List.mem_of_find?_eq_some hfind⟩
    | none =>
      rw [hfind] at h
      obtain ⟨hout, before, after, rfl, hmem⟩ := ih h
      exact ⟨hout, op :: before, after, rfl, by simpa using hmem⟩

/-- What a dependency order is: every operator once, no tensor written twice,
and every dependency before its consumer. -/
structure Ordered (g : Graph) (order : List OperatorId) : Prop where
  perm : order.Perm (List.range g.operators.size)
  outputs_nodup : (g.operators.toList.map (·.output)).Nodup
  dependency : ∀ before id after, order = before ++ id :: after →
    ∀ dep ∈ g.dependencies id, dep = id ∨ dep ∈ before

theorem Ordered.mem_iff (h : g.Ordered order) {i : OperatorId} :
    i ∈ order ↔ i < g.operators.size := by
  rw [h.perm.mem_iff, List.mem_range]

theorem Ordered.lt_of_split (h : g.Ordered order) {before after : List OperatorId} {i : OperatorId}
    (hsplit : order = before ++ i :: after) : i < g.operators.size :=
  h.mem_iff.1 (by simp [hsplit])

/-- An order is what a search leaves, if both checks pass. -/
theorem order_eq_ok (hids : g.OperatorsIndexed) : g.order = .ok order ↔
    doubleWriter? [] g.operators.toList = none ∧
      ∃ s, Search.all g.dependents g.searchFuel (List.range g.operators.size) {} = .ok s ∧
        Search.second? g.dependencies [] s.left = none ∧ s.left = order := by
  unfold Graph.order
  rw [hids.ids_eq]
  cases hdouble : doubleWriter? [] g.operators.toList with
  | some pair => simp [bind, Except.bind, throw, throwThe, MonadExceptOf.throw]
  | none =>
    cases hall : Search.all g.dependents g.searchFuel (List.range g.operators.size) {} with
    | error node => simp [hall, throw, throwThe, MonadExceptOf.throw]
    | ok s =>
      cases hsecond : Search.second? g.dependencies [] s.left <;>
        simp [hall, hsecond, pure, Except.pure, throw, throwThe, MonadExceptOf.throw]

/-- **The order of a graph is a dependency order.** -/
theorem ordered_of_order (hids : g.OperatorsIndexed) (h : g.order = .ok order) :
    g.Ordered order := by
  obtain ⟨hdouble, s, hall, hsecond, rfl⟩ := (order_eq_ok hids).1 h
  obtain ⟨hnodup, hmem⟩ := hids.left_of_all hall
  refine ⟨?_, by simpa using nodup_of_doubleWriter? (by simp) hdouble,
    fun before id after hsplit dep hdep => ?_⟩
  · rw [List.perm_ext_iff_of_nodup hnodup List.nodup_range]
    intro n
    rw [hmem, List.mem_range]
  · simpa using Search.mem_of_second? (by simpa using hnodup) hsecond hsplit hdep

/-! ## Cycles -/

/-- The one operator writes a tensor that the other reads. -/
def Feeds (g : Graph) (i j : OperatorId) : Prop :=
  i < g.operators.size ∧ j < g.operators.size ∧ (g.operator i).output ∈ (g.operator j).inputs

/-- No operator feeds itself, directly or through others. -/
def Acyclic (g : Graph) : Prop :=
  ∀ i, ¬ Relation.TransGen g.Feeds i i

/-- No tensor is written by two operators. -/
def WrittenOnce (g : Graph) : Prop :=
  ∀ i < g.operators.size, ∀ j < g.operators.size, (g.operator i).output =
    (g.operator j).output → i = j

theorem writtenOnce_iff : g.WrittenOnce ↔ (g.operators.toList.map (·.output)).Nodup := by
  rw [List.nodup_iff_injective_get]
  constructor
  · rintro honce ⟨i, hi⟩ ⟨j, hj⟩ heq
    simp only [List.length_map, Array.length_toList] at hi hj
    refine Fin.ext (honce i hi j hj ?_)
    rw [operator_eq_getElem hi, operator_eq_getElem hj]
    simpa using heq
  · intro hinjective i hi j hj heq
    have hlen : (g.operators.toList.map (·.output)).length = g.operators.size := by simp
    rw [operator_eq_getElem hi, operator_eq_getElem hj] at heq
    have hfin : (⟨i, hlen ▸ hi⟩ : Fin _) = ⟨j, hlen ▸ hj⟩ := hinjective (by simpa using heq)
    exact congrArg Fin.val hfin

/-- Operators that feed only higher ranks have no cycle. -/
theorem acyclic_of_rank (rank : OperatorId → Nat) (h : ∀ i j, g.Feeds i j → rank i < rank j) :
    g.Acyclic := by
  have hpath : ∀ i j, Relation.TransGen g.Feeds i j → rank i < rank j := by
    intro i j hij
    induction hij with
    | single hstep => exact h _ _ hstep
    | tail _ hstep ih => exact ih.trans (h _ _ hstep)
  exact fun i hi => lt_irrefl _ (hpath i i hi)

section Cycles

variable (hids : g.OperatorsIndexed) (honce : g.WrittenOnce)

include hids honce

/-- Where no tensor is written twice, its producer is the operator that writes
it. -/
theorem producer?_eq_some_iff {id : TensorId} {i : OperatorId} :
    g.producer? id = some i ↔ i < g.operators.size ∧ (g.operator i).output = id := by
  refine ⟨hids.output_of_producer?, fun ⟨hi, hout⟩ => ?_⟩
  cases hp : g.producer? id with
  | none =>
    have hnone := List.find?_eq_none.1 (Option.map_eq_none_iff.1 hp) _ (operator_mem hi)
    simp [hout] at hnone
  | some k =>
    obtain ⟨hk, hout'⟩ := hids.output_of_producer? hp
    rw [honce k hk i hi (hout'.trans hout.symm)]

theorem mem_dependencies_iff {i j : OperatorId} (hj : j < g.operators.size) :
    i ∈ g.dependencies j ↔ g.Feeds i j := by
  simp only [dependencies, List.mem_reverse, List.mem_filterMap, producer?_eq_some_iff hids honce,
    Feeds]
  constructor
  · rintro ⟨input, hinput, hi, rfl⟩
    exact ⟨hi, hj, hinput⟩
  · rintro ⟨hi, -, hinput⟩
    exact ⟨_, hinput, hi, rfl⟩

theorem mem_dependents_iff {i j : OperatorId} : j ∈ g.dependents i ↔ g.Feeds i j := by
  simp only [dependents, List.mem_reverse, List.mem_flatMap, List.mem_map, List.mem_filter,
    beq_iff_eq, producer?_eq_some_iff hids honce, Feeds]
  constructor
  · rintro ⟨op, hop, input, ⟨hinput, hi, rfl⟩, rfl⟩
    obtain ⟨hlt, heq⟩ := hids.exists_of_mem hop
    exact ⟨hi, hlt, by rwa [heq]⟩
  · rintro ⟨hi, hj, hinput⟩
    exact ⟨g.operator j, operator_mem hj, _, ⟨hinput, hi, rfl⟩, hids j hj⟩

theorem feeds_of_leads {i j : OperatorId} (h : Search.Leads g.dependents i j) :
    Relation.TransGen g.Feeds i j :=
  Relation.TransGen.mono (fun _ _ hstep => (mem_dependents_iff hids honce).1 hstep) i j h

/-- **What the second search comes to is on a cycle**: it was left before its
consumer, which therefore leads to it. -/
theorem cycle_of_second {s : Search}
    (hall : Search.all g.dependents g.searchFuel (List.range g.operators.size) {} = .ok s)
    {dep : OperatorId} (hsecond : Search.second? g.dependencies [] s.left = some dep) :
    Relation.TransGen g.Feeds dep dep := by
  obtain ⟨-, hnested, -⟩ := hids.spec_of_all hall
  obtain ⟨hnodup, hmem⟩ := hids.left_of_all hall
  obtain ⟨before, id, after, hsplit, hdep, hne, hbefore, -⟩ :=
    Search.exists_of_second? (by simpa using hnodup) hsecond
  have hid : id < g.operators.size := (hmem id).1 (by simp [hsplit])
  have hfeeds := (mem_dependencies_iff hids honce hid).1 hdep
  have hafter : dep ∈ after := by
    have hin := (hmem dep).2 hfeeds.1
    rw [hsplit] at hin
    simpa [hne, hbefore] using hin
  obtain ⟨between, rest, rfl⟩ := List.append_of_mem hafter
  have hsettled := hnested.settled (before ++ id :: between) dep rest (by simp [hsplit]) id
    ((mem_dependents_iff hids honce).2 hfeeds)
  rcases hsettled with hagain | hleads
  · -- the consumer cannot have been left twice
    rw [hsplit, List.nodup_append] at hnodup
    exact absurd (by simp [hagain]) (List.nodup_cons.1 hnodup.2.1).1
  · exact (feeds_of_leads hids honce hleads).head hfeeds

end Cycles

/-- What an error of the order says is so: two operators write a tensor, or an
operator feeds itself. -/
def Blames (g : Graph) : GraphFault → Prop
  | .writtenTwice tensor first second => ∃ i j, i < j ∧ j < g.operators.size ∧
      (g.operator i).output = (g.operator j).output ∧
        tensor = (g.tensor (g.operator j).output).name ∧
      first = (g.operator i).name ∧ second = (g.operator j).name
  | .cyclic name => ∃ i, Relation.TransGen g.Feeds i i ∧ name = (g.operator i).name
  | _ => False

/-- What is blamed on a graph is a tensor written twice or a cycle. -/
theorem Blames.not_acyclic {fault : GraphFault} (h : g.Blames fault) (honce : g.WrittenOnce) :
    ¬ g.Acyclic := by
  intro hacyclic
  cases fault with
  | writtenTwice tensor first second =>
    obtain ⟨i, j, hij, hj, hout, -⟩ := h
    have := honce i (by omega) j hj hout
    omega
  | cyclic name =>
    obtain ⟨i, hcycle, -⟩ := h
    exact hacyclic i hcycle
  | _ => exact h

theorem blames_of_doubleWriter? {first second : Operator}
    (h : doubleWriter? [] g.operators.toList = some (first, second)) :
    g.Blames (.writtenTwice (g.tensor second.output).name first.name second.name) := by
  obtain ⟨hout, before, after, hsplit, hfirst⟩ := exists_of_doubleWriter? h
  obtain ⟨i, hi, rfl⟩ := List.getElem_of_mem hfirst
  rw [List.nil_append] at hi
  have hat (k : OperatorId) : g.operator k = (before ++ second :: after)[k]?.getD default := by
    rw [← hsplit, Array.getElem?_toList]
    exact Array.getD_eq_getD_getElem?
  have hati : g.operator i = before[i] := by simp [hat, List.getElem?_append_left hi, hi]
  have hatj : g.operator before.length = second := by simp [hat]
  have hsize : g.operators.size = before.length + (after.length + 1) := by
    rw [← Array.length_toList, hsplit, List.length_append, List.length_cons]
  refine ⟨i, before.length, hi, by omega, ?_, ?_, ?_, ?_⟩
  · rw [hati, hatj]
    exact hout
  · rw [hatj]
  · rw [hati]
    rfl
  · rw [hatj]

/-- **An order, or an error that the graph is to blame for.** -/
theorem order_or_blames (hids : g.OperatorsIndexed) :
    (∃ order, g.order = .ok order) ∨ ∃ fault, g.order = .error fault ∧ g.Blames fault := by
  cases hdouble : doubleWriter? [] g.operators.toList with
  | some pair =>
    obtain ⟨first, second⟩ := pair
    refine .inr ⟨_, ?_, blames_of_doubleWriter? hdouble⟩
    simp [Graph.order, hdouble, bind, Except.bind, throw, throwThe, MonadExceptOf.throw]
  | none =>
    have honce : g.WrittenOnce :=
      writtenOnce_iff.2 (by simpa using nodup_of_doubleWriter? (by simp) hdouble)
    cases hall : Search.all g.dependents g.searchFuel (List.range g.operators.size) {} with
    | error node =>
      have hself := (mem_dependents_iff hids honce).1 (Search.self_of_all_error hall)
      refine .inr ⟨.cyclic (g.operator node).name, ?_, node, .single hself, rfl⟩
      simp [Graph.order, hdouble, hids.ids_eq, hall, throw, throwThe, MonadExceptOf.throw]
    | ok s =>
      cases hsecond : Search.second? g.dependencies [] s.left with
      | some dep =>
        refine .inr ⟨.cyclic (g.operator dep).name, ?_, dep,
          cycle_of_second hids honce hall hsecond, rfl⟩
        simp [Graph.order, hdouble, hids.ids_eq, hall, hsecond, throw, throwThe,
          MonadExceptOf.throw]
      | none => exact .inl ⟨s.left, (order_eq_ok hids).2 ⟨hdouble, s, hall, hsecond, rfl⟩⟩

/-- **A graph without a cycle has an order.** -/
theorem exists_order (hids : g.OperatorsIndexed) (honce : g.WrittenOnce) (hacyclic : g.Acyclic) :
    ∃ order, g.order = .ok order := by
  rcases order_or_blames hids with hok | ⟨fault, -, hblames⟩
  · exact hok
  · exact absurd hacyclic (hblames.not_acyclic honce)

/-- **An order puts every operator before those that it feeds.** -/
theorem idxOf_lt_of_feeds (hids : g.OperatorsIndexed) (h : g.order = .ok order) {i j : OperatorId}
    (hij : g.Feeds i j) : order.idxOf i < order.idxOf j := by
  have hordered := ordered_of_order hids h
  have honce : g.WrittenOnce := writtenOnce_iff.2 hordered.outputs_nodup
  obtain ⟨-, s, hall, -, -⟩ := (order_eq_ok hids).1 h
  obtain ⟨-, hnested, hfound⟩ := hids.spec_of_all hall
  obtain ⟨before, after, rfl, hj⟩ := List.eq_append_cons_of_mem (hordered.mem_iff.2 hij.2.1)
  have hdep := (mem_dependencies_iff hids honce hij.2.1).2 hij
  rcases hordered.dependency before j after rfl i hdep with rfl | hi
  · exact absurd ((mem_dependents_iff hids honce).2 hij) (hnested.loopless i (hfound i hij.1))
  · rw [List.idxOf_append_of_mem hi, List.idxOf_append_of_notMem hj, List.idxOf_cons_self,
      Nat.add_zero]
    exact List.idxOf_lt_length_of_mem hi

/-- **Operators can be ordered exactly when no tensor is written twice and there
is no cycle.** The order is then a list of all operators in which every producer
comes before its consumers, and otherwise there is an error that names two
writers of a tensor or an operator on a cycle. -/
theorem order_iff_acyclic (hids : g.OperatorsIndexed) :
    ((∃ order, g.order = .ok order) ↔ g.WrittenOnce ∧ g.Acyclic) ∧
    (∀ order, g.order = .ok order → order.Perm (List.range g.operators.size) ∧
      ∀ i j, g.Feeds i j → order.idxOf i < order.idxOf j) ∧
    ∀ fault, g.order = .error fault → g.Blames fault := by
  refine ⟨⟨?_, ?_⟩, ?_, ?_⟩
  · rintro ⟨order, h⟩
    exact ⟨writtenOnce_iff.2 (ordered_of_order hids h).outputs_nodup,
      acyclic_of_rank (fun i => order.idxOf i) fun i j hij => idxOf_lt_of_feeds hids h hij⟩
  · rintro ⟨honce, hacyclic⟩
    exact exists_order hids honce hacyclic
  · intro order h
    exact ⟨(ordered_of_order hids h).perm, fun i j hij => idxOf_lt_of_feeds hids h hij⟩
  · intro fault h
    rcases order_or_blames hids with ⟨order, hok⟩ | ⟨fault', herror, hblames⟩
    · cases h.symm.trans hok
    · rwa [Except.error.inj (h.symm.trans herror)]

/-- A sum and a rectification that feed each other, the sum by both operands,
and a third operator after. -/
def ring : Graph where
  operators := #[
    ⟨0, "sum", .add { left := 1, right := 1, output := 0 }⟩,
    ⟨1, "gate", .activate { input := 0, output := 1, activation := .relu }⟩,
    ⟨2, "tail", .activate { input := 1, output := 2, activation := .relu }⟩]

theorem order_iff_acyclic_ring : ring.OperatorsIndexed ∧ ring.order = .error (.cyclic "gate") ∧
    ring.Blames (.cyclic "gate") ∧ ¬ (ring.WrittenOnce ∧ ring.Acyclic) := by
  have hids : ring.OperatorsIndexed := by decide
  have herror : ring.order = .error (.cyclic "gate") := by rfl
  obtain ⟨hiff, -, hblames⟩ := order_iff_acyclic hids
  refine ⟨hids, herror, hblames _ herror, fun hgood => ?_⟩
  obtain ⟨order, hok⟩ := hiff.2 hgood
  cases herror.symm.trans hok

end QuantAccel.Graph
