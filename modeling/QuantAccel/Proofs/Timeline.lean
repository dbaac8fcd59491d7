import QuantAccel.Proofs.Independence

/-!
# The timeline of a run

What a machine does after a start is fixed by its plans, edge by edge. The first
edge takes the request, and `due k` is the number of edges after which `k`
operators are complete. `At s` says what a machine can be doing after `s` edges,
with the countdowns of its phases tied to `due`; one lemma for each kind of edge
gives the next position, the bytes that the edge can have changed (`touched`),
and what it published. What holds after every number of edges then follows by
induction: the status, the handshake word, and the time in which a result is
written. None of this depends on what the image holds.
-/

namespace QuantAccel

/-- A device and its image after a number of edges. -/
def Device.after {σ : Type} [Device σ] (s : σ) (image : Image) : Nat → σ × Image
  | 0 => (s, image)
  | n + 1 =>
    let (s', image') := after s image n
    ((Device.step s' image').device, (Device.step s' image').image)

theorem Device.after_succ {σ : Type} [Device σ] {s s' : σ} {image image' : Image} {n : Nat}
    (h : Steps (after s image n).1 (after s image n).2 s' image') :
    after s image (n + 1) = (s', image') :=
  Prod.ext h.device_eq h.image_eq

namespace Machine

open Device (Steps after)

variable {m d : Machine} {image image' : Image} {order : List OperatorId} {k s : Nat}
    {plan : OperatorPlan}

/-! ## When operators are due -/

/-- The edges from a start to the completion of `k` operators. -/
def due (m : Machine) (k : Nat) : Nat :=
  1 + ((m.plans.take k).map (·.cycles)).sum

/-- The number of operators that are complete after `s` edges. -/
def completions (m : Machine) (s : Nat) : Nat :=
  Nat.count (fun k => m.due (k + 1) ≤ s) m.plans.length

theorem due_succ (hplan : m.plans[k]? = some plan) : m.due (k + 1) = m.due k + plan.cycles := by
  rw [due, due, List.take_add_one, hplan, List.map_append, List.sum_append]
  simp [Nat.add_assoc]

theorem due_mono (m : Machine) {j k : Nat} (h : j ≤ k) : m.due j ≤ m.due k := by
  obtain ⟨n, rfl⟩ := Nat.exists_eq_add_of_le h
  rw [due, due, List.take_add, List.map_append, List.sum_append]
  omega

theorem due_pos (m : Machine) (k : Nat) : 0 < m.due k := by
  unfold due
  omega

theorem cycles_eq (plan : OperatorPlan) :
    plan.cycles = plan.fetchCycles + (plan.tiles.map (·.cycles)).sum := by
  rw [OperatorPlan.cycles, foldr_add]

/-- Between two completions nothing is due. -/
theorem due_ne_of_between {t : Nat} (hk : m.due k < t) (ht : t < m.due (k + 1)) (j : Nat) :
    m.due j ≠ t := by
  intro hj
  rcases Nat.lt_or_ge k j with h | h
  · have : m.due (k + 1) ≤ m.due j := m.due_mono h
    omega
  · have := m.due_mono h
    omega

/-! ## The operators of a machine -/

section Operators

variable (hd : m.design.Prepared) (hm : m.Emitted m.design order)
include hd hm

/-- The plan at a position covers the operator there. -/
theorem Emitted.at_plan (hplan : m.plans[k]? = some plan) :
    ∃ i, order[k]? = some i ∧ i < m.design.graph.operators.size ∧
      m.operatorAt k = m.design.graph.operator i ∧
      plan.Covers (m.design.graph.tensor (m.operatorAt k).output).volume := by
  have hlt : k < order.length := by
    rw [hm.plans.length_eq]
    exact (List.getElem?_eq_some_iff.1 hplan).1
  have hsplit : order = order.take k ++ order[k] :: order.drop (k + 1) := by simp
  obtain ⟨plan', hplan', hoperator, hcovers⟩ := hm.exists_plan hd hsplit
  have hlength : (order.take k).length = k := by
    rw [List.length_take]
    omega
  rw [hlength] at hplan' hoperator
  obtain rfl := Option.some.inj (hplan'.symm.trans hplan)
  exact ⟨order[k], by simp, (hm.ordered hd).lt_of_split hsplit, hoperator, hoperator ▸ hcovers⟩

theorem Emitted.output_lt (hplan : m.plans[k]? = some plan) :
    (m.operatorAt k).output < m.design.graph.tensors.size ∧
      (m.design.graph.tensor (m.operatorAt k).output).kind.isResult := by
  obtain ⟨i, -, hi, hop, -⟩ := hm.at_plan hd hplan
  rw [hop]
  exact ⟨hd.wellFormed.output_lt i hi, hd.wellFormed.isResult_output hi⟩

/-- Operators at different positions write different tensors. -/
theorem Emitted.output_ne {k' : Nat} {plan' : OperatorPlan} (hplan : m.plans[k]? = some plan)
    (hplan' : m.plans[k']? = some plan') (hne : k' ≠ k) :
    (m.operatorAt k').output ≠ (m.operatorAt k).output := by
  obtain ⟨i, hi, hlt, hop, -⟩ := hm.at_plan hd hplan
  obtain ⟨i', hi', hlt', hop', -⟩ := hm.at_plan hd hplan'
  intro heq
  rw [hop, hop'] at heq
  obtain rfl := hd.wellFormed.output_injective i' hlt' i hlt heq
  have hnodup : order.Nodup := (hm.ordered hd).perm.nodup_iff.2 List.nodup_range
  exact hne ((List.getElem?_inj (List.getElem?_eq_some_iff.1 hi').1 hnodup).1 (hi'.trans hi.symm))

theorem Emitted.cycles_pos (hplan : m.plans[k]? = some plan) :
    plan.fetchCycles < plan.cycles := by
  obtain ⟨-, -, -, -, hcovers⟩ := hm.at_plan hd hplan
  obtain ⟨tile, later, htiles⟩ := List.exists_cons_of_ne_nil hcovers.tiles_ne_nil
  have hpos := hcovers.cycles_pos tile (htiles ▸ List.mem_cons_self)
  rw [cycles_eq, htiles, List.map_cons, List.sum_cons]
  omega

/-- Completions are due one after the other. -/
theorem Emitted.due_injective {j : Nat} (hk : k < m.plans.length) (hj : j < m.plans.length)
    (h : m.due (j + 1) = m.due (k + 1)) : j = k := by
  have hlt (k : Nat) (hk : k < m.plans.length) : m.due k < m.due (k + 1) := by
    have hplan := List.getElem?_eq_getElem hk
    have hcycles := hm.cycles_pos hd hplan
    rw [due_succ hplan]
    omega
  have hk' := hlt k hk
  have hj' := hlt j hj
  rcases Nat.lt_trichotomy j k with hjk | hjk | hjk
  · have : m.due (j + 1) ≤ m.due k := m.due_mono hjk
    omega
  · exact hjk
  · have : m.due (k + 1) ≤ m.due j := m.due_mono hjk
    omega

end Operators

/-- **An operator can be computed on whatever the image holds.** -/
theorem Room.exists_operands (hroom : m.Room image) (hd : m.design.Prepared) {i : OperatorId}
    (hi : i < m.design.graph.operators.size) : ∃ operands, ∃ f : Nat → Int,
      m.readOperands image (m.design.graph.operator i) = .ok operands ∧
      ∀ j < (m.design.graph.tensor (m.design.graph.operator i).output).volume,
        m.element (m.design.graph.operator i) operands j = .ok (f j) := by
  have hlt (id : TensorId) (hid : id ∈ (m.design.graph.operator i).inputs) :=
    lt_trans (hd.wellFormed.operand_lt i hi id hid) (hd.wellFormed.output_lt i hi)
  have hready (id : TensorId) (hid : id ∈ (m.design.graph.operator i).inputs) :
      ∃ values, m.valuesIn image id = some values ∧
        image.readTensor (m.location id) (m.design.graph.tensor id) = .ok values := by
    have hread := Image.readTensor_eq_elements (hd.arranged.laid id (hlt id hid))
      (hroom.readable id (hlt id hid))
    exact ⟨_, congrArg Except.toOption hread, hread⟩
  obtain ⟨operands, hoperands⟩ :=
    Graph.exists_operands fun id hid => (hready id hid).imp fun _ hvalues => hvalues.1
  exact ⟨operands, _, readOperands_eq hd hlt hready hoperands,
    fun j _ => Graph.element_eq_kernelElement (hd.quantized.rescaled i hi) rfl operands j⟩

/-- Room is a matter of the size and the protections of an image. -/
theorem Room.of_changesOnly (hroom : m.Room image) {touched : Set Nat}
    (h : Image.ChangesOnly touched image image') : m.Room image' where
  toSeparate := hroom.toSeparate
  readable id hid := h.size.symm ▸ hroom.readable id hid
  writable id hid hresult := h.writable_iff.2 (hroom.writable id hid hresult)
  counter_writable := h.writable_iff.2 hroom.counter_writable

/-! ## Positions -/

/-- What a machine can be doing after a number of edges from a start. -/
inductive At (m : Machine) : Nat → Machine → Prop
  /-- No edge has been yet. -/
  | start : At m 0 m
  /-- The fetch of an operator, whose last edge is due together with the cycles
  of the fetch. -/
  | fetch {s k left : Nat} {plan : OperatorPlan} (hplan : m.plans[k]? = some plan)
    (hleft : 0 < left)
      (hbegun : m.due k ≤ s) (hends : s + left = m.due k + plan.fetchCycles) :
      At m s (m.working (.fetch k left) k)
  /-- A tile of an operator, which is complete when this tile and the later ones
  are. -/
  | compute {s k left : Nat} {plan : OperatorPlan} {tile : Tile} {later : List Tile}
      {operands : List (Array Int)} {f : Nat → Int} (hplan : m.plans[k]? = some plan)
      (hleft : 0 < left)
      (hfetched : m.due k + plan.fetchCycles ≤ s)
      (hends : s + left + (later.map (·.cycles)).sum = m.due (k + 1))
      (htiles : tile :: later <:+ plan.tiles)
      (helement : ∀ j < (m.design.graph.tensor (m.operatorAt k).output).volume,
        m.element (m.operatorAt k) operands j = .ok (f j)) :
      At m s (m.working (.compute k left tile later operands) k)
  /-- All operators are complete. -/
  | done {s : Nat} (hdue : m.due m.plans.length ≤ s) : At m s (m.finished m.plans.length)

/-- The addresses that edge number `s` can change: those of a result from the
last edge of its fetch to its completion, and those of the counter at a
completion. -/
def touched (m : Machine) (s : Nat) : Set Nat :=
  {a | ∃ k plan, m.plans[k]? = some plan ∧
    (m.due k + plan.fetchCycles ≤ s ∧ s ≤ m.due (k + 1) ∧
      a ∈ (m.extent (m.operatorAt k).output).bytes ∨ s = m.due (k + 1) ∧ a ∈ m.counter.bytes)}

/-- One edge of a run, from the position after `s` edges to the next. -/
structure Ticks (m : Machine) (s : Nat) (d : Machine) (image : Image) (d' : Machine)
    (image' : Image) :
    Prop where
  steps : Steps d image d' image'
  next : m.At (s + 1) d'
  changes : Image.ChangesOnly (m.touched (s + 1)) image image'
  counter : ∀ k < m.plans.length, m.due (k + 1) = s + 1 →
    image'.bytes.wordAt m.counter.base = UInt32.ofNat (k + 1)

/-- An edge that leaves the image as it is, while nothing is due. -/
theorem Ticks.quiet {d' : Machine} (steps : Steps d image d' image) (next : m.At (s + 1) d')
    (hnone : ∀ k < m.plans.length, m.due (k + 1) ≠ s + 1) : m.Ticks s d image d' image where
  steps := steps
  next := next
  changes := .refl _ _
  counter k hk hdue := absurd hdue (hnone k hk)

theorem subset_touched (hplan : m.plans[k]? = some plan) (hfetched : m.due k + plan.fetchCycles ≤ s)
    (hdue : s ≤ m.due (k + 1)) : (m.extent (m.operatorAt k).output).bytes ⊆ m.touched s :=
  fun _ ha => ⟨k, plan, hplan, .inl ⟨hfetched, hdue, ha⟩⟩

section Edges

variable (hd : m.design.Prepared) (hm : m.Emitted m.design order)
include hd hm

/-- When some operators are complete the next one is fetched, or all is done. -/
theorem at_arrived (hk : k ≤ m.plans.length) : m.At (m.due k) (m.arrived k) := by
  cases hplan : m.plans[k]? with
  | some plan =>
    obtain ⟨-, -, -, -, hcovers⟩ := hm.at_plan hd hplan
    rw [arrived_of_plan hplan]
    exact .fetch hplan hcovers.fetch_pos le_rfl rfl
  | none =>
    obtain rfl : k = m.plans.length := Nat.le_antisymm hk (List.getElem?_eq_none_iff.1 hplan)
    rw [arrived, hplan]
    exact .done le_rfl

theorem ticks_launch (hstart : m.registers.start) (image : Image) :
    m.Ticks 0 m image (m.arrived 0) image := by
  refine .quiet (steps_launch hstart image) (at_arrived hd hm (Nat.zero_le _)) fun k hk hdue => ?_
  have hplan := List.getElem?_eq_getElem hk
  have hcycles := hm.cycles_pos hd hplan
  have hpos := m.due_pos k
  rw [due_succ hplan] at hdue
  omega

theorem ticks_fetch (hplan : m.plans[k]? = some plan) {left : Nat} (hbegun : m.due k ≤ s)
    (hends : s + (left + 2) = m.due k + plan.fetchCycles) (image : Image) :
    m.Ticks s (m.working (.fetch k (left + 2)) k) image
      (m.working (.fetch k (left + 1)) k) image := by
  have hcycles := hm.cycles_pos hd hplan
  have hsucc := due_succ hplan
  refine .quiet (steps_fetch left)
    (.fetch hplan (Nat.succ_pos left) (by omega) (by omega)) fun j _ => ?_
  exact due_ne_of_between (k := k) (by omega) (by omega) (j + 1)

/-- The last edge of a fetch. -/
theorem ticks_latch (hroom : m.Room image) (hplan : m.plans[k]? = some plan) (hbegun : m.due k ≤ s)
    (hends : s + 1 = m.due k + plan.fetchCycles) :
    ∃ d' image', m.Ticks s (m.working (.fetch k 1) k) image d' image' := by
  obtain ⟨i, -, hi, hop, hcovers⟩ := hm.at_plan hd hplan
  obtain ⟨hout, hresult⟩ := hm.output_lt hd hplan
  obtain ⟨operands, f, hread, helement⟩ := hroom.exists_operands hd hi
  rw [← hop] at hread helement
  obtain ⟨tile, later, htiles⟩ := List.exists_cons_of_ne_nil hcovers.tiles_ne_nil
  have hw := hroom.writable _ hout hresult
  have hpos := hcovers.cycles_pos tile (htiles ▸ List.mem_cons_self)
  have hsucc := due_succ hplan
  rw [cycles_eq, htiles, List.map_cons, List.sum_cons] at hsucc
  refine ⟨_, _, steps_latch hread (addressOf_eq hd hout) hw ((plan_eq hplan).symm ▸ htiles), ?_, ?_,
    fun j _ hdue => ?_⟩
  · exact .compute hplan hpos hends.ge (by omega) (htiles ▸ List.suffix_rfl) helement
  · exact (Image.changesOnly_cleared hw.inBounds).mono (subset_touched hplan hends.ge (by omega))
  · exact absurd hdue (due_ne_of_between (k := k) (by omega) (by omega) (j + 1))

omit hd hm in
theorem ticks_compute (hplan : m.plans[k]? = some plan) {left : Nat} {tile : Tile}
    {later : List Tile} {operands : List (Array Int)} {f : Nat → Int}
    (hfetched : m.due k + plan.fetchCycles ≤ s)
    (hends : s + (left + 2) + (later.map (·.cycles)).sum = m.due (k + 1))
    (htiles : tile :: later <:+ plan.tiles)
    (helement : ∀ j < (m.design.graph.tensor (m.operatorAt k).output).volume,
      m.element (m.operatorAt k) operands j = .ok (f j)) (image : Image) :
    m.Ticks s (m.working (.compute k (left + 2) tile later operands) k) image
      (m.working (.compute k (left + 1) tile later operands) k) image := by
  refine .quiet (steps_compute tile later left)
    (.compute hplan (Nat.succ_pos left) (by omega) (by omega) htiles helement) fun j _ => ?_
  exact due_ne_of_between (k := k) (by omega) (by omega) (j + 1)

omit hd hm in
/-- A machine that is done stays as it is. -/
theorem steps_finished (m : Machine) (k : Nat) (image : Image) :
    Steps (m.finished k) image (m.finished k) image := by
  constructor <;> simp [Device.step, step, finished]

/-- The last edge of a tile: the next tile begins, or the operator is
complete. -/
theorem ticks_tile (hroom : m.Room image) (hplan : m.plans[k]? = some plan) {tile : Tile}
    {later : List Tile} {operands : List (Array Int)} {f : Nat → Int}
    (hfetched : m.due k + plan.fetchCycles ≤ s)
    (hends : s + 1 + (later.map (·.cycles)).sum = m.due (k + 1))
    (htiles : tile :: later <:+ plan.tiles)
    (helement : ∀ j < (m.design.graph.tensor (m.operatorAt k).output).volume,
      m.element (m.operatorAt k) operands j = .ok (f j)) :
    ∃ d' image', m.Ticks s (m.working (.compute k 1 tile later operands) k) image d' image' := by
  obtain ⟨-, -, -, -, hcovers⟩ := hm.at_plan hd hplan
  obtain ⟨hout, hresult⟩ := hm.output_lt hd hplan
  have hlaid := hd.arranged.laid _ hout
  have haddress : m.addressOf (m.operatorAt k).output =
      .ok (m.extent (m.operatorAt k).output).base :=
    addressOf_eq hd hout
  have hw := hroom.writable _ hout hresult
  have helements (j : Nat) (hj : j ∈ tile.elements) :
      m.element (m.operatorAt k) operands j = .ok (f j) := by
    refine helement j
      (List.mem_range.1 (hcovers.elements.mem_iff.1 (List.mem_flatMap.2 ⟨tile, ?_, hj⟩)))
    exact htiles.subset List.mem_cons_self
  have hchanges := Image.changesOnly_withElements f tile.elements hlaid hw.inBounds
  have htouched := subset_touched (s := s + 1) hplan (by omega) (by omega)
  cases later with
  | cons next later =>
    have hnext : next ∈ plan.tiles := htiles.subset (by simp)
    have hpos := hcovers.cycles_pos next hnext
    rw [List.map_cons, List.sum_cons] at hends
    refine ⟨_, _, steps_tile haddress hlaid tile next later hw helements, ?_,
      hchanges.mono htouched, fun j _ hdue => ?_⟩
    · exact .compute hplan hpos (by omega) (by omega)
        ((List.suffix_cons tile _).trans htiles) helement
    · exact absurd hdue (due_ne_of_between (k := k) (by omega) (by omega) (j + 1))
  | nil =>
    have hlt := (List.getElem?_eq_some_iff.1 hplan).1
    have hnow : s + 1 = m.due (k + 1) := hends
    have hh := hchanges.writable_iff.2 hroom.counter_writable
    obtain ⟨hdevice, himage, hfault⟩ := complete_eq (.compute k 1 tile [] operands) hh
    have hsteps := steps_of_eq (step_last_tile haddress hlaid tile hw helements) hfault
    rw [hdevice, himage] at hsteps
    refine ⟨_, _, hsteps, ?_, ?_, fun j hj hdue => ?_⟩
    · rw [hnow]
      exact at_arrived hd hm hlt
    · refine (hchanges.mono htouched).trans
        ((Image.changesOnly_withWord _ hh.inBounds).mono fun a ha => ?_)
      exact ⟨k, plan, hplan, .inr ⟨hnow, ha⟩⟩
    · obtain rfl := hm.due_injective hd hlt hj (hdue.trans hnow)
      exact Image.wordAt_withWord _ hh.inBounds

/-- **Every edge of a run succeeds** and leads on to the next position. -/
theorem At.exists_ticks (hroom : m.Room image) (hstart : m.registers.start) (h : m.At s d) :
    ∃ d' image', m.Ticks s d image d' image' := by
  cases h with
  | start => exact ⟨_, _, ticks_launch hd hm hstart image⟩
  | @fetch _ k left plan hplan hleft hbegun hends =>
    match left, hleft with
    | 1, _ => exact ticks_latch hd hm hroom hplan hbegun hends
    | left + 2, _ => exact ⟨_, _, ticks_fetch hd hm hplan hbegun hends image⟩
  | @compute _ k left plan tile later operands f hplan hleft hfetched hends htiles helement =>
    match left, hleft with
    | 1, _ => exact ticks_tile hd hm hroom hplan hfetched hends htiles helement
    | left + 2, _ => exact ⟨_, _, ticks_compute hplan hfetched hends htiles helement image⟩
  | done hdue =>
    refine ⟨_, _, .quiet (steps_finished m m.plans.length image) (.done (by omega)) fun k hk => ?_⟩
    have : m.due (k + 1) ≤ m.due m.plans.length := m.due_mono hk
    omega

/-- **A run goes on from edge to edge**, with room at every one of them. -/
theorem ticks_after (hroom : m.Room image) (hstart : m.registers.start) (s : Nat) :
    m.At s (after m image s).1 ∧ m.Ticks s (after m image s).1 (after m image s).2
      (after m image (s + 1)).1 (after m image (s + 1)).2 := by
  suffices h : m.At s (after m image s).1 ∧ m.Room (after m image s).2 by
    obtain ⟨d', image', hticks⟩ := h.1.exists_ticks hd hm h.2 hstart
    rw [Device.after_succ hticks.steps]
    exact ⟨h.1, hticks⟩
  induction s with
  | zero => exact ⟨.start, hroom⟩
  | succ s ih =>
    obtain ⟨d', image', hticks⟩ := ih.1.exists_ticks hd hm ih.2 hstart
    rw [Device.after_succ hticks.steps]
    exact ⟨hticks.next, ih.2.of_changesOnly hticks.changes⟩

end Edges

/-! ## What can be seen of a run -/

/-- A machine is busy until its last operator is due, and done from then on. -/
theorem At.busy_or_done (hd : m.design.Prepared) (hm : m.Emitted m.design order) (h : m.At s d)
    (hs : 0 < s) : s < m.due m.plans.length ∧ d.Busy ∨
      m.due m.plans.length ≤ s ∧ d = m.finished m.plans.length := by
  have hle (k : Nat) (plan : OperatorPlan) (hplan : m.plans[k]? = some plan) :
      m.due (k + 1) ≤ m.due m.plans.length := m.due_mono (List.getElem?_eq_some_iff.1 hplan).1
  cases h with
  | start => omega
  | @fetch _ k left plan hplan hleft hbegun hends =>
    have hlast := hle k plan hplan
    have hcycles := hm.cycles_pos hd hplan
    rw [due_succ hplan] at hlast
    exact .inl ⟨by omega, busy_working m _ k⟩
  | @compute _ k left plan tile later operands f hplan hleft hfetched hends htiles helement =>
    have hlast := hle k plan hplan
    exact .inl ⟨by omega, busy_working m _ k⟩
  | done hdue => exact .inr ⟨hdue, rfl⟩

/-- A result is touched from the last edge of its fetch to its completion, and
not otherwise. -/
theorem Separate.touched_output (hseparate : m.Separate) (hd : m.design.Prepared)
    (hm : m.Emitted m.design order) (hplan : m.plans[k]? = some plan) {a : Nat}
    (ha : a ∈ (m.extent (m.operatorAt k).output).bytes) (h : a ∈ m.touched s) :
    m.due k + plan.fetchCycles ≤ s ∧ s ≤ m.due (k + 1) := by
  obtain ⟨hout, hresult⟩ := hm.output_lt hd hplan
  obtain ⟨k', plan', hplan', ⟨hfetched, hdue, ha'⟩ | ⟨-, ha'⟩⟩ := h
  · by_cases hk : k' = k
    · subst hk
      obtain rfl := Option.some.inj (hplan'.symm.trans hplan)
      exact ⟨hfetched, hdue⟩
    · have hapart := hseparate.apart _ hout hresult _ (hm.output_lt hd hplan').1
        (hm.output_ne hd hplan hplan' hk)
      simp only [Extent.Apart, Extent.bytes, Set.mem_Ico] at hapart ha ha'
      omega
  · have hapart := hseparate.counter_apart _ hout
    simp only [Extent.Apart, Extent.bytes, Set.mem_Ico] at hapart ha ha'
    omega

/-- The counter is touched at completions only. -/
theorem Separate.touched_counter (hseparate : m.Separate) (hd : m.design.Prepared)
    (hm : m.Emitted m.design order) {a : Nat} (ha : a ∈ m.counter.bytes) (h : a ∈ m.touched s) :
    ∃ k < m.plans.length, m.due (k + 1) = s := by
  obtain ⟨k, plan, hplan, ⟨-, -, ha'⟩ | ⟨hdue, -⟩⟩ := h
  · have hapart := hseparate.counter_apart _ (hm.output_lt hd hplan).1
    simp only [Extent.Apart, Extent.bytes, Set.mem_Ico] at hapart ha ha'
    omega
  · exact ⟨k, (List.getElem?_eq_some_iff.1 hplan).1, hdue.symm⟩

theorem completions_zero (m : Machine) : m.completions 0 = 0 := by
  refine Nat.count_iff_forall_not.2 fun k _ => ?_
  have := m.due_pos (k + 1)
  omega

theorem completions_of_due (hd : m.design.Prepared) (hm : m.Emitted m.design order)
    (hk : k < m.plans.length) : m.completions (m.due (k + 1)) = k + 1 := by
  obtain ⟨n, hn⟩ := Nat.exists_eq_add_of_le (Nat.succ_le_of_lt hk)
  have hall : Nat.count (fun j => m.due (j + 1) ≤ m.due (k + 1)) (k + 1) = k + 1 :=
    Nat.count_iff_forall.2 fun j hj => m.due_mono (by omega)
  have hnone : Nat.count (fun j => m.due (k + 1 + j + 1) ≤ m.due (k + 1)) n = 0 := by
    refine Nat.count_iff_forall_not.2 fun j hj hle => ?_
    have hge : m.due (k + 1) ≤ m.due (k + 1 + j + 1) := m.due_mono (by omega)
    have := hm.due_injective hd hk (j := k + 1 + j) (by omega) (Nat.le_antisymm hle hge)
    omega
  rw [completions, hn, Nat.count_add, hall, hnone]

theorem completions_succ (h : ∀ k < m.plans.length, m.due (k + 1) ≠ s + 1) :
    m.completions (s + 1) = m.completions s := by
  rw [completions, completions, Nat.count_eq_card_filter_range, Nat.count_eq_card_filter_range]
  congr 1
  refine Finset.filter_congr fun k hk => ?_
  have := h k (Finset.mem_range.1 hk)
  omega

/-- **The timeline of a run from a start.** No edge fails. The status is BUSY
after each edge before the last operator is due, and DONE after all others. The
handshake word has its first value until an operator is complete, and is then
the number of those that are. The result of an operator does not change before
the last edge of its fetch, nor after its completion; and after the last
completion nothing does. -/
structure Timeline (m : Machine) (image : Image) : Prop where
  succeeds : ∀ s, (Device.step (after m image s).1 (after m image s).2).fault = none
  status : ∀ s, 0 < s → Device.readControl (after m image s).1 Register.status.offset =
    .ok (if s < m.due m.plans.length then Status.busy else Status.done)
  handshake : ∀ s, ∃ word, (after m image s).2.readWord m.design.memory.handshake = .ok word ∧
    if m.completions s = 0 then image.readWord m.design.memory.handshake = .ok word
    else word.toNat = m.completions s
  not_before : ∀ k plan, m.plans[k]? = some plan → ∀ s < m.due k + plan.fetchCycles,
    ∀ a ∈ (m.extent (m.operatorAt k).output).bytes,
      (after m image s).2.bytes.getD a 0 = image.bytes.getD a 0
  not_after : ∀ k < m.plans.length, ∀ s ≥ m.due (k + 1),
    ∀ a ∈ (m.extent (m.operatorAt k).output).bytes,
    (after m image s).2.bytes.getD a 0 = (after m image (m.due (k + 1))).2.bytes.getD a 0
  rests : ∀ s ≥ m.due m.plans.length, (after m image s).2 =
    (after m image (m.due m.plans.length)).2 ∧
    (after m image s).1.registers = (after m image (m.due m.plans.length)).1.registers

section Timeline

variable (hticks : ∀ s, m.At s (after m image s).1 ∧
      m.Ticks s (after m image s).1 (after m image s).2
  (after m image (s + 1)).1 (after m image (s + 1)).2)
include hticks

/-- A byte that no edge touches stays. -/
theorem getD_after_of_untouched {a first last : Nat} (hle : first ≤ last)
    (h : ∀ s, first < s → s ≤ last → a ∉ m.touched s) :
    (after m image last).2.bytes.getD a 0 = (after m image first).2.bytes.getD a 0 := by
  induction last, hle using Nat.le_induction with
  | base => rfl
  | succ s hs ih =>
    rw [(hticks s).2.changes.bytes a (h (s + 1) (by omega) le_rfl)]
    exact ih fun t ht hts => h t ht (by omega)

theorem size_after (s : Nat) : (after m image s).2.size = image.size := by
  induction s with
  | zero => rfl
  | succ s ih => exact (hticks s).2.changes.size.trans ih

variable (hd : m.design.Prepared) (hm : m.Emitted m.design order) (hseparate : m.Separate)
include hd hm hseparate

/-- **The counter counts the operators that are complete.** -/
theorem wordAt_after (s : Nat) : (after m image s).2.bytes.wordAt m.counter.base =
    if m.completions s = 0 then image.bytes.wordAt m.counter.base
    else UInt32.ofNat (m.completions s) := by
  induction s with
  | zero =>
    rw [completions_zero, if_pos rfl]
    rfl
  | succ s ih =>
    by_cases hdue : ∃ k < m.plans.length, m.due (k + 1) = s + 1
    · obtain ⟨k, hk, hdue⟩ := hdue
      have hcount : m.completions (s + 1) = k + 1 := hdue ▸ completions_of_due hd hm hk
      rw [(hticks s).2.counter k hk hdue, hcount, if_neg (Nat.succ_ne_zero k)]
    · have hnone : ∀ k < m.plans.length, m.due (k + 1) ≠ s + 1 := fun k hk hk' => hdue ⟨k, hk, hk'⟩
      rw [completions_succ hnone, ← ih]
      refine Image.wordAt_congr fun i hi => ?_
      refine (hticks s).2.changes.bytes _ fun htouched => hdue ?_
      refine hseparate.touched_counter hd hm ?_ htouched
      simp only [Extent.bytes, Extent.stop, Set.mem_Ico, Machine.counter]
      omega

end Timeline

/-- **A machine with room keeps to its timeline**, whatever the image holds. -/
theorem Room.timeline (hroom : m.Room image) (hd : m.design.Prepared)
    (hm : m.Emitted m.design order) (hplanned : m.Planned) (hstart : m.registers.start) :
    m.Timeline image := by
  have hticks := ticks_after hd hm hroom hstart
  have hseparate := hroom.toSeparate
  have hcounter : m.design.memory.handshake = m.counter.base := hplanned.counter.symm
  have hin : m.counter.base + 4 ≤ image.size := hroom.counter_writable.inBounds
  constructor
  case succeeds => exact fun s => (hticks s).2.steps.fault_eq
  case status =>
    intro s hs
    change Except.ok (after m image s).1.registers.status = _
    rcases (hticks s).1.busy_or_done hd hm hs with ⟨hlt, hbusy⟩ | ⟨hle, hdone⟩
    · rw [if_pos hlt, hbusy]
    · rw [if_neg (by omega), hdone]
      rfl
  case handshake =>
    intro s
    rw [hcounter, Image.readWord_eq hin, Image.readWord_eq ((size_after hticks s).symm ▸ hin)]
    refine ⟨_, rfl, ?_⟩
    rw [wordAt_after hticks hd hm hseparate]
    split
    · rfl
    · -- there are fewer operators than addresses
      have hcount : m.completions s ≤ m.plans.length := Nat.count_le _
      have hlength : m.plans.length = m.design.graph.operators.size := by
        rw [← hm.plans.length_eq, (hm.ordered hd).perm.length_eq, List.length_range]
      have hoperators := hd.operators_le
      have haddress : m.registers.handshakeAddress.toNat < UInt32.size := UInt32.toNat_lt_size _
      have hhandshake := hplanned.counter
      exact UInt32.toNat_ofNat_of_lt' (by omega)
  case not_before =>
    intro k plan hplan s hs a ha
    refine getD_after_of_untouched hticks (Nat.zero_le s) fun t _ ht htouched => ?_
    have := (hseparate.touched_output hd hm hplan ha htouched).1
    omega
  case not_after =>
    intro k hk s hs a ha
    refine getD_after_of_untouched hticks hs fun t ht _ htouched => ?_
    have := (hseparate.touched_output hd hm (List.getElem?_eq_getElem hk) ha htouched).2
    omega
  case rests =>
    intro s hs
    have hpos := m.due_pos m.plans.length
    induction s, hs using Nat.le_induction with
    | base => exact ⟨rfl, rfl⟩
    | succ s hs ih =>
      obtain ⟨-, hdone⟩ := ((hticks s).1.busy_or_done hd hm (by omega)).resolve_left (by omega)
      have hsteps : Steps (after m image s).1 (after m image s).2 (after m image s).1
          (after m image s).2 := by
        rw [hdone]
        exact steps_finished m m.plans.length _
      rw [Device.after_succ hsteps]
      exact ih

/-- At its planned place a machine has room on an image of its size in which
outputs and scratch are unprotected. -/
theorem Planned.room (h : m.Planned) (hd : m.design.Prepared)
    (hchunk : 4 ≤ m.design.config.chunkSize) (hsize : image.size = m.design.memory.size)
    (houtputs : ∀ id ∈ m.design.graph.outputs, image.Writable (m.extent id).base (m.extent id).size)
    (hscratch : image.Writable (m.design.memory.base .scratch)
      (m.design.memory.size - m.design.memory.base .scratch)) : m.Room image where
  toSeparate := h.separate hd
  readable id hid := by
    rw [hsize]
    exact le_trans (hd.sound.inside_home (h.extent_eq hd hid)).2 (hd.sound.stop_le_size _)
  writable id hid hresult := by
    rcases Bool.or_eq_true_iff.1 hresult with hkind | hkind
    · have hinside := hd.sound.inside_home (h.extent_eq hd hid)
      have hhome : m.design.graph.home (.tensor id) = .scratch := by
        cases hk : (m.design.graph.tensor id).kind <;> simp [hk, TensorKind.isIntermediate] at hkind
        rw [Graph.home, hk]
        rfl
      rw [hhome, hd.sound.stop_scratch] at hinside
      refine hscratch.mono hinside.1 ?_
      have hstop := hinside.2
      unfold Extent.stop at hstop
      omega
    · exact houtputs id (hd.wellFormed.mem_idsWhere.2 ⟨hid, hkind⟩)
  counter_writable := by
    obtain ⟨hle, hstop⟩ := hd.handshake_mem
    change image.Writable m.registers.handshakeAddress.toNat 4
    rw [h.counter]
    exact hscratch.mono hle (by omega)

/-- **The exact timeline of a run.** A machine that came out of a compilation is
in any state but busy, its registers point where the memory plan says, and START
is written; the image has the size of the plan and any contents, and its outputs
and the scratch region are unprotected. Then the run keeps to its timeline, with
the plans of the compilation. -/
theorem run_timeline {g : Graph} {ctx : Context} {ranges : ValueRanges}
    {requests : AttributeRequests} {backend : MachineBackend} {c : Compilation Machine}
    (hg : g.Finished) (hc : (g.compile ctx ranges requests backend).result.outcome = .ok c)
    (hchunk : 4 ≤ c.design.config.chunkSize) (hm : m.EmittedBy c)
    (hidle : m.registers.status &&& Status.busy = 0) (hplanned : m.Planned)
    (hsize : image.size = c.design.memory.size)
    (houtputs : ∀ id ∈ c.design.graph.outputs, image.Writable (m.extent id).base (m.extent id).size)
    (hscratch : image.Writable (c.design.memory.base .scratch)
      (c.design.memory.size - c.design.memory.base .scratch))
    {value : UInt32} (hvalue : value &&& startStrobe ≠ 0) :
    ∃ started, (Device.writeControl m Register.start.offset value).outcome = .ok started ∧
      started.design = c.design ∧ started.plans = c.product.plans ∧ started.Timeline image := by
  obtain ⟨hd, order, he⟩ := Graph.compile_emitted hg hc
  obtain ⟨hdesign, hplans, -⟩ := he.of_state hm
  obtain ⟨-, he'⟩ := hm.emitted he
  rw [← hdesign] at hd hchunk hsize houtputs hscratch
  refine ⟨_, writeControl_start hidle hvalue, hdesign, hplans, ?_⟩
  have hplanned' : m.started.Planned := ⟨hplanned.scratch, hplanned.counter⟩
  exact (hplanned'.room hd hchunk hsize houtputs hscratch).timeline hd
    ⟨rfl, he'.ports, he'.order_ok, he'.plans⟩ hplanned' rfl

/-- The dense layer keeps to its timeline on an image full of ones. -/
theorem run_timeline_dense : ∃ (g : Graph) (c : Compilation Machine) (m : Machine), g.Finished ∧
    (g.compile Graph.denseContext Graph.denseRanges [] ({} : MachineBackend)).result.outcome =
      .ok c ∧
    m.EmittedBy c ∧ m.Planned ∧
    ∃ started, (Device.writeControl m Register.start.offset startStrobe).outcome = .ok started ∧
      started.design = c.design ∧ started.plans = c.product.plans ∧
      started.Timeline (Image.filled c.design.memory.size 1) := by
  obtain ⟨g, c, hg, hc, hchunk, hsmall⟩ := Graph.exists_denseCompilation
  obtain ⟨hd, order, he⟩ := Graph.compile_emitted hg hc
  have hdesign := he.design
  obtain ⟨registers, hstatus, hplanned⟩ := exists_planned (m := c.product) (hdesign ▸ hd)
    (hdesign ▸ lt_of_le_of_lt hsmall (by decide))
  have hsize : (Image.filled c.design.memory.size 1).size = c.design.memory.size :=
    Array.size_replicate
  have hwritable {base length : Nat} (h : base + length ≤ c.design.memory.size) :
      (Image.filled c.design.memory.size 1).Writable base length :=
        ⟨hsize.symm ▸ h, fun p hp => nomatch hp⟩
  have hm : EmittedBy { c.product with registers } c := rfl
  refine ⟨g, c, { c.product with registers }, hg, hc, hm, hplanned,
    run_timeline hg hc hchunk hm (by rw [hstatus]; rfl) hplanned hsize (fun id hid => hwritable ?_)
      (hwritable ?_) (by decide)⟩
  · have hlt := (hd.wellFormed.mem_idsWhere.1 hid).1
    rw [← hdesign] at hd hlt ⊢
    exact le_trans (hd.sound.inside_home (hplanned.extent_eq hd hlt)).2 (hd.sound.stop_le_size _)
  · have := hd.sound.stop_le_size .scratch
    have := MemoryMap.Sound.base_le_stop c.design.memory .scratch
    omega

end Machine

end QuantAccel
