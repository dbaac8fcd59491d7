import Mathlib
import QuantAccel.Graph.Order

/-!
# The search behind the dependency order

The search takes each node up once and lets go of it once. What it may still do
is bounded by the nodes on its stack and by the nodes not yet found with their
successors (`Search.cost`), and each step takes at least one off; with fuel for
that, whatever a step preserves holds when the stack runs empty
(`Search.run_invariant`).

A node that is found and not yet left lies on the stack below everything it
leads to that came up since. So **the successors of a node are left before it,
or lead back to it** (`Search.Nested`): on a graph without cycles the nodes
left, the last one first, are in order, and elsewhere a successor out of order
shows a cycle.
-/

namespace QuantAccel.Graph.Search

variable {next : OperatorId → List OperatorId} {nodes : Finset OperatorId}
variable {stack todo : List OperatorId} {s s' : Search} {top n k : OperatorId} {fuel : Nat}

/-! ## Steps -/

/-- The node on top goes off the stack, and is left then unless it was
before. -/
def leave (s : Search) (top : OperatorId) : Search :=
  if s.left.contains top then s else { s with left := top :: s.left }

/-- The node on top is found. -/
def enter (s : Search) (top : OperatorId) : Search :=
  { s with found := top :: s.found }

/-- The successors that go on top of a node when it is found. -/
def fresh (next : OperatorId → List OperatorId) (s : Search) (top : OperatorId) : List OperatorId :=
  ((next top).filter fun node => !(top :: s.found).contains node).reverse

@[simp] theorem found_leave : (s.leave top).found = s.found := by
  unfold leave
  split <;> rfl

@[simp] theorem mem_left_leave : n ∈ (s.leave top).left ↔ n = top ∨ n ∈ s.left := by
  unfold leave
  split
  · rename_i hleft
    refine ⟨.inr, ?_⟩
    rintro (rfl | hn)
    · exact List.contains_iff_mem.1 hleft
    · exact hn
  · exact List.mem_cons

@[simp] theorem mem_found_enter : n ∈ (s.enter top).found ↔ n = top ∨ n ∈ s.found :=
  List.mem_cons

/-- Fresh neighbours are those that were not found yet. -/
@[simp] theorem mem_fresh : k ∈ fresh next s top ↔ k ∈ next top ∧ k ≠ top ∧ k ∉ s.found := by
  simp [fresh]

theorem length_fresh_le (next : OperatorId → List OperatorId) (s : Search) (top : OperatorId) :
    (fresh next s top).length ≤ (next top).length := by
  rw [fresh, List.length_reverse]
  exact List.length_filter_le _ _

/-- What a search does with the node on top. -/
theorem run_cons (next : OperatorId → List OperatorId) (fuel : Nat) (top : OperatorId)
    (rest : List OperatorId) (s : Search) : run next (fuel + 1) (top :: rest) s =
      if top ∈ s.found then run next fuel rest (s.leave top)
      else if top ∈ next top then .error top
      else run next fuel (fresh next s top ++ top :: rest) (s.enter top) := by
  simp only [run, leave, enter, fresh, List.contains_iff_mem]

/-! ## Soundness and fuel -/

/-- Steps that a search can still take: one for each node on the stack, and for
each node that is not found yet one to find it and one for each successor that
it puts on the stack. -/
def cost (next : OperatorId → List OperatorId) (nodes : Finset OperatorId) (stack : List OperatorId)
    (s : Search) : Nat :=
  stack.length + ∑ n ∈ nodes \ s.found.toFinset, ((next n).length + 1)

/-- What holds of a search at every step: nodes are left once and only when
found, and a node that is found and not left is still on the stack. -/
structure Sound (nodes : Finset OperatorId) (stack : List OperatorId) (s : Search) : Prop where
  nodup : s.left.Nodup
  found_of_left : ∀ n ∈ s.left, n ∈ s.found
  found_mem : ∀ n ∈ s.found, n ∈ nodes
  stack_mem : ∀ n ∈ stack, n ∈ nodes
  pending : ∀ n ∈ s.found, n ∈ s.left ∨ n ∈ stack

theorem sound_empty (nodes : Finset OperatorId) : Sound nodes [] {} :=
  ⟨by simp, by simp, by simp, by simp, by simp⟩

/-- Leaving an operator that was found keeps the search sound. -/
theorem Sound.pop (h : Sound nodes (top :: stack) s) (hfound : top ∈ s.found) :
    Sound nodes stack (s.leave top) where
  nodup := by
    unfold leave
    split
    · exact h.nodup
    · rename_i hleft
      exact List.nodup_cons.2 ⟨fun hmem => hleft (List.contains_iff_mem.2 hmem), h.nodup⟩
  found_of_left := by
    intro n hn
    rw [found_leave]
    rcases mem_left_leave.1 hn with rfl | hn
    · exact hfound
    · exact h.found_of_left n hn
  found_mem := by
    intro n hn
    rw [found_leave] at hn
    exact h.found_mem n hn
  stack_mem n hn := h.stack_mem n (List.mem_cons_of_mem top hn)
  pending := by
    intro n hn
    rw [found_leave] at hn
    rcases h.pending n hn with hl | hs
    · exact .inl (mem_left_leave.2 (.inr hl))
    · exact (List.mem_cons.1 hs).imp_left fun heq => mem_left_leave.2 (.inl heq)

/-- Entering an operator keeps the search sound, if its neighbours are
nodes. -/
theorem Sound.push (h : Sound nodes (top :: stack) s) (hnext : ∀ k ∈ next top, k ∈ nodes) :
    Sound nodes (fresh next s top ++ top :: stack) (s.enter top) where
  nodup := h.nodup
  found_of_left n hn := mem_found_enter.2 (.inr (h.found_of_left n hn))
  found_mem := by
    intro n hn
    rcases mem_found_enter.1 hn with rfl | hn
    · exact h.stack_mem n List.mem_cons_self
    · exact h.found_mem n hn
  stack_mem := by
    intro n hn
    rcases List.mem_append.1 hn with hn | hn
    · exact hnext n (mem_fresh.1 hn).1
    · exact h.stack_mem n hn
  pending := by
    intro n hn
    rcases mem_found_enter.1 hn with rfl | hn
    · exact .inr (List.mem_append_right _ List.mem_cons_self)
    · exact (h.pending n hn).imp_right (List.mem_append_right _)

/-- A search that ended can start again from a node. -/
theorem Sound.singleton (h : Sound nodes [] s) (hn : n ∈ nodes) : Sound nodes [n] s :=
  ⟨h.nodup, h.found_of_left, h.found_mem, by simpa using hn,
    fun k hk => (h.pending k hk).imp_right (by simp)⟩

/-- Leaving an operator takes one of the steps that are left. -/
theorem cost_pop (next : OperatorId → List OperatorId) (nodes : Finset OperatorId)
    (stack : List OperatorId) (top : OperatorId) (s : Search) :
    cost next nodes stack (s.leave top) < cost next nodes (top :: stack) s := by
  rw [cost, cost, found_leave, List.length_cons]
  omega

/-- Entering an operator takes one too: it puts no more on the stack than it
had steps for. -/
theorem cost_push (next : OperatorId → List OperatorId) (stack : List OperatorId)
    (hmem : top ∈ nodes) (hnew : top ∉ s.found) :
    cost next nodes (fresh next s top ++ top :: stack) (s.enter top) <
      cost next nodes (top :: stack) s := by
  have hin : top ∈ nodes \ s.found.toFinset := by simp [hmem, hnew]
  have hsum := Finset.add_sum_erase (nodes \ s.found.toFinset) (fun n => (next n).length + 1) hin
  have herase : nodes \ (s.enter top).found.toFinset = (nodes \ s.found.toFinset).erase top := by
    rw [enter, List.toFinset_cons, Finset.sdiff_insert]
  have hlen := length_fresh_le next s top
  rw [cost, cost, herase, ← hsum, List.length_append]
  omega

/-- The fuel of a search pays for one from any node. -/
theorem cost_singleton_le (hfuel : ∑ n ∈ nodes, ((next n).length + 1) + 1 ≤ fuel) (n : OperatorId)
    (s : Search) : cost next nodes [n] s ≤ fuel := by
  have hsub : nodes \ s.found.toFinset ⊆ nodes := Finset.sdiff_subset
  have hle := Finset.sum_le_sum_of_subset (f := fun n => (next n).length + 1) hsub
  rw [cost, List.length_singleton]
  omega

/-- **A search with enough fuel empties its stack**, and what its steps preserve
holds at the end. -/
theorem run_invariant {P : List OperatorId → Search → Prop}
    (hclosed : ∀ n ∈ nodes, ∀ k ∈ next n, k ∈ nodes)
    (hpop : ∀ top rest s, Sound nodes (top :: rest) s → top ∈ s.found → P (top :: rest) s →
      P rest (s.leave top))
    (hpush : ∀ top rest s, Sound nodes (top :: rest) s → top ∉ s.found → top ∉ next top →
      P (top :: rest) s → P (fresh next s top ++ top :: rest) (s.enter top))
    (hfuel : cost next nodes stack s ≤ fuel) (hsound : Sound nodes stack s) (h : P stack s)
    (hrun : run next fuel stack s = .ok s') : Sound nodes [] s' ∧ P [] s' := by
  -- a round takes one from the fuel and at least one from the cost
  induction fuel generalizing stack s with
  | zero =>
    cases stack with
    | nil =>
      obtain rfl : s = s' := by simpa [run] using hrun
      exact ⟨hsound, h⟩
    | cons top rest => simp [cost] at hfuel
  | succ fuel ih =>
    cases stack with
    | nil =>
      obtain rfl : s = s' := by simpa [run] using hrun
      exact ⟨hsound, h⟩
    | cons top rest =>
      rw [run_cons] at hrun
      have htop : top ∈ nodes := hsound.stack_mem top List.mem_cons_self
      split at hrun
      · rename_i hfound
        have hcost := cost_pop next nodes rest top s
        exact ih (by omega) (hsound.pop hfound) (hpop top rest s hsound hfound h) hrun
      · rename_i hnew
        split at hrun
        · cases hrun
        · rename_i hself
          have hcost := cost_push next rest htop hnew
          exact ih (by omega) (hsound.push (hclosed top htop))
            (hpush top rest s hsound hnew hself h)
            hrun

/-- A search fails at a node that is its own successor. -/
theorem self_of_run_error (hrun : run next fuel stack s = .error n) : n ∈ next n := by
  induction fuel generalizing stack s with
  | zero => simp [run] at hrun
  | succ fuel ih =>
    cases stack with
    | nil => simp [run] at hrun
    | cons top rest =>
      rw [run_cons] at hrun
      split at hrun
      · exact ih hrun
      · split at hrun
        · rename_i hself
          exact Except.error.inj hrun ▸ hself
        · exact ih hrun

/-! ## Nodes in order -/

/-- One step or more along successors. -/
abbrev Leads (next : OperatorId → List OperatorId) : OperatorId → OperatorId → Prop :=
  Relation.TransGen fun n k => k ∈ next n

/-- What holds of a search at every step, of the order in which nodes are left.
A successor of a node that was left was left before it or leads back to it. A
node that is found and not left leads to all that stands above it; its
successors were left, stand above it or lead back to it. -/
structure Nested (next : OperatorId → List OperatorId) (stack : List OperatorId)
    (s : Search) : Prop where
  loopless : ∀ n ∈ s.found, n ∉ next n
  settled : ∀ before n after, s.left = before ++ n :: after → ∀ k ∈ next n, k ∈ after ∨
    Leads next k n
  pending : ∀ above n below, stack = above ++ n :: below → n ∈ s.found → n ∉ s.left → n ∉ above →
    (∀ k ∈ next n, k ∈ s.left ∨ k ∈ above ∨ Leads next k n) ∧ ∀ k ∈ above, Leads next n k

theorem nested_empty (next : OperatorId → List OperatorId) : Nested next [] {} :=
  ⟨by simp, by simp, by simp⟩

/-- The node on top was found and is left now, if it was not before. -/
theorem Nested.pop (h : Nested next (top :: stack) s) (hfound : top ∈ s.found) :
    Nested next stack (s.leave top) where
  loopless := by
    intro n hn
    rw [found_leave] at hn
    exact h.loopless n hn
  settled := by
    by_cases hleft : top ∈ s.left
    · rw [leave, if_pos (List.contains_iff_mem.2 hleft)]
      exact h.settled
    · rw [leave, if_neg (by simpa using hleft)]
      intro before n after hsplit k hk
      cases before with
      | nil =>
        -- nothing stands above the top
        obtain ⟨rfl, rfl⟩ := List.cons.inj hsplit
        simpa using (h.pending [] top stack rfl hfound hleft (by simp)).1 k hk
      | cons first before => exact h.settled before n after (List.cons.inj hsplit).2 k hk
  pending := by
    intro above n below hstack hn hnleft hnabove
    rw [found_leave] at hn
    obtain ⟨hne, hnleft⟩ := not_or.1 (mem_left_leave.not.1 hnleft)
    obtain ⟨hnext, hleads⟩ := h.pending (top :: above) n below (by rw [hstack]; rfl) hn hnleft
      (by simp [hne, hnabove])
    refine ⟨fun k hk => ?_, fun k hk => hleads k (List.mem_cons_of_mem top hk)⟩
    rcases hnext k hk with hk | hk | hk
    · exact .inl (mem_left_leave.2 (.inr hk))
    · rcases List.mem_cons.1 hk with rfl | hk
      · exact .inl (mem_left_leave.2 (.inl rfl))
      · exact .inr (.inl hk)
    · exact .inr (.inr hk)

/-- What was found and not left leads to the node on top. -/
theorem Nested.leads_top (h : Nested next (top :: stack) s) (hsound : Sound nodes (top :: stack) s)
    (hnew : top ∉ s.found) (hfound : k ∈ s.found) (hleft : k ∉ s.left) : Leads next k top := by
  have hstack : k ∈ top :: stack := (hsound.pending k hfound).resolve_left hleft
  obtain ⟨above, below, hsplit, habove⟩ := List.eq_append_cons_of_mem hstack
  obtain ⟨-, hleads⟩ := h.pending above k below hsplit hfound hleft habove
  cases above with
  | nil =>
    obtain ⟨rfl, -⟩ := List.cons.inj hsplit
    exact absurd hfound hnew
  | cons first above =>
    obtain ⟨rfl, -⟩ := List.cons.inj hsplit
    exact hleads top List.mem_cons_self

/-- The node on top is found now, and the successors that are new go on top of
it. -/
theorem Nested.push (h : Nested next (top :: stack) s) (hsound : Sound nodes (top :: stack) s)
    (hnew : top ∉ s.found) (hself : top ∉ next top) :
    Nested next (fresh next s top ++ top :: stack) (s.enter top) where
  loopless := by
    intro n hn
    rcases mem_found_enter.1 hn with rfl | hn
    · exact hself
    · exact h.loopless n hn
  settled := h.settled
  pending := by
    intro above n below hstack hn hnleft hnabove
    -- a node that is found is not among the new ones
    have hsplit : ∃ rest, above = fresh next s top ++ rest ∧ top :: stack = rest ++ n :: below := by
      rcases List.append_eq_append_iff.1 hstack with hsplit | ⟨rest, habove, hrest⟩
      · exact hsplit
      · cases rest with
        | nil => exact ⟨[], by rw [habove, List.append_nil, List.append_nil], hrest.symm⟩
        | cons first rest =>
          obtain ⟨rfl, -⟩ := List.cons.inj hrest
          obtain ⟨-, hne, hnot⟩ := mem_fresh.1 (show n ∈ fresh next s top by rw [habove]; simp)
          exact absurd ((mem_found_enter.1 hn).resolve_left hne) hnot
    obtain ⟨rest, rfl, hrest⟩ := hsplit
    cases rest with
    | nil =>
      obtain ⟨rfl, rfl⟩ := List.cons.inj hrest
      rw [List.append_nil]
      refine ⟨fun k hk => ?_, fun k hk => .single (mem_fresh.1 hk).1⟩
      have hne : k ≠ top := fun heq => hself (heq ▸ hk)
      by_cases hfound : k ∈ s.found
      · by_cases hleft : k ∈ s.left
        · exact .inl hleft
        · exact .inr (.inr (h.leads_top hsound hnew hfound hleft))
      · exact .inr (.inl (mem_fresh.2 ⟨hk, hne, hfound⟩))
    | cons first rest =>
      obtain ⟨rfl, hrest⟩ := List.cons.inj hrest
      have hne : n ≠ top := by
        rintro rfl
        exact hnabove (by simp)
      obtain ⟨hnext, hleads⟩ := h.pending (top :: rest) n below (by rw [hrest, List.cons_append])
        ((mem_found_enter.1 hn).resolve_left hne) hnleft
          (fun hin => hnabove (List.mem_append_right _ hin))
      refine ⟨fun k hk => (hnext k hk).imp_right (.imp_left (List.mem_append_right _)),
        fun k hk => ?_⟩
      rcases List.mem_append.1 hk with hk | hk
      · exact (hleads top List.mem_cons_self).tail (mem_fresh.1 hk).1
      · exact hleads k hk

/-- A search that ended can start again from a node that is not found. -/
theorem Nested.singleton (h : Nested next [] s) (hnew : n ∉ s.found) : Nested next [n] s := by
  refine ⟨h.loopless, h.settled, fun above k below hstack hk _ _ => ?_⟩
  have hmem : k ∈ [n] := by rw [hstack]; simp
  exact absurd (List.mem_singleton.1 hmem ▸ hk) hnew

/-- **What a search ends with.** Nothing that was found is lost, and all of the
stack is found. -/
theorem run_spec (hclosed : ∀ n ∈ nodes, ∀ k ∈ next n, k ∈ nodes)
    (hfuel : cost next nodes stack s ≤ fuel) (hsound : Sound nodes stack s)
    (h : Nested next stack s) (hrun : run next fuel stack s = .ok s') :
    Sound nodes [] s' ∧ Nested next [] s' ∧ ∀ n, n ∈ s.found ∨ n ∈ stack → n ∈ s'.found := by
  have hend : Sound nodes [] s' ∧ Nested next [] s' ∧
      ∀ n, n ∈ s.found ∨ n ∈ stack → n ∈ s'.found ∨ n ∈ ([] : List OperatorId) := by
    refine run_invariant (P := fun stack' s'' => Nested next stack' s'' ∧
      ∀ n, n ∈ s.found ∨ n ∈ stack → n ∈ s''.found ∨ n ∈ stack') hclosed ?_ ?_ hfuel hsound
      ⟨h, fun _ hn => hn⟩ hrun
    · rintro top rest s'' - hfound ⟨hnested, hkeep⟩
      refine ⟨hnested.pop hfound, fun n hn => ?_⟩
      rw [found_leave]
      rcases hkeep n hn with hin | hin
      · exact .inl hin
      · rcases List.mem_cons.1 hin with rfl | hin
        · exact .inl hfound
        · exact .inr hin
    · rintro top rest s'' hsound'' hnew hself ⟨hnested, hkeep⟩
      refine ⟨hnested.push hsound'' hnew hself, fun n hn => ?_⟩
      exact (hkeep n hn).imp (fun hin => mem_found_enter.2 (.inr hin)) (List.mem_append_right _)
  obtain ⟨hsound', hnested, hkeep⟩ := hend
  exact ⟨hsound', hnested, fun n hn => (hkeep n hn).resolve_right List.not_mem_nil⟩

/-! ## From every node -/

/-- **A search from every node finds and leaves them all.** -/
theorem all_spec (hclosed : ∀ n ∈ nodes, ∀ k ∈ next n, k ∈ nodes)
    (hfuel : ∑ n ∈ nodes, ((next n).length + 1) + 1 ≤ fuel) (htodo : ∀ n ∈ todo, n ∈ nodes)
    (hsound : Sound nodes [] s) (h : Nested next [] s) (hall : all next fuel todo s = .ok s') :
    Sound nodes [] s' ∧ Nested next [] s' ∧ ∀ n, n ∈ s.found ∨ n ∈ todo → n ∈ s'.found := by
  induction todo generalizing s with
  | nil =>
    obtain rfl : s = s' := by simpa [all] using hall
    exact ⟨hsound, h, by simp⟩
  | cons node todo ih =>
    have htodo' : ∀ n ∈ todo, n ∈ nodes := fun n hn => htodo n (List.mem_cons_of_mem node hn)
    rw [all] at hall
    by_cases hfound : node ∈ s.found
    · rw [if_pos (List.contains_iff_mem.2 hfound)] at hall
      obtain ⟨hsound', h', hkeep⟩ := ih htodo' hsound h hall
      refine ⟨hsound', h', fun n hn => hkeep n ?_⟩
      rcases hn with hn | hn
      · exact .inl hn
      · rcases List.mem_cons.1 hn with rfl | hn
        · exact .inl hfound
        · exact .inr hn
    · rw [if_neg (by simpa using hfound)] at hall
      cases hrun : run next fuel [node] s with
      | error e => rw [hrun] at hall; cases hall
      | ok mid =>
        rw [hrun] at hall
        obtain ⟨hmid, hmid', hstart⟩ := run_spec hclosed (cost_singleton_le hfuel node s)
          (hsound.singleton (htodo node List.mem_cons_self)) (h.singleton hfound) hrun
        obtain ⟨hsound', h', hkeep⟩ := ih htodo' hmid hmid' hall
        refine ⟨hsound', h', fun n hn => hkeep n ?_⟩
        rcases hn with hn | hn
        · exact .inl (hstart n (.inl hn))
        · exact (List.mem_cons.1 hn).imp_left fun heq => hstart n (.inr (by simp [heq]))

/-- A search fails only at an operator that needs itself. -/
theorem self_of_all_error (hall : all next fuel todo s = .error n) : n ∈ next n := by
  induction todo generalizing s with
  | nil => simp [all] at hall
  | cons node todo ih =>
    rw [all] at hall
    split at hall
    · exact ih hall
    · cases hrun : run next fuel [node] s with
      | error e =>
        rw [hrun] at hall
        exact Except.error.inj hall ▸ self_of_run_error hrun
      | ok mid =>
        rw [hrun] at hall
        exact ih hall

/-! ## The second search -/

section Second

variable {visited before after : List OperatorId} {node : OperatorId}

/-- A new node is visited and its unvisited neighbours are pushed, in
reverse. -/
theorem next?_of_new (hnew : top ∉ visited) (rest : List OperatorId) :
    next? next visited (top :: rest) =
      some (top, ((next top).filter fun k => !(top :: visited).contains k).reverse ++ rest) := by
  rw [next?, if_neg (by simpa using hnew)]

/-- **A walk from a new node** comes next to the last of its successors that was
not visited. -/
theorem second?_cons (hnew : node ∉ visited) : second? next visited (node :: todo) =
    ((next node).reverse.find? fun k => !(node :: visited).contains k).or
      (second? next (node :: visited) todo) := by
  rw [second?, next?_of_new hnew, List.append_nil, ← List.filter_reverse, ← List.head?_filter]
  cases hstack : (next node).reverse.filter fun k => !(node :: visited).contains k with
  | nil => simp [next?]
  | cons k stack =>
    have hmem : k ∈ k :: stack := List.mem_cons_self
    rw [← hstack] at hmem
    have hk : k ∉ node :: visited := by simpa using (List.mem_filter.1 hmem).2
    simp only [next?_of_new hk]
    rfl

/-- Where no walk gets anywhere, successors are visited before. -/
theorem mem_of_second? (hnodup : (todo ++ visited).Nodup) (h : second? next visited todo = none)
    (hsplit : todo = before ++ n :: after) (hk : k ∈ next n) :
    k = n ∨ k ∈ before ∨ k ∈ visited := by
  induction before generalizing visited todo with
  | nil =>
    subst hsplit
    obtain ⟨hnew, -⟩ := List.nodup_cons.1 hnodup
    rw [List.nil_append, second?_cons fun hin => hnew (List.mem_append_right after hin),
      Option.or_eq_none_iff] at h
    have hvisited := List.find?_eq_none.1 h.1 k (List.mem_reverse.2 hk)
    simp only [Bool.not_eq_true, Bool.not_eq_false', List.contains_iff_mem,
      List.mem_cons] at hvisited
    exact hvisited.imp_right .inr
  | cons first before ih =>
    subst hsplit
    obtain ⟨hnew, -⟩ := List.nodup_cons.1 hnodup
    rw [List.cons_append, second?_cons fun hin => hnew (List.mem_append_right _ hin),
      Option.or_eq_none_iff] at h
    rcases ih (List.perm_middle.nodup_iff.2 hnodup) h.2 rfl with hkn | hkb | hkv
    · exact .inl hkn
    · exact .inr (.inl (List.mem_cons_of_mem first hkb))
    · rcases List.mem_cons.1 hkv with rfl | hkv
      · exact .inr (.inl List.mem_cons_self)
      · exact .inr (.inr hkv)

/-- What a walk comes to second is a successor that is not visited before. -/
theorem exists_of_second? (hnodup : (todo ++ visited).Nodup)
    (h : second? next visited todo = some k) :
    ∃ before n after, todo = before ++ n :: after ∧ k ∈ next n ∧ k ≠ n ∧ k ∉ before ∧
      k ∉ visited := by
  induction todo generalizing visited with
  | nil => cases h
  | cons first todo ih =>
    obtain ⟨hnew, -⟩ := List.nodup_cons.1 hnodup
    rw [second?_cons fun hin => hnew (List.mem_append_right todo hin)] at h
    cases hfind : (next first).reverse.find? fun k => !(first :: visited).contains k with
    | some found =>
      rw [hfind] at h
      obtain rfl := Option.some.inj h
      have hnot : found ≠ first ∧ found ∉ visited := by simpa using List.find?_some hfind
      exact ⟨[], first, todo, rfl, List.mem_reverse.1 (List.mem_of_find?_eq_some hfind),
        hnot.1, by simp, hnot.2⟩
    | none =>
      rw [hfind, Option.none_or] at h
      obtain ⟨before, n, after, rfl, hk, hne, hbefore, hvisited⟩ :=
        ih (List.perm_middle.nodup_iff.2 hnodup) h
      obtain ⟨hkfirst, hvisited⟩ := not_or.1 (List.mem_cons.not.1 hvisited)
      exact ⟨first :: before, n, after, rfl, hk, hne, by simp [hkfirst, hbefore], hvisited⟩

end Second

end QuantAccel.Graph.Search
