import QuantAccel.Proofs.Compile
import QuantAccel.Proofs.Evaluation
import QuantAccel.Proofs.Tiling

/-!
# Execution of an operator

A run of a device is a number of edges none of which fails. The machine runs an
operator in as many edges as its plan has cycles: the fetch counts down, its
last edge latches the operands and clears the output, each tile counts down and
is stored at its last edge, and the last tile publishes the counter. Between two
operators the machine is in a state that depends on nothing but how many are
complete.
-/

namespace QuantAccel

/-! ## Runs of a device -/

namespace Device

variable {σ : Type} [Device σ]

/-- One edge that does not fail. -/
structure Steps (s : σ) (image : Image) (s' : σ) (image' : Image) : Prop where
  device_eq : (step s image).device = s'
  image_eq : (step s image).image = image'
  fault_eq : (step s image).fault = none

/-- Edges one after the other, none of which fails, with a property of the
device after each of them but the last. -/
inductive Runs (P : σ → Prop) : Nat → σ → Image → σ → Image → Prop
  | refl (s : σ) (image : Image) : Runs P 0 s image s image
  | edge {n : Nat} {s s' t : σ} {image image' image'' : Image} (first : Steps s image s' image')
      (between : n ≠ 0 → P s') (rest : Runs P n s' image' t image'') :
      Runs P (n + 1) s image t image''

namespace Runs

variable {P : σ → Prop} {n k : Nat} {s t u : σ} {image image' image'' : Image}

theorem single (h : Steps s image t image') : Runs P 1 s image t image' :=
  .edge h (fun h => absurd rfl h) (.refl _ _)

/-- Runs one after the other. -/
theorem trans (h : Runs P n s image t image') (hmiddle : k ≠ 0 → P t)
    (h' : Runs P k t image' u image'') : Runs P (n + k) s image u image'' := by
  induction h with
  | refl => rwa [Nat.zero_add]
  | @edge n s s' t image image' _ first between rest ih =>
    rw [Nat.add_right_comm]
    refine .edge first (fun hne => ?_) (ih hmiddle h')
    by_cases hn : n = 0
    · subst hn
      cases rest
      exact hmiddle (by omega)
    · exact between hn

theorem mono {Q : σ → Prop} (h : Runs P n s image t image') (hPQ : ∀ s, P s → Q s) :
    Runs Q n s image t image' := by
  induction h with
  | refl => exact .refl _ _
  | edge first between _ ih => exact .edge first (fun hn => hPQ _ (between hn)) ih

/-- A run to a state without the property goes through every run whose states
have it. -/
theorem resume (h : Runs P n s image t image') (hs : P s) {Q : σ → Prop} {u : σ}
    (h' : Runs Q k s image u image'') (hu : ¬P u) : ∃ k', Runs Q k' t image' u image'' := by
  induction h generalizing k with
  | refl => exact ⟨k, h'⟩
  | @edge n _ _ _ _ _ _ first between rest ih =>
    cases h' with
    | refl => exact absurd hs hu
    | edge first' _ rest' =>
      obtain rfl := first.device_eq.symm.trans first'.device_eq
      obtain rfl := first.image_eq.symm.trans first'.image_eq
      by_cases hn : n = 0
      · subst hn
        cases rest
        exact ⟨_, rest'⟩
      · exact ih (between hn) rest'

/-- A device behaves in one way only. -/
theorem unique {Q : σ → Prop} {u : σ} (h : Runs P n s image t image')
    (h' : Runs Q n s image u image'') :
    u = t ∧ image'' = image' := by
  induction h with
  | refl =>
    cases h'
    exact ⟨rfl, rfl⟩
  | edge first _ _ ih =>
    cases h' with
    | edge first' _ rest' =>
      obtain rfl := first.device_eq.symm.trans first'.device_eq
      obtain rfl := first.image_eq.symm.trans first'.image_eq
      exact ih rest'

end Runs

end Device

/-! ## States of the machine -/

namespace Image

/-- The image with a word stored. -/
def withWord (image : Image) (address : Nat) (word : UInt32) : Image :=
  { image with bytes := image.bytes.splice address (Bytes.ofWord word) }

/-- The image with the range of a tensor cleared. -/
def cleared (image : Image) (base : Nat) (t : Tensor) : Image :=
  { image with bytes := image.bytes.splice base (List.replicate t.memorySize 0) }

theorem changesOnly_withWord {image : Image} {address : Nat} (word : UInt32)
    (h : address + 4 ≤ image.size) :
    ChangesOnly (Set.Ico address (address + 4)) image (image.withWord address word) :=
  changesOnly_splice image (Bytes.ofWord word) h

/-- A word that was stored is read. -/
theorem wordAt_withWord {image : Image} {address : Nat} (word : UInt32)
    (h : address + 4 ≤ image.size) :
    (image.withWord address word).bytes.wordAt address = word := by
  rw [withWord, wordAt_splice word h]

/-- Clearing a tensor changes its bytes only. -/
theorem changesOnly_cleared {image : Image} {base : Nat} {t : Tensor}
    (h : base + t.memorySize ≤ image.size) :
    ChangesOnly (Set.Ico base (base + t.memorySize)) image (image.cleared base t) := by
  have hsplice := changesOnly_splice image (List.replicate t.memorySize 0) (by simpa using h)
  rwa [List.length_replicate] at hsplice

/-- Elements are stored one run after another. -/
theorem withElements_append (image : Image) (base : Nat) (t : Tensor) (value : Nat → Int)
    (is js : List Nat) :
    (image.withElements base t value is).withElements base t value js =
      image.withElements base t value (is ++ js) := by
  simp [withElements, Bytes.writeFields]

/-- Storing a result changes its range only. -/
theorem changesOnly_stored {image : Image} {base : Nat} {t : Tensor} (ht : t.Laid)
    (hin : base + t.memorySize ≤ image.size) (f : Nat → Int) (is : List Nat) :
    ChangesOnly (Set.Ico base (base + t.memorySize)) image
      ((image.cleared base t).withElements base t f is) := by
  have hclear := changesOnly_cleared hin
  exact hclear.trans (changesOnly_withElements f is ht (hclear.size.symm ▸ hin))

/-- **A result that was stored element by element reads back**, next to a word
stored after it. -/
theorem stored_spec {image : Image} {base address : Nat} {t : Tensor} {f : Nat → Int}
    {is : List Nat} (ht : t.Laid) (hin : base + t.memorySize ≤ image.size)
    (his : ∀ j, j ∈ is ↔ j < t.volume) (hcontains : ∀ j, t.element.Contains (f j))
    (hword : address + 4 ≤ image.size) (hapart : Extent.Apart ⟨base, t.memorySize⟩ ⟨address, 4⟩)
    (word : UInt32) :
    (((image.cleared base t).withElements base t f is).withWord address word).readTensor base t =
        .ok (Array.ofFn fun j : Fin t.volume => f j) ∧
      (((image.cleared base t).withElements base t f is).withWord address word).bytes.wordAt
        address =
        word ∧
      ChangesOnly (Set.Ico base (base + t.memorySize) ∪ Set.Ico address (address + 4)) image
        (((image.cleared base t).withElements base t f is).withWord address word) := by
  have helements := changesOnly_stored ht hin f is
  have hin₁ : base + t.memorySize ≤ (image.cleared base t).size :=
    (changesOnly_cleared hin).size.symm ▸ hin
  have hin₂ : base + t.memorySize ≤ ((image.cleared base t).withElements base t f is).size :=
    helements.size.symm ▸ hin
  have hword₂ : address + 4 ≤ ((image.cleared base t).withElements base t f is).size :=
    helements.size.symm ▸ hword
  have hstored := changesOnly_withWord word hword₂
  refine ⟨?_, wordAt_withWord word hword₂, ?_⟩
  · rw [hstored.readTensor_eq fun a ha => ?_, readTensor_eq_elements ht hin₂]
    rotate_left
    · simp only [Extent.Apart, Extent.stop, Set.mem_Ico] at hapart ha
      omega
    congr 2
    funext j
    obtain ⟨hleast, hgreatest⟩ := hcontains j
    rw [elementAt_withElements f is ht hin₁ j.isLt fun i hi => (his i).1 hi,
      if_pos ((his j).2 j.isLt), ElementType.reduce_of_mem _ hleast hgreatest]
  · exact (helements.mono Set.subset_union_left).trans (hstored.mono Set.subset_union_right)

end Image

namespace Machine

open Device (Steps Runs)

/-- Work in flight, and no start to consume. -/
def working (m : Machine) (phase : Phase) (completed : Nat) : Machine :=
  { m with
    registers := { m.registers with start := false, status := Status.busy }, phase, completed }

/-- All work done. -/
def finished (m : Machine) (completed : Nat) : Machine :=
  { m with
    registers := { m.registers with start := false, status := Status.done },
      phase := .idle, completed }

/-- After `k` operators: at the fetch of the next, or done if there is none. -/
def arrived (m : Machine) (k : Nat) : Machine :=
  match m.plans[k]? with
  | some plan => m.working (.fetch k plan.fetchCycles) k
  | none => m.finished k

/-- The status of a machine with work in flight. -/
def Busy (m : Machine) : Prop := m.registers.status = Status.busy

variable {m : Machine} {image : Image} {i k c base : Nat} {plan : OperatorPlan}
variable {operands : List (Array Int)} {f : Nat → Int}

theorem busy_working (m : Machine) (phase : Phase) (c : Nat) : (m.working phase c).Busy := rfl

theorem plan_eq (h : m.plans[k]? = some plan) : m.plan k = plan := by
  rw [Machine.plan, List.getD_eq_getElem?_getD, h, Option.getD_some]

theorem arrived_of_plan (h : m.plans[k]? = some plan) :
    m.arrived k = m.working (.fetch k plan.fetchCycles) k := by
  rw [arrived, h]

/-! ## Single edges -/

/-- A start request is consumed by the next edge, whatever the machine was
doing. -/
theorem steps_launch (h : m.registers.start) (image : Image) :
    Steps m image (m.arrived 0) image := by
  unfold arrived
  cases hplans : m.plans <;> constructor <;>
    simp [Device.step, step, h, launch, hplans, working, finished]

/-- Without work and without a request nothing happens. -/
theorem steps_idle (hstart : m.registers.start = false) (hphase : m.phase = .idle) (image : Image) :
    Steps m image m image := by
  constructor <;> simp [Device.step, step, hstart, hphase]

/-- What an edge makes of a machine with work in flight: the work goes on, it
ends with the last operator, or it is dropped for a fault. The host's registers
stay as they are. -/
inductive Moves (m : Machine) (e : Edge Machine) : Prop
  | works (phase : Phase) (completed : Nat) (fault_eq : e.fault = none)
      (device_eq : e.device = { m with phase, completed })
  | ends (completed : Nat) (fault_eq : e.fault = none)
      (device_eq : e.device =
        { m with
          registers := { m.registers with status := Status.done }, phase := .idle, completed })
  | fails (completed : Nat) (fault_ne : e.fault ≠ none)
      (device_eq : e.device = { m with phase := .idle, completed })

theorem moves_fail (m : Machine) (image : Image) (fault : SimulationError) :
    m.Moves (m.fail image fault) :=
  .fails _ (by simp [fail]) rfl

/-- The end of a fetch moves the machine on or stops it. -/
theorem moves_latch (m : Machine) (i : Nat) (image : Image) : m.Moves (m.latch i image) := by
  unfold latch
  dsimp only
  split
  · exact m.moves_fail _ _
  · exact m.moves_fail _ _
  · split
    · exact m.moves_fail _ _
    · exact .works _ _ rfl rfl

/-- So does the end of an operator. -/
theorem moves_complete (m : Machine) (i : Nat) (image : Image) : m.Moves (m.complete i image) := by
  unfold complete
  dsimp only
  split
  · exact .fails _ (by simp [fail]) rfl
  · split
    · exact .works _ _ rfl rfl
    · exact .ends _ rfl rfl

/-- So does the end of a tile. -/
theorem moves_finishTile (m : Machine) (i : Nat) (tile : Tile) (later : List Tile)
    (operands : List (Array Int)) (image : Image) :
    m.Moves (m.finishTile i tile later operands image) := by
  unfold finishTile
  split
  · exact m.moves_fail _ _
  · split
    · exact .works _ _ rfl rfl
    · exact m.moves_complete i _

/-- All that an edge can do to work in flight. -/
theorem moves_step (hstart : m.registers.start = false) (hphase : m.phase ≠ .idle) (image : Image) :
    m.Moves (Device.step m image) := by
  change m.Moves (m.step image)
  unfold step
  rw [if_neg (by simp [hstart])]
  split
  · contradiction
  · split
    · exact .works _ _ rfl rfl
    · exact m.moves_latch _ image
  · split
    · exact .works _ _ rfl rfl
    · exact m.moves_finishTile _ _ _ _ image

/-- An edge of the machine that does not fail, by its result. -/
theorem steps_of_eq {e : Edge Machine} (h : m.step image = e) (hfault : e.fault = none) :
    Steps m image e.device e.image := by
  subst h
  exact ⟨rfl, rfl, hfault⟩

/-- All edges of a phase but the last count down, and touch nothing. -/
theorem runs_counted (phase : Nat → Phase)
    (hcount : ∀ n, Steps (m.working (phase (n + 2)) c) image (m.working (phase (n + 1)) c) image)
    {n : Nat} :
    Runs Busy n (m.working (phase (n + 1)) c) image (m.working (phase 1) c) image := by
  induction n with
  | zero => exact .refl _ _
  | succ n ih => exact .edge (hcount n) (fun _ => busy_working m _ c) ih

/-- A phase takes its cycles. -/
theorem runs_countdown (phase : Nat → Phase)
    (hcount : ∀ n, Steps (m.working (phase (n + 2)) c) image (m.working (phase (n + 1)) c) image)
    {n : Nat} (hn : 0 < n) {s : Machine} {image' : Image}
    (hlast : Steps (m.working (phase 1) c) image s image') :
    Runs Busy n (m.working (phase n) c) image s image' := by
  obtain ⟨n, rfl⟩ := Nat.exists_eq_add_of_le' hn
  exact (runs_counted phase hcount).trans (fun _ => busy_working m _ c) (.single hlast)

/-- An edge before the last one of a fetch counts down. -/
theorem steps_fetch (n : Nat) :
    Steps (m.working (.fetch i (n + 2)) c) image (m.working (.fetch i (n + 1)) c) image := by
  constructor <;> simp [Device.step, step, working]

/-- An edge before the last one of a tile counts down. -/
theorem steps_compute (tile : Tile) (later : List Tile) (n : Nat) :
    Steps (m.working (.compute i (n + 2) tile later operands) c) image
      (m.working (.compute i (n + 1) tile later operands) c) image := by
  constructor <;> simp [Device.step, step, working]

/-- The last edge of a fetch. -/
theorem steps_latch (hread : m.readOperands image (m.operatorAt i) = .ok operands)
    (haddress : m.addressOf (m.operatorAt i).output = .ok base)
    (hw : image.Writable base (m.design.graph.tensor (m.operatorAt i).output).memorySize)
    {tile : Tile} {later : List Tile} (htiles : (m.plan i).tiles = tile :: later) :
    Steps (m.working (.fetch i 1) c) image
      (m.working (.compute i tile.cycles tile later operands) c)
      (image.cleared base (m.design.graph.tensor (m.operatorAt i).output)) := by
  -- the phase and the registers do not matter for what the machine reads
  have hread' : (m.working (.fetch i 1) c).readOperands image (m.operatorAt i) =
      .ok operands := hread
  have haddress' : (m.working (.fetch i 1) c).addressOf (m.operatorAt i).output =
      .ok base := haddress
  have hoperator : (m.working (.fetch i 1) c).operatorAt i = m.operatorAt i := rfl
  have htiles' : ((m.working (.fetch i 1) c).plan i).tiles = tile :: later := htiles
  have hlatch : (m.working (.fetch i 1) c).step image =
      { device := m.working (.compute i tile.cycles tile later operands) c
        image := image.cleared base (m.design.graph.tensor (m.operatorAt i).output) } := by
    change (m.working (.fetch i 1) c).latch i image = _
    simp only [latch, hoperator, hread', haddress', htiles', List.headD_cons, List.tail_cons]
    rw [Image.attempt_of_writable (by exact hw)]
    rfl
  exact steps_of_eq hlatch rfl

/-! ## Tiles -/

/-- **A list of elements is stored** when the machine can compute each of
them. -/
theorem storeElements_eq {op : Operator} (ht : (m.design.graph.tensor op.output).Laid)
    (hw : image.Writable base (m.design.graph.tensor op.output).memorySize) {is : List Nat}
    (helement : ∀ j ∈ is, m.element op operands j = .ok (f j)) :
    m.storeElements op operands base is image =
      (none, image.withElements base (m.design.graph.tensor op.output) f is) := by
  induction is generalizing image with
  | nil => rfl
  | cons j is ih =>
    have hstore : m.storeElement op operands base image j =
        (none, image.withElements base (m.design.graph.tensor op.output) f [j]) := by
      simp only [storeElement, helement j List.mem_cons_self, Image.elementSpan_eq ht]
      rw [Image.attempt_of_writable (hw.span ht j)]
      rfl
    have hw' := (Image.changesOnly_withElements f [j] ht hw.inBounds).writable_iff.2 hw
    rw [storeElements, hstore]
    simp only
    rw [ih hw' fun j' hj' => helement j' (List.mem_cons_of_mem j hj'), Image.withElements_append,
      List.singleton_append]

/-- The completion of an operator: the counter goes to its address. -/
theorem complete_eq (phase : Phase) (hh : image.Writable m.registers.handshakeAddress.toNat 4) :
    ((m.working phase k).complete k image).device = m.arrived (k + 1) ∧
      ((m.working phase k).complete k image).image =
        image.withWord m.registers.handshakeAddress.toNat (UInt32.ofNat (k + 1)) ∧
      ((m.working phase k).complete k image).fault = none := by
  unfold complete arrived
  simp only [working]
  rw [Image.attempt_of_writable hh]
  cases hnext : m.plans[k + 1]? <;> exact ⟨rfl, rfl, rfl⟩

section Tiles

variable (haddress : m.addressOf (m.operatorAt k).output = .ok base)
variable (ht : (m.design.graph.tensor (m.operatorAt k).output).Laid)
include haddress ht

/-- A tile is stored element by element, if its bytes are writable and its
elements can be computed. -/
theorem storeTile_eq (phase : Phase) (tile : Tile)
    (hw : image.Writable base (m.design.graph.tensor (m.operatorAt k).output).memorySize)
    (helement : ∀ j ∈ tile.elements, m.element (m.operatorAt k) operands j = .ok (f j)) :
    (m.working phase k).storeTile k tile operands image =
      (none, image.withElements base
        (m.design.graph.tensor (m.operatorAt k).output) f tile.elements) := by
  have haddress' : (m.working phase k).addressOf
      ((m.working phase k).operatorAt k).output = .ok base :=
    haddress
  rw [storeTile]
  simp only [haddress']
  exact storeElements_eq (m := m.working phase k) ht hw helement

/-- The last edge of a tile that has a successor: the tile is stored, and the
next one begins. -/
theorem steps_tile (tile next : Tile) (later : List Tile)
    (hw : image.Writable base (m.design.graph.tensor (m.operatorAt k).output).memorySize)
    (helement : ∀ j ∈ tile.elements, m.element (m.operatorAt k) operands j = .ok (f j)) :
    Steps (m.working (.compute k 1 tile (next :: later) operands) k) image
      (m.working (.compute k next.cycles next later operands) k)
      (image.withElements base (m.design.graph.tensor (m.operatorAt k).output) f
        tile.elements) := by
  have hlast : (m.working (.compute k 1 tile (next :: later) operands) k).step image =
      { device := m.working (.compute k next.cycles next later operands) k
        image := image.withElements base (m.design.graph.tensor (m.operatorAt k).output) f
          tile.elements } := by
    change (m.working (.compute k 1 tile (next :: later) operands) k).finishTile k tile
      (next :: later)
      operands image = _
    rw [finishTile, storeTile_eq haddress ht _ tile hw helement]
    rfl
  exact steps_of_eq hlast rfl

/-- The last edge of the last tile stores it and completes the operator. -/
theorem step_last_tile (tile : Tile)
    (hw : image.Writable base (m.design.graph.tensor (m.operatorAt k).output).memorySize)
    (helement : ∀ j ∈ tile.elements, m.element (m.operatorAt k) operands j = .ok (f j)) :
    (m.working (.compute k 1 tile [] operands) k).step image =
      (m.working (.compute k 1 tile [] operands) k).complete k
        (image.withElements base (m.design.graph.tensor (m.operatorAt k).output) f
          tile.elements) := by
  change (m.working (.compute k 1 tile [] operands) k).finishTile k tile [] operands image = _
  rw [finishTile, storeTile_eq haddress ht _ tile hw helement]

/-- **The tiles of an operator**, from the first cycle of the first to the last
of the last: the edge that is left stores the last tile and completes the
operator. -/
theorem runs_tiles (tile : Tile) (later : List Tile) (hcycles : ∀ t ∈ tile :: later, 0 < t.cycles)
    (hw : image.Writable base (m.design.graph.tensor (m.operatorAt k).output).memorySize)
    (helement : ∀ t ∈ tile :: later, ∀ j ∈ t.elements,
      m.element (m.operatorAt k) operands j = .ok (f j)) :
    ∃ n phase image₁, n + 1 = ((tile :: later).map (·.cycles)).sum ∧
      Runs Busy n (m.working (.compute k tile.cycles tile later operands) k) image
        (m.working phase k) image₁ ∧
      (m.working phase k).step image₁ = (m.working phase k).complete k
        (image.withElements base (m.design.graph.tensor (m.operatorAt k).output) f
          ((tile :: later).flatMap (·.elements))) := by
  -- the edge that stores a tile begins the next one, except for the last
  induction later generalizing tile image with
  | nil =>
    obtain ⟨n, hn⟩ := Nat.exists_eq_add_of_le' (hcycles tile List.mem_cons_self)
    refine ⟨n, .compute k 1 tile [] operands, image, by simp [hn], ?_, ?_⟩
    · rw [hn]
      exact runs_counted (fun n => .compute k n tile [] operands) (steps_compute tile [])
    · rw [step_last_tile haddress ht tile hw (helement tile List.mem_cons_self),
        List.flatMap_singleton]
  | cons next later ih =>
    have hc := Image.changesOnly_withElements f tile.elements ht hw.inBounds
    have hfirst := runs_countdown (fun n => .compute k n tile (next :: later) operands)
      (steps_compute tile (next :: later)) (hcycles tile List.mem_cons_self)
      (steps_tile haddress ht tile next later hw (helement tile List.mem_cons_self))
    obtain ⟨n, phase, image₁, hn, hrest, hstep⟩ :=
      ih next (fun t ht => hcycles t (List.mem_cons_of_mem _ ht))
      (hc.writable_iff.2 hw) fun t ht => helement t (List.mem_cons_of_mem _ ht)
    rw [Image.withElements_append] at hstep
    refine ⟨tile.cycles + n, phase, image₁, ?_,
      hfirst.trans (fun _ => busy_working m _ k) hrest, hstep⟩
    rw [List.map_cons, List.sum_cons, ← hn, Nat.add_assoc]

end Tiles

/-! ## One operator -/

/-- **One operator runs** up to the edge that completes it: its operands are
latched, its output is cleared, and its tiles are stored. -/
theorem runs_to_complete {op : Operator} (hop : m.operatorAt k = op)
    (hplan : m.plans[k]? = some plan)
    (hcovers : plan.Covers (m.design.graph.tensor op.output).volume)
    (ht : (m.design.graph.tensor op.output).Laid) (hread : m.readOperands image op = .ok operands)
    (haddress : m.addressOf op.output = .ok base)
    (hw : image.Writable base (m.design.graph.tensor op.output).memorySize)
    (helement : ∀ j < (m.design.graph.tensor op.output).volume, m.element op operands j =
      .ok (f j)) :
    ∃ n phase image₁, n + 1 = plan.cycles ∧
      Runs Busy n (m.arrived k) image (m.working phase k) image₁ ∧
      (m.working phase k).step image₁ = (m.working phase k).complete k
        ((image.cleared base (m.design.graph.tensor op.output)).withElements base
          (m.design.graph.tensor op.output) f (plan.tiles.flatMap (·.elements))) := by
  subst hop
  obtain ⟨tile, later, htiles⟩ := List.exists_cons_of_ne_nil hcovers.tiles_ne_nil
  have hlt {t : Tile} (h : t ∈ tile :: later) {j : Nat} (hj : j ∈ t.elements) :
      j < (m.design.graph.tensor (m.operatorAt k).output).volume :=
    List.mem_range.1 (hcovers.elements.mem_iff.1 (List.mem_flatMap.2 ⟨t, htiles ▸ h, hj⟩))
  -- the fetch, then the tiles
  have hclear := Image.changesOnly_cleared hw.inBounds
  have hfetch : Runs Busy plan.fetchCycles (m.arrived k) image
      (m.working (.compute k tile.cycles tile later operands) k)
      (image.cleared base (m.design.graph.tensor (m.operatorAt k).output)) := by
    rw [arrived_of_plan hplan]
    exact runs_countdown (fun n => .fetch k n) steps_fetch hcovers.fetch_pos
      (steps_latch hread haddress hw ((plan_eq hplan).symm ▸ htiles))
  obtain ⟨n, phase, image₁, hn, hrun, hstep⟩ := runs_tiles haddress ht tile later
    (fun t h => hcovers.cycles_pos t (htiles ▸ h)) (hclear.writable_iff.2 hw) fun t h j hj =>
      helement j (hlt h hj)
  rw [← htiles] at hn hstep
  refine ⟨plan.fetchCycles + n, phase, image₁, ?_,
    hfetch.trans (fun _ => busy_working m _ k) hrun, hstep⟩
  rw [OperatorPlan.cycles, foldr_add, ← hn, Nat.add_assoc]

/-- **One operator runs** in as many edges as its plan has cycles. Its result
reads as the values that the machine computes from the operands, the counter is
published, and nothing else changes. -/
theorem runs_operator {op : Operator} (hop : m.operatorAt k = op) (hplan : m.plans[k]? = some plan)
    (hcovers : plan.Covers (m.design.graph.tensor op.output).volume)
    (ht : (m.design.graph.tensor op.output).Laid) (hread : m.readOperands image op = .ok operands)
    (haddress : m.addressOf op.output = .ok base)
    (hw : image.Writable base (m.design.graph.tensor op.output).memorySize)
    (hh : image.Writable m.registers.handshakeAddress.toNat 4)
    (hapart : Extent.Apart ⟨base, (m.design.graph.tensor op.output).memorySize⟩
      ⟨m.registers.handshakeAddress.toNat, 4⟩)
    (helement : ∀ j < (m.design.graph.tensor op.output).volume, m.element op operands j = .ok (f j))
    (hcontains : ∀ j, (m.design.graph.tensor op.output).element.Contains (f j)) :
    ∃ image', Runs Busy plan.cycles (m.arrived k) image (m.arrived (k + 1)) image' ∧
      image'.readTensor base (m.design.graph.tensor op.output) =
        .ok (Array.ofFn fun j : Fin (m.design.graph.tensor op.output).volume => f j) ∧
      image'.bytes.wordAt m.registers.handshakeAddress.toNat = UInt32.ofNat (k + 1) ∧
      Image.ChangesOnly (Set.Ico base (base + (m.design.graph.tensor op.output).memorySize) ∪
        Set.Ico m.registers.handshakeAddress.toNat (m.registers.handshakeAddress.toNat + 4))
        image image' := by
  obtain ⟨n, phase, image₁, hn, hrun, hstep⟩ :=
    runs_to_complete hop hplan hcovers ht hread haddress hw helement
  have hmem (j : Nat) : j ∈ plan.tiles.flatMap (·.elements) ↔
      j < (m.design.graph.tensor op.output).volume :=
    hcovers.elements.mem_iff.trans List.mem_range
  have hstored := Image.changesOnly_stored ht hw.inBounds f (plan.tiles.flatMap (·.elements))
  -- the edge that completes the operator publishes the counter
  obtain ⟨hdevice, himage, hfault⟩ := complete_eq phase (hstored.writable_iff.2 hh)
  have hlast := steps_of_eq hstep hfault
  rw [hdevice, himage] at hlast
  rw [← hn]
  exact ⟨_, hrun.trans (fun _ => busy_working m _ k) (.single hlast),
    Image.stored_spec ht hw.inBounds hmem hcontains hh.inBounds hapart _⟩

end Machine

end QuantAccel
