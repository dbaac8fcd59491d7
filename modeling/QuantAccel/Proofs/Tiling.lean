import QuantAccel.Machine.Tiling
import QuantAccel.Proofs.Plan

/-!
# Tiles partition the output

Runs cut a range into consecutive pieces, so that their concatenation is the
range again. The tiles of an elementwise operator follow its rows and list the
output in order; those of a matrix product go through blocks of rows and
columns, and list every output index once. No piece is empty or longer than its
step, not even at a ragged edge, and this bounds the tiles.
-/

namespace QuantAccel

/-! ## Runs -/

section Runs

variable {total step : Nat}

/-- The first runs make up a prefix of the range. -/
theorem flatten_take_runs (hstep : 0 < step) {count : Nat}
    (hcount : count ≤ (total + step - 1) / step) :
    ((List.range count).map fun i =>
      List.range' (i * step) (min (i * step + step) total - i * step)).flatten =
      List.range (min (count * step) total) := by
  induction count with
  | zero => simp
  | succ count ih =>
    -- a run begins before the end, so the prefix before it is full
    have hlt : count * step < total := by
      have hle := (Nat.le_div_iff_mul_le hstep).1 hcount
      rw [Nat.succ_mul] at hle
      omega
    have happend : List.range' 0 (count * step) ++
        List.range' (count * step) (min (count * step + step) total - count * step) =
        List.range' 0 (min (count * step + step) total) := by
      have hjoin := List.range'_append_1 (s := 0) (m := count * step)
        (n := min (count * step + step) total - count * step)
      rwa [Nat.zero_add, Nat.add_sub_cancel' (by omega)] at hjoin
    rw [List.range_succ, List.map_append, List.flatten_append, ih (by omega), List.map_singleton,
      List.flatten_singleton, Nat.succ_mul, min_eq_left hlt.le, List.range_eq_range',
      List.range_eq_range', happend]

/-- **Runs make up the range.** -/
theorem flatten_runs (total : Nat) (hstep : 0 < step) :
    (runs total step).flatten = List.range total := by
  rw [runs, flatten_take_runs hstep le_rfl, min_eq_right]
  exact le_roundUp total hstep

theorem runs_ne_nil (htotal : 0 < total) (hstep : 0 < step) : runs total step ≠ [] := by
  have hpos : 0 < (total + step - 1) / step := Nat.div_pos (by omega) hstep
  intro hnil
  have := congrArg List.length hnil
  simp [runs] at this
  omega

/-- Rows of a range. -/
theorem flatMap_range_rows (rows columns : Nat) :
    ((List.range rows).flatMap fun r => (List.range columns).map fun c => r * columns + c) =
      List.range (rows * columns) := by
  induction rows with
  | zero => simp
  | succ rows ih =>
    rw [List.range_succ, List.flatMap_append, ih, List.flatMap_singleton, Nat.succ_mul,
      List.range_add]

end Runs

/-! ## Tiles -/

theorem elements_laneTiles (rows columns : Nat) {lanes : Nat} (hlanes : 0 < lanes) :
    (laneTiles rows columns lanes).flatMap (·.elements) = List.range (rows * columns) := by
  rw [← flatMap_range_rows, laneTiles, List.flatMap_assoc]
  refine List.flatMap_congr fun r _ => ?_
  rw [List.flatMap_map, ← flatten_runs columns hlanes, List.map_flatten, List.flatMap_def]

theorem laneTiles_ne_nil {rows columns lanes : Nat} (hrows : 0 < rows) (hcolumns : 0 < columns)
    (hlanes : 0 < lanes) : laneTiles rows columns lanes ≠ [] := by
  obtain ⟨run, hrun⟩ := List.exists_mem_of_ne_nil _ (runs_ne_nil hcolumns hlanes)
  exact List.ne_nil_of_mem
    (List.mem_flatMap.2 ⟨0, List.mem_range.2 hrows, List.mem_map_of_mem hrun⟩)

theorem cycles_pos_laneTiles {rows columns lanes : Nat} {tile : Tile}
    (h : tile ∈ laneTiles rows columns lanes) : 0 < tile.cycles := by
  obtain ⟨r, -, htile⟩ := List.mem_flatMap.1 h
  obtain ⟨run, -, rfl⟩ := List.mem_map.1 htile
  exact Nat.one_pos

/-- Two nested traversals can change places. -/
theorem flatMap_flatMap_perm {α β γ : Type} (l : List α) (l' : List β) (f : α → β → List γ) :
    (l.flatMap fun a => l'.flatMap fun b => f a b).Perm
      (l'.flatMap fun b => l.flatMap fun a => f a b) := by
  induction l with
  | nil => simp
  | cons a l ih =>
    simp only [List.flatMap_cons]
    exact (ih.append_left _).trans (List.flatMap_append_perm l' _ _)

theorem elements_matmulTiles (m k n : Nat) {f : MatmulFactors} (hf : f.Positive) :
    ((matmulTiles m k n f).flatMap (·.elements)).Perm (List.range (m * n)) := by
  have hrow (r : Nat) : (List.range n).map (fun c => r * n + c) =
      (runs n f.inFlight).flatMap fun columns => columns.map fun c => r * n + c := by
    rw [← flatten_runs n hf.inFlight, List.map_flatten, List.flatMap_def]
  rw [← flatMap_range_rows, ← flatten_runs m hf.leftRows, List.flatten_eq_flatMap,
    List.flatMap_assoc]
  simp only [matmulTiles, List.flatMap_assoc, List.flatMap_map, hrow, id]
  refine List.Perm.flatMap_left _ fun rows _ => ?_
  exact flatMap_flatMap_perm _ _ _

theorem matmulTiles_ne_nil {m k n : Nat} {f : MatmulFactors} (hf : f.Positive) (hm : 0 < m)
    (hn : 0 < n) :
    matmulTiles m k n f ≠ [] := by
  obtain ⟨rows, hrows⟩ := List.exists_mem_of_ne_nil _ (runs_ne_nil hm hf.leftRows)
  obtain ⟨columns, hcolumns⟩ := List.exists_mem_of_ne_nil _ (runs_ne_nil hn hf.inFlight)
  exact List.ne_nil_of_mem (List.mem_flatMap.2 ⟨rows, hrows, List.mem_map_of_mem hcolumns⟩)

/-- A tile takes a pass for each piece of the reduction and of its columns, and
there is one of both. -/
theorem cycles_pos_matmulTiles {m k n : Nat} {f : MatmulFactors} (hf : f.Positive) (hk : 0 < k)
    {tile : Tile} (h : tile ∈ matmulTiles m k n f) : 0 < tile.cycles := by
  obtain ⟨rows, -, htile⟩ := List.mem_flatMap.1 h
  obtain ⟨columns, -, rfl⟩ := List.mem_map.1 htile
  have hleft := hf.leftColumns
  have hflight := hf.inFlight
  exact Nat.mul_pos (Nat.div_pos (by omega) hleft) (Nat.div_pos (by omega) hf.outColumns)

theorem Shape.innermost_dvd_volume (s : Shape) : s.innermost ∣ s.volume := by
  induction s with
  | nil => exact Nat.dvd_refl 1
  | cons d ds ih =>
    cases ds with
    | nil => exact Nat.dvd_mul_right d 1
    | cons e ds =>
      have hlast : innermost (d :: e :: ds) = innermost (e :: ds) := by
        simp [innermost, List.getLast?_cons_cons]
      rw [hlast]
      exact Dvd.dvd.mul_left ih d

/-! ## Plans -/

/-- What a machine needs of a plan: something to do at every cycle, and each
output index in one tile. -/
structure OperatorPlan.Covers (plan : OperatorPlan) (volume : Nat) : Prop where
  fetch_pos : 0 < plan.fetchCycles
  tiles_ne_nil : plan.tiles ≠ []
  cycles_pos : ∀ tile ∈ plan.tiles, 0 < tile.cycles
  elements : (plan.tiles.flatMap (·.elements)).Perm (List.range volume)

namespace Graph

variable {g : Graph} {i : OperatorId}

/-- The tiles of a scheduled operator. -/
theorem tiles?_ok (hg : g.WellFormed) (ha : g.Arranged) (hi : i < g.operators.size)
    {tiles : List Tile} (h : g.tiles? (g.operator i) = some tiles) :
    tiles ≠ [] ∧ (∀ tile ∈ tiles, 0 < tile.cycles) ∧
      (tiles.flatMap (·.elements)).Perm (List.range (g.tensor (g.operator i).output).volume) := by
  have hparallel := ha.parallel i hi
  have hshaped := hg.shaped i hi
  have hout := hg.positive _ (hg.output_lt i hi)
  simp only [tiles?] at h
  cases hop : (g.operator i).operation with
  | matmul o =>
    rw [hop] at h hparallel hshaped
    have houtput : (g.operator i).output = o.output := by rw [Operator.output, hop]; rfl
    have hleft := hg.positive o.left
      (hg.tensors_lt hi (by simp [hop, Operation.tensors, Operation.inputs]))
    obtain ⟨f, hf, hpos⟩ := hparallel
    obtain ⟨m, k, n, hl, -, -, ho⟩ := hshaped
    simp only at hl ho
    rw [houtput] at h hout ⊢
    rw [ho] at hout
    rw [hl] at hleft
    simp only [hf, Option.map_some, ho, hl, Option.some.injEq, List.getD_cons_zero,
      List.getD_cons_succ] at h
    subst h
    have hm : 0 < m := hout m (by simp)
    have hn : 0 < n := hout n (by simp)
    have hk : 0 < k := hleft k (by simp)
    have hvolume : (g.tensor o.output).volume = m * n := by simp [Tensor.volume, ho, Shape.volume]
    exact ⟨matmulTiles_ne_nil hpos hm hn, fun tile htile => cycles_pos_matmulTiles hpos hk htile,
      hvolume ▸ elements_matmulTiles m k n hpos⟩
  | add o | normalize o | activate o =>
    rw [hop] at h hparallel
    obtain ⟨lanes, hlanes, hpos⟩ := hparallel
    simp only [hlanes, Option.map_some, Option.some.injEq] at h
    subst h
    generalize g.tensor (g.operator i).output = out at hout ⊢
    have hinner := hout.innermost_pos
    have hvolume : out.volume / out.innermost * out.innermost = out.volume :=
      Nat.div_mul_cancel (Shape.innermost_dvd_volume _)
    have hrows : 0 < out.volume / out.innermost :=
      Nat.div_pos (Nat.le_of_dvd hout.volume_pos (Shape.innermost_dvd_volume _)) hinner
    refine ⟨laneTiles_ne_nil hrows hinner hpos, fun tile htile => cycles_pos_laneTiles htile, ?_⟩
    rw [elements_laneTiles _ _ hpos, hvolume]

/-- A scheduled operator has its tiles. -/
theorem isSome_tiles? (g : Graph) {op : Operator} (h : op.operation.Parallel) :
    (g.tiles? op).isSome := by
  unfold tiles?
  cases hop : op.operation with
  | matmul o =>
    rw [hop] at h
    obtain ⟨f, hf, -⟩ := h
    simp [hf]
  | add o | normalize o | activate o =>
    rw [hop] at h
    obtain ⟨lanes, hlanes, -⟩ := h
    simp [hlanes]

/-- **The plan of a scheduled operator covers its output.** -/
theorem planOperator_ok (hg : g.WellFormed) (ha : g.Arranged) (hi : i < g.operators.size)
    {busWidth latency : Nat} {block : String} {plan : OperatorPlan}
    (h : g.planOperator busWidth latency (g.operator i) block = .ok plan) :
    plan.operator = i ∧ plan.Covers (g.tensor (g.operator i).output).volume := by
  unfold planOperator at h
  split at h
  · rename_i tiles htiles
    obtain rfl := Except.ok.inj h
    obtain ⟨hne, hcycles, helements⟩ := tiles?_ok hg ha hi htiles
    refine ⟨hg.operator_id i hi, ?_, hne, hcycles, helements⟩
    simp only [fetchCycles]
    omega
  · cases h

end Graph

end QuantAccel
