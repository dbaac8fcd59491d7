import QuantAccel.Proofs.Allocation
import QuantAccel.Proofs.Layouts

/-!
# Offsets in closed form

Allocation keeps a running offset and rounds it up after every entity. The
offset is a chunk multiple throughout, and a chunk multiple can be taken out of
a rounding, so an offset is a sum: the start and the sizes before it, each
rounded up by itself (`offsetAt`). Entities fit exactly if these sums do, a list
can be cut anywhere, and where entities do not fit it is the first sum beyond
the bound that says so.
-/

namespace QuantAccel

/-- A multiple can be taken out of a rounding. -/
theorem roundUp_add_of_dvd {unit a : Nat} (hu : 0 < unit) (h : unit ∣ a) (b : Nat) :
    roundUp (a + b) unit = a + roundUp b unit := by
  obtain ⟨k, rfl⟩ := h
  have hsum : unit * k + b + unit - 1 = b + unit - 1 + unit * k := by omega
  unfold roundUp
  rw [hsum, Nat.add_mul_div_left _ _ hu, Nat.add_mul, Nat.mul_comm k unit, Nat.add_comm]

/-- Below a multiple, a number can be rounded up or not. -/
theorem roundUp_le_iff {unit n m : Nat} (hu : 0 < unit) (h : unit ∣ m) :
    roundUp n unit ≤ m ↔ n ≤ m :=
  ⟨(le_roundUp n hu).trans, fun hle => (isLeast_roundUp hu n).2 ⟨h, hle⟩⟩

/-- Bytes that entities take up in memory, each rounded up to a chunk. -/
def chunkedSize (chunkSize : Nat) (items : List (String × Nat)) : Nat :=
  (items.map fun item => roundUp item.2 chunkSize).sum

/-- The offset after `i` entities: the start and their sizes, each rounded up to
a chunk. -/
def offsetAt (chunkSize start : Nat) (items : List (String × Nat)) (i : Nat) : Nat :=
  roundUp start chunkSize + chunkedSize chunkSize (items.take i)

/-- The offsets at which entities begin, from a chunk multiple on. -/
def offsetsFrom (chunkSize base : Nat) (items : List (String × Nat)) : List Nat :=
  (List.range items.length).map fun i => base + chunkedSize chunkSize (items.take i)

section ChunkedSize

variable {chunkSize base start : Nat} {item : String × Nat} {items items' : List (String × Nat)}

@[simp] theorem chunkedSize_nil : chunkedSize chunkSize [] = 0 := rfl

@[simp] theorem chunkedSize_cons :
    chunkedSize chunkSize (item :: items) =
      roundUp item.2 chunkSize + chunkedSize chunkSize items := rfl

@[simp] theorem chunkedSize_append :
    chunkedSize chunkSize (items ++ items') =
      chunkedSize chunkSize items + chunkedSize chunkSize items' := by
  simp [chunkedSize]

theorem dvd_chunkedSize : chunkSize ∣ chunkedSize chunkSize items := by
  induction items with
  | nil => exact Nat.dvd_zero _
  | cons item items ih => exact Nat.dvd_add (dvd_roundUp _) ih

theorem chunkedSize_take_le (chunkSize : Nat) (items : List (String × Nat)) (i : Nat) :
    chunkedSize chunkSize (items.take i) ≤ chunkedSize chunkSize items := by
  conv_rhs => rw [← List.take_append_drop i items]
  rw [chunkedSize_append]
  omega

theorem offsetsFrom_cons : offsetsFrom chunkSize base (item :: items) =
    base :: offsetsFrom chunkSize (base + roundUp item.2 chunkSize) items := by
  simp [offsetsFrom, List.range_succ_eq_map, Function.comp_def, Nat.add_assoc]

theorem dvd_offsetAt (i : Nat) : chunkSize ∣ offsetAt chunkSize start items i :=
  Nat.dvd_add (dvd_roundUp start) dvd_chunkedSize

/-- Offsets only grow, up to the last. -/
theorem offsetAt_le_last (chunkSize start : Nat) (items : List (String × Nat)) (i : Nat) :
    offsetAt chunkSize start items i ≤ offsetAt chunkSize start items items.length := by
  rw [offsetAt, offsetAt, List.take_length]
  exact Nat.add_le_add_left (chunkedSize_take_le _ _ _) _

/-- An entity takes the offset from where it begins to where it ends, rounded
up. -/
theorem offsetAt_succ (hchunk : 0 < chunkSize) {i : Nat} (hitem : items[i]? = some item) :
    offsetAt chunkSize start items (i + 1) =
      roundUp (offsetAt chunkSize start items i + item.2) chunkSize := by
  rw [roundUp_add_of_dvd hchunk (dvd_offsetAt i), offsetAt, offsetAt, List.take_add_one, hitem,
    chunkedSize_append, Nat.add_assoc]
  rfl

/-- Rounding adds less than a chunk to the start and to every size. -/
theorem offsetAt_le (hchunk : 0 < chunkSize) : offsetAt chunkSize start items items.length ≤
    start + (items.map fun item => item.2 + chunkSize).sum + chunkSize := by
  have hsizes : chunkedSize chunkSize items ≤ (items.map fun item => item.2 + chunkSize).sum :=
    List.sum_le_sum fun item _ => (roundUp_lt item.2 hchunk).le
  have hstart := roundUp_lt start hchunk
  rw [offsetAt, List.take_length]
  omega

end ChunkedSize

/-! ## The walk -/

section Allocate

variable {chunkSize bound start running : Nat} {items : List (String × Nat)}

/-- **One step of the walk**, from a chunk multiple and with addresses to
spare. -/
theorem allocateFrom_cons (bound : Nat) {item : String × Nat} (items : List (String × Nat))
    (hchunk : 0 < chunkSize) (hdvd : chunkSize ∣ running)
    (hspace : running + roundUp item.2 chunkSize < addressSpace) :
    allocateFrom chunkSize bound (item :: items) running =
      if running + roundUp item.2 chunkSize ≤ bound then do
        let (addresses, last) ← allocateFrom chunkSize bound items
            (running + roundUp item.2 chunkSize)
        return (running :: addresses, last)
      else .error (.addressOverflow item.1 (running + item.2) bound) := by
  have hle := le_roundUp item.2 hchunk
  have hstop : running + item.2 < addressSpace := by omega
  have hmin : min (running + item.2) (addressSpace - 1) = running + item.2 := by omega
  simp only [allocateFrom, roundUp_add_of_dvd hchunk hdvd, hstop, true_and, hmin]
  rfl

/-- **Entities that fit are placed at their offsets.** -/
theorem allocateFrom_of_fits (hchunk : 0 < chunkSize) (hdvd : chunkSize ∣ running)
    (hspace : running + chunkedSize chunkSize items < addressSpace)
    (hfits : items ≠ [] → running + chunkedSize chunkSize items ≤ bound) :
    allocateFrom chunkSize bound items running =
      .ok (offsetsFrom chunkSize running items, running + chunkedSize chunkSize items) := by
  induction items generalizing running with
  | nil => rfl
  | cons item items ih =>
    rw [chunkedSize_cons, ← Nat.add_assoc] at hspace hfits ⊢
    have hbound := hfits (List.cons_ne_nil _ _)
    rw [allocateFrom_cons bound items hchunk hdvd (by omega), if_pos (by omega),
      ih (Nat.dvd_add hdvd (dvd_roundUp _)) hspace fun _ => hbound, offsetsFrom_cons]
    rfl

/-- **The walk stops at the first entity that does not fit**, and names it. -/
theorem allocateFrom_of_exceeds (hchunk : 0 < chunkSize) (hdvd : chunkSize ∣ running)
    (hspace : running + chunkedSize chunkSize items < addressSpace) (hne : items ≠ [])
    (hexceeds : bound < running + chunkedSize chunkSize items) :
    ∃ before item after, items = before ++ item :: after ∧
      (before ≠ [] → running + chunkedSize chunkSize before ≤ bound) ∧
      bound < running + chunkedSize chunkSize (before ++ [item]) ∧
      allocateFrom chunkSize bound items running =
        .error (.addressOverflow item.1
          (running + chunkedSize chunkSize before + item.2) bound) := by
  induction items generalizing running with
  | nil => exact absurd rfl hne
  | cons item items ih =>
    rw [chunkedSize_cons, ← Nat.add_assoc] at hspace hexceeds
    have hfirst : running + roundUp item.2 chunkSize < addressSpace := by omega
    have hstep := allocateFrom_cons bound items hchunk hdvd hfirst
    by_cases hfits : running + roundUp item.2 chunkSize ≤ bound
    · rw [if_pos hfits] at hstep
      have hrest : items ≠ [] := by
        rintro rfl
        simp at hexceeds
        omega
      obtain ⟨before, item', after, rfl, hbefore, hover, heq⟩ :=
        ih (Nat.dvd_add hdvd (dvd_roundUp _)) hspace hrest hexceeds
      refine ⟨item :: before, item', after, rfl, fun _ => ?_, ?_, ?_⟩
      · by_cases hnil : before = []
        · subst hnil
          simpa using hfits
        · simpa [Nat.add_assoc] using hbefore hnil
      · simpa [Nat.add_assoc] using hover
      · rw [hstep, heq, chunkedSize_cons, ← Nat.add_assoc]
        rfl
    · rw [if_neg hfits] at hstep
      refine ⟨[], item, items, rfl, fun h => absurd rfl h, ?_, ?_⟩
      · simpa using hfits
      · simpa using hstep

/-- A list of entities is walked part by part. -/
theorem allocateFrom_append (items items' : List (String × Nat)) (running : Nat) :
    allocateFrom chunkSize bound (items ++ items') running = do
      let (addresses, middle) ← allocateFrom chunkSize bound items running
      let (addresses', last) ← allocateFrom chunkSize bound items' middle
      return (addresses ++ addresses', last) := by
  induction items generalizing running with
  | nil => simp [allocateFrom, ok_bind]
  | cons item items ih =>
    obtain ⟨name, size⟩ := item
    simp only [List.cons_append, allocateFrom, ih]
    split
    · simp only [bind_assoc, pure_bind, List.cons_append]
    · rfl

theorem allocate_eq (hchunk : 0 < chunkSize) :
    allocate items start chunkSize bound = allocateFrom chunkSize bound items
      (roundUp start chunkSize) :=
  if_neg hchunk.ne'

/-- The last offset decides. -/
theorem forall_offsetAt_le_iff :
    (∀ i < items.length, offsetAt chunkSize start items (i + 1) ≤ bound) ↔
      (items ≠ [] → offsetAt chunkSize start items items.length ≤ bound) := by
  constructor
  · intro h hne
    have hpos := List.length_pos_iff.2 hne
    have hlast := h (items.length - 1) (by omega)
    rwa [Nat.sub_add_cancel hpos] at hlast
  · intro h i hi
    exact (offsetAt_le_last _ _ _ _).trans (h (List.ne_nil_of_length_pos (by omega)))

/-- Entities that fit are placed, each at its offset. -/
theorem allocate_of_fits (hchunk : 0 < chunkSize)
    (hspace : offsetAt chunkSize start items items.length < addressSpace)
    (hfits : items ≠ [] → offsetAt chunkSize start items items.length ≤ bound) :
    allocate items start chunkSize bound =
      .ok ((List.range items.length).map (offsetAt chunkSize start items),
      offsetAt chunkSize start items items.length) := by
  simp only [offsetAt, List.take_length] at hspace hfits
  rw [allocate_eq hchunk, allocateFrom_of_fits hchunk (dvd_roundUp _) hspace hfits]
  simp only [offsetsFrom, offsetAt, List.take_length]
  rfl

/-- Entities that do not fit are refused at the first that does not, with where
it would have ended. -/
theorem allocate_of_exceeds (hchunk : 0 < chunkSize)
    (hspace : offsetAt chunkSize start items items.length < addressSpace) (hne : items ≠ [])
    (hexceeds : bound < offsetAt chunkSize start items items.length) :
    ∃ i item, items[i]? = some item ∧
      IsLeast {j | j < items.length ∧ bound < offsetAt chunkSize start items (j + 1)} i ∧
      allocate items start chunkSize bound =
        .error (.addressOverflow item.1 (offsetAt chunkSize start items i + item.2) bound) := by
  simp only [offsetAt, List.take_length] at hspace hexceeds
  obtain ⟨before, item, after, rfl, hbefore, hover, hrun⟩ :=
    allocateFrom_of_exceeds hchunk (dvd_roundUp start) hspace hne hexceeds
  have hsplit : before ++ item :: after = before ++ [item] ++ after := by simp
  refine ⟨before.length, item, by simp, ⟨⟨by simp, ?_⟩, ?_⟩, ?_⟩
  · rw [offsetAt, hsplit, List.take_left' (by simp)]
    exact hover
  · rintro j ⟨-, hj⟩
    -- before the entity all offsets stay within the bound
    by_contra hlt
    rw [not_le] at hlt
    have hle := hbefore (List.ne_nil_of_length_pos (by omega))
    have htake := chunkedSize_take_le chunkSize before (j + 1)
    rw [offsetAt, List.take_append_of_le_length (by omega)] at hj
    omega
  · rw [offsetAt, List.take_left' rfl, allocate_eq hchunk, hrun]

/-- **When allocation succeeds, and with what.** -/
theorem allocate_ok_iff (hchunk : 0 < chunkSize)
    (hspace : offsetAt chunkSize start items items.length < addressSpace) {addresses : List Nat}
    {stop : Nat} :
    allocate items start chunkSize bound = .ok (addresses, stop) ↔
      (items ≠ [] → offsetAt chunkSize start items items.length ≤ bound) ∧
      addresses = (List.range items.length).map (offsetAt chunkSize start items) ∧
      stop = offsetAt chunkSize start items items.length := by
  constructor
  · intro hok
    by_cases hfits : items ≠ [] → offsetAt chunkSize start items items.length ≤ bound
    · rw [allocate_of_fits hchunk hspace hfits] at hok
      obtain ⟨rfl, rfl⟩ := Prod.mk.inj (Except.ok.inj hok)
      exact ⟨hfits, rfl, rfl⟩
    · simp only [Classical.not_imp, not_le] at hfits
      obtain ⟨i, item, -, -, herror⟩ := allocate_of_exceeds hchunk hspace hfits.1 hfits.2
      rw [herror] at hok
      cases hok
  · rintro ⟨hfits, rfl, rfl⟩
    exact allocate_of_fits hchunk hspace hfits

/-- **When allocation fails, and with what.** -/
theorem allocate_error (hchunk : 0 < chunkSize)
    (hspace : offsetAt chunkSize start items items.length < addressSpace) {e : CompileError}
    (h : allocate items start chunkSize bound = .error e) :
    ∃ i item, items[i]? = some item ∧
      IsLeast {j | j < items.length ∧ bound < offsetAt chunkSize start items (j + 1)} i ∧
      e = .addressOverflow item.1 (offsetAt chunkSize start items i + item.2) bound := by
  by_cases hfits : items ≠ [] → offsetAt chunkSize start items items.length ≤ bound
  · rw [allocate_of_fits hchunk hspace hfits] at h
    cases h
  · simp only [Classical.not_imp, not_le] at hfits
    obtain ⟨i, item, hitem, hleast, herror⟩ := allocate_of_exceeds hchunk hspace hfits.1 hfits.2
    exact ⟨i, item, hitem, hleast, Except.error.inj (h.symm.trans herror)⟩

/-- A list of entities is placed part by part, the second where the first
ends. -/
theorem allocate_append (hchunk : 0 < chunkSize) (items items' : List (String × Nat)) :
    allocate (items ++ items') start chunkSize bound = do
      let (addresses, middle) ← allocate items start chunkSize bound
      let (addresses', stop) ← allocate items' middle chunkSize bound
      return (addresses ++ addresses', stop) := by
  rw [allocate_eq hchunk, allocate_eq hchunk, allocateFrom_append]
  cases hfirst : allocateFrom chunkSize bound items (roundUp start chunkSize) with
  | error e => rfl
  | ok r =>
    -- the first part ends on a chunk multiple, where the second begins
    have hdvd : chunkSize ∣ r.2 := (allocateFrom_ok hfirst).2.1.dvd_stop (dvd_roundUp start)
    simp only [ok_bind, allocate_eq hchunk, roundUp_of_dvd hchunk hdvd]

end Allocate

theorem Extent.disjoint_bytes {s s' : Extent} (h : s.stop ≤ s'.base) : Disjoint s.bytes s'.bytes :=
  Set.disjoint_left.2 fun _ hs hs' => absurd (hs.2.trans_le h) (not_lt.2 hs'.1)

/-- **Allocation in closed form.** As long as offsets are addresses, entities
are placed exactly if the offset after each of them is within the bound. Each
begins at the sum of the start and of the sizes before it, rounded up one by
one, so all of them begin on chunk multiples and none overlaps another. A list
can be placed in two parts, the second from where the first ends. Where entities
do not fit, the first whose rounded end is beyond the bound is named. -/
theorem allocate_closed_form {items : List (String × Nat)} {start chunkSize : Nat} (bound : Nat)
    (hchunk : 0 < chunkSize)
    (hspace : start + (items.map fun item => item.2 + chunkSize).sum + chunkSize < addressSpace) :
    (∀ x, IsLeast {n | chunkSize ∣ n ∧ x ≤ n} (roundUp x chunkSize)) ∧
    ((∃ addresses stop, allocate items start chunkSize bound = .ok (addresses, stop)) ↔
      ∀ i < items.length, offsetAt chunkSize start items (i + 1) ≤ bound) ∧
    (∀ addresses stop, allocate items start chunkSize bound = .ok (addresses, stop) →
      addresses = (List.range items.length).map (offsetAt chunkSize start items) ∧
      stop = offsetAt chunkSize start items items.length ∧
      (∀ address ∈ addresses, chunkSize ∣ address) ∧
      (extentsOf addresses items).Pairwise fun s s' => Disjoint s.bytes s'.bytes) ∧
    (∀ first second, items = first ++ second → allocate items start chunkSize bound = do
      let (addresses, middle) ← allocate first start chunkSize bound
      let (addresses', stop) ← allocate second middle chunkSize bound
      return (addresses ++ addresses', stop)) ∧
    ∀ e, allocate items start chunkSize bound = .error e → ∃ i item stop, items[i]? = some item ∧
      IsLeast {j | j < items.length ∧ bound < offsetAt chunkSize start items (j + 1)} i ∧
      e = .addressOverflow item.1 stop bound := by
  have hspace := (offsetAt_le hchunk).trans_lt hspace
  refine ⟨isLeast_roundUp hchunk, ⟨?_, fun hfits => ?_⟩, fun addresses stop hok => ?_, ?_,
    fun e herror => ?_⟩
  · rintro ⟨addresses, stop, hok⟩
    exact forall_offsetAt_le_iff.2 ((allocate_ok_iff hchunk hspace).1 hok).1
  · exact ⟨_, _, allocate_of_fits hchunk hspace (forall_offsetAt_le_iff.1 hfits)⟩
  · obtain ⟨-, hclosed⟩ := (allocate_ok_iff hchunk hspace).1 hok
    rw [allocate_eq hchunk] at hok
    obtain ⟨-, hstack, -⟩ := allocateFrom_ok hok
    refine ⟨hclosed.1, hclosed.2, fun address haddress => ?_,
      (hstack.pairwise hchunk).imp Extent.disjoint_bytes⟩
    obtain ⟨i, -, rfl⟩ := List.mem_map.1 (hclosed.1 ▸ haddress)
    exact dvd_offsetAt i
  · rintro first second rfl
    exact allocate_append hchunk first second
  · obtain ⟨i, item, hitem, hleast, he⟩ := allocate_error hchunk hspace herror
    exact ⟨i, item, _, hitem, hleast, he⟩

/-- Entities of one chunk and a part, of no byte, and of a part of a chunk. -/
def raggedItems : List (String × Nat) := [("a", 100), ("b", 0), ("c", 50)]

/-- From offset ten, in chunks of 64 bytes, they end at 256: that bound is
enough, and one byte less is not. -/
theorem allocate_closed_form_ragged :
    10 + (raggedItems.map fun item => item.2 + 64).sum + 64 < addressSpace ∧
    allocate raggedItems 10 64 256 = .ok ([64, 192, 192], 256) ∧
    ∃ stop, allocate raggedItems 10 64 255 = .error (.addressOverflow "c" stop 255) := by
  have hspace : 10 + (raggedItems.map fun item => item.2 + 64).sum + 64 < addressSpace := by decide
  refine ⟨hspace, ?_, ?_⟩
  · obtain ⟨-, hiff, hclosed, -⟩ := allocate_closed_form 256 (by decide) hspace
    obtain ⟨addresses, stop, hok⟩ := hiff.2 (by decide)
    obtain ⟨rfl, rfl, -⟩ := hclosed addresses stop hok
    exact hok
  · obtain ⟨-, hiff, -, -, herror⟩ := allocate_closed_form 255 (by decide) hspace
    cases hrun : allocate raggedItems 10 64 255 with
    | ok r => exact absurd (hiff.1 ⟨r.1, r.2, hrun⟩) (by decide)
    | error e =>
      obtain ⟨i, item, stop, hitem, ⟨hmem, hleast⟩, rfl⟩ := herror e hrun
      obtain rfl : i = 2 := by
        have hle : i ≤ 2 := hleast ⟨by decide, by decide⟩
        obtain ⟨-, hover⟩ := hmem
        interval_cases i
        · exact absurd hover (by decide)
        · exact absurd hover (by decide)
        · rfl
      obtain rfl := Option.some.inj hitem
      exact ⟨stop, rfl⟩

end QuantAccel
