import QuantAccel.Proofs.Accumulator
import QuantAccel.Proofs.Solution

/-!
# Matrix products within the accumulator

An accumulator that saturates adds exactly as long as the absolute values of all
that is added fit it: these bound every partial sum, in whatever order the terms
come. A matrix product is then the product of its operands as matrices of
integers, requantized (`matmul_exact`). The left operand is stored row after row
and the right one in either order; what a kernel reads of a buffer is the matrix
that the buffer stores, so the order of storage does not matter, with or without
saturation.
-/

namespace QuantAccel

/-! ## Sums -/

namespace Accumulator

/-- A sum that cannot leave the word is exact. -/
theorem add_of_abs_le {x y : Int} (h : |x| + |y| ≤ greatest) : add x y = x + y :=
  saturate_of_abs_le ((abs_add_le x y).trans h)

/-- **A sum is exact** if the absolute values of its terms fit the
accumulator. -/
theorem foldl_add_of_abs_le {terms : List Int} {acc : Int}
    (h : |acc| + (terms.map fun x => |x|).sum ≤ greatest) :
    terms.foldl add acc = acc + terms.sum := by
  induction terms generalizing acc with
  | nil => simp
  | cons x terms ih =>
    rw [List.map_cons, List.sum_cons] at h
    have hrest : 0 ≤ (terms.map fun x => |x|).sum := by
      refine List.sum_nonneg fun y hy => ?_
      obtain ⟨z, -, rfl⟩ := List.mem_map.1 hy
      exact abs_nonneg z
    have hnext := abs_add_le acc x
    rw [List.foldl_cons, add_of_abs_le (by omega), ih (by omega), List.sum_cons, Int.add_assoc]

end Accumulator

/-! ## Matrices in buffers -/

section Storage

variable {rows columns : Nat}

/-- The matrix whose rows lie one after the other in a buffer. -/
def rowMajor (rows columns : Nat) (buffer : Array Int) : Matrix (Fin rows) (Fin columns) Int :=
  fun r c => buffer.getD (r * columns + c) 0

/-- The buffer in which the rows of a matrix lie one after the other. -/
def storeRows (A : Matrix (Fin rows) (Fin columns) Int) : Array Int :=
  Array.ofFn fun i : Fin (rows * columns) => A i.divNat i.modNat

theorem rowMajor_index_div (r : Fin rows) (c : Fin columns) : (r * columns + c) / columns = r := by
  rw [Nat.mul_comm, Nat.mul_add_div c.pos, Nat.div_eq_of_lt c.isLt, Nat.add_zero]

theorem rowMajor_index_mod (r : Fin rows) (c : Fin columns) : (r * columns + c) % columns = c := by
  rw [Nat.mul_comm, Nat.mul_add_mod, Nat.mod_eq_of_lt c.isLt]

@[simp] theorem rowMajor_storeRows (A : Matrix (Fin rows) (Fin columns) Int) :
    rowMajor rows columns (storeRows A) = A := by
  ext r c
  simp [rowMajor, storeRows, Array.getD_eq_getD_getElem?, Fin.divNat, Fin.modNat, rowMajor_index_lt,
    rowMajor_index_div, Nat.mod_eq_of_lt c.isLt]

end Storage

namespace MatmulDims

variable (d : MatmulDims)

/-- The left operand as a matrix. -/
def leftMatrix (left : Array Int) : Matrix (Fin d.m) (Fin d.k) Int :=
  rowMajor d.m d.k left

/-- The right operand as a matrix: stored as it is, or as its transpose. -/
def rightMatrix (right : Array Int) : Matrix (Fin d.k) (Fin d.n) Int :=
  if d.transposed then (rowMajor d.n d.k right).transpose else rowMajor d.k d.n right

/-- A right operand in the order of storage. -/
def storeRight (B : Matrix (Fin d.k) (Fin d.n) Int) : Array Int :=
  if d.transposed then storeRows B.transpose else storeRows B

/-- **What a kernel reads of a right operand** is its matrix. -/
theorem getD_rightIndex (right : Array Int) (i : Fin d.k) (c : Fin d.n) :
    right.getD (d.rightIndex i c) 0 = d.rightMatrix right i c := by
  rw [rightIndex, rightMatrix]
  split <;> rfl

@[simp] theorem rightMatrix_storeRight (B : Matrix (Fin d.k) (Fin d.n) Int) :
    d.rightMatrix (d.storeRight B) = B := by
  rw [rightMatrix, storeRight]
  split <;> simp

/-- Operands with as many elements as the size of the product asks for. -/
structure Sized (left right : Array Int) (bias : Option (Array Int)) : Prop where
  left : left.size = d.m * d.k
  right : right.size = d.k * d.n
  bias : ∀ b ∈ bias, b.size = d.n

end MatmulDims

namespace Kernel

variable {left right : Array Int} {bias : Option (Array Int)} {d : MatmulDims} {rescale : Rescale}

/-! ## Products -/

/-- The sum of products of a position, by the matrices of the operands. -/
theorem dotProduct_eq_foldl (left right : Array Int) (d : MatmulDims) (r : Fin d.m) (c : Fin d.n) :
    dotProduct left right d r c =
      ((List.finRange d.k).map fun i => d.leftMatrix left r i * d.rightMatrix right i c).foldl
        Accumulator.add 0 := by
  rw [dotProduct, List.foldl_map, ← List.map_coe_finRange_eq_range, List.foldl_map]
  congr 1
  funext acc i
  rw [d.getD_rightIndex]
  rfl

/-- **The sum of products is the product of matrices** where it fits the
accumulator. -/
theorem dotProduct_eq_mul {r : Fin d.m} {c : Fin d.n}
    (h : ∑ i, |d.leftMatrix left r i * d.rightMatrix right i c| ≤ Accumulator.greatest) :
    dotProduct left right d r c = (d.leftMatrix left * d.rightMatrix right) r c := by
  rw [Fin.sum_univ_def] at h
  rw [dotProduct_eq_foldl, Accumulator.foldl_add_of_abs_le, Int.zero_add, Matrix.mul_apply,
    Fin.sum_univ_def]
  simpa [List.map_map, Function.comp_def] using h

/-- What the bias of a column adds to an accumulator: nothing without a bias or
without its multiplier. -/
def biasTerm (bias : Option (Array Int)) (rescale : Rescale) (column : Nat) : Int :=
  match bias, rescale.bias with
  | some b, some mul => mul.apply (b.getD column 0)
  | _, _ => 0

/-- A bias is added exactly where the magnitudes are in the word. -/
theorem withBias_of_abs_le {acc : Int} {column : Nat}
    (h : |acc| + |biasTerm bias rescale column| ≤ Accumulator.greatest) :
    withBias acc (bias.map fun b => b.getD column 0) rescale =
      acc + biasTerm bias rescale column := by
  unfold withBias biasTerm at *
  cases bias with
  | none => exact (Int.add_zero acc).symm
  | some b =>
    cases hmul : rescale.bias with
    | none => exact (Int.add_zero acc).symm
    | some mul =>
      rw [hmul] at h
      exact Accumulator.add_of_abs_le h

/-- The accumulator of a position, without an end to its word. -/
def exactAccumulator (left right : Array Int) (bias : Option (Array Int)) (d : MatmulDims)
    (rescale : Rescale) (r : Fin d.m) (c : Fin d.n) : Int :=
  (d.leftMatrix left * d.rightMatrix right) r c + biasTerm bias rescale c

/-- The sum of the absolute values of all that is added to the accumulator of a
position. -/
def magnitude (left right : Array Int) (bias : Option (Array Int)) (d : MatmulDims)
    (rescale : Rescale) (r : Fin d.m) (c : Fin d.n) : Int :=
  ∑ i, |d.leftMatrix left r i * d.rightMatrix right i c| + |biasTerm bias rescale c|

/-- **A position whose accumulator fits is exact.** -/
theorem matmulElement_of_magnitude_le {r : Fin d.m} {c : Fin d.n}
    (h : magnitude left right bias d rescale r c ≤ Accumulator.greatest)
    (activation : Option Activation) (t : ElementType) :
    matmulElement left right bias d rescale activation t r c =
      finish (exactAccumulator left right bias d rescale r c) rescale activation t := by
  have hbias := abs_nonneg (biasTerm bias rescale c)
  have hsum := Finset.abs_sum_le_sum_abs
    (fun i => d.leftMatrix left r i * d.rightMatrix right i c) Finset.univ
  rw [← Matrix.mul_apply] at hsum
  rw [magnitude] at h
  rw [matmulElement, dotProduct_eq_mul (by omega), withBias_of_abs_le (by omega), exactAccumulator]

/-- What is at a position of the result. -/
theorem getElem?_matmul (left right : Array Int) (bias : Option (Array Int)) (d : MatmulDims)
    (rescale : Rescale) (activation : Option Activation) (t : ElementType) {size : Nat}
    (hroom : d.m * d.n ≤ size) (r : Fin d.m) (c : Fin d.n) :
    (matmul left right bias d rescale activation t size)[r * d.n + c]? =
      some (matmulElement left right bias d rescale activation t r c) := by
  have hlt := (rowMajor_index_lt r c).trans_le hroom
  have hrow : (r * d.n + c) / d.n = r := rowMajor_index_div r c
  have hcolumn : (r * d.n + c) % d.n = c := rowMajor_index_mod r c
  simp [matmul, hlt, hrow, hcolumn]

/-! ## The order of the reduction, and the order of storage -/

/-- The left operand with its columns permuted. -/
def permuteLeft (d : MatmulDims) (σ : Equiv.Perm (Fin d.k)) (left : Array Int) : Array Int :=
  storeRows ((d.leftMatrix left).submatrix id σ)

/-- The right operand with its rows permuted, in the order of storage that it
had. -/
def permuteRight (d : MatmulDims) (σ : Equiv.Perm (Fin d.k)) (right : Array Int) : Array Int :=
  d.storeRight ((d.rightMatrix right).submatrix σ id)

section Permuted

variable (σ : Equiv.Perm (Fin d.k)) (r : Fin d.m) (c : Fin d.n)

theorem leftMatrix_permuteLeft (left : Array Int) :
    d.leftMatrix (permuteLeft d σ left) = (d.leftMatrix left).submatrix id σ :=
  rowMajor_storeRows _

theorem rightMatrix_permuteRight (right : Array Int) :
    d.rightMatrix (permuteRight d σ right) = (d.rightMatrix right).submatrix σ id :=
  d.rightMatrix_storeRight _

/-- The exact accumulator does not depend on the order of its products. -/
theorem exactAccumulator_permute :
    exactAccumulator (permuteLeft d σ left) (permuteRight d σ right) bias d rescale r c =
      exactAccumulator left right bias d rescale r c := by
  rw [exactAccumulator, leftMatrix_permuteLeft, rightMatrix_permuteRight,
    Matrix.submatrix_mul_equiv, Matrix.submatrix_id_id, exactAccumulator]

/-- Nor does the sum of their magnitudes. -/
theorem magnitude_permute :
    magnitude (permuteLeft d σ left) (permuteRight d σ right) bias d rescale r c =
      magnitude left right bias d rescale r c := by
  simp only [magnitude, leftMatrix_permuteLeft, rightMatrix_permuteRight, Matrix.submatrix_apply,
    id]
  rw [Equiv.sum_comp σ fun i => |d.leftMatrix left r i * d.rightMatrix right i c|]

end Permuted

/-- **The order of storage does not matter**, saturation or not. -/
theorem matmulElement_transposed (left right : Array Int) (bias : Option (Array Int))
    (d : MatmulDims) (rescale : Rescale) (activation : Option Activation) (t : ElementType)
    (r : Fin d.m) (c : Fin d.n) :
    matmulElement left right bias { d with transposed := true } rescale activation t r c =
      matmulElement left (storeRows (rowMajor d.n d.k right).transpose) bias
        { d with transposed := false }
        rescale activation t r c := by
  have hstored : ({ d with transposed := false } : MatmulDims).rightMatrix
      (storeRows (rowMajor d.n d.k right).transpose) = (rowMajor d.n d.k right).transpose :=
    rowMajor_storeRows _
  have hdot : dotProduct left right { d with transposed := true } r c =
      dotProduct left (storeRows (rowMajor d.n d.k right).transpose)
        { d with transposed := false } r c := by
    rw [dotProduct_eq_foldl left right { d with transposed := true } r c,
      dotProduct_eq_foldl left _ { d with transposed := false } r c, hstored]
    rfl
  rw [matmulElement, matmulElement, hdot]

/-- **A matrix product is exact where its accumulator fits.** At a position
where the absolute values of the products and of the rescaled bias add up to no
more than the greatest accumulator, the result is the requantized sum of
integers, each element that it takes is there, and no common permutation of the
columns of the left operand and the rows of the right one changes it. A right
operand that is stored transposed and its transpose stored as it is give the
same result at every position, whether or not anything fits. -/
theorem matmul_exact (hsized : d.Sized left right bias) (rescale : Rescale)
    (activation : Option Activation) (t : ElementType) {size : Nat} (hroom : d.m * d.n ≤ size)
    (r : Fin d.m) (c : Fin d.n) :
    (magnitude left right bias d rescale r c ≤ Accumulator.greatest →
      let element := finish (exactAccumulator left right bias d rescale r c) rescale activation t
      matmulElement? left right bias d rescale activation t r c = some element ∧
      (matmul left right bias d rescale activation t size)[r * d.n + c]? = some element ∧
      ∀ σ : Equiv.Perm (Fin d.k),
        (matmul (permuteLeft d σ left)
          (permuteRight d σ right) bias d rescale activation t size)[r * d.n + c]? =
          some element) ∧
    (matmul left right bias { d with transposed := true } rescale activation t size)[r * d.n + c]? =
      (matmul left (storeRows (rowMajor d.n d.k right).transpose) bias
        { d with transposed := false } rescale activation t size)[r * d.n + c]? := by
  refine ⟨fun h => ?_, ?_⟩
  · intro element
    have hexact := matmulElement_of_magnitude_le h activation t
    refine ⟨?_, ?_, fun σ => ?_⟩
    · rw [matmulElement?_eq_some, hexact]
      · exact fun i hi => (rowMajor_index_lt r ⟨i, hi⟩).trans_eq hsized.left.symm
      · exact fun i hi => (d.rightIndex_lt ⟨i, hi⟩ c).trans_eq hsized.right.symm
      · exact fun b hb => c.isLt.trans_eq (hsized.bias b hb).symm
    · rw [getElem?_matmul _ _ _ _ _ _ _ hroom, hexact]
    · rw [getElem?_matmul _ _ _ _ _ _ _ hroom, matmulElement_of_magnitude_le,
        exactAccumulator_permute]
      rwa [magnitude_permute]
  · have htransposed :=
      getElem?_matmul left right bias { d with transposed := true } rescale activation t hroom r c
    have hplain := getElem?_matmul left (storeRows (rowMajor d.n d.k right).transpose) bias
      { d with transposed := false } rescale activation t hroom r c
    have hsame := matmulElement_transposed left right bias d rescale activation t r c
    exact htransposed.trans ((congrArg some hsame).trans hplain.symm)

/-- Two products of nearly half the greatest accumulator each, with opposite
signs, and a bias. -/
theorem matmul_exact_extremes :
    let d : MatmulDims := ⟨1, 2, 1, true⟩
    let left : Array Int := #[2 ^ 63 - 1, -2 ^ 63]
    let right : Array Int := #[2 ^ 63 - 1, 2 ^ 63 - 1]
    let bias : Option (Array Int) := some #[5]
    let rescale : Rescale := ⟨⟨1, 40⟩, some ⟨3, 1⟩, none⟩
    d.Sized left right bias ∧ magnitude left right bias d rescale 0 0 = 2 ^ 127 - 3 * 2 ^ 63 + 9 ∧
    exactAccumulator left right bias d rescale 0 0 = -2 ^ 63 + 9 ∧
    (matmul left right bias d rescale none .int32 1)[0]? =
      some (finish (exactAccumulator left right bias d rescale 0 0) rescale none .int32) ∧
    (matmul (permuteLeft d (Equiv.swap 0 1) left)
      (permuteRight d (Equiv.swap 0 1) right) bias d rescale none
        .int32 1)[0]? =
      some (finish (exactAccumulator left right bias d rescale 0 0) rescale none .int32) := by
  intro d left right bias rescale
  have hsized : d.Sized left right bias := ⟨rfl, rfl, by simp [bias, d]⟩
  have hmagnitude : magnitude left right bias d rescale 0 0 = 2 ^ 127 - 3 * 2 ^ 63 + 9 := by decide
  have hfits : magnitude left right bias d rescale 0 0 ≤ Accumulator.greatest := by
    rw [hmagnitude]
    decide
  have hroom : d.m * d.n ≤ 1 := le_rfl
  obtain ⟨hexact, -⟩ := matmul_exact hsized rescale none .int32 hroom 0 0
  obtain ⟨-, hresult, hpermuted⟩ := hexact hfits
  exact ⟨hsized, hmagnitude, by decide, hresult, hpermuted (Equiv.swap 0 1)⟩

/-- One product more, and the order decides: the accumulator stays at its end
before the last product takes some off again. -/
example :
    let d : MatmulDims := ⟨1, 3, 1, false⟩
    let rescale : Rescale := ⟨⟨1, 96⟩, none, none⟩
    matmul #[-2 ^ 63, -2 ^ 63, -2 ^ 63] #[-2 ^ 63, -2 ^ 63, 2 ^ 63 - 2 ^ 32] none d rescale
      none .int32 1 =
      #[2 ^ 30] ∧
    matmul #[-2 ^ 63, -2 ^ 63, -2 ^ 63] #[-2 ^ 63, 2 ^ 63 - 2 ^ 32, -2 ^ 63] none d rescale
      none .int32 1 =
      #[2 ^ 30 + 1] := by
  decide

end Kernel

end QuantAccel
