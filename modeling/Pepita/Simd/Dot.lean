import Mathlib.Algebra.BigOperators.Fin
import Pepita.Simd.Ops

set_option autoImplicit false

/-! # The dot product

`SimdOps::dot_f32` of `simd.rs`. The AVX2 kernel keeps eight partial sums, one per lane, adds them
up by three lane shuffles, and then adds the remainder one by one. It brackets and orders the sum
differently from the scalar form, so the two are compared in exact arithmetic: over a commutative
ring they agree for every length (`dotF32_eq_sum`).

The intrinsics are given their documented meaning on the lanes of a register; a load that leaves its
slice is a panic.
-/

namespace Pepita.Simd

/-! ## Registers -/

section Registers

variable {α : Type}

/-- `_mm256_loadu_ps`, from an offset in a slice; `none` when it leaves the slice. -/
def mm256LoaduPs (a : List α) (offset : Nat) : Option (Fin 8 → α) :=
  if h : offset + 8 ≤ a.length then some fun l => a.get ⟨offset + l, by omega⟩ else none

/-- `_mm256_setzero_ps`. -/
def mm256SetzeroPs [Zero α] : Fin 8 → α := fun _ => 0

/-- `_mm256_mul_ps`. -/
def mm256MulPs [Mul α] (x y : Fin 8 → α) : Fin 8 → α := fun l => x l * y l

/-- `_mm256_add_ps`. -/
def mm256AddPs [Add α] (x y : Fin 8 → α) : Fin 8 → α := fun l => x l + y l

/-- `_mm256_castps256_ps128`, the lower half. -/
def mm256Castps256Ps128 (x : Fin 8 → α) : Fin 4 → α := ![x 0, x 1, x 2, x 3]

/-- `_mm256_extractf128_ps`, the half that the lowest bit of `imm` selects. -/
def mm256Extractf128Ps (x : Fin 8 → α) (imm : Nat) : Fin 4 → α :=
  if imm % 2 = 0 then ![x 0, x 1, x 2, x 3] else ![x 4, x 5, x 6, x 7]

/-- `_mm_add_ps`. -/
def mmAddPs [Add α] (x y : Fin 4 → α) : Fin 4 → α := fun l => x l + y l

/-- `_mm_movehl_ps`: the upper two lanes of `y`, then those of `x`. -/
def mmMovehlPs (x y : Fin 4 → α) : Fin 4 → α := ![y 2, y 3, x 2, x 3]

/-- `_mm_shuffle_ps`: two lanes of `x` and two of `y`, each selected by two bits of `imm`. -/
def mmShufflePs (x y : Fin 4 → α) (imm : Nat) : Fin 4 → α :=
  ![x (Fin.ofNat 4 imm), x (Fin.ofNat 4 (imm / 4)), y (Fin.ofNat 4 (imm / 16)),
    y (Fin.ofNat 4 (imm / 64))]

/-- `_mm_add_ss`: the lowest lanes are added, the others are those of `x`. -/
def mmAddSs [Add α] (x y : Fin 4 → α) : Fin 4 → α := ![x 0 + y 0, x 1, x 2, x 3]

/-- `_mm_cvtss_f32`, the lowest lane. -/
def mmCvtssF32 (x : Fin 4 → α) : α := x 0

end Registers

/-! ## The kernels -/

section Kernels

variable {F32 : Type} [Add F32] [Mul F32] [Zero F32]

/-- `dot_f32_scalar`. -/
def dotF32Scalar (a b : List F32) : F32 := (List.zipWith (· * ·) a b).foldl (· + ·) 0

/-- A pass of the first loop of `dot_f32_avx2`: eight products are added to the partial sums. -/
def dotChunk (a b : List F32) (i : Nat) (sum : Fin 8 → F32) : Outcome Empty (Fin 8 → F32) := do
  let offset := i * 8
  let va ← .orPanic (mm256LoaduPs a offset)
  let vb ← .orPanic (mm256LoaduPs b offset)
  let prod := mm256MulPs va vb
  .ok (mm256AddPs sum prod)

/-- The horizontal sum of `dot_f32_avx2`. -/
def horizontalSum (sum : Fin 8 → F32) : F32 :=
  let sum128 := mmAddPs (mm256Castps256Ps128 sum) (mm256Extractf128Ps sum 1)
  let sum64 := mmAddPs sum128 (mmMovehlPs sum128 sum128)
  let sum32 := mmAddSs sum64 (mmShufflePs sum64 sum64 1)
  mmCvtssF32 sum32

/-- A pass of the remainder loop, `result += a[i] * b[i]`. -/
def dotRest (a b : List F32) (i : Nat) (result : F32) : Outcome Empty F32 := do
  let x ← .orPanic a[i]?
  let y ← .orPanic b[i]?
  .ok (result + x * y)

/-- `dot_f32_avx2`. -/
def dotF32Avx2 (a b : List F32) : Outcome Empty F32 := do
  let chunks := a.length / 8
  let sum ← forEach (List.range' 0 chunks) (dotChunk a b) mm256SetzeroPs
  let result := horizontalSum sum
  let start := chunks * 8
  forEach (List.range' start (a.length - start)) (dotRest a b) result

/-- `dot_f32`. -/
def SimdOps.dotF32 (arch : Arch) (s : SimdOps) (a b : List F32) : Outcome Empty F32 :=
  if a.length ≠ b.length then .panic
  else
    match arch with
    | .x86_64 =>
        if s.caps.avx2 ∧ a.length ≥ 8 then dotF32Avx2 a b
        else .ok (dotF32Scalar a b)
    | .aarch64 => .ok (dotF32Scalar a b)
    | .other => .ok (dotF32Scalar a b)

end Kernels

/-! ## The partial sums -/

section Sums

variable {R : Type} [CommRing R] {a b : List R}

/-- The sum of the first `i` products. -/
def partialDot (a b : List R) (i : Nat) : R := ((List.zipWith (· * ·) a b).take i).sum

/-- The shuffles add every lane once. -/
theorem horizontalSum_eq (sum : Fin 8 → R) : horizontalSum sum = ∑ l, sum l := by
  rw [Fin.sum_univ_eight]
  change sum 0 + sum 4 + (sum 2 + sum 6) + (sum 1 + sum 5 + (sum 3 + sum 7)) = _
  ring

theorem partialDot_succ {i : Nat} {x y : R} (hx : a[i]? = some x) (hy : b[i]? = some y) :
    partialDot a b (i + 1) = partialDot a b i + x * y := by
  have hget : (List.zipWith (· * ·) a b)[i]? = some (x * y) := by
    rw [List.getElem?_zipWith, hx, hy]
  rw [partialDot, List.take_add_one, hget, List.sum_append]
  simp [partialDot]

/-- A vector of products, wherever it starts. -/
theorem partialDot_add (offset n : Nat) : ∀ x y : Fin n → R,
    (∀ l : Fin n, a[offset + l]? = some (x l)) → (∀ l : Fin n, b[offset + l]? = some (y l)) →
    partialDot a b (offset + n) = partialDot a b offset + ∑ l, x l * y l := by
  induction n with
  | zero => intro x y _ _; simp
  | succ n ih =>
      intro x y hx hy
      have hlast := partialDot_succ (hx (Fin.last n)) (hy (Fin.last n))
      have hfront := ih (fun l => x l.castSucc) (fun l => y l.castSucc)
        (fun l => hx l.castSucc) fun l => hy l.castSucc
      rw [← Nat.add_assoc, Fin.sum_univ_castSucc, ← add_assoc, ← hfront]
      exact hlast

omit [CommRing R] in
theorem mm256LoaduPs_of_le {offset : Nat} (h : offset + 8 ≤ a.length) :
    ∃ x, mm256LoaduPs a offset = some x ∧ ∀ l : Fin 8, a[offset + l]? = some (x l) := by
  refine ⟨_, dif_pos h, fun l => ?_⟩
  exact List.getElem?_eq_getElem _

/-- After `i` passes the eight partial sums together are the sum of the first `8 * i` products. -/
theorem dotChunk_eq (hab : a.length = b.length) {i : Nat} (hi : (i + 1) * 8 ≤ a.length)
    {sum : Fin 8 → R} (h : ∑ l, sum l = partialDot a b (i * 8)) :
    ∃ sum', dotChunk a b i sum = .ok sum' ∧ ∑ l, sum' l = partialDot a b ((i + 1) * 8) := by
  rw [Nat.succ_mul] at hi ⊢
  obtain ⟨x, hloadx, hx⟩ := mm256LoaduPs_of_le hi
  obtain ⟨y, hloady, hy⟩ := mm256LoaduPs_of_le (hab ▸ hi)
  refine ⟨mm256AddPs sum (mm256MulPs x y), ?_, ?_⟩
  · unfold dotChunk
    dsimp only
    rw [hloadx, hloady]
    rfl
  · rw [partialDot_add (i * 8) 8 x y hx hy, ← h, ← Finset.sum_add_distrib]
    rfl

theorem dotRest_eq (hab : a.length = b.length) {i : Nat} (hi : i < a.length) :
    dotRest a b i (partialDot a b i) = .ok (partialDot a b (i + 1)) := by
  have hx := List.getElem?_eq_getElem hi
  have hy := List.getElem?_eq_getElem (hab ▸ hi)
  rw [partialDot_succ hx hy, dotRest, hx, hy]
  rfl

/-- All products together are the scalar result. -/
theorem partialDot_length (hab : a.length = b.length) :
    partialDot a b a.length = dotF32Scalar a b := by
  rw [partialDot, List.take_of_length_le (by simp [← hab]), dotF32Scalar, List.sum_eq_foldl]

theorem forEach_dotChunk (hab : a.length = b.length) :
    ∃ sum, forEach (List.range' 0 (a.length / 8)) (dotChunk a b) mm256SetzeroPs = .ok sum ∧
      ∑ l, sum l = partialDot a b (a.length / 8 * 8) := by
  have hzero : ∑ l, (mm256SetzeroPs : Fin 8 → R) l = partialDot a b (0 * 8) := by
    simp [mm256SetzeroPs, partialDot]
  have hloop := forEach_range (I := fun i sum => ∑ l, sum l = partialDot a b (i * 8))
    (a.length / 8) 0 mm256SetzeroPs (fun i sum _ hi h => dotChunk_eq hab (by omega) h) hzero
  rwa [Nat.zero_add] at hloop

theorem forEach_dotRest (hab : a.length = b.length) {start : Nat} (hstart : start ≤ a.length) :
    forEach (List.range' start (a.length - start)) (dotRest a b) (partialDot a b start)
      = .ok (partialDot a b a.length) := by
  obtain ⟨result, hloop, hresult⟩ := forEach_range (I := fun i result => result = partialDot a b i)
    (a.length - start) start (partialDot a b start)
    (fun i result _ hi h => ⟨_, h ▸ dotRest_eq hab (by omega), rfl⟩) rfl
  rw [hloop, hresult, Nat.add_sub_cancel' hstart]

/-- The AVX2 kernel, for any length. -/
theorem dotF32Avx2_eq (hab : a.length = b.length) : dotF32Avx2 a b = .ok (dotF32Scalar a b) := by
  obtain ⟨sum, hloop, hsum⟩ := forEach_dotChunk hab
  unfold dotF32Avx2
  dsimp only
  rw [hloop, Outcome.ok_bind, horizontalSum_eq, hsum,
    forEach_dotRest hab (Nat.div_mul_le_self _ _), partialDot_length hab]

end Sums

/-- **The dot product in exact arithmetic.** Over a commutative ring and for every length, the AVX2
kernel gives the scalar result, which is the sum of the products; so `dot_f32` does not depend on
the target or its capabilities. -/
theorem dotF32_eq_sum {R : Type} [CommRing R] (a b : List R) (hab : a.length = b.length) :
    dotF32Avx2 a b = .ok (dotF32Scalar a b) ∧
    dotF32Scalar a b = ∑ i : Fin a.length, a.get i * b.get (i.cast hab) ∧
    ∀ (arch : Arch) (s : SimdOps), s.dotF32 arch a b = .ok (dotF32Scalar a b) := by
  refine ⟨dotF32Avx2_eq hab, ?_, fun arch s => ?_⟩
  · have hall := partialDot_add (a := a) (b := b) 0 a.length a.get (fun i => b.get (i.cast hab))
      (fun i => by simp) (fun i => by simp)
    rw [Nat.zero_add, partialDot_length hab] at hall
    rw [hall]
    simp [partialDot]
  · unfold SimdOps.dotF32
    rw [if_neg (by simp [hab])]
    cases arch with
    | x86_64 =>
        dsimp only
        split_ifs
        · exact dotF32Avx2_eq hab
        · rfl
    | aarch64 => rfl
    | other => rfl

/-- One vector of eight and a remainder of two. -/
theorem dotF32_eq_sum_ten :
    SimdOps.dotF32 .x86_64 ⟨⟨true, true, true, true, true, false, false, false⟩⟩
      [1, 2, 3, 4, 5, 6, 7, 8, 9, 10] [1, -1, 1, -1, 1, -1, 1, -1, 1, -1] = .ok (-5 : Int) := by
  obtain ⟨-, -, hdot⟩ := dotF32_eq_sum ([1, 2, 3, 4, 5, 6, 7, 8, 9, 10] : List Int)
    [1, -1, 1, -1, 1, -1, 1, -1, 1, -1] rfl
  rw [hdot]
  decide

end Pepita.Simd
