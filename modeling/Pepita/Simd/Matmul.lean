import Pepita.Lib.ForLoop
import Pepita.Lib.RowMajor

set_option autoImplicit false

/-! # Matrix multiplication

`MatrixOps::matmul_f32` of `simd.rs`: six nested loops over tiles of 32 by 32 by 32. The steps of
the nest are collected in one list (`visits`), in the order in which they are made. For a cell of
the output, the steps that hit it are those of the naive loop, in its order (`filter_visits`). So
each entry is the naive sum, with the same bracketing, and this needs no law of the operations.
-/

namespace Pepita.Simd

open RowMajor

/-- A slice. No object is larger than `isize::MAX` bytes. -/
def Slice (α : Type) : Type := { l : List α // l.length < 2 ^ 63 }

/-- `TILE_SIZE`. -/
def tileSize : Nat := 32

/-- The indices of the tile that starts at `start`, up to `(start + TILE_SIZE).min(n)`. -/
def tileRange (n start : Nat) : List Nat :=
  List.range' start (min (wadd start tileSize) n - start)

section Model

variable {α : Type} [Add α] [Mul α] [Zero α]

/-- `c[i * n + j] += a_val * b[kk * n + j]`, where `out` is the output slice `c`. -/
def accumulate (b : List α) (n : Nat) (aVal : α) (i kk j : Nat) (out : List α) :
    Outcome Empty (List α) := do
  let bVal ← .orPanic b[wadd (wmul kk n) j]?
  let sum ← .orPanic out[wadd (wmul i n) j]?
  .orPanic (setAt out (wadd (wmul i n) j) (sum + aVal * bVal))

/-- `matmul_f32`. The result is the output slice. -/
def matmulF32 (a b c : List α) (m k n : Nat) : Outcome Empty (List α) :=
  if a.length ≠ wmul m k ∨ b.length ≠ wmul k n ∨ c.length ≠ wmul m n then .panic
  else
    forEach (stepBy m tileSize) (fun i0 =>
      forEach (stepBy n tileSize) fun j0 =>
        forEach (stepBy k tileSize) fun k0 =>
          forEach (tileRange m i0) fun i =>
            forEach (tileRange k k0) fun kk c => do
              let aVal ← .orPanic a[wadd (wmul i k) kk]?
              forEach (tileRange n j0) (fun j => accumulate b n aVal i kk j) c)
      (List.replicate c.length 0)

/-- Entry `(i, j)` of the product, as the naive loop computes it; `none` if it reads outside a
matrix. -/
def naiveEntry (a b : List α) (k n i j : Nat) : Option α :=
  (List.range k).foldlM (fun sum kk => do
    let x ← a[i * k + kk]?
    let y ← b[kk * n + j]?
    some (sum + x * y)) 0

end Model

/-! ## The steps of the nest -/

/-- The steps `(i, kk, j)` of the three inner loops, in the order in which they are made. -/
def blockVisits (m k n size i0 j0 k0 : Nat) : List (Nat × Nat × Nat) :=
  (tile m size i0).flatMap fun i =>
    (tile k size k0).flatMap fun kk =>
      (tile n size j0).flatMap fun j => [(i, kk, j)]

/-- The steps of all six loops. -/
def visits (m k n size : Nat) : List (Nat × Nat × Nat) :=
  (stepBy m size).flatMap fun i0 =>
    (stepBy n size).flatMap fun j0 =>
      (stepBy k size).flatMap fun k0 => blockVisits m k n size i0 j0 k0

variable {m k n size i0 j0 k0 : Nat}

theorem mem_blockVisits {t : Nat × Nat × Nat} :
    t ∈ blockVisits m k n size i0 j0 k0 ↔
      t.1 ∈ tile m size i0 ∧ t.2.1 ∈ tile k size k0 ∧ t.2.2 ∈ tile n size j0 := by
  simp only [blockVisits, List.mem_flatMap, List.mem_singleton]
  constructor
  · rintro ⟨i, hi, kk, hkk, j, hj, rfl⟩
    exact ⟨hi, hkk, hj⟩
  · rintro ⟨hi, hkk, hj⟩
    exact ⟨t.1, hi, t.2.1, hkk, t.2.2, hj, rfl⟩

/-- Only columns of the matrix are visited. -/
theorem lt_of_mem_visits {t : Nat × Nat × Nat} (h : t ∈ visits m k n size) : t.2.2 < n := by
  simp only [visits, List.mem_flatMap] at h
  obtain ⟨i0, -, j0, -, k0, -, ht⟩ := h
  exact (mem_tile.mp (mem_blockVisits.mp ht).2.2).2.2

/-- In a tile that has row `i` and column `j`, their steps are made in the order of `kk`. -/
theorem filter_blockVisits {i j : Nat} (hi : i ∈ tile m size i0) (hj : j ∈ tile n size j0) :
    ((blockVisits m k n size i0 j0 k0).filter fun t => t.1 = i ∧ t.2.2 = j)
      = (tile k size k0).map fun kk => (i, kk, j) := by
  unfold blockVisits
  rw [filter_flatMap_unique (nodup_tile _ _ _) hi, List.filter_flatMap, List.map_eq_flatMap]
  · refine List.flatMap_congr fun kk _ => ?_
    rw [filter_flatMap_unique (nodup_tile _ _ _) hj]
    · simp
    · intro j' _ t ht hP
      obtain rfl := List.mem_singleton.mp ht
      exact (of_decide_eq_true hP).2
  · intro i' _ t ht hP
    simp only [List.mem_flatMap, List.mem_singleton] at ht
    obtain ⟨kk, -, j', -, rfl⟩ := ht
    exact (of_decide_eq_true hP).1

/-- **Cell by cell, the tiled nest is the naive loop**: the steps for row `i` and column `j` are
made for `kk = 0, 1, ..., k - 1`, in this order. -/
theorem filter_visits (hsize : 0 < size) {i j : Nat} (hi : i < m) (hj : j < n) :
    ((visits m k n size).filter fun t => t.1 = i ∧ t.2.2 = j)
      = (List.range k).map fun kk => (i, kk, j) := by
  unfold visits
  -- the steps are made in the tiles that have row `i` and column `j`
  rw [filter_flatMap_unique (nodup_stepBy hsize) (start_mem_stepBy hsize hi),
    filter_flatMap_unique (nodup_stepBy hsize) (start_mem_stepBy hsize hj),
    List.filter_flatMap, ← flatMap_tile hsize, List.map_flatMap]
  · refine List.flatMap_congr fun k0 _ => ?_
    exact filter_blockVisits (mem_tile_start hsize hi) (mem_tile_start hsize hj)
  · intro j0 hj0 t ht hP
    obtain ⟨k0, -, ht⟩ := List.mem_flatMap.mp ht
    rw [← (of_decide_eq_true hP).2]
    exact start_of_mem_tile hsize hj0 (mem_blockVisits.mp ht).2.2
  · intro i0 hi0 t ht hP
    simp only [List.mem_flatMap] at ht
    obtain ⟨j0, -, k0, -, ht⟩ := ht
    rw [← (of_decide_eq_true hP).1]
    exact start_of_mem_tile hsize hi0 (mem_blockVisits.mp ht).1

/-! ## The loops make these steps -/

theorem tileRange_eq {start : Nat} (h : start + tileSize < 2 ^ 64) :
    tileRange n start = tile n tileSize start := by
  rw [tileRange, wadd_of_lt h, tile]

section Loops

variable {α : Type} [Add α] [Mul α] [Zero α] {a b : List α}

/-- One step of the nest: the product of two entries is added to a third. -/
def addProduct (a b : List α) (k n : Nat) (c : List α) (t : Nat × Nat × Nat) : List α :=
  c.modify (t.1 * n + t.2.2) (· + a.getD (t.1 * k + t.2.1) 0 * b.getD (t.2.1 * n + t.2.2) 0)

/-- The matrices have their sizes, and fit in memory. -/
structure Fits (a b : List α) (m k n : Nat) : Prop where
  a_length : a.length = m * k
  b_length : b.length = k * n
  a_lt : m * k < 2 ^ 63
  b_lt : k * n < 2 ^ 63
  c_lt : m * n < 2 ^ 63

theorem length_addProduct (c : List α) (t : Nat × Nat × Nat) :
    (addProduct a b k n c t).length = c.length := List.length_modify _ _ _

omit [Add α] [Mul α] in
theorem getElem?_eq_getD {l : List α} {i : Nat} (h : i < l.length) :
    l[i]? = some (l.getD i 0) := by
  rw [List.getD_eq_getElem?_getD, List.getElem?_eq_getElem h, Option.getD_some]

theorem accumulate_eq (hfits : Fits a b m k n) {i kk j : Nat} (hi : i < m) (hkk : kk < k)
    (hj : j < n) {c : List α} (hc : c.length = m * n) :
    accumulate b n (a.getD (i * k + kk) 0) i kk j c = .ok (addProduct a b k n c (i, kk, j)) := by
  have hb : kk * n + j < b.length := hfits.b_length ▸ index_lt hkk hj
  have hread : i * n + j < c.length := hc ▸ index_lt hi hj
  unfold accumulate
  rw [windex_eq hfits.b_lt hkk hj, windex_eq hfits.c_lt hi hj, getElem?_eq_getD hb,
    getElem?_eq_getD hread]
  simp only [Outcome.orPanic_some, Outcome.ok_bind]
  rw [setAt_eq_modify (getElem?_eq_getD hread)
    (· + a.getD (i * k + kk) 0 * b.getD (kk * n + j) 0), Outcome.orPanic_some]
  rfl

/-- Every step keeps the length of the output. -/
theorem addProduct_keeps (c : List α) (t : Nat × Nat × Nat) (hc : c.length = m * n) :
    (addProduct a b k n c t).length = m * n := (length_addProduct c t).trans hc

/-- The three inner loops, on a tile that is not empty: there is a row, a column and a `kk`, so no
dimension is near the end of the words, and the end of the tile does not wrap. -/
theorem forEach_blockVisits (hfits : Fits a b m k n) (hi0 : i0 < m) (hj0 : j0 < n) (hk0 : k0 < k)
    {c : List α} (hc : c.length = m * n) :
    forEach (tileRange m i0) (fun i =>
      forEach (tileRange k k0) fun kk c => do
        let aVal ← .orPanic a[wadd (wmul i k) kk]?
        forEach (tileRange n j0) (fun j => accumulate b n aVal i kk j) c) c
      = (.ok ((blockVisits m k n tileSize i0 j0 k0).foldl (addProduct a b k n) c)
        : Outcome Empty _) := by
  have hm : m < 2 ^ 63 := (Nat.le_mul_of_pos_right m (by omega)).trans_lt hfits.c_lt
  have hn : n < 2 ^ 63 := (Nat.le_mul_of_pos_left n (by omega)).trans_lt hfits.c_lt
  have hk : k < 2 ^ 63 := (Nat.le_mul_of_pos_left k (by omega)).trans_lt hfits.a_lt
  have hends : i0 + tileSize < 2 ^ 64 ∧ j0 + tileSize < 2 ^ 64 ∧ k0 + tileSize < 2 ^ 64 := by
    unfold tileSize
    omega
  unfold blockVisits
  rw [tileRange_eq hends.1, tileRange_eq hends.2.1, tileRange_eq hends.2.2]
  refine forEach_flatMap addProduct_keeps _ (fun i hi => ?_) c hc
  refine forEach_flatMap addProduct_keeps _ (fun kk hkk c hc => ?_)
  rw [mem_tile] at hi hkk
  have ha : i * k + kk < a.length := hfits.a_length ▸ index_lt hi.2.2 hkk.2.2
  rw [windex_eq hfits.a_lt hi.2.2 hkk.2.2, getElem?_eq_getD ha, Outcome.orPanic_some,
    Outcome.ok_bind]
  refine forEach_flatMap addProduct_keeps _ (fun j hj c hc => ?_) c hc
  rw [mem_tile] at hj
  exact accumulate_eq hfits hi.2.2 hkk.2.2 hj.2.2 hc

/-- The six loops are one pass over the list of steps. -/
theorem forEach_visits (hfits : Fits a b m k n) {c : List α} (hc : c.length = m * n) :
    forEach (stepBy m tileSize) (fun i0 =>
      forEach (stepBy n tileSize) fun j0 =>
        forEach (stepBy k tileSize) fun k0 =>
          forEach (tileRange m i0) fun i =>
            forEach (tileRange k k0) fun kk c => do
              let aVal ← .orPanic a[wadd (wmul i k) kk]?
              forEach (tileRange n j0) (fun j => accumulate b n aVal i kk j) c) c
      = (.ok ((visits m k n tileSize).foldl (addProduct a b k n) c) : Outcome Empty _) := by
  have hsize : 0 < tileSize := by decide
  refine forEach_flatMap addProduct_keeps _ (fun i0 hi0 => ?_) c hc
  refine forEach_flatMap addProduct_keeps _ (fun j0 hj0 => ?_)
  refine forEach_flatMap addProduct_keeps _ (fun k0 hk0 c hc => ?_)
  rw [mem_stepBy hsize] at hi0 hj0 hk0
  exact forEach_blockVisits hfits hi0.2 hj0.2 hk0.2 hc

/-! ## The product -/

/-- What the pass leaves in an output of zeros. -/
def tiledProduct (a b : List α) (m k n : Nat) : List α :=
  (visits m k n tileSize).foldl (addProduct a b k n) (List.replicate (m * n) 0)

/-- No size wraps, so the assertions hold and the loops run. -/
theorem matmulF32_eq_tiledProduct (hfits : Fits a b m k n) {c : List α} (hc : c.length = m * n) :
    matmulF32 a b c m k n = .ok (tiledProduct a b m k n) := by
  have hword : ∀ {x y : Nat}, x * y < 2 ^ 63 → wmul x y = x * y := fun h =>
    wmul_of_lt (h.trans (by decide))
  rw [matmulF32, hword hfits.a_lt, hword hfits.b_lt, hword hfits.c_lt,
    if_neg (by simp [hfits.a_length, hfits.b_length, hc]), hc]
  exact forEach_visits hfits (List.length_replicate ..)

theorem length_tiledProduct (a b : List α) (m k n : Nat) :
    (tiledProduct a b m k n).length = m * n := by
  refine List.foldlRecOn (motive := fun c : List α => c.length = m * n) _ _
    (List.length_replicate ..) fun c hc t _ => ?_
  exact addProduct_keeps c t hc

/-- The naive loop reads no entry outside the matrices. -/
theorem naiveEntry_eq (hfits : Fits a b m k n) {i j : Nat} (hi : i < m) (hj : j < n) :
    naiveEntry a b k n i j = some ((List.range k).foldl
      (fun sum kk => sum + a.getD (i * k + kk) 0 * b.getD (kk * n + j) 0) 0) := by
  refine foldlM_eq_some _ (fun kk hkk sum => ?_) 0
  rw [List.mem_range] at hkk
  have ha : i * k + kk < a.length := hfits.a_length ▸ index_lt hi hkk
  have hb : kk * n + j < b.length := hfits.b_length ▸ index_lt hkk hj
  rw [getElem?_eq_getD ha, getElem?_eq_getD hb]
  rfl

/-- An entry of the product is that of the naive loop. -/
theorem getElem?_tiledProduct (hfits : Fits a b m k n) {i j : Nat} (hi : i < m) (hj : j < n) :
    (tiledProduct a b m k n)[i * n + j]? = naiveEntry a b k n i j := by
  have hcell : ((visits m k n tileSize).filter fun t => t.1 * n + t.2.2 = i * n + j)
      = (List.range k).map fun kk => (i, kk, j) := by
    have hsize : 0 < tileSize := by decide
    rw [← filter_visits hsize hi hj]
    refine List.filter_congr fun t ht => ?_
    exact decide_eq_decide.mpr (index_inj hj (lt_of_mem_visits ht))
  unfold tiledProduct addProduct
  rw [getElem?_foldl_modify (fun t : Nat × Nat × Nat => t.1 * n + t.2.2), hcell,
    List.getElem?_replicate_of_lt (index_lt hi hj), Option.map_some, List.foldl_map,
    naiveEntry_eq hfits hi hj]

end Loops

/-- **Tiled multiplication is naive multiplication, with the same order of summation.** For
matrices of any sizes, over any element type, no access is out of range, the output has its length,
and its entry `(i, j)` is `(((0 + a[i,0] * b[0,j]) + a[i,1] * b[1,j]) + ...)`, whatever the output
held before. -/
theorem matmulF32_eq_naive {α : Type} [Add α] [Mul α] [Zero α] (m k n : UInt64)
    (a b c : Slice α) (ha : a.1.length = m.toNat * k.toNat) (hb : b.1.length = k.toNat * n.toNat)
    (hc : c.1.length = m.toNat * n.toNat) :
    ∃ product : List α,
      matmulF32 a.1 b.1 c.1 m.toNat k.toNat n.toNat = .ok product ∧
      (∀ old : Slice α, old.1.length = m.toNat * n.toNat →
        matmulF32 a.1 b.1 old.1 m.toNat k.toNat n.toNat = .ok product) ∧
      product.length = m.toNat * n.toNat ∧
      ∀ i j, i < m.toNat → j < n.toNat →
        ∃ v, naiveEntry a.1 b.1 k.toNat n.toNat i j = some v ∧
          product[i * n.toNat + j]? = some v := by
  have hfits : Fits a.1 b.1 m.toNat k.toNat n.toNat :=
    ⟨ha, hb, ha ▸ a.2, hb ▸ b.2, hc ▸ c.2⟩
  refine ⟨tiledProduct a.1 b.1 m.toNat k.toNat n.toNat, matmulF32_eq_tiledProduct hfits hc,
    fun old hold => matmulF32_eq_tiledProduct hfits hold, length_tiledProduct _ _ _ _ _, ?_⟩
  intro i j hi hj
  refine ⟨_, naiveEntry_eq hfits hi hj, ?_⟩
  rw [getElem?_tiledProduct hfits hi hj, naiveEntry_eq hfits hi hj]

/-- A matrix with two rows times a column. -/
theorem matmulF32_eq_naive_column :
    ∃ product, matmulF32 [1, 2, 3, 4, 5, 6] [10, 100, 1000] [7, 7] 2 3 1 = .ok product ∧
      product.length = 2 ∧ product[0]? = some 3210 ∧ product[1]? = some 6540 := by
  obtain ⟨product, hrun, -, hlen, hentry⟩ := matmulF32_eq_naive 2 3 1
    (⟨[1, 2, 3, 4, 5, 6], by decide⟩ : Slice Nat) ⟨[10, 100, 1000], by decide⟩ ⟨[7, 7], by decide⟩
    rfl rfl rfl
  obtain ⟨v, hv, hv'⟩ := hentry 0 0 (by decide) (by decide)
  obtain ⟨w, hw, hw'⟩ := hentry 1 0 (by decide) (by decide)
  exact ⟨product, hrun, hlen, hv'.trans hv.symm, hw'.trans hw.symm⟩

end Pepita.Simd
