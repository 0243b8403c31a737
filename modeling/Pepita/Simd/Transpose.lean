import Mathlib.Algebra.Group.Defs
import Mathlib.Data.List.ProdSigma
import Pepita.Simd.Matmul

set_option autoImplicit false

/-! # Transposition

`MatrixOps::transpose_f32` of `simd.rs`. The model keeps the indices stored to beside the output, so
that it can be said that each is stored to once. What the loops compute is given by its entries
(`IsTranspose`), and from these follow that transposing twice gives the matrix back, and that the
transpose of a product is the product of the transposes in the other order (`transpose_laws`).
-/

namespace Pepita.Simd

open RowMajor

section Model

variable {α : Type}

/-- An output slice, and the indices that have been stored to, in order. -/
structure Stored (α : Type) where
  cells : List α
  stores : List Nat
  deriving DecidableEq, Repr

/-- `dst[j * rows + i] = src[i * cols + j]`. -/
def transposeStep (src : List α) (rows cols i j : Nat) (dst : Stored α) :
    Outcome Empty (Stored α) := do
  let x ← .orPanic src[wadd (wmul i cols) j]?
  let cells ← .orPanic (setAt dst.cells (wadd (wmul j rows) i) x)
  .ok ⟨cells, dst.stores ++ [wadd (wmul j rows) i]⟩

/-- `transpose_f32`. -/
def transposeF32 (src dst : List α) (rows cols : Nat) : Outcome Empty (Stored α) :=
  if src.length ≠ wmul rows cols ∨ dst.length ≠ wmul rows cols then .panic
  else
    forEach (List.range rows) (fun i =>
      forEach (List.range cols) fun j => transposeStep src rows cols i j) ⟨dst, []⟩

/-- `dst` is the transpose of the matrix `src` with `rows` rows and `cols` columns. -/
structure IsTranspose (rows cols : Nat) (src dst : List α) : Prop where
  length_eq : dst.length = cols * rows
  entry : ∀ i j, i < rows → j < cols → dst[j * rows + i]? = src[i * cols + j]?

end Model

/-! ## The loops -/

section Loops

variable {α : Type} {src : List α} {rows cols : Nat}

/-- One step: an entry is copied. -/
def copyEntry (src : List α) (rows cols : Nat) (dst : Stored α) (t : Nat × Nat) : Stored α where
  cells := dst.cells.modify (t.2 * rows + t.1) fun old => src[t.1 * cols + t.2]?.getD old
  stores := dst.stores ++ [t.2 * rows + t.1]

/-- A step keeps the length of the output. -/
theorem copyEntry_keeps (dst : Stored α) (t : Nat × Nat) (h : dst.cells.length = rows * cols) :
    (copyEntry src rows cols dst t).cells.length = rows * cols := (List.length_modify _ _ _).trans h

theorem transposeStep_eq (hsrc : src.length = rows * cols) (hlt : rows * cols < 2 ^ 63)
    {i j : Nat} (hi : i < rows) (hj : j < cols) {dst : Stored α}
    (hdst : dst.cells.length = rows * cols) :
    transposeStep src rows cols i j dst = .ok (copyEntry src rows cols dst (i, j)) := by
  have hlt' : cols * rows < 2 ^ 63 := by rwa [Nat.mul_comm]
  have hread : i * cols + j < src.length := hsrc ▸ index_lt hi hj
  have hwrite : j * rows + i < dst.cells.length := by
    rw [hdst, Nat.mul_comm rows cols]
    exact index_lt hj hi
  unfold transposeStep copyEntry
  rw [windex_eq hlt hi hj, windex_eq hlt' hj hi, List.getElem?_eq_getElem hread]
  simp only [Outcome.orPanic_some, Outcome.ok_bind, Option.getD_some]
  rw [setAt_eq_modify (List.getElem?_eq_getElem hwrite) (fun _ => src[i * cols + j])]
  rfl

/-- The two loops are one pass over the entries, row after row. -/
theorem forEach_product (hsrc : src.length = rows * cols) (hlt : rows * cols < 2 ^ 63)
    {dst : Stored α} (hdst : dst.cells.length = rows * cols) :
    forEach (List.range rows) (fun i =>
      forEach (List.range cols) fun j => transposeStep src rows cols i j) dst
      = (.ok ((List.range rows ×ˢ List.range cols).foldl (copyEntry src rows cols) dst)
        : Outcome Empty _) := by
  refine forEach_flatMap copyEntry_keeps _ (fun i hi dst hdst => ?_) dst hdst
  rw [List.map_eq_flatMap]
  refine forEach_flatMap copyEntry_keeps _ (fun j hj dst hdst => ?_) dst hdst
  exact transposeStep_eq hsrc hlt (List.mem_range.mp hi) (List.mem_range.mp hj) hdst

theorem stores_foldl (ts : List (Nat × Nat)) : ∀ dst : Stored α,
    (ts.foldl (copyEntry src rows cols) dst).stores
      = dst.stores ++ ts.map fun t => t.2 * rows + t.1 := by
  induction ts with
  | nil => intro dst; simp
  | cons t ts ih =>
      intro dst
      rw [List.foldl_cons, ih, copyEntry, List.map_cons, List.append_assoc, List.singleton_append]

theorem cells_foldl (ts : List (Nat × Nat)) : ∀ dst : Stored α,
    (ts.foldl (copyEntry src rows cols) dst).cells
      = ts.foldl (fun cells t => cells.modify (t.2 * rows + t.1) fun old =>
        src[t.1 * cols + t.2]?.getD old) dst.cells := by
  induction ts with
  | nil => intro dst; rfl
  | cons t ts ih =>
      intro dst
      rw [List.foldl_cons, ih, List.foldl_cons, copyEntry]

theorem nodup_entries : (List.range rows ×ˢ List.range cols).Nodup :=
  List.nodup_range.product List.nodup_range

theorem mem_entries {t : Nat × Nat} :
    t ∈ List.range rows ×ˢ List.range cols ↔ t.1 < rows ∧ t.2 < cols := by
  rw [← Prod.mk.eta (p := t), List.mem_product, List.mem_range, List.mem_range]

/-- Every index is stored to once. -/
theorem stores_perm :
    ((List.range rows ×ˢ List.range cols).map fun t => t.2 * rows + t.1).Perm
      (List.range (rows * cols)) := by
  refine (List.perm_ext_iff_of_nodup ?_ List.nodup_range).mpr fun p => ?_
  · refine List.Nodup.map_on (fun t ht u hu h => ?_) nodup_entries
    rw [mem_entries] at ht hu
    obtain ⟨h2, h1⟩ := (index_inj hu.1 ht.1).mp h
    exact Prod.ext h1 h2
  · rw [List.mem_map, List.mem_range, Nat.mul_comm]
    constructor
    · rintro ⟨t, ht, rfl⟩
      rw [mem_entries] at ht
      exact index_lt ht.2 ht.1
    · intro hp
      obtain ⟨j, i, hj, hi, rfl⟩ := exists_index hp
      exact ⟨(i, j), mem_entries.mpr ⟨hi, hj⟩, rfl⟩

/-- The step that stores to the index of an entry is the one that copies this entry. -/
theorem filter_entries {i j : Nat} (hi : i < rows) (hj : j < cols) :
    ((List.range rows ×ˢ List.range cols).filter fun t => t.2 * rows + t.1 = j * rows + i)
      = [(i, j)] := by
  have hcongr : ((List.range rows ×ˢ List.range cols).filter fun t =>
      t.2 * rows + t.1 = j * rows + i)
      = (List.range rows ×ˢ List.range cols).filter (· = (i, j)) := by
    refine List.filter_congr fun t ht => ?_
    rw [mem_entries] at ht
    rw [decide_eq_decide, index_inj hi ht.1, Prod.ext_iff, and_comm]
  rw [hcongr, List.filter_eq,
    List.count_eq_one_of_mem nodup_entries (mem_entries.mpr ⟨hi, hj⟩)]
  rfl

/-- **What `transpose_f32` does.** -/
theorem transposeF32_eq (hlt : rows * cols < 2 ^ 63) (hsrc : src.length = rows * cols)
    {dst : List α} (hdst : dst.length = rows * cols) :
    ∃ out, transposeF32 src dst rows cols = .ok out ∧
      out.stores.Perm (List.range (rows * cols)) ∧ IsTranspose rows cols src out.cells := by
  have hlt' : rows * cols < 2 ^ 64 := by omega
  refine ⟨(List.range rows ×ˢ List.range cols).foldl (copyEntry src rows cols) ⟨dst, []⟩,
    ?_, ?_, ?_, fun i j hi hj => ?_⟩
  · rw [transposeF32, wmul_of_lt hlt', if_neg (by simp [hsrc, hdst])]
    exact forEach_product hsrc hlt hdst
  · rw [stores_foldl]
    exact stores_perm
  · rw [Nat.mul_comm cols rows]
    exact List.foldlRecOn (motive := fun out : Stored α => out.cells.length = rows * cols) _ _
      hdst fun out hout t _ => copyEntry_keeps out t hout
  · have hread : i * cols + j < src.length := hsrc ▸ index_lt hi hj
    have hold : j * rows + i < dst.length := by
      rw [hdst, Nat.mul_comm rows cols]
      exact index_lt hj hi
    rw [cells_foldl, getElem?_foldl_modify (fun t : Nat × Nat => t.2 * rows + t.1),
      filter_entries hi hj, List.getElem?_eq_getElem hold, List.getElem?_eq_getElem hread]
    simp [List.getElem?_eq_getElem hread]

end Loops

/-! ## The laws -/

section Laws

variable {α : Type} {rows cols m k n : Nat}

/-- Transposing back gives the matrix. -/
theorem IsTranspose.eq_of_back {src dst back : List α} (hsrc : src.length = rows * cols)
    (h : IsTranspose rows cols src dst) (hback : IsTranspose cols rows dst back) : back = src := by
  refine ext_entries hback.length_eq hsrc fun i j hi hj => ?_
  rw [hback.entry j i hj hi, h.entry i j hi hj]

variable {a b aT bT : List α}

theorem IsTranspose.fits (hfits : Fits a b m k n) (ha : IsTranspose m k a aT)
    (hb : IsTranspose k n b bT) : Fits bT aT n k m where
  a_length := hb.length_eq
  b_length := ha.length_eq
  a_lt := Nat.mul_comm k n ▸ hfits.b_lt
  b_lt := Nat.mul_comm m k ▸ hfits.a_lt
  c_lt := Nat.mul_comm m n ▸ hfits.c_lt

/-- An entry of the product of the transposes is the entry of the product on the other side of the
diagonal: the same sum, in the same order, with the factors of each product swapped. -/
theorem IsTranspose.naiveEntry_eq [Add α] [CommMagma α] [Zero α] (hfits : Fits a b m k n)
    (ha : IsTranspose m k a aT) (hb : IsTranspose k n b bT) {i j : Nat} (hi : i < m) (hj : j < n) :
    naiveEntry bT aT k m j i = naiveEntry a b k n i j := by
  rw [Simd.naiveEntry_eq hfits hi hj, Simd.naiveEntry_eq (ha.fits hfits hb) hj hi]
  congr 1
  refine List.foldl_ext _ _ _ fun sum kk hkk => ?_
  rw [List.mem_range] at hkk
  rw [List.getD_eq_getElem?_getD, List.getD_eq_getElem?_getD, hb.entry kk j hkk hj,
    ha.entry i kk hi hkk, mul_comm]
  rw [List.getD_eq_getElem?_getD, List.getD_eq_getElem?_getD]

end Laws

/-- **Transposition.** For a matrix of any shape, `transpose_f32` stays in bounds, stores to every
index once, puts entry `(i, j)` at `(j, i)`, and undoes itself. And if multiplication commutes, the
transpose of a product is the product of the transposes in the other order. -/
theorem transpose_laws {α β : Type} [Add β] [CommMagma β] [Zero β] :
    (∀ (rows cols : UInt64) (src dst back : Slice α),
      src.1.length = rows.toNat * cols.toNat → dst.1.length = rows.toNat * cols.toNat →
      back.1.length = rows.toNat * cols.toNat →
      ∃ out again, transposeF32 src.1 dst.1 rows.toNat cols.toNat = .ok out ∧
        out.stores.Perm (List.range (rows.toNat * cols.toNat)) ∧
        out.cells.length = rows.toNat * cols.toNat ∧
        (∀ i j, i < rows.toNat → j < cols.toNat →
          out.cells[j * rows.toNat + i]? = src.1[i * cols.toNat + j]?) ∧
        transposeF32 out.cells back.1 cols.toNat rows.toNat = .ok again ∧
        again.cells = src.1) ∧
    ∀ (m k n : UInt64) (a b c aT bT cT d : Slice β),
      a.1.length = m.toNat * k.toNat → b.1.length = k.toNat * n.toNat →
      c.1.length = m.toNat * n.toNat → aT.1.length = m.toNat * k.toNat →
      bT.1.length = k.toNat * n.toNat → cT.1.length = m.toNat * n.toNat →
      d.1.length = n.toNat * m.toNat →
      ∃ product outA outB outC,
        matmulF32 a.1 b.1 c.1 m.toNat k.toNat n.toNat = .ok product ∧
        transposeF32 product cT.1 m.toNat n.toNat = .ok outC ∧
        transposeF32 a.1 aT.1 m.toNat k.toNat = .ok outA ∧
        transposeF32 b.1 bT.1 k.toNat n.toNat = .ok outB ∧
        matmulF32 outB.cells outA.cells d.1 n.toNat k.toNat m.toNat = .ok outC.cells := by
  refine ⟨?_, ?_⟩
  · intro rows cols src dst back hsrc hdst hback
    have hlt : rows.toNat * cols.toNat < 2 ^ 63 := hsrc ▸ src.2
    obtain ⟨out, hout, hperm, htrans⟩ := transposeF32_eq hlt hsrc hdst
    have hlen : out.cells.length = rows.toNat * cols.toNat := by
      rw [htrans.length_eq, Nat.mul_comm]
    obtain ⟨again, hagain, -, hundo⟩ := transposeF32_eq (Nat.mul_comm _ _ ▸ hlt)
      htrans.length_eq (hback.trans (Nat.mul_comm _ _))
    exact ⟨out, again, hout, hperm, hlen, htrans.entry, hagain, htrans.eq_of_back hsrc hundo⟩
  · intro m k n a b c aT bT cT d ha hb hc haT hbT hcT hd
    have hfits : Fits a.1 b.1 m.toNat k.toNat n.toNat :=
      ⟨ha, hb, ha ▸ a.2, hb ▸ b.2, hc ▸ c.2⟩
    obtain ⟨outA, houtA, -, htransA⟩ := transposeF32_eq hfits.a_lt ha haT
    obtain ⟨outB, houtB, -, htransB⟩ := transposeF32_eq hfits.b_lt hb hbT
    have hfitsT := htransA.fits hfits htransB
    have hlen := length_tiledProduct a.1 b.1 m.toNat k.toNat n.toNat
    have hlenT := length_tiledProduct outB.cells outA.cells n.toNat k.toNat m.toNat
    obtain ⟨outC, houtC, -, htransC⟩ := transposeF32_eq hfits.c_lt hlen hcT
    refine ⟨_, outA, outB, outC, matmulF32_eq_tiledProduct hfits hc, houtC, houtA, houtB, ?_⟩
    rw [matmulF32_eq_tiledProduct hfitsT hd]
    refine congrArg _ (ext_entries hlenT htransC.length_eq fun j i hj hi => ?_)
    rw [getElem?_tiledProduct hfitsT hj hi, htransA.naiveEntry_eq hfits htransB hi hj,
      htransC.entry i j hi hj, getElem?_tiledProduct hfits hi hj]

/-- A matrix with two rows and three columns, and its product with a column. -/
theorem transpose_laws_two :
    (∃ out again, transposeF32 ["a", "b", "c", "d", "e", "f"] ["", "", "", "", "", ""] 2 3
        = .ok out ∧ out.stores.Perm (List.range 6) ∧ out.cells[4]? = some "c" ∧
      transposeF32 out.cells ["", "", "", "", "", ""] 3 2 = .ok again ∧
      again.cells = ["a", "b", "c", "d", "e", "f"]) ∧
    ∃ product outA outB outC,
      matmulF32 [1, 2, 3, 4, 5, 6] [10, 100, 1000] [7, 7] 2 3 1 = .ok product ∧
      transposeF32 product [0, 0] 2 1 = .ok outC ∧
      transposeF32 [1, 2, 3, 4, 5, 6] [0, 0, 0, 0, 0, 0] 2 3 = .ok outA ∧
      transposeF32 [10, 100, 1000] [0, 0, 0] 3 1 = .ok outB ∧
      matmulF32 outB.cells outA.cells [7, 7] 1 3 2 = .ok outC.cells := by
  obtain ⟨hshape, hproduct⟩ := transpose_laws (α := String) (β := Nat)
  refine ⟨?_, ?_⟩
  · obtain ⟨out, again, hout, hperm, -, hentry, hagain, hundo⟩ := hshape 2 3
      ⟨["a", "b", "c", "d", "e", "f"], by decide⟩ ⟨["", "", "", "", "", ""], by decide⟩
      ⟨["", "", "", "", "", ""], by decide⟩ rfl rfl rfl
    exact ⟨out, again, hout, hperm, hentry 0 2 (by decide) (by decide), hagain, hundo⟩
  · exact hproduct 2 3 1 ⟨[1, 2, 3, 4, 5, 6], by decide⟩ ⟨[10, 100, 1000], by decide⟩
      ⟨[7, 7], by decide⟩ ⟨[0, 0, 0, 0, 0, 0], by decide⟩ ⟨[0, 0, 0], by decide⟩
      ⟨[0, 0], by decide⟩ ⟨[7, 7], by decide⟩ rfl rfl rfl rfl rfl rfl rfl

end Pepita.Simd
