import Pepita.Lib.ForLoop

set_option autoImplicit false

/-! # Element-wise vector operations

`SimdOps` of `simd.rs`: addition and multiplication of slices. Which of the kernels runs depends on
the target, on the capabilities of the CPU and on the length. A kernel handles as many whole vectors
as there are, through raw pointers, and the rest one by one. Every one of them leaves the scalar
result, whatever the output held before (`simdOps_eq_zipWith`).

A load or store through a pointer that leaves its slice is undefined in the source; here it is a
panic, so a result `ok` says that there was none. An intrinsic acts on its lanes one by one.
Elements are of any type, and their operations have no laws. Offsets stay below a length, so no word
wraps.
-/

namespace Pepita.Simd

/-- The targets the code distinguishes (`target_arch`). -/
inductive Arch where
  | x86_64
  | aarch64
  | other
  deriving DecidableEq, Repr

/-- `SimdCapabilities`. -/
structure SimdCapabilities where
  sse41 : Bool
  sse42 : Bool
  avx : Bool
  avx2 : Bool
  fma : Bool
  avx512f : Bool
  avx512vl : Bool
  neon : Bool
  deriving DecidableEq, Repr

/-- `SimdOps`. -/
structure SimdOps where
  caps : SimdCapabilities
  deriving DecidableEq, Repr

/-! ## The kernels -/

section Kernels

variable {α : Type}

/-- `c[i] = a[i] op b[i]`. -/
def scalarStep (op : α → α → α) (a b : List α) (i : Nat) (c : List α) :
    Outcome Empty (List α) := do
  let x ← .orPanic a[i]?
  let y ← .orPanic b[i]?
  .orPanic (setAt c i (op x y))

/-- `for i in start..a.len() { c[i] = a[i] op b[i] }`. -/
def scalarLoop (op : α → α → α) (a b : List α) (start : Nat) (c : List α) :
    Outcome Empty (List α) :=
  forEach (List.range' start (a.length - start)) (scalarStep op a b) c

/-- Load a vector from `a` and from `b`, combine them lane by lane, and store the result. -/
def vectorStep (lanes : Nat) (op : α → α → α) (a b : List α) (i : Nat) (c : List α) :
    Outcome Empty (List α) := do
  let offset := i * lanes
  let va ← .orPanic (slice a offset (offset + lanes))
  let vb ← .orPanic (slice b offset (offset + lanes))
  .orPanic (copyInto c offset (offset + lanes) (List.zipWith op va vb))

/-- A kernel for vectors of `lanes` elements: the whole vectors, then the remainder. -/
def kernel (lanes : Nat) (op : α → α → α) (a b c : List α) : Outcome Empty (List α) := do
  let chunks := a.length / lanes
  let c ← forEach (List.range' 0 chunks) (vectorStep lanes op a b) c
  let start := chunks * lanes
  scalarLoop op a b start c

end Kernels

section Members

variable {F32 F64 : Type} [Add F32] [Mul F32] [Add F64]

def vaddF32Scalar (a b c : List F32) : Outcome Empty (List F32) := scalarLoop (· + ·) a b 0 c

def vaddF64Scalar (a b c : List F64) : Outcome Empty (List F64) := scalarLoop (· + ·) a b 0 c

def vmulF32Scalar (a b c : List F32) : Outcome Empty (List F32) := scalarLoop (· * ·) a b 0 c

def vaddF32Avx512 (a b c : List F32) : Outcome Empty (List F32) := kernel 16 (· + ·) a b c

def vaddF64Avx512 (a b c : List F64) : Outcome Empty (List F64) := kernel 8 (· + ·) a b c

def vmulF32Avx512 (a b c : List F32) : Outcome Empty (List F32) := kernel 16 (· * ·) a b c

def vaddF32Avx2 (a b c : List F32) : Outcome Empty (List F32) := kernel 8 (· + ·) a b c

def vaddF64Avx2 (a b c : List F64) : Outcome Empty (List F64) := kernel 4 (· + ·) a b c

def vmulF32Avx2 (a b c : List F32) : Outcome Empty (List F32) := kernel 8 (· * ·) a b c

def vaddF32Sse (a b c : List F32) : Outcome Empty (List F32) := kernel 4 (· + ·) a b c

def vaddF32Neon (a b c : List F32) : Outcome Empty (List F32) := kernel 4 (· + ·) a b c

/-! ## Dispatch -/

namespace SimdOps

/-- `vadd_f32`. -/
def vaddF32 (arch : Arch) (s : SimdOps) (a b c : List F32) : Outcome Empty (List F32) :=
  if a.length ≠ b.length ∨ a.length ≠ c.length then .panic
  else
    match arch with
    | .x86_64 =>
        if s.caps.avx512f ∧ a.length ≥ 16 then vaddF32Avx512 a b c
        else if s.caps.avx2 ∧ a.length ≥ 8 then vaddF32Avx2 a b c
        else if s.caps.sse42 ∧ a.length ≥ 4 then vaddF32Sse a b c
        else vaddF32Scalar a b c
    | .aarch64 =>
        if s.caps.neon ∧ a.length ≥ 4 then vaddF32Neon a b c
        else vaddF32Scalar a b c
    | .other => vaddF32Scalar a b c

/-- `vadd_f64`. -/
def vaddF64 (arch : Arch) (s : SimdOps) (a b c : List F64) : Outcome Empty (List F64) :=
  if a.length ≠ b.length ∨ a.length ≠ c.length then .panic
  else
    match arch with
    | .x86_64 =>
        if s.caps.avx512f ∧ a.length ≥ 8 then vaddF64Avx512 a b c
        else if s.caps.avx2 ∧ a.length ≥ 4 then vaddF64Avx2 a b c
        else vaddF64Scalar a b c
    | .aarch64 => vaddF64Scalar a b c
    | .other => vaddF64Scalar a b c

/-- `vmul_f32`. -/
def vmulF32 (arch : Arch) (s : SimdOps) (a b c : List F32) : Outcome Empty (List F32) :=
  if a.length ≠ b.length ∨ a.length ≠ c.length then .panic
  else
    match arch with
    | .x86_64 =>
        if s.caps.avx512f ∧ a.length ≥ 16 then vmulF32Avx512 a b c
        else if s.caps.avx2 ∧ a.length ≥ 8 then vmulF32Avx2 a b c
        else vmulF32Scalar a b c
    | .aarch64 => vmulF32Scalar a b c
    | .other => vmulF32Scalar a b c

end SimdOps

end Members

/-! ## Every kernel gives the scalar result -/

section Correct

variable {α : Type}

/-- The first `i` elements of the output `c` are done, the rest is what the output held. -/
def Done (op : α → α → α) (a b held : List α) (i : Nat) (c : List α) : Prop :=
  c = (List.zipWith op a b).take i ++ held.drop i

variable {op : α → α → α} {a b held : List α}

theorem Done.zero : Done op a b held 0 held := rfl

/-- Once all elements are done, nothing of the old contents is left. -/
theorem Done.all (hab : a.length = b.length) (hheld : a.length = held.length) {c : List α}
    (h : Done op a b held a.length c) : c = List.zipWith op a b := by
  rw [h, List.take_of_length_le (by simp [← hab]), List.drop_of_length_le hheld.ge,
    List.append_nil]

/-- The length does not change, so the next store is inside the slice. -/
theorem Done.length (hab : a.length = b.length) (hheld : a.length = held.length) {i : Nat}
    {c : List α} (h : Done op a b held i c) : c.length = a.length := by
  rw [h, List.length_append, List.length_take, List.length_drop, List.length_zipWith]
  omega

/-- A vector is done, wherever it starts. -/
theorem Done.store (hab : a.length = b.length) (hheld : a.length = held.length) {lo lanes : Nat}
    (hle : lo + lanes ≤ a.length) {c : List α} (h : Done op a b held lo c) :
    ∃ c', copyInto c lo (lo + lanes)
        (List.zipWith op ((a.drop lo).take lanes) ((b.drop lo).take lanes)) = some c' ∧
      Done op a b held (lo + lanes) c' := by
  have hlen := h.length hab hheld
  rw [← List.take_zipWith, ← List.drop_zipWith]
  have hstored : (((List.zipWith op a b).drop lo).take lanes).length = lo + lanes - lo := by
    rw [List.length_take, List.length_drop, List.length_zipWith]
    omega
  refine ⟨_, copyInto_of_le (Nat.le_add_right _ _) (by omega) hstored, ?_⟩
  have hlo : ((List.zipWith op a b).take lo).length = lo := by
    rw [List.length_take, List.length_zipWith]
    omega
  unfold Done at h ⊢
  rw [h, List.take_left' hlo, ← List.take_add, ← List.drop_drop, List.drop_left' hlo,
    List.drop_drop]

/-- A scalar step is the case of one lane. -/
theorem Done.scalarStep (hab : a.length = b.length) (hheld : a.length = held.length) {i : Nat}
    (hi : i < a.length) {c : List α} (h : Done op a b held i c) :
    ∃ c', scalarStep op a b i c = .ok c' ∧ Done op a b held (i + 1) c' := by
  have hib : i < b.length := by omega
  have hone : i + 1 ≤ a.length := hi
  obtain ⟨c', hstore, hdone⟩ := h.store hab hheld hone
  rw [List.drop_eq_getElem_cons hi, List.drop_eq_getElem_cons hib] at hstore
  simp only [List.take_succ_cons, List.take_zero, List.zipWith_cons_cons,
    List.zipWith_nil_left] at hstore
  refine ⟨c', ?_, hdone⟩
  unfold Simd.scalarStep
  rw [List.getElem?_eq_getElem hi, List.getElem?_eq_getElem hib]
  simp only [Outcome.orPanic_some, Outcome.ok_bind]
  rw [setAt_eq_copyInto, hstore, Outcome.orPanic_some]

theorem Done.vectorStep (hab : a.length = b.length) (hheld : a.length = held.length)
    {lanes i : Nat} (hi : (i + 1) * lanes ≤ a.length) {c : List α}
    (h : Done op a b held (i * lanes) c) :
    ∃ c', vectorStep lanes op a b i c = .ok c' ∧ Done op a b held ((i + 1) * lanes) c' := by
  rw [Nat.succ_mul] at hi ⊢
  obtain ⟨c', hstore, hdone⟩ := h.store hab hheld hi
  refine ⟨c', ?_, hdone⟩
  unfold Simd.vectorStep
  dsimp only
  rw [slice_of_le (Nat.le_add_right _ _) hi, slice_of_le (Nat.le_add_right _ _) (hab ▸ hi),
    Nat.add_sub_cancel_left]
  simp only [Outcome.orPanic_some, Outcome.ok_bind]
  rw [hstore, Outcome.orPanic_some]

/-- The scalar loop does what is left to do. -/
theorem Done.scalarLoop (hab : a.length = b.length) (hheld : a.length = held.length) {start : Nat}
    (hstart : start ≤ a.length) {c : List α} (h : Done op a b held start c) :
    scalarLoop op a b start c = .ok (List.zipWith op a b) := by
  obtain ⟨c', hloop, hdone⟩ := forEach_range (I := Done op a b held) (a.length - start) start c
    (fun i c _ hi hc => hc.scalarStep hab hheld (by omega)) h
  rw [Nat.add_sub_cancel' hstart] at hdone
  rw [Simd.scalarLoop, hloop, hdone.all hab hheld]

/-- **Every kernel gives the scalar result**, for any number of lanes and any remainder. -/
theorem kernel_eq_zipWith (lanes : Nat) (hab : a.length = b.length)
    (hheld : a.length = held.length) :
    kernel lanes op a b held = .ok (List.zipWith op a b) := by
  have hchunks : a.length / lanes * lanes ≤ a.length := Nat.div_mul_le_self _ _
  have hinside : ∀ i, i < a.length / lanes → (i + 1) * lanes ≤ a.length := fun i hi =>
    (Nat.mul_le_mul_right lanes hi).trans hchunks
  obtain ⟨c', hloop, hdone⟩ := forEach_range
    (I := fun i c => Done op a b held (i * lanes) c) (a.length / lanes) 0 held
    (fun i c _ hi hc => hc.vectorStep hab hheld (hinside i (by omega)))
    (by simpa using Done.zero)
  rw [Nat.zero_add] at hdone
  simp only [kernel, hloop, Outcome.ok_bind]
  exact hdone.scalarLoop hab hheld hchunks

theorem scalarLoop_eq_zipWith (hab : a.length = b.length) (hheld : a.length = held.length) :
    scalarLoop op a b 0 held = .ok (List.zipWith op a b) :=
  Done.zero.scalarLoop hab hheld (Nat.zero_le _)

end Correct

section Dispatch

variable {F32 F64 : Type}

theorem SimdOps.vaddF32_eq [Add F32] (arch : Arch) (s : SimdOps) {a b c : List F32}
    (hab : a.length = b.length) (hac : a.length = c.length) :
    s.vaddF32 arch a b c = .ok (List.zipWith (· + ·) a b) := by
  unfold vaddF32
  rw [if_neg (by simp [← hab, ← hac])]
  cases arch with
  | x86_64 =>
      dsimp only
      split_ifs
      · exact kernel_eq_zipWith 16 hab hac
      · exact kernel_eq_zipWith 8 hab hac
      · exact kernel_eq_zipWith 4 hab hac
      · exact scalarLoop_eq_zipWith hab hac
  | aarch64 =>
      dsimp only
      split_ifs
      · exact kernel_eq_zipWith 4 hab hac
      · exact scalarLoop_eq_zipWith hab hac
  | other => exact scalarLoop_eq_zipWith hab hac

theorem SimdOps.vaddF64_eq [Add F64] (arch : Arch) (s : SimdOps) {a b c : List F64}
    (hab : a.length = b.length) (hac : a.length = c.length) :
    s.vaddF64 arch a b c = .ok (List.zipWith (· + ·) a b) := by
  unfold vaddF64
  rw [if_neg (by simp [← hab, ← hac])]
  cases arch with
  | x86_64 =>
      dsimp only
      split_ifs
      · exact kernel_eq_zipWith 8 hab hac
      · exact kernel_eq_zipWith 4 hab hac
      · exact scalarLoop_eq_zipWith hab hac
  | aarch64 => exact scalarLoop_eq_zipWith hab hac
  | other => exact scalarLoop_eq_zipWith hab hac

theorem SimdOps.vmulF32_eq [Mul F32] (arch : Arch) (s : SimdOps) {a b c : List F32}
    (hab : a.length = b.length) (hac : a.length = c.length) :
    s.vmulF32 arch a b c = .ok (List.zipWith (· * ·) a b) := by
  unfold vmulF32
  rw [if_neg (by simp [← hab, ← hac])]
  cases arch with
  | x86_64 =>
      dsimp only
      split_ifs
      · exact kernel_eq_zipWith 16 hab hac
      · exact kernel_eq_zipWith 8 hab hac
      · exact scalarLoop_eq_zipWith hab hac
  | aarch64 => exact scalarLoop_eq_zipWith hab hac
  | other => exact scalarLoop_eq_zipWith hab hac

/-- **The vector operations are the scalar ones.** On every target, with every set of capabilities
and for every length, no access leaves the slices, and the output is the element-wise result,
whatever it held before. -/
theorem simdOps_eq_zipWith [Add F32] [Mul F32] [Add F64] (arch : Arch) (s : SimdOps)
    (a b c : List F32) (hab : a.length = b.length) (hac : a.length = c.length)
    (x y z : List F64) (hxy : x.length = y.length) (hxz : x.length = z.length) :
    s.vaddF32 arch a b c = .ok (List.zipWith (· + ·) a b) ∧
    s.vmulF32 arch a b c = .ok (List.zipWith (· * ·) a b) ∧
    s.vaddF64 arch x y z = .ok (List.zipWith (· + ·) x y) :=
  ⟨s.vaddF32_eq arch hab hac, s.vmulF32_eq arch hab hac, s.vaddF64_eq arch hxy hxz⟩

end Dispatch

/-- One vector of sixteen and a remainder of three; two vectors of eight and no remainder. -/
theorem simdOps_eq_zipWith_avx512 :
    let s : SimdOps := ⟨⟨true, true, true, true, true, true, true, false⟩⟩
    s.vaddF32 .x86_64 (List.range 19) (List.replicate 19 2) (List.replicate 19 7)
      = .ok (List.range' 2 19) ∧
    s.vaddF64 .x86_64 (List.range 16) (List.replicate 16 3) (List.replicate 16 7)
      = .ok (List.range' 3 16) := by
  intro s
  obtain ⟨hf32, -, hf64⟩ := simdOps_eq_zipWith .x86_64 s (List.range 19) (List.replicate 19 2)
    (List.replicate 19 7) rfl rfl (List.range 16) (List.replicate 16 3) (List.replicate 16 7)
    rfl rfl
  rw [hf32, hf64]
  decide

end Pepita.Simd
