import Mathlib.Tactic

set_option autoImplicit false

/-! # Big-endian words

The `k`-byte big-endian form of a number and its inverse. `fromBe_toBe` and `toBe_fromBe` make
the two a bijection between the numbers below `256 ^ k` and the byte strings of length `k`.
-/

/-- The last `k` base-256 digits of `n`, most significant first. -/
def toBe : Nat → Nat → List UInt8
  | 0, _ => []
  | k + 1, n => toBe k (n / 256) ++ [UInt8.ofNat n]

/-- The number a byte string spells, most significant byte first. -/
def fromBe (bytes : List UInt8) : Nat := bytes.foldl (fun acc b => 256 * acc + b.toNat) 0

@[simp] theorem length_toBe (k : Nat) : ∀ n, (toBe k n).length = k := by
  induction k with
  | zero => intro n; rfl
  | succ k ih => intro n; simp [toBe, ih]

theorem fromBe_snoc (bytes : List UInt8) (b : UInt8) :
    fromBe (bytes ++ [b]) = 256 * fromBe bytes + b.toNat := by
  simp [fromBe, List.foldl_append]

theorem fromBe_toBe (k : Nat) : ∀ n, n < 256 ^ k → fromBe (toBe k n) = n := by
  induction k with
  | zero =>
      intro n h
      rw [Nat.pow_zero] at h
      have hn : n = 0 := by omega
      rw [hn]
      rfl
  | succ k ih =>
      intro n h
      have hdiv : n / 256 < 256 ^ k := by
        rw [Nat.div_lt_iff_lt_mul (by decide), ← Nat.pow_succ]
        exact h
      rw [toBe, fromBe_snoc, ih _ hdiv, UInt8.toNat_ofNat']
      omega

theorem fromBe_lt (bytes : List UInt8) : fromBe bytes < 256 ^ bytes.length := by
  induction bytes using List.reverseRecOn with
  | nil => simp [fromBe]
  | append_singleton bytes b ih =>
      have hb : b.toNat < 256 := b.toNat_lt
      rw [fromBe_snoc, List.length_append, List.length_singleton, Nat.pow_succ]
      omega

theorem toBe_fromBe (bytes : List UInt8) : toBe bytes.length (fromBe bytes) = bytes := by
  induction bytes using List.reverseRecOn with
  | nil => rfl
  | append_singleton bytes b ih =>
      have hb : b.toNat < 256 := b.toNat_lt
      have hdiv : (256 * fromBe bytes + b.toNat) / 256 = fromBe bytes := by omega
      have hmod : UInt8.ofNat (256 * fromBe bytes + b.toNat) = b := by
        rw [← UInt8.toNat_inj, UInt8.toNat_ofNat']
        omega
      rw [List.length_append, List.length_singleton, toBe, fromBe_snoc, hdiv, ih, hmod]

/-! ## Words inside a byte string -/

/-- The number the `k` bytes from index `lo` on spell. The bytes are indexed one by one; `none`
when an index is outside. -/
def wordAt (bytes : List UInt8) (lo k : Nat) : Option Nat :=
  ((List.range' lo k).mapM fun i => bytes[i]?).map fromBe

theorem mapM_getElem?_range' {α : Type*} (l : List α) (k : Nat) :
    ∀ lo, lo + k ≤ l.length →
      (List.range' lo k).mapM (fun i => l[i]?) = some ((l.drop lo).take k) := by
  induction k with
  | zero => intro lo _; simp
  | succ k ih =>
      intro lo h
      have hlo : lo < l.length := by omega
      rw [List.range'_succ, List.mapM_cons, ih (lo + 1) (by omega), List.getElem?_eq_getElem hlo,
        List.drop_eq_getElem_cons hlo]
      rfl

theorem mapM_getElem?_range'_eq_none {α : Type*} (l : List α) (k : Nat) :
    ∀ lo, l.length < lo + k → 0 < k → (List.range' lo k).mapM (fun i => l[i]?) = none := by
  induction k with
  | zero => intro lo _ h; omega
  | succ k ih =>
      intro lo h _
      rw [List.range'_succ, List.mapM_cons]
      by_cases hlo : lo < l.length
      · rw [ih (lo + 1) (by omega) (by omega), List.getElem?_eq_getElem hlo]
        rfl
      · rw [List.getElem?_eq_none (by omega)]
        rfl

theorem wordAt_eq_none {bytes : List UInt8} {lo k : Nat} (h : bytes.length < lo + k)
    (hk : 0 < k) : wordAt bytes lo k = none := by
  rw [wordAt, mapM_getElem?_range'_eq_none bytes k lo h hk]
  rfl

/-- A word is read back from where it was written. -/
theorem wordAt_append (before rest : List UInt8) {lo k n : Nat} (hlo : before.length = lo)
    (hn : n < 256 ^ k) : wordAt (before ++ (toBe k n ++ rest)) lo k = some n := by
  rw [wordAt, mapM_getElem?_range' _ k lo (by simp; omega), ← hlo, List.drop_left,
    List.take_left' (length_toBe k n)]
  exact congrArg some (fromBe_toBe k n hn)

theorem wordAt_zero (rest : List UInt8) {k n : Nat} (hn : n < 256 ^ k) :
    wordAt (toBe k n ++ rest) 0 k = some n := wordAt_append [] rest rfl hn

/-- A byte is read back from where it was written. -/
theorem getElem?_append_cons {α : Type*} (before rest : List α) {lo : Nat} {a : α}
    (hlo : before.length = lo) : (before ++ a :: rest)[lo]? = some a := by
  rw [← hlo, List.getElem?_append_right (le_refl _), Nat.sub_self, List.getElem?_cons_zero]

/-- A string that is long enough starts with a word. -/
theorem exists_toBe_append {bytes : List UInt8} {k : Nat} (h : k ≤ bytes.length) :
    ∃ n rest, n < 256 ^ k ∧ bytes = toBe k n ++ rest := by
  have hlen : (bytes.take k).length = k := by rw [List.length_take]; omega
  have hbe := toBe_fromBe (bytes.take k)
  have hlt := fromBe_lt (bytes.take k)
  rw [hlen] at hbe hlt
  refine ⟨fromBe (bytes.take k), bytes.drop k, hlt, ?_⟩
  rw [hbe, List.take_append_drop]
