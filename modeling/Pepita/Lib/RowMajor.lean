import Pepita.Lib.Outcome

set_option autoImplicit false

/-! # Row-major order

Entry `(i, j)` of a matrix with `m` rows and `n` columns, kept row after row in one list, is at
index `i * n + j`. The indices are those below `m * n`, each of one entry.
-/

namespace RowMajor

variable {m n : Nat}

theorem index_lt {i j : Nat} (hi : i < m) (hj : j < n) : i * n + j < m * n :=
  calc i * n + j < i * n + n := Nat.add_lt_add_left hj _
    _ = (i + 1) * n := (Nat.succ_mul i n).symm
    _ ≤ m * n := Nat.mul_le_mul_right n hi

/-- Different entries have different indices. -/
theorem index_inj {i j i' j' : Nat} (hj : j < n) (hj' : j' < n) :
    i' * n + j' = i * n + j ↔ i' = i ∧ j' = j := by
  constructor
  · intro h
    have hn : 0 < n := Nat.zero_lt_of_lt hj
    have hdiv := congrArg (· / n) h
    have hmod := congrArg (· % n) h
    simp only [Nat.mul_comm _ n, Nat.mul_add_mod_self_left, Nat.mul_add_div hn,
      Nat.div_eq_of_lt hj, Nat.div_eq_of_lt hj', Nat.mod_eq_of_lt hj, Nat.mod_eq_of_lt hj',
      Nat.add_zero] at hdiv hmod
    exact ⟨hdiv, hmod⟩
  · rintro ⟨rfl, rfl⟩
    rfl

/-- Every index is that of an entry. -/
theorem exists_index {p : Nat} (h : p < m * n) : ∃ i j, i < m ∧ j < n ∧ i * n + j = p := by
  have hn : 0 < n := Nat.pos_of_mul_pos_left (Nat.zero_lt_of_lt h)
  refine ⟨p / n, p % n, ?_, Nat.mod_lt p hn, Nat.div_add_mod' p n⟩
  exact Nat.div_lt_of_lt_mul (by rwa [Nat.mul_comm])

/-- The index as it is computed on words, for a matrix that fits in memory. -/
theorem windex_eq (hmn : m * n < 2 ^ 63) {i j : Nat} (hi : i < m) (hj : j < n) :
    wadd (wmul i n) j = i * n + j := by
  have hlt := index_lt hi hj
  rw [wmul_of_lt (by omega), wadd_of_lt (by omega)]

/-- A matrix is determined by its entries. -/
theorem ext_entries {α : Type*} {xs ys : List α} (hxs : xs.length = m * n)
    (hys : ys.length = m * n)
    (h : ∀ i j, i < m → j < n → xs[i * n + j]? = ys[i * n + j]?) : xs = ys := by
  refine List.ext_getElem? fun p => ?_
  by_cases hp : p < m * n
  · obtain ⟨i, j, hi, hj, rfl⟩ := exists_index hp
    exact h i j hi hj
  · rw [List.getElem?_eq_none (by omega), List.getElem?_eq_none (by omega)]

end RowMajor
