import Mathlib.Data.Set.Card
import Mathlib.Order.Interval.Finset.Nat
import Mathlib.Tactic

set_option autoImplicit false

/-! # Blocks of a fixed size

Numbers cut into blocks of `p`: the block of `a` has the number `a / p` and starts at `a / p * p`.
The blocks that an interval meets are counted exactly (`ncard_blocks`). They are as many as its
length needs if it starts early enough in its first block (`ncard_blocks_eq_iff`).
-/

namespace Blocks

variable {p : Nat}

/-- The start of a block is the greatest multiple that is not above. -/
theorem isGreatest_floor (hp : 0 < p) (a : Nat) : IsGreatest {x | p ∣ x ∧ x ≤ a} (a / p * p) := by
  refine ⟨⟨Nat.dvd_mul_left p _, Nat.div_mul_le_self a p⟩, ?_⟩
  rintro x ⟨⟨q, rfl⟩, hle⟩
  rw [Nat.mul_comm]
  exact Nat.mul_le_mul_right p ((Nat.le_div_iff_mul_le hp).mpr (by rwa [Nat.mul_comm]))

/-- An interval that is not empty meets the blocks from that of its first number to that of its
last. -/
theorem image_div_Ico (hp : 0 < p) (lo : Nat) {len : Nat} (hlen : 0 < len) :
    (fun x => x / p) '' Set.Ico lo (lo + len) = Set.Icc (lo / p) ((lo + len - 1) / p) := by
  ext q
  constructor
  · rintro ⟨x, ⟨hlo, hhi⟩, rfl⟩
    exact ⟨Nat.div_le_div_right hlo, Nat.div_le_div_right (by omega)⟩
  · rintro ⟨hlo, hhi⟩
    -- the start of block `q`, or the start of the interval if this is inside the block
    refine ⟨max lo (q * p), ⟨le_max_left _ _, ?_⟩, ?_⟩
    · have hstart : q * p ≤ lo + len - 1 := (Nat.le_div_iff_mul_le hp).mp hhi
      omega
    · have hlt : lo < (q + 1) * p := (Nat.div_lt_iff_lt_mul hp).mp (Nat.lt_succ_of_le hlo)
      rw [Nat.succ_mul] at hlt
      refine Nat.div_eq_of_lt_le (le_max_right _ _) ?_
      rw [Nat.succ_mul]
      omega

/-- **How many blocks an interval meets.** -/
theorem ncard_blocks (hp : 0 < p) (lo : Nat) {len : Nat} (hlen : 0 < len) :
    ((fun x => x / p) '' Set.Ico lo (lo + len)).ncard = (lo % p + len - 1) / p + 1 := by
  rw [image_div_Ico hp lo hlen, ← Finset.coe_Icc, Set.ncard_coe_finset, Nat.card_Icc]
  have hsplit : lo + len - 1 = lo % p + len - 1 + lo / p * p := by
    have := Nat.div_add_mod' lo p
    omega
  rw [hsplit, Nat.add_mul_div_right _ _ hp, Nat.add_right_comm, Nat.add_sub_cancel]

/-- The length alone gives the number of blocks exactly if what the last block needs fits behind the
offset of the start. -/
theorem ncard_blocks_eq_iff (hp : 0 < p) (lo : Nat) {len : Nat} (hlen : 0 < len) :
    ((fun x => x / p) '' Set.Ico lo (lo + len)).ncard = (len + p - 1) / p ↔
      lo % p + (len - 1) % p < p := by
  rw [ncard_blocks hp lo hlen]
  have hsplit := Nat.div_add_mod' (len - 1) p
  have hshort : (len + p - 1) / p = (len - 1) / p + 1 := by
    rw [show len + p - 1 = len - 1 + p by omega, Nat.add_div_right _ hp]
  have hlong : (lo % p + len - 1) / p = (lo % p + (len - 1) % p) / p + (len - 1) / p := by
    rw [show lo % p + len - 1 = lo % p + (len - 1) % p + (len - 1) / p * p by omega,
      Nat.add_mul_div_right _ _ hp]
  rw [hshort, hlong, Nat.add_left_inj, Nat.add_eq_right, Nat.div_eq_zero_iff_lt hp]

end Blocks
