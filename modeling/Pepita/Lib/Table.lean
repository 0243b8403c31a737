import Mathlib.Data.List.AList
import Mathlib.Data.Set.Card
import Mathlib.Tactic

set_option autoImplicit false

/-! # Weighted totals of finite maps

A finite map as an association list without repeated keys (`AList`), and the sum of a weight over
its values. An insertion or an erasure changes the total by the weight of the value that comes in
and the value that goes out, whatever the weight is.
-/

namespace AList

section Totals

variable {α β : Type*}

/-- The sum of `w` over the values of the map. -/
def total (w : β → Nat) (t : AList fun _ : α => β) : Nat := (t.entries.map fun e => w e.2).sum

/-- The number of keys. -/
def size (t : AList fun _ : α => β) : Nat := t.keys.length

theorem total_empty (w : β → Nat) : total w (∅ : AList fun _ : α => β) = 0 := rfl

theorem size_eq_total (t : AList fun _ : α => β) : t.size = total (fun _ => 1) t := by
  unfold size total AList.keys List.keys
  simp

theorem eq_empty_of_size {t : AList fun _ : α => β} (h : t.size = 0) : t = ∅ := by
  apply AList.ext
  exact List.map_eq_nil_iff.mp (List.length_eq_zero_iff.mp h)

end Totals

variable {α β : Type*} [DecidableEq α] {t : AList fun _ : α => β} {a : α} {b : β}

theorem total_erase (w : β → Nat) (h : t.lookup a = some b) :
    total w (t.erase a) + w b = total w t := by
  have hmem : a ∈ t.entries.keys := mem_keys.mp (lookup_isSome.mp (by rw [h]; rfl))
  -- the one entry with this key, and what stands before and after it
  obtain ⟨b', l₁, l₂, hnot, hl, herase⟩ := List.exists_of_kerase hmem
  have hb : b' = b := by
    have hin : Sigma.mk a b' ∈ t.entries := by rw [hl]; simp
    exact Option.some_inj.mp ((mem_lookup_iff.mpr hin).symm.trans h)
  show ((t.entries.kerase a).map fun e => w e.2).sum + w b = (t.entries.map fun e => w e.2).sum
  rw [herase, hl, hb]
  simp only [List.map_append, List.map_cons, List.sum_append, List.sum_cons]
  omega

theorem erase_of_lookup_none (h : t.lookup a = none) : t.erase a = t := by
  apply AList.ext
  exact List.kerase_of_notMem_keys (mt mem_keys.mpr (lookup_eq_none.mp h))

theorem total_insert (w : β → Nat) : total w (t.insert a b) = w b + total w (t.erase a) := by
  unfold total
  rw [entries_insert, List.map_cons, List.sum_cons]
  rfl

/-- A value under a new key adds its weight. -/
theorem total_insert_of_none (w : β → Nat) (h : t.lookup a = none) :
    total w (t.insert a b) = w b + total w t := by
  rw [total_insert, erase_of_lookup_none h]

/-- A value under a key in use takes the place of another. -/
theorem total_insert_of_some (w : β → Nat) {c : β} (h : t.lookup a = some c) :
    total w (t.insert a b) + w c = w b + total w t := by
  rw [total_insert, ← total_erase w h]
  omega

theorem total_le {w : β → Nat} {k : Nat} (h : ∀ a b, t.lookup a = some b → w b ≤ k) :
    total w t ≤ t.size * k := by
  have hsum := List.sum_le_card_nsmul (t.entries.map fun e => w e.2) k (by
    intro n hn
    obtain ⟨⟨a, b⟩, he, rfl⟩ := List.mem_map.mp hn
    exact h a b (mem_lookup_iff.mpr he))
  simpa [total, size, AList.keys, List.keys] using hsum

theorem lookup_foldl_erase (ks : List α) : ∀ t : AList fun _ : α => β,
    (ks.foldl (fun t k => t.erase k) t).lookup a = if a ∈ ks then none else t.lookup a := by
  induction ks with
  | nil => intro t; rfl
  | cons k ks ih =>
      intro t
      rw [List.foldl_cons, ih]
      by_cases hk : a = k
      · rw [hk, lookup_erase, ite_self, if_pos List.mem_cons_self]
      · rw [lookup_erase_ne hk]
        simp only [List.mem_cons, hk, false_or]

theorem eq_empty_of_lookup (h : ∀ a, t.lookup a = none) : t = ∅ := by
  apply AList.ext
  refine List.eq_nil_iff_forall_not_mem.mpr fun ⟨a, b⟩ he => ?_
  have hsome := mem_lookup_iff.mpr he
  rw [h a] at hsome
  cases hsome

/-- A map with keys below `n` has at most `n` of them. -/
theorem size_le {f : α → Nat} {n : Nat} (hf : Function.Injective f)
    (h : ∀ a b, t.lookup a = some b → f a < n) : t.size ≤ n := by
  have hcard : t.keys.toFinset.card ≤ (Finset.range n).card := by
    refine Finset.card_le_card_of_injOn f ?_ hf.injOn
    intro a ha
    obtain ⟨b, hb⟩ := Option.isSome_iff_exists.mp
      (lookup_isSome.mpr (mem_keys.mpr (List.mem_toFinset.mp ha)))
    exact Finset.mem_coe.mpr (Finset.mem_range.mpr (h a b hb))
  rwa [List.toFinset_card_of_nodup t.keys_nodup, Finset.card_range] at hcard

/-- The number of keys is the number of indices with a value. -/
theorem size_eq_ncard (t : AList fun _ : α => β) : t.size = {a | (t.lookup a).isSome}.ncard := by
  have hset : {a | (t.lookup a).isSome} = (t.keys.toFinset : Set α) := by
    ext a
    simp [lookup_isSome, mem_keys]
  rw [hset, Set.ncard_coe_finset, List.toFinset_card_of_nodup t.keys_nodup]
  rfl

end AList
