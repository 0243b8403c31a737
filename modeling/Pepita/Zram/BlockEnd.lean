import Mathlib.Order.Interval.Finset.Nat
import Pepita.Zram.Complete

set_option autoImplicit false

/-! # How blocks end

The block format asks for the last five bytes to be literals. The encoder looks for no match that
starts in them, but a match that starts before may run into them, and then the block does not end as
the format requires (`EndsAsRequired`).

Such a match is there only if four bytes that reach into the last five stand earlier in the input.
So an input without such a repetition has a block that ends as required; and if the first repetition
of an input runs on to its end, it has not (`endsAsRequired_of_freshEnd`). In between it depends on
what the hash table has kept: a repetition whose source began inside another match, or whose entry
another four bytes have taken, is not found.
-/

namespace Pepita.Zram

/-- The end of block rule: `y`, the block of `x`, is complete and its last sequence is literals
only, with the last five bytes of `x` among them. -/
def EndsAsRequired (x y : List UInt8) : Prop :=
  ∃ last, CompleteBlock y last ∧ x.drop (x.length - 5) <:+ last

/-- The position the hash table proposes as the source of a match. -/
def Encoder.candidate (input : List UInt8) (s : Encoder) : Nat :=
  (s.hashTable (hashIndex input s.ip)).toNat

/-- If the loop finds a match at `s`, the input differs from its source before the match gets into
the last five bytes. -/
def Encoder.LeavesEnd (input : List UInt8) (s : Encoder) : Prop :=
  isMatch input s.ip (s.candidate input) = true →
    ∃ i, s.ip + i ≤ input.length - 5 ∧ input[s.candidate input + i]? ≠ input[s.ip + i]?

/-- A match is extended until the input ends or differs. -/
theorem extendMatch_end (input : List UInt8) (ip refPos matchLen : Nat) :
    ¬ (ip + extendMatch input ip refPos matchLen < input.length ∧
      refPos + extendMatch input ip refPos matchLen < input.length ∧
      input[ip + extendMatch input ip refPos matchLen]?
        = input[refPos + extendMatch input ip refPos matchLen]?) := by
  induction matchLen using extendMatch.induct input ip refPos with
  | case1 matchLen h ih =>
      rw [extendMatch, dif_pos h]
      exact ih
  | case2 matchLen h =>
      rw [extendMatch, dif_neg h]
      exact h

/-- A match stays below a bound exactly if the input differs from the source there. -/
theorem extendMatch_le_iff {input : List UInt8} {ip refPos bound : Nat}
    (hmatch : isMatch input ip refPos = true) (hbound : bound < input.length) :
    ip + extendMatch input ip refPos 4 ≤ bound ↔
      ∃ i, ip + i ≤ bound ∧ input[refPos + i]? ≠ input[ip + i]? := by
  obtain ⟨-, href, -, hip, hagree⟩ := isMatch_iff.mp hmatch
  obtain ⟨-, -, hall⟩ := extendMatch_spec input ip refPos 4 hip hagree
  have hend := extendMatch_end input ip refPos 4
  constructor
  · intro hle
    refine ⟨_, hle, fun heq => hend ⟨by omega, by omega, heq.symm⟩⟩
  · rintro ⟨i, hi, hne⟩
    by_contra hgt
    exact hne (hall i (by omega))

/-! ### The states of the match loop -/

section Loop

variable {input : List UInt8} {s s' : Encoder}

theorem encodePass_ne_stop : encodePass input s ≠ .stop s' := by
  intro h
  unfold encodePass at h
  dsimp only at h
  split_ifs at h
  split at h
  · cases h
  · cases h

/-- What a pass does to the two positions. -/
theorem encodePass_next (h : encodePass input s = .next s') :
    (isMatch input s.ip (s.candidate input) = true ∧
      s'.ip = s.ip + extendMatch input s.ip (s.candidate input) 4 ∧ s'.anchor = s'.ip) ∨
    (isMatch input s.ip (s.candidate input) = false ∧ s'.anchor = s.anchor) := by
  unfold encodePass at h
  dsimp only at h
  split_ifs at h with hmatch
  · split at h
    · cases h
    · cases h
      exact .inl ⟨hmatch, rfl, rfl⟩
  · cases h
    exact .inr ⟨Bool.eq_false_iff.mpr hmatch, rfl⟩

/-- The invariant holds in every state the loop passes through. -/
theorem Encoder.Inv.of_reaches (h : Reaches (Encoder.more input) (encodePass input) .start s) :
    s.Inv input := by
  induction h with
  | refl => exact Encoder.Inv.start input
  | next _ hc hb ih =>
      have hip := of_decide_eq_true hc
      obtain ⟨t, ht, hinv, -⟩ := encodePass_spec ih (by omega)
      rw [hb] at ht
      cases ht
      exact hinv

/-- If no match gets into the last five bytes, the literals that are left over have them. -/
theorem anchor_le_of_leavesEnd (hlen : 5 < input.length)
    (hall : ∀ t, Reaches (Encoder.more input) (encodePass input) .start t →
      t.more input = true → t.LeavesEnd input)
    (h : Reaches (Encoder.more input) (encodePass input) .start s) :
    s.anchor ≤ input.length - 5 := by
  induction h with
  | refl => exact Nat.zero_le _
  | next hreach hc hb ih =>
      rcases encodePass_next hb with ⟨hmatch, hip, hanchor⟩ | ⟨-, hanchor⟩
      · rw [hanchor, hip]
        exact (extendMatch_le_iff hmatch (by omega)).mpr (hall _ hreach hc hmatch)
      · rw [hanchor]
        exact ih

/-- A match that gets into the last five bytes is the last thing the loop does. -/
theorem leavesEnd_of_anchor_le {e : Encoder} (hlen : 5 < input.length)
    (hdone : ∃ fuel, whileLoop (Encoder.more input) (encodePass input) fuel .start = .done e)
    (hanchor : e.anchor ≤ input.length - 5)
    (h : Reaches (Encoder.more input) (encodePass input) .start s) (hc : s.more input = true) :
    s.LeavesEnd input := by
  intro hmatch
  rw [← extendMatch_le_iff hmatch (by omega)]
  by_contra hgt
  -- otherwise the pass takes the loop past its limit, and its anchor with it
  have hip := of_decide_eq_true hc
  obtain ⟨t, ht, -, -⟩ := encodePass_spec (Encoder.Inv.of_reaches h) (by omega)
  rcases encodePass_next ht with ⟨-, hip', hanchor'⟩ | ⟨hno, -⟩
  · have hstop : t.more input = false := decide_eq_false (by omega)
    obtain ⟨fuel, hfuel⟩ := whileLoop_of_reaches (h.next hc ht) hdone
    rw [whileLoop_done hstop] at hfuel
    cases hfuel
    omega
  · rw [hno] at hmatch
    cases hmatch

end Loop

/-- The last bytes of a list are at the end of a later part if that starts early enough. -/
theorem drop_suffix_drop_iff {α : Type*} {x : List α} {i j : Nat} (hi : i < x.length) :
    x.drop i <:+ x.drop j ↔ j ≤ i := by
  constructor
  · intro h
    have hlen := h.length_le
    rw [List.length_drop, List.length_drop] at hlen
    omega
  · intro h
    rw [show i = j + (i - j) by omega, ← List.drop_drop]
    exact List.drop_suffix _ _

/-- A block ends as the format requires exactly if no match the encoder finds runs into the last
five bytes. -/
theorem endsAsRequired_iff (x y : List UInt8) (hy : compressLz4 x = .ok y)
    (hshort : y.length < x.length) :
    EndsAsRequired x y ↔
      ∀ s, Reaches (Encoder.more x) (encodePass x) .start s → s.more x = true →
        s.LeavesEnd x := by
  obtain ⟨h16, y', hblock, hlt⟩ := storedAsBlock_of_compressLz4 hy hshort
  obtain ⟨e, hdone, hinv⟩ := encodeLoop_done x
  obtain ⟨qs, -, -, -, hout⟩ := hinv.written
  have hyblock : y = qs.flatMap emit ++ emitLast (x.drop e.anchor) := by
    have heq : y = y' := Outcome.ok.inj (hy.symm.trans (compressLz4_of_lz4Block h16 hblock hlt))
    rw [heq]
    exact Outcome.ok.inj (hblock.symm.trans (lz4Block_of_done hdone hout))
  -- the last literals are what is left of `x` after the loop, in the only way to read `y`
  have hends : EndsAsRequired x y ↔ e.anchor ≤ x.length - 5 := by
    rw [← drop_suffix_drop_iff (show x.length - 5 < x.length by omega), hyblock]
    have hcomplete := completeBlock_emit (x.drop e.anchor) qs
    constructor
    · rintro ⟨last, hlast, hsuffix⟩
      rw [hcomplete.unique hlast]
      exact hsuffix
    · intro hsuffix
      exact ⟨_, hcomplete, hsuffix⟩
  rw [hends]
  obtain ⟨hreach, -⟩ := reaches_of_whileLoop_done (fun s t => encodePass_ne_stop) _ _ hdone
  constructor
  · intro hanchor s hs hc
    exact leavesEnd_of_anchor_le (by omega) ⟨_, hdone⟩ hanchor hs hc
  · intro hall
    exact anchor_le_of_leavesEnd (by omega) hall hreach

/-! ## In terms of the input -/

/-- No four bytes that reach into the last five are found to match earlier ones. -/
def FreshEnd (x : List UInt8) : Prop :=
  ∀ i ≤ x.length - 6, x.length - 8 ≤ i → ∀ p < i, isMatch x i p = false

instance (x : List UInt8) : Decidable (FreshEnd x) :=
  inferInstanceAs
    (Decidable (∀ i ≤ x.length - 6, x.length - 8 ≤ i → ∀ p < i, isMatch x i p = false))

/-- The first four bytes that repeat earlier ones, at `ip`, go on like these into the last five
bytes. They are the first by the hash; the bytes at 0 do not count, for their entry in the table
looks like no entry. -/
def RepeatsToEnd (x : List UInt8) : Prop :=
  ∃ ip p, ip < x.length - 5 ∧ isMatch x ip p = true ∧
    (∀ i, ip + i ≤ x.length - 5 → x[p + i]? = x[ip + i]?) ∧
    ∀ q r, 1 ≤ q → q < r → r < ip → hashIndex x q ≠ hashIndex x r

/-- A match that runs into the last five bytes matches four bytes there. -/
theorem leavesEnd_of_freshEnd {x : List UInt8} (hlen : 8 ≤ x.length) (hfresh : FreshEnd x)
    {s : Encoder} (hc : s.more x = true) : s.LeavesEnd x := by
  have hip : s.ip < x.length - 5 := of_decide_eq_true hc
  intro hmatch
  by_contra hno
  have hagree : ∀ i, s.ip + i ≤ x.length - 5 → x[s.candidate x + i]? = x[s.ip + i]? := by
    intro i hi
    by_contra hne
    exact hno ⟨i, hi, hne⟩
  obtain ⟨hpos, hlt, hdist, hend, hfour⟩ := isMatch_iff.mp hmatch
  -- `d` bytes into the match are four bytes that reach just into the last five
  have hshift : ∃ d, x.length - 8 ≤ s.ip + d ∧ s.ip + d ≤ x.length - 6 ∧
      ∀ i < 4, x[s.candidate x + d + i]? = x[s.ip + d + i]? := by
    rcases Nat.lt_or_ge s.ip (x.length - 8) with hlow | hhigh
    · refine ⟨x.length - 8 - s.ip, by omega, by omega, fun i hi => ?_⟩
      rw [Nat.add_assoc, Nat.add_assoc]
      exact hagree _ (by omega)
    · exact ⟨0, by omega, by omega, hfour⟩
  obtain ⟨d, hlow, hhigh, hbytes⟩ := hshift
  have hfound : isMatch x (s.ip + d) (s.candidate x + d) = true :=
    isMatch_iff.mpr ⟨by omega, by omega, by omega, by omega, hbytes⟩
  rw [hfresh (s.ip + d) hhigh hlow (s.candidate x + d) (by omega)] at hfound
  cases hfound

/-! ### The first repetition -/

/-- The hash is of four bytes. -/
theorem lz4Hash_take (l : List UInt8) : lz4Hash (l.take 4) = lz4Hash l := by
  match l with
  | [] => rfl
  | [_] => rfl
  | [_, _] => rfl
  | [_, _, _] => rfl
  | _ :: _ :: _ :: _ :: _ => rfl

theorem hashIndex_of_isMatch {x : List UInt8} {ip p : Nat} (h : isMatch x ip p = true) :
    hashIndex x p = hashIndex x ip := by
  have hfour : (x.drop p).take 4 = (x.drop ip).take 4 :=
    take_drop_eq_iff.mpr (isMatch_iff.mp h).2.2.2.2
  rw [hashIndex, hashIndex, ← lz4Hash_take, hfour, lz4Hash_take]

/-- There are no more positions with different entries than there are entries. -/
theorem le_of_hashIndex_ne {x : List UInt8} {ip : Nat}
    (h : ∀ q r, 1 ≤ q → q < r → r < ip → hashIndex x q ≠ hashIndex x r) : ip ≤ 4097 := by
  have hinj : Set.InjOn (hashIndex x) (Finset.Ico 1 ip) := by
    intro q hq r hr heq
    rw [Finset.coe_Ico, Set.mem_Ico] at hq hr
    rcases Nat.lt_trichotomy q r with hlt | rfl | hlt
    · exact absurd heq (h q r hq.1 hlt hr.2)
    · rfl
    · exact absurd heq.symm (h r q hr.1 hlt hq.2)
  have hcard : ip - 1 ≤ 4096 := by
    calc ip - 1
        = (Finset.Ico 1 ip).card := (Nat.card_Ico 1 ip).symm
      _ ≤ (Finset.univ : Finset (Fin 4096)).card :=
          Finset.card_le_card_of_injOn (hashIndex x) (fun q _ => Finset.mem_univ _) hinj
      _ = 4096 := Finset.card_fin 4096
  omega

/-- The state of the loop at `q`, when it has found no match before: the table has every position
from 1 on, each at its own entry, and nothing else. -/
structure Encoder.Plain (x : List UInt8) (q : Nat) (s : Encoder) : Prop where
  ip : s.ip = q
  kept : ∀ r, 1 ≤ r → r < q → (s.hashTable (hashIndex x r)).toNat = r
  empty : ∀ h, (∀ r, 1 ≤ r → r < q → hashIndex x r ≠ h) → s.hashTable h = 0

/-- Up to the first repetition the loop finds no match. -/
theorem exists_plain {x : List UInt8} {ip : Nat} (hip : ip < x.length - 5)
    (hfirst : ∀ q r, 1 ≤ q → q < r → r < ip → hashIndex x q ≠ hashIndex x r) (q : Nat)
    (hq : q ≤ ip) :
    ∃ s, Reaches (Encoder.more x) (encodePass x) .start s ∧ s.Plain x q := by
  induction q with
  | zero =>
      refine ⟨.start, .refl, rfl, fun r _ hr => absurd hr (Nat.not_lt_zero r), fun _ _ => rfl⟩
  | succ q ih =>
      obtain ⟨s, hreach, hplain⟩ := ih (by omega)
      have hmore : s.more x = true := decide_eq_true (by rw [hplain.ip]; omega)
      -- no earlier position has the entry of `q`, so the table proposes position 0
      have hzero : s.hashTable (hashIndex x q) = 0 :=
        hplain.empty _ fun r h1 hr => hfirst r q h1 hr (by omega)
      have hnone : isMatch x q 0 = false := by
        rw [Bool.eq_false_iff]
        intro hm
        exact absurd (isMatch_iff.mp hm).1 (lt_irrefl 0)
      have hpass : encodePass x s = .next { s with
          ip := q + 1
          hashTable := Function.update s.hashTable (hashIndex x q) (UInt32.ofNat q) } := by
        unfold encodePass
        simp only [hplain.ip, hzero]
        exact if_neg (Bool.eq_false_iff.mp hnone)
      have hle := le_of_hashIndex_ne hfirst
      refine ⟨_, hreach.next hmore hpass, rfl, fun r h1 hr => ?_, fun h hno => ?_⟩
      · show (Function.update s.hashTable (hashIndex x q) (UInt32.ofNat q) _).toNat = r
        rcases Nat.lt_succ_iff_lt_or_eq.mp hr with hr | rfl
        · rw [Function.update_of_ne (hfirst r q h1 hr (by omega))]
          exact hplain.kept r h1 hr
        · rw [Function.update_self]
          exact UInt32.toNat_ofNat_of_lt' (show r < 2 ^ 32 by omega)
      · show Function.update s.hashTable (hashIndex x q) (UInt32.ofNat q) h = 0
        rcases Nat.eq_zero_or_pos q with rfl | hpos
        · by_cases heq : h = hashIndex x 0
          · rw [heq, Function.update_self]
            rfl
          · rw [Function.update_of_ne heq]
            exact hplain.empty h fun r h1 hr => absurd hr (Nat.not_lt_zero r)
        · rw [Function.update_of_ne (hno q hpos (Nat.lt_succ_self q)).symm]
          exact hplain.empty h fun r h1 hr => hno r h1 (Nat.lt_succ_of_lt hr)

/-- The loop finds the first repetition of an input. -/
theorem not_leavesEnd_of_repeatsToEnd {x : List UInt8} (h : RepeatsToEnd x) :
    ∃ s, Reaches (Encoder.more x) (encodePass x) .start s ∧ s.more x = true ∧
      ¬ s.LeavesEnd x := by
  obtain ⟨ip, p, hip, hmatch, hagree, hfirst⟩ := h
  obtain ⟨hpos, hlt, -⟩ := isMatch_iff.mp hmatch
  obtain ⟨s, hreach, hplain⟩ := exists_plain hip hfirst ip le_rfl
  have hcandidate : s.candidate x = p := by
    rw [Encoder.candidate, hplain.ip, ← hashIndex_of_isMatch hmatch]
    exact hplain.kept p hpos hlt
  refine ⟨s, hreach, decide_eq_true (by rw [hplain.ip]; exact hip), fun hleaves => ?_⟩
  rw [Encoder.LeavesEnd, hcandidate, hplain.ip] at hleaves
  obtain ⟨i, hi, hne⟩ := hleaves hmatch
  exact hne (hagree i hi)

/-- The bytes 7 8 9 9 that reach into the last five stand earlier too, but there they begin inside a
match and are not in the table. -/
example :
    let x : List UInt8 := [0, 1, 2, 3, 4, 5, 6, 7, 8, 1, 2, 3, 4, 5, 6, 7, 8, 9, 9, 7, 8, 9, 9,
      0, 0, 0, 0]
    let y : List UInt8 := [0x94, 0, 1, 2, 3, 4, 5, 6, 7, 8, 8, 0, 0xA0, 9, 9, 7, 8, 9, 9,
      0, 0, 0, 0]
    ¬ FreshEnd x ∧ compressLz4 x = .ok y ∧ EndsAsRequired x y := by
  intro x y
  have hblock : CompleteBlock (0x94 :: ([] ++ ([0, 1, 2, 3, 4, 5, 6, 7, 8] ++ 8 :: 0 :: ([] ++
      0xA0 :: ([] ++ [9, 9, 7, 8, 9, 9, 0, 0, 0, 0]))))) [9, 9, 7, 8, 9, 9, 0, 0, 0, 0] :=
    .seq rfl rfl rfl (.last rfl rfl)
  exact ⟨by decide +kernel, by decide +kernel, _, hblock, by decide⟩

end Pepita.Zram
