import Pepita.Lib.Lz77
import Pepita.Zram.Lz4

set_option autoImplicit false

/-! # What the encoder writes

The bytes of a block, and the encoder's side of the round trip: whatever the hash table holds, the
output of the match loop and the final literals is a well-formed block that stands for the input
(`lz4Block_eq`). The table only proposes candidates; each match is compared before it is used.
-/

namespace Pepita.Zram

open Lz77

/-! ## Blocks as bytes -/

/-- The bytes of a sequence. -/
def emit (q : Seq UInt8) : List UInt8 := lz4EmitSequence q.literals q.offset q.matchLen

/-- The bytes of the last literals. No token is written when there are none. -/
def emitLast (literals : List UInt8) : List UInt8 :=
  if literals.isEmpty then [] else lz4EmitLiteralsOnly literals

/-- The bytes of a block. -/
def emitBlock (b : Block UInt8) : List UInt8 := b.seqs.flatMap emit ++ emitLast b.last

/-- The offset fits in two bytes and the match is at least the minimum. -/
def Encodable (q : Seq UInt8) : Prop := q.offset < 65536 ∧ 4 ≤ q.matchLen

/-- A block the format can express and the decoder can follow. -/
structure WellFormed (b : Block UInt8) : Prop where
  chain : Chain [] b.seqs
  encodable : ∀ q ∈ b.seqs, Encodable q

/-! ## Finding a match -/

theorem extendMatch_spec (input : List UInt8) (ip refPos matchLen : Nat)
    (hlen : ip + matchLen ≤ input.length)
    (hagree : ∀ i < matchLen, input[refPos + i]? = input[ip + i]?) :
    matchLen ≤ extendMatch input ip refPos matchLen ∧
    ip + extendMatch input ip refPos matchLen ≤ input.length ∧
    ∀ i < extendMatch input ip refPos matchLen, input[refPos + i]? = input[ip + i]? := by
  induction matchLen using extendMatch.induct input ip refPos with
  | case1 matchLen h ih =>
      have hagree' : ∀ i < matchLen + 1, input[refPos + i]? = input[ip + i]? := by
        intro i hi
        rcases Nat.lt_succ_iff_lt_or_eq.mp hi with hlt | rfl
        · exact hagree i hlt
        · exact h.2.2.symm
      obtain ⟨hle, hend, hall⟩ := ih (by omega) hagree'
      rw [extendMatch, dif_pos h]
      exact ⟨by omega, hend, hall⟩
  | case2 matchLen h =>
      rw [extendMatch, dif_neg h]
      exact ⟨Nat.le_refl _, hlen, hagree⟩

theorem take_drop_eq_iff {α : Type*} {l : List α} {p q n : Nat} :
    (l.drop p).take n = (l.drop q).take n ↔ ∀ i < n, l[p + i]? = l[q + i]? := by
  constructor
  · intro h i hi
    have hget := congrArg (fun l' : List α => l'[i]?) h
    simpa [List.getElem?_take_of_lt, hi] using hget
  · intro h
    apply List.ext_getElem?
    intro i
    by_cases hi : i < n
    · rw [List.getElem?_take_of_lt hi, List.getElem?_take_of_lt hi, List.getElem?_drop,
        List.getElem?_drop, h i hi]
    · rw [List.getElem?_take_eq_none (Nat.not_lt.mp hi),
        List.getElem?_take_eq_none (Nat.not_lt.mp hi)]

/-- What the test is of. -/
theorem isMatch_iff {input : List UInt8} {ip refPos : Nat} :
    isMatch input ip refPos = true ↔
      0 < refPos ∧ refPos < ip ∧ ip - refPos < 65535 ∧ ip + 4 ≤ input.length ∧
        ∀ i < 4, input[refPos + i]? = input[ip + i]? := by
  simp only [isMatch, Bool.and_eq_true, decide_eq_true_eq, beq_iff_eq, ← take_drop_eq_iff]
  constructor
  · rintro ⟨⟨⟨⟨⟨hpos, hlt⟩, hdist⟩, hip⟩, href⟩, heq⟩
    rw [slice_of_le (by omega) href, slice_of_le (by omega) hip, Option.some_inj,
      Nat.add_sub_cancel_left, Nat.add_sub_cancel_left] at heq
    exact ⟨hpos, hlt, hdist, hip, heq⟩
  · rintro ⟨hpos, hlt, hdist, hip, heq⟩
    refine ⟨⟨⟨⟨⟨hpos, hlt⟩, hdist⟩, hip⟩, by omega⟩, ?_⟩
    rw [slice_of_le (by omega) (by omega), slice_of_le (by omega) hip, Nat.add_sub_cancel_left,
      Nat.add_sub_cancel_left, heq]

/-! ## The match loop -/

/-- The invariant of the match loop: the output is the bytes of sequences that stand for the input
up to `anchor`. -/
structure Encoder.Inv (input : List UInt8) (s : Encoder) : Prop where
  anchor_le : s.anchor ≤ s.ip
  ip_le : s.ip ≤ input.length
  written : ∃ qs : List (Seq UInt8), Chain [] qs ∧ (∀ q ∈ qs, Encodable q) ∧
    qs.foldl Seq.expand [] = input.take s.anchor ∧ s.output = qs.flatMap emit

theorem Encoder.Inv.start (input : List UInt8) : Encoder.start.Inv input :=
  ⟨Nat.le_refl 0, Nat.zero_le _, [], trivial, by simp, rfl, rfl⟩

/-- A match that is written out extends the part of the input the output stands for. -/
theorem Encoder.Inv.emit {input : List UInt8} {s : Encoder} (h : s.Inv input) {refPos n : Nat}
    (href : refPos < s.ip) (hdist : s.ip - refPos < 65535) (hn : 4 ≤ n)
    (hend : s.ip + n ≤ input.length)
    (hagree : ∀ i < n, input[refPos + i]? = input[s.ip + i]?) (table : Fin 4096 → UInt32) :
    Encoder.Inv input {
      ip := s.ip + n
      anchor := s.ip + n
      hashTable := table
      output := s.output ++
        lz4EmitSequence ((input.drop s.anchor).take (s.ip - s.anchor)) (s.ip - refPos) n } := by
  obtain ⟨hanchor, hip, qs, hchain, henc, htext, hout⟩ := h
  let q : Seq UInt8 := ⟨(input.drop s.anchor).take (s.ip - s.anchor), s.ip - refPos, n⟩
  have hlits : q.literals.length = s.ip - s.anchor := by
    show ((input.drop s.anchor).take (s.ip - s.anchor)).length = _
    rw [List.length_take, List.length_drop]
    omega
  have hfits : q.Fits (input.take s.anchor) := by
    refine ⟨show 0 < s.ip - refPos by omega, ?_⟩
    rw [List.length_take, hlits]
    show s.ip - refPos ≤ _
    omega
  have hexp : q.expand (input.take s.anchor) = input.take (s.ip + n) := by
    apply Seq.expand_take hanchor rfl (show 0 < s.ip - refPos by omega)
      (show s.ip - refPos ≤ s.ip by omega) hend
    intro i hi
    rw [← hagree i hi]
    show input[s.ip - (s.ip - refPos) + i]? = _
    rw [show s.ip - (s.ip - refPos) = refPos by omega]
  -- the sequences so far and the new one stand for the input up to the end of the match
  refine ⟨Nat.le_refl _, hend, qs ++ [q], ?_, ?_, ?_, ?_⟩
  · exact (chain_snoc q qs []).mpr ⟨hchain, htext ▸ hfits⟩
  · intro p hp
    rcases List.mem_append.mp hp with hp | hp
    · exact henc p hp
    · rw [List.mem_singleton.mp hp]
      exact ⟨show s.ip - refPos < 65536 by omega, hn⟩
  · rw [List.foldl_append, htext]
    exact hexp
  · rw [List.flatMap_append, ← hout]
    show _ = s.output ++ List.flatMap Zram.emit [q]
    rw [List.flatMap_singleton]
    rfl

/-- **One pass of the match loop** keeps the invariant, moves forward and does not panic. -/
theorem encodePass_spec {input : List UInt8} {s : Encoder} (h : s.Inv input)
    (hip : s.ip < input.length) :
    ∃ s', encodePass input s = .next s' ∧ s'.Inv input ∧ s.ip < s'.ip := by
  unfold encodePass
  simp only
  split
  · next hmatch =>
      obtain ⟨-, href, hdist, hend, hagree⟩ := isMatch_iff.mp hmatch
      obtain ⟨hge, hle, hall⟩ := extendMatch_spec input s.ip _ 4 hend hagree
      rw [slice_of_le h.anchor_le h.ip_le]
      exact ⟨_, rfl, h.emit href hdist hge hle hall _, show s.ip < s.ip + _ by omega⟩
  · -- no match: the byte joins the pending literals, nothing is written
    refine ⟨_, rfl, ⟨?_, hip, h.written⟩, Nat.lt_succ_self _⟩
    exact Nat.le_succ_of_le h.anchor_le

/-- The match loop ends, with the invariant. -/
theorem encodeLoop_done (input : List UInt8) :
    ∃ s, whileLoop (Encoder.more input) (encodePass input) (input.length + 1) .start = .done s ∧
      s.Inv input := by
  have hpass : ∀ s : Encoder, s.Inv input → s.more input = true →
      ∃ s', encodePass input s = .next s' ∧ s'.Inv input ∧
        input.length - s'.ip < input.length - s.ip := by
    intro s hs hc
    have hip := of_decide_eq_true hc
    obtain ⟨s', heq, hs', hlt⟩ := encodePass_spec hs (by omega)
    exact ⟨s', heq, hs', by omega⟩
  -- the distance to the end of the input bounds the number of passes
  exact whileLoop_total_next hpass (Encoder.Inv.start input)
    (show input.length - Encoder.start.ip < input.length + 1 from Nat.lt_succ_self _)

/-- The block is the sequences written in the loop, and the rest of the input as literals. -/
theorem lz4Block_of_done {input : List UInt8} {s : Encoder}
    (hdone : whileLoop (Encoder.more input) (encodePass input) (input.length + 1) .start = .done s)
    {qs : List (Seq UInt8)} (hout : s.output = qs.flatMap emit) :
    lz4Block input = .ok (emitBlock ⟨qs, input.drop s.anchor⟩) := by
  unfold lz4Block emitBlock emitLast
  rw [hdone, ← hout]
  simp only [List.isEmpty_iff, List.drop_eq_nil_iff]
  split_ifs with h1 h2 h2
  · omega
  · rfl
  · rw [List.append_nil]
  · omega

/-- **The encoder writes a block that stands for its input.** -/
theorem lz4Block_eq (input : List UInt8) :
    ∃ b : Block UInt8, lz4Block input = .ok (emitBlock b) ∧ WellFormed b ∧ b.expand = input := by
  obtain ⟨s, hdone, hanchor, hip, qs, hchain, henc, htext, hout⟩ := encodeLoop_done input
  refine ⟨⟨qs, input.drop s.anchor⟩, lz4Block_of_done hdone hout, ⟨hchain, henc⟩, ?_⟩
  show qs.foldl Seq.expand [] ++ input.drop s.anchor = input
  rw [htext, List.take_append_drop]

end Pepita.Zram
