import Pepita.Zram.Stream

set_option autoImplicit false

/-! # How long a block can be

Two bounds on the LZ4 code of `zram.rs`, one for each direction.

* `lz4Block_length_le`: the encoder writes at most one byte in 255 more than it is given, and two.
  Every sequence pays for its token and its offset with the four bytes its match saves at least, so
  only the lengths of long literal runs add up.
* `decompressLz4_le`: no input, whoever made it, is decoded to more than 255 times its length.
-/

namespace Pepita.Zram

open Lz77

/-! ## The encoder -/

theorem length_extendedLength (n : Nat) : (extendedLength n).length = n / 255 + 1 := by
  induction n using extendedLength.induct with
  | case1 n h ih =>
      rw [extendedLength, dif_pos h, List.length_cons, ih]
      omega
  | case2 n h =>
      rw [extendedLength, dif_neg h, List.length_singleton, Nat.div_eq_of_lt (by omega)]

theorem length_lengthBytes_le_div (len : Nat) : (lengthBytes len).length ≤ len / 255 + 1 := by
  unfold lengthBytes
  split_ifs with h
  · rw [length_extendedLength]
    omega
  · exact Nat.zero_le _

/-- The length of a match takes fewer bytes than the match saves. -/
theorem length_lengthBytes_match {matchLen : Nat} (h : 4 ≤ matchLen) :
    (lengthBytes (matchLen - 4)).length + 4 ≤ matchLen := by
  unfold lengthBytes
  split_ifs with h15
  · rw [length_extendedLength]
    omega
  · exact h

/-- A sequence adds at most one byte for each 255 literals to what it stands for. -/
theorem length_emit_le_div {q : Seq UInt8} (h : Encodable q) :
    (emit q).length ≤ q.literals.length + q.matchLen + q.literals.length / 255 := by
  have hlits := length_lengthBytes_le_div q.literals.length
  have hmatch := length_lengthBytes_match h.2
  simp only [emit, lz4EmitSequence, List.length_append, List.length_cons, List.length_nil]
  omega

/-- The induction is on the sequences; `acc` is the text before them. -/
theorem length_flatMap_emit_le_div (qs : List (Seq UInt8)) : ∀ acc : List UInt8,
    Chain acc qs → (∀ q ∈ qs, Encodable q) →
    (qs.flatMap emit).length + acc.length + acc.length / 255
      ≤ (qs.foldl Seq.expand acc).length + (qs.foldl Seq.expand acc).length / 255 := by
  induction qs with
  | nil =>
      intro acc _ _
      rw [List.flatMap_nil, List.foldl_nil, List.length_nil, Nat.zero_add]
  | cons q qs ih =>
      intro acc hchain henc
      have hexp := hchain.1.length_expand
      have hq := length_emit_le_div (henc q (by simp))
      have hqs := ih _ hchain.2 fun p hp => henc p (List.mem_cons_of_mem q hp)
      rw [List.flatMap_cons, List.foldl_cons, List.length_append]
      omega

theorem length_emitLast_le (last : List UInt8) :
    (emitLast last).length ≤ last.length + last.length / 255 + 2 := by
  have hle := length_lengthBytes_le_div last.length
  unfold emitLast
  split_ifs
  · exact Nat.zero_le _
  · simp only [lz4EmitLiteralsOnly, List.length_append, List.length_cons]
    omega

theorem length_emitBlock_le_div {b : Block UInt8} (h : WellFormed b) :
    (emitBlock b).length ≤ b.expand.length + b.expand.length / 255 + 2 := by
  have hseqs := length_flatMap_emit_le_div b.seqs [] h.chain h.encodable
  have hlast := length_emitLast_le b.last
  rw [List.length_nil] at hseqs
  rw [emitBlock, Block.expand, List.length_append, List.length_append]
  omega

/-! ## The decoder -/

theorem lengthOf_le (n : Nat) (field : List UInt8) : lengthOf n field ≤ n + 255 * field.length :=
  (Nat.mod_le _ _).trans (Nat.add_le_add_left (sum_toNat_le field) n)

/-- **Bytes stand for at most 255 times as many.** A token and an offset bring no more than 34, and
each byte of a length at most 255. -/
theorem Reads.length_le {bytes acc text : List UInt8} (h : Reads bytes acc text) :
    text.length ≤ acc.length + 255 * bytes.length := by
  induction h with
  | nil => exact Nat.le_add_right _ _
  | last hfield hlits =>
      rw [List.length_append, List.length_cons, List.length_append]
      omega
  | @seq token lo hi field lits field' rest acc text hfield hlits hfield' hfits hrest ih =>
      have hexp := hfits.length_expand
      have hmatch := lengthOf_le (token.toNat % 16 + 4) field'
      rw [hexp] at ih
      have htext : text.length
          ≤ acc.length + lits.length + lengthOf (token.toNat % 16 + 4) field' + 255 * rest.length := ih
      simp only [List.length_cons, List.length_append]
      omega

/-- **The size of a block.** For every input the encoder writes a block that is at most one byte in
255 and two bytes longer than the input, and at least a 255th of it. What `compress_lz4` returns is
the input itself below 16 bytes, and else the shorter of input and block, so it never expands. -/
theorem lz4Block_length_le (x : ByteSlice) :
    ∃ y z, lz4Block x.1 = .ok y ∧ compressLz4 x.1 = .ok z ∧
      y.length ≤ x.1.length + x.1.length / 255 + 2 ∧ x.1.length ≤ 255 * y.length ∧
      (z = if x.1.length < 16 ∨ x.1.length ≤ y.length then x.1 else y) ∧
      z.length ≤ x.1.length := by
  obtain ⟨b, hb, hwf, hexp⟩ := lz4Block_eq x.1
  have hle := length_emitBlock_le_div hwf
  have hreads := (reads_emitBlock hwf (by rw [hexp]; exact x.2.trans (by decide))).length_le
  rw [hexp] at hle hreads
  rw [List.length_nil, Nat.zero_add] at hreads
  by_cases hstored : StoredAsBlock x.1
  · obtain ⟨hlen, y, hy, hlt⟩ := hstored
    have heq : y = emitBlock b := Outcome.ok.inj (hy.symm.trans hb)
    subst heq
    refine ⟨_, _, hb, compressLz4_of_lz4Block hlen hb hlt, hle, hreads, ?_, by omega⟩
    rw [if_neg (by omega)]
  · refine ⟨_, _, hb, compressLz4_of_not_storedAsBlock hstored, hle, hreads, ?_, le_rfl⟩
    -- a long input is returned when its block is not shorter
    rw [if_pos]
    by_contra hno
    exact hstored ⟨by omega, _, hb, by omega⟩

/-- **No decompression bomb.** Whatever the input, the decoder reports at most 255 times as many
bytes. -/
theorem decompressLz4_le (input buffer : ByteSlice) (n : Nat) (out : List UInt8)
    (h : decompressLz4 input.1 buffer.1 = (.ok n, out)) : n ≤ 255 * input.1.length := by
  obtain ⟨text, hreads, -, rfl, -⟩ := (decompressLz4_eq_ok_iff (input.2.trans (by decide))
    (buffer.2.trans (by decide))).mp h
  have hle := hreads.length_le
  rwa [List.length_nil, Nat.zero_add] at hle

/-- One literal and a match of eight bytes, in four. -/
theorem decompressLz4_le_match :
    decompressLz4 [0x14, 7, 1, 0] (List.replicate 10 0) = (.ok 9, [7, 7, 7, 7, 7, 7, 7, 7, 7, 0]) ∧
      9 ≤ 255 * 4 := by
  have h : decompressLz4 [0x14, 7, 1, 0] (List.replicate 10 0)
      = (.ok 9, [7, 7, 7, 7, 7, 7, 7, 7, 7, 0]) := by decide +kernel
  exact ⟨h, decompressLz4_le (.ofList [0x14, 7, 1, 0] (by decide))
    (.ofList (List.replicate 10 0) (by decide)) 9 _ h⟩

end Pepita.Zram
