import Pepita.Zram.Encoder

set_option autoImplicit false

/-! # The block format

What a string of bytes stands for as a block, said without a decoder: `Reads bytes acc text` holds
when `bytes`, read after the text `acc`, make it `text`. The format allows more than the encoder
writes: a last length byte may be missing at the end of the input, and a block may end after a
match.

The encoder writes bytes that stand for its input (`reads_emitBlock`); the decoder accepts exactly
the bytes that stand for a text (`Zram/Decoder.lean`).
-/

namespace Pepita.Zram

open Lz77

/-! ## Lengths -/

/-- The bytes that extend a length, when `rest` follows: some 255s, then the first byte that is
not 255, unless the input ends before it. -/
inductive Extension : List UInt8 → List UInt8 → Prop where
  | cut : Extension [] []
  | last {b : UInt8} {rest : List UInt8} (h : b ≠ 255) : Extension [b] rest
  | more {field rest : List UInt8} (h : Extension field rest) : Extension (255 :: field) rest

/-- The bytes that belong to a length with the nibble `n`: none, unless the nibble is 15. -/
def LengthField (n : Nat) (field rest : List UInt8) : Prop :=
  if n = 15 then Extension field rest else field = []

/-- The length that starts from `n`, in the 64 bits the code has for it. -/
def lengthOf (n : Nat) (field : List UInt8) : Nat := (n + (field.map UInt8.toNat).sum) % 2 ^ 64

theorem lengthOf_lt (n : Nat) (field : List UInt8) : lengthOf n field < 2 ^ 64 :=
  Nat.mod_lt _ (by decide)

theorem lengthOf_nil {n : Nat} (h : n < 2 ^ 64) : lengthOf n [] = n := Nat.mod_eq_of_lt h

theorem lengthOf_cons (n : Nat) (b : UInt8) (field : List UInt8) :
    lengthOf n (b :: field) = lengthOf (wadd n b.toNat) field := by
  unfold lengthOf wadd
  rw [List.map_cons, List.sum_cons]
  omega

theorem exists_extension (bytes : List UInt8) :
    ∃ field rest, bytes = field ++ rest ∧ Extension field rest := by
  induction bytes with
  | nil => exact ⟨[], [], rfl, .cut⟩
  | cons b bytes ih =>
      by_cases hb : b = 255
      · obtain ⟨field, rest, rfl, hfield⟩ := ih
        exact ⟨255 :: field, rest, by rw [hb, List.cons_append], .more hfield⟩
      · exact ⟨[b], bytes, rfl, .last hb⟩

/-- Every input has a length field in front. -/
theorem exists_lengthField (n : Nat) (bytes : List UInt8) :
    ∃ field rest, bytes = field ++ rest ∧ LengthField n field rest := by
  unfold LengthField
  split_ifs with h
  · exact exists_extension bytes
  · exact ⟨[], bytes, rfl, rfl⟩

theorem sum_toNat_le (field : List UInt8) : (field.map UInt8.toNat).sum ≤ 255 * field.length := by
  induction field with
  | nil => exact Nat.le_refl 0
  | cons b field ih =>
      have hb := b.toNat_lt
      rw [List.map_cons, List.sum_cons, List.length_cons]
      omega

/-- A short length field does not wrap. -/
theorem lengthOf_of_short {n : Nat} {field : List UInt8} (hn : n < 256)
    (hfield : field.length < 2 ^ 55) : lengthOf n field = n + (field.map UInt8.toNat).sum := by
  have hsum := sum_toNat_le field
  exact Nat.mod_eq_of_lt (by omega)

/-! ## Blocks -/

/-- The sequence that some literals, the two bytes of an offset and the bytes of a match length
stand for. -/
def readSeq (token : UInt8) (literals : List UInt8) (lo hi : UInt8) (field : List UInt8) :
    Seq UInt8 where
  literals := literals
  offset := lo.toNat + 256 * hi.toNat
  matchLen := lengthOf (token.toNat % 16 + 4) field

/-- `bytes`, read as a block after the text `acc`, make it `text`. -/
inductive Reads : List UInt8 → List UInt8 → List UInt8 → Prop where
  | nil {acc : List UInt8} : Reads [] acc acc
  | last {token : UInt8} {field lits acc : List UInt8}
      (hfield : LengthField (token.toNat / 16) field lits)
      (hlits : lits.length = lengthOf (token.toNat / 16) field) :
      Reads (token :: (field ++ lits)) acc (acc ++ lits)
  | seq {token lo hi : UInt8} {field lits field' rest acc text : List UInt8}
      (hfield : LengthField (token.toNat / 16) field (lits ++ lo :: hi :: (field' ++ rest)))
      (hlits : lits.length = lengthOf (token.toNat / 16) field)
      (hfield' : LengthField (token.toNat % 16) field' rest)
      (hfits : (readSeq token lits lo hi field').Fits acc)
      (hrest : Reads rest ((readSeq token lits lo hi field').expand acc) text) :
      Reads (token :: (field ++ (lits ++ lo :: hi :: (field' ++ rest)))) acc text

/-- Reading on only adds to the text. -/
theorem Reads.grows {bytes acc text : List UInt8} (h : Reads bytes acc text) :
    acc <+: text := by
  induction h with
  | nil => exact List.prefix_rfl
  | last _ _ => exact List.prefix_append _ _
  | seq _ _ _ _ _ ih => exact ((List.prefix_append _ _).trans (prefix_copyBack _ _ _)).trans ih

/-! ## What the encoder writes -/

theorem nibble_eq (len : Nat) : ∃ i : Fin 16, nibble len = UInt8.ofNat i := by
  unfold nibble
  split_ifs with h
  · exact ⟨15, rfl⟩
  · exact ⟨⟨len, by omega⟩, rfl⟩

theorem token_high (a b : Nat) : (nibble a <<< 4 ||| nibble b).toNat / 16 = (nibble a).toNat := by
  obtain ⟨i, hi⟩ := nibble_eq a
  obtain ⟨j, hj⟩ := nibble_eq b
  rw [hi, hj]
  exact (by decide : ∀ i j : Fin 16, (UInt8.ofNat i <<< 4 ||| UInt8.ofNat j).toNat / 16
    = (UInt8.ofNat i).toNat) i j

theorem token_low (a b : Nat) : (nibble a <<< 4 ||| nibble b).toNat % 16 = (nibble b).toNat := by
  obtain ⟨i, hi⟩ := nibble_eq a
  obtain ⟨j, hj⟩ := nibble_eq b
  rw [hi, hj]
  exact (by decide : ∀ i j : Fin 16, (UInt8.ofNat i <<< 4 ||| UInt8.ofNat j).toNat % 16
    = (UInt8.ofNat j).toNat) i j

theorem token_last (a : Nat) : (nibble a <<< 4).toNat / 16 = (nibble a).toNat := by
  obtain ⟨i, hi⟩ := nibble_eq a
  rw [hi]
  exact (by decide : ∀ i : Fin 16, (UInt8.ofNat i <<< 4).toNat / 16 = (UInt8.ofNat i).toNat) i

theorem toNat_nibble (len : Nat) : (nibble len).toNat = min len 15 := by
  unfold nibble
  split_ifs with h
  · show 15 = _
    omega
  · rw [UInt8.toNat_ofNat_of_lt' (show len < 2 ^ 8 by omega)]
    omega

theorem extension_extendedLength (n : Nat) (rest : List UInt8) :
    Extension (extendedLength n) rest := by
  induction n using extendedLength.induct with
  | case1 n h ih =>
      rw [extendedLength, dif_pos h]
      exact .more ih
  | case2 n h =>
      rw [extendedLength, dif_neg h]
      -- the last length byte is below 255, also when it is 0
      refine .last fun heq => ?_
      have hn := congrArg UInt8.toNat heq
      rw [UInt8.toNat_ofNat_of_lt' (show n < 2 ^ 8 by omega)] at hn
      exact absurd hn (show ¬ n = 255 by omega)

theorem sum_extendedLength (n : Nat) : ((extendedLength n).map UInt8.toNat).sum = n := by
  induction n using extendedLength.induct with
  | case1 n h ih =>
      rw [extendedLength, dif_pos h, List.map_cons, List.sum_cons, ih]
      show 255 + (n - 255) = n
      omega
  | case2 n h =>
      rw [extendedLength, dif_neg h, List.map_cons, List.map_nil, List.sum_singleton,
        UInt8.toNat_ofNat_of_lt' (show n < 2 ^ 8 by omega)]

/-- A length the encoder writes is a length field. -/
theorem lengthField_lengthBytes (len : Nat) (rest : List UInt8) :
    LengthField (nibble len).toNat (lengthBytes len) rest := by
  unfold LengthField lengthBytes
  rw [toNat_nibble]
  split_ifs with h1 h2 h2
  · exact extension_extendedLength _ rest
  · omega
  · omega
  · rfl

/-- And it is read back, with `k` added to the nibble. -/
theorem lengthOf_lengthBytes {len k : Nat} (h : len + k < 2 ^ 64) :
    lengthOf ((nibble len).toNat + k) (lengthBytes len) = len + k := by
  unfold lengthOf lengthBytes
  rw [toNat_nibble]
  split_ifs with h15
  · rw [sum_extendedLength]
    omega
  · rw [List.map_nil, List.sum_nil]
    omega

theorem length_extendedLength_le (n : Nat) : (extendedLength n).length ≤ n + 1 := by
  induction n using extendedLength.induct with
  | case1 n h ih =>
      rw [extendedLength, dif_pos h, List.length_cons]
      omega
  | case2 n h =>
      rw [extendedLength, dif_neg h, List.length_singleton]
      exact Nat.succ_le_succ (Nat.zero_le n)

theorem length_lengthBytes_le (len : Nat) : (lengthBytes len).length ≤ len := by
  unfold lengthBytes
  split_ifs with h
  · have hle := length_extendedLength_le (len - 15)
    omega
  · exact Nat.zero_le _

theorem offset_bytes {offset : Nat} (h : offset < 65536) :
    (UInt8.ofNat (offset &&& 0xFF)).toNat + 256 * (UInt8.ofNat (offset >>> 8 &&& 0xFF)).toNat
      = offset := by
  have hlo : offset &&& 0xFF = offset % 2 ^ 8 := Nat.and_two_pow_sub_one_eq_mod offset 8
  have hhi : offset >>> 8 &&& 0xFF = offset / 2 ^ 8 := by
    rw [show (0xFF : Nat) = 2 ^ 8 - 1 from rfl, Nat.and_two_pow_sub_one_eq_mod,
      Nat.shiftRight_eq_div_pow]
    omega
  rw [hlo, hhi, UInt8.toNat_ofNat_of_lt' (show offset % 2 ^ 8 < 2 ^ 8 by omega),
    UInt8.toNat_ofNat_of_lt' (show offset / 2 ^ 8 < 2 ^ 8 by omega)]
  omega

theorem readSeq_emit {q : Seq UInt8} (henc : Encodable q) (hlen : q.matchLen < 2 ^ 64) :
    readSeq (nibble q.literals.length <<< 4 ||| nibble (q.matchLen - 4)) q.literals
      (UInt8.ofNat (q.offset &&& 0xFF)) (UInt8.ofNat (q.offset >>> 8 &&& 0xFF))
      (lengthBytes (q.matchLen - 4)) = q := by
  obtain ⟨lits, d, n⟩ := q
  obtain ⟨hd, hn⟩ := henc
  simp only at hd hn hlen
  simp only [readSeq, offset_bytes hd, token_low,
    lengthOf_lengthBytes (show n - 4 + 4 < 2 ^ 64 by omega), Nat.sub_add_cancel hn]

/-- The bytes of a block, with those of its first sequence laid out. -/
theorem flatMap_emit_cons (q : Seq UInt8) (qs : List (Seq UInt8)) (last : List UInt8) :
    (q :: qs).flatMap emit ++ emitLast last
      = (nibble q.literals.length <<< 4 ||| nibble (q.matchLen - 4)) ::
        (lengthBytes q.literals.length ++ (q.literals ++
          UInt8.ofNat (q.offset &&& 0xFF) :: UInt8.ofNat (q.offset >>> 8 &&& 0xFF) ::
          (lengthBytes (q.matchLen - 4) ++ (qs.flatMap emit ++ emitLast last)))) := by
  simp [emit, lz4EmitSequence]

/-- The bytes of some sequences and last literals, after any text. The induction is on the
sequences. -/
theorem reads_emit {last : List UInt8} (qs : List (Seq UInt8)) : ∀ acc : List UInt8,
    Chain acc qs → (∀ q ∈ qs, Encodable q) →
    (qs.foldl Seq.expand acc ++ last).length < 2 ^ 64 →
    Reads (qs.flatMap emit ++ emitLast last) acc (qs.foldl Seq.expand acc ++ last) := by
  induction qs with
  | nil =>
      intro acc _ _ hlen
      rw [List.foldl_nil, List.length_append] at hlen
      rw [List.flatMap_nil, List.nil_append, List.foldl_nil, emitLast]
      split_ifs with hlast
      · rw [List.isEmpty_iff.mp hlast, List.append_nil]
        exact .nil
      · refine Reads.last ?_ ?_
        · rw [token_last]
          exact lengthField_lengthBytes _ last
        · have hread := lengthOf_lengthBytes (show last.length + 0 < 2 ^ 64 by omega)
          rw [token_last]
          exact hread.symm
  | cons q qs ih =>
      intro acc hchain henc hlen
      have hexp := hchain.1.length_expand
      have hrest := hchain.2.length_le
      rw [List.foldl_cons] at hlen ⊢
      have htotal := hlen
      rw [List.length_append] at htotal
      have hq := readSeq_emit (henc q (by simp)) (by omega)
      rw [flatMap_emit_cons]
      refine Reads.seq ?_ ?_ ?_ ?_ ?_
      · rw [token_high]
        exact lengthField_lengthBytes _ _
      · have hread := lengthOf_lengthBytes (show q.literals.length + 0 < 2 ^ 64 by omega)
        rw [token_high]
        exact hread.symm
      · rw [token_low]
        exact lengthField_lengthBytes _ _
      · rw [hq]
        exact hchain.1
      · rw [hq]
        exact ih _ hchain.2 (fun p hp => henc p (List.mem_cons_of_mem q hp)) hlen

/-- **The bytes of a well-formed block stand for its text.** -/
theorem reads_emitBlock {b : Block UInt8} (h : WellFormed b) (hlen : b.expand.length < 2 ^ 64) :
    Reads (emitBlock b) [] b.expand :=
  reads_emit b.seqs [] h.chain h.encodable hlen

/-- A sequence takes at most twice the bytes it stands for. -/
theorem length_emit_le {q : Seq UInt8} (h : Encodable q) :
    (emit q).length ≤ 2 * (q.literals.length + q.matchLen) := by
  have hlits := length_lengthBytes_le q.literals.length
  have hmatch := length_lengthBytes_le (q.matchLen - 4)
  have hmin := h.2
  simp only [emit, lz4EmitSequence, List.length_append, List.length_cons, List.length_nil]
  omega

theorem length_flatMap_emit_le (qs : List (Seq UInt8)) : ∀ acc : List UInt8,
    Chain acc qs → (∀ q ∈ qs, Encodable q) →
    (qs.flatMap emit).length + 2 * acc.length ≤ 2 * (qs.foldl Seq.expand acc).length := by
  induction qs with
  | nil =>
      intro acc _ _
      rw [List.flatMap_nil, List.foldl_nil, List.length_nil, Nat.zero_add]
  | cons q qs ih =>
      intro acc hchain henc
      have hexp := hchain.1.length_expand
      have hq := length_emit_le (henc q (by simp))
      have hqs := ih _ hchain.2 fun p hp => henc p (List.mem_cons_of_mem q hp)
      rw [List.flatMap_cons, List.foldl_cons, List.length_append]
      omega

/-- Incompressible text is not written with more than twice its length and a token. -/
theorem length_emitBlock_le {b : Block UInt8} (h : WellFormed b) :
    (emitBlock b).length ≤ 2 * b.expand.length + 1 := by
  have hseqs := length_flatMap_emit_le b.seqs [] h.chain h.encodable
  have hlast : (emitLast b.last).length ≤ 2 * b.last.length + 1 := by
    have hle := length_lengthBytes_le b.last.length
    unfold emitLast
    split_ifs
    · exact Nat.zero_le _
    · simp only [lz4EmitLiteralsOnly, List.length_append, List.length_cons]
      omega
  rw [List.length_nil] at hseqs
  rw [emitBlock, Block.expand, List.length_append, List.length_append]
  omega

end Pepita.Zram
