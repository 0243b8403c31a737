import Pepita.Zram.Decoder

set_option autoImplicit false

/-! # The decoder on data that does not fit

`decompress_lz4` takes its lengths and offsets from the data. As long as no sum of a position and
a length wraps, each access stands behind a check that covers it, so the decoder gives up with
`InvalidArgument` and never panics (`copyLiterals_safe`, `copyMatch_safe`). Input of less than
`2 ^ 55` bytes is too short to spell a length that wraps, whatever it contains
(`decompressLz4_safe`); and the block of the encoder spells only lengths of its own text, so it is
read back into every buffer that is long enough and refused by every other
(`decompressLz4_lz4Block`).
-/

namespace Pepita.Zram

open Lz77

/-! ## The subtraction

The position a match is copied from is `op - offset`. The model subtracts natural numbers, which
would hide an underflow. -/

/-- The offset with which the decoder at `s` gets to the subtraction, past the tests before it. -/
def matchOffset (input : List UInt8) (s : Decoder) : Option Nat := do
  let lo ← input[s.ip]?
  let hi ← input[s.ip + 1]?
  let offset := lo.toNat ||| hi.toNat <<< 8
  if offset = 0 ∨ offset > s.op then none else some offset

/-- A match that does not get to the subtraction is given up. -/
theorem copyMatch_of_matchOffset_eq_none {input : List UInt8} {s : Decoder}
    (h : matchOffset input s = none) (token : UInt8) :
    copyMatch input token s = .error (.err .invalidArgument, s.output) := by
  unfold copyMatch
  split
  · next lo hi hlo hhi =>
      simp only [matchOffset, hlo, hhi, Option.bind_eq_bind, Option.bind_some] at h
      split_ifs at h with hoff
      rw [if_pos hoff]
  · rfl

theorem le_of_matchOffset_eq_some {input : List UInt8} {s : Decoder} {offset : Nat}
    (h : matchOffset input s = some offset) : offset ≤ s.op := by
  simp only [matchOffset, Option.bind_eq_bind, Option.bind_eq_some_iff] at h
  obtain ⟨lo, -, hi, -, hoff⟩ := h
  split_ifs at hoff with hbad
  rw [← Option.some_inj.mp hoff]
  exact Nat.not_lt.mp fun hlt => hbad (Or.inr hlt)

/-! ## The parts of a call -/

/-- What `decompress_lz4` makes of the end of its loop. -/
def Decoder.finish (output : List UInt8) : Exit Decoder Decoded → Decoded
  | .done s => (.ok s.op, s.output)
  | .ret r => r
  | .timeout => (.diverge, output)

theorem decompressLz4_eq_finish (input output : List UInt8) :
    decompressLz4 input output = Decoder.finish output
      (whileLoop (Decoder.more input) (decodePass input) (input.length + 1) ⟨0, 0, output⟩) := by
  unfold decompressLz4
  split_ifs with hempty
  · -- on empty input the loop would end at once as well
    rw [whileLoop_done (by simp [Decoder.more, List.isEmpty_iff.mp hempty])]
    rfl
  · rfl

section Parts

variable {input acc tail rest : List UInt8} {s : Decoder} {r : Decoded}

/-- A literal copy that gives up does so before it touches anything. -/
theorem copyLiterals_safe {n : Nat} (h : copyLiterals input s n = .error r)
    (hip : s.ip + n < 2 ^ 64) (hop : s.op + n < 2 ^ 64) : r.1 = .err .invalidArgument := by
  unfold copyLiterals at h
  rw [wadd_of_lt hip, wadd_of_lt hop] at h
  split_ifs at h with h0 hbad
  · rw [← Except.error.inj h]
  · -- past the check both ranges are there
    push Not at hbad
    have hlen : ((input.drop s.ip).take n).length = n := by
      rw [List.length_take, List.length_drop]
      omega
    rw [slice_of_le (by omega) hbad.1, Nat.add_sub_cancel_left] at h
    simp only at h
    rw [copyInto_of_le (by omega) hbad.2 (by omega)] at h
    cases h

/-- An overlapping copy from behind `op` stays inside the buffer. -/
theorem exists_copyOverlapping {op d n : Nat} {output : List UInt8} (hd : 0 < d) (hle : d ≤ op)
    (hfit : op + n ≤ output.length) :
    ∃ output', copyOverlapping op (op - d) n output = some output' := by
  have hop : (output.take op).length = op := by
    rw [List.length_take]
    omega
  have hcopy := copyOverlapping_eq hd n (output.take op) (output.drop op) (by omega)
    (by rw [List.length_drop]; omega)
  rw [hop, List.take_append_drop] at hcopy
  exact ⟨_, hcopy⟩

/-- A match that is not copied is given up. -/
theorem copyMatch_safe {token : UInt8} (h : copyMatch input token s = .error r)
    (hop : s.op + (readNibble input (s.ip + 2) (token &&& 0x0F)
      ((token &&& 0x0F).toNat + 4)).2 < 2 ^ 64) : r.1 = .err .invalidArgument := by
  unfold copyMatch at h
  split at h
  · next lo hi _ _ =>
      simp only [wadd_of_lt hop] at h
      split_ifs at h with hoff hfit
      · rw [← Except.error.inj h]
      · rw [← Except.error.inj h]
      · push Not at hoff
        obtain ⟨output, hcopy⟩ :=
          exists_copyOverlapping (Nat.pos_of_ne_zero hoff.1) hoff.2 (Nat.not_lt.mp hfit)
        rw [hcopy] at h
        cases h
  · rw [← Except.error.inj h]

end Parts

/-! ## Malformed data -/

section Malformed

variable {input : List UInt8}

/-- Each byte adds at most 255 to a length. -/
theorem readLength_le (input : List UInt8) (ip len : Nat) :
    (readLength input ip len).2 ≤ len + 255 * (input.length - ip) := by
  have hadd : ∀ (len : Nat) (b : UInt8), wadd len b.toNat ≤ len + 255 := by
    intro len b
    have hb := b.toNat_lt
    exact Nat.le_trans (Nat.mod_le _ _) (by omega)
  induction ip, len using readLength.induct input with
  | case1 ip len hip hbyte ih =>
      have hlen := hadd len input[ip]
      rw [readLength, dif_pos hip, if_pos hbyte]
      omega
  | case2 ip len hip hbyte =>
      have hlen := hadd len input[ip]
      rw [readLength, dif_pos hip, if_neg hbyte]
      show wadd len input[ip].toNat ≤ _
      omega
  | case3 ip len hip =>
      rw [readLength, dif_neg hip]
      exact Nat.le_add_right _ _

theorem readNibble_le (input : List UInt8) (ip : Nat) (nib : UInt8) (len : Nat) :
    (readNibble input ip nib len).2 ≤ len + 255 * input.length := by
  unfold readNibble
  split_ifs
  · have hle := readLength_le input ip len
    omega
  · exact Nat.le_add_right _ _

/-- A pass over less than `2 ^ 55` bytes does not panic: no length it can read wraps a sum. -/
theorem decodePass_safe {acc tail rest : List UInt8} {s : Decoder} {r : Decoded}
    (h : s.At input acc tail rest) (hip : s.ip < input.length) (hin : input.length < 2 ^ 55)
    (hout : s.output.length < 2 ^ 63) (hpass : decodePass input s = .ret r) :
    r.1 = .err .invalidArgument := by
  obtain ⟨token, field, r', rfl, hfield⟩ := h.exists_token hip
  have ht := token.toNat_lt
  have hop := h.op_eq
  have hlen := h.length_output
  have hadd := h.ip_add
  simp only [List.length_cons, List.length_append] at hadd
  have hlits : lengthOf (token.toNat / 16) field ≤ 15 + 255 * input.length := by
    have hsum := sum_toNat_le field
    rw [lengthOf_of_short (by omega) (by omega)]
    omega
  rw [decodePass_eq h hfield] at hpass
  unfold afterLiterals at hpass
  split at hpass
  · next r'' hcopy =>
      have hipn : s.ip + 1 + field.length + lengthOf (token.toNat / 16) field < 2 ^ 64 := by omega
      have hopn : s.op + lengthOf (token.toNat / 16) field < 2 ^ 64 := by omega
      rw [← Pass.ret.inj hpass]
      exact copyLiterals_safe hcopy hipn hopn
  · next u hcopy =>
      obtain ⟨lits, rest', rfl, hn, hfit, hu⟩ :=
        copyLiterals_inv h.afterToken (by omega) (show s.output.length < _ by omega)
          (lengthOf_lt _ _) hcopy
      have huop := hu.op_eq
      rw [List.length_append] at huop
      have hmatch := readNibble_le input (u.ip + 2) (token &&& 0x0F) ((token &&& 0x0F).toNat + 4)
      rw [low_nibble] at hmatch
      split_ifs at hpass
      split at hpass
      · next r'' hcopy' =>
          rw [← Pass.ret.inj hpass]
          exact copyMatch_safe hcopy' (by rw [low_nibble]; omega)
      · cases hpass

/-- Where the loop stands on any data: somewhere in the input, with a buffer of the length it was
given. -/
def Decoder.Inside (input buf : List UInt8) (s : Decoder) : Prop :=
  s.output.length = buf.length ∧ ∃ acc tail rest, s.At input acc tail rest

theorem Decoder.Inside.op_le {buf : List UInt8} {s : Decoder} (h : s.Inside input buf) :
    s.op ≤ buf.length := by
  obtain ⟨hlen, acc, tail, rest, hat⟩ := h
  have hout := hat.length_output
  rw [hat.op_eq]
  omega

/-- A pass that goes on reads at least its token. -/
theorem Decoder.Inside.next {buf : List UInt8} {s s' : Decoder} (h : s.Inside input buf)
    (hip : s.ip < input.length) (hin : input.length < 2 ^ 64) (hbuf : buf.length < 2 ^ 64)
    (hpass : decodePass input s = .next s') : s'.Inside input buf ∧ s.ip < s'.ip := by
  obtain ⟨hlen, acc, tail, rest, hat⟩ := h
  have hout : s.output.length < 2 ^ 64 := by omega
  obtain ⟨token, lo, hi, field, lits, field', rest', rfl, -, hlits, -, hfits, hroom, ht⟩ :=
    decodePass_next hat hip hin hout hpass
  have hadd := hat.ip_add
  have hadd' := ht.ip_add
  have hout' := ht.length_output
  have hout := hat.length_output
  have hexp := hfits.length_expand
  simp only [List.length_cons, List.length_append, List.length_drop] at hadd hout'
  rw [hexp] at hroom hout'
  simp only [readSeq] at hroom hout'
  exact ⟨⟨by omega, _, _, _, ht⟩, by omega⟩

theorem Decoder.Inside.stop {buf : List UInt8} {s s' : Decoder} (h : s.Inside input buf)
    (hip : s.ip < input.length) (hin : input.length < 2 ^ 64) (hbuf : buf.length < 2 ^ 64)
    (hpass : decodePass input s = .stop s') : s'.Inside input buf := by
  obtain ⟨hlen, acc, tail, rest, hat⟩ := h
  have hout : s.output.length < 2 ^ 64 := by omega
  obtain ⟨token, field, lits, rfl, -, -, hfit, ht⟩ := decodePass_stop hat hip hin hout hpass
  have hout' := ht.length_output
  have hout := hat.length_output
  simp only [List.length_append, List.length_drop] at hout'
  exact ⟨by omega, _, _, _, ht⟩

end Malformed

/-- How a call on bad data may end. -/
def Safe (buf : List UInt8) (r : Decoded) : Prop :=
  (∃ n, r.1 = .ok n ∧ n ≤ buf.length) ∨ r.1 = .err .invalidArgument

/-- **The decoder is safe on malformed data.** Whatever the input is, it returns a length inside the
buffer or `InvalidArgument`: it does not run forever, no index is out of range and no subtraction
underflows. -/
theorem decompressLz4_safe (input : List UInt8) (buf : ByteSlice) (hin : input.length < 2 ^ 55) :
    Safe buf.1 (decompressLz4 input buf.1) ∧
    ∀ (token : UInt8) (s : Decoder),
      (matchOffset input s = none →
        copyMatch input token s = .error (.err .invalidArgument, s.output)) ∧
      ∀ offset, matchOffset input s = some offset → offset ≤ s.op := by
  refine ⟨?_, fun token s => ⟨fun h => copyMatch_of_matchOffset_eq_none h token,
    fun offset h => le_of_matchOffset_eq_some h⟩⟩
  obtain ⟨buf, hbuf⟩ := buf
  have hstart : Decoder.Inside input buf ⟨0, 0, buf⟩ :=
    ⟨rfl, [], buf, input, Nat.zero_le _, rfl, rfl, rfl⟩
  rw [decompressLz4_eq_finish]
  refine whileLoop_total (I := Decoder.Inside input buf) (μ := fun s => input.length - s.ip)
    (Q := fun e => Safe buf (Decoder.finish buf e)) ?_ ?_ ?_ ?_ _ _ hstart (by simp only; omega)
  · intro s hs _
    exact Or.inl ⟨s.op, rfl, hs.op_le⟩
  · intro s s' hs hc hpass
    have hip : s.ip < input.length := of_decide_eq_true hc
    obtain ⟨hs', hlt⟩ := hs.next hip (by omega) (by omega) hpass
    exact ⟨hs', by omega⟩
  · intro s s' hs hc hpass
    have hs' := hs.stop (of_decide_eq_true hc) (by omega) (by omega) hpass
    exact Or.inl ⟨s'.op, rfl, hs'.op_le⟩
  · intro s r hs hc hpass
    obtain ⟨hlen, acc, tail, rest, hat⟩ := hs
    exact Or.inr (decodePass_safe hat (of_decide_eq_true hc) hin (by omega) hpass)

/-- A literal length that runs off the end of the input. -/
theorem decompressLz4_safe_cut :
    ([0xF0, 255] : List UInt8).length < 2 ^ 55 ∧ Safe [0, 0] (decompressLz4 [0xF0, 255] [0, 0]) :=
  ⟨by decide, (decompressLz4_safe [0xF0, 255] (.ofList [0, 0] (by decide)) (by decide)).1⟩

/-! ## Buffers that are too short -/

section Short

variable {input acc tail rest : List UInt8} {s : Decoder}

/-- Literals that do not fit the buffer end the call. -/
theorem decodePass_of_short_literals {token : UInt8} {field lits : List UInt8}
    (h : s.At input acc tail (token :: (field ++ (lits ++ rest))))
    (hin : input.length < 2 ^ 64) (hroom : acc.length + lits.length < 2 ^ 64)
    (hfield : LengthField (token.toNat / 16) field (lits ++ rest))
    (hlits : lits.length = lengthOf (token.toNat / 16) field) (hshort : tail.length < lits.length) :
    ∃ r, decodePass input s = .ret r ∧ r.1 = .err .invalidArgument := by
  have hop := h.op_eq
  have hlen := h.length_output
  have hadd := h.ip_add
  simp only [List.length_cons, List.length_append] at hadd
  rw [decodePass_eq h hfield, ← hlits]
  cases hcopy : copyLiterals input { s with ip := s.ip + 1 + field.length } lits.length with
  | error r =>
      have hipn : s.ip + 1 + field.length + lits.length < 2 ^ 64 := by omega
      exact ⟨r, rfl, copyLiterals_safe hcopy hipn (show s.op + lits.length < 2 ^ 64 by omega)⟩
  | ok s' =>
      have hfit := (copyLiterals_le h.afterToken hin (show s.output.length < 2 ^ 64 by omega)
        (by omega) hcopy).2
      omega

/-- A match that does not fit the buffer is given up. -/
theorem copyMatch_of_short {token lo hi : UInt8} {field : List UInt8}
    (h : s.At input acc tail (lo :: hi :: (field ++ rest)))
    (hfield : LengthField (token.toNat % 16) field rest)
    (hroom : acc.length + lengthOf (token.toNat % 16 + 4) field < 2 ^ 64)
    (hshort : tail.length < lengthOf (token.toNat % 16 + 4) field) :
    copyMatch input token s = .error (.err .invalidArgument, s.output) := by
  have hop := h.op_eq
  have hlen := h.length_output
  have hread := h.readNibble_eq hfield
  obtain ⟨hlo, hdrop⟩ := getElem?_of_drop h.drop_ip
  obtain ⟨hhi, -⟩ := getElem?_of_drop hdrop
  generalize lengthOf (token.toNat % 16 + 4) field = n at *
  have hopn : wadd s.op n = s.op + n := wadd_of_lt (by omega)
  unfold copyMatch
  rw [hlo, hhi]
  simp only [hread, hopn]
  rw [if_pos (show s.op + n > s.output.length by omega), ite_self]

/-- A pass over a sequence that does not fit the buffer ends the call. -/
theorem decodePass_of_short {token lo hi : UInt8} {field lits field' : List UInt8}
    (h : s.At input acc tail (token :: (field ++ (lits ++ lo :: hi :: (field' ++ rest)))))
    (hin : input.length < 2 ^ 64)
    (hfield : LengthField (token.toNat / 16) field (lits ++ lo :: hi :: (field' ++ rest)))
    (hlits : lits.length = lengthOf (token.toNat / 16) field)
    (hfield' : LengthField (token.toNat % 16) field' rest)
    (hfits : (readSeq token lits lo hi field').Fits acc)
    (hroom : ((readSeq token lits lo hi field').expand acc).length < 2 ^ 64)
    (hshort : s.output.length < ((readSeq token lits lo hi field').expand acc).length) :
    ∃ r, decodePass input s = .ret r ∧ r.1 = .err .invalidArgument := by
  have hlen := h.length_output
  rw [hfits.length_expand] at hroom hshort
  simp only [readSeq] at hroom hshort
  by_cases hfit : lits.length ≤ tail.length
  · obtain ⟨u, hcopy, hu⟩ :=
      copyLiterals_spec h.afterToken hin (show s.output.length < 2 ^ 64 by omega) hfit
    have hadd := hu.ip_add
    simp only [List.length_cons] at hadd
    refine ⟨(.err .invalidArgument, u.output), ?_, rfl⟩
    rw [decodePass_eq h hfield, ← hlits, hcopy]
    simp only [afterLiterals]
    rw [if_neg (by omega), copyMatch_of_short hu hfield' (by rw [List.length_append]; exact hroom)
      (by rw [List.length_drop]; omega)]
  · exact decodePass_of_short_literals h hin (by omega) hfield hlits (Nat.not_le.mp hfit)

/-- The loop over bytes that stand for a text which does not fit. The induction is on the sequences
that are left, up to the one that does not fit. -/
theorem decodeLoop_of_short (hin : input.length < 2 ^ 64) {rest acc text : List UInt8}
    (h : Reads rest acc text) (htext : text.length < 2 ^ 64) :
    ∀ (fuel : Nat) (s : Decoder) (tail : List UInt8), s.At input acc tail rest →
    s.output.length < text.length → input.length - s.ip < fuel →
    ∃ r, whileLoop (Decoder.more input) (decodePass input) fuel s = .ret r ∧
      r.1 = .err .invalidArgument := by
  induction h with
  | nil =>
      intro fuel s tail hat hshort _
      have hlen := hat.length_output
      omega
  | @last token field lits acc hfield hlits =>
      intro fuel s tail hat hshort hfuel
      have hlen := hat.length_output
      have hadd := hat.ip_add
      rw [List.length_cons] at hadd
      rw [List.length_append] at htext hshort
      rw [← List.append_nil lits] at hat hfield
      obtain ⟨r, hpass, hr⟩ :=
        decodePass_of_short_literals hat hin htext hfield hlits (by omega)
      obtain ⟨fuel, rfl⟩ : ∃ k, fuel = k + 1 := ⟨fuel - 1, by omega⟩
      exact ⟨r, whileLoop_ret (by simp [Decoder.more]; omega) hpass fuel, hr⟩
  | @seq token lo hi field lits field' rest acc text hfield hlits hfield' hfits hrest ih =>
      intro fuel s tail hat hshort hfuel
      have hlen := hat.length_output
      have hgrow := hrest.grows.length_le
      have hadd := hat.ip_add
      simp only [List.length_cons, List.length_append] at hadd
      obtain ⟨fuel, rfl⟩ : ∃ k, fuel = k + 1 := ⟨fuel - 1, by omega⟩
      have hmore : Decoder.more input s = true := by
        simp [Decoder.more]
        omega
      by_cases hfit : ((readSeq token lits lo hi field').expand acc).length ≤ s.output.length
      · obtain ⟨s', hpass, hat'⟩ := decodePass_seq hat hin (by omega) hfield hlits hfield' hfits hfit
        have hlen' := hat'.length_output
        have hadd' := hat'.ip_add
        rw [hfits.length_expand] at hfit hlen'
        rw [List.length_drop] at hlen'
        simp only [readSeq] at hfit hlen'
        rw [whileLoop_next hmore hpass]
        exact ih htext fuel s' _ hat' (by omega) (by omega)
      · obtain ⟨r, hpass, hr⟩ := decodePass_of_short hat hin hfield hlits hfield' hfits
          (by omega) (Nat.not_le.mp hfit)
        exact ⟨r, whileLoop_ret hmore hpass fuel, hr⟩

end Short

/-- A text that does not fit the buffer is refused. -/
theorem decompressLz4_of_short {input buf text : List UInt8} (h : Reads input [] text)
    (hin : input.length < 2 ^ 64) (htext : text.length < 2 ^ 64)
    (hshort : buf.length < text.length) :
    (decompressLz4 input buf).1 = .err .invalidArgument := by
  have hstart : Decoder.At input ⟨0, 0, buf⟩ [] buf input := ⟨Nat.zero_le _, rfl, rfl, rfl⟩
  obtain ⟨r, hloop, hr⟩ := decodeLoop_of_short hin h htext (input.length + 1) _ _ hstart hshort
    (by simp only; omega)
  rw [decompressLz4_eq_finish, hloop]
  exact hr

/-- **The block of the encoder is always decodable**, also when it is not shorter than the input
and `compress_lz4` returns the input instead: every buffer with room for the input gets it back,
and every shorter one is refused. -/
theorem decompressLz4_lz4Block (x : ByteSlice) : ∃ s, lz4Block x.1 = .ok s ∧ ∀ buf : ByteSlice,
    (x.1.length ≤ buf.1.length →
      ∃ out, decompressLz4 s buf.1 = (.ok x.1.length, out) ∧ out.take x.1.length = x.1) ∧
    (buf.1.length < x.1.length → (decompressLz4 s buf.1).1 = .err .invalidArgument) := by
  obtain ⟨x, hx⟩ := x
  obtain ⟨b, hb, hwf, hexp⟩ := lz4Block_eq x
  have hreads := reads_emitBlock hwf (by rw [hexp]; omega)
  have hlen := length_emitBlock_le hwf
  rw [hexp] at hreads hlen
  refine ⟨emitBlock b, hb, fun buf => ⟨fun hroom => ?_, fun hshort => ?_⟩⟩
  · have hbuf := buf.2
    refine ⟨x ++ buf.1.drop x.length, ?_, List.take_left⟩
    exact (decompressLz4_eq_ok_iff (by omega) (by omega)).mpr ⟨x, hreads, hroom, rfl, rfl⟩
  · exact decompressLz4_of_short hreads (by omega) (by omega) hshort

end Pepita.Zram
