import Pepita.Zram.Format

set_option autoImplicit false

/-! # What the decoder reads

`decompress_lz4` computes the meaning of a block: it succeeds exactly on the bytes that stand for a
text which fits the buffer, and then writes the text to the front of the buffer and leaves the rest
(`decompressLz4_eq_ok_iff`).

One lemma for each part of a sequence says how the decoder moves over bytes of the right form
(`copyLiterals_spec`, `copyMatch_spec`), and one says that it accepts no others (`copyLiterals_le`,
`copyMatch_le`).
-/

namespace Pepita.Zram

open Lz77

/-! ## Tokens and lengths -/

theorem high_nibble (t : UInt8) : ((t >>> 4) &&& 0x0F).toNat = t.toNat / 16 := by
  have ht := t.toNat_lt
  have h15 : (0x0F : UInt8).toNat = 2 ^ 4 - 1 := rfl
  have h4 : (4 : UInt8).toNat % 8 = 4 := rfl
  rw [UInt8.toNat_and, UInt8.toNat_shiftRight, h15, h4, Nat.and_two_pow_sub_one_eq_mod,
    Nat.shiftRight_eq_div_pow]
  omega

theorem low_nibble (t : UInt8) : (t &&& 0x0F).toNat = t.toNat % 16 := by
  have h15 : (0x0F : UInt8).toNat = 2 ^ 4 - 1 := rfl
  rw [UInt8.toNat_and, h15, Nat.and_two_pow_sub_one_eq_mod]

theorem offset_eq_add (lo hi : UInt8) :
    lo.toNat ||| hi.toNat <<< 8 = lo.toNat + 256 * hi.toNat := by
  rw [Nat.or_comm, ← Nat.shiftLeft_add_eq_or_of_lt lo.toNat_lt, Nat.shiftLeft_eq]
  omega

theorem readLength_eq {input field rest : List UInt8} (h : Extension field rest) : ∀ ip len : Nat,
    input.drop ip = field ++ rest → len < 2 ^ 64 →
    readLength input ip len = (ip + field.length, lengthOf len field) := by
  induction h with
  | cut =>
      intro ip len hdrop hlen
      have hip : ¬ ip < input.length := Nat.not_lt.mpr (List.drop_eq_nil_iff.mp hdrop)
      rw [readLength, dif_neg hip, lengthOf_nil hlen, List.length_nil, Nat.add_zero]
  | @last b rest hb =>
      intro ip len hdrop _
      obtain ⟨hip, hbyte⟩ := List.getElem?_eq_some_iff.mp (getElem?_of_drop hdrop).1
      rw [readLength, dif_pos hip, hbyte, if_neg hb, lengthOf_cons, lengthOf_nil (wadd_lt _ _),
        List.length_singleton]
  | @more field rest _ ih =>
      intro ip len hdrop _
      obtain ⟨hget, hnext⟩ := getElem?_of_drop hdrop
      obtain ⟨hip, hbyte⟩ := List.getElem?_eq_some_iff.mp hget
      rw [readLength, dif_pos hip, hbyte, if_pos rfl, ih (ip + 1) _ hnext (wadd_lt _ _),
        lengthOf_cons, List.length_cons]
      exact Prod.ext (by simp only; omega) rfl

/-- The decoder takes the bytes of a length field and adds them up. -/
theorem readNibble_eq {input field rest : List UInt8} {nib : UInt8} {ip len : Nat}
    (h : LengthField nib.toNat field rest) (hdrop : input.drop ip = field ++ rest)
    (hlen : len < 2 ^ 64) :
    readNibble input ip nib len = (ip + field.length, lengthOf len field) := by
  unfold readNibble
  unfold LengthField at h
  by_cases h15 : nib = 15
  · rw [if_pos (by rw [h15]; rfl)] at h
    rw [if_pos h15]
    exact readLength_eq h ip len hdrop hlen
  · have hne : nib.toNat ≠ 15 := fun heq => h15 (UInt8.toNat_inj.mp heq)
    rw [if_neg hne] at h
    rw [if_neg h15, h, lengthOf_nil hlen, List.length_nil, Nat.add_zero]

/-! ## The parts of a sequence -/

/-- Where the decoder stands: it has produced `acc`, the buffer goes on with `tail`, and `rest` is
left to read. -/
structure Decoder.At (input : List UInt8) (s : Decoder) (acc tail rest : List UInt8) : Prop where
  ip_le : s.ip ≤ input.length
  drop_ip : input.drop s.ip = rest
  output_eq : s.output = acc ++ tail
  op_eq : s.op = acc.length

section Parts

variable {input acc tail rest : List UInt8} {s s' : Decoder}

theorem Decoder.At.ip_add (h : s.At input acc tail rest) :
    s.ip + rest.length = input.length := by
  have hlen := congrArg List.length h.drop_ip
  rw [List.length_drop] at hlen
  have := h.ip_le
  omega

theorem Decoder.At.length_output (h : s.At input acc tail rest) :
    s.output.length = acc.length + tail.length := by
  rw [h.output_eq, List.length_append]

/-- Moving over bytes that only steer the decoder. -/
theorem Decoder.At.skip {x : List UInt8} (h : s.At input acc tail (x ++ rest)) :
    Decoder.At input { s with ip := s.ip + x.length } acc tail rest := by
  have hadd := h.ip_add
  rw [List.length_append] at hadd
  exact ⟨show s.ip + x.length ≤ input.length by omega, drop_of_drop_append h.drop_ip,
    h.output_eq, h.op_eq⟩

/-- The literal copy, when the literals are there and fit. -/
theorem copyLiterals_spec {lits : List UInt8} (h : s.At input acc tail (lits ++ rest))
    (hin : input.length < 2 ^ 64) (hout : s.output.length < 2 ^ 64)
    (hfit : lits.length ≤ tail.length) :
    ∃ s', copyLiterals input s lits.length = .ok s' ∧
      s'.At input (acc ++ lits) (tail.drop lits.length) rest := by
  have hadd := h.ip_add
  rw [List.length_append] at hadd
  have hlen := h.length_output
  have hip : wadd s.ip lits.length = s.ip + lits.length := wadd_of_lt (by omega)
  have hop : wadd s.op lits.length = s.op + lits.length :=
    wadd_of_lt (by rw [h.op_eq]; omega)
  unfold copyLiterals
  split_ifs with h0 hbad
  · rw [hip, hop, h.op_eq] at hbad
    omega
  · have hread : slice input s.ip (s.ip + lits.length) = some lits := by
      rw [slice_of_le (by omega) (by omega), h.drop_ip, Nat.add_sub_cancel_left,
        List.take_left]
    have hwrite : copyInto s.output s.op (s.op + lits.length) lits
        = some (acc ++ lits ++ tail.drop lits.length) := by
      rw [copyInto_of_le (by omega) (by rw [h.op_eq]; omega) (by omega), h.op_eq, h.output_eq,
        List.take_left, ← List.drop_drop, List.drop_left]
    simp only [hip, hop, hread, hwrite]
    refine ⟨_, rfl, show s.ip + lits.length ≤ _ by omega, drop_of_drop_append h.drop_ip, rfl, ?_⟩
    show s.op + lits.length = (acc ++ lits).length
    rw [h.op_eq, List.length_append]
  · -- a sequence without literals
    have hnil : lits = [] := List.length_eq_zero_iff.mp (by omega)
    subst hnil
    exact ⟨s, rfl, by simpa using h⟩

/-- A literal copy that succeeds was inside the input and the buffer. -/
theorem copyLiterals_le {n : Nat} (h : s.At input acc tail rest)
    (hin : input.length < 2 ^ 64) (hout : s.output.length < 2 ^ 64) (hn : n < 2 ^ 64)
    (hok : copyLiterals input s n = .ok s') : n ≤ rest.length ∧ n ≤ tail.length := by
  have hadd := h.ip_add
  have hlen := h.length_output
  have hop := h.op_eq
  unfold copyLiterals at hok
  split_ifs at hok with h0 hbad
  · unfold slice copyInto at hok
    split at hok
    · cases hok
    · next lits hlits =>
        split_ifs at hlits with hsl
        split at hok
        · cases hok
        · next output hcopy =>
            split_ifs at hcopy with hcp
            -- the slices exist, so neither sum wrapped
            have hipn := wadd_of_le (by omega) hn hsl.1
            have hopn := wadd_of_le (by omega) hn hcp.1
            omega
  · omega

/-- The overlapping copy appends a match to the text. -/
theorem copyOverlapping_eq {d : Nat} (hd : 0 < d) (n : Nat) : ∀ acc tail : List UInt8,
    d ≤ acc.length → n ≤ tail.length →
    copyOverlapping acc.length (acc.length - d) n (acc ++ tail)
      = some (copyBack d n acc ++ tail.drop n) := by
  induction n with
  | zero => intro acc tail _ _; rfl
  | succ n ih =>
      intro acc tail hle hn
      obtain ⟨a, ha⟩ := getElem?_back hd hle
      cases tail with
      | nil => simp at hn
      | cons b tail =>
          have hread : (acc ++ b :: tail)[acc.length - d]? = some a := by
            rw [List.getElem?_append_left (by omega), ha]
          have hwrite : (acc ++ b :: tail).set acc.length a = (acc ++ [a]) ++ tail := by
            rw [List.set_append_right _ _ (Nat.le_refl _), Nat.sub_self, List.set_cons_zero,
              List.append_assoc, List.singleton_append]
          have hlen : (acc ++ [a]).length = acc.length + 1 := by simp
          have hpos : acc.length - d + 1 = (acc ++ [a]).length - d := by omega
          -- one byte moves from the rest of the buffer to the text; both positions go up by one
          rw [copyOverlapping, hread]
          simp only
          rw [if_pos (by simp), hwrite, hpos, ← hlen,
            ih (acc ++ [a]) tail (by omega) (by simpa using hn), copyBack, ha]
          rfl

theorem copyOverlapping_le (n : Nat) : ∀ {op matchPos : Nat} {output output' : List UInt8},
    copyOverlapping op matchPos n output = some output' → op ≤ output.length →
    op + n ≤ output.length := by
  induction n with
  | zero => intro op matchPos output output' _ hop; exact hop
  | succ n ih =>
      intro op matchPos output output' h hop
      rw [copyOverlapping] at h
      split at h
      · cases h
      · split_ifs at h with hlt
        have hle := ih h (by rw [List.length_set]; exact hlt)
        rw [List.length_set] at hle
        omega

/-- The bytes after the two of an offset are read as the length of the match. -/
theorem Decoder.At.readNibble_eq {token lo hi : UInt8} {field : List UInt8}
    (h : s.At input acc tail (lo :: hi :: (field ++ rest)))
    (hfield : LengthField (token.toNat % 16) field rest) :
    readNibble input (s.ip + 2) (token &&& 0x0F) ((token &&& 0x0F).toNat + 4)
      = (s.ip + 2 + field.length, lengthOf (token.toNat % 16 + 4) field) := by
  have hdrop := (getElem?_of_drop (getElem?_of_drop h.drop_ip).2).2
  rw [low_nibble]
  exact Zram.readNibble_eq (by rw [low_nibble]; exact hfield) hdrop (by omega)

/-- The offset and the match, when they point into the text and fit. -/
theorem copyMatch_spec {token lo hi : UInt8} {field : List UInt8}
    (h : s.At input acc tail (lo :: hi :: (field ++ rest))) (hout : s.output.length < 2 ^ 64)
    (hfield : LengthField (token.toNat % 16) field rest) (hd : 0 < lo.toNat + 256 * hi.toNat)
    (hle : lo.toNat + 256 * hi.toNat ≤ acc.length)
    (hfit : lengthOf (token.toNat % 16 + 4) field ≤ tail.length) :
    ∃ s', copyMatch input token s = .ok s' ∧
      s'.At input
        (copyBack (lo.toNat + 256 * hi.toNat) (lengthOf (token.toNat % 16 + 4) field) acc)
        (tail.drop (lengthOf (token.toNat % 16 + 4) field)) rest := by
  obtain ⟨hlo, hdrop⟩ := getElem?_of_drop h.drop_ip
  obtain ⟨hhi, hdrop⟩ := getElem?_of_drop hdrop
  have hadd := h.ip_add
  simp only [List.length_cons, List.length_append] at hadd
  have hlen := h.length_output
  have hread := h.readNibble_eq hfield
  generalize lengthOf (token.toNat % 16 + 4) field = n at *
  have hop : wadd s.op n = s.op + n := wadd_of_lt (by rw [h.op_eq]; omega)
  unfold copyMatch
  rw [hlo, hhi]
  simp only [offset_eq_add, hread, hop]
  rw [if_neg (by rw [h.op_eq]; omega), if_neg (by rw [h.op_eq]; omega), h.op_eq, h.output_eq,
    copyOverlapping_eq hd _ acc tail hle hfit]
  refine ⟨_, rfl, show s.ip + 2 + field.length ≤ _ by omega, drop_of_drop_append hdrop, rfl, ?_⟩
  show acc.length + n = _
  rw [length_copyBack hd _ _ hle]

/-- A match that succeeds had its two offset bytes, pointed into the text and fitted the buffer. -/
theorem copyMatch_le {token : UInt8} (h : s.At input acc tail rest)
    (hok : copyMatch input token s = .ok s') :
    ∃ lo hi field rest', rest = lo :: hi :: (field ++ rest') ∧
      LengthField (token.toNat % 16) field rest' ∧
      0 < lo.toNat + 256 * hi.toNat ∧ lo.toNat + 256 * hi.toNat ≤ acc.length ∧
      lengthOf (token.toNat % 16 + 4) field ≤ tail.length := by
  have hlen := h.length_output
  have hop := h.op_eq
  unfold copyMatch at hok
  split at hok
  · next lo hi hlo hhi =>
      obtain ⟨field, rest', hsplit, hfield⟩ :=
        exists_lengthField (token.toNat % 16) (input.drop (s.ip + 2))
      have hread : readNibble input (s.ip + 2) (token &&& 0x0F) ((token &&& 0x0F).toNat + 4)
          = (s.ip + 2 + field.length, lengthOf (token.toNat % 16 + 4) field) := by
        rw [low_nibble]
        exact readNibble_eq (by rw [low_nibble]; exact hfield) hsplit (by omega)
      simp only [offset_eq_add, hread] at hok
      split_ifs at hok with hoff hfit
      split at hok
      · cases hok
      · next output hcopy =>
          -- the check alone does not bound the length, since its sum may wrap; the copy does
          have hle := copyOverlapping_le _ hcopy (by omega)
          refine ⟨lo, hi, field, rest', ?_, hfield, by omega, by omega, by omega⟩
          obtain ⟨hip, rfl⟩ := List.getElem?_eq_some_iff.mp hlo
          obtain ⟨hip', rfl⟩ := List.getElem?_eq_some_iff.mp hhi
          rw [← h.drop_ip, List.drop_eq_getElem_cons hip, List.drop_eq_getElem_cons hip', hsplit]
  · cases hok

/-! ## Passes -/

theorem Decoder.At.afterToken {token : UInt8} {field : List UInt8}
    (h : s.At input acc tail (token :: (field ++ rest))) :
    Decoder.At input { s with ip := s.ip + 1 + field.length } acc tail rest := by
  have hskip := Decoder.At.skip (x := token :: field) h
  rw [List.length_cons, Nat.add_comm field.length, ← Nat.add_assoc] at hskip
  exact hskip

/-- A pass after its literal copy, which ended with `r`. -/
def afterLiterals (input : List UInt8) (token : UInt8) (r : Except Decoded Decoder) :
    Pass Decoder Decoded :=
  match r with
  | .error ret => .ret ret
  | .ok s =>
      if input.length ≤ s.ip then .stop s
      else
        match copyMatch input token s with
        | .error ret => .ret ret
        | .ok s => .next s

/-- The token and the bytes of the literal length, in a pass. -/
theorem decodePass_eq {token : UInt8} {field : List UInt8}
    (h : s.At input acc tail (token :: (field ++ rest)))
    (hfield : LengthField (token.toNat / 16) field rest) :
    decodePass input s
      = afterLiterals input token (copyLiterals input { s with ip := s.ip + 1 + field.length }
          (lengthOf (token.toNat / 16) field)) := by
  obtain ⟨htok, hdrop⟩ := getElem?_of_drop h.drop_ip
  have ht := token.toNat_lt
  have hread : readNibble input (s.ip + 1) ((token >>> 4) &&& 0x0F)
      ((token >>> 4) &&& 0x0F).toNat
        = (s.ip + 1 + field.length, lengthOf (token.toNat / 16) field) := by
    rw [high_nibble]
    exact readNibble_eq (by rw [high_nibble]; exact hfield) hdrop (by omega)
  unfold decodePass
  rw [htok]
  simp only [hread]
  rfl

/-- **A pass over the bytes of a sequence** appends it to the text. -/
theorem decodePass_seq {token lo hi : UInt8} {field lits field' : List UInt8}
    (h : s.At input acc tail (token :: (field ++ (lits ++ lo :: hi :: (field' ++ rest)))))
    (hin : input.length < 2 ^ 64) (hout : s.output.length < 2 ^ 64)
    (hfield : LengthField (token.toNat / 16) field (lits ++ lo :: hi :: (field' ++ rest)))
    (hlits : lits.length = lengthOf (token.toNat / 16) field)
    (hfield' : LengthField (token.toNat % 16) field' rest)
    (hfits : (readSeq token lits lo hi field').Fits acc)
    (hroom : ((readSeq token lits lo hi field').expand acc).length ≤ s.output.length) :
    ∃ s', decodePass input s = .next s' ∧
      s'.At input ((readSeq token lits lo hi field').expand acc)
        (tail.drop (lits.length + (readSeq token lits lo hi field').matchLen)) rest := by
  have hlen := h.length_output
  rw [hfits.length_expand] at hroom
  simp only [readSeq] at hroom
  obtain ⟨u, hcopy, hu⟩ := copyLiterals_spec h.afterToken hin hout (by omega)
  have hulen := hu.length_output
  rw [List.length_append, List.length_drop] at hulen
  have hadd := hu.ip_add
  simp only [List.length_cons] at hadd
  obtain ⟨s', hmatch, hs'⟩ := copyMatch_spec hu (by omega) hfield' hfits.1
    (by rw [List.length_append]; exact hfits.2) (by rw [List.length_drop]; omega)
  refine ⟨s', ?_, ?_⟩
  · rw [decodePass_eq h hfield, ← hlits, hcopy]
    simp only [afterLiterals]
    rw [if_neg (by omega), hmatch]
  · rw [List.drop_drop] at hs'
    exact hs'

/-- **A pass over the bytes of the last literals** appends them and ends the loop. -/
theorem decodePass_last {token : UInt8} {field lits : List UInt8}
    (h : s.At input acc tail (token :: (field ++ lits)))
    (hin : input.length < 2 ^ 64) (hout : s.output.length < 2 ^ 64)
    (hfield : LengthField (token.toNat / 16) field lits)
    (hlits : lits.length = lengthOf (token.toNat / 16) field) (hfit : lits.length ≤ tail.length) :
    ∃ s', decodePass input s = .stop s' ∧
      s'.At input (acc ++ lits) (tail.drop lits.length) [] := by
  have hafter := h.afterToken
  rw [← List.append_nil lits] at hafter
  obtain ⟨s', hcopy, hs'⟩ := copyLiterals_spec hafter hin hout hfit
  refine ⟨s', ?_, hs'⟩
  have hadd := hs'.ip_add
  rw [List.length_nil] at hadd
  rw [decodePass_eq h hfield, ← hlits, hcopy]
  simp only [afterLiterals]
  rw [if_pos (by omega)]

/-- A literal copy that succeeds has taken literals from the input. -/
theorem copyLiterals_inv {n : Nat} (h : s.At input acc tail rest)
    (hin : input.length < 2 ^ 64) (hout : s.output.length < 2 ^ 64) (hn : n < 2 ^ 64)
    (hok : copyLiterals input s n = .ok s') :
    ∃ lits rest', rest = lits ++ rest' ∧ lits.length = n ∧ n ≤ tail.length ∧
      s'.At input (acc ++ lits) (tail.drop n) rest' := by
  obtain ⟨hrest, htail⟩ := copyLiterals_le h hin hout hn hok
  have hlen : (rest.take n).length = n := by
    rw [List.length_take]
    omega
  have hat : s.At input acc tail (rest.take n ++ rest.drop n) := by
    rw [List.take_append_drop]
    exact h
  obtain ⟨u, hcopy, hu⟩ := copyLiterals_spec hat hin hout (by omega)
  rw [hlen] at hcopy hu
  have heq : u = s' := Except.ok.inj (hcopy.symm.trans hok)
  exact ⟨rest.take n, rest.drop n, (List.take_append_drop n rest).symm, hlen, htail, heq ▸ hu⟩

theorem Decoder.At.exists_token (h : s.At input acc tail rest) (hip : s.ip < input.length) :
    ∃ token field rest', rest = token :: (field ++ rest') ∧
      LengthField (token.toNat / 16) field rest' := by
  have hdrop := h.drop_ip
  rw [List.drop_eq_getElem_cons hip] at hdrop
  obtain ⟨field, rest', hsplit, hfield⟩ :=
    exists_lengthField (input[s.ip].toNat / 16) (input.drop (s.ip + 1))
  exact ⟨input[s.ip], field, rest', by rw [← hdrop, hsplit], hfield⟩

/-- **A pass that goes on** has read a sequence, and stands behind it. -/
theorem decodePass_next (h : s.At input acc tail rest) (hip : s.ip < input.length)
    (hin : input.length < 2 ^ 64) (hout : s.output.length < 2 ^ 64)
    (hpass : decodePass input s = .next s') :
    ∃ token lo hi field lits field' rest',
      rest = token :: (field ++ (lits ++ lo :: hi :: (field' ++ rest'))) ∧
      LengthField (token.toNat / 16) field (lits ++ lo :: hi :: (field' ++ rest')) ∧
      lits.length = lengthOf (token.toNat / 16) field ∧
      LengthField (token.toNat % 16) field' rest' ∧
      (readSeq token lits lo hi field').Fits acc ∧
      ((readSeq token lits lo hi field').expand acc).length ≤ s.output.length ∧
      s'.At input ((readSeq token lits lo hi field').expand acc)
        (tail.drop (lits.length + (readSeq token lits lo hi field').matchLen)) rest' := by
  obtain ⟨token, field, r, rfl, hfield⟩ := h.exists_token hip
  have hnext := hpass
  rw [decodePass_eq h hfield] at hpass
  unfold afterLiterals at hpass
  split at hpass
  · cases hpass
  · next u hcopy =>
      obtain ⟨lits, r', rfl, hlits, htail, hu⟩ :=
        copyLiterals_inv h.afterToken hin hout (lengthOf_lt _ _) hcopy
      split_ifs at hpass
      split at hpass
      · cases hpass
      · next hmatch =>
          obtain ⟨lo, hi, field', rest', rfl, hfield', hd, hle, hfit⟩ := copyMatch_le hu hmatch
          rw [List.length_append] at hle
          rw [List.length_drop] at hfit
          have hfits : (readSeq token lits lo hi field').Fits acc := ⟨hd, hle⟩
          have hlen := h.length_output
          have hroom : ((readSeq token lits lo hi field').expand acc).length
              ≤ s.output.length := by
            rw [hfits.length_expand]
            simp only [readSeq]
            omega
          obtain ⟨t, hseq, ht⟩ := decodePass_seq h hin hout hfield hlits hfield' hfits hroom
          have heq : s' = t := Pass.next.inj (hnext.symm.trans hseq)
          exact ⟨token, lo, hi, field, lits, field', rest', rfl, hfield, hlits, hfield', hfits,
            hroom, heq ▸ ht⟩

/-- **A pass that ends the loop** has read the last literals, and nothing is left. -/
theorem decodePass_stop (h : s.At input acc tail rest) (hip : s.ip < input.length)
    (hin : input.length < 2 ^ 64) (hout : s.output.length < 2 ^ 64)
    (hpass : decodePass input s = .stop s') :
    ∃ token field lits, rest = token :: (field ++ lits) ∧
      LengthField (token.toNat / 16) field lits ∧ lits.length = lengthOf (token.toNat / 16) field ∧
      lits.length ≤ tail.length ∧ s'.At input (acc ++ lits) (tail.drop lits.length) [] := by
  obtain ⟨token, field, r, rfl, hfield⟩ := h.exists_token hip
  have hstop := hpass
  rw [decodePass_eq h hfield] at hpass
  unfold afterLiterals at hpass
  split at hpass
  · cases hpass
  · next u hcopy =>
      obtain ⟨lits, r', rfl, hlits, htail, hu⟩ :=
        copyLiterals_inv h.afterToken hin hout (lengthOf_lt _ _) hcopy
      split_ifs at hpass with hend
      · -- the `break` after the literals: nothing is left
        have hadd := hu.ip_add
        have hnil : r' = [] := List.length_eq_zero_iff.mp (by omega)
        rw [hnil, List.append_nil] at h hfield ⊢
        obtain ⟨t, hlast, ht⟩ := decodePass_last h hin hout hfield hlits (by omega)
        have heq : s' = t := Pass.stop.inj (hstop.symm.trans hlast)
        exact ⟨token, field, lits, rfl, hfield, hlits, by omega, heq ▸ ht⟩
      · split at hpass <;> cases hpass

/-! ## Errors -/

/-- The decoder gave up. -/
def Failed (r : Decoded) : Prop := r.1 = .err .invalidArgument ∨ r.1 = .panic

theorem copyLiterals_error {n : Nat} {r : Decoded} (h : copyLiterals input s n = .error r) :
    Failed r := by
  unfold copyLiterals at h
  split_ifs at h
  · cases h
    exact Or.inl rfl
  · split at h
    · cases h
      exact Or.inr rfl
    · split at h
      · cases h
        exact Or.inr rfl
      · cases h

theorem copyMatch_error {token : UInt8} {r : Decoded} (h : copyMatch input token s = .error r) :
    Failed r := by
  unfold copyMatch at h
  split at h
  · simp only at h
    split_ifs at h
    · cases h
      exact Or.inl rfl
    · cases h
      exact Or.inl rfl
    · split at h
      · cases h
        exact Or.inr rfl
      · cases h
  · cases h
    exact Or.inl rfl

/-- A pass that returns does not return a value. -/
theorem decodePass_ret {r : Decoded} (h : decodePass input s = .ret r) : Failed r := by
  unfold decodePass at h
  split at h
  · cases h
    exact Or.inr rfl
  · simp only at h
    split at h
    · next hlits =>
        cases h
        exact copyLiterals_error hlits
    · split_ifs at h
      split at h
      · next hmatch =>
          cases h
          exact copyMatch_error hmatch
      · cases h

end Parts

/-! ## The main loop -/

section Loop

variable {input : List UInt8}

/-- The loop over bytes that stand for a text which fits. The induction is on the sequences that
are left; each takes one pass. -/
theorem decodeLoop_of_reads (hin : input.length < 2 ^ 64) {rest acc text : List UInt8}
    (h : Reads rest acc text) : ∀ (fuel : Nat) (s : Decoder) (tail : List UInt8),
    s.At input acc tail rest → s.output.length < 2 ^ 64 → text.length ≤ s.output.length →
    input.length - s.ip < fuel →
    ∃ s', whileLoop (Decoder.more input) (decodePass input) fuel s = .done s' ∧
      s'.At input text (tail.drop (text.length - acc.length)) [] := by
  induction h with
  | @nil acc =>
      intro fuel s tail hat _ _ _
      have hadd := hat.ip_add
      rw [List.length_nil] at hadd
      refine ⟨s, whileLoop_done (by simp [Decoder.more]; omega) fuel, ?_⟩
      rw [Nat.sub_self, List.drop_zero]
      exact hat
  | @last token field lits acc hfield hlits =>
      intro fuel s tail hat hout hroom hfuel
      have hlen := hat.length_output
      rw [List.length_append] at hroom
      have hadd := hat.ip_add
      rw [List.length_cons] at hadd
      obtain ⟨s', hpass, hat'⟩ := decodePass_last hat hin hout hfield hlits (by omega)
      obtain ⟨fuel, rfl⟩ : ∃ k, fuel = k + 1 := ⟨fuel - 1, by omega⟩
      refine ⟨s', whileLoop_stop (by simp [Decoder.more]; omega) hpass fuel, ?_⟩
      rw [List.length_append, Nat.add_sub_cancel_left]
      exact hat'
  | @seq token lo hi field lits field' rest acc text hfield hlits hfield' hfits hrest ih =>
      intro fuel s tail hat hout hroom hfuel
      have hlen := hat.length_output
      have hexp : ((readSeq token lits lo hi field').expand acc).length
          = acc.length + lits.length + (readSeq token lits lo hi field').matchLen :=
        hfits.length_expand
      have hgrow := hrest.grows.length_le
      have hadd := hat.ip_add
      rw [List.length_cons] at hadd
      obtain ⟨s', hpass, hat'⟩ :=
        decodePass_seq hat hin hout hfield hlits hfield' hfits (by omega)
      have hlen' := hat'.length_output
      have hadd' := hat'.ip_add
      rw [List.length_drop] at hlen'
      simp only [List.length_append, List.length_cons] at hadd
      -- a sequence has at least one byte, so the fuel covers this pass and the rest
      obtain ⟨fuel, rfl⟩ : ∃ k, fuel = k + 1 := ⟨fuel - 1, by omega⟩
      obtain ⟨s'', hloop, hat''⟩ := ih fuel s' _ hat' (by omega) (by omega) (by omega)
      refine ⟨s'', ?_, ?_⟩
      · rw [whileLoop_next (by simp [Decoder.more]; omega) hpass, hloop]
      · rw [List.drop_drop] at hat''
        convert hat'' using 2
        omega

theorem Decoder.At.reads_nil {s : Decoder} {acc tail rest : List UInt8}
    (h : s.At input acc tail rest) (hip : input.length ≤ s.ip) :
    ∃ text, Reads rest acc text ∧ text.length ≤ s.output.length ∧
      s.At input text (tail.drop (text.length - acc.length)) [] := by
  have hadd := h.ip_add
  have hnil : rest = [] := List.length_eq_zero_iff.mp (by omega)
  subst hnil
  refine ⟨acc, .nil, by rw [h.length_output]; omega, ?_⟩
  rw [Nat.sub_self, List.drop_zero]
  exact h

/-- A loop that ends normally has read a text. -/
theorem reads_of_decodeLoop (hin : input.length < 2 ^ 64) (fuel : Nat) :
    ∀ {s s' : Decoder} {acc tail rest : List UInt8}, s.At input acc tail rest →
    s.output.length < 2 ^ 64 →
    whileLoop (Decoder.more input) (decodePass input) fuel s = .done s' →
    ∃ text, Reads rest acc text ∧ text.length ≤ s.output.length ∧
      s'.At input text (tail.drop (text.length - acc.length)) [] := by
  induction fuel with
  | zero =>
      intro s s' acc tail rest hat _ h
      rw [whileLoop] at h
      split_ifs at h with hc
      cases h
      exact hat.reads_nil (by simpa [Decoder.more] using hc)
  | succ fuel ih =>
      intro s s' acc tail rest hat hout h
      cases hc : Decoder.more input s with
      | false =>
          rw [whileLoop_done hc] at h
          cases h
          exact hat.reads_nil (by simpa [Decoder.more] using hc)
      | true =>
          have hip : s.ip < input.length := of_decide_eq_true hc
          have hlen := hat.length_output
          cases hb : decodePass input s with
          | next t =>
              rw [whileLoop_next hc hb] at h
              obtain ⟨token, lo, hi, field, lits, field', rest', rfl, hfield, hlits, hfield', hfits,
                hroom, ht⟩ := decodePass_next hat hip hin hout hb
              have hexp : ((readSeq token lits lo hi field').expand acc).length
                  = acc.length + lits.length + (readSeq token lits lo hi field').matchLen :=
                hfits.length_expand
              have hlen' := ht.length_output
              rw [List.length_drop] at hlen'
              obtain ⟨text, hreads, hfit, hat'⟩ := ih ht (by omega) h
              have hgrow := hreads.grows.length_le
              refine ⟨text, .seq hfield hlits hfield' hfits hreads, by omega, ?_⟩
              rw [List.drop_drop] at hat'
              convert hat' using 2
              omega
          | stop t =>
              rw [whileLoop_stop hc hb] at h
              obtain ⟨token, field, lits, rfl, hfield, hlits, hfit, ht⟩ :=
                decodePass_stop hat hip hin hout hb
              rw [Exit.done.inj h] at ht
              refine ⟨acc ++ lits, .last hfield hlits, by rw [List.length_append]; omega, ?_⟩
              rw [List.length_append, Nat.add_sub_cancel_left]
              exact ht
          | ret r =>
              rw [whileLoop_ret hc hb] at h
              cases h

end Loop

theorem decompressLz4_of_done {input output : List UInt8} {s : Decoder}
    (h : whileLoop (Decoder.more input) (decodePass input) (input.length + 1) ⟨0, 0, output⟩
      = .done s) : decompressLz4 input output = (.ok s.op, s.output) := by
  unfold decompressLz4
  split_ifs with hempty
  · -- the loop would end at once as well
    rw [whileLoop_done (by simp [Decoder.more, List.isEmpty_iff.mp hempty])] at h
    rw [← Exit.done.inj h]
  · rw [h]

theorem done_of_decompressLz4_ok {input output out : List UInt8} {n : Nat}
    (h : decompressLz4 input output = (.ok n, out)) :
    ∃ s, whileLoop (Decoder.more input) (decodePass input) (input.length + 1) ⟨0, 0, output⟩
      = .done s ∧ s.op = n ∧ s.output = out := by
  unfold decompressLz4 at h
  split_ifs at h with hempty
  · cases h
    exact ⟨_, whileLoop_done (by simp [Decoder.more, List.isEmpty_iff.mp hempty]) _, rfl, rfl⟩
  · split at h
    · next s hloop =>
        obtain ⟨hn, hout⟩ := Prod.mk.inj h
        exact ⟨s, hloop, Outcome.ok.inj hn, hout⟩
    · next r hloop =>
        obtain ⟨t, hret⟩ := exists_pass_of_whileLoop_ret _ _ hloop
        rcases decodePass_ret hret with hfail | hfail
        · rw [h] at hfail
          cases hfail
        · rw [h] at hfail
          cases hfail
    · cases h

/-- **The decoder reads exactly the bytes that stand for a text.** The text goes to the front of the
buffer, if it fits; the rest of the buffer is left as it is. -/
theorem decompressLz4_eq_ok_iff {input buf out : List UInt8} {n : Nat}
    (hin : input.length < 2 ^ 64) (hbuf : buf.length < 2 ^ 64) :
    decompressLz4 input buf = (.ok n, out) ↔
      ∃ text, Reads input [] text ∧ text.length ≤ buf.length ∧ n = text.length ∧
        out = text ++ buf.drop text.length := by
  have hstart : Decoder.At input ⟨0, 0, buf⟩ [] buf input := ⟨Nat.zero_le _, rfl, rfl, rfl⟩
  constructor
  · intro h
    obtain ⟨s, hloop, rfl, rfl⟩ := done_of_decompressLz4_ok h
    obtain ⟨text, hreads, hroom, hat⟩ := reads_of_decodeLoop hin _ hstart hbuf hloop
    rw [List.length_nil, Nat.sub_zero] at hat
    exact ⟨text, hreads, hroom, hat.op_eq, hat.output_eq⟩
  · rintro ⟨text, hreads, hroom, rfl, rfl⟩
    obtain ⟨s, hloop, hat⟩ := decodeLoop_of_reads hin hreads (input.length + 1) _ _ hstart hbuf
      hroom (by simp only; omega)
    rw [List.length_nil, Nat.sub_zero] at hat
    rw [decompressLz4_of_done hloop, hat.op_eq, hat.output_eq]

end Pepita.Zram
