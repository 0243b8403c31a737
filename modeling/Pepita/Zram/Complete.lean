import Pepita.Zram.Stream

set_option autoImplicit false

/-! # Complete blocks

The block format taken at its word: a block is a concatenation of sequences, each with all its
bytes, and only the last may be literals without an offset. Lengths are numbers, not words. There is
one way at most to read bytes so (`CompleteBlock.unique`).

`Reads` (`Zram/Format.lean`), which is what the decoder accepts, is wider: a match length may be cut
off by the end of the input (`acceptsOnlyComplete_iff`). What the encoder writes is always complete
(`completeBlock_emit`).
-/

namespace Pepita.Zram

open Lz77

/-! ## The format -/

/-- The bytes that extend a length, to the first that is not 255. -/
inductive Terminated : List UInt8 → Prop where
  | last {b : UInt8} (h : b ≠ 255) : Terminated [b]
  | more {field : List UInt8} (h : Terminated field) : Terminated (255 :: field)

/-- All the bytes that belong to a length with the nibble `n`. -/
def CompleteField (n : Nat) (field : List UInt8) : Prop :=
  if n = 15 then Terminated field else field = []

/-- The number a length field spells, with the nibble `n`. -/
def spelled (n : Nat) (field : List UInt8) : Nat := n + (field.map UInt8.toNat).sum

/-- `bytes` are complete sequences, the final literals-only one, if there is one, with the literals
`last`. -/
inductive CompleteBlock : List UInt8 → List UInt8 → Prop where
  | nil : CompleteBlock [] []
  | last {token : UInt8} {field lits : List UInt8}
      (hfield : CompleteField (token.toNat / 16) field)
      (hlits : lits.length = spelled (token.toNat / 16) field) :
      CompleteBlock (token :: (field ++ lits)) lits
  | seq {token lo hi : UInt8} {field lits field' rest last : List UInt8}
      (hfield : CompleteField (token.toNat / 16) field)
      (hlits : lits.length = spelled (token.toNat / 16) field)
      (hfield' : CompleteField (token.toNat % 16) field')
      (hrest : CompleteBlock rest last) :
      CompleteBlock (token :: (field ++ (lits ++ lo :: hi :: (field' ++ rest)))) last

/-! ## Length fields -/

theorem Terminated.extension {field : List UInt8} (h : Terminated field) (rest : List UInt8) :
    Extension field rest := by
  induction h with
  | last h => exact .last h
  | more _ ih => exact .more ih

theorem CompleteField.lengthField {n : Nat} {field : List UInt8} (h : CompleteField n field)
    (rest : List UInt8) : LengthField n field rest := by
  unfold CompleteField at h
  unfold LengthField
  split_ifs at h ⊢
  · exact h.extension rest
  · exact h

/-- An extension is terminated, or it is 255s up to the end of the input. -/
theorem Extension.terminated_or_cut {field rest : List UInt8} (h : Extension field rest) :
    Terminated field ∨ (rest = [] ∧ ∀ b ∈ field, b = 255) := by
  induction h with
  | cut => exact .inr ⟨rfl, by simp⟩
  | last h => exact .inl (.last h)
  | more _ ih =>
      rcases ih with hterm | ⟨hrest, hall⟩
      · exact .inl (.more hterm)
      · exact .inr ⟨hrest, by simpa using hall⟩

theorem extension_of_forall {field : List UInt8} (h : ∀ b ∈ field, b = 255) :
    Extension field [] := by
  induction field with
  | nil => exact .cut
  | cons b field ih =>
      rw [h b (by simp)]
      exact .more (ih fun c hc => h c (by simp [hc]))

/-- A length field is complete, or it is cut off at the end of the input. -/
theorem LengthField.complete_or_cut {n : Nat} {field rest : List UInt8}
    (h : LengthField n field rest) :
    CompleteField n field ∨ (n = 15 ∧ rest = [] ∧ ∀ b ∈ field, b = 255) := by
  unfold LengthField at h
  unfold CompleteField
  split_ifs at h ⊢ with h15
  · rcases h.terminated_or_cut with hterm | hcut
    · exact .inl hterm
    · exact .inr ⟨h15, hcut⟩
  · exact .inl h

theorem not_terminated_of_forall {field : List UInt8} (h : ∀ b ∈ field, b = 255) :
    ¬ Terminated field := by
  intro hterm
  induction hterm with
  | last hb => exact hb (h _ (by simp))
  | more _ ih => exact ih fun b hb => h b (by simp [hb])

/-- The bytes decide where an extension ends. -/
theorem Extension.unique {field rest : List UInt8} (h : Extension field rest) :
    ∀ {field' rest' : List UInt8}, Extension field' rest' → field ++ rest = field' ++ rest' →
      field = field' := by
  induction h with
  | cut =>
      intro field' rest' _ heq
      exact (List.append_eq_nil_iff.mp heq.symm).1.symm
  | @last b rest hb =>
      intro field' rest' h' heq
      cases h' with
      | cut => cases heq
      | last hb' =>
          rw [List.cons_append, List.cons_append, List.cons.injEq] at heq
          rw [heq.1]
      | more h' =>
          rw [List.cons_append, List.cons_append, List.cons.injEq] at heq
          exact absurd heq.1 hb
  | @more field rest _ ih =>
      intro field' rest' h' heq
      cases h' with
      | cut => cases heq
      | last hb' =>
          rw [List.cons_append, List.cons_append, List.cons.injEq] at heq
          exact absurd heq.1.symm hb'
      | more h' =>
          rw [List.cons_append, List.cons_append, List.cons.injEq] at heq
          rw [ih h' heq.2]

theorem LengthField.unique {n : Nat} {field rest field' rest' : List UInt8}
    (h : LengthField n field rest) (h' : LengthField n field' rest')
    (heq : field ++ rest = field' ++ rest') : field = field' ∧ rest = rest' := by
  have hfield : field = field' := by
    unfold LengthField at h h'
    split_ifs at h h'
    · exact h.unique h' heq
    · rw [h, h']
  subst hfield
  exact ⟨rfl, List.append_cancel_left heq⟩

/-! ## One way to read a block -/

/-- How bytes that start with a token can be a complete block, when the bytes of the literal length
are `field`. -/
theorem CompleteBlock.of_token {token : UInt8} {field rest last : List UInt8}
    (h : CompleteBlock (token :: (field ++ rest)) last)
    (hfield : LengthField (token.toNat / 16) field rest) :
    CompleteField (token.toNat / 16) field ∧
      ((rest.length = spelled (token.toNat / 16) field ∧ last = rest) ∨
        ∃ lits lo hi field' rest', rest = lits ++ lo :: hi :: (field' ++ rest') ∧
          lits.length = spelled (token.toNat / 16) field ∧
          CompleteField (token.toNat % 16) field' ∧ CompleteBlock rest' last) := by
  generalize hbytes : token :: (field ++ rest) = bytes at h
  cases h with
  | nil => cases hbytes
  | @last token' field₁ lits hfield₁ hlits =>
      rw [List.cons.injEq] at hbytes
      obtain ⟨rfl, heq⟩ := hbytes
      obtain ⟨rfl, rfl⟩ := hfield.unique (hfield₁.lengthField _) heq
      exact ⟨hfield₁, .inl ⟨hlits, rfl⟩⟩
  | @seq token' lo hi field₁ lits field' rest' _ hfield₁ hlits hfield' hrest =>
      rw [List.cons.injEq] at hbytes
      obtain ⟨rfl, heq⟩ := hbytes
      obtain ⟨rfl, rfl⟩ := hfield.unique (hfield₁.lengthField _) heq
      exact ⟨hfield₁, .inr ⟨lits, lo, hi, field', rest', rfl, hlits, hfield', hrest⟩⟩

/-- The same when the literals and the two bytes of an offset are known. -/
theorem CompleteBlock.of_seq {token lo hi : UInt8} {field lits tail last : List UInt8}
    (h : CompleteBlock (token :: (field ++ (lits ++ lo :: hi :: tail))) last)
    (hfield : CompleteField (token.toNat / 16) field)
    (hlits : lits.length = spelled (token.toNat / 16) field) :
    ∃ field' rest, tail = field' ++ rest ∧ CompleteField (token.toNat % 16) field' ∧
      CompleteBlock rest last := by
  rcases (h.of_token (hfield.lengthField _)).2 with
    ⟨hend, -⟩ | ⟨lits', lo', hi', field', rest, heq, hlits', hfield', hrest⟩
  · -- it cannot end with its literals: two bytes follow them
    rw [List.length_append, List.length_cons, List.length_cons] at hend
    omega
  · obtain ⟨-, htail⟩ := List.append_inj heq (by omega)
    rw [List.cons.injEq, List.cons.injEq] at htail
    exact ⟨field', rest, htail.2.2, hfield', hrest⟩

/-- **Bytes are a complete block in one way at most.** -/
theorem CompleteBlock.unique {bytes last last' : List UInt8} (h : CompleteBlock bytes last) :
    CompleteBlock bytes last' → last = last' := by
  induction h with
  | nil =>
      intro h'
      cases h'
      rfl
  | @last token field lits hfield hlits =>
      intro h'
      rcases (h'.of_token (hfield.lengthField _)).2 with
        ⟨-, rfl⟩ | ⟨lits', lo, hi, field', rest', heq, hlits', -, -⟩
      · rfl
      · -- the other reading has as many literals, and then two bytes more
        have hlen := congrArg List.length heq
        rw [List.length_append, List.length_cons, List.length_cons] at hlen
        omega
  | @seq token lo hi field lits field' rest last hfield hlits hfield' hrest ih =>
      intro h'
      obtain ⟨field'', rest', htail, hfield'', hrest'⟩ := h'.of_seq hfield hlits
      obtain ⟨-, rfl⟩ := (hfield'.lengthField rest).unique (hfield''.lengthField rest') htail
      exact ih hrest'

/-! ## What the decoder accepts -/

/-- `bytes`, read after the text `acc`, make it `text`, but they are not a complete block: after
some complete sequences comes one whose match length is 255s up to the end of the input, or no bytes
at all (`cut`), or one whose literal length does not fit a word (`wraps`, from `2 ^ 55` bytes on).
-/
inductive Truncated : List UInt8 → List UInt8 → List UInt8 → Prop where
  -- the loop that reads a length stops at the end of the input without an error
  | cut {token lo hi : UInt8} {field lits field' acc : List UInt8}
      (hfield : CompleteField (token.toNat / 16) field)
      (hlits : lits.length = spelled (token.toNat / 16) field)
      (hnib : token.toNat % 16 = 15) (hcut : ∀ b ∈ field', b = 255)
      (hfits : (readSeq token lits lo hi field').Fits acc) :
      Truncated (token :: (field ++ (lits ++ lo :: hi :: field'))) acc
        ((readSeq token lits lo hi field').expand acc)
  -- the sum of the length bytes is taken modulo `2 ^ 64`
  | wraps {token : UInt8} {field rest acc text : List UInt8}
      (hfield : LengthField (token.toNat / 16) field rest)
      (hlong : 2 ^ 64 ≤ spelled (token.toNat / 16) field)
      (hreads : Reads (token :: (field ++ rest)) acc text) :
      Truncated (token :: (field ++ rest)) acc text
  | seq {token lo hi : UInt8} {field lits field' rest acc text : List UInt8}
      (hfield : CompleteField (token.toNat / 16) field)
      (hlits : lits.length = spelled (token.toNat / 16) field)
      (hfield' : CompleteField (token.toNat % 16) field')
      (hfits : (readSeq token lits lo hi field').Fits acc)
      (hrest : Truncated rest ((readSeq token lits lo hi field').expand acc) text) :
      Truncated (token :: (field ++ (lits ++ lo :: hi :: (field' ++ rest)))) acc text

theorem lengthOf_eq_spelled {n : Nat} {field : List UInt8} (h : spelled n field < 2 ^ 64) :
    lengthOf n field = spelled n field := Nat.mod_eq_of_lt h

/-- Literals of the length read, and of a length that fits a word, have a complete length field: a
cut one would ask for 15 literals or more, and there are none. -/
theorem completeField_of_lits {n : Nat} {field lits rest : List UInt8}
    (hfield : LengthField n field (lits ++ rest)) (hlits : lits.length = lengthOf n field)
    (hshort : spelled n field < 2 ^ 64) :
    CompleteField n field ∧ lits.length = spelled n field := by
  rw [lengthOf_eq_spelled hshort] at hlits
  refine ⟨?_, hlits⟩
  rcases hfield.complete_or_cut with hcomplete | ⟨h15, hnil, -⟩
  · exact hcomplete
  · have hno : lits = [] := (List.append_eq_nil_iff.mp hnil).1
    rw [hno, h15, spelled, List.length_nil] at hlits
    omega

theorem Reads.complete_or_truncated {bytes acc text : List UInt8} (h : Reads bytes acc text) :
    (∃ last, CompleteBlock bytes last) ∨ Truncated bytes acc text := by
  induction h with
  | nil => exact .inl ⟨[], .nil⟩
  | @last token field lits acc hfield hlits =>
      rcases Nat.lt_or_ge (spelled (token.toNat / 16) field) (2 ^ 64) with hshort | hlong
      · rw [← List.append_nil lits] at hfield
        obtain ⟨hcomplete, hlen⟩ := completeField_of_lits hfield hlits hshort
        exact .inl ⟨lits, .last hcomplete hlen⟩
      · exact .inr (.wraps hfield hlong (.last hfield hlits))
  | @seq token lo hi field lits field' rest acc text hfield hlits hfield' hfits hrest ih =>
      rcases Nat.lt_or_ge (spelled (token.toNat / 16) field) (2 ^ 64) with hshort | hlong
      · obtain ⟨hcomplete, hlen⟩ := completeField_of_lits hfield hlits hshort
        rcases hfield'.complete_or_cut with hcomplete' | ⟨h15, rfl, hcut⟩
        · rcases ih with ⟨last, hlast⟩ | htrunc
          · exact .inl ⟨last, .seq hcomplete hlen hcomplete' hlast⟩
          · exact .inr (.seq hcomplete hlen hcomplete' hfits htrunc)
        · -- the match is the last thing in the input
          cases hrest
          rw [List.append_nil]
          exact .inr (.cut hcomplete hlen h15 hcut hfits)
      · exact .inr (.wraps hfield hlong (.seq hfield hlits hfield' hfits hrest))

theorem Truncated.reads {bytes acc text : List UInt8} (h : Truncated bytes acc text)
    (hlen : bytes.length < 2 ^ 64) : Reads bytes acc text := by
  induction h with
  | @cut token lo hi field lits field' acc hfield hlits hnib hcut hfits =>
      have hfield' : LengthField (token.toNat % 16) field' [] := by
        rw [LengthField, if_pos hnib]
        exact extension_of_forall hcut
      simp only [List.length_cons, List.length_append] at hlen
      have hreads : Reads (token :: (field ++ (lits ++ lo :: hi :: (field' ++ [])))) acc _ :=
        .seq (hfield.lengthField _) (by rw [lengthOf_eq_spelled (by omega), hlits]) hfield' hfits
          .nil
      rw [List.append_nil] at hreads
      exact hreads
  | wraps _ _ hreads => exact hreads
  | @seq token lo hi field lits field' rest acc text hfield hlits hfield' hfits _ ih =>
      simp only [List.length_cons, List.length_append] at hlen
      exact .seq (hfield.lengthField _) (by rw [lengthOf_eq_spelled (by omega), hlits])
        (hfield'.lengthField _) hfits (ih (by omega))

theorem Truncated.not_complete {bytes acc text : List UInt8} (h : Truncated bytes acc text)
    (hlen : bytes.length < 2 ^ 64) (last : List UInt8) : ¬ CompleteBlock bytes last := by
  induction h with
  | @cut token lo hi field lits field' acc hfield hlits hnib hcut hfits =>
      intro hblock
      obtain ⟨field'', rest', htail, hfield'', -⟩ := hblock.of_seq hfield hlits
      rw [CompleteField, if_pos hnib] at hfield''
      -- the bytes of the match length are among the 255s
      refine not_terminated_of_forall (fun b hb => hcut b ?_) hfield''
      rw [htail]
      exact List.mem_append_left _ hb
  | @wraps token field rest acc text hfield hlong _ =>
      -- a complete block would have `2 ^ 64` literals
      intro hblock
      simp only [List.length_cons, List.length_append] at hlen
      rcases (hblock.of_token hfield).2 with
        ⟨hend, -⟩ | ⟨lits', lo', hi', field'', rest', heq, hlits', -, -⟩
      · omega
      · have hrest := congrArg List.length heq
        rw [List.length_append] at hrest
        omega
  | @seq token lo hi field lits field' rest acc text hfield hlits hfield' hfits _ ih =>
      intro hblock
      simp only [List.length_cons, List.length_append] at hlen
      obtain ⟨field'', rest', htail, hfield'', hrest'⟩ := hblock.of_seq hfield hlits
      obtain ⟨-, rfl⟩ := (hfield'.lengthField rest).unique (hfield''.lengthField rest') htail
      exact ih (by omega) hrest'

/-- If the decoder accepts `b` into the buffer, `b` is a complete block. -/
def AcceptsOnlyComplete (b buf : List UInt8) : Prop :=
  ∀ n, (decompressLz4 b buf).1 = .ok n → ∃ last, CompleteBlock b last

/-- **The decoder accepts a block that is not complete exactly when it is truncated and its text
fits the buffer.** -/
theorem acceptsOnlyComplete_iff (b buf : ByteSlice) :
    AcceptsOnlyComplete b.1 buf.1 ↔
      ¬ ∃ text, Truncated b.1 [] text ∧ text.length ≤ buf.1.length := by
  have hb := b.2
  have hbuf := buf.2
  constructor
  · rintro hall ⟨text, htrunc, hroom⟩
    have hok : decompressLz4 b.1 buf.1 = (.ok text.length, text ++ buf.1.drop text.length) :=
      (decompressLz4_eq_ok_iff (by omega) (by omega)).mpr
        ⟨text, htrunc.reads (by omega), hroom, rfl, rfl⟩
    obtain ⟨last, hblock⟩ := hall text.length (by rw [hok])
    exact htrunc.not_complete (by omega) last hblock
  · intro hno n hok
    have hpair : decompressLz4 b.1 buf.1 = (.ok n, (decompressLz4 b.1 buf.1).2) :=
      Prod.ext hok rfl
    obtain ⟨text, hreads, hroom, -, -⟩ := (decompressLz4_eq_ok_iff (by omega) (by omega)).mp hpair
    rcases hreads.complete_or_truncated with hblock | htrunc
    · exact hblock
    · exact absurd ⟨text, htrunc, hroom⟩ hno

/-- A token that announces a longer match, one literal and an offset; the length byte is missing.
The decoder takes it for a match of 19 bytes. -/
theorem cut_match_accepted :
    let b : List UInt8 := [0x1F, 97, 1, 0]
    decompressLz4 b (List.replicate 20 0) = (.ok 20, List.replicate 20 97) ∧
    ¬ AcceptsOnlyComplete b (List.replicate 20 0) := by
  intro b
  have hok : decompressLz4 b (List.replicate 20 0) = (.ok 20, List.replicate 20 97) := by
    decide +kernel
  refine ⟨hok, fun hall => ?_⟩
  obtain ⟨last, hblock⟩ := hall 20 (by rw [hok])
  have htrunc : Truncated (0x1F :: ([] ++ ([97] ++ 1 :: 0 :: []))) [] _ :=
    .cut rfl rfl rfl (by simp) ⟨by decide, by decide⟩
  exact htrunc.not_complete (by decide) last hblock

/-! ## How the encoder ends a block -/

theorem completeField_lengthBytes (len : Nat) :
    CompleteField (nibble len).toNat (lengthBytes len) := by
  -- whatever follows, the field is the same; so let something follow
  rcases (lengthField_lengthBytes len [0]).complete_or_cut with h | ⟨-, hnil, -⟩
  · exact h
  · cases hnil

theorem spelled_lengthBytes (len : Nat) :
    spelled (nibble len).toNat (lengthBytes len) = len := by
  unfold spelled lengthBytes
  rw [toNat_nibble]
  split_ifs with h15
  · rw [sum_extendedLength]
    omega
  · rw [List.map_nil, List.sum_nil]
    omega

/-- **What the encoder writes is a complete block**, with its last literals. -/
theorem completeBlock_emit (last : List UInt8) (qs : List (Seq UInt8)) :
    CompleteBlock (qs.flatMap emit ++ emitLast last) last := by
  induction qs with
  | nil =>
      rw [List.flatMap_nil, List.nil_append, emitLast]
      split_ifs with hlast
      · rw [List.isEmpty_iff.mp hlast]
        exact .nil
      · refine CompleteBlock.last ?_ ?_
        · rw [token_last]
          exact completeField_lengthBytes _
        · rw [token_last, spelled_lengthBytes]
  | cons q qs ih =>
      rw [flatMap_emit_cons]
      refine CompleteBlock.seq ?_ ?_ ?_ ih
      · rw [token_high]
        exact completeField_lengthBytes _
      · rw [token_high, spelled_lengthBytes]
      · rw [token_low]
        exact completeField_lengthBytes _

end Pepita.Zram
