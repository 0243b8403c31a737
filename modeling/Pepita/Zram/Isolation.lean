import Pepita.Zram.Safety

set_option autoImplicit false

/-! # Old contents of the buffer

`decompress_lz4` reads from the buffer it writes to. It never reads a byte it has not written in the
same call: two calls on the same input, with buffers of the same length, go the same way step by
step (`decodePass_alike`), whatever the buffers held, and where they succeed the text does not
depend on the buffer (`decompressLz4_eq_ok_iff`).
-/

namespace Pepita.Zram

/-! ## Two calls in step -/

/-- Two calls stand at the same place. -/
structure Decoder.Alike (s₁ s₂ : Decoder) : Prop where
  ip : s₁.ip = s₂.ip
  op : s₁.op = s₂.op
  length : s₁.output.length = s₂.output.length

/-- The two calls have given up with the same result. -/
def SameResult (r₁ r₂ : Decoded) : Prop := r₁.1 = r₂.1

/-- A part of a pass has gone the same way in both calls. -/
inductive SameWay : Except Decoded Decoder → Except Decoded Decoder → Prop where
  | error {r₁ r₂ : Decoded} (h : SameResult r₁ r₂) : SameWay (.error r₁) (.error r₂)
  | ok {s₁ s₂ : Decoder} (h : s₁.Alike s₂) : SameWay (.ok s₁) (.ok s₂)

section Parts

variable {input : List UInt8} {s₁ s₂ : Decoder}

theorem copyLiterals_alike (h : s₁.Alike s₂) (n : Nat) :
    SameWay (copyLiterals input s₁ n) (copyLiterals input s₂ n) := by
  unfold copyLiterals
  rw [h.ip, h.op, h.length]
  split_ifs with h0 hbad
  · exact .error rfl
  · cases slice input s₂.ip (wadd s₂.ip n) with
    | none => exact .error rfl
    | some literals =>
        -- whether the write is in range depends on the length of the buffer only
        dsimp only
        unfold copyInto
        rw [h.length]
        split_ifs with hrange
        · refine .ok ⟨rfl, rfl, ?_⟩
          have := h.length
          simp only [List.length_append, List.length_take, List.length_drop]
          omega
        · exact .error rfl
  · exact .ok h

/-- The overlapping copy is in range in both buffers or in neither. -/
theorem copyOverlapping_alike (n : Nat) : ∀ (op matchPos : Nat) {out₁ out₂ : List UInt8},
    out₁.length = out₂.length →
    (copyOverlapping op matchPos n out₁ = none ∧ copyOverlapping op matchPos n out₂ = none) ∨
    ∃ out₁' out₂', copyOverlapping op matchPos n out₁ = some out₁' ∧
      copyOverlapping op matchPos n out₂ = some out₂' ∧ out₁'.length = out₂'.length := by
  induction n with
  | zero =>
      intro op matchPos out₁ out₂ h
      exact .inr ⟨out₁, out₂, rfl, rfl, h⟩
  | succ n ih =>
      intro op matchPos out₁ out₂ h
      by_cases hpos : matchPos < out₂.length
      · obtain ⟨a₁, h₁⟩ : ∃ a, out₁[matchPos]? = some a := ⟨_, List.getElem?_eq_getElem (h ▸ hpos)⟩
        obtain ⟨a₂, h₂⟩ : ∃ a, out₂[matchPos]? = some a := ⟨_, List.getElem?_eq_getElem hpos⟩
        rw [copyOverlapping, copyOverlapping, h₁, h₂]
        dsimp only
        rw [h]
        split_ifs
        · exact ih _ _ (by rw [List.length_set, List.length_set, h])
        · exact .inl ⟨rfl, rfl⟩
      · left
        rw [copyOverlapping, copyOverlapping, List.getElem?_eq_none (by omega),
          List.getElem?_eq_none (by omega)]
        exact ⟨rfl, rfl⟩

theorem copyMatch_alike (input : List UInt8) (h : s₁.Alike s₂) (token : UInt8) :
    SameWay (copyMatch input token s₁) (copyMatch input token s₂) := by
  -- every test is about the input, the positions and the length of the buffer
  unfold copyMatch
  rw [h.ip, h.op, h.length]
  split
  · next lo hi _ _ =>
      dsimp only
      split_ifs
      · exact .error rfl
      · exact .error rfl
      · rcases copyOverlapping_alike _ s₂.op _ h.length with ⟨h₁, h₂⟩ | ⟨out₁, out₂, h₁, h₂, hlen⟩
        · rw [h₁, h₂]
          exact .error rfl
        · rw [h₁, h₂]
          exact .ok ⟨rfl, rfl, hlen⟩
  · exact .error rfl

theorem afterLiterals_alike {r₁ r₂ : Except Decoded Decoder} (h : SameWay r₁ r₂) (token : UInt8) :
    Pass.Rel Decoder.Alike SameResult (afterLiterals input token r₁)
      (afterLiterals input token r₂) := by
  cases h with
  | error h => exact .ret h
  | @ok t₁ t₂ h =>
      dsimp only [afterLiterals]
      rw [h.ip]
      split_ifs
      · exact .stop h
      · have hmatch := copyMatch_alike input h token
        generalize copyMatch input token t₁ = m₁, copyMatch input token t₂ = m₂ at hmatch
        cases hmatch with
        | error h => exact .ret h
        | ok h => exact .next h

/-- **One pass in step.** -/
theorem decodePass_alike (h : s₁.Alike s₂) :
    Pass.Rel Decoder.Alike SameResult (decodePass input s₁) (decodePass input s₂) := by
  unfold decodePass
  rw [h.ip]
  cases input[s₂.ip]? with
  | none => exact .ret rfl
  | some token =>
      apply afterLiterals_alike
      apply copyLiterals_alike
      exact ⟨rfl, h.op, h.length⟩

end Parts

theorem finish_alike {e₁ e₂ : Exit Decoder Decoded} (h : Exit.Rel Decoder.Alike SameResult e₁ e₂)
    (buf₁ buf₂ : List UInt8) : SameResult (Decoder.finish buf₁ e₁) (Decoder.finish buf₂ e₂) := by
  cases h with
  | done h => exact congrArg Outcome.ok h.op
  | ret h => exact h
  | timeout => rfl

/-- The result does not depend on what the buffer holds. -/
theorem decompressLz4_sameResult (input : List UInt8) {buf₁ buf₂ : List UInt8}
    (hlen : buf₁.length = buf₂.length) :
    SameResult (decompressLz4 input buf₁) (decompressLz4 input buf₂) := by
  rw [decompressLz4_eq_finish, decompressLz4_eq_finish]
  apply finish_alike
  apply whileLoop_rel
  · intro s t h
    rw [Decoder.more, Decoder.more, h.ip]
  · intro s t h
    exact decodePass_alike h
  · exact ⟨rfl, rfl, hlen⟩

/-- **The decoder does not depend on old contents of the buffer.** Two calls on the same input, with
buffers of the same length, have the same result; if it is `Ok(n)` the first `n` bytes are the same
and the others are those the buffer held before. -/
theorem decompressLz4_isolated (input buf₁ buf₂ : ByteSlice)
    (hlen : buf₁.1.length = buf₂.1.length) :
    (decompressLz4 input.1 buf₁.1).1 = (decompressLz4 input.1 buf₂.1).1 ∧
    ∀ n, (decompressLz4 input.1 buf₁.1).1 = .ok n →
      (decompressLz4 input.1 buf₁.1).2.take n = (decompressLz4 input.1 buf₂.1).2.take n ∧
      (decompressLz4 input.1 buf₁.1).2.drop n = buf₁.1.drop n ∧
      (decompressLz4 input.1 buf₂.1).2.drop n = buf₂.1.drop n := by
  have hin := input.2
  have h₁ := buf₁.2
  have h₂ := buf₂.2
  refine ⟨decompressLz4_sameResult input.1 hlen, fun n hok => ?_⟩
  obtain ⟨text, hreads, hroom, rfl, hout⟩ :=
    (decompressLz4_eq_ok_iff (by omega) (by omega)).mp (Prod.ext hok rfl :
      decompressLz4 input.1 buf₁.1 = (.ok n, (decompressLz4 input.1 buf₁.1).2))
  -- the text is one of the input, and fits the second buffer as well
  have hok₂ : decompressLz4 input.1 buf₂.1
      = (.ok text.length, text ++ buf₂.1.drop text.length) :=
    (decompressLz4_eq_ok_iff (by omega) (by omega)).mpr ⟨text, hreads, by omega, rfl, rfl⟩
  rw [hout, hok₂]
  exact ⟨by rw [List.take_left, List.take_left], List.drop_left, List.drop_left⟩

/-- An overlapping match into two buffers of six bytes: the text is the same, and the last byte is
the one that was there. -/
theorem decompressLz4_isolated_match :
    (decompressLz4 [0x10, 97, 1, 0] [1, 2, 3, 4, 5, 6]).1
      = (decompressLz4 [0x10, 97, 1, 0] [9, 9, 9, 9, 9, 9]).1 ∧
    decompressLz4 [0x10, 97, 1, 0] [1, 2, 3, 4, 5, 6] = (.ok 5, [97, 97, 97, 97, 97, 6]) :=
  ⟨(decompressLz4_isolated (.ofList [0x10, 97, 1, 0] (by decide))
    (.ofList [1, 2, 3, 4, 5, 6] (by decide)) (.ofList [9, 9, 9, 9, 9, 9] (by decide)) rfl).1,
    by decide +kernel⟩

end Pepita.Zram
