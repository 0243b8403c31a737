import Pepita.Basic.Definitions
import Pepita.Lib.Endian
import Pepita.Lib.Outcome

set_option autoImplicit false

/-! # Message framing

The wire format of `transport.rs`: a frame is a 4-byte big-endian length, a type byte and the
payload, where the length counts the type byte and the payload. `Message.fromBytes` reads one
frame from the front of a byte string and ignores what follows it.

`fromBytes_cons` says everything `fromBytes` can do on a string that has a header; the results
on streams of frames and on arbitrary input are read off it.
-/

namespace Pepita.Transport

/-! ## The model -/

/-- `MessageType`. -/
inductive MessageType where
  | taskSubmit
  | taskResult
  | heartbeat
  | taskCancel
  | ack
  | error
  | shutdown
  | register
  | deregister
  | status
  deriving DecidableEq, Repr

/-- `MessageType::from_u8`. -/
def MessageType.fromU8 (value : UInt8) : Option MessageType :=
  match value.toNat with
  | 0 => some .taskSubmit
  | 1 => some .taskResult
  | 2 => some .heartbeat
  | 3 => some .taskCancel
  | 4 => some .ack
  | 5 => some .error
  | 6 => some .shutdown
  | 7 => some .register
  | 8 => some .deregister
  | 9 => some .status
  | _ => none

/-- `MessageType::as_u8`: the discriminant. -/
def MessageType.asU8 : MessageType → UInt8
  | .taskSubmit => 0
  | .taskResult => 1
  | .heartbeat => 2
  | .taskCancel => 3
  | .ack => 4
  | .error => 5
  | .shutdown => 6
  | .register => 7
  | .deregister => 8
  | .status => 9

/-- `Message`. -/
structure Message where
  msgType : MessageType
  payload : List UInt8
  deriving DecidableEq, Repr

namespace Message

/-- The length field `to_bytes` writes: `1 + payload.len() as u32`, both in `u32`. -/
def totalLen (m : Message) : Nat := (1 + m.payload.length % 2 ^ 32) % 2 ^ 32

/-- `Message::to_bytes`. -/
def toBytes (m : Message) : List UInt8 :=
  toBe 4 m.totalLen ++ [m.msgType.asU8] ++ m.payload

/-- `Message::from_bytes`. -/
def fromBytes (bytes : List UInt8) : Outcome KernelError Message :=
  if bytes.length < 5 then .err .invalidRequest
  else do
    let b₀ ← .orPanic bytes[0]?
    let b₁ ← .orPanic bytes[1]?
    let b₂ ← .orPanic bytes[2]?
    let b₃ ← .orPanic bytes[3]?
    let totalLen := fromBe [b₀, b₁, b₂, b₃]
    if bytes.length < 4 + totalLen then .err .invalidRequest
    else do
      let code ← .orPanic bytes[4]?
      let msgType ← .okOr .invalidRequest (MessageType.fromU8 code)
      -- `bytes[5..4 + total_len]` panics when `total_len` is 0
      let payload ← .orPanic (slice bytes 5 (4 + totalLen))
      pure ⟨msgType, payload⟩

/-- `Message::size`. -/
def size (m : Message) : Nat := 4 + 1 + m.payload.length

end Message

/-- Read up to `n` frames from the front of `bytes`: call `from_bytes`, advance by the `size` of
the message it returns, and stop at the first call that returns none. The result is the
messages and the bytes left. -/
def decodeFrames : Nat → List UInt8 → List Message × List UInt8
  | 0, bytes => ([], bytes)
  | n + 1, bytes =>
      match Message.fromBytes bytes with
      | .ok m =>
          let r := decodeFrames n (bytes.drop m.size)
          (m :: r.1, r.2)
      | _ => ([], bytes)

/-! ## The type byte -/

theorem MessageType.fromU8_asU8 (t : MessageType) : MessageType.fromU8 t.asU8 = some t := by
  cases t <;> rfl

theorem MessageType.asU8_of_fromU8 {code : UInt8} {t : MessageType}
    (h : MessageType.fromU8 code = some t) : t.asU8 = code := by
  rw [← UInt8.toNat_inj]
  unfold MessageType.fromU8 at h
  split at h <;> first
    | (cases h; simp only [MessageType.asU8]; symm; assumption)
    | cases h

theorem MessageType.isSome_fromU8_iff (code : UInt8) :
    (MessageType.fromU8 code).isSome ↔ code ≤ 9 := by
  rw [UInt8.le_iff_toNat_le, show (9 : UInt8).toNat = 9 from rfl]
  unfold MessageType.fromU8
  split <;> simp_all
  omega

/-! ## One frame -/

namespace Message

theorem fromBytes_short {bytes : List UInt8} (h : bytes.length < 5) :
    fromBytes bytes = .err .invalidRequest := if_pos h

/-- **What `fromBytes` does on a string with a header.** The four length bytes spell `len`; the
payload is what follows the type byte, up to the length. -/
theorem fromBytes_cons (b₀ b₁ b₂ b₃ code : UInt8) (rest : List UInt8) :
    fromBytes (b₀ :: b₁ :: b₂ :: b₃ :: code :: rest)
      = if rest.length + 1 < fromBe [b₀, b₁, b₂, b₃] then .err .invalidRequest
        else match MessageType.fromU8 code with
          | none => .err .invalidRequest
          | some t =>
              if fromBe [b₀, b₁, b₂, b₃] = 0 then .panic
              else .ok ⟨t, rest.take (fromBe [b₀, b₁, b₂, b₃] - 1)⟩ := by
  set len := fromBe [b₀, b₁, b₂, b₃] with hlen
  have hlong : ¬ (b₀ :: b₁ :: b₂ :: b₃ :: code :: rest).length < 5 := by simp
  unfold fromBytes
  rw [if_neg hlong]
  simp only [List.getElem?_cons_zero, List.getElem?_cons_succ, Outcome.orPanic_some,
    Outcome.ok_bind, ← hlen]
  by_cases hshort : rest.length + 1 < len
  · rw [if_pos (by simp only [List.length_cons]; omega), if_pos hshort]
  rw [if_neg (by simp only [List.length_cons]; omega), if_neg hshort]
  cases MessageType.fromU8 code with
  | none => rfl
  | some t =>
      simp only [Outcome.okOr_some, Outcome.ok_bind]
      by_cases h0 : len = 0
      · -- the range `5..4`
        rw [slice_eq_none (by omega), if_pos h0]
        rfl
      · have hsub : 4 + len - 5 = len - 1 := by omega
        rw [slice_of_le (by omega) (by simp only [List.length_cons]; omega), if_neg h0, hsub]
        rfl

/-- `size` is the length of the encoding, also where the length field wraps. -/
theorem size_eq_length_toBytes (m : Message) : m.size = m.toBytes.length := by
  simp [size, toBytes]
  omega

theorem totalLen_of_lt {m : Message} (h : m.payload.length + 1 < 2 ^ 32) :
    m.totalLen = m.payload.length + 1 := by
  rw [totalLen, Nat.mod_eq_of_lt (by omega : m.payload.length < 2 ^ 32),
    Nat.mod_eq_of_lt (by omega)]
  omega

/-- Four bytes, as the list of them. -/
private theorem eq_four {l : List UInt8} (h : l.length = 4) :
    ∃ b₀ b₁ b₂ b₃, l = [b₀, b₁, b₂, b₃] := by
  match l, h with
  | [b₀, b₁, b₂, b₃], _ => exact ⟨b₀, b₁, b₂, b₃, rfl⟩

/-- **A frame is read back whatever follows it.** -/
theorem fromBytes_toBytes_append (m : Message) (h : m.payload.length + 1 < 2 ^ 32)
    (rest : List UInt8) : fromBytes (m.toBytes ++ rest) = .ok m := by
  obtain ⟨b₀, b₁, b₂, b₃, hb⟩ := eq_four (length_toBe 4 m.totalLen)
  have hlen : fromBe [b₀, b₁, b₂, b₃] = m.payload.length + 1 := by
    rw [← hb, fromBe_toBe 4 _ (by rw [totalLen_of_lt h]; exact h), totalLen_of_lt h]
  have happ : m.toBytes ++ rest
      = b₀ :: b₁ :: b₂ :: b₃ :: m.msgType.asU8 :: (m.payload ++ rest) := by
    simp [toBytes, hb]
  rw [happ, fromBytes_cons, hlen, if_neg (by simp), MessageType.fromU8_asU8]
  simp

end Message

/-! ## Streams of frames -/

theorem decodeFrames_toBytes_append (m : Message) (h : m.payload.length + 1 < 2 ^ 32)
    (n : Nat) (rest : List UInt8) :
    decodeFrames (n + 1) (m.toBytes ++ rest)
      = (m :: (decodeFrames n rest).1, (decodeFrames n rest).2) := by
  rw [decodeFrames, Message.fromBytes_toBytes_append m h]
  simp only
  rw [Message.size_eq_length_toBytes, List.drop_left]

/-- Decoding past a list of frames is decoding what follows them. -/
theorem decodeFrames_flatMap_append (k : Nat) (trailing : List UInt8) :
    ∀ ms : List Message, (∀ m ∈ ms, m.payload.length + 1 < 2 ^ 32) →
      decodeFrames (ms.length + k) (ms.flatMap Message.toBytes ++ trailing)
        = (ms ++ (decodeFrames k trailing).1, (decodeFrames k trailing).2) := by
  intro ms
  induction ms with
  | nil => intro _; simp
  | cons m ms ih =>
      intro h
      have hm := h m (by simp)
      have hms := ih (fun m' hm' => h m' (by simp [hm']))
      rw [List.flatMap_cons, List.append_assoc, List.length_cons,
        show ms.length + 1 + k = ms.length + k + 1 by omega,
        decodeFrames_toBytes_append m hm, hms]
      rfl

/-- A string that does not start with a frame is left alone, however often it is tried. -/
theorem decodeFrames_of_not_ok {bytes : List UInt8}
    (h : ∀ m, Message.fromBytes bytes ≠ .ok m) (k : Nat) : decodeFrames k bytes = ([], bytes) := by
  cases k with
  | zero => rfl
  | succ k =>
      rw [decodeFrames]
      split
      · next m hm => exact absurd hm (h m)
      · rfl

/-- **Framing is lossless and self-delimiting.** `size` is the encoded length; reading as many
frames as were written returns exactly the messages and stops at the trailing bytes; and when
the trailing bytes do not start with a frame themselves, no further call goes past them. -/
theorem framing_lossless (ms : List Message) (trailing : List UInt8)
    (h : ∀ m ∈ ms, m.payload.length + 1 < 2 ^ 32) :
    (∀ m : Message, m.size = m.toBytes.length) ∧
    decodeFrames ms.length (ms.flatMap Message.toBytes ++ trailing) = (ms, trailing) ∧
    ((∀ m, Message.fromBytes trailing ≠ .ok m) → ∀ k,
      decodeFrames (ms.length + k) (ms.flatMap Message.toBytes ++ trailing) = (ms, trailing)) := by
  refine ⟨Message.size_eq_length_toBytes, ?_, fun ht k => ?_⟩
  · have := decodeFrames_flatMap_append 0 trailing ms h
    simpa [decodeFrames] using this
  · rw [decodeFrames_flatMap_append k trailing ms h, decodeFrames_of_not_ok ht]
    simp

theorem framing_lossless_two :
    decodeFrames 2 ([⟨.ack, []⟩, ⟨.error, [116, 101, 115, 116]⟩].flatMap Message.toBytes ++ [0, 7])
      = ([⟨.ack, []⟩, ⟨.error, [116, 101, 115, 116]⟩], [0, 7]) :=
  (framing_lossless [⟨.ack, []⟩, ⟨.error, [116, 101, 115, 116]⟩] [0, 7]
    (by intro m hm; simp at hm; rcases hm with rfl | rfl <;> decide)).2.1

/-! ## Arbitrary input -/

/-- The messages whose length field does not wrap. -/
def Message.Fits (m : Message) : Prop := m.payload.length < 2 ^ 32 - 1

/-- `from_bytes` on `bytes` is an exact parser: it returns, it accepts exactly the fitting
messages whose encoding `bytes` starts with, and it rejects everything else as an invalid
request. -/
def ExactParser (bytes : List UInt8) : Prop :=
  (Message.fromBytes bytes ≠ .panic ∧ Message.fromBytes bytes ≠ .diverge) ∧
  (∀ m, Message.fromBytes bytes = .ok m ↔ m.Fits ∧ m.toBytes <+: bytes) ∧
  ((¬ ∃ m : Message, m.Fits ∧ m.toBytes <+: bytes) →
    Message.fromBytes bytes = .err .invalidRequest)

/-- A header with length 0 and a valid type. -/
def EmptyFrame (bytes : List UInt8) : Prop :=
  ∃ code rest, bytes = 0 :: 0 :: 0 :: 0 :: code :: rest ∧ code ≤ 9

theorem fromBe_eq_zero {b₀ b₁ b₂ b₃ : UInt8} (h : fromBe [b₀, b₁, b₂, b₃] = 0) :
    b₀ = 0 ∧ b₁ = 0 ∧ b₂ = 0 ∧ b₃ = 0 := by
  have hb := toBe_fromBe [b₀, b₁, b₂, b₃]
  rw [h] at hb
  simpa [toBe, eq_comm] using hb

theorem Message.fromBytes_emptyFrame {bytes : List UInt8} (h : EmptyFrame bytes) :
    Message.fromBytes bytes = .panic := by
  obtain ⟨code, rest, rfl, hcode⟩ := h
  obtain ⟨t, ht⟩ := Option.isSome_iff_exists.mp ((MessageType.isSome_fromU8_iff code).mpr hcode)
  have h0 : fromBe [0, 0, 0, 0] = 0 := rfl
  rw [Message.fromBytes_cons, ht, h0, if_neg (Nat.not_lt_zero _)]
  rfl

/-- The message cut out of `rest` by a length field that spells `len` encodes to that header
and that part of `rest`. -/
theorem Message.toBytes_of_header {b₀ b₁ b₂ b₃ code : UInt8} {rest : List UInt8}
    {t : MessageType} (ht : MessageType.fromU8 code = some t)
    (h0 : fromBe [b₀, b₁, b₂, b₃] ≠ 0) (hlong : ¬ rest.length + 1 < fromBe [b₀, b₁, b₂, b₃]) :
    (⟨t, rest.take (fromBe [b₀, b₁, b₂, b₃] - 1)⟩ : Message).Fits ∧
    (⟨t, rest.take (fromBe [b₀, b₁, b₂, b₃] - 1)⟩ : Message).toBytes
      <+: b₀ :: b₁ :: b₂ :: b₃ :: code :: rest := by
  have hbe : toBe 4 (fromBe [b₀, b₁, b₂, b₃]) = [b₀, b₁, b₂, b₃] :=
    toBe_fromBe [b₀, b₁, b₂, b₃]
  have hlt : fromBe [b₀, b₁, b₂, b₃] < 256 ^ 4 := fromBe_lt [b₀, b₁, b₂, b₃]
  set len := fromBe [b₀, b₁, b₂, b₃]
  have hpay : (rest.take (len - 1)).length = len - 1 := by
    rw [List.length_take]; omega
  have htot : (⟨t, rest.take (len - 1)⟩ : Message).totalLen = len := by
    rw [Message.totalLen_of_lt (by rw [hpay]; omega), hpay]
    omega
  refine ⟨?_, ⟨rest.drop (len - 1), ?_⟩⟩
  · show (rest.take (len - 1)).length < 2 ^ 32 - 1
    omega
  · rw [Message.toBytes, htot, hbe, MessageType.asU8_of_fromU8 ht]
    simp

/-- **What `fromBytes` can do.** It rejects, or it panics on an empty frame, or it returns a
fitting message whose encoding the input starts with. -/
theorem Message.fromBytes_cases (bytes : List UInt8) :
    Message.fromBytes bytes = .err .invalidRequest ∨
    (EmptyFrame bytes ∧ Message.fromBytes bytes = .panic) ∨
    (∃ m, Message.fromBytes bytes = .ok m ∧ m.Fits ∧ m.toBytes <+: bytes) := by
  match bytes with
  | b₀ :: b₁ :: b₂ :: b₃ :: code :: rest =>
      rw [Message.fromBytes_cons]
      by_cases hlong : rest.length + 1 < fromBe [b₀, b₁, b₂, b₃]
      · exact Or.inl (if_pos hlong)
      rw [if_neg hlong]
      cases ht : MessageType.fromU8 code with
      | none => exact Or.inl rfl
      | some t =>
          by_cases h0 : fromBe [b₀, b₁, b₂, b₃] = 0
          · obtain ⟨rfl, rfl, rfl, rfl⟩ := fromBe_eq_zero h0
            have hcode : code ≤ 9 := (MessageType.isSome_fromU8_iff code).mp (by simp [ht])
            exact Or.inr (Or.inl ⟨⟨code, rest, rfl, hcode⟩, if_pos h0⟩)
          · exact Or.inr (Or.inr ⟨_, if_neg h0, Message.toBytes_of_header ht h0 hlong⟩)
  | [] | [_] | [_, _] | [_, _, _] | [_, _, _, _] =>
      exact Or.inl (Message.fromBytes_short (by simp))

/-- **`from_bytes` is an exact parser except on empty frames**, where it panics. -/
theorem exactParser_iff (bytes : List UInt8) : ExactParser bytes ↔ ¬ EmptyFrame bytes := by
  constructor
  · rintro ⟨⟨hpanic, -⟩, -⟩ hempty
    exact hpanic (Message.fromBytes_emptyFrame hempty)
  · intro hempty
    have hacc : ∀ m : Message, m.Fits ∧ m.toBytes <+: bytes → Message.fromBytes bytes = .ok m := by
      rintro m ⟨hfits, rest, rfl⟩
      unfold Message.Fits at hfits
      exact Message.fromBytes_toBytes_append m (by omega) rest
    rcases Message.fromBytes_cases bytes with herr | ⟨hp, -⟩ | ⟨m, hm, hfits⟩
    · refine ⟨by simp [herr], fun m => ⟨fun h => ?_, hacc m⟩, fun _ => herr⟩
      rw [herr] at h
      cases h
    · exact absurd hp hempty
    · refine ⟨by simp [hm], fun m' => ⟨fun h => ?_, hacc m'⟩, fun hno => absurd ⟨m, hfits⟩ hno⟩
      rw [hm, Outcome.ok.injEq] at h
      exact h ▸ hfits

/-- Five bytes, a length of zero and the type of an acknowledgement: the process panics. -/
theorem fromBytes_empty_ack :
    Message.fromBytes [0, 0, 0, 0, 4] = .panic ∧ ¬ ExactParser [0, 0, 0, 0, 4] := by
  have h : Message.fromBytes [0, 0, 0, 0, 4] = .panic := by decide
  exact ⟨h, fun hex => hex.1.1 h⟩

end Pepita.Transport
