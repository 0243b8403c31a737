import Pepita.Transport.Payload

set_option autoImplicit false

/-! # Malformed payloads

What the decoders of `Transport/Payload.lean` do with payloads nobody encoded: on which they panic,
and which pieces of an encoding they take for a whole one.
-/

namespace Pepita.Transport

/-! ## Panics -/

/-- The decoders of a message come back. -/
def Message.DecodersReturn (m : Message) : Prop :=
  m.asHeartbeat.Returns ∧ m.asTaskResult.Returns ∧ m.asRegister.Returns ∧ m.asError.Returns

/-- A task result with a valid state that stops inside the length field of its error. -/
def Message.CutInErrorLength (m : Message) : Prop :=
  m.msgType = .taskResult ∧ (22 < m.payload.length ∧ m.payload.length < 26) ∧
    ∃ byte, m.payload[8]? = some byte ∧ byte ≤ 6

theorem HeartbeatPayload.returns_fromBytes (bytes : List UInt8) : (fromBytes bytes).Returns := by
  by_cases h : bytes.length < 18
  · rw [fromBytes_short h]
    trivial
  · obtain ⟨p, rest, rfl⟩ := exists_toBytes_append (Nat.le_of_not_lt h)
    rw [fromBytes_toBytes_append]
    trivial

theorem RegisterPayload.returns_fromBytes (bytes : List UInt8) : (fromBytes bytes).Returns := by
  by_cases h : bytes.length < 9
  · rw [fromBytes_short h]
    trivial
  rcases fromBytes_cases (Nat.le_of_not_lt h) with herr | ⟨p, hok⟩
  · rw [herr]
    trivial
  · rw [hok, Outcome.returns_bind_ok]
    exact returns_readName (Nat.le_of_not_lt h)

theorem TaskResultPayload.returns_fromBytes_iff (bytes : List UInt8) :
    (fromBytes bytes).Returns ↔
      ¬ ((22 < bytes.length ∧ bytes.length < 26) ∧ ∃ byte, bytes[8]? = some byte ∧ byte ≤ 6) := by
  by_cases h : bytes.length < 22
  · rw [fromBytes_short h]
    exact ⟨fun _ hcut => by omega, fun _ => trivial⟩
  obtain ⟨byte, hbyte, ⟨hgt, herr⟩ | ⟨hle, p, hok⟩⟩ := fromBytes_cases (Nat.le_of_not_lt h)
  · -- a bad state is rejected before the error is looked at
    rw [herr]
    refine ⟨fun _ => ?_, fun _ => trivial⟩
    rintro ⟨-, byte', hbyte', hle⟩
    rw [hbyte, Option.some_inj] at hbyte'
    exact hgt (hbyte' ▸ hle)
  · rw [hok, Outcome.returns_bind_ok, returns_readError_iff (Nat.le_of_not_lt h)]
    exact not_congr ⟨fun hcut => ⟨hcut, byte, hbyte, hle⟩, And.left⟩

/-- **The decoders panic on task results cut inside the length field of the error, and on nothing
else.** -/
theorem decodersReturn_iff (m : Message) : m.DecodersReturn ↔ ¬ m.CutInErrorLength := by
  have hbeat : m.asHeartbeat.Returns := by
    rw [Message.asHeartbeat]
    split_ifs
    · trivial
    · exact HeartbeatPayload.returns_fromBytes _
  have hreg : m.asRegister.Returns := by
    rw [Message.asRegister]
    split_ifs
    · trivial
    · exact RegisterPayload.returns_fromBytes _
  have hresult : m.asTaskResult.Returns ↔ ¬ m.CutInErrorLength := by
    rw [Message.asTaskResult]
    split_ifs with htype
    · exact ⟨fun _ hcut => htype hcut.1, fun _ => trivial⟩
    · rw [TaskResultPayload.returns_fromBytes_iff]
      exact not_congr ⟨fun hcut => ⟨not_not.mp htype, hcut⟩, And.right⟩
  have herror : m.asError.Returns := by
    rw [Message.asError]
    split_ifs <;> trivial
  exact ⟨fun h => hresult.mp h.2.1, fun h => ⟨hbeat, hresult.mpr h, hreg, herror⟩⟩

/-- A frame of 28 bytes with a payload of 23: the message is accepted, and reading the result
panics. -/
theorem cut_result_panics :
    let bytes : List UInt8 := [0, 0, 0, 24, 1] ++ List.replicate 23 0
    let m : Message := ⟨.taskResult, List.replicate 23 0⟩
    Message.fromBytes bytes = .ok m ∧ m.asTaskResult = .panic ∧ ¬ m.DecodersReturn := by
  intro bytes m
  have hm : m.asTaskResult = .panic := by decide
  refine ⟨by decide, hm, fun h => ?_⟩
  have hret := h.2.1
  rw [hm] at hret
  exact hret

/-! ## Truncation -/

/-- A payload of one of the three kinds. -/
inductive Payload where
  | heartbeat (p : HeartbeatPayload)
  | taskResult (p : TaskResultPayload)
  | register (p : RegisterPayload)

namespace Payload

/-- Its `to_bytes`. -/
def toBytes : Payload → List UInt8
  | .heartbeat p => p.toBytes
  | .taskResult p => p.toBytes
  | .register p => p.toBytes

/-- The `from_bytes` of its type returns an error. -/
def Rejects : Payload → List UInt8 → Prop
  | .heartbeat _, b => ∃ e, HeartbeatPayload.fromBytes b = .err e
  | .taskResult _, b => ∃ e, TaskResultPayload.fromBytes b = .err e
  | .register _, b => ∃ e, RegisterPayload.fromBytes b = .err e

/-- The number of bytes `from_bytes` asks for. -/
def headLen : Payload → Nat
  | .heartbeat _ => 18
  | .taskResult _ => 22
  | .register _ => 9

/-- There is nothing in the payload but what `from_bytes` asks for. -/
def HeadOnly : Payload → Prop
  | .heartbeat _ => True
  | .taskResult _ => False
  | .register p => p.name = ""

/-- In the first `n` bytes, a text too long for its length field ends in the middle of a
character where the wrapped length says. -/
def SplitsText (n : Nat) : Payload → Prop
  | .heartbeat _ => False
  | .taskResult p =>
      let len := p.text.length % 2 ^ 32
      0 < len ∧ 26 + len ≤ n ∧ fromUtf8 (p.text.take len) = none
  | .register p =>
      let len := (asBytes p.name).length % 2 ^ 16
      0 < len ∧ 9 + len ≤ n ∧ fromUtf8 ((asBytes p.name).take len) = none

end Payload

/-- A prefix that covers the first part goes on with a prefix of the second. -/
theorem exists_append_of_prefix {α : Type*} {b x y : List α} (h : b <+: x ++ y)
    (hlen : x.length ≤ b.length) : ∃ z, b = x ++ z ∧ z <+: y := by
  obtain ⟨z, rfl⟩ := List.prefix_of_prefix_length_le (List.prefix_append x y) h hlen
  exact ⟨z, rfl, (List.prefix_append_right_inj x).mp h⟩

/-- A piece of a text is read as the text would be, as far as it goes. -/
theorem readText_prefix_eq_err_iff {n : Nat} {t text : List UInt8} (h : t <+: text) :
    (∃ e, readText n t = .err e) ↔ 0 < n ∧ n ≤ t.length ∧ fromUtf8 (text.take n) = none := by
  rw [readText_eq_err_iff]
  obtain ⟨u, rfl⟩ := h
  constructor
  · rintro ⟨hpos, hle, hnone⟩
    exact ⟨hpos, hle, by rw [List.take_append_of_le_length hle]; exact hnone⟩
  · rintro ⟨hpos, hle, hnone⟩
    rw [List.take_append_of_le_length hle] at hnone
    exact ⟨hpos, hle, hnone⟩

namespace TaskResultPayload

/-- On a prefix with a head only the text can be at fault. -/
theorem rejects_prefix_iff {p : TaskResultPayload} {b : List UInt8} (h : b <+: p.toBytes) :
    (∃ e, fromBytes b = .err e) ↔ b.length < 22 ∨ (Payload.taskResult p).SplitsText b.length := by
  by_cases hshort : b.length < 22
  · exact ⟨fun _ => .inl hshort, fun _ => ⟨_, fromBytes_short hshort⟩⟩
  rw [toBytes_eq] at h
  obtain ⟨z, rfl, hz⟩ := exists_append_of_prefix h (by rw [length_head]; omega)
  have hlen : (p.head ++ z).length = 22 + z.length := by rw [List.length_append, length_head]
  simp only [fromBytes_head_append, Outcome.bind_ok_eq_err, hlen, Payload.SplitsText]
  by_cases hfield : z.length < 4
  · -- nothing, or a piece of the length field
    have hno : ¬ ∃ e, readError (p.head ++ z) = .err e := by
      rintro ⟨e, herr⟩
      by_cases hnil : z.length = 0
      · rw [readError_of_length_eq (by omega)] at herr
        cases herr
      · rw [readError_cut (by omega) (by omega)] at herr
        cases herr
    exact ⟨fun h => absurd h hno, fun h => by omega⟩
  -- the length field is whole, and says what it says in the full encoding
  obtain ⟨t, rfl, ht⟩ := exists_append_of_prefix hz (by rw [length_toBe]; omega)
  have hmod : p.text.length % 2 ^ 32 < 256 ^ 4 := Nat.mod_lt _ (by decide)
  rw [readError_append p.length_head hmod, readText_prefix_eq_err_iff ht, List.length_append,
    length_toBe]
  constructor
  · rintro ⟨hpos, hle, hnone⟩
    exact .inr ⟨hpos, by omega, hnone⟩
  · rintro (hlt | ⟨hpos, hle, hnone⟩)
    · omega
    · exact ⟨hpos, by omega, hnone⟩

end TaskResultPayload

namespace RegisterPayload

theorem rejects_prefix_iff {p : RegisterPayload} {b : List UInt8} (h : b <+: p.toBytes) :
    (∃ e, fromBytes b = .err e) ↔ b.length < 9 ∨ (Payload.register p).SplitsText b.length := by
  by_cases hshort : b.length < 9
  · exact ⟨fun _ => .inl hshort, fun _ => ⟨_, fromBytes_short hshort⟩⟩
  rw [toBytes_eq] at h
  obtain ⟨z, rfl, hz⟩ := exists_append_of_prefix h (by rw [length_head]; omega)
  have hlen : (p.head ++ z).length = 7 + z.length := by rw [List.length_append, length_head]
  rw [hlen] at hshort
  -- nine bytes hold the length field, so here only the text can be cut
  obtain ⟨t, rfl, ht⟩ := exists_append_of_prefix hz (by rw [length_toBe]; omega)
  have hmod : (asBytes p.name).length % 2 ^ 16 < 256 ^ 2 := Nat.mod_lt _ (by decide)
  simp only [fromBytes_head_append p (show 2 ≤ (toBe 2 _ ++ t).length by simp),
    readName_append p.length_head hmod, Outcome.bind_ok_eq_err, hlen, Payload.SplitsText]
  rw [readText_prefix_eq_err_iff ht, List.length_append, length_toBe]
  constructor
  · rintro ⟨hpos, hle, hnone⟩
    exact .inr ⟨hpos, by omega, hnone⟩
  · rintro (hlt | ⟨hpos, hle, hnone⟩)
    · omega
    · exact ⟨hpos, by omega, hnone⟩

end RegisterPayload

namespace Payload

theorem rejects_iff {p : Payload} {b : List UInt8} (h : b <+: p.toBytes) (hne : b ≠ p.toBytes) :
    p.Rejects b ↔ b.length < p.headLen ∨ p.SplitsText b.length := by
  cases p with
  | heartbeat p =>
      have hlt : b.length < 18 := by
        by_contra hge
        exact hne (h.eq_of_length_le (by rw [toBytes, p.length_toBytes]; omega))
      exact ⟨fun _ => .inl hlt, fun _ => ⟨_, HeartbeatPayload.fromBytes_short hlt⟩⟩
  | taskResult p => exact TaskResultPayload.rejects_prefix_iff h
  | register p => exact RegisterPayload.rejects_prefix_iff h

/-- The head on its own is accepted. -/
theorem not_rejects_head (p : Payload) :
    ¬ (p.headLen < p.headLen ∨ p.SplitsText p.headLen) := by
  cases p with
  | heartbeat p => simp [SplitsText]
  | taskResult p =>
      rintro (hlt | hsplit)
      · exact lt_irrefl _ hlt
      · simp only [SplitsText, headLen] at hsplit
        omega
  | register p =>
      rintro (hlt | hsplit)
      · exact lt_irrefl _ hlt
      · simp only [SplitsText, headLen] at hsplit
        omega

theorem headLen_le (p : Payload) : p.headLen ≤ p.toBytes.length := by
  cases p with
  | heartbeat p => exact p.length_toBytes.ge
  | taskResult p => exact p.length_toBytes.symm ▸ (by show 22 ≤ _; omega)
  | register p => exact p.length_toBytes.symm ▸ (by show 9 ≤ _; omega)

theorem headOnly_iff (p : Payload) : p.HeadOnly ↔ p.toBytes.length = p.headLen := by
  cases p with
  | heartbeat p => exact iff_of_true trivial p.length_toBytes
  | taskResult p =>
      refine iff_of_false id ?_
      rw [toBytes, p.length_toBytes, headLen]
      omega
  | register p =>
      rw [toBytes, p.length_toBytes, headLen]
      constructor
      · intro hname
        rw [HeadOnly] at hname
        rw [hname, asBytes_empty]
        rfl
      · intro hlen
        exact asBytes_eq_nil (List.length_eq_zero_iff.mp (by omega))

end Payload

/-- **Which truncated payloads are rejected.** A cut inside the head always is. A cut behind it is
not, unless the text is too long for its length field and the wrapped length splits a character; so
all truncations of a payload are rejected only if it ends with its head. -/
theorem truncation_rejected_iff (p : Payload) :
    ((∀ b, b <+: p.toBytes → b ≠ p.toBytes → p.Rejects b) ↔ p.HeadOnly) ∧
    (∀ b, b <+: p.toBytes → b ≠ p.toBytes →
      (p.Rejects b ↔ b.length < p.headLen ∨ p.SplitsText b.length)) := by
  refine ⟨?_, fun b h hne => Payload.rejects_iff h hne⟩
  rw [Payload.headOnly_iff]
  constructor
  · intro hall
    by_contra hlen
    -- cut right after the head
    have hcut : (p.toBytes.take p.headLen).length = p.headLen := by
      rw [List.length_take]
      exact Nat.min_eq_left p.headLen_le
    have hne : p.toBytes.take p.headLen ≠ p.toBytes := by
      intro heq
      rw [heq] at hcut
      exact hlen hcut
    have hrej := hall _ (List.take_prefix _ _) hne
    rw [Payload.rejects_iff (List.take_prefix _ _) hne, hcut] at hrej
    exact p.not_rejects_head hrej
  · intro hlen b h hne
    rw [Payload.rejects_iff h hne]
    left
    by_contra hge
    exact hne (h.eq_of_length_le (by omega))

/-- A failed task's result, cut after 28 of its 33 bytes: it is accepted, without its error. -/
theorem truncated_error_dropped :
    let p : TaskResultPayload := ⟨7, .failed, some 1, 250, some "timeout"⟩
    let b := p.toBytes.take 28
    b <+: p.toBytes ∧ b ≠ p.toBytes ∧
      TaskResultPayload.fromBytes b = .ok { p with error := none } ∧
      ¬ (Payload.taskResult p).Rejects b := by
  intro p b
  have hb : TaskResultPayload.fromBytes b = .ok { p with error := none } := by decide
  refine ⟨List.take_prefix _ _, by decide, hb, ?_⟩
  rintro ⟨e, herr⟩
  rw [hb] at herr
  cases herr

end Pepita.Transport
