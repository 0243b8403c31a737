import Pepita.Exec.Task
import Pepita.Transport.Message

set_option autoImplicit false

/-! # Message payloads

The three payloads of `transport.rs` that have a format of their own: heartbeats, task results and
worker registrations. Each has a head of fixed width; the last two end in a text after a length
field, of 4 bytes for the error of a task result and of 2 bytes for the name of a worker.

The decoders index the payload byte by byte, so a string of the wrong length is a panic unless it
was checked. A spec lemma for each decoder (`fromBytes_append`) says what it does on a head
followed by an arbitrary tail, and every string with a long enough head is of that form.
-/

namespace Pepita.Transport

open Pepita.Exec (TaskState Backend)

/-! ## Text -/

/-- `as_bytes`. -/
def asBytes (s : String) : List UInt8 := s.toByteArray.data.toList

/-- `String::from_utf8`. -/
def fromUtf8 (bytes : List UInt8) : Option String := String.fromUTF8? bytes.toByteArray

theorem toByteArray_asBytes (s : String) : (asBytes s).toByteArray = s.toByteArray := by
  apply ByteArray.ext
  rw [List.data_toByteArray, asBytes, Array.toArray_toList]

theorem fromUtf8_asBytes (s : String) : fromUtf8 (asBytes s) = some s := by
  have h : s.toByteArray.IsValidUTF8 := s.isValidUTF8
  rw [fromUtf8, toByteArray_asBytes, String.fromUTF8?, dif_pos h]
  rfl

theorem asBytes_of_fromUtf8 {bytes : List UInt8} {s : String} (h : fromUtf8 bytes = some s) :
    asBytes s = bytes := by
  rw [fromUtf8, String.fromUTF8?] at h
  split_ifs at h with hvalid
  rw [← Option.some_inj.mp h]
  show bytes.toByteArray.data.toList = bytes
  rw [List.data_toByteArray]

@[simp] theorem asBytes_empty : asBytes "" = [] := rfl

theorem asBytes_eq_nil {s : String} (h : asBytes s = []) : s = "" := by
  have hs := fromUtf8_asBytes s
  rw [h, ← asBytes_empty, fromUtf8_asBytes, Option.some_inj] at hs
  exact hs.symm

/-- `String::from_utf8(bytes[lo..lo + n].to_vec())`, an invalid request when it is not text. -/
def textAt (bytes : List UInt8) (lo n : Nat) : Outcome KernelError String := do
  let text ← .orPanic (slice bytes lo (lo + n))
  .okOr .invalidRequest (fromUtf8 text)

theorem textAt_append {before rest : List UInt8} {lo n : Nat} (hlo : before.length = lo)
    (hn : n ≤ rest.length) :
    textAt (before ++ rest) lo n = .okOr .invalidRequest (fromUtf8 (rest.take n)) := by
  rw [textAt, slice_of_le (by omega) (by rw [List.length_append]; omega), ← hlo, List.drop_left,
    Nat.add_sub_cancel_left]
  rfl

/-- What the two text fields come to when their length field says `n` and `rest` follows it. Without
a length, or with less than that left, no text is read and no error is reported. -/
def readText (n : Nat) (rest : List UInt8) : Outcome KernelError (Option String) :=
  if 0 < n ∧ n ≤ rest.length then
    .okOr .invalidRequest (fromUtf8 (rest.take n)) >>= fun text => .ok (some text)
  else .ok none

theorem readText_asBytes (s : String) :
    readText (asBytes s).length (asBytes s) = .ok (if s = "" then none else some s) := by
  rw [readText, List.take_length, fromUtf8_asBytes]
  by_cases hs : s = ""
  · rw [hs, if_pos rfl, if_neg (by simp)]
  · have hpos : 0 < (asBytes s).length := by
      rw [List.length_pos_iff]
      exact fun hnil => hs (asBytes_eq_nil hnil)
    rw [if_neg hs, if_pos ⟨hpos, le_refl _⟩]
    rfl

theorem returns_readText (n : Nat) (rest : List UInt8) : (readText n rest).Returns := by
  rw [readText]
  split_ifs
  · exact (Outcome.returns_bind_ok _ _).mpr (Outcome.returns_okOr _ _)
  · trivial

/-- Text that has been read has the length that was asked for. -/
theorem length_of_readText {n : Nat} {rest : List UInt8} {s : String}
    (h : readText n rest = .ok (some s)) :
    0 < n ∧ n ≤ rest.length ∧ (asBytes s).length = n := by
  rw [readText] at h
  split_ifs at h with hn
  · cases htext : fromUtf8 (rest.take n) with
    | none =>
        rw [htext] at h
        cases h
    | some t =>
        rw [htext] at h
        cases h
        refine ⟨hn.1, hn.2, ?_⟩
        rw [asBytes_of_fromUtf8 htext, List.length_take]
        omega
  · cases h

theorem readText_eq_err_iff {n : Nat} {rest : List UInt8} :
    (∃ e, readText n rest = .err e) ↔
      0 < n ∧ n ≤ rest.length ∧ fromUtf8 (rest.take n) = none := by
  rw [readText]
  split_ifs with hn
  · simp only [Outcome.bind_ok_eq_err, Outcome.exists_okOr_eq_err]
    exact ⟨fun hnone => ⟨hn.1, hn.2, hnone⟩, fun h => h.2.2⟩
  · constructor
    · rintro ⟨e, herr⟩
      cases herr
    · intro h
      exact absurd ⟨h.1, h.2.1⟩ hn

/-! ## The payloads -/

/-- `HeartbeatPayload`. -/
structure HeartbeatPayload where
  workerId : UInt32
  timestamp : UInt64
  pendingTasks : UInt32
  cpuLoad : UInt8
  memoryUsage : UInt8
  deriving DecidableEq, Repr

/-- `TaskResultPayload`. -/
structure TaskResultPayload where
  taskId : UInt64
  state : TaskState
  exitCode : Option Int32
  durationMs : UInt64
  error : Option String
  deriving DecidableEq

/-- `RegisterPayload`. -/
structure RegisterPayload where
  workerId : UInt32
  backend : Backend
  numWorkers : UInt16
  name : String
  deriving DecidableEq

/-- The byte `to_bytes` writes for a state. -/
def stateByte : TaskState → UInt8
  | .pending => 0
  | .queued => 1
  | .running => 2
  | .completed => 3
  | .failed => 4
  | .cancelled => 5
  | .timedOut => 6

/-- The state `from_bytes` reads from a byte. -/
def stateOfByte (byte : UInt8) : Option TaskState :=
  match byte.toNat with
  | 0 => some .pending
  | 1 => some .queued
  | 2 => some .running
  | 3 => some .completed
  | 4 => some .failed
  | 5 => some .cancelled
  | 6 => some .timedOut
  | _ => none

/-- The byte `to_bytes` writes for a backend. -/
def backendByte : Backend → UInt8
  | .cpu => 0
  | .gpu => 1
  | .remote => 2
  | .any => 3

/-- The backend `from_bytes` reads from a byte. -/
def backendOfByte (byte : UInt8) : Option Backend :=
  match byte.toNat with
  | 0 => some .cpu
  | 1 => some .gpu
  | 2 => some .remote
  | 3 => some .any
  | _ => none

namespace HeartbeatPayload

/-- `HeartbeatPayload::to_bytes`. -/
def toBytes (p : HeartbeatPayload) : List UInt8 :=
  toBe 4 p.workerId.toNat ++ toBe 8 p.timestamp.toNat ++ toBe 4 p.pendingTasks.toNat
    ++ [p.cpuLoad] ++ [p.memoryUsage]

/-- `HeartbeatPayload::from_bytes`. -/
def fromBytes (bytes : List UInt8) : Outcome KernelError HeartbeatPayload :=
  if bytes.length < 18 then .err .invalidRequest
  else do
    let workerId ← .orPanic (wordAt bytes 0 4)
    let timestamp ← .orPanic (wordAt bytes 4 8)
    let pendingTasks ← .orPanic (wordAt bytes 12 4)
    let cpuLoad ← .orPanic bytes[16]?
    let memoryUsage ← .orPanic bytes[17]?
    pure ⟨.ofNat workerId, .ofNat timestamp, .ofNat pendingTasks, cpuLoad, memoryUsage⟩

end HeartbeatPayload

namespace TaskResultPayload

/-- The exit code, present or not: a flag and four bytes. -/
def exitCodeBytes : Option Int32 → List UInt8
  | some code => [1] ++ toBe 4 code.toUInt32.toNat
  | none => [0] ++ [0, 0, 0, 0]

/-- The error: its length in `u32` and its bytes. There is no flag. -/
def errorBytes : Option String → List UInt8
  | some err => toBe 4 ((asBytes err).length % 2 ^ 32) ++ asBytes err
  | none => toBe 4 0

/-- `TaskResultPayload::to_bytes`. -/
def toBytes (p : TaskResultPayload) : List UInt8 :=
  toBe 8 p.taskId.toNat ++ [stateByte p.state] ++ exitCodeBytes p.exitCode
    ++ toBe 8 p.durationMs.toNat ++ errorBytes p.error

/-- The part of `from_bytes` that reads the exit code. -/
def readExitCode (bytes : List UInt8) : Outcome KernelError (Option Int32) := do
  let flag ← .orPanic bytes[9]?
  -- any other value of the flag is taken for "none"
  if flag = 1 then do
    let code ← .orPanic (wordAt bytes 10 4)
    pure (some (UInt32.ofNat code).toInt32)
  else pure none

/-- The part of `from_bytes` that reads the error. -/
def readError (bytes : List UInt8) : Outcome KernelError (Option String) :=
  if 22 < bytes.length then do
    -- bytes 22 to 25, of a string that may be shorter
    let errLen ← .orPanic (wordAt bytes 22 4)
    -- "no text" and "text cut off" are one case
    if 0 < errLen ∧ 26 + errLen ≤ bytes.length then do
      let err ← textAt bytes 26 errLen
      pure (some err)
    else pure none
  else pure none

/-- `TaskResultPayload::from_bytes`. -/
def fromBytes (bytes : List UInt8) : Outcome KernelError TaskResultPayload :=
  if bytes.length < 22 then .err .invalidRequest
  else do
    let taskId ← .orPanic (wordAt bytes 0 8)
    let byte ← .orPanic bytes[8]?
    let state ← .okOr .invalidRequest (stateOfByte byte)
    let exitCode ← readExitCode bytes
    let durationMs ← .orPanic (wordAt bytes 14 8)
    let error ← readError bytes
    pure ⟨.ofNat taskId, state, exitCode, .ofNat durationMs, error⟩

end TaskResultPayload

namespace RegisterPayload

/-- `RegisterPayload::to_bytes`. The length of the name is cut to 16 bits, the name is not. -/
def toBytes (p : RegisterPayload) : List UInt8 :=
  toBe 4 p.workerId.toNat ++ [backendByte p.backend] ++ toBe 2 p.numWorkers.toNat
    ++ toBe 2 ((asBytes p.name).length % 2 ^ 16) ++ asBytes p.name

/-- The part of `from_bytes` that reads the name. -/
def readName (bytes : List UInt8) : Outcome KernelError String := do
  let nameLen ← .orPanic (wordAt bytes 7 2)
  if 0 < nameLen ∧ 9 + nameLen ≤ bytes.length then textAt bytes 9 nameLen else pure ""

/-- `RegisterPayload::from_bytes`. -/
def fromBytes (bytes : List UInt8) : Outcome KernelError RegisterPayload :=
  if bytes.length < 9 then .err .invalidRequest
  else do
    let workerId ← .orPanic (wordAt bytes 0 4)
    let byte ← .orPanic bytes[4]?
    let backend ← .okOr .invalidRequest (backendOfByte byte)
    let numWorkers ← .orPanic (wordAt bytes 5 2)
    let name ← readName bytes
    pure ⟨.ofNat workerId, backend, .ofNat numWorkers, name⟩

end RegisterPayload

/-! ## The payload of a message -/

namespace Message

/-- `Message::task_result`. -/
def taskResult (p : TaskResultPayload) : Message := ⟨.taskResult, p.toBytes⟩

/-- `Message::register`. -/
def register (p : RegisterPayload) : Message := ⟨.register, p.toBytes⟩

/-- `Message::as_heartbeat`. -/
def asHeartbeat (m : Message) : Outcome KernelError HeartbeatPayload :=
  if m.msgType ≠ .heartbeat then .err .invalidRequest else HeartbeatPayload.fromBytes m.payload

/-- `Message::as_task_result`. -/
def asTaskResult (m : Message) : Outcome KernelError TaskResultPayload :=
  if m.msgType ≠ .taskResult then .err .invalidRequest else TaskResultPayload.fromBytes m.payload

/-- `Message::as_register`. -/
def asRegister (m : Message) : Outcome KernelError RegisterPayload :=
  if m.msgType ≠ .register then .err .invalidRequest else RegisterPayload.fromBytes m.payload

/-- `Message::as_error`. -/
def asError (m : Message) : Outcome KernelError (Option String) :=
  if m.msgType ≠ .error then .ok none else .ok (fromUtf8 m.payload)

theorem asTaskResult_taskResult (p : TaskResultPayload) :
    (taskResult p).asTaskResult = TaskResultPayload.fromBytes p.toBytes :=
  if_neg (by simp [taskResult])

theorem asRegister_register (p : RegisterPayload) :
    (register p).asRegister = RegisterPayload.fromBytes p.toBytes :=
  if_neg (by simp [register])

theorem fits_of_fromBytes {bytes : List UInt8} {m : Message} (h : fromBytes bytes = .ok m) :
    m.Fits := by
  rcases fromBytes_cases bytes with herr | ⟨-, hpanic⟩ | ⟨m', hok, hfits, -⟩
  · rw [herr] at h
    cases h
  · rw [hpanic] at h
    cases h
  · rw [hok] at h
    cases h
    exact hfits

theorem fromBytes_toBytes {m : Message} (h : m.payload.length + 1 < 2 ^ 32) :
    fromBytes m.toBytes = .ok m := by
  rw [← List.append_nil m.toBytes]
  exact fromBytes_toBytes_append m h []

end Message

/-! ## Heartbeats -/

namespace HeartbeatPayload

theorem length_toBytes (p : HeartbeatPayload) : p.toBytes.length = 18 := by simp [toBytes]

theorem fromBytes_short {bytes : List UInt8} (h : bytes.length < 18) :
    fromBytes bytes = .err .invalidRequest := if_pos h

/-- What `fromBytes` reads from its five fields, whatever follows them. -/
theorem fromBytes_append {w t n : Nat} (hw : w < 256 ^ 4) (ht : t < 256 ^ 8) (hn : n < 256 ^ 4)
    (c m : UInt8) (rest : List UInt8) :
    fromBytes (toBe 4 w ++ (toBe 8 t ++ (toBe 4 n ++ (c :: m :: rest))))
      = .ok ⟨.ofNat w, .ofNat t, .ofNat n, c, m⟩ := by
  set bytes := toBe 4 w ++ (toBe 8 t ++ (toBe 4 n ++ (c :: m :: rest))) with hbytes
  have hlong : ¬ bytes.length < 18 := by simp [hbytes]; omega
  have h0 : wordAt bytes 0 4 = some w := wordAt_zero _ hw
  have h4 : wordAt bytes 4 8 = some t := wordAt_append (toBe 4 w) _ (by simp) ht
  have h12 : wordAt bytes 12 4 = some n := by
    simpa [hbytes] using wordAt_append (toBe 4 w ++ toBe 8 t) (c :: m :: rest) (by simp) hn
  have h16 : bytes[16]? = some c := by
    simpa [hbytes] using getElem?_append_cons (toBe 4 w ++ toBe 8 t ++ toBe 4 n) (m :: rest)
      (a := c) (by simp)
  have h17 : bytes[17]? = some m := by
    simpa [hbytes] using getElem?_append_cons (toBe 4 w ++ toBe 8 t ++ toBe 4 n ++ [c]) rest
      (a := m) (by simp)
  rw [fromBytes, if_neg hlong, h0, h4, h12, h16, h17]
  rfl

theorem toBytes_eq (p : HeartbeatPayload) :
    p.toBytes = toBe 4 p.workerId.toNat ++ (toBe 8 p.timestamp.toNat ++
      (toBe 4 p.pendingTasks.toNat ++ [p.cpuLoad, p.memoryUsage])) := by
  simp [toBytes]

theorem fromBytes_toBytes_append (p : HeartbeatPayload) (rest : List UInt8) :
    fromBytes (p.toBytes ++ rest) = .ok p := by
  rw [toBytes_eq]
  simp only [List.append_assoc, List.cons_append, List.nil_append]
  rw [fromBytes_append p.workerId.toNat_lt p.timestamp.toNat_lt p.pendingTasks.toNat_lt]
  simp

/-- Every string of 18 bytes or more starts with a heartbeat. -/
theorem exists_toBytes_append {bytes : List UInt8} (h : 18 ≤ bytes.length) :
    ∃ (p : HeartbeatPayload) (rest : List UInt8), bytes = p.toBytes ++ rest := by
  -- the fields are split off one after the other
  obtain ⟨w, bytes, hw, rfl⟩ := exists_toBe_append (show 4 ≤ bytes.length by omega)
  rw [List.length_append, length_toBe] at h
  obtain ⟨t, bytes, ht, rfl⟩ := exists_toBe_append (show 8 ≤ bytes.length by omega)
  rw [List.length_append, length_toBe] at h
  obtain ⟨n, bytes, hn, rfl⟩ := exists_toBe_append (show 4 ≤ bytes.length by omega)
  rw [List.length_append, length_toBe] at h
  match bytes, h with
  | c :: m :: rest, _ =>
      refine ⟨⟨.ofNat w, .ofNat t, .ofNat n, c, m⟩, rest, ?_⟩
      rw [toBytes_eq]
      simp only [UInt32.toNat_ofNat_of_lt' hw, UInt64.toNat_ofNat_of_lt' ht,
        UInt32.toNat_ofNat_of_lt' hn, List.append_assoc, List.cons_append, List.nil_append]
  | [_], h => simp at h
  | [], h => simp at h

/-- **Heartbeats are the strings of 18 bytes.** Each is read back whatever follows it, each string
of 18 bytes or more starts with one, and a shorter string is rejected. -/
theorem heartbeat_bijection :
    (∀ (p : HeartbeatPayload) (t : List UInt8), fromBytes (p.toBytes ++ t) = .ok p) ∧
    (∀ b : List UInt8, 18 ≤ b.length → ∃ p, fromBytes b = .ok p ∧ p.toBytes = b.take 18) ∧
    (∀ b : List UInt8, b.length < 18 → fromBytes b = .err .invalidRequest) := by
  refine ⟨fromBytes_toBytes_append, fun b hb => ?_, fun b hb => fromBytes_short hb⟩
  obtain ⟨p, rest, rfl⟩ := exists_toBytes_append hb
  refine ⟨p, fromBytes_toBytes_append p rest, ?_⟩
  rw [List.take_left' (length_toBytes p)]

end HeartbeatPayload

/-! ## Task results -/

theorem stateOfByte_stateByte (st : TaskState) : stateOfByte (stateByte st) = some st := by
  cases st <;> rfl

theorem stateOfByte_eq_none_iff (byte : UInt8) : stateOfByte byte = none ↔ ¬ byte ≤ 6 := by
  rw [UInt8.le_iff_toNat_le, show (6 : UInt8).toNat = 6 from rfl]
  unfold stateOfByte
  split <;> simp_all
  omega

namespace TaskResultPayload

/-- The fields before the error. -/
def head (p : TaskResultPayload) : List UInt8 :=
  toBe 8 p.taskId.toNat ++ [stateByte p.state] ++ exitCodeBytes p.exitCode
    ++ toBe 8 p.durationMs.toNat

theorem length_head (p : TaskResultPayload) : p.head.length = 22 := by
  cases h : p.exitCode <;> simp [head, exitCodeBytes, h]

theorem fromBytes_short {bytes : List UInt8} (h : bytes.length < 22) :
    fromBytes bytes = .err .invalidRequest := if_pos h

/-- What `fromBytes` reads from the fields of the head; the rest is up to `readError`. -/
theorem fromBytes_append {i e d : Nat} (hi : i < 256 ^ 8) (he : e < 256 ^ 4) (hd : d < 256 ^ 8)
    (byte flag : UInt8) (rest : List UInt8) :
    fromBytes (toBe 8 i ++ (byte :: flag :: (toBe 4 e ++ (toBe 8 d ++ rest))))
      = (do
          let state ← .okOr .invalidRequest (stateOfByte byte)
          let error ← readError (toBe 8 i ++ (byte :: flag :: (toBe 4 e ++ (toBe 8 d ++ rest))))
          .ok ⟨.ofNat i, state, if flag = 1 then some (UInt32.ofNat e).toInt32 else none,
            .ofNat d, error⟩) := by
  set bytes := toBe 8 i ++ (byte :: flag :: (toBe 4 e ++ (toBe 8 d ++ rest))) with hbytes
  have hlong : ¬ bytes.length < 22 := by simp [hbytes]; omega
  have h0 : wordAt bytes 0 8 = some i := wordAt_zero _ hi
  have h8 : bytes[8]? = some byte := getElem?_append_cons (toBe 8 i) _ (by simp)
  have h9 : bytes[9]? = some flag := by
    simpa [hbytes] using getElem?_append_cons (toBe 8 i ++ [byte]) (toBe 4 e ++ (toBe 8 d ++ rest))
      (a := flag) (by simp)
  have h10 : wordAt bytes 10 4 = some e := by
    simpa [hbytes] using wordAt_append (toBe 8 i ++ [byte, flag]) (toBe 8 d ++ rest) (by simp) he
  have h14 : wordAt bytes 14 8 = some d := by
    simpa [hbytes] using wordAt_append (toBe 8 i ++ [byte, flag] ++ toBe 4 e) rest (by simp) hd
  have hexit : readExitCode bytes
      = .ok (if flag = 1 then some (UInt32.ofNat e).toInt32 else none) := by
    rw [readExitCode, h9, h10]
    simp only [Outcome.orPanic_some, Outcome.ok_bind]
    split_ifs <;> rfl
  rw [fromBytes, if_neg hlong, h0, h8, hexit, h14]
  simp only [Outcome.orPanic_some, Outcome.ok_bind]
  rfl

/-- The head of a task result is read back, whatever follows it. -/
theorem fromBytes_head_append (p : TaskResultPayload) (rest : List UInt8) :
    fromBytes (p.head ++ rest)
      = (readError (p.head ++ rest) >>= fun error => .ok { p with error := error }) := by
  -- an absent exit code is written as one that is not read
  obtain ⟨flag, e, he, hexit, hcode⟩ : ∃ (flag : UInt8) (e : Nat), e < 256 ^ 4 ∧
      exitCodeBytes p.exitCode = flag :: toBe 4 e ∧
      (if flag = 1 then some (UInt32.ofNat e).toInt32 else none) = p.exitCode := by
    cases p.exitCode with
    | none => exact ⟨0, 0, by decide, rfl, rfl⟩
    | some code => exact ⟨1, code.toUInt32.toNat, code.toUInt32.toNat_lt, rfl, by simp⟩
  have hhead : p.head ++ rest = toBe 8 p.taskId.toNat ++ (stateByte p.state :: flag ::
      (toBe 4 e ++ (toBe 8 p.durationMs.toNat ++ rest))) := by
    simp [head, hexit]
  rw [hhead, fromBytes_append p.taskId.toNat_lt he p.durationMs.toNat_lt, stateOfByte_stateByte,
    hcode]
  simp

/-- On a string with a head, `fromBytes` rejects the state or leaves the rest to `readError`. -/
theorem fromBytes_cases {bytes : List UInt8} (h : 22 ≤ bytes.length) :
    ∃ byte, bytes[8]? = some byte ∧
      ((¬ byte ≤ 6 ∧ fromBytes bytes = .err .invalidRequest) ∨
        (byte ≤ 6 ∧ ∃ p : TaskResultPayload, fromBytes bytes
          = (readError bytes >>= fun error => .ok { p with error := error }))) := by
  obtain ⟨i, bytes, hi, rfl⟩ := exists_toBe_append (show 8 ≤ bytes.length by omega)
  rw [List.length_append, length_toBe] at h
  match bytes, h with
  | byte :: flag :: bytes, h =>
      simp only [List.length_cons] at h
      obtain ⟨e, bytes, he, rfl⟩ := exists_toBe_append (show 4 ≤ bytes.length by omega)
      rw [List.length_append, length_toBe] at h
      obtain ⟨d, rest, hd, rfl⟩ := exists_toBe_append (show 8 ≤ bytes.length by omega)
      refine ⟨byte, getElem?_append_cons (toBe 8 i) _ (by simp), ?_⟩
      rw [fromBytes_append hi he hd]
      cases hst : stateOfByte byte with
      | none => exact .inl ⟨(stateOfByte_eq_none_iff byte).mp hst, rfl⟩
      | some st =>
          have hle : byte ≤ 6 := by
            by_contra hgt
            rw [(stateOfByte_eq_none_iff byte).mpr hgt] at hst
            cases hst
          refine .inr ⟨hle, ⟨.ofNat i, st, if flag = 1 then some (UInt32.ofNat e).toInt32 else none,
            .ofNat d, none⟩, ?_⟩
          rw [Outcome.okOr_some, Outcome.ok_bind]
  | [_], h => simp at h
  | [], h => simp at h

/-! ### The error -/

theorem readError_of_length_eq {bytes : List UInt8} (h : bytes.length = 22) :
    readError bytes = .ok none := if_neg (by omega)

/-- One to three bytes after the head: the length field is read past the end. -/
theorem readError_cut {bytes : List UInt8} (h : 22 < bytes.length) (h' : bytes.length < 26) :
    readError bytes = .panic := by
  rw [readError, if_pos h, wordAt_eq_none (by omega) (by decide)]
  rfl

theorem readError_append {before rest : List UInt8} {n : Nat} (hb : before.length = 22)
    (hn : n < 256 ^ 4) : readError (before ++ (toBe 4 n ++ rest)) = readText n rest := by
  have hlen : (before ++ (toBe 4 n ++ rest)).length = 26 + rest.length := by simp [hb]; omega
  rw [readError, if_pos (by omega), wordAt_append before rest hb hn, readText]
  simp only [Outcome.orPanic_some, Outcome.ok_bind, hlen, Nat.add_le_add_iff_left]
  by_cases htext : 0 < n ∧ n ≤ rest.length
  · rw [if_pos htext, if_pos htext, ← List.append_assoc, textAt_append (by simp [hb]) htext.2]
    rfl
  · rw [if_neg htext, if_neg htext]
    rfl

/-- What `readError` does on a string with a head: nothing follows it, or a piece of the length
field, or the length field and the rest. -/
theorem readError_cases {bytes : List UInt8} (h : 22 ≤ bytes.length) :
    (bytes.length = 22 ∧ readError bytes = .ok none) ∨
    ((22 < bytes.length ∧ bytes.length < 26) ∧ readError bytes = .panic) ∨
    (∃ n rest, bytes.length = 26 + rest.length ∧ readError bytes = readText n rest) := by
  by_cases hnone : bytes.length = 22
  · exact .inl ⟨hnone, readError_of_length_eq hnone⟩
  by_cases hcut : bytes.length < 26
  · exact .inr (.inl ⟨⟨by omega, hcut⟩, readError_cut (by omega) hcut⟩)
  have hhead : (bytes.take 22).length = 22 := by rw [List.length_take]; omega
  have hfield : 4 ≤ (bytes.drop 22).length := by rw [List.length_drop]; omega
  obtain ⟨n, rest, hn, hrest⟩ := exists_toBe_append hfield
  have hbytes : bytes = bytes.take 22 ++ (toBe 4 n ++ rest) := by
    rw [← hrest, List.take_append_drop]
  refine .inr (.inr ⟨n, rest, ?_, ?_⟩)
  · rw [hbytes, List.length_append, List.length_append, hhead, length_toBe]
    omega
  · rw [hbytes]
    exact readError_append hhead hn

theorem returns_readError_iff {bytes : List UInt8} (h : 22 ≤ bytes.length) :
    (readError bytes).Returns ↔ ¬ (22 < bytes.length ∧ bytes.length < 26) := by
  rcases readError_cases h with ⟨hlen, hread⟩ | ⟨hcut, hread⟩ | ⟨n, rest, hlen, hread⟩
  · rw [hread]
    exact iff_of_true trivial (by omega)
  · rw [hread]
    exact iff_of_false id (not_not.mpr hcut)
  · rw [hread]
    exact iff_of_true (returns_readText n rest) (by omega)

/-- An error that has been read is not empty, and all of its bytes lie behind the head. -/
theorem of_readError {bytes : List UInt8} {err : String} (hlen : 22 ≤ bytes.length)
    (h : readError bytes = .ok (some err)) :
    0 < (asBytes err).length ∧ (asBytes err).length + 26 ≤ bytes.length := by
  rcases readError_cases hlen with ⟨-, hread⟩ | ⟨-, hread⟩ | ⟨n, rest, hbytes, hread⟩
  · rw [hread] at h
    cases h
  · rw [hread] at h
    cases h
  · rw [hread] at h
    have htext := length_of_readText h
    omega

theorem error_of_fromBytes {bytes : List UInt8} {p : TaskResultPayload}
    (h : fromBytes bytes = .ok p) : 22 ≤ bytes.length ∧ readError bytes = .ok p.error := by
  by_cases hlen : bytes.length < 22
  · rw [fromBytes_short hlen] at h
    cases h
  refine ⟨Nat.le_of_not_lt hlen, ?_⟩
  obtain ⟨byte, -, ⟨-, herr⟩ | ⟨-, q, hok⟩⟩ := fromBytes_cases (Nat.le_of_not_lt hlen)
  · rw [herr] at h
    cases h
  · rw [hok] at h
    obtain ⟨error, hread, h⟩ := Outcome.bind_eq_ok h
    cases h
    exact hread

/-- The text after the length field, empty when there is no error. -/
def text (p : TaskResultPayload) : List UInt8 := (p.error.map asBytes).getD []

theorem toBytes_eq (p : TaskResultPayload) :
    p.toBytes = p.head ++ (toBe 4 (p.text.length % 2 ^ 32) ++ p.text) := by
  cases h : p.error <;> simp [toBytes, head, text, errorBytes, h]

/-- The error is read back, unless it is there and empty. -/
theorem readText_text {p : TaskResultPayload} (hne : p.error ≠ some "") :
    readText p.text.length p.text = .ok p.error := by
  cases herr : p.error with
  | none =>
      -- written as the empty text is
      have htext : p.text = asBytes "" := by simp [text, herr]
      rw [htext, readText_asBytes, if_pos rfl]
  | some err =>
      have htext : p.text = asBytes err := by simp [text, herr]
      have hempty : err ≠ "" := by
        rintro rfl
        exact hne herr
      rw [htext, readText_asBytes, if_neg hempty]

theorem fromBytes_toBytes {p : TaskResultPayload} (hne : p.error ≠ some "")
    (hlen : p.text.length < 2 ^ 32) : fromBytes p.toBytes = .ok p := by
  rw [toBytes_eq, Nat.mod_eq_of_lt hlen, fromBytes_head_append,
    readError_append p.length_head hlen, readText_text hne, Outcome.ok_bind]

/-- A task result put into a message, sent, and read back from the bytes. -/
def received (p : TaskResultPayload) : Outcome KernelError TaskResultPayload := do
  let m ← Message.fromBytes (Message.taskResult p).toBytes
  m.asTaskResult

theorem length_toBytes (p : TaskResultPayload) : p.toBytes.length = 26 + p.text.length := by
  rw [toBytes_eq]
  simp [p.length_head]
  omega

theorem received_eq {p : TaskResultPayload} (h : p.text.length + 27 < 2 ^ 32) :
    p.received = fromBytes p.toBytes := by
  have hpay : p.toBytes.length + 1 < 2 ^ 32 := by
    rw [length_toBytes]
    omega
  have hm : Message.fromBytes (Message.taskResult p).toBytes = .ok (Message.taskResult p) :=
    Message.fromBytes_toBytes hpay
  rw [received, hm, Outcome.ok_bind, Message.asTaskResult_taskResult]

end TaskResultPayload

/-- **A task result survives the wire unless its error is the empty text**, which is read back as no
error, or so long that the length of the frame does not fit its field. -/
theorem taskResult_received_iff (p : TaskResultPayload) :
    p.received = .ok p ↔
      p.error ≠ some "" ∧ ∀ err ∈ p.error, (asBytes err).length + 27 < 2 ^ 32 := by
  constructor
  · intro h
    obtain ⟨m, hm, has⟩ := Outcome.bind_eq_ok h
    -- what comes out of a frame is shorter than its length field allows, and holds the error
    have hfits : m.payload.length < 2 ^ 32 - 1 := Message.fits_of_fromBytes hm
    rw [Message.asTaskResult] at has
    split_ifs at has
    obtain ⟨hhead, hread⟩ := TaskResultPayload.error_of_fromBytes has
    constructor
    · intro hempty
      rw [hempty] at hread
      have hpos := (TaskResultPayload.of_readError hhead hread).1
      simp at hpos
    · intro err herr
      rw [Option.mem_def.mp herr] at hread
      have hlen := (TaskResultPayload.of_readError hhead hread).2
      omega
  · rintro ⟨hne, hlen⟩
    have htext : p.text.length + 27 < 2 ^ 32 := by
      cases herr : p.error with
      | none => simp [TaskResultPayload.text, herr]
      | some err => simpa [TaskResultPayload.text, herr] using hlen err (by rw [herr]; rfl)
    rw [TaskResultPayload.received_eq htext, TaskResultPayload.fromBytes_toBytes hne (by omega)]

/-- A task that failed with an empty error text arrives as one that did not report an error. -/
theorem empty_error_lost :
    let p : TaskResultPayload := ⟨7, .failed, some 1, 250, some ""⟩
    p.received = .ok { p with error := none } ∧ p.received ≠ .ok p := by
  intro p
  have h : p.received = .ok { p with error := none } := by decide
  exact ⟨h, by rw [h]; decide⟩

/-! ## Registrations -/

theorem backendOfByte_backendByte (b : Backend) : backendOfByte (backendByte b) = some b := by
  cases b <;> rfl

namespace RegisterPayload

/-- The fields before the name. -/
def head (p : RegisterPayload) : List UInt8 :=
  toBe 4 p.workerId.toNat ++ [backendByte p.backend] ++ toBe 2 p.numWorkers.toNat

theorem length_head (p : RegisterPayload) : p.head.length = 7 := by simp [head]

theorem fromBytes_short {bytes : List UInt8} (h : bytes.length < 9) :
    fromBytes bytes = .err .invalidRequest := if_pos h

/-- What `fromBytes` reads from the fields of the head; the rest is up to `readName`. -/
theorem fromBytes_append {w k : Nat} (hw : w < 256 ^ 4) (hk : k < 256 ^ 2) (byte : UInt8)
    {rest : List UInt8} (hrest : 2 ≤ rest.length) :
    fromBytes (toBe 4 w ++ (byte :: (toBe 2 k ++ rest)))
      = (do
          let backend ← .okOr .invalidRequest (backendOfByte byte)
          let name ← readName (toBe 4 w ++ (byte :: (toBe 2 k ++ rest)))
          .ok ⟨.ofNat w, backend, .ofNat k, name⟩) := by
  set bytes := toBe 4 w ++ (byte :: (toBe 2 k ++ rest)) with hbytes
  have hlong : ¬ bytes.length < 9 := by simp [hbytes]; omega
  have h0 : wordAt bytes 0 4 = some w := wordAt_zero _ hw
  have h4 : bytes[4]? = some byte := getElem?_append_cons (toBe 4 w) _ (by simp)
  have h5 : wordAt bytes 5 2 = some k := by
    simpa [hbytes] using wordAt_append (toBe 4 w ++ [byte]) rest (by simp) hk
  rw [fromBytes, if_neg hlong, h0, h4, h5]
  simp only [Outcome.orPanic_some, Outcome.ok_bind]
  rfl

theorem fromBytes_head_append (p : RegisterPayload) {rest : List UInt8} (hrest : 2 ≤ rest.length) :
    fromBytes (p.head ++ rest)
      = (readName (p.head ++ rest) >>= fun name => .ok { p with name := name }) := by
  have hhead : p.head ++ rest = toBe 4 p.workerId.toNat ++ (backendByte p.backend ::
      (toBe 2 p.numWorkers.toNat ++ rest)) := by
    simp [head]
  rw [hhead, fromBytes_append p.workerId.toNat_lt p.numWorkers.toNat_lt _ hrest,
    backendOfByte_backendByte]
  simp

/-- On a string with a head, `fromBytes` rejects the backend or leaves the rest to `readName`. -/
theorem fromBytes_cases {bytes : List UInt8} (h : 9 ≤ bytes.length) :
    fromBytes bytes = .err .invalidRequest ∨
      ∃ p : RegisterPayload, fromBytes bytes
        = (readName bytes >>= fun name => .ok { p with name := name }) := by
  obtain ⟨w, bytes, hw, rfl⟩ := exists_toBe_append (show 4 ≤ bytes.length by omega)
  rw [List.length_append, length_toBe] at h
  match bytes, h with
  | byte :: bytes, h =>
      rw [List.length_cons] at h
      obtain ⟨k, rest, hk, rfl⟩ := exists_toBe_append (show 2 ≤ bytes.length by omega)
      rw [List.length_append, length_toBe] at h
      rw [fromBytes_append hw hk byte (by omega)]
      cases backendOfByte byte with
      | none => exact .inl rfl
      | some b => exact .inr ⟨⟨.ofNat w, b, .ofNat k, ""⟩, rfl⟩
  | [], h => simp at h

/-! ### The name -/

theorem readName_append {before rest : List UInt8} {n : Nat} (hb : before.length = 7)
    (hn : n < 256 ^ 2) :
    readName (before ++ (toBe 2 n ++ rest))
      = (readText n rest >>= fun name => .ok (name.getD "")) := by
  have hlen : (before ++ (toBe 2 n ++ rest)).length = 9 + rest.length := by simp [hb]; omega
  rw [readName, wordAt_append before rest hb hn, readText]
  simp only [Outcome.orPanic_some, Outcome.ok_bind, hlen, Nat.add_le_add_iff_left]
  by_cases htext : 0 < n ∧ n ≤ rest.length
  · rw [if_pos htext, if_pos htext, ← List.append_assoc, textAt_append (by simp [hb]) htext.2]
    cases fromUtf8 (rest.take n) <;> rfl
  · rw [if_neg htext, if_neg htext]
    rfl

/-- The string as the decoder sees it: a head, the length of the name, and the rest. -/
theorem exists_length_append {bytes : List UInt8} (h : 9 ≤ bytes.length) :
    ∃ before n rest, before.length = 7 ∧ n < 256 ^ 2 ∧ bytes = before ++ (toBe 2 n ++ rest) := by
  have hfield : 2 ≤ (bytes.drop 7).length := by rw [List.length_drop]; omega
  obtain ⟨n, rest, hn, hrest⟩ := exists_toBe_append hfield
  refine ⟨bytes.take 7, n, rest, ?_, hn, ?_⟩
  · rw [List.length_take]
    omega
  · rw [← hrest, List.take_append_drop]

theorem returns_readName {bytes : List UInt8} (h : 9 ≤ bytes.length) :
    (readName bytes).Returns := by
  obtain ⟨before, n, rest, hb, hn, rfl⟩ := exists_length_append h
  rw [readName_append hb hn, Outcome.returns_bind_ok]
  exact returns_readText n rest

/-- A name that has been read is no longer than its length field can tell. -/
theorem length_of_readName {bytes : List UInt8} {name : String} (hlen : 9 ≤ bytes.length)
    (h : readName bytes = .ok name) : (asBytes name).length < 2 ^ 16 := by
  obtain ⟨before, n, rest, hb, hn, rfl⟩ := exists_length_append hlen
  rw [readName_append hb hn] at h
  obtain ⟨text, hread, h⟩ := Outcome.bind_eq_ok h
  cases h
  cases text with
  | none => decide
  | some s =>
      have htext := length_of_readText hread
      show (asBytes s).length < 2 ^ 16
      omega

theorem name_of_fromBytes {bytes : List UInt8} {p : RegisterPayload}
    (h : fromBytes bytes = .ok p) : 9 ≤ bytes.length ∧ readName bytes = .ok p.name := by
  by_cases hlen : bytes.length < 9
  · rw [fromBytes_short hlen] at h
    cases h
  refine ⟨Nat.le_of_not_lt hlen, ?_⟩
  rcases fromBytes_cases (Nat.le_of_not_lt hlen) with herr | ⟨q, hok⟩
  · rw [herr] at h
    cases h
  · rw [hok] at h
    obtain ⟨name, hread, h⟩ := Outcome.bind_eq_ok h
    cases h
    exact hread

theorem toBytes_eq (p : RegisterPayload) :
    p.toBytes = p.head ++ (toBe 2 ((asBytes p.name).length % 2 ^ 16) ++ asBytes p.name) := by
  simp [toBytes, head]

theorem fromBytes_toBytes {p : RegisterPayload} (hlen : (asBytes p.name).length < 2 ^ 16) :
    fromBytes p.toBytes = .ok p := by
  have hname : (if p.name = "" then none else some p.name).getD "" = p.name := by
    split_ifs with hempty
    · exact hempty.symm
    · rfl
  rw [toBytes_eq, Nat.mod_eq_of_lt hlen, fromBytes_head_append p (by simp),
    readName_append p.length_head hlen, readText_asBytes, Outcome.ok_bind, Outcome.ok_bind, hname]

/-- A registration put into a message, sent, and read back from the bytes. -/
def received (p : RegisterPayload) : Outcome KernelError RegisterPayload := do
  let m ← Message.fromBytes (Message.register p).toBytes
  m.asRegister

theorem length_toBytes (p : RegisterPayload) :
    p.toBytes.length = 9 + (asBytes p.name).length := by
  rw [toBytes_eq]
  simp [p.length_head]
  omega

theorem received_eq {p : RegisterPayload} (h : (asBytes p.name).length + 10 < 2 ^ 32) :
    p.received = fromBytes p.toBytes := by
  have hpay : p.toBytes.length + 1 < 2 ^ 32 := by
    rw [length_toBytes]
    omega
  have hm : Message.fromBytes (Message.register p).toBytes = .ok (Message.register p) :=
    Message.fromBytes_toBytes hpay
  rw [received, hm, Outcome.ok_bind, Message.asRegister_register]

end RegisterPayload

/-- **A registration survives the wire exactly when the length of its name fits 16 bits.** -/
theorem register_received_iff (p : RegisterPayload) :
    p.received = .ok p ↔ (asBytes p.name).length < 2 ^ 16 := by
  constructor
  · intro h
    obtain ⟨m, -, has⟩ := Outcome.bind_eq_ok h
    rw [Message.asRegister] at has
    split_ifs at has
    obtain ⟨hlen, hread⟩ := RegisterPayload.name_of_fromBytes has
    exact RegisterPayload.length_of_readName hlen hread
  · intro hname
    rw [RegisterPayload.received_eq (by omega), RegisterPayload.fromBytes_toBytes hname]

/-- A name as long as the length field is wide: the field wraps to zero, and the name is lost. -/
theorem RegisterPayload.received_of_wraps {p : RegisterPayload}
    (h : (asBytes p.name).length = 2 ^ 16) : p.received = .ok { p with name := "" } := by
  rw [received_eq (by omega), toBytes_eq, h, Nat.mod_self, fromBytes_head_append p (by simp),
    readName_append p.length_head (by decide), readText, if_neg (by omega)]
  rfl

theorem length_asBytes_replicate (n : Nat) :
    (asBytes (String.ofList (List.replicate n 'w'))).length = n := by
  have hutf : asBytes (String.ofList (List.replicate n 'w'))
      = (List.replicate n 'w').flatMap String.utf8EncodeChar := by
    simp [asBytes, List.utf8Encode]
  rw [hutf, List.length_flatMap, List.map_replicate, List.sum_replicate]
  exact Nat.mul_one n

/-- A worker with a name of 65536 letters registers without a name. -/
theorem long_name_lost :
    let p : RegisterPayload := ⟨3, .gpu, 8, String.ofList (List.replicate 65536 'w')⟩
    p.received = .ok { p with name := "" } ∧ p.received ≠ .ok p := by
  intro p
  have hlen : (asBytes p.name).length = 2 ^ 16 := length_asBytes_replicate 65536
  have h : p.received = .ok { p with name := "" } := RegisterPayload.received_of_wraps hlen
  refine ⟨h, fun hok => ?_⟩
  -- the names would be equal, but one is empty
  rw [h, Outcome.ok.injEq] at hok
  have hname : p.name = "" := (congrArg RegisterPayload.name hok).symm
  rw [hname] at hlen
  cases hlen

end Pepita.Transport
