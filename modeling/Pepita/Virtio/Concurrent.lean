import Pepita.Lib.Linearize
import Pepita.Lib.RwLock
import Pepita.Virtio.Block

set_option autoImplicit false

/-! # The block device under interleaving

Any number of clients share one `VirtioBlock`. The storage has a read-write lock, and a request
copies its bytes one by one while it holds the lock; the flags and the counters are atomics of their
own. A client that panics while it holds the lock for writing poisons it: whoever takes the lock
later gets an error instead of the storage. That is so where a panic unwinds, as in a program that
uses the crate with profiles of its own; the profiles of the package abort the process instead, and
a run ends there. Sums and products of words wrap, as in a release build.

Every interleaving is one of requests that take effect at once (`block_linearizable`): no read
returns a mixture of two writes. The check for readiness is not part of the request but comes before
it, so a request may be served after a `deactivate` has returned.
-/

namespace Pepita.Virtio

/-! ## The calls as atomic steps -/

/-- The device, the lock of its storage, and whether the lock is poisoned. -/
structure SharedBlock where
  device : VirtioBlock
  lock : RwLock
  poisoned : Bool

/-- The next atomic step of a client inside a call. -/
inductive BlockPoint where
  | activatingQueue
  | activating
  | deactivating
  | deactivatingQueue
  | flushing
  /-- in `read`, look whether the device is ready -/
  | readChecking (sector : UInt64) (buffer : List UInt8)
  | readLocking (sector : UInt64) (buffer : List UInt8)
  /-- in `read`, compare the range with the size of the storage -/
  | readBounding (sector : UInt64) (buffer : List UInt8)
  /-- in `read`, copy the next byte to the buffer -/
  | copying (sector : UInt64) (buffer copied : List UInt8)
  | countingRead (sector : UInt64) (buffer copied : List UInt8)
  /-- drop the guard and return -/
  | readUnlocking (reply : BlockReturn)
  /-- in `write`, look whether the device is ready, and at the configuration -/
  | writeChecking (sector : UInt64) (data : List UInt8)
  | writeLocking (sector : UInt64) (data : List UInt8)
  | writeBounding (sector : UInt64) (data : List UInt8)
  /-- in `write`, store the byte `k` of the data -/
  | storing (sector : UInt64) (data : List UInt8) (k : Nat)
  | countingWrite (sector : UInt64) (data : List UInt8)
  /-- in a `write` that panics, drop the guard -/
  | unwinding (sector : UInt64) (data : List UInt8)
  | writeUnlocking (reply : BlockReturn)

/-- The offset of a request, as the code computes it. -/
def offsetOf (sector : UInt64) : Nat := wmul sector.toNat 512

/-- The checks of a range in a storage of this size: the comparison of the code, and those of the
slice `[offset..offset + len]` and of `copy_from_slice`. -/
def checkRange (size : Nat) (sector : UInt64) (len : Nat) : Outcome KernelError Unit :=
  if wadd (offsetOf sector) len > size then .err .invalidArgument
  else if wadd (offsetOf sector) len < offsetOf sector
      ∨ len ≠ wadd (offsetOf sector) len - offsetOf sector then .panic
  else .ok ()

/-- One byte of a `copy_from_slice` into the storage. -/
def VirtioBlock.setByte (d : VirtioBlock) (i : Nat) (byte : UInt8) : VirtioBlock :=
  { d with
    storage := d.storage.set i byte
    storage_lt := by rw [List.length_set]; exact d.storage_lt }

namespace SharedBlock

/-- `ready.store`. -/
def setReady (s : SharedBlock) (ready : Bool) : SharedBlock :=
  { s with device := { s.device with ready := ready } }

/-- `queue.set_ready`. -/
def setQueueReady (s : SharedBlock) (ready : Bool) : SharedBlock :=
  { s with device := { s.device with queueReady := ready } }

/-- One atomic step. A client that waits for the lock stays where it is. The guard that comes with
the error of a poisoned lock is dropped before the call returns. -/
def exec (s : SharedBlock) : BlockPoint → SharedBlock × Progress BlockPoint BlockReturn
  | .activatingQueue => (s.setQueueReady true, .goto .activating)
  | .activating => (s.setReady true, .ret .done)
  | .deactivating => (s.setReady false, .goto .deactivatingQueue)
  | .deactivatingQueue => (s.setQueueReady false, .ret .done)
  | .flushing => (s, .ret (.flush s.device.flush))
  | .readChecking sector buffer =>
      if !s.device.isReady then (s, .ret (.read (.err .deviceNotReady) buffer))
      else (s, .goto (.readLocking sector buffer))
  | .readLocking sector buffer =>
      if s.lock.barsReaders then (s, .goto (.readLocking sector buffer))
      else if s.poisoned then
        ({ s with lock := s.lock.lockRead },
          .goto (.readUnlocking (.read (.err .resourceBusy) buffer)))
      else ({ s with lock := s.lock.lockRead }, .goto (.readBounding sector buffer))
  | .readBounding sector buffer =>
      match checkRange s.device.storage.length sector buffer.length with
      | .ok () => (s, .goto (.copying sector buffer []))
      | .err e => (s, .goto (.readUnlocking (.read (.err e) buffer)))
      -- a panic under a read guard does not poison the lock
      | .panic => (s, .goto (.readUnlocking (.read .panic buffer)))
      | .diverge => (s, .goto (.readUnlocking (.read .diverge buffer)))
  | .copying sector buffer copied =>
      if copied.length < buffer.length then
        (s, .goto (.copying sector buffer
          (copied ++ [s.device.storage.getD (offsetOf sector + copied.length) 0])))
      else (s, .goto (.countingRead sector buffer copied))
  | .countingRead _ buffer copied =>
      ({ s with device := { s.device with reads := s.device.reads + 1 } },
        .goto (.readUnlocking (.read (.ok buffer.length) copied)))
  | .readUnlocking reply => ({ s with lock := s.lock.unlockRead }, .ret reply)
  | .writeChecking sector data =>
      if !s.device.isReady then (s, .ret (.write (.err .deviceNotReady)))
      else if s.device.config.readOnly then (s, .ret (.write (.err .notSupported)))
      else (s, .goto (.writeLocking sector data))
  | .writeLocking sector data =>
      if s.lock.barsWriters then (s, .goto (.writeLocking sector data))
      else if s.poisoned then
        ({ s with lock := s.lock.lockWrite }, .goto (.writeUnlocking (.write (.err .resourceBusy))))
      else ({ s with lock := s.lock.lockWrite }, .goto (.writeBounding sector data))
  | .writeBounding sector data =>
      match checkRange s.device.storage.length sector data.length with
      | .ok () => (s, .goto (.storing sector data 0))
      | .err e => (s, .goto (.writeUnlocking (.write (.err e))))
      | .panic => (s, .goto (.unwinding sector data))
      | .diverge => (s, .goto (.writeUnlocking (.write .diverge)))
  | .storing sector data k =>
      if k < data.length then
        ({ s with device := s.device.setByte (offsetOf sector + k) (data.getD k 0) },
          .goto (.storing sector data (k + 1)))
      else (s, .goto (.countingWrite sector data))
  | .countingWrite _ data =>
      ({ s with device := { s.device with writes := s.device.writes + 1 } },
        .goto (.writeUnlocking (.write (.ok data.length))))
  | .unwinding _ _ =>
      ({ s with lock := s.lock.unlockWrite, poisoned := true }, .ret (.write .panic))
  | .writeUnlocking reply => ({ s with lock := s.lock.unlockWrite }, .ret reply)

end SharedBlock

/-- Where a call starts. -/
def BlockCall.entry : BlockCall → BlockPoint
  | .activate => .activatingQueue
  | .deactivate => .deactivating
  | .read sector buffer => .readChecking sector buffer
  | .write sector data => .writeChecking sector data
  | .flush => .flushing

/-- The calls as atomic steps. They read nothing from outside. -/
def blockCode : Code Unit SharedBlock BlockCall BlockPoint BlockReturn :=
  ⟨BlockCall.entry, fun _ => SharedBlock.exec⟩

/-- `n` clients on the device `d`. -/
def sharedBlockMachine (d : VirtioBlock) (n : Nat) :
    Machine (Clients SharedBlock BlockPoint) (Unit × Move BlockCall)
      (Option (BlockPoint × Progress BlockPoint BlockReturn)) :=
  blockCode.machine ⟨d, .free, false⟩ n

/-! ## The lock -/

/-- What a call holds of the lock. -/
def BlockPoint.hold : BlockPoint → Hold
  | .readBounding _ _ | .copying _ _ _ | .countingRead _ _ _ | .readUnlocking _ => .reading
  | .writeBounding _ _ | .storing _ _ _ | .countingWrite _ _ | .unwinding _ _
  | .writeUnlocking _ => .writing
  | _ => .nothing

/-- **The code takes the lock when it is free, and gives back what it holds.** -/
theorem blockCode_guarded : blockCode.Guarded SharedBlock.lock BlockPoint.hold := by
  refine ⟨fun call => by cases call <;> rfl, fun _ s p => ?_⟩
  show s.lock.Step p.hold (holdOf BlockPoint.hold (s.exec p).2.point) (s.exec p).1.lock
  cases p with
  | readChecking sector buffer | writeChecking sector data =>
      rw [SharedBlock.exec]
      split_ifs <;> exact .keep _
  | readLocking sector buffer =>
      rw [SharedBlock.exec]
      split_ifs with hbars
      · exact .keep _
      · exact .lockRead (Bool.eq_false_iff.mpr hbars)
      · exact .lockRead (Bool.eq_false_iff.mpr hbars)
  | writeLocking sector data =>
      rw [SharedBlock.exec]
      split_ifs with hbars
      · exact .keep _
      · exact .lockWrite (Bool.eq_false_iff.mpr hbars)
      · exact .lockWrite (Bool.eq_false_iff.mpr hbars)
  | readBounding sector buffer | writeBounding sector data =>
      rw [SharedBlock.exec]
      split <;> exact .keep _
  | copying sector buffer copied | storing sector data k =>
      rw [SharedBlock.exec]
      split_ifs <;> exact .keep _
  | readUnlocking reply => exact .unlockRead
  | unwinding sector data => exact .unlockWrite
  | writeUnlocking reply => exact .unlockWrite
  | _ => exact .keep _

/-! ## Requests that take effect at once -/

/-- The accesses of the calls: to the flag of the device and of its queue, and to the storage, with
the lock and the counters. -/
inductive Access where
  | isReady
  | setReady (ready : Bool)
  | setQueueReady (ready : Bool)
  | load (sector : UInt64) (buffer : List UInt8)
  | store (sector : UInt64) (data : List UInt8)
  deriving DecidableEq

/-- What an access gives back. -/
inductive Answer where
  | flag (value : Bool)
  | done
  | returned (reply : BlockReturn)
  deriving DecidableEq

/-- The device without interleaving: the flags, the poison of the lock, and an active device behind
the lock. -/
structure SerialBlock where
  ready : Bool
  queueReady : Bool
  poisoned : Bool
  disk : VirtioBlock

/-- One access. -/
def SerialBlock.access (t : SerialBlock) : Access → SerialBlock × Answer
  | .isReady => (t, .flag t.ready)
  | .setReady ready => ({ t with ready := ready }, .done)
  | .setQueueReady ready => ({ t with queueReady := ready }, .done)
  | .load sector buffer =>
      if t.poisoned then (t, .returned (.read (.err .resourceBusy) buffer))
      else ({ t with disk := (t.disk.call (.read sector buffer)).1 },
        .returned (t.disk.call (.read sector buffer)).2)
  | .store sector data =>
      if t.poisoned then (t, .returned (.write (.err .resourceBusy)))
      else ({ t with
          disk := (t.disk.call (.write sector data)).1
          poisoned := (t.disk.write sector data).2 = .panic },
        .returned (t.disk.call (.write sector data)).2)

/-- The accesses to a device that is `d` before. -/
def serialMachine (d : VirtioBlock) : Machine SerialBlock Access Answer where
  init := ⟨d.ready, d.queueReady, false, d.activate⟩
  step := SerialBlock.access

/-- The accesses that take effect at a step. -/
def SharedBlock.ops (s : SharedBlock) : BlockPoint → List Access
  | .activatingQueue => [.setQueueReady true]
  | .activating => [.setReady true]
  | .deactivating => [.setReady false]
  | .deactivatingQueue => [.setQueueReady false]
  | .flushing | .readChecking _ _ | .writeChecking _ _ => [.isReady]
  | .readLocking sector buffer =>
      if !s.lock.barsReaders && s.poisoned then [.load sector buffer] else []
  | .readBounding sector buffer =>
      if checkRange s.device.storage.length sector buffer.length = .ok () then []
      else [.load sector buffer]
  | .countingRead sector buffer _ => [.load sector buffer]
  | .writeLocking sector data =>
      if !s.lock.barsWriters && s.poisoned then [.store sector data] else []
  | .writeBounding sector data =>
      if checkRange s.device.storage.length sector data.length = .err .invalidArgument then
        [.store sector data]
      else []
  | .countingWrite sector data | .unwinding sector data => [.store sector data]
  | .copying _ _ _ | .readUnlocking _ | .storing _ _ _ | .writeUnlocking _ => []

/-- A call may return `r` after the accesses `l`. A request is the check for readiness, and the
access if the check has passed. -/
def BlockExplains (config : BlockConfig) : BlockCall → List (Access × Answer) → BlockReturn → Prop
  | .activate, l, r => l = [(.setQueueReady true, .done), (.setReady true, .done)] ∧ r = .done
  | .deactivate, l, r => l = [(.setReady false, .done), (.setQueueReady false, .done)] ∧ r = .done
  | .flush, l, r =>
      ∃ b, l = [(.isReady, .flag b)] ∧ r = .flush (if b then .ok () else .err .deviceNotReady)
  | .read sector buffer, l, r =>
      (l = [(.isReady, .flag false)] ∧ r = .read (.err .deviceNotReady) buffer) ∨
      l = [(.isReady, .flag true), (.load sector buffer, .returned r)]
  | .write sector data, l, r =>
      (l = [(.isReady, .flag false)] ∧ r = .write (.err .deviceNotReady)) ∨
      (config.readOnly = true ∧ l = [(.isReady, .flag true)] ∧ r = .write (.err .notSupported)) ∨
      (config.readOnly = false ∧
        l = [(.isReady, .flag true), (.store sector data, .returned r)])

/-- A call `k` at this point has performed the accesses `l`. -/
def BlockPerformed (config : BlockConfig) (k : BlockCall) :
    BlockPoint → List (Access × Answer) → Prop
  | .activatingQueue, l => k = .activate ∧ l = []
  | .activating, l => k = .activate ∧ l = [(.setQueueReady true, .done)]
  | .deactivating, l => k = .deactivate ∧ l = []
  | .deactivatingQueue, l => k = .deactivate ∧ l = [(.setReady false, .done)]
  | .flushing, l => k = .flush ∧ l = []
  | .readChecking sector buffer, l => k = .read sector buffer ∧ l = []
  | .readLocking sector buffer, l | .readBounding sector buffer, l
  | .copying sector buffer _, l | .countingRead sector buffer _, l =>
      k = .read sector buffer ∧ l = [(.isReady, .flag true)]
  | .readUnlocking reply, l => ∃ sector buffer, k = .read sector buffer ∧
      l = [(.isReady, .flag true), (.load sector buffer, .returned reply)]
  | .writeChecking sector data, l => k = .write sector data ∧ l = []
  | .writeLocking sector data, l | .writeBounding sector data, l
  | .storing sector data _, l | .countingWrite sector data, l | .unwinding sector data, l =>
      k = .write sector data ∧ config.readOnly = false ∧ l = [(.isReady, .flag true)]
  | .writeUnlocking reply, l => ∃ sector data, k = .write sector data ∧
      config.readOnly = false ∧
      l = [(.isReady, .flag true), (.store sector data, .returned reply)]

/-! ## Single requests -/

section Requests

variable {d : VirtioBlock} {sector : UInt64} {buffer data : List UInt8}

theorem wmul_eq_offsetOf : wmul sector.toNat 512 = offsetOf sector := rfl

theorem checkRange_eq_ok {size len : Nat} (h : checkRange size sector len = .ok ()) :
    wadd (offsetOf sector) len = offsetOf sector + len ∧ offsetOf sector + len ≤ size := by
  unfold checkRange at h
  split_ifs at h
  omega

theorem checkRange_cases (size : Nat) (sector : UInt64) (len : Nat) :
    checkRange size sector len = .ok () ∨
    checkRange size sector len = .err .invalidArgument ∨
    checkRange size sector len = .panic := by
  unfold checkRange
  split_ifs
  · exact .inr (.inl rfl)
  · exact .inr (.inr rfl)
  · exact .inl rfl

theorem call_read_of_ok (hready : d.ready = true)
    (h : checkRange d.storage.length sector buffer.length = .ok ()) :
    d.call (.read sector buffer) = ({ d with reads := d.reads + 1 },
      .read (.ok buffer.length) ((d.storage.drop (offsetOf sector)).take buffer.length)) := by
  obtain ⟨hend, hle⟩ := checkRange_eq_ok h
  have hlen : ((d.storage.drop (offsetOf sector)).take buffer.length).length = buffer.length := by
    rw [List.length_take, List.length_drop]
    omega
  have hcopy := copyInto_zero (b := buffer) (Nat.le_of_eq hlen)
  rw [hlen, List.drop_length, List.append_nil] at hcopy
  have hread : d.read sector buffer = ({ d with reads := d.reads + 1 }, .ok buffer.length,
      (d.storage.drop (offsetOf sector)).take buffer.length) := by
    unfold VirtioBlock.read
    simp only [VirtioBlock.isReady, hready, Bool.not_true, Bool.false_eq_true, if_false,
      wmul_eq_offsetOf, hend, if_neg (Nat.not_lt.mpr hle),
      slice_of_le (Nat.le_add_right _ _) hle, Nat.add_sub_cancel_left, Option.bind_some, hcopy]
  simp only [VirtioBlock.call, hread]

theorem call_read_of_err (hready : d.ready = true)
    (h : checkRange d.storage.length sector buffer.length = .err .invalidArgument) :
    d.call (.read sector buffer) = (d, .read (.err .invalidArgument) buffer) := by
  have hgt : wadd (wmul sector.toNat 512) buffer.length > d.storage.length := by
    unfold checkRange at h
    split_ifs at h with hgt
    exact hgt
  simp [VirtioBlock.call, VirtioBlock.read, VirtioBlock.isReady, hready, hgt]

/-- The slice of a request that panics is not one. -/
theorem checkRange_eq_panic {size len : Nat} (h : checkRange size sector len = .panic) :
    wadd (offsetOf sector) len ≤ size ∧ (wadd (offsetOf sector) len < offsetOf sector ∨
      len ≠ wadd (offsetOf sector) len - offsetOf sector) := by
  unfold checkRange at h
  split_ifs at h with hgt hpanic
  exact ⟨Nat.not_lt.mp hgt, hpanic⟩

theorem call_read_of_panic (hready : d.ready = true)
    (h : checkRange d.storage.length sector buffer.length = .panic) :
    d.call (.read sector buffer) = (d, .read .panic buffer) := by
  obtain ⟨hle, hpanic⟩ := checkRange_eq_panic h
  have hcopy : (slice d.storage (offsetOf sector) (wadd (offsetOf sector) buffer.length)).bind
      (copyInto buffer 0 buffer.length) = none := by
    by_cases hlo : offsetOf sector ≤ wadd (offsetOf sector) buffer.length
    · rw [slice_of_le hlo hle, Option.bind_some, copyInto, if_neg]
      rw [List.length_take, List.length_drop]
      omega
    · rw [slice_eq_none (fun hc => hlo hc.1)]
      rfl
  have hread : d.read sector buffer = (d, .panic, buffer) := by
    unfold VirtioBlock.read
    simp only [VirtioBlock.isReady, hready, Bool.not_true, Bool.false_eq_true, if_false,
      wmul_eq_offsetOf, if_neg (Nat.not_lt.mpr hle), hcopy]
  simp only [VirtioBlock.call, hread]

theorem write_of_checkRange_ok (hready : d.ready = true) (hro : d.config.readOnly = false)
    (h : checkRange d.storage.length sector data.length = .ok ()) :
    ∃ d' : VirtioBlock, d.write sector data = (d', .ok data.length) ∧
      d'.storage = d.storage.take (offsetOf sector) ++ data
        ++ d.storage.drop (offsetOf sector + data.length) ∧
      d'.config = d.config ∧ d'.ready = d.ready ∧ d'.reads = d.reads ∧
      d'.writes = d.writes + 1 := by
  obtain ⟨hend, hle⟩ := checkRange_eq_ok h
  have hcopy : copyInto d.storage (offsetOf sector) (offsetOf sector + data.length) data = _ :=
    copyInto_of_le (Nat.le_add_right _ _) hle (by omega)
  unfold VirtioBlock.write
  simp only [VirtioBlock.isReady, hready, hro, Bool.not_true, Bool.false_eq_true, if_false,
    wmul_eq_offsetOf, if_neg (Nat.not_lt.mpr (hend.trans_le hle))]
  split
  · next hn =>
      rw [hend, hcopy] at hn
      cases hn
  · next s hs =>
      rw [hend, hcopy] at hs
      exact ⟨_, rfl, (Option.some_inj.mp hs).symm, rfl, rfl, rfl, rfl⟩

theorem write_of_checkRange_err (hready : d.ready = true) (hro : d.config.readOnly = false)
    (h : checkRange d.storage.length sector data.length = .err .invalidArgument) :
    d.write sector data = (d, .err .invalidArgument) := by
  have hgt : wadd (wmul sector.toNat 512) data.length > d.storage.length := by
    unfold checkRange at h
    split_ifs at h with hgt
    exact hgt
  simp [VirtioBlock.write, VirtioBlock.isReady, hready, hro, hgt]

theorem write_of_checkRange_panic (hready : d.ready = true) (hro : d.config.readOnly = false)
    (h : checkRange d.storage.length sector data.length = .panic) :
    d.write sector data = (d, .panic) := by
  obtain ⟨hle, hpanic⟩ := checkRange_eq_panic h
  unfold VirtioBlock.write
  simp only [VirtioBlock.isReady, hready, hro, Bool.not_true, Bool.false_eq_true, if_false,
    wmul_eq_offsetOf, if_neg (Nat.not_lt.mpr hle)]
  split
  · rfl
  · next s hs =>
      unfold copyInto at hs
      split_ifs at hs
      omega

end Requests

/-! ## Linearization -/

/-- The device and the serial one have the same flags, counters and size. -/
structure Mirrors (config : BlockConfig) (s : SharedBlock) (t : SerialBlock) : Prop where
  config_eq : s.device.config = config
  config_abs : t.disk.config = config
  active : t.disk.ready = true
  ready_eq : s.device.ready = t.ready
  queueReady_eq : s.device.queueReady = t.queueReady
  poisoned_eq : s.poisoned = t.poisoned
  reads_eq : s.device.reads = t.disk.reads
  writes_eq : s.device.writes = t.disk.writes
  length_eq : s.device.storage.length = t.disk.storage.length

/-- What a client under the lock knows about the storage `now` and the serial storage `abs`: a
reader has copied a part of its range, and a writer has stored a part of its data. -/
def Standing (now abs : List UInt8) (poisoned : Bool) : BlockPoint → Prop
  | .readBounding _ _ => poisoned = false
  | .copying sector buffer copied =>
      poisoned = false ∧ checkRange abs.length sector buffer.length = .ok () ∧
        copied.length ≤ buffer.length ∧ copied = (abs.drop (offsetOf sector)).take copied.length
  | .countingRead sector buffer copied =>
      poisoned = false ∧ checkRange abs.length sector buffer.length = .ok () ∧
        copied = (abs.drop (offsetOf sector)).take buffer.length
  | .writeBounding _ _ => poisoned = false ∧ now = abs
  | .storing sector data k =>
      poisoned = false ∧ checkRange abs.length sector data.length = .ok () ∧ k ≤ data.length ∧
        now = abs.take (offsetOf sector) ++ data.take k ++ abs.drop (offsetOf sector + k)
  | .countingWrite sector data =>
      poisoned = false ∧ checkRange abs.length sector data.length = .ok () ∧
        now = abs.take (offsetOf sector) ++ data ++ abs.drop (offsetOf sector + data.length)
  | .unwinding sector data =>
      poisoned = false ∧ checkRange abs.length sector data.length = .panic ∧ now = abs
  | .writeUnlocking _ => now = abs
  | _ => True

/-- A client that holds nothing knows nothing. -/
theorem standing_of_nothing {p : BlockPoint} (h : p.hold = .nothing) (now abs : List UInt8)
    (poisoned : Bool) : Standing now abs poisoned p := by
  cases p with
  | readBounding sector buffer => cases h
  | copying sector buffer copied => cases h
  | countingRead sector buffer copied => cases h
  | writeBounding sector data => cases h
  | storing sector data k => cases h
  | countingWrite sector data => cases h
  | unwinding sector data => cases h
  | writeUnlocking reply => cases h
  | _ => trivial

/-- What is right after the step of a call `k` from `p`, which has led to `s'` and `t'`. -/
structure Advanced (config : BlockConfig) (k : BlockCall) (s : SharedBlock) (t : SerialBlock)
    (p : BlockPoint) (s' : SharedBlock) (t' : SerialBlock) (l : List (Access × Answer))
    (next : Progress BlockPoint BlockReturn) : Prop where
  mirrors : Mirrors config s' t'
  standing : ∀ q, next = .goto q → Standing s'.device.storage t'.disk.storage t'.poisoned q
  continues : Code.Continues (BlockPerformed config) (BlockExplains config) k l next
  frame : p.hold = .writing ∨ (s'.device.storage = s.device.storage ∧
    t'.disk.storage = t.disk.storage ∧ t'.poisoned = t.poisoned)
  released : p.hold = .writing → holdOf BlockPoint.hold next.point = .nothing →
    s'.device.storage = t'.disk.storage

section Steps

variable {config : BlockConfig} {k : BlockCall} {s : SharedBlock} {t : SerialBlock}
  {l : List (Access × Answer)}

theorem Mirrors.withLock (h : Mirrors config s t) (lock : RwLock) :
    Mirrors config { s with lock := lock } t :=
  ⟨h.config_eq, h.config_abs, h.active, h.ready_eq, h.queueReady_eq, h.poisoned_eq, h.reads_eq,
    h.writes_eq, h.length_eq⟩

theorem Mirrors.setReady (h : Mirrors config s t) (ready : Bool) :
    Mirrors config (s.setReady ready) { t with ready := ready } :=
  ⟨h.config_eq, h.config_abs, h.active, rfl, h.queueReady_eq, h.poisoned_eq, h.reads_eq,
    h.writes_eq, h.length_eq⟩

theorem Mirrors.setQueueReady (h : Mirrors config s t) (ready : Bool) :
    Mirrors config (s.setQueueReady ready) { t with queueReady := ready } :=
  ⟨h.config_eq, h.config_abs, h.active, h.ready_eq, rfl, h.poisoned_eq, h.reads_eq,
    h.writes_eq, h.length_eq⟩

/-- A step of a client that holds nothing and takes nothing. -/
theorem Mirrors.outside {s' : SharedBlock} {t' : SerialBlock} {p : BlockPoint}
    {next : Progress BlockPoint BlockReturn} (h : Mirrors config s' t') (hp : p.hold = .nothing)
    (hnext : holdOf BlockPoint.hold next.point = .nothing)
    (hnow : s'.device.storage = s.device.storage) (habs : t'.disk.storage = t.disk.storage)
    (hpoisoned : t'.poisoned = t.poisoned)
    (hcontinues : Code.Continues (BlockPerformed config) (BlockExplains config) k l next) :
    Advanced config k s t p s' t' l next := by
  refine ⟨h, fun q hq => ?_, hcontinues, .inr ⟨hnow, habs, hpoisoned⟩, fun hw => ?_⟩
  · subst hq
    exact standing_of_nothing hnext _ _ _
  · rw [hp] at hw
    cases hw

/-- A step that only moves the client and the lock, to a point under the lock. -/
theorem Mirrors.goto (h : Mirrors config s t) {p q : BlockPoint} (lock : RwLock)
    (hq : q.hold ≠ .nothing) (hstanding : Standing s.device.storage t.disk.storage t.poisoned q)
    (hperformed : BlockPerformed config k q l) :
    Advanced config k s t p { s with lock := lock } t l (.goto q) := by
  refine ⟨h.withLock lock, fun q' hq' => ?_, hperformed, .inr ⟨rfl, rfl, rfl⟩,
    fun _ hnone => absurd hnone hq⟩
  cases hq'
  exact hstanding

/-- The step of a call `k` from `p`, with its accesses. -/
def Stepped (config : BlockConfig) (k : BlockCall) (l : List (Access × Answer)) (s : SharedBlock)
    (t : SerialBlock) (p : BlockPoint) : Prop :=
  ∀ d, Advanced config k s t p (s.exec p).1 ((serialMachine d).runFrom t (s.ops p))
    (l ++ (serialMachine d).traceFrom t (s.ops p)) (s.exec p).2

/-- A step without an access. -/
theorem stepped_silent {p : BlockPoint} {s' : SharedBlock} {next : Progress BlockPoint BlockReturn}
    (hexec : s.exec p = (s', next)) (hops : s.ops p = [])
    (h : Advanced config k s t p s' t l next) : Stepped config k l s t p := by
  intro d
  rw [hexec, hops, Machine.traceFrom, List.append_nil]
  exact h

/-- A step with one access. -/
theorem stepped_access {p : BlockPoint} {s' : SharedBlock} {next : Progress BlockPoint BlockReturn}
    {a : Access} {t' : SerialBlock} {answer : Answer} (hexec : s.exec p = (s', next))
    (hops : s.ops p = [a]) (haccess : t.access a = (t', answer))
    (h : Advanced config k s t p s' t' (l ++ [(a, answer)]) next) : Stepped config k l s t p := by
  intro d
  rw [hexec, hops]
  show Advanced config k s t p s' (t.access a).1 (l ++ [(a, (t.access a).2)]) next
  rw [haccess]
  exact h

theorem access_load (h : t.poisoned = false) (sector : UInt64) (buffer : List UInt8) :
    t.access (.load sector buffer) = ({ t with disk := (t.disk.call (.read sector buffer)).1 },
      .returned (t.disk.call (.read sector buffer)).2) := by
  simp [SerialBlock.access, h]

theorem access_store (h : t.poisoned = false) (sector : UInt64) (data : List UInt8) :
    t.access (.store sector data) = ({ t with
      disk := (t.disk.write sector data).1
      poisoned := (t.disk.write sector data).2 = .panic },
      .returned (.write (t.disk.write sector data).2)) := by
  simp [SerialBlock.access, h, VirtioBlock.call]

theorem access_load_of_poisoned (h : t.poisoned = true) (sector : UInt64) (buffer : List UInt8) :
    t.access (.load sector buffer) = (t, .returned (.read (.err .resourceBusy) buffer)) := by
  simp [SerialBlock.access, h]

theorem access_store_of_poisoned (h : t.poisoned = true) (sector : UInt64) (data : List UInt8) :
    t.access (.store sector data) = (t, .returned (.write (.err .resourceBusy))) := by
  simp [SerialBlock.access, h]

theorem stepped_activatingQueue (hm : Mirrors config s t)
    (hd : BlockPerformed config k .activatingQueue l) :
    Stepped config k l s t .activatingQueue := by
  obtain ⟨rfl, rfl⟩ := hd
  exact stepped_access rfl rfl rfl
    ((hm.setQueueReady true).outside rfl rfl rfl rfl rfl ⟨rfl, rfl⟩)

theorem stepped_activating (hm : Mirrors config s t)
    (hd : BlockPerformed config k .activating l) : Stepped config k l s t .activating := by
  obtain ⟨rfl, rfl⟩ := hd
  exact stepped_access rfl rfl rfl ((hm.setReady true).outside rfl rfl rfl rfl rfl ⟨rfl, rfl⟩)

theorem stepped_deactivating (hm : Mirrors config s t)
    (hd : BlockPerformed config k .deactivating l) : Stepped config k l s t .deactivating := by
  obtain ⟨rfl, rfl⟩ := hd
  exact stepped_access rfl rfl rfl ((hm.setReady false).outside rfl rfl rfl rfl rfl ⟨rfl, rfl⟩)

theorem stepped_deactivatingQueue (hm : Mirrors config s t)
    (hd : BlockPerformed config k .deactivatingQueue l) :
    Stepped config k l s t .deactivatingQueue := by
  obtain ⟨rfl, rfl⟩ := hd
  exact stepped_access rfl rfl rfl
    ((hm.setQueueReady false).outside rfl rfl rfl rfl rfl ⟨rfl, rfl⟩)

theorem stepped_flushing (hm : Mirrors config s t) (hd : BlockPerformed config k .flushing l) :
    Stepped config k l s t .flushing := by
  obtain ⟨rfl, rfl⟩ := hd
  apply stepped_access rfl rfl rfl
  refine hm.outside rfl rfl rfl rfl rfl ⟨t.ready, rfl, ?_⟩
  rw [VirtioBlock.flush, VirtioBlock.isReady, hm.ready_eq]
  cases t.ready <;> rfl

theorem stepped_readChecking (hm : Mirrors config s t) {sector : UInt64} {buffer : List UInt8}
    (hd : BlockPerformed config k (.readChecking sector buffer) l) :
    Stepped config k l s t (.readChecking sector buffer) := by
  obtain ⟨rfl, rfl⟩ := hd
  have hready := hm.ready_eq
  apply stepped_access rfl rfl rfl
  rw [VirtioBlock.isReady, hready]
  cases t.ready with
  | false => exact hm.outside rfl rfl rfl rfl rfl (.inl ⟨rfl, rfl⟩)
  | true => exact hm.outside rfl rfl rfl rfl rfl ⟨rfl, rfl⟩

theorem stepped_writeChecking (hm : Mirrors config s t) {sector : UInt64} {data : List UInt8}
    (hd : BlockPerformed config k (.writeChecking sector data) l) :
    Stepped config k l s t (.writeChecking sector data) := by
  obtain ⟨rfl, rfl⟩ := hd
  have hready := hm.ready_eq
  apply stepped_access rfl rfl rfl
  rw [VirtioBlock.isReady, hready, hm.config_eq]
  cases t.ready with
  | false => exact hm.outside rfl rfl rfl rfl rfl (.inl ⟨rfl, rfl⟩)
  | true =>
      cases hro : config.readOnly with
      | true => exact hm.outside rfl rfl rfl rfl rfl (.inr (.inl ⟨hro, rfl, rfl⟩))
      | false => exact hm.outside rfl rfl rfl rfl rfl ⟨rfl, hro, rfl⟩

/-- Taking the lock. A poisoned one is given back at once, and the access has failed. -/
theorem stepped_readLocking (hm : Mirrors config s t) {sector : UInt64} {buffer : List UInt8}
    (hd : BlockPerformed config k (.readLocking sector buffer) l) :
    Stepped config k l s t (.readLocking sector buffer) := by
  obtain ⟨rfl, rfl⟩ := hd
  have hpoisoned := hm.poisoned_eq
  cases hbars : s.lock.barsReaders with
  | true =>
      have hexec : s.exec (.readLocking sector buffer) = (s, .goto (.readLocking sector buffer)) := by
        simp [SharedBlock.exec, hbars]
      apply stepped_silent hexec
      · simp [SharedBlock.ops, hbars]
      · exact hm.outside rfl rfl rfl rfl rfl ⟨rfl, rfl⟩
  | false =>
      cases hp : t.poisoned with
      | false =>
          rw [hp] at hpoisoned
          refine stepped_silent ?_ ?_ (hm.goto (q := .readBounding sector buffer)
            s.lock.lockRead nofun hp ⟨rfl, rfl⟩)
          · simp [SharedBlock.exec, hbars, hpoisoned]
          · simp [SharedBlock.ops, hbars, hpoisoned]
      | true =>
          rw [hp] at hpoisoned
          refine stepped_access ?_ ?_ (access_load_of_poisoned hp sector buffer)
            (hm.goto (q := .readUnlocking (.read (.err .resourceBusy) buffer))
              s.lock.lockRead nofun trivial ⟨sector, buffer, rfl, rfl⟩)
          · simp [SharedBlock.exec, hbars, hpoisoned]
          · simp [SharedBlock.ops, hbars, hpoisoned]

theorem stepped_writeLocking (hm : Mirrors config s t) {sector : UInt64} {data : List UInt8}
    (hfree : s.lock.writer = false → s.device.storage = t.disk.storage)
    (hd : BlockPerformed config k (.writeLocking sector data) l) :
    Stepped config k l s t (.writeLocking sector data) := by
  obtain ⟨rfl, hro, rfl⟩ := hd
  have hpoisoned := hm.poisoned_eq
  cases hbars : s.lock.barsWriters with
  | true =>
      have hexec : s.exec (.writeLocking sector data) = (s, .goto (.writeLocking sector data)) := by
        simp [SharedBlock.exec, hbars]
      apply stepped_silent hexec
      · simp [SharedBlock.ops, hbars]
      · exact hm.outside rfl rfl rfl rfl rfl ⟨rfl, hro, rfl⟩
  | false =>
      have hstorage := hfree (Bool.or_eq_false_iff.mp hbars).1
      cases hp : t.poisoned with
      | false =>
          rw [hp] at hpoisoned
          refine stepped_silent ?_ ?_ (hm.goto (q := .writeBounding sector data)
            s.lock.lockWrite nofun ⟨hp, hstorage⟩ ⟨rfl, hro, rfl⟩)
          · simp [SharedBlock.exec, hbars, hpoisoned]
          · simp [SharedBlock.ops, hbars, hpoisoned]
      | true =>
          rw [hp] at hpoisoned
          refine stepped_access ?_ ?_ (access_store_of_poisoned hp sector data)
            (hm.goto (q := .writeUnlocking (.write (.err .resourceBusy)))
              s.lock.lockWrite nofun hstorage ⟨sector, data, rfl, hro, rfl⟩)
          · simp [SharedBlock.exec, hbars, hpoisoned]
          · simp [SharedBlock.ops, hbars, hpoisoned]

/-- A request that is refused, or panics, has had no effect. -/
theorem stepped_readBounding (hm : Mirrors config s t) {sector : UInt64} {buffer : List UInt8}
    (hs : Standing s.device.storage t.disk.storage t.poisoned (.readBounding sector buffer))
    (hd : BlockPerformed config k (.readBounding sector buffer) l) :
    Stepped config k l s t (.readBounding sector buffer) := by
  obtain ⟨rfl, rfl⟩ := hd
  have hlen := hm.length_eq
  have hfail : ∀ r, t.disk.call (.read sector buffer) = (t.disk, r) →
      t.access (.load sector buffer) = (t, .returned r) := by
    intro r hcall
    rw [access_load hs, hcall]
  rcases checkRange_cases t.disk.storage.length sector buffer.length with hc | hc | hc
  · refine stepped_silent ?_ ?_ (hm.goto (q := .copying sector buffer []) s.lock nofun
      ⟨hs, hc, Nat.zero_le _, rfl⟩ ⟨rfl, rfl⟩)
    · simp [SharedBlock.exec, hlen, hc]
    · simp [SharedBlock.ops, hlen, hc]
  · refine stepped_access ?_ ?_ (hfail _ (call_read_of_err hm.active hc))
      (hm.goto (q := .readUnlocking (.read (.err .invalidArgument) buffer)) s.lock nofun trivial
        ⟨sector, buffer, rfl, rfl⟩)
    · simp [SharedBlock.exec, hlen, hc]
    · simp [SharedBlock.ops, hlen, hc]
  · refine stepped_access ?_ ?_ (hfail _ (call_read_of_panic hm.active hc))
      (hm.goto (q := .readUnlocking (.read .panic buffer)) s.lock nofun trivial
        ⟨sector, buffer, rfl, rfl⟩)
    · simp [SharedBlock.exec, hlen, hc]
    · simp [SharedBlock.ops, hlen, hc]

/-- One more byte of the range. -/
theorem take_concat_getD {storage copied : List UInt8} {lo len : Nat}
    (hle : lo + len ≤ storage.length) (hlt : copied.length < len)
    (h : copied = (storage.drop lo).take copied.length) :
    copied ++ [storage.getD (lo + copied.length) 0]
      = (storage.drop lo).take (copied ++ [storage.getD (lo + copied.length) 0]).length := by
  have hidx : lo + copied.length < storage.length := by omega
  rw [List.length_append, List.length_singleton, List.take_add_one, ← h,
    List.getElem?_drop, List.getD_eq_getElem?_getD, List.getElem?_eq_getElem hidx]
  rfl

theorem stepped_copying (hm : Mirrors config s t) {sector : UInt64} {buffer copied : List UInt8}
    (hs : Standing s.device.storage t.disk.storage t.poisoned (.copying sector buffer copied))
    (hstorage : s.device.storage = t.disk.storage)
    (hd : BlockPerformed config k (.copying sector buffer copied) l) :
    Stepped config k l s t (.copying sector buffer copied) := by
  obtain ⟨hp, hc, hlen, hcopied⟩ := hs
  obtain ⟨-, hle⟩ := checkRange_eq_ok hc
  by_cases hlt : copied.length < buffer.length
  · refine stepped_silent ?_ rfl (hm.goto
      (q := .copying sector buffer
        (copied ++ [t.disk.storage.getD (offsetOf sector + copied.length) 0]))
      s.lock nofun ⟨hp, hc, ?_, take_concat_getD hle hlt hcopied⟩ hd)
    · simp [SharedBlock.exec, hlt, hstorage]
    · rw [List.length_append]
      exact hlt
  · have hall : copied.length = buffer.length := by omega
    refine stepped_silent ?_ rfl (hm.goto (q := .countingRead sector buffer copied) s.lock nofun
      ⟨hp, hc, hall ▸ hcopied⟩ hd)
    simp [SharedBlock.exec, hlt]

theorem stepped_countingRead (hm : Mirrors config s t) {sector : UInt64}
    {buffer copied : List UInt8}
    (hs : Standing s.device.storage t.disk.storage t.poisoned (.countingRead sector buffer copied))
    (hd : BlockPerformed config k (.countingRead sector buffer copied) l) :
    Stepped config k l s t (.countingRead sector buffer copied) := by
  obtain ⟨hp, hc, hcopied⟩ := hs
  obtain ⟨rfl, rfl⟩ := hd
  have haccess := access_load hp sector buffer
  rw [call_read_of_ok hm.active hc, ← hcopied] at haccess
  apply stepped_access rfl rfl haccess
  refine ⟨⟨hm.config_eq, hm.config_abs, hm.active, hm.ready_eq, hm.queueReady_eq, hm.poisoned_eq,
    congrArg (· + 1) hm.reads_eq, hm.writes_eq, hm.length_eq⟩, fun q hq => ?_,
    ⟨sector, buffer, rfl, rfl⟩, .inr ⟨rfl, rfl, rfl⟩, fun hw => by cases hw⟩
  cases hq
  trivial

theorem stepped_readUnlocking (hm : Mirrors config s t) {reply : BlockReturn}
    (hd : BlockPerformed config k (.readUnlocking reply) l) :
    Stepped config k l s t (.readUnlocking reply) := by
  obtain ⟨sector, buffer, rfl, rfl⟩ := hd
  exact stepped_silent rfl rfl ⟨hm.withLock _, nofun, .inr rfl, .inr ⟨rfl, rfl, rfl⟩, nofun⟩

theorem stepped_writeBounding (hm : Mirrors config s t) {sector : UInt64} {data : List UInt8}
    (hs : Standing s.device.storage t.disk.storage t.poisoned (.writeBounding sector data))
    (hd : BlockPerformed config k (.writeBounding sector data) l) :
    Stepped config k l s t (.writeBounding sector data) := by
  obtain ⟨hp, hstorage⟩ := hs
  obtain ⟨rfl, hro, rfl⟩ := hd
  have hlen := hm.length_eq
  have hroAbs : t.disk.config.readOnly = false := by rw [hm.config_abs, hro]
  rcases checkRange_cases t.disk.storage.length sector data.length with hc | hc | hc
  · refine stepped_silent ?_ ?_ (hm.goto (q := .storing sector data 0) s.lock nofun
      ⟨hp, hc, Nat.zero_le _, ?_⟩ ⟨rfl, hro, rfl⟩)
    · simp [SharedBlock.exec, hlen, hc]
    · simp [SharedBlock.ops, hlen, hc]
    · rw [hstorage, List.take_zero, List.append_nil, Nat.add_zero, List.take_append_drop]
  · have haccess : t.access (.store sector data)
        = (t, .returned (.write (.err .invalidArgument))) := by
      rw [access_store hp, write_of_checkRange_err hm.active hroAbs hc]
      simp [← hp]
    refine stepped_access ?_ ?_ haccess
      (hm.goto (q := .writeUnlocking (.write (.err .invalidArgument))) s.lock nofun hstorage
        ⟨sector, data, rfl, hro, rfl⟩)
    · simp [SharedBlock.exec, hlen, hc]
    · simp [SharedBlock.ops, hlen, hc]
  · refine stepped_silent ?_ ?_ (hm.goto (q := .unwinding sector data) s.lock nofun
      ⟨hp, hc, hstorage⟩ ⟨rfl, hro, rfl⟩)
    · simp [SharedBlock.exec, hlen, hc]
    · simp [SharedBlock.ops, hlen, hc]

/-- One more byte of the data. -/
theorem set_overwrite {storage data : List UInt8} {lo i : Nat}
    (hle : lo + data.length ≤ storage.length) (hlt : i < data.length) :
    (storage.take lo ++ data.take i ++ storage.drop (lo + i)).set (lo + i) (data.getD i 0)
      = storage.take lo ++ data.take (i + 1) ++ storage.drop (lo + (i + 1)) := by
  have hlen : (storage.take lo ++ data.take i).length = lo + i := by
    rw [List.length_append, List.length_take, List.length_take]
    omega
  rw [List.set_append_right _ _ (Nat.le_of_eq hlen), hlen, Nat.sub_self,
    List.drop_eq_getElem_cons (by omega), List.set_cons_zero, List.getD_eq_getElem?_getD,
    List.take_add_one, List.getElem?_eq_getElem hlt, ← List.append_assoc, Option.toList_some,
    Option.getD_some, List.append_assoc _ [data[i]], List.singleton_append, Nat.add_assoc]

theorem stepped_storing (hm : Mirrors config s t) {sector : UInt64} {data : List UInt8} {i : Nat}
    (hs : Standing s.device.storage t.disk.storage t.poisoned (.storing sector data i))
    (hd : BlockPerformed config k (.storing sector data i) l) :
    Stepped config k l s t (.storing sector data i) := by
  obtain ⟨hp, hc, hi, hnow⟩ := hs
  obtain ⟨-, hle⟩ := checkRange_eq_ok hc
  by_cases hlt : i < data.length
  · refine stepped_silent (if_pos hlt) rfl ⟨?_, ?_, hd, .inl rfl, nofun⟩
    · refine ⟨hm.config_eq, hm.config_abs, hm.active, hm.ready_eq, hm.queueReady_eq,
        hm.poisoned_eq, hm.reads_eq, hm.writes_eq, ?_⟩
      exact List.length_set.trans hm.length_eq
    · rintro q ⟨⟩
      refine ⟨hp, hc, hlt, ?_⟩
      show s.device.storage.set _ _ = _
      rw [hnow]
      exact set_overwrite hle hlt
  · have hall : i = data.length := by omega
    refine stepped_silent (if_neg hlt) rfl
      (hm.goto (q := .countingWrite sector data) s.lock nofun ⟨hp, hc, ?_⟩ hd)
    rw [hnow, hall, List.take_length]

theorem stepped_countingWrite (hm : Mirrors config s t) {sector : UInt64} {data : List UInt8}
    (hs : Standing s.device.storage t.disk.storage t.poisoned (.countingWrite sector data))
    (hd : BlockPerformed config k (.countingWrite sector data) l) :
    Stepped config k l s t (.countingWrite sector data) := by
  obtain ⟨hp, hc, hnow⟩ := hs
  obtain ⟨rfl, hro, rfl⟩ := hd
  have hroAbs : t.disk.config.readOnly = false := by rw [hm.config_abs, hro]
  obtain ⟨disk, hwrite, hstorage, hconfig, hready, hreads, hwrites⟩ :=
    write_of_checkRange_ok hm.active hroAbs hc
  have haccess : t.access (.store sector data)
      = ({ t with disk := disk }, .returned (.write (.ok data.length))) := by
    rw [access_store hp, hwrite]
    simp [← hp]
  have hsame : s.device.storage = disk.storage := hnow.trans hstorage.symm
  refine stepped_access rfl rfl haccess ⟨?_, ?_, ⟨sector, data, rfl, hro, rfl⟩, .inl rfl, nofun⟩
  · exact ⟨hm.config_eq, hconfig.trans hm.config_abs, hready.trans hm.active, hm.ready_eq,
      hm.queueReady_eq, hm.poisoned_eq, hm.reads_eq.trans hreads.symm,
      (congrArg (· + 1) hm.writes_eq).trans hwrites.symm, congrArg List.length hsame⟩
  · rintro q ⟨⟩
    exact hsame

theorem stepped_unwinding (hm : Mirrors config s t) {sector : UInt64} {data : List UInt8}
    (hs : Standing s.device.storage t.disk.storage t.poisoned (.unwinding sector data))
    (hd : BlockPerformed config k (.unwinding sector data) l) :
    Stepped config k l s t (.unwinding sector data) := by
  obtain ⟨hp, hc, hstorage⟩ := hs
  obtain ⟨rfl, hro, rfl⟩ := hd
  have hroAbs : t.disk.config.readOnly = false := by rw [hm.config_abs, hro]
  have haccess : t.access (.store sector data)
      = ({ t with poisoned := true }, .returned (.write .panic)) := by
    rw [access_store hp, write_of_checkRange_panic hm.active hroAbs hc]
    simp
  refine stepped_access rfl rfl haccess
    ⟨?_, nofun, .inr (.inr ⟨hro, rfl⟩), .inl rfl, fun _ _ => hstorage⟩
  exact ⟨hm.config_eq, hm.config_abs, hm.active, hm.ready_eq, hm.queueReady_eq, rfl, hm.reads_eq,
    hm.writes_eq, hm.length_eq⟩

theorem stepped_writeUnlocking (hm : Mirrors config s t) {reply : BlockReturn}
    (hs : Standing s.device.storage t.disk.storage t.poisoned (.writeUnlocking reply))
    (hd : BlockPerformed config k (.writeUnlocking reply) l) :
    Stepped config k l s t (.writeUnlocking reply) := by
  obtain ⟨sector, data, rfl, hro, rfl⟩ := hd
  exact stepped_silent rfl rfl
    ⟨hm.withLock _, nofun, .inr (.inr ⟨hro, rfl⟩), .inr ⟨rfl, rfl, rfl⟩, fun _ _ => hs⟩

/-- **What one step of a call does**, to the device and to the serial one. -/
theorem stepped (hm : Mirrors config s t) {p : BlockPoint}
    (hs : Standing s.device.storage t.disk.storage t.poisoned p)
    (hread : p.hold = .reading → s.device.storage = t.disk.storage)
    (hfree : s.lock.writer = false → s.device.storage = t.disk.storage)
    (hd : BlockPerformed config k p l) : Stepped config k l s t p := by
  cases p with
  | activatingQueue => exact stepped_activatingQueue hm hd
  | activating => exact stepped_activating hm hd
  | deactivating => exact stepped_deactivating hm hd
  | deactivatingQueue => exact stepped_deactivatingQueue hm hd
  | flushing => exact stepped_flushing hm hd
  | readChecking sector buffer => exact stepped_readChecking hm hd
  | readLocking sector buffer => exact stepped_readLocking hm hd
  | readBounding sector buffer => exact stepped_readBounding hm hs hd
  | copying sector buffer copied => exact stepped_copying hm hs (hread rfl) hd
  | countingRead sector buffer copied => exact stepped_countingRead hm hs hd
  | readUnlocking reply => exact stepped_readUnlocking hm hd
  | writeChecking sector data => exact stepped_writeChecking hm hd
  | writeLocking sector data => exact stepped_writeLocking hm hfree hd
  | writeBounding sector data => exact stepped_writeBounding hm hs hd
  | storing sector data i => exact stepped_storing hm hs hd
  | countingWrite sector data => exact stepped_countingWrite hm hs hd
  | unwinding sector data => exact stepped_unwinding hm hs hd
  | writeUnlocking reply => exact stepped_writeUnlocking hm hs hd

end Steps

/-- The system and the serial device: while no one writes, the storage is the serial one. -/
structure BlockMatches (config : BlockConfig) (s : Clients SharedBlock BlockPoint)
    (t : SerialBlock) : Prop where
  lock : LockInv SharedBlock.lock BlockPoint.hold s
  mirrors : Mirrors config s.shared t
  quiet : s.shared.lock.writer = false → s.shared.device.storage = t.disk.storage
  standing : ∀ (c : Nat) (p : BlockPoint), s.clients[c]? = some (some p) →
    Standing s.shared.device.storage t.disk.storage t.poisoned p

namespace BlockMatches

variable {config : BlockConfig} {k : BlockCall} {s : Clients SharedBlock BlockPoint}
  {t : SerialBlock} {l : List (Access × Answer)} {c : Nat} {p : BlockPoint}

theorem stepped (h : BlockMatches config s t) (hp : blockCode.At s c p)
    (hd : BlockPerformed config k p l) : Stepped config k l s.shared t p := by
  refine Virtio.stepped h.mirrors ?_ (fun hr => ?_) h.quiet hd
  · rcases hp with hp | ⟨-, call, rfl⟩
    · exact h.standing c p hp
    · exact standing_of_nothing (blockCode_guarded.entry call) _ _ _
  · -- a reader keeps writers out
    rcases hp with hp | ⟨-, call, rfl⟩
    · apply h.quiet
      have hpos := h.lock.readers_pos hp hr
      by_contra hw
      have hzero := h.lock.exclusive (Bool.eq_true_of_not_eq_false hw)
      omega
    · cases hr.symm.trans (blockCode_guarded.entry call)

/-- What the other clients know stays right: a step changes the storage only under the write lock,
and then no other client is under the lock. -/
theorem standing_take (h : BlockMatches config s t) (hp : blockCode.At s c p)
    {s' : SharedBlock} {t' : SerialBlock} {next : Progress BlockPoint BlockReturn}
    (ha : Advanced config k s.shared t p s' t' l next) {c' : Nat} {q : BlockPoint} (hc : c' ≠ c)
    (hq : s.clients[c']? = some (some q)) :
    Standing s'.device.storage t'.disk.storage t'.poisoned q := by
  rcases ha.frame with hw | ⟨hnow, habs, hpoisoned⟩
  · apply standing_of_nothing
    rcases hp with hp | ⟨-, call, rfl⟩
    · exact h.lock.alone hp hw hq hc
    · cases hw.symm.trans (blockCode_guarded.entry call)
  · rw [hnow, habs, hpoisoned]
    exact h.standing c' q hq

end BlockMatches

/-- **The steps of the code are those of the accesses.** -/
theorem block_linearizes (d : VirtioBlock) :
    Code.Linearizes blockCode (serialMachine d) SharedBlock.ops (BlockMatches d.config)
      (BlockPerformed d.config) (BlockExplains d.config) := by
  refine ⟨fun k => ?_, fun w s t c p k l h hp hd => ?_, fun w s t c p k l h hp hd => ?_⟩
  · cases k <;> exact ⟨rfl, rfl⟩
  · have ha := h.stepped hp hd d
    refine ⟨blockCode_guarded.take h.lock w hp, ha.mirrors, fun hw => ?_, fun c' q hq => ?_⟩
    · rcases (blockCode_guarded.exec w s.shared p).writer_eq_false hw with hold | ⟨hpw, hnext⟩
      · rcases ha.frame with hpw | ⟨hnow, habs, -⟩
        · -- who writes has the lock
          rcases hp with hp | ⟨-, call, rfl⟩
          · cases hold.symm.trans (h.lock.writer_eq_true hp hpw)
          · cases hpw.symm.trans (blockCode_guarded.entry call)
        · exact hnow.trans ((h.quiet hold).trans habs.symm)
      · exact ha.released hpw hnext
    · rcases blockCode.client_take hq with ⟨-, hnext⟩ | ⟨hc, hq⟩
      · exact ha.standing q hnext
      · exact h.standing_take hp ha hc hq
  · exact (h.stepped hp hd d).continues

theorem blockMatches_init (d : VirtioBlock) (n : Nat) :
    BlockMatches d.config ⟨⟨d, .free, false⟩, List.replicate n none⟩ (serialMachine d).init := by
  refine ⟨blockCode_guarded.run ⟨d, .free, false⟩ n rfl [], ⟨rfl, rfl, rfl, rfl, rfl, rfl, rfl, rfl,
    rfl⟩, fun _ => rfl, fun c p hp => ?_⟩
  rw [List.getElem?_replicate] at hp
  split_ifs at hp
  cases hp

/-- `n` clients on the device `d`, with the record of their calls. -/
def loggedBlockMachine (d : VirtioBlock) (n : Nat) :
    Machine (Logged SharedBlock BlockPoint BlockCall BlockReturn SerialBlock Access Answer)
      (Unit × Move BlockCall) Unit :=
  blockCode.logged (serialMachine d) SharedBlock.ops ⟨d, .free, false⟩ n

theorem blockLog_run (d : VirtioBlock) (n : Nat) (is : List (Unit × Move BlockCall)) :
    Code.LogInv (serialMachine d) (BlockMatches d.config) (BlockPerformed d.config)
      (BlockExplains d.config) ((loggedBlockMachine d n).run is) :=
  (block_linearizes d).run (blockMatches_init d n) is

/-- **The block device is linearizable.** In every interleaving of any number of clients, the log of
the accesses is a history of the serial device. For each client it holds the accesses of its calls
one after the other, and these explain what the calls returned: a request is the check for
readiness, and one access to the storage if the check has passed. The log only grows, so that it
has the order of real time. And whenever no call is in progress the storage, the flags and the
counters are those of the serial device. -/
theorem block_linearizable (d : VirtioBlock) (n : Nat) (is : List (Unit × Move BlockCall)) :
    let M := loggedBlockMachine d n
    let g := M.run is
    g.sys = (sharedBlockMachine d n).run is ∧
    g.events = (serialMachine d).trace g.ops ∧
    (∀ c, g.eventsOf c = (g.sessions c).operations) ∧
    (∀ c k l r, (k, l, r) ∈ (g.sessions c).done → BlockExplains d.config k l r) ∧
    (∀ js, js <+: is → (M.run js).log <+: g.log) ∧
    ((∀ x ∈ g.sys.clients, x = none) →
      Mirrors d.config g.sys.shared ((serialMachine d).run g.ops) ∧
      g.sys.shared.device.storage = ((serialMachine d).run g.ops).disk.storage) := by
  intro M g
  have hg := blockLog_run d n is
  refine ⟨blockCode.logged_sys _ _ _ _ _, hg.legal, hg.client, hg.explained,
    fun js hjs => blockCode.log_prefix _ _ _ _ hjs, fun hidle => ?_⟩
  rw [← hg.abs_eq]
  refine ⟨hg.rel.mirrors, hg.rel.quiet ?_⟩
  -- no client is in a call, so none has the lock
  have hfree : g.sys.shared.lock = .free := hg.rel.lock.eq_free fun p hp => by
    cases hidle _ hp
  exact congrArg RwLock.writer hfree

/-! ## What a read returns -/

/-- The access to the storage, as a call of the device behind the lock, and what it returned. -/
def request : Access × Answer → Option (BlockCall × BlockReturn)
  | (.load sector buffer, .returned r) => some (.read sector buffer, r)
  | (.store sector data, .returned r) => some (.write sector data, r)
  | _ => none

/-- The history of the device behind the lock. -/
def requests (events : List (Access × Answer)) : List (BlockCall × BlockReturn) :=
  events.filterMap request

theorem requests_snoc (events : List (Access × Answer)) (e : Access × Answer) :
    requests (events ++ [e]) = requests events ++ (request e).toList := by
  rw [requests, List.filterMap_append]
  cases h : request e <;> simp [requests, h]

/-- The access lies inside the device, and is no write to a read-only one. -/
def Access.InRange (config : BlockConfig) : Access → Prop
  | .load sector buffer => (BlockCall.read sector buffer).InRange config
  | .store sector data => (BlockCall.write sector data).InRange config ∧ config.readOnly = false
  | _ => True

/-- Calls inside the device have accesses inside the device. -/
theorem ops_inRange {config : BlockConfig} (s : SharedBlock) (p : BlockPoint) (k : BlockCall)
    (l : List (Access × Answer)) (hk : k.InRange config) (hd : BlockPerformed config k p l) :
    ∀ a ∈ s.ops p, a.InRange config := by
  intro a ha
  cases p with
  | activatingQueue | activating | deactivating | deactivatingQueue | flushing
  | readChecking sector buffer | writeChecking sector data =>
      cases List.mem_singleton.mp ha
      trivial
  | readLocking sector buffer | readBounding sector buffer =>
      obtain ⟨rfl, -⟩ := hd
      obtain rfl : a = .load sector buffer := by
        rw [SharedBlock.ops] at ha
        split_ifs at ha <;> simp_all
      exact hk
  | countingRead sector buffer copied =>
      obtain ⟨rfl, -⟩ := hd
      cases List.mem_singleton.mp ha
      exact hk
  | writeLocking sector data | writeBounding sector data =>
      obtain ⟨rfl, hro, -⟩ := hd
      obtain rfl : a = .store sector data := by
        rw [SharedBlock.ops] at ha
        split_ifs at ha <;> simp_all
      exact ⟨hk, hro⟩
  | countingWrite sector data | unwinding sector data =>
      obtain ⟨rfl, hro, -⟩ := hd
      cases List.mem_singleton.mp ha
      exact ⟨hk, hro⟩
  | copying sector buffer copied | storing sector data i | readUnlocking reply
  | writeUnlocking reply => cases ha

/-- Nothing has panicked, and the device behind the lock agrees with its history. -/
structure SerialAgrees (config : BlockConfig) (events : List (Access × Answer))
    (t : SerialBlock) : Prop where
  healthy : t.poisoned = false
  active : t.disk.ready = true
  agrees : Agrees config ((.activate, .done) :: requests events) t.disk

namespace SerialAgrees

variable {config : BlockConfig} {events : List (Access × Answer)} {t : SerialBlock}

/-- A range inside the device is inside its storage. -/
theorem le_length (h : SerialAgrees config events t) {sector : UInt64} {len : Nat}
    (hin : 512 * sector.toNat + len ≤ config.capacity.toNat * 512) :
    sector.toNat * 512 + len ≤ t.disk.storage.length := by
  rw [h.agrees.length_eq]
  omega

/-- **A load returns what was last stored**, byte for byte. -/
theorem access_load (h : SerialAgrees config events t) {sector : UInt64} {buffer : List UInt8}
    (hin : (BlockCall.read sector buffer).InRange config) :
    t.access (.load sector buffer) = ({ t with disk := { t.disk with reads := t.disk.reads + 1 } },
      .returned (.read (.ok buffer.length) ((List.range buffer.length).map fun j =>
        writtenAt (requests events) (512 * sector.toNat + j)))) := by
  have hle := h.le_length hin
  have hbytes := h.agrees.range_eq hle
  rw [Virtio.access_load h.healthy, VirtioBlock.call, VirtioBlock.read_of_le h.active hle, hbytes,
    Nat.mul_comm sector.toNat]
  rfl

/-- A store inside the device succeeds. -/
theorem access_store (h : SerialAgrees config events t) {sector : UInt64} {data : List UInt8}
    (hin : (BlockCall.write sector data).InRange config) (hro : config.readOnly = false) :
    ∃ disk : VirtioBlock, t.disk.call (.write sector data) = (disk, .write (.ok data.length)) ∧
      disk.ready = true ∧ t.access (.store sector data)
        = ({ t with disk := disk }, .returned (.write (.ok data.length))) := by
  have hroDisk : t.disk.config.readOnly = false := by rw [h.agrees.config_eq, hro]
  obtain ⟨disk, hwrite, -, -, hready, -⟩ :=
    VirtioBlock.write_of_le h.active hroDisk (h.le_length hin)
  refine ⟨disk, ?_, hready.trans h.active, ?_⟩
  · rw [VirtioBlock.call, hwrite]
  · rw [Virtio.access_store h.healthy, hwrite]
    simp [← h.healthy]

/-- **One access inside the device.** -/
theorem access (h : SerialAgrees config events t) {a : Access} (hin : a.InRange config) :
    SerialAgrees config (events ++ [(a, (t.access a).2)]) (t.access a).1 := by
  cases a with
  | isReady | setReady ready | setQueueReady ready =>
      refine ⟨h.healthy, h.active, ?_⟩
      rw [requests_snoc]
      exact (List.append_nil (requests events)).symm ▸ h.agrees
  | load sector buffer =>
      have hcall := h.agrees.call (.read sector buffer) hin
      have haccess := Virtio.access_load h.healthy sector buffer
      have hload := h.access_load hin
      refine ⟨?_, ?_, ?_⟩
      · rw [hload]
        exact h.healthy
      · rw [hload]
        exact h.active
      · rw [haccess, requests_snoc]
        exact hcall
  | store sector data =>
      obtain ⟨hin, hro⟩ := hin
      obtain ⟨disk, hwrite, hready, haccess⟩ := h.access_store hin hro
      have hcall := h.agrees.call (.write sector data) hin
      rw [hwrite] at hcall
      rw [haccess]
      refine ⟨h.healthy, hready, ?_⟩
      rw [requests_snoc]
      exact hcall

end SerialAgrees

/-- **The serial device is a flat array of bytes.** -/
theorem serialAgrees_run {config : BlockConfig} {d : VirtioBlock}
    (h : Agrees config [] d) (as : List Access) (has : ∀ a ∈ as, a.InRange config) :
    SerialAgrees config ((serialMachine d).trace as) ((serialMachine d).run as) := by
  refine (serialMachine d).run_history_on (A := Access.InRange config) ?_
    (fun tr t a ha ht => ht.access ha) as has
  exact ⟨rfl, rfl, h.call .activate trivial⟩

/-- A read that starts when another client has written one of two bytes. -/
def raceMoves : List (Unit × Move BlockCall) :=
  [((), .invoke 0 .activate), ((), .advance 0), ((), .invoke 0 (.write 0 [1, 2])),
    ((), .advance 0), ((), .advance 0), ((), .advance 0), ((), .invoke 1 (.read 0 [7, 7])),
    ((), .advance 1)] ++ List.replicate 4 ((), .advance 0) ++ List.replicate 7 ((), .advance 1)

theorem raceMoves_inRange : ∀ i ∈ raceMoves, ∀ c k, i.2 = .invoke c k →
    BlockCall.InRange ⟨1, false⟩ k := by
  intro i hi c k hk
  simp only [raceMoves, List.mem_append, List.mem_cons, List.not_mem_nil, or_false,
    List.mem_replicate] at hi
  rcases hi with ((rfl | rfl | rfl | rfl | rfl | rfl | rfl | rfl) | ⟨-, rfl⟩) | ⟨-, rfl⟩ <;>
    cases hk <;> simp [BlockCall.InRange]

end Pepita.Virtio
