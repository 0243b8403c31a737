import Pepita.Basic.Definitions
import Pepita.Lib.Machine
import Pepita.Lib.Outcome

set_option autoImplicit false

/-! # The virtio block device

`VirtioBlock` of `virtio.rs`: an in-memory disk of 512-byte sectors that is read and written in
ranges of any length from the start of a sector. The byte offset of a request is computed in
64-bit arithmetic before it is compared with the size of the storage.

Two results.

* `block_acts_as_byteArray`: over every run whose requests lie inside the device, the device is
  a flat array of bytes. The state is related to the history of the run, so a read returns what
  the history says was last written.
* `boundsExact_iff`: for requests anywhere in the 64-bit range, the bounds check is right
  exactly when the end of the request does not wrap around to an offset inside the storage.
-/

namespace Pepita.Virtio

/-! ## The model -/

/-- `BlockConfig`: the capacity in sectors and the read-only flag. -/
structure BlockConfig where
  capacity : UInt64
  readOnly : Bool
  deriving DecidableEq, Repr

/-- `VirtioBlock`. The storage is a `Vec`, which holds at most `isize::MAX` bytes. -/
structure VirtioBlock where
  config : BlockConfig
  queueReady : Bool
  storage : List UInt8
  ready : Bool
  reads : UInt64
  writes : UInt64
  storage_lt : storage.length < 2 ^ 63
  deriving DecidableEq

namespace VirtioBlock

/-- `VirtioBlock::new`; `none` is the panic of `vec!` on a size above `isize::MAX`. -/
def new (config : BlockConfig) : Option VirtioBlock :=
  if h : wmul config.capacity.toNat 512 < 2 ^ 63 then
    some {
      config := config
      queueReady := false
      storage := List.replicate (wmul config.capacity.toNat 512) 0
      ready := false
      reads := 0
      writes := 0
      storage_lt := by rw [List.length_replicate]; exact h }
  else none

/-- `is_ready`. -/
def isReady (d : VirtioBlock) : Bool := d.ready

/-- `activate`. -/
def activate (d : VirtioBlock) : VirtioBlock := { d with queueReady := true, ready := true }

/-- `deactivate`. -/
def deactivate (d : VirtioBlock) : VirtioBlock := { d with ready := false, queueReady := false }

/-- `read`: the device, the result and the caller's buffer after the call. -/
def read (d : VirtioBlock) (sector : UInt64) (buffer : List UInt8) :
    VirtioBlock × Outcome KernelError Nat × List UInt8 :=
  if !d.isReady then (d, .err .deviceNotReady, buffer)
  else
    let offset := wmul sector.toNat 512
    let len := buffer.length
    if wadd offset len > d.storage.length then (d, .err .invalidArgument, buffer)
    else
      match (slice d.storage offset (wadd offset len)).bind (copyInto buffer 0 len) with
      | none => (d, .panic, buffer)
      | some buffer' => ({ d with reads := d.reads + 1 }, .ok len, buffer')

/-- `write`: the device and the result. -/
def write (d : VirtioBlock) (sector : UInt64) (data : List UInt8) :
    VirtioBlock × Outcome KernelError Nat :=
  if !d.isReady then (d, .err .deviceNotReady)
  else if d.config.readOnly then (d, .err .notSupported)
  else
    let offset := wmul sector.toNat 512
    let len := data.length
    if wadd offset len > d.storage.length then (d, .err .invalidArgument)
    else
      match h : copyInto d.storage offset (wadd offset len) data with
      | none => (d, .panic)
      | some storage =>
          ({ d with
              storage := storage
              writes := d.writes + 1
              storage_lt := by rw [length_of_copyInto h]; exact d.storage_lt }, .ok len)

/-- `flush`. -/
def flush (d : VirtioBlock) : Outcome KernelError Unit :=
  if !d.isReady then .err .deviceNotReady else .ok ()

/-- `read_count`. -/
def readCount (d : VirtioBlock) : UInt64 := d.reads

/-- `write_count`. -/
def writeCount (d : VirtioBlock) : UInt64 := d.writes

end VirtioBlock

/-- The calls a client makes on an existing device. -/
inductive BlockCall where
  | activate
  | deactivate
  | read (sector : UInt64) (buffer : List UInt8)
  | write (sector : UInt64) (data : List UInt8)
  | flush
  deriving DecidableEq

/-- What a call gives back. -/
inductive BlockReturn where
  | done
  | read (result : Outcome KernelError Nat) (buffer : List UInt8)
  | write (result : Outcome KernelError Nat)
  | flush (result : Outcome KernelError Unit)
  deriving DecidableEq

/-- One call on the device. -/
def VirtioBlock.call (d : VirtioBlock) : BlockCall → VirtioBlock × BlockReturn
  | .activate => (d.activate, .done)
  | .deactivate => (d.deactivate, .done)
  | .read sector buffer => ((d.read sector buffer).1,
      .read (d.read sector buffer).2.1 (d.read sector buffer).2.2)
  | .write sector data => ((d.write sector data).1, .write (d.write sector data).2)
  | .flush => (d, .flush d.flush)

/-- A device in use, started as `d`. -/
def blockMachine (d : VirtioBlock) : Machine VirtioBlock BlockCall BlockReturn where
  init := d
  step := VirtioBlock.call

/-! ## Single calls -/

namespace VirtioBlock

variable {d : VirtioBlock} {sector : UInt64}

theorem read_of_not_ready (h : d.ready = false) (buffer : List UInt8) :
    d.read sector buffer = (d, .err .deviceNotReady, buffer) := by
  simp [read, isReady, h]

theorem write_of_not_ready (h : d.ready = false) (data : List UInt8) :
    d.write sector data = (d, .err .deviceNotReady) := by
  simp [write, isReady, h]

theorem write_of_readOnly (h : d.ready = true) (hro : d.config.readOnly = true)
    (data : List UInt8) : d.write sector data = (d, .err .notSupported) := by
  simp [write, isReady, h, hro]

/-- The end of a request, as the code computes it. -/
theorem wadd_wmul (a b c : Nat) : wadd (wmul a b) c = (a * b + c) % 2 ^ 64 := by
  unfold wadd wmul
  omega

/-- A read whose computed end is beyond the storage is refused. -/
theorem read_of_end_gt (h : d.ready = true) {buffer : List UInt8}
    (hend : d.storage.length < (sector.toNat * 512 + buffer.length) % 2 ^ 64) :
    d.read sector buffer = (d, .err .invalidArgument, buffer) := by
  rw [← wadd_wmul] at hend
  simp [read, isReady, h, hend]

theorem write_of_end_gt (h : d.ready = true) (hro : d.config.readOnly = false)
    {data : List UInt8}
    (hend : d.storage.length < (sector.toNat * 512 + data.length) % 2 ^ 64) :
    d.write sector data = (d, .err .invalidArgument) := by
  rw [← wadd_wmul] at hend
  simp [write, isReady, h, hro, hend]

/-- A read whose computed end is inside the storage is not refused, whatever its sector. -/
theorem read_ne_err_of_end_le (h : d.ready = true) {buffer : List UInt8}
    (hend : (sector.toNat * 512 + buffer.length) % 2 ^ 64 ≤ d.storage.length) :
    (d.read sector buffer).2.1 ≠ .err .invalidArgument := by
  rw [← wadd_wmul] at hend
  simp only [read, isReady, h, Bool.not_true, Bool.false_eq_true, if_false,
    if_neg (Nat.not_lt.mpr hend)]
  split <;> simp

/-- A request inside the storage has the offset it asks for. -/
theorem offset_eq {len : Nat} (hle : sector.toNat * 512 + len ≤ d.storage.length) :
    wmul sector.toNat 512 = sector.toNat * 512 ∧
    wadd (sector.toNat * 512) len = sector.toNat * 512 + len := by
  have := d.storage_lt
  unfold wmul wadd
  omega

/-- **A read inside the storage** returns the bytes of its range. -/
theorem read_of_le (h : d.ready = true) {buffer : List UInt8}
    (hle : sector.toNat * 512 + buffer.length ≤ d.storage.length) :
    d.read sector buffer = ({ d with reads := d.reads + 1 }, .ok buffer.length,
      (d.storage.drop (sector.toNat * 512)).take buffer.length) := by
  obtain ⟨hoff, hend⟩ := offset_eq hle
  have hlen : ((d.storage.drop (sector.toNat * 512)).take buffer.length).length
      = buffer.length := by
    rw [List.length_take, List.length_drop]; omega
  have hcopy := copyInto_zero (b := buffer) (Nat.le_of_eq hlen)
  rw [hlen, List.drop_length, List.append_nil] at hcopy
  unfold read
  simp only [isReady, h, Bool.not_true, Bool.false_eq_true, if_false, hoff, hend,
    if_neg (Nat.not_lt.mpr hle), slice_of_le (Nat.le_add_right _ _) hle, Nat.add_sub_cancel_left,
    Option.bind_some, hcopy]

/-- **A write inside the storage** replaces the bytes of its range. -/
theorem write_of_le (h : d.ready = true) (hro : d.config.readOnly = false) {data : List UInt8}
    (hle : sector.toNat * 512 + data.length ≤ d.storage.length) :
    ∃ d' : VirtioBlock, d.write sector data = (d', .ok data.length) ∧
      d'.storage = d.storage.take (sector.toNat * 512) ++ data
        ++ d.storage.drop (sector.toNat * 512 + data.length) ∧
      d'.config = d.config ∧ d'.ready = d.ready ∧ d'.reads = d.reads ∧
      d'.writes = d.writes + 1 := by
  obtain ⟨hoff, hend⟩ := offset_eq hle
  have hcopy : copyInto d.storage (sector.toNat * 512) (sector.toNat * 512 + data.length) data
      = _ := copyInto_of_le (Nat.le_add_right _ _) hle (by omega)
  unfold write
  simp only [isReady, h, hro, Bool.not_true, Bool.false_eq_true, if_false]
  rw [if_neg (by rw [hoff, hend]; exact Nat.not_lt.mpr hle)]
  split
  · next hn => rw [hoff, hend, hcopy] at hn; cases hn
  · next s hs =>
      rw [hoff, hend, hcopy] at hs
      exact ⟨_, rfl, (Option.some_inj.mp hs).symm, rfl, rfl, rfl, rfl⟩

theorem flush_of_ready (h : d.ready = true) : d.flush = .ok () := by simp [flush, isReady, h]

theorem flush_of_not_ready (h : d.ready = false) : d.flush = .err .deviceNotReady := by
  simp [flush, isReady, h]

end VirtioBlock

/-! ## The device as an array of bytes

`writtenAt`, `activeAfter`, `readsIn` and `writesIn` say what a history amounts to, in terms of the
calls and what they returned. -/

/-- The effect of one answered call on the byte at `pos`. -/
def overlay (pos : Nat) (byte : UInt8) : BlockCall × BlockReturn → UInt8
  | (.write sector data, .write (.ok _)) =>
      if 512 * sector.toNat ≤ pos then data.getD (pos - 512 * sector.toNat) byte else byte
  | _ => byte

/-- The value most recently written to `pos` by a successful write, or 0. -/
def writtenAt (tr : List (BlockCall × BlockReturn)) (pos : Nat) : UInt8 :=
  tr.foldl (overlay pos) 0

/-- The effect of one answered call on whether the device is active. -/
def switch (active : Bool) : BlockCall × BlockReturn → Bool
  | (.activate, _) => true
  | (.deactivate, _) => false
  | _ => active

/-- Whether the last `activate` or `deactivate` was an `activate`. -/
def activeAfter (tr : List (BlockCall × BlockReturn)) : Bool := tr.foldl switch false

/-- The number of successful reads. -/
def readsIn (tr : List (BlockCall × BlockReturn)) : Nat :=
  tr.countP fun e => match e with
    | (.read _ _, .read (.ok _) _) => true
    | _ => false

/-- The number of successful writes. -/
def writesIn (tr : List (BlockCall × BlockReturn)) : Nat :=
  tr.countP fun e => match e with
    | (.write _ _, .write (.ok _)) => true
    | _ => false

/-- The range of a request lies inside a device of this configuration. -/
def BlockCall.InRange (config : BlockConfig) : BlockCall → Prop
  | .read sector buffer => 512 * sector.toNat + buffer.length ≤ config.capacity.toNat * 512
  | .write sector data => 512 * sector.toNat + data.length ≤ config.capacity.toNat * 512
  | _ => True

/-- The state of a device agrees with the history of the run that led to it. -/
structure Agrees (config : BlockConfig) (tr : List (BlockCall × BlockReturn))
    (d : VirtioBlock) : Prop where
  config_eq : d.config = config
  length_eq : d.storage.length = config.capacity.toNat * 512
  ready_eq : d.ready = activeAfter tr
  byte_eq : ∀ pos < d.storage.length, d.storage[pos]? = some (writtenAt tr pos)
  reads_eq : d.reads = UInt64.ofNat (readsIn tr)
  writes_eq : d.writes = UInt64.ofNat (writesIn tr)

section Agreement

variable {config : BlockConfig} {tr : List (BlockCall × BlockReturn)} {d : VirtioBlock}

/-- The agreement after one more answered call `e`, from what `e` does to each part. -/
theorem Agrees.snoc {e : BlockCall × BlockReturn} {d' : VirtioBlock} (h : Agrees config tr d)
    (hcfg : d'.config = d.config) (hlen : d'.storage.length = d.storage.length)
    (hready : d'.ready = switch d.ready e)
    (hbyte : ∀ pos < d.storage.length,
      d'.storage[pos]? = some (overlay pos (writtenAt tr pos) e))
    (hreads : d'.reads = d.reads + UInt64.ofNat (readsIn [e]))
    (hwrites : d'.writes = d.writes + UInt64.ofNat (writesIn [e])) :
    Agrees config (tr ++ [e]) d' where
  config_eq := hcfg.trans h.config_eq
  length_eq := hlen.trans h.length_eq
  ready_eq := by rw [hready, h.ready_eq]; simp [activeAfter, List.foldl_append]
  byte_eq := fun pos hpos => by
    rw [hbyte pos (hlen ▸ hpos)]
    simp [writtenAt, List.foldl_append]
  reads_eq := by rw [hreads, h.reads_eq, ← UInt64.ofNat_add]; simp [readsIn, List.countP_append]
  writes_eq := by
    rw [hwrites, h.writes_eq, ← UInt64.ofNat_add]; simp [writesIn, List.countP_append]

/-- A counter that a call does not touch. -/
theorem uncounted (n : UInt64) : n = n + UInt64.ofNat 0 := (UInt64.add_zero n).symm

theorem Agrees.read (h : Agrees config tr d) (sector : UInt64) (buffer : List UInt8)
    (hin : (BlockCall.read sector buffer).InRange config) :
    Agrees config (tr ++ [(.read sector buffer, (d.call (.read sector buffer)).2)])
      (d.call (.read sector buffer)).1 := by
  have hle : sector.toNat * 512 + buffer.length ≤ d.storage.length := by
    unfold BlockCall.InRange at hin
    rw [h.length_eq]; omega
  cases hr : d.ready with
  | false =>
      simp only [VirtioBlock.call, VirtioBlock.read_of_not_ready hr]
      exact h.snoc rfl rfl rfl h.byte_eq (uncounted _) (uncounted _)
  | true =>
      simp only [VirtioBlock.call, VirtioBlock.read_of_le hr hle]
      exact h.snoc rfl rfl rfl h.byte_eq rfl (uncounted _)

/-- After a write inside the device, byte `pos` is what the history says. -/
theorem Agrees.byte_write (h : Agrees config tr d) {sector : UInt64} {data : List UInt8}
    (hle : sector.toNat * 512 + data.length ≤ d.storage.length) (n : Nat) {pos : Nat}
    (hpos : pos < d.storage.length) :
    (d.storage.take (sector.toNat * 512) ++ data
        ++ d.storage.drop (sector.toNat * 512 + data.length))[pos]?
      = some (overlay pos (writtenAt tr pos) (.write sector data, .write (.ok n))) := by
  rw [getElem?_overwrite hle, overlay, h.byte_eq pos hpos, Nat.mul_comm 512,
    List.getD_eq_getElem?_getD]
  by_cases hlo : sector.toNat * 512 ≤ pos
  · rw [if_pos hlo]
    by_cases hhi : pos < sector.toNat * 512 + data.length
    · have hidx : pos - sector.toNat * 512 < data.length := by omega
      rw [if_pos ⟨hlo, hhi⟩, List.getElem?_eq_getElem hidx]
      rfl
    · rw [if_neg (by omega), List.getElem?_eq_none (by omega)]
      rfl
  · rw [if_neg hlo, if_neg (by omega)]

theorem Agrees.write (h : Agrees config tr d) (sector : UInt64) (data : List UInt8)
    (hin : (BlockCall.write sector data).InRange config) :
    Agrees config (tr ++ [(.write sector data, (d.call (.write sector data)).2)])
      (d.call (.write sector data)).1 := by
  have hle : sector.toNat * 512 + data.length ≤ d.storage.length := by
    unfold BlockCall.InRange at hin
    rw [h.length_eq]; omega
  cases hr : d.ready with
  | false =>
      simp only [VirtioBlock.call, VirtioBlock.write_of_not_ready hr]
      exact h.snoc rfl rfl rfl h.byte_eq (uncounted _) (uncounted _)
  | true =>
      cases hro : d.config.readOnly with
      | true =>
          simp only [VirtioBlock.call, VirtioBlock.write_of_readOnly hr hro]
          exact h.snoc rfl rfl rfl h.byte_eq (uncounted _) (uncounted _)
      | false =>
          obtain ⟨d', hw, hst, hcfg, hready, hreads, hwrites⟩ :=
            VirtioBlock.write_of_le hr hro hle
          simp only [VirtioBlock.call, hw]
          refine h.snoc hcfg ?_ hready (fun pos hpos => ?_) (hreads.trans (uncounted _)) hwrites
          · rw [hst]
            simp only [List.length_append, List.length_take, List.length_drop]
            omega
          · rw [hst]
            exact h.byte_write hle _ hpos

/-- **One call keeps the agreement**, if its range is inside the device. -/
theorem Agrees.call (h : Agrees config tr d) (c : BlockCall) (hin : c.InRange config) :
    Agrees config (tr ++ [(c, (d.call c).2)]) (d.call c).1 := by
  cases c with
  | activate => exact h.snoc rfl rfl rfl h.byte_eq (uncounted _) (uncounted _)
  | deactivate => exact h.snoc rfl rfl rfl h.byte_eq (uncounted _) (uncounted _)
  | read sector buffer => exact h.read sector buffer hin
  | write sector data => exact h.write sector data hin
  | flush => exact h.snoc rfl rfl rfl h.byte_eq (uncounted _) (uncounted _)

end Agreement

theorem VirtioBlock.new_agrees {config : BlockConfig} (h : config.capacity.toNat * 512 < 2 ^ 63) :
    ∃ d, VirtioBlock.new config = some d ∧ Agrees config [] d := by
  have hsize : wmul config.capacity.toNat 512 = config.capacity.toNat * 512 := by
    unfold wmul; omega
  refine ⟨_, dif_pos (by rw [hsize]; exact h), rfl, ?_, rfl, fun pos hpos => ?_, rfl, rfl⟩
  · simp only [List.length_replicate, hsize]
  · rw [List.length_replicate] at hpos
    rw [List.getElem?_replicate, if_pos hpos]
    rfl

/-- **What a flat array of bytes owes its client**, in state `d` with the history `tr` behind it:
a read inside the device on an active device returns, byte for byte, what was last written; calls
on an inactive device and writes on a read-only one fail and change nothing; and the counters
count the successful calls, in 64 bits. -/
structure ActsAsByteArray (tr : List (BlockCall × BlockReturn)) (d : VirtioBlock) : Prop where
  ready_eq : d.isReady = activeAfter tr
  readCount_eq : d.readCount.toNat = readsIn tr % 2 ^ 64
  writeCount_eq : d.writeCount.toNat = writesIn tr % 2 ^ 64
  read_active : ∀ sector buffer, d.isReady = true →
    (BlockCall.read sector buffer).InRange d.config →
    ∃ d', d.read sector buffer = (d', .ok buffer.length,
      (List.range buffer.length).map fun j => writtenAt tr (512 * sector.toNat + j))
  write_active : ∀ sector data, d.isReady = true → d.config.readOnly = false →
    (BlockCall.write sector data).InRange d.config →
    ∃ d', d.write sector data = (d', .ok data.length)
  flush_active : d.isReady = true → d.flush = .ok ()
  inactive : d.isReady = false → ∀ sector buffer,
    d.read sector buffer = (d, .err .deviceNotReady, buffer) ∧
    d.write sector buffer = (d, .err .deviceNotReady) ∧ d.flush = .err .deviceNotReady
  write_readOnly : d.isReady = true → d.config.readOnly = true → ∀ sector data,
    d.write sector data = (d, .err .notSupported)

/-- The bytes of a range, as the history has them. -/
theorem Agrees.range_eq {config : BlockConfig} {tr : List (BlockCall × BlockReturn)}
    {d : VirtioBlock} (h : Agrees config tr d) {lo len : Nat}
    (hle : lo + len ≤ d.storage.length) :
    (d.storage.drop lo).take len = (List.range len).map fun j => writtenAt tr (lo + j) := by
  apply List.ext_getElem?
  intro j
  by_cases hj : j < len
  · rw [List.getElem?_take_of_lt hj, List.getElem?_drop, h.byte_eq _ (by omega),
      List.getElem?_map, List.getElem?_range hj]
    rfl
  · rw [List.getElem?_eq_none (by rw [List.length_take]; omega),
      List.getElem?_eq_none (by simp; omega)]

theorem Agrees.actsAsByteArray {config : BlockConfig} {tr : List (BlockCall × BlockReturn)}
    {d : VirtioBlock} (h : Agrees config tr d) : ActsAsByteArray tr d where
  ready_eq := h.ready_eq
  readCount_eq := by
    show d.reads.toNat = _
    rw [h.reads_eq, UInt64.toNat_ofNat']
  writeCount_eq := by
    show d.writes.toNat = _
    rw [h.writes_eq, UInt64.toNat_ofNat']
  read_active := fun sector buffer hr hin => by
    have hle : sector.toNat * 512 + buffer.length ≤ d.storage.length := by
      unfold BlockCall.InRange at hin
      rw [h.length_eq, ← h.config_eq]; omega
    have hread := VirtioBlock.read_of_le hr hle
    rw [h.range_eq hle, ← Nat.mul_comm 512] at hread
    exact ⟨_, hread⟩
  write_active := fun sector data hr hro hin => by
    have hle : sector.toNat * 512 + data.length ≤ d.storage.length := by
      unfold BlockCall.InRange at hin
      rw [h.length_eq, ← h.config_eq]; omega
    obtain ⟨d', hw, -⟩ := VirtioBlock.write_of_le hr hro hle
    exact ⟨d', hw⟩
  flush_active := VirtioBlock.flush_of_ready
  inactive := fun hr _ buffer => ⟨VirtioBlock.read_of_not_ready hr buffer,
    VirtioBlock.write_of_not_ready hr buffer, VirtioBlock.flush_of_not_ready hr⟩
  write_readOnly := fun hr hro _ data => VirtioBlock.write_of_readOnly hr hro data

/-- Every run of calls inside a new device keeps the agreement. -/
theorem run_agrees {config : BlockConfig} {d₀ : VirtioBlock} (h0 : Agrees config [] d₀)
    (calls : List BlockCall) (hin : ∀ c ∈ calls, c.InRange config) :
    Agrees config ((blockMachine d₀).trace calls) ((blockMachine d₀).run calls) :=
  (blockMachine d₀).run_history_on h0 (fun _ _ c hc ih => ih.call c hc) calls hin

/-- **The block device is a flat array of bytes**, over every run of calls whose ranges lie
inside it. -/
theorem block_acts_as_byteArray (config : BlockConfig)
    (h : config.capacity.toNat * 512 < 2 ^ 63) :
    ∃ d₀, VirtioBlock.new config = some d₀ ∧
      ∀ calls : List BlockCall, (∀ c ∈ calls, c.InRange config) →
        ((blockMachine d₀).run calls).config = config ∧
        ActsAsByteArray ((blockMachine d₀).trace calls) ((blockMachine d₀).run calls) := by
  obtain ⟨d₀, hnew, h0⟩ := VirtioBlock.new_agrees h
  refine ⟨d₀, hnew, fun calls hin => ?_⟩
  have hagree := run_agrees h0 calls hin
  exact ⟨hagree.config_eq, hagree.actsAsByteArray⟩

theorem block_acts_as_byteArray_overlapping :
    ∃ d₀, VirtioBlock.new ⟨2, false⟩ = some d₀ ∧
      ActsAsByteArray
        ((blockMachine d₀).trace [.activate, .write 0 [1, 2, 3], .write 0 [9], .read 0 [0, 0, 0]])
        ((blockMachine d₀).run [.activate, .write 0 [1, 2, 3], .write 0 [9], .read 0 [0, 0, 0]]) := by
  obtain ⟨d₀, hnew, h⟩ := block_acts_as_byteArray ⟨2, false⟩ (by decide)
  refine ⟨d₀, hnew, (h _ fun c hc => ?_).2⟩
  simp only [List.mem_cons, List.not_mem_nil, or_false] at hc
  rcases hc with rfl | rfl | rfl | rfl <;> simp [BlockCall.InRange]

/-- Reads inside an active device are all successful. -/
theorem readsIn_reads {d₀ : VirtioBlock} {sector : UInt64} {buffer : List UInt8} (n : Nat) :
    ∀ d : VirtioBlock, d.ready = true →
      sector.toNat * 512 + buffer.length ≤ d.storage.length →
      readsIn ((blockMachine d₀).traceFrom d (List.replicate n (.read sector buffer))) = n := by
  induction n with
  | zero =>
      intro d _ _
      rfl
  | succ n ih =>
      intro d hready hle
      have hcall : (blockMachine d₀).step d (.read sector buffer)
          = ({ d with reads := d.reads + 1 }, .read (.ok buffer.length)
              ((d.storage.drop (sector.toNat * 512)).take buffer.length)) := by
        show d.call (.read sector buffer) = _
        rw [VirtioBlock.call, VirtioBlock.read_of_le hready hle]
      rw [List.replicate_succ, Machine.traceFrom, hcall, readsIn, List.countP_cons_of_pos rfl]
      exact congrArg (· + 1) (ih { d with reads := d.reads + 1 } hready hle)

/-- A run of `n` successful reads. -/
theorem exists_run_reads (n : Nat) :
    ∃ d₀, VirtioBlock.new ⟨1, false⟩ = some d₀ ∧
      let calls := .activate :: List.replicate n (.read 0 [0])
      (∀ c ∈ calls, c.InRange ⟨1, false⟩) ∧
      readsIn ((blockMachine d₀).trace calls) = n ∧
      ((blockMachine d₀).run calls).readCount.toNat = n % 2 ^ 64 := by
  have hsize : (⟨1, false⟩ : BlockConfig).capacity.toNat * 512 < 2 ^ 63 := by decide
  obtain ⟨d₀, hnew, h0⟩ := VirtioBlock.new_agrees hsize
  refine ⟨d₀, hnew, ?_⟩
  intro calls
  have hin : ∀ c ∈ calls, c.InRange ⟨1, false⟩ := by
    intro c hc
    rcases List.mem_cons.mp hc with rfl | hc
    · trivial
    · rw [List.eq_of_mem_replicate hc]
      show 512 * 0 + 1 ≤ 1 * 512
      omega
  have hreads : readsIn ((blockMachine d₀).trace calls) = n := by
    have hle : (0 : UInt64).toNat * 512 + [(0 : UInt8)].length ≤ d₀.activate.storage.length :=
      h0.length_eq.symm ▸ by decide
    exact readsIn_reads n d₀.activate rfl hle
  refine ⟨hin, hreads, ?_⟩
  show ((blockMachine d₀).run calls).reads.toNat = _
  rw [(run_agrees h0 calls hin).reads_eq, hreads, UInt64.toNat_ofNat']

/-- After 2^64 successful reads the device has counted none. -/
theorem read_count_wraps :
    ∃ d₀, VirtioBlock.new ⟨1, false⟩ = some d₀ ∧
      let calls := .activate :: List.replicate (2 ^ 64) (.read 0 [0])
      (∀ c ∈ calls, c.InRange ⟨1, false⟩) ∧
      readsIn ((blockMachine d₀).trace calls) = 2 ^ 64 ∧
      ((blockMachine d₀).run calls).readCount.toNat = 0 := by
  obtain ⟨d₀, hnew, hin, hreads, hcount⟩ := exists_run_reads (2 ^ 64)
  rw [Nat.mod_self] at hcount
  exact ⟨d₀, hnew, hin, hreads, hcount⟩

/-! ## The bounds check -/

/-- The check is exact for a request of `buffer` at `sector`: a request that ends beyond the
storage (over the integers) is refused and changes nothing, no request panics, a read returns
the bytes at the positions it asks for, and a write leaves every byte outside its range. -/
structure BoundsExact (d : VirtioBlock) (sector : UInt64) (buffer : List UInt8) : Prop where
  refused : d.storage.length < 512 * sector.toNat + buffer.length →
    d.read sector buffer = (d, .err .invalidArgument, buffer) ∧
    d.write sector buffer = (d, .err .invalidArgument)
  read_ne_panic : (d.read sector buffer).2.1 ≠ .panic
  write_ne_panic : (d.write sector buffer).2 ≠ .panic
  read_bytes : ∀ d' n buffer', d.read sector buffer = (d', .ok n, buffer') →
    ∀ j < buffer.length, buffer'[j]? = d.storage[512 * sector.toNat + j]?
  write_frame : ∀ i, ¬ (512 * sector.toNat ≤ i ∧ i < 512 * sector.toNat + buffer.length) →
    (d.write sector buffer).1.storage[i]? = d.storage[i]?

/-- The end of the request lies at most the storage size above a positive multiple of `2 ^ 64`,
so that in 64-bit arithmetic it wraps around to an offset inside the storage. -/
def WrapsInto (d : VirtioBlock) (sector : UInt64) (len : Nat) : Prop :=
  ∃ k ≥ 1, k * 2 ^ 64 ≤ 512 * sector.toNat + len ∧
    512 * sector.toNat + len ≤ k * 2 ^ 64 + d.storage.length

theorem boundsExact_of_le {d : VirtioBlock} (h : d.ready = true)
    (hro : d.config.readOnly = false) {sector : UInt64} {buffer : List UInt8}
    (hle : sector.toNat * 512 + buffer.length ≤ d.storage.length) :
    BoundsExact d sector buffer := by
  have hread := VirtioBlock.read_of_le h hle
  obtain ⟨d', hwrite, hst, -⟩ := VirtioBlock.write_of_le h hro hle
  refine ⟨fun hgt => by omega, by simp [hread], by simp [hwrite], ?_, ?_⟩
  · intro d'' n buffer' heq j hj
    rw [hread] at heq
    obtain ⟨-, -, rfl⟩ : _ ∧ _ ∧ _ = buffer' := by simpa using heq
    rw [List.getElem?_take_of_lt hj, List.getElem?_drop, Nat.mul_comm 512]
  · intro i hi
    rw [hwrite, hst, getElem?_overwrite hle, if_neg (by omega)]

theorem boundsExact_of_end_gt {d : VirtioBlock} (h : d.ready = true)
    (hro : d.config.readOnly = false) {sector : UInt64} {buffer : List UInt8}
    (hend : d.storage.length < (sector.toNat * 512 + buffer.length) % 2 ^ 64) :
    BoundsExact d sector buffer := by
  have hread := VirtioBlock.read_of_end_gt h hend
  have hwrite := VirtioBlock.write_of_end_gt h hro hend
  refine ⟨fun _ => ⟨hread, hwrite⟩, by simp [hread], by simp [hwrite], ?_, fun i _ => by rw [hwrite]⟩
  intro d' n buffer' heq
  rw [hread] at heq
  simp at heq

/-- **When the bounds check is exact**: exactly when the request does not wrap around into the
storage. -/
theorem boundsExact_iff (d : VirtioBlock) (h : d.ready = true) (hro : d.config.readOnly = false)
    (sector : UInt64) (buffer : List UInt8) :
    BoundsExact d sector buffer ↔ ¬ WrapsInto d sector buffer.length := by
  have hlt := d.storage_lt
  constructor
  · rintro hex ⟨k, hk, hlo, hhi⟩
    -- the wrapped end is inside the storage, so the request is not refused
    have hmod : (sector.toNat * 512 + buffer.length) % 2 ^ 64
        = 512 * sector.toNat + buffer.length - k * 2 ^ 64 := by
      rw [show sector.toNat * 512 + buffer.length
          = (512 * sector.toNat + buffer.length - k * 2 ^ 64) + k * 2 ^ 64 by omega,
        Nat.add_mul_mod_self_right, Nat.mod_eq_of_lt (by omega)]
    have hgt : d.storage.length < 512 * sector.toNat + buffer.length := by
      have : 1 * 2 ^ 64 ≤ k * 2 ^ 64 := Nat.mul_le_mul_right _ hk
      omega
    refine VirtioBlock.read_ne_err_of_end_le h (by rw [hmod]; omega) ?_
    rw [(hex.refused hgt).1]
  · intro hno
    -- a request that ends inside the storage is served, any other must be refused
    by_cases hle : sector.toNat * 512 + buffer.length ≤ d.storage.length
    · exact boundsExact_of_le h hro hle
    apply boundsExact_of_end_gt h hro
    by_contra hend
    set total := sector.toNat * 512 + buffer.length with htotal
    have hdiv := Nat.div_add_mod total (2 ^ 64)
    -- were it not, the end would have wrapped, this many times
    refine hno ⟨total / 2 ^ 64, ?_, ?_, ?_⟩
    · by_contra hk
      have : total / 2 ^ 64 = 0 := by omega
      rw [this] at hdiv
      omega
    · rw [Nat.mul_comm 512, ← htotal, Nat.mul_comm]; omega
    · rw [Nat.mul_comm 512, ← htotal, Nat.mul_comm]; omega

/-- One sector of storage, active and writable. -/
def oneSector : VirtioBlock where
  config := ⟨1, false⟩
  queueReady := true
  storage := List.replicate 512 0
  ready := true
  reads := 0
  writes := 0
  storage_lt := by rw [List.length_replicate]; decide

theorem boundsExact_oneSector :
    ¬ WrapsInto oneSector 7 512 ∧ BoundsExact oneSector 7 (List.replicate 512 0) := by
  have hno : ¬ WrapsInto oneSector 7 512 := by
    rintro ⟨k, hk, hlo, -⟩
    have h7 : (7 : UInt64).toNat = 7 := rfl
    rw [h7] at hlo
    omega
  exact ⟨hno, (boundsExact_iff oneSector rfl rfl 7 (List.replicate 512 0)).mpr
    (by rw [List.length_replicate]; exact hno)⟩

/-- Sector `2 ^ 55` is read as sector 0, and a 1024-byte read one sector before it panics. -/
theorem oneSector_wraps :
    (oneSector.read (.ofNat (2 ^ 55)) [7]).2 = (.ok 1, [0]) ∧
    (oneSector.read (.ofNat (2 ^ 55 - 1)) (List.replicate 1024 0)).2.1 = .panic ∧
    ¬ BoundsExact oneSector (.ofNat (2 ^ 55)) [7] := by
  have h : (oneSector.read (.ofNat (2 ^ 55)) [7]).2 = (.ok 1, [0]) := by decide +kernel
  refine ⟨h, by decide +kernel, fun hex => ?_⟩
  have hrefused := (hex.refused (by decide +kernel)).1
  rw [hrefused] at h
  simp at h

end Pepita.Virtio
