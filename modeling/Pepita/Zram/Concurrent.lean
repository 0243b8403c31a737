import Mathlib.Data.UInt
import Pepita.Lib.Linearize
import Pepita.Zram.Pages

set_option autoImplicit false

/-! # The zram device under interleaving

Any number of clients share one device. The page table has a lock of its own, taken for one lookup,
insertion or removal at a time; the mutex of the compression stream is held from the compression of
a page until its `write_page` returns; and each counter is incremented by itself, after the table
has changed. `reset` removes the pages one by one.

Every interleaving is one of calls that take effect at once, each at its access to the table, where
a `reset` is the series of its removals (`device_linearizable`). The counters lag behind, but no
increment is lost: when no call is in progress the device is the one of the sequential model. The
stream is held by one client at a time, and its holder is never blocked (`device_never_stuck`).
-/

namespace Pepita.Zram

/-! ## Counters -/

/-- The counters of `AtomicStats` that the device increments. -/
inductive AtomicCounter where
  | origDataSize
  | comprDataSize
  | memUsedTotal
  | pagesStored
  | zeroPages
  | samePages
  | hugePages
  | numReads
  | numWrites
  deriving DecidableEq, Repr

/-- A `fetch_add`: the counter and the amount. -/
abbrev Increment := AtomicCounter × UInt64

namespace AtomicStats

/-- The load of a counter. -/
def get (st : AtomicStats) : AtomicCounter → UInt64
  | .origDataSize => st.origDataSize
  | .comprDataSize => st.comprDataSize
  | .memUsedTotal => st.memUsedTotal
  | .pagesStored => st.pagesStored
  | .zeroPages => st.zeroPages
  | .samePages => st.samePages
  | .hugePages => st.hugePages
  | .numReads => st.numReads
  | .numWrites => st.numWrites

/-- `fetch_add` on a counter. -/
def fetchAdd (st : AtomicStats) (inc : Increment) : AtomicStats :=
  match inc.1 with
  | .origDataSize => { st with origDataSize := st.origDataSize + inc.2 }
  | .comprDataSize => { st with comprDataSize := st.comprDataSize + inc.2 }
  | .memUsedTotal => { st with memUsedTotal := st.memUsedTotal + inc.2 }
  | .pagesStored => { st with pagesStored := st.pagesStored + inc.2 }
  | .zeroPages => { st with zeroPages := st.zeroPages + inc.2 }
  | .samePages => { st with samePages := st.samePages + inc.2 }
  | .hugePages => { st with hugePages := st.hugePages + inc.2 }
  | .numReads => { st with numReads := st.numReads + inc.2 }
  | .numWrites => { st with numWrites := st.numWrites + inc.2 }

/-- All of the increments. -/
def fetchAdds (st : AtomicStats) (incs : List Increment) : AtomicStats := incs.foldl fetchAdd st

end AtomicStats

/-- The increments of `record_write`. -/
def writeIncs (origSize comprSize : Nat) : List Increment :=
  [(.origDataSize, UInt64.ofNat origSize), (.comprDataSize, UInt64.ofNat comprSize),
    (.memUsedTotal, UInt64.ofNat comprSize), (.pagesStored, 1), (.numWrites, 1)]

/-- The increments of `record_zero_page`. -/
def zeroIncs : List Increment := [(.zeroPages, 1), (.pagesStored, 1), (.numWrites, 1)]

/-- The increments of `record_same_page`. -/
def sameIncs : List Increment := [(.samePages, 1), (.pagesStored, 1), (.numWrites, 1)]

/-- The increments of `record_huge_page`. -/
def hugeIncs : List Increment :=
  [(.hugePages, 1), (.origDataSize, UInt64.ofNat pageSize), (.comprDataSize, UInt64.ofNat pageSize),
    (.memUsedTotal, UInt64.ofNat pageSize), (.pagesStored, 1), (.numWrites, 1)]

/-- The increment of `record_read`. -/
def readIncs : List Increment := [(.numReads, 1)]

/-- How much increments add to a counter. -/
def amount (k : AtomicCounter) (incs : List Increment) : UInt64 :=
  (incs.map fun inc => if inc.1 = k then inc.2 else 0).sum

namespace AtomicStats

theorem get_fetchAdd (st : AtomicStats) (inc : Increment) (k : AtomicCounter) :
    (st.fetchAdd inc).get k = st.get k + if inc.1 = k then inc.2 else 0 := by
  obtain ⟨j, n⟩ := inc
  cases j <;> cases k <;> simp [fetchAdd, get]

theorem ext_get {st st' : AtomicStats} (h : ∀ k, st.get k = st'.get k) : st = st' := by
  cases st
  cases st'
  simp only [mk.injEq]
  exact ⟨h .origDataSize, h .comprDataSize, h .memUsedTotal, h .pagesStored, h .zeroPages,
    h .samePages, h .hugePages, h .numReads, h .numWrites⟩

theorem get_fetchAdds (incs : List Increment) (k : AtomicCounter) : ∀ st : AtomicStats,
    (st.fetchAdds incs).get k = st.get k + amount k incs := by
  induction incs with
  | nil =>
      intro st
      exact (UInt64.add_zero _).symm
  | cons inc incs ih =>
      intro st
      show ((st.fetchAdd inc).fetchAdds incs).get k = _
      rw [ih, get_fetchAdd, UInt64.add_assoc]
      rfl

theorem fetchAdds_hugeIncs (st : AtomicStats) : st.fetchAdds hugeIncs = st.recordHugePage := by
  simp only [fetchAdds, hugeIncs, List.foldl_cons, List.foldl_nil, fetchAdd, recordHugePage]

theorem fetchAdds_writeIncs (st : AtomicStats) (origSize comprSize : Nat) :
    st.fetchAdds (writeIncs origSize comprSize) = st.recordWrite origSize comprSize := by
  simp only [fetchAdds, writeIncs, List.foldl_cons, List.foldl_nil, fetchAdd, recordWrite]

end AtomicStats

/-! ## The calls as atomic steps -/

/-- The device, and whether the mutex of its stream is held. -/
structure Shared where
  device : ZramDevice
  locked : Bool

/-- The next atomic step of a client inside a call. -/
inductive Point where
  /-- in `read_page`, look the page up -/
  | reading (pageIndex : UInt64) (buffer : List UInt8)
  /-- in `read_page`, write the page of the entry to the buffer -/
  | decoding (entry : PageEntry) (buffer : List UInt8)
  /-- in `write_page`, look at the data -/
  | writing (pageIndex : UInt64) (data : List UInt8)
  /-- in `write_page`, lock the stream and compress -/
  | locking (pageIndex : UInt64) (data : List UInt8)
  /-- in `write_page`, insert the entry; `held` tells whether the stream is locked -/
  | storing (pageIndex : UInt64) (data : List UInt8) (entry : PageEntry) (incs : List Increment)
      (held : Bool)
  /-- increment the counters, one after the other, and return -/
  | counting (incs : List Increment) (reply : Reply) (held : Bool)
  | discarding (pageIndex : UInt64)
  /-- in `reset`, remove this page -/
  | clearing (next : Nat)

/-- Only a compressed entry is decoded with the stream. -/
def PageEntry.isCompressed : PageEntry → Bool
  | .compressed _ => true
  | _ => false

/-- The entry and the increments for a page that has been compressed. -/
def packed (page compressed : List UInt8) : PageEntry × List Increment :=
  if pageSize - pageSize / 8 ≤ compressed.length then (.uncompressed page, hugeIncs)
  else (.compressed compressed, writeIncs pageSize compressed.length)

namespace Shared

/-- The calls on a device have these arguments checked first. -/
def refuses (s : Shared) (pageIndex : UInt64) (len : Nat) : Bool :=
  len < pageSize || pageIndex ≥ s.device.config.maxPages

/-- The device with the page table `t`. -/
def withTable (s : Shared) (t : PageTable) : Shared :=
  { s with device := { s.device with pageTable := t } }

/-- One atomic step. A client that waits for the stream stays where it is. -/
def exec (s : Shared) : Point → Shared × Progress Point Reply
  | .reading i buffer =>
      if s.refuses i buffer.length then (s, .ret ⟨.err .invalidArgument, buffer⟩)
      else (s, .goto (.decoding (s.device.pageTable.get i) buffer))
  | .decoding entry buffer =>
      if entry.isCompressed && s.locked then (s, .goto (.decoding entry buffer))
      else
        match readEntry s.device.stream entry buffer with
        | (.ok (), b) => (s, .goto (.counting readIncs ⟨.ok (), b⟩ false))
        | (r, b) => (s, .ret ⟨r, b⟩)
  | .writing i data =>
      if s.refuses i data.length then (s, .ret ⟨.err .invalidArgument, []⟩)
      else if (data.take pageSize).all (· == 0) then
        (s, .goto (.storing i data .zero zeroIncs false))
      else
        match ZramDevice.checkSameFilled (data.take pageSize) with
        | some value => (s, .goto (.storing i data (.same value) sameIncs false))
        | none => (s, .goto (.locking i data))
  | .locking i data =>
      if s.locked then (s, .goto (.locking i data))
      else
        match s.device.stream.compress (data.take pageSize) with
        | .ok compressed =>
            ({ s with locked := true },
              .goto (.storing i data (packed (data.take pageSize) compressed).1
                (packed (data.take pageSize) compressed).2 true))
        | .err e => (s, .ret ⟨.err e, []⟩)
        | .panic => (s, .ret ⟨.panic, []⟩)
        | .diverge => (s, .ret ⟨.diverge, []⟩)
  | .storing i _ entry incs held =>
      (s.withTable (s.device.pageTable.insert i entry), .goto (.counting incs ⟨.ok (), []⟩ held))
  | .counting (inc :: incs) reply held =>
      ({ s with device := { s.device with stats := s.device.stats.fetchAdd inc } },
        .goto (.counting incs reply held))
  -- the guard of the stream is dropped on return
  | .counting [] reply held => ({ s with locked := !held && s.locked }, .ret reply)
  | .discarding i =>
      if i ≥ s.device.config.maxPages then (s, .ret ⟨.err .invalidArgument, []⟩)
      else (s.withTable (s.device.pageTable.erase i), .ret ⟨.ok (), []⟩)
  | .clearing next =>
      if next < s.device.config.maxPages.toNat then
        (s.withTable (s.device.pageTable.erase (UInt64.ofNat next)), .goto (.clearing (next + 1)))
      else (s, .ret ⟨.ok (), []⟩)

end Shared

/-- Where a call starts. -/
def Call.entry : Call → Point
  | .readPage i buffer => .reading i buffer
  | .writePage i data => .writing i data
  | .discardPage i => .discarding i
  | .reset => .clearing 0

/-- The calls as atomic steps. They read nothing from outside. -/
def sharedCode : Code Unit Shared Call Point Reply := ⟨Call.entry, fun _ => Shared.exec⟩

/-- `n` clients on a new device. -/
def sharedMachine (config : ZramConfig) (n : Nat) :
    Machine (Clients Shared Point) (Unit × Move Call) (Option (Point × Progress Point Reply)) :=
  sharedCode.machine ⟨.new config, false⟩ n

/-! ## Linearization -/

/-- The calls of the sequential device that take effect at a step. -/
def Shared.ops (s : Shared) : Point → List Call
  | .reading i buffer => [.readPage i buffer]
  | .writing i data => if s.refuses i data.length then [.writePage i data] else []
  | .locking i data =>
      if s.locked then []
      else
        match s.device.stream.compress (data.take pageSize) with
        | .ok _ => []
        | _ => [.writePage i data]
  | .storing i data _ _ _ => [.writePage i data]
  | .discarding i => [.discardPage i]
  | .clearing next =>
      if next < s.device.config.maxPages.toNat then [.discardPage (UInt64.ofNat next)] else []
  | .decoding _ _ => []
  | .counting _ _ _ => []

/-- The removals of the first `n` pages. -/
def removals (n : Nat) : List (Call × Reply) :=
  (List.range n).map fun i => (.discardPage (UInt64.ofNat i), ⟨.ok (), []⟩)

/-- A call may return `r` after the sequential calls `l`: itself, with that reply, or for a `reset`
the removal of every page. -/
def Explains (config : ZramConfig) : Call → List (Call × Reply) → Reply → Prop
  | .reset, l, r => l = removals config.maxPages.toNat ∧ r = ⟨.ok (), []⟩
  | k, l, r => l = [(k, r)]

/-- What `read_page` returns for an entry. -/
def decoded (config : ZramConfig) (entry : PageEntry) (buffer : List UInt8) : Reply :=
  ⟨(readEntry ⟨config.compressor⟩ entry buffer).1, (readEntry ⟨config.compressor⟩ entry buffer).2⟩

/-- A write of `data` to page `i` of a sequential device stores the entry and makes these
increments. -/
def Plans (config : ZramConfig) (i : UInt64) (data : List UInt8) (entry : PageEntry)
    (incs : List Increment) : Prop :=
  ∀ t : ZramDevice, t.config = config → t.stream = ⟨config.compressor⟩ →
    t.writePage i data = (t.store i entry (t.stats.fetchAdds incs), .ok ())

/-- A call `k` at this point has performed the sequential calls `l`. -/
def Performed (config : ZramConfig) (k : Call) : Point → List (Call × Reply) → Prop
  | .reading i buffer, l => k = .readPage i buffer ∧ l = []
  | .decoding entry buffer, l =>
      ∃ i, k = .readPage i buffer ∧ l = [(.readPage i buffer, decoded config entry buffer)]
  | .writing i data, l => k = .writePage i data ∧ l = []
  | .locking i data, l =>
      k = .writePage i data ∧ l = [] ∧ pageSize ≤ data.length ∧ i < config.maxPages ∧
        (data.take pageSize).all (· == 0) = false ∧
        ZramDevice.checkSameFilled (data.take pageSize) = none
  | .storing i data entry incs _, l =>
      k = .writePage i data ∧ l = [] ∧ Plans config i data entry incs
  | .counting _ reply _, l => k ≠ .reset ∧ l = [(k, reply)]
  | .discarding i, l => k = .discardPage i ∧ l = []
  | .clearing next, l => k = .reset ∧ next ≤ config.maxPages.toNat ∧ l = removals next

/-- What a client has yet to add to a counter. -/
def pending (config : ZramConfig) (k : AtomicCounter) : Option Point → UInt64
  | some (.decoding entry buffer) =>
      if (decoded config entry buffer).result = .ok () then amount k readIncs else 0
  | some (.counting incs _ _) => amount k incs
  | _ => 0

theorem pending_decoding (config : ZramConfig) (k : AtomicCounter) (entry : PageEntry)
    (buffer : List UInt8) :
    pending config k (some (.decoding entry buffer))
      = if (decoded config entry buffer).result = .ok () then amount k readIncs else 0 := rfl

/-- The device and the sequential device `t` are the same but for the counters, which lack what the
clients have yet to add. -/
structure Matches (config : ZramConfig) (s : Clients Shared Point) (t : ZramDevice) : Prop where
  config_eq : s.shared.device.config = config
  stream_eq : s.shared.device.stream = ⟨config.compressor⟩
  config_abs : t.config = config
  stream_abs : t.stream = ⟨config.compressor⟩
  table_abs : t.pageTable = s.shared.device.pageTable
  stats_eq : ∀ k, s.shared.device.stats.get k + (s.clients.map (pending config k)).sum
    = t.stats.get k

/-! ## Sequential calls -/

section Sequential

variable {config : ZramConfig} {t : ZramDevice}

theorem call_readPage_of_refuses {i : UInt64} {buffer : List UInt8}
    (h : (decide (buffer.length < pageSize) || decide (i ≥ t.config.maxPages)) = true) :
    t.call (.readPage i buffer) = (t, ⟨.err .invalidArgument, buffer⟩) := by
  have hread : t.readPage i buffer = (t, .err .invalidArgument, buffer) := by
    unfold ZramDevice.readPage
    rw [Bool.or_eq_true, decide_eq_true_eq, decide_eq_true_eq] at h
    split_ifs with h1 h2
    · rfl
    · rfl
    · exact absurd h (not_or.mpr ⟨h1, h2⟩)
  simp only [ZramDevice.call, hread]

theorem call_writePage_of_refuses {i : UInt64} {data : List UInt8}
    (h : (decide (data.length < pageSize) || decide (i ≥ t.config.maxPages)) = true) :
    t.call (.writePage i data) = (t, ⟨.err .invalidArgument, []⟩) := by
  rw [Bool.or_eq_true, decide_eq_true_eq, decide_eq_true_eq] at h
  simp only [ZramDevice.call, ZramDevice.writePage_of_invalid h.symm]

/-- A read of an entry, with its effect on the counters. -/
theorem call_readPage_of_valid {i : UInt64} {buffer : List UInt8}
    (h : (decide (buffer.length < pageSize) || decide (i ≥ t.config.maxPages)) = false)
    (hstream : t.stream = ⟨config.compressor⟩) :
    t.call (.readPage i buffer)
      = (if (decoded config (t.pageTable.get i) buffer).result = .ok () then
            { t with stats := t.stats.fetchAdds readIncs } else t,
          decoded config (t.pageTable.get i) buffer) := by
  rw [Bool.or_eq_false_iff, decide_eq_false_iff_not, decide_eq_false_iff_not] at h
  unfold ZramDevice.call ZramDevice.readPage decoded
  simp only [if_neg h.1, if_neg h.2, hstream]
  rcases readEntry ⟨config.compressor⟩ (t.pageTable.get i) buffer with ⟨r, b⟩
  cases r with
  | ok u => rfl
  | err e => rfl
  | panic => rfl
  | diverge => rfl

theorem plans_zero {i : UInt64} {data : List UInt8} (hlen : ¬ data.length < pageSize)
    (hi : ¬ i ≥ config.maxPages) (hzero : (data.take pageSize).all (· == 0) = true) :
    Plans config i data .zero zeroIncs := by
  rintro t rfl -
  unfold ZramDevice.writePage
  rw [if_neg hlen, if_neg hi]
  simp only [hzero, if_true]
  rfl

theorem plans_same {i : UInt64} {data : List UInt8} (hlen : ¬ data.length < pageSize)
    (hi : ¬ i ≥ config.maxPages) (hzero : (data.take pageSize).all (· == 0) = false)
    {value : UInt8} (hsame : ZramDevice.checkSameFilled (data.take pageSize) = some value) :
    Plans config i data (.same value) sameIncs := by
  rintro t rfl -
  unfold ZramDevice.writePage
  rw [if_neg hlen, if_neg hi]
  simp only [hzero, Bool.false_eq_true, if_false, hsame]
  rfl

theorem plans_packed {i : UInt64} {data compressed : List UInt8} (hlen : pageSize ≤ data.length)
    (hi : i < config.maxPages) (hzero : (data.take pageSize).all (· == 0) = false)
    (hsame : ZramDevice.checkSameFilled (data.take pageSize) = none)
    (hc : (⟨config.compressor⟩ : CompressionStream).compress (data.take pageSize) = .ok compressed) :
    Plans config i data (packed (data.take pageSize) compressed).1
      (packed (data.take pageSize) compressed).2 := by
  rintro t rfl hstream
  unfold ZramDevice.writePage packed
  rw [if_neg (by omega), if_neg (show ¬ i ≥ _ from UInt64.not_le.mpr hi)]
  simp only [hzero, Bool.false_eq_true, if_false, hsame, hstream, hc]
  split_ifs
  · rw [AtomicStats.fetchAdds_hugeIncs]
  · rw [AtomicStats.fetchAdds_writeIncs]

end Sequential

/-! ## One step -/

section Step

variable {config : ZramConfig} {s : Clients Shared Point} {t : ZramDevice} {c : Nat}

theorem exec_config (s : Shared) (p : Point) : (s.exec p).1.device.config = s.device.config := by
  fun_cases Shared.exec s p <;> rfl

theorem exec_stream (s : Shared) (p : Point) : (s.exec p).1.device.stream = s.device.stream := by
  fun_cases Shared.exec s p <;> rfl

open scoped UInt64.CommRing in
/-- The relation after a step: the sequential device becomes `t'`, and the counters gain what the
client has still to add now, less what it had to add before. -/
theorem Matches.take {t' : ZramDevice} {p : Point} (h : Matches config s t)
    (hp : sharedCode.At s c p) (hconfig : t'.config = t.config) (hstream : t'.stream = t.stream)
    (htable : t'.pageTable = (s.shared.exec p).1.device.pageTable)
    (hstats : ∀ k, (s.shared.exec p).1.device.stats.get k
        + pending config k (s.shared.exec p).2.point + t.stats.get k
      = s.shared.device.stats.get k + pending config k (some p) + t'.stats.get k) :
    Matches config (sharedCode.take () s c p) t' := by
  refine ⟨(exec_config s.shared p).trans h.config_eq, (exec_stream s.shared p).trans h.stream_eq,
    hconfig.trans h.config_abs, hstream.trans h.stream_abs, htable, fun k => ?_⟩
  have hsum : ((sharedCode.take () s c p).clients.map (pending config k)).sum
        + pending config k (some p)
      = (s.clients.map (pending config k)).sum + pending config k (s.shared.exec p).2.point := by
    refine sharedCode.sum_take (fun call => ?_) () hp
    cases call <;> rfl
  show (s.shared.exec p).1.device.stats.get k + _ = _
  linear_combination hsum + hstats k + h.stats_eq k

/-- A step that leaves the device as it is and adds nothing to what is pending. -/
theorem Matches.silent {p : Point} (h : Matches config s t) (hp : sharedCode.At s c p)
    (hdev : (s.shared.exec p).1.device = s.shared.device)
    (hpending : ∀ k, pending config k (s.shared.exec p).2.point = pending config k (some p)) :
    Matches config (sharedCode.take () s c p) t := by
  refine h.take hp rfl rfl (by rw [hdev]; exact h.table_abs) fun k => ?_
  rw [hdev, hpending k]

/-- The arguments are checked against the same configuration. -/
theorem Matches.refuses_abs (h : Matches config s t) (i : UInt64) (n : Nat) :
    s.shared.refuses i n = (decide (n < pageSize) || decide (i ≥ t.config.maxPages)) := by
  rw [Shared.refuses, h.config_eq, h.config_abs]

/-- What a step at `p` owes, in a call `k` that has performed `l`. -/
def Owes (config : ZramConfig) (s : Clients Shared Point) (t : ZramDevice) (c : Nat) (p : Point)
    (k : Call) (l : List (Call × Reply)) : Prop :=
  Matches config (sharedCode.take () s c p)
      ((deviceMachine config).runFrom t (s.shared.ops p)) ∧
    Code.Continues (Performed config) (Explains config) k
      (l ++ (deviceMachine config).traceFrom t (s.shared.ops p)) (s.shared.exec p).2

theorem owes_reading {i : UInt64} {buffer : List UInt8} (h : Matches config s t)
    (hp : sharedCode.At s c (.reading i buffer)) :
    Owes config s t c (.reading i buffer) (.readPage i buffer) [] := by
  unfold Owes
  show Matches config _ (t.call (.readPage i buffer)).1 ∧
    Code.Continues _ _ _ [(Call.readPage i buffer, (t.call (.readPage i buffer)).2)] _
  cases hr : s.shared.refuses i buffer.length with
  | true =>
      have hexec : s.shared.exec (.reading i buffer)
          = (s.shared, .ret ⟨.err .invalidArgument, buffer⟩) := by
        rw [Shared.exec, if_pos hr]
      rw [h.refuses_abs] at hr
      rw [call_readPage_of_refuses hr]
      exact ⟨h.silent hp (by rw [hexec]) (by rw [hexec]; exact fun _ => rfl), by rw [hexec]; rfl⟩
  | false =>
      have hexec : s.shared.exec (.reading i buffer)
          = (s.shared, .goto (.decoding (s.shared.device.pageTable.get i) buffer)) := by
        rw [Shared.exec, if_neg (by rw [hr]; simp)]
      rw [h.refuses_abs] at hr
      rw [call_readPage_of_valid hr h.stream_abs, h.table_abs]
      refine ⟨?_, by rw [hexec]; exact ⟨i, rfl, rfl⟩⟩
      -- if the read succeeds, the increment of its counter is still to come
      split_ifs with hok
      · refine h.take hp rfl rfl (by rw [hexec]) fun k => ?_
        rw [hexec, AtomicStats.get_fetchAdds]
        show _ + pending config k (some (.decoding _ buffer)) + _ = _ + 0 + _
        rw [pending_decoding, if_pos hok, UInt64.add_zero, UInt64.add_assoc,
          UInt64.add_comm (amount k readIncs)]
      · refine h.silent hp (by rw [hexec]) fun k => ?_
        rw [hexec]
        show pending config k (some (.decoding _ buffer)) = 0
        rw [pending_decoding, if_neg hok]

theorem owes_decoding {i : UInt64} {entry : PageEntry} {buffer : List UInt8}
    (h : Matches config s t) (hp : sharedCode.At s c (.decoding entry buffer)) :
    Owes config s t c (.decoding entry buffer) (.readPage i buffer)
      [(.readPage i buffer, decoded config entry buffer)] := by
  unfold Owes
  show Matches config _ t ∧ Code.Continues _ _ _ ([_] ++ []) _
  rw [List.append_nil]
  by_cases hlock : (entry.isCompressed && s.shared.locked) = true
  · have hexec : s.shared.exec (.decoding entry buffer)
        = (s.shared, .goto (.decoding entry buffer)) := by
      rw [Shared.exec, if_pos hlock]
    exact ⟨h.silent hp (by rw [hexec]) (by rw [hexec]; exact fun _ => rfl),
      by rw [hexec]; exact ⟨i, rfl, rfl⟩⟩
  · have hexec : s.shared.exec (.decoding entry buffer)
        = (s.shared, if (decoded config entry buffer).result = .ok () then
            .goto (.counting readIncs (decoded config entry buffer) false)
          else .ret (decoded config entry buffer)) := by
      rw [Shared.exec, if_neg hlock, h.stream_eq]
      unfold decoded
      rcases readEntry ⟨config.compressor⟩ entry buffer with ⟨r, b⟩
      cases r with
      | ok u => rfl
      | err e => rfl
      | panic => rfl
      | diverge => rfl
    split_ifs at hexec with hok
    · refine ⟨h.silent hp (by rw [hexec]) fun k => ?_, ?_⟩
      · rw [hexec]
        show amount k readIncs = pending config k (some (.decoding entry buffer))
        rw [pending_decoding, if_pos hok]
      · rw [hexec]
        exact ⟨by simp, rfl⟩
    · refine ⟨h.silent hp (by rw [hexec]) fun k => ?_, ?_⟩
      · rw [hexec]
        show 0 = pending config k (some (.decoding entry buffer))
        rw [pending_decoding, if_neg hok]
      · rw [hexec]
        rfl

theorem owes_writing {i : UInt64} {data : List UInt8} (h : Matches config s t)
    (hp : sharedCode.At s c (.writing i data)) :
    Owes config s t c (.writing i data) (.writePage i data) [] := by
  unfold Owes
  cases hr : s.shared.refuses i data.length with
  | true =>
      have hexec : s.shared.exec (.writing i data)
          = (s.shared, .ret ⟨.err .invalidArgument, []⟩) := by
        rw [Shared.exec, if_pos hr]
      rw [Shared.ops, if_pos hr]
      rw [h.refuses_abs] at hr
      show Matches config _ (t.call (.writePage i data)).1 ∧
        Code.Continues _ _ _ [(Call.writePage i data, (t.call (.writePage i data)).2)] _
      rw [call_writePage_of_refuses hr]
      exact ⟨h.silent hp (by rw [hexec]) (by rw [hexec]; exact fun _ => rfl), by rw [hexec]; rfl⟩
  | false =>
      rw [Shared.ops, if_neg (by rw [hr]; simp)]
      show Matches config _ t ∧ Code.Continues _ _ _ [] _
      have hargs : ¬ data.length < pageSize ∧ ¬ i ≥ config.maxPages := by
        rw [Shared.refuses, h.config_eq, Bool.or_eq_false_iff, decide_eq_false_iff_not,
          decide_eq_false_iff_not] at hr
        exact hr
      -- every way on leaves the device as it is, and knows what will be stored
      have hway : ∀ q, s.shared.exec (.writing i data) = (s.shared, .goto q) →
          (∀ k, pending config k (some q) = 0) → Performed config (.writePage i data) q [] →
          Matches config (sharedCode.take () s c (.writing i data)) t ∧
            Code.Continues (Performed config) (Explains config) (.writePage i data) []
              (s.shared.exec (.writing i data)).2 := by
        intro q hexec hzero hq
        rw [hexec]
        exact ⟨h.silent hp (by rw [hexec]) (by rw [hexec]; exact hzero), hq⟩
      cases hzero : (data.take pageSize).all (· == 0) with
      | true =>
          refine hway (.storing i data .zero zeroIncs false) ?_ (fun k => rfl)
            ⟨rfl, rfl, plans_zero hargs.1 hargs.2 hzero⟩
          rw [Shared.exec, if_neg (by rw [hr]; simp), if_pos hzero]
      | false =>
          cases hsame : ZramDevice.checkSameFilled (data.take pageSize) with
          | some value =>
              refine hway (.storing i data (.same value) sameIncs false) ?_ (fun k => rfl)
                ⟨rfl, rfl, plans_same hargs.1 hargs.2 hzero hsame⟩
              rw [Shared.exec, if_neg (by rw [hr]; simp), if_neg (by rw [hzero]; simp), hsame]
          | none =>
              refine hway (.locking i data) ?_ (fun k => rfl)
                ⟨rfl, rfl, Nat.not_lt.mp hargs.1, UInt64.not_le.mp hargs.2, hzero, hsame⟩
              rw [Shared.exec, if_neg (by rw [hr]; simp), if_neg (by rw [hzero]; simp), hsame]

theorem owes_locking {i : UInt64} {data : List UInt8} (h : Matches config s t)
    (hp : sharedCode.At s c (.locking i data)) (hlen : pageSize ≤ data.length)
    (hi : i < config.maxPages) (hzero : (data.take pageSize).all (· == 0) = false)
    (hsame : ZramDevice.checkSameFilled (data.take pageSize) = none) :
    Owes config s t c (.locking i data) (.writePage i data) [] := by
  unfold Owes
  cases hlock : s.shared.locked with
  | true =>
      have hexec : s.shared.exec (.locking i data) = (s.shared, .goto (.locking i data)) := by
        rw [Shared.exec, if_pos hlock]
      rw [Shared.ops, if_pos hlock]
      exact ⟨h.silent hp (by rw [hexec]) (by rw [hexec]; exact fun _ => rfl),
        by rw [hexec]; exact ⟨rfl, rfl, hlen, hi, hzero, hsame⟩⟩
  | false =>
      -- the compressor accepts every page
      obtain ⟨y, hy⟩ := s.shared.device.stream.exists_compress (data.take pageSize)
      have hexec : s.shared.exec (.locking i data)
          = ({ s.shared with locked := true },
            .goto (.storing i data (packed (data.take pageSize) y).1
              (packed (data.take pageSize) y).2 true)) := by
        rw [Shared.exec, if_neg (by rw [hlock]; simp), hy]
      rw [Shared.ops, if_neg (by rw [hlock]; simp), hy]
      rw [h.stream_eq] at hy
      exact ⟨h.silent hp (by rw [hexec]) (by rw [hexec]; exact fun _ => rfl),
        by rw [hexec]; exact ⟨rfl, rfl, plans_packed hlen hi hzero hsame hy⟩⟩

theorem owes_storing {i : UInt64} {data : List UInt8} {entry : PageEntry} {incs : List Increment}
    {held : Bool} (h : Matches config s t)
    (hp : sharedCode.At s c (.storing i data entry incs held))
    (hplan : Plans config i data entry incs) :
    Owes config s t c (.storing i data entry incs held) (.writePage i data) [] := by
  unfold Owes
  have hcall : t.call (.writePage i data)
      = (t.store i entry (t.stats.fetchAdds incs), ⟨.ok (), []⟩) := by
    simp only [ZramDevice.call, hplan t h.config_abs h.stream_abs]
  show Matches config _ (t.call (.writePage i data)).1 ∧
    Code.Continues _ _ _ [(Call.writePage i data, (t.call (.writePage i data)).2)] _
  rw [hcall]
  refine ⟨?_, by simp, rfl⟩
  refine h.take hp rfl rfl (congrArg (fun table => table.insert i entry) h.table_abs) fun k => ?_
  show _ + amount k incs + _ = _ + 0 + (t.stats.fetchAdds incs).get k
  rw [AtomicStats.get_fetchAdds, UInt64.add_zero, UInt64.add_assoc, UInt64.add_comm (amount k incs)]
  rfl

theorem owes_counting {incs : List Increment} {reply : Reply} {held : Bool} {k : Call}
    (h : Matches config s t) (hp : sharedCode.At s c (.counting incs reply held))
    (hk : k ≠ .reset) : Owes config s t c (.counting incs reply held) k [(k, reply)] := by
  unfold Owes
  cases incs with
  | nil =>
      refine ⟨h.silent hp rfl fun k => rfl, ?_⟩
      cases k with
      | reset => exact absurd rfl hk
      | readPage i buffer => rfl
      | writePage i data => rfl
      | discardPage i => rfl
  | cons inc incs =>
      refine ⟨?_, hk, rfl⟩
      refine h.take hp rfl rfl h.table_abs fun j => ?_
      show (s.shared.device.stats.fetchAdd inc).get j + amount j incs + _
        = _ + ((if inc.1 = j then inc.2 else 0) + amount j incs) + _
      rw [AtomicStats.get_fetchAdd, UInt64.add_assoc (s.shared.device.stats.get j)]
      rfl

theorem owes_discarding {i : UInt64} (h : Matches config s t)
    (hp : sharedCode.At s c (.discarding i)) :
    Owes config s t c (.discarding i) (.discardPage i) [] := by
  unfold Owes
  show Matches config _ (t.discardPage i).1 ∧
    Code.Continues _ _ _ [(Call.discardPage i, (⟨(t.discardPage i).2, []⟩ : Reply))] _
  by_cases hi : i ≥ config.maxPages
  · have hexec : s.shared.exec (.discarding i) = (s.shared, .ret ⟨.err .invalidArgument, []⟩) := by
      rw [Shared.exec, h.config_eq, if_pos hi]
    rw [ZramDevice.discardPage, h.config_abs, if_pos hi]
    exact ⟨h.silent hp (by rw [hexec]) (by rw [hexec]; exact fun _ => rfl), by rw [hexec]; rfl⟩
  · have hexec : s.shared.exec (.discarding i)
        = (s.shared.withTable (s.shared.device.pageTable.erase i), .ret ⟨.ok (), []⟩) := by
      rw [Shared.exec, h.config_eq, if_neg hi]
    rw [ZramDevice.discardPage, if_neg (by rw [h.config_abs]; exact hi)]
    refine ⟨?_, by rw [hexec]; rfl⟩
    refine h.take hp rfl rfl ?_ fun k => ?_
    · rw [hexec]
      exact congrArg (fun table => table.erase i) h.table_abs
    · rw [hexec]
      rfl

theorem removals_succ (n : Nat) :
    removals (n + 1) = removals n ++ [(.discardPage (UInt64.ofNat n), ⟨.ok (), []⟩)] := by
  rw [removals, List.range_succ, List.map_append]
  rfl

theorem owes_clearing {next : Nat} (h : Matches config s t)
    (hp : sharedCode.At s c (.clearing next)) (hnext : next ≤ config.maxPages.toNat) :
    Owes config s t c (.clearing next) .reset (removals next) := by
  unfold Owes
  by_cases hlt : next < config.maxPages.toNat
  · have hexec : s.shared.exec (.clearing next)
        = (s.shared.withTable (s.shared.device.pageTable.erase (UInt64.ofNat next)),
          .goto (.clearing (next + 1))) := by
      rw [Shared.exec, h.config_eq, if_pos hlt]
    have hdiscard : t.discardPage (UInt64.ofNat next)
        = ({ t with pageTable := t.pageTable.erase (UInt64.ofNat next) }, .ok ()) := by
      have hltw : UInt64.ofNat next < config.maxPages := by
        rw [UInt64.lt_iff_toNat_lt, UInt64.toNat_ofNat_of_lt' (hlt.trans config.maxPages.toNat_lt)]
        exact hlt
      rw [ZramDevice.discardPage, if_neg (by rw [h.config_abs]; exact UInt64.not_le.mpr hltw)]
    rw [Shared.ops, h.config_eq, if_pos hlt]
    show Matches config _ (t.discardPage (UInt64.ofNat next)).1 ∧
      Code.Continues _ _ _ (removals next ++ [(Call.discardPage (UInt64.ofNat next),
        (⟨(t.discardPage (UInt64.ofNat next)).2, []⟩ : Reply))]) _
    rw [hdiscard, ← removals_succ]
    refine ⟨?_, by rw [hexec]; exact ⟨rfl, hlt, rfl⟩⟩
    refine h.take hp rfl rfl ?_ fun k => ?_
    · rw [hexec]
      exact congrArg (fun table => table.erase (UInt64.ofNat next)) h.table_abs
    · rw [hexec]
      rfl
  · have hexec : s.shared.exec (.clearing next) = (s.shared, .ret ⟨.ok (), []⟩) := by
      rw [Shared.exec, h.config_eq, if_neg hlt]
    rw [Shared.ops, h.config_eq, if_neg hlt]
    have hall : next = config.maxPages.toNat := by omega
    refine ⟨h.silent hp (by rw [hexec]) (by rw [hexec]; exact fun _ => rfl), ?_⟩
    rw [hexec]
    exact ⟨by rw [← hall]; exact List.append_nil _, rfl⟩

/-- **Every step does its part**, whatever the point. -/
theorem owes {p : Point} {k : Call} {l : List (Call × Reply)} (h : Matches config s t)
    (hp : sharedCode.At s c p) (hd : Performed config k p l) : Owes config s t c p k l := by
  cases p with
  | reading i buffer =>
      obtain ⟨rfl, rfl⟩ := hd
      exact owes_reading h hp
  | decoding entry buffer =>
      obtain ⟨i, rfl, rfl⟩ := hd
      exact owes_decoding h hp
  | writing i data =>
      obtain ⟨rfl, rfl⟩ := hd
      exact owes_writing h hp
  | locking i data =>
      obtain ⟨rfl, rfl, hlen, hi, hzero, hsame⟩ := hd
      exact owes_locking h hp hlen hi hzero hsame
  | storing i data entry incs held =>
      obtain ⟨rfl, rfl, hplan⟩ := hd
      exact owes_storing h hp hplan
  | counting incs reply held =>
      obtain ⟨hk, rfl⟩ := hd
      exact owes_counting h hp hk
  | discarding i =>
      obtain ⟨rfl, rfl⟩ := hd
      exact owes_discarding h hp
  | clearing next =>
      obtain ⟨rfl, hnext, rfl⟩ := hd
      exact owes_clearing h hp hnext

end Step

theorem shared_linearizes (config : ZramConfig) :
    sharedCode.Linearizes (deviceMachine config) Shared.ops (Matches config) (Performed config)
      (Explains config) where
  entry := fun k => by
    cases k with
    | readPage i buffer => exact ⟨rfl, rfl⟩
    | writePage i data => exact ⟨rfl, rfl⟩
    | discardPage i => exact ⟨rfl, rfl⟩
    | reset => exact ⟨rfl, Nat.zero_le _, rfl⟩
  take := fun _ _ _ _ _ _ _ h hp hd => (owes h hp hd).1
  next := fun _ _ _ _ _ _ _ h hp hd => (owes h hp hd).2

theorem matches_new (config : ZramConfig) (n : Nat) :
    Matches config ⟨⟨.new config, false⟩, List.replicate n none⟩ (deviceMachine config).init := by
  refine ⟨rfl, rfl, rfl, rfl, rfl, fun k => ?_⟩
  have hzero : ((List.replicate n (none : Option Point)).map (pending config k)).sum = 0 := by
    induction n with
    | zero => rfl
    | succ n ih =>
        rw [List.replicate_succ, List.map_cons, List.sum_cons, ih]
        rfl
  show _ + ((List.replicate n none).map (pending config k)).sum = _
  rw [hzero, UInt64.add_zero]
  rfl

/-- When no call is in progress, nothing is pending. -/
theorem Matches.eq_of_idle {config : ZramConfig} {s : Clients Shared Point} {t : ZramDevice}
    (h : Matches config s t) (hidle : ∀ x ∈ s.clients, x = none) : s.shared.device = t := by
  have hstats : s.shared.device.stats = t.stats := by
    apply AtomicStats.ext_get
    intro k
    have hzero : (s.clients.map (pending config k)).sum = 0 := by
      refine List.sum_eq_zero fun y hy => ?_
      obtain ⟨x, hx, rfl⟩ := List.mem_map.mp hy
      rw [hidle x hx]
      rfl
    have hk := h.stats_eq k
    rw [hzero, UInt64.add_zero] at hk
    exact hk
  have hconfig := h.config_eq.trans h.config_abs.symm
  have hstream := h.stream_eq.trans h.stream_abs.symm
  have htable := h.table_abs
  cases hd : s.shared.device
  cases t
  simp_all

/-- **The device is linearizable.** In every interleaving of any number of clients, the log of the
sequential calls is a history of the sequential device, and of an array of pages. For each client it
holds the sequential calls of its calls one after the other, and these explain what the calls
returned: a call is its own sequential call, a `reset` the removal of every page. The log only grows,
so the calls of it are in the order of real time. And whenever no call is in progress, the device has
the entries and the counters of the sequential device. -/
theorem device_linearizable (config : ZramConfig) (n : Nat) (is : List (Unit × Move Call)) :
    let M := sharedCode.logged (deviceMachine config) Shared.ops ⟨.new config, false⟩ n
    let g := M.run is
    g.sys = (sharedMachine config n).run is ∧
    g.events = (deviceMachine config).trace g.ops ∧
    g.events = (arrayMachine config).trace g.ops ∧
    (∀ c, g.eventsOf c = (g.sessions c).operations) ∧
    (∀ c k l r, (k, l, r) ∈ (g.sessions c).done → Explains config k l r) ∧
    (∀ js, js <+: is → (M.run js).log <+: g.log) ∧
    ((∀ x ∈ g.sys.clients, x = none) → g.sys.shared.device = (deviceMachine config).run g.ops) := by
  intro M g
  have hg : Code.LogInv (deviceMachine config) (Matches config) (Performed config)
      (Explains config) g := (shared_linearizes config).run (matches_new config n) is
  refine ⟨sharedCode.logged_sys _ _ _ _ _, hg.legal, ?_, hg.client, hg.explained,
    fun js hjs => sharedCode.log_prefix _ _ _ _ hjs, fun hidle => ?_⟩
  · rw [hg.legal]
    exact (device_simulates_array config).trace_eq g.ops
  · rw [← hg.abs_eq]
    exact hg.rel.eq_of_idle hidle

/-! ## The stream -/

/-- The client holds the mutex of the stream. -/
def holdsStream : Option Point → Bool
  | some (.storing _ _ _ _ held) => held
  | some (.counting _ _ held) => held
  | _ => false

/-- The mutex is locked exactly while one client holds it. -/
def StreamHeld (s : Clients Shared Point) : Prop :=
  s.clients.countP holdsStream = s.shared.locked.toNat

/-- What one step does to the mutex. -/
theorem exec_locked (s : Shared) (p : Point) (h : holdsStream (some p) = true → s.locked = true) :
    (s.exec p).1.locked.toNat + (holdsStream (some p)).toNat
      = s.locked.toNat + (holdsStream (s.exec p).2.point).toNat := by
  by_cases hend : ∃ reply held, p = .counting [] reply held
  · obtain ⟨reply, held, rfl⟩ := hend
    cases held with
    | true => simp [Shared.exec, holdsStream, Progress.point, h rfl]
    | false => simp [Shared.exec, holdsStream, Progress.point]
  · fun_cases Shared.exec s p <;>
      simp_all [holdsStream, Shared.withTable, Progress.point]

theorem StreamHeld.take {s : Clients Shared Point} {c : Nat} {p : Point} (h : StreamHeld s)
    (hp : sharedCode.At s c p) : StreamHeld (sharedCode.take () s c p) := by
  have hcount : (sharedCode.take () s c p).clients.countP holdsStream + (holdsStream (some p)).toNat
      = s.clients.countP holdsStream + (holdsStream (s.shared.exec p).2.point).toNat := by
    refine sharedCode.countP_take (fun call => ?_) () hp
    cases call <;> rfl
  have hlock := exec_locked s.shared p fun hheld => by
    -- a client that holds the mutex is counted
    rcases hp with hp | ⟨-, call, rfl⟩
    · have hpos : 0 < s.clients.countP holdsStream :=
        List.countP_pos_iff.mpr ⟨some p, List.mem_of_getElem? hp, hheld⟩
      rw [h] at hpos
      cases hl : s.shared.locked with
      | true => rfl
      | false =>
          rw [hl] at hpos
          exact absurd hpos (Nat.lt_irrefl 0)
    · cases call <;> cases hheld
  unfold StreamHeld at h ⊢
  show _ = (s.shared.exec p).1.locked.toNat
  omega

/-- How many steps a client has to take at most, when it is not made to wait. -/
def remaining (config : ZramConfig) : Option Point → Nat
  | none => 0
  | some (.reading _ _) => 4
  | some (.decoding _ _) => 3
  | some (.writing _ _) => 10
  | some (.locking _ _) => 9
  | some (.storing _ _ _ incs _) => incs.length + 2
  | some (.counting incs _ _) => incs.length + 1
  | some (.discarding _) => 1
  | some (.clearing next) => config.maxPages.toNat - next + 1

/-- The client waits for the stream. -/
def waits (s : Shared) : Point → Bool
  | .decoding entry _ => entry.isCompressed && s.locked
  | .locking _ _ => s.locked
  | _ => false

theorem length_packed (page compressed : List UInt8) :
    (packed page compressed).2.length ≤ 6 := by
  unfold packed
  split_ifs
  · exact Nat.le_refl 6
  · exact Nat.le_succ 5

/-- A client that does not wait gets on. -/
theorem remaining_exec {config : ZramConfig} {s : Shared} {p : Point}
    (hconfig : s.device.config = config) (h : waits s p = false) :
    remaining config (s.exec p).2.point < remaining config (some p) := by
  fun_cases Shared.exec s p <;>
    simp_all [waits, remaining, Progress.point, zeroIncs, sameIncs, readIncs]
  · exact Nat.lt_of_le_of_lt (Nat.add_le_add_right (length_packed _ _) 2) (by decide)
  · omega

/-- The invariant of the stream: the configuration stays, and the mutex is locked exactly while one
client holds it. -/
def StreamInv (config : ZramConfig) (s : Clients Shared Point) : Prop :=
  s.shared.device.config = config ∧ StreamHeld s

theorem StreamInv.take {config : ZramConfig} {s : Clients Shared Point} {c : Nat} {p : Point}
    (h : StreamInv config s) (hp : sharedCode.At s c p) :
    StreamInv config (sharedCode.take () s c p) :=
  ⟨(exec_config s.shared p).trans h.1, h.2.take hp⟩

theorem streamInv_run (config : ZramConfig) (n : Nat) (is : List (Unit × Move Call)) :
    StreamInv config ((sharedMachine config n).run is) := by
  refine sharedCode.run_invariant _ n ⟨rfl, ?_⟩ (fun _ _ _ _ h hp => h.take hp) is
  show (List.replicate n none).countP holdsStream = 0
  rw [List.countP_replicate]
  rfl

/-- If a client is in a call, some client in a call gets on: this one, or the holder of the stream
it waits for. -/
theorem StreamInv.gets_on {config : ZramConfig} {s : Clients Shared Point} {c : Nat} {p : Point}
    (h : StreamInv config s) (hc : s.clients[c]? = some (some p)) :
    ∃ (c' : Nat) (p' : Point), s.clients[c']? = some (some p') ∧
      remaining config (s.shared.exec p').2.point < remaining config (some p') := by
  cases hw : waits s.shared p with
  | false => exact ⟨c, p, hc, remaining_exec h.1 hw⟩
  | true =>
      have hlocked : s.shared.locked = true := by
        cases p with
        | decoding entry buffer => exact (Bool.and_eq_true_iff.mp hw).2
        | locking i data => exact hw
        | _ => cases hw
      have hpos : 0 < s.clients.countP holdsStream := by
        rw [h.2, hlocked]
        exact Nat.one_pos
      obtain ⟨x, hx, hholds⟩ := List.countP_pos_iff.mp hpos
      obtain ⟨c', hc'⟩ := List.mem_iff_getElem?.mp hx
      cases x with
      | none => cases hholds
      | some p' =>
          refine ⟨c', p', hc', remaining_exec h.1 ?_⟩
          -- the holder is about to store or to count
          cases p' with
          | storing i data entry incs held => rfl
          | counting incs reply held => rfl
          | _ => cases hholds

/-- **The stream is held by one client at a time and no call is stuck.** In every interleaving of
any number of clients, at most one of them holds the stream, and whatever has happened, the calls
under way can all be finished. -/
theorem device_never_stuck (config : ZramConfig) (n : Nat) (is : List (Unit × Move Call)) :
    ((sharedMachine config n).run is).clients.countP holdsStream ≤ 1 ∧
    ∃ cs : List Nat, ∀ x ∈ ((sharedMachine config n).run
      (is ++ cs.map fun c => ((), .advance c))).clients, x = none := by
  have hinv := streamInv_run config n is
  constructor
  · rw [hinv.2]
    exact Bool.toNat_le _
  · obtain ⟨cs, hcs⟩ := sharedCode.exists_finish (I := StreamInv config) ()
      (fun s c p h hp => h.take (Or.inl hp)) (fun s c p h hc => h.gets_on hc) ⟨.new config, false⟩ n _
      ((sharedMachine config n).run is) (Nat.le_refl _) hinv
    refine ⟨cs, ?_⟩
    rw [Machine.run_append]
    exact hcs

end Pepita.Zram
