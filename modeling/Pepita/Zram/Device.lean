import Pepita.Lib.Machine
import Pepita.Lib.Table
import Pepita.Zram.Stream

set_option autoImplicit false

/-! # The zram device

`ZramDevice` of `zram.rs`: a table of page entries, a compression stream and counters. A page is
stored as a marker when it is zero or filled with one byte, compressed when that saves at least an
eighth, and raw otherwise.

The locks are never poisoned: neither the encoder nor the decoder panics in a release build, and
nothing else that runs under a lock can.
-/

namespace Pepita.Zram

/-! ## Configuration, entries and counters -/

/-- `ZramConfig`. -/
structure ZramConfig where
  sizeBytes : UInt64
  compressor : ZramCompressor
  memLimit : Option UInt64
  deriving DecidableEq, Repr

/-- `ZramConfig::max_pages`. -/
def ZramConfig.maxPages (c : ZramConfig) : UInt64 := c.sizeBytes / UInt64.ofNat pageSize

/-- `ZramConfig::effective_mem_limit`. -/
def ZramConfig.effectiveMemLimit (c : ZramConfig) : UInt64 := c.memLimit.getD (c.sizeBytes / 2)

/-- `PageEntry`. -/
inductive PageEntry where
  | empty
  | zero
  | same (value : UInt8)
  | compressed (data : List UInt8)
  | uncompressed (data : List UInt8)
  deriving DecidableEq, Repr

/-- `PageEntry::memory_size`. -/
def PageEntry.memorySize : PageEntry → Nat
  | .empty => 0
  | .zero => 0
  | .same _ => 1
  | .compressed data => data.length
  | .uncompressed data => data.length

/-- The entries of `PageTable`, by page number. -/
abbrev PageTable := AList fun _ : UInt64 => PageEntry

/-- `PageTable::get`. -/
def PageTable.get (t : PageTable) (pageIndex : UInt64) : PageEntry :=
  (t.lookup pageIndex).getD .empty

/-- `AtomicStats`. The counters wrap. -/
structure AtomicStats where
  origDataSize : UInt64
  comprDataSize : UInt64
  memUsedTotal : UInt64
  pagesStored : UInt64
  zeroPages : UInt64
  samePages : UInt64
  hugePages : UInt64
  numReads : UInt64
  numWrites : UInt64
  deriving DecidableEq, Repr

namespace AtomicStats

/-- `AtomicStats::default`. -/
def default : AtomicStats := ⟨0, 0, 0, 0, 0, 0, 0, 0, 0⟩

/-- `record_write`. -/
def recordWrite (st : AtomicStats) (origSize comprSize : Nat) : AtomicStats :=
  { st with
    origDataSize := st.origDataSize + UInt64.ofNat origSize
    comprDataSize := st.comprDataSize + UInt64.ofNat comprSize
    memUsedTotal := st.memUsedTotal + UInt64.ofNat comprSize
    pagesStored := st.pagesStored + 1
    numWrites := st.numWrites + 1 }

/-- `record_zero_page`. -/
def recordZeroPage (st : AtomicStats) : AtomicStats :=
  { st with
    zeroPages := st.zeroPages + 1
    pagesStored := st.pagesStored + 1
    numWrites := st.numWrites + 1 }

/-- `record_same_page`. -/
def recordSamePage (st : AtomicStats) : AtomicStats :=
  { st with
    samePages := st.samePages + 1
    pagesStored := st.pagesStored + 1
    numWrites := st.numWrites + 1 }

/-- `record_huge_page`. -/
def recordHugePage (st : AtomicStats) : AtomicStats :=
  { st with
    hugePages := st.hugePages + 1
    origDataSize := st.origDataSize + UInt64.ofNat pageSize
    comprDataSize := st.comprDataSize + UInt64.ofNat pageSize
    memUsedTotal := st.memUsedTotal + UInt64.ofNat pageSize
    pagesStored := st.pagesStored + 1
    numWrites := st.numWrites + 1 }

/-- `record_read`. -/
def recordRead (st : AtomicStats) : AtomicStats := { st with numReads := st.numReads + 1 }

end AtomicStats

/-! ## The device -/

/-- `ZramDevice`. -/
structure ZramDevice where
  config : ZramConfig
  pageTable : PageTable
  stream : CompressionStream
  stats : AtomicStats

/-- `buffer[lo..hi].fill(value)`. -/
def fill (buffer : List UInt8) (lo hi : Nat) (value : UInt8) : Option (List UInt8) :=
  copyInto buffer lo hi (List.replicate (hi - lo) value)

/-- The result of a write to the buffer that panics when it is out of range. -/
def written (buffer : List UInt8) : Option (List UInt8) → Outcome KernelError Unit × List UInt8
  | some b => (.ok (), b)
  | none => (.panic, buffer)

/-- The page of an entry, written to the front of the buffer: the `match` of `read_page`. -/
def readEntry (stream : CompressionStream) (entry : PageEntry) (buffer : List UInt8) :
    Outcome KernelError Unit × List UInt8 :=
  match entry with
  | .empty => written buffer (fill buffer 0 pageSize 0)
  | .zero => written buffer (fill buffer 0 pageSize 0)
  | .same value => written buffer (fill buffer 0 pageSize value)
  | .compressed data =>
      match stream.decompress data (buffer.take pageSize) with
      | (.ok decompressed, page) =>
          let buffer := page ++ buffer.drop pageSize
          if decompressed ≠ pageSize then written buffer (fill buffer decompressed pageSize 0)
          else (.ok (), buffer)
      | (.err e, page) => (.err e, page ++ buffer.drop pageSize)
      | (.panic, page) => (.panic, page ++ buffer.drop pageSize)
      | (.diverge, page) => (.diverge, page ++ buffer.drop pageSize)
  | .uncompressed data =>
      let len := min data.length pageSize
      written buffer ((slice data 0 len).bind fun src => (copyInto buffer 0 len src).bind fun b =>
        if len < pageSize then fill b len pageSize 0 else some b)

namespace ZramDevice

/-- `ZramDevice::new`. -/
def new (config : ZramConfig) : ZramDevice := ⟨config, ∅, ⟨config.compressor⟩, .default⟩

/-- `read_page`. -/
def readPage (d : ZramDevice) (pageIndex : UInt64) (buffer : List UInt8) :
    ZramDevice × Outcome KernelError Unit × List UInt8 :=
  if buffer.length < pageSize then (d, .err .invalidArgument, buffer)
  else if pageIndex ≥ d.config.maxPages then (d, .err .invalidArgument, buffer)
  else
    match readEntry d.stream (d.pageTable.get pageIndex) buffer with
    | (.ok (), b) => ({ d with stats := d.stats.recordRead }, .ok (), b)
    | (r, b) => (d, r, b)

/-- `check_same_filled`. -/
def checkSameFilled (data : List UInt8) : Option UInt8 :=
  match data with
  | [] => none
  | first :: _ => if data.all (· == first) then some first else none

/-- The entry under `pageIndex` and the counters after a write. -/
def store (d : ZramDevice) (pageIndex : UInt64) (entry : PageEntry) (stats : AtomicStats) :
    ZramDevice :=
  { d with pageTable := d.pageTable.insert pageIndex entry, stats := stats }

/-- `write_page`. -/
def writePage (d : ZramDevice) (pageIndex : UInt64) (data : List UInt8) :
    ZramDevice × Outcome KernelError Unit :=
  if data.length < pageSize then (d, .err .invalidArgument)
  else if pageIndex ≥ d.config.maxPages then (d, .err .invalidArgument)
  else
    let pageData := data.take pageSize
    if pageData.all (· == 0) then (d.store pageIndex .zero d.stats.recordZeroPage, .ok ())
    else
      match checkSameFilled pageData with
      | some value => (d.store pageIndex (.same value) d.stats.recordSamePage, .ok ())
      | none =>
          match d.stream.compress pageData with
          | .ok compressed =>
              -- compression must save an eighth of the page
              if pageSize - pageSize / 8 ≤ compressed.length then
                (d.store pageIndex (.uncompressed pageData) d.stats.recordHugePage, .ok ())
              else
                (d.store pageIndex (.compressed compressed)
                  (d.stats.recordWrite pageSize compressed.length), .ok ())
          | .err e => (d, .err e)
          | .panic => (d, .panic)
          | .diverge => (d, .diverge)

/-- `discard_page`. -/
def discardPage (d : ZramDevice) (pageIndex : UInt64) : ZramDevice × Outcome KernelError Unit :=
  if pageIndex ≥ d.config.maxPages then (d, .err .invalidArgument)
  else ({ d with pageTable := d.pageTable.erase pageIndex }, .ok ())

/-- `stored_pages`. -/
def storedPages (d : ZramDevice) : Nat := d.pageTable.size

/-- `reset`: every index below `max_pages` is removed from the table. -/
def reset (d : ZramDevice) : ZramDevice × Outcome KernelError Unit :=
  ({ d with
      pageTable := (List.range d.config.maxPages.toNat).foldl
        (fun t i => t.erase (UInt64.ofNat i)) d.pageTable }, .ok ())

end ZramDevice

/-- The calls on a device. -/
inductive Call where
  | readPage (pageIndex : UInt64) (buffer : List UInt8)
  | writePage (pageIndex : UInt64) (data : List UInt8)
  | discardPage (pageIndex : UInt64)
  | reset
  deriving DecidableEq, Repr

/-- What a call gives back: its result, and for `read_page` the buffer. -/
structure Reply where
  result : Outcome KernelError Unit
  buffer : List UInt8
  deriving DecidableEq, Repr

/-- One call. -/
def ZramDevice.call (d : ZramDevice) : Call → ZramDevice × Reply
  | .readPage pageIndex buffer =>
      ((d.readPage pageIndex buffer).1, ⟨(d.readPage pageIndex buffer).2.1,
        (d.readPage pageIndex buffer).2.2⟩)
  | .writePage pageIndex data =>
      ((d.writePage pageIndex data).1, ⟨(d.writePage pageIndex data).2, []⟩)
  | .discardPage pageIndex => ((d.discardPage pageIndex).1, ⟨(d.discardPage pageIndex).2, []⟩)
  | .reset => (d.reset.1, ⟨d.reset.2, []⟩)

/-- A fresh device in use. -/
def deviceMachine (config : ZramConfig) : Machine ZramDevice Call Reply where
  init := .new config
  step := ZramDevice.call

/-! ## What a write stores -/

/-- The entry and the counters a write of the page `p` leaves: the page decides the form. -/
inductive Stored (d : ZramDevice) (p : List UInt8) : PageEntry → AtomicStats → Prop where
  | zero (h : p = List.replicate pageSize 0) : Stored d p .zero d.stats.recordZeroPage
  | same {value : UInt8} (h : p = List.replicate pageSize value) (h0 : value ≠ 0) :
      Stored d p (.same value) d.stats.recordSamePage
  | huge (h : ∀ value, p ≠ List.replicate pageSize value) :
      Stored d p (.uncompressed p) d.stats.recordHugePage
  | compressed {y : List UInt8} (h : ∀ value, p ≠ List.replicate pageSize value)
      (hy : d.stream.compress p = .ok y) (hlt : y.length < pageSize - pageSize / 8) :
      Stored d p (.compressed y) (d.stats.recordWrite pageSize y.length)

namespace ZramDevice

theorem all_beq_iff {p : List UInt8} (hp : p.length = pageSize) (value : UInt8) :
    p.all (· == value) = true ↔ p = List.replicate pageSize value := by
  simp only [List.all_eq_true, beq_iff_eq, List.eq_replicate_iff, hp, true_and]

theorem checkSameFilled_some {p : List UInt8} (hp : p.length = pageSize) {value : UInt8}
    (h : checkSameFilled p = some value) : p = List.replicate pageSize value := by
  unfold checkSameFilled at h
  split at h
  · cases h
  · split_ifs at h with hall
    cases h
    exact (all_beq_iff hp _).mp hall

theorem checkSameFilled_none {p : List UInt8} (hp : p.length = pageSize)
    (h : checkSameFilled p = none) (value : UInt8) : p ≠ List.replicate pageSize value := by
  intro heq
  have hcons : p = value :: List.replicate (pageSize - 1) value := by
    rw [heq]
    rfl
  have hall := (all_beq_iff hp value).mpr heq
  rw [hcons] at h hall
  simp only [checkSameFilled, hall, if_true] at h
  cases h

/-- **What a valid write does**: it succeeds, and stores the page in the form that suits it. -/
theorem writePage_of_valid {d : ZramDevice} {i : UInt64} {data : List UInt8}
    (hlen : pageSize ≤ data.length) (hi : i < d.config.maxPages) :
    ∃ entry stats, d.writePage i data = (d.store i entry stats, .ok ()) ∧
      Stored d (data.take pageSize) entry stats := by
  have hp : (data.take pageSize).length = pageSize := by
    rw [List.length_take]
    omega
  unfold writePage
  rw [if_neg (by omega), if_neg (show ¬ i ≥ _ from UInt64.not_le.mpr hi)]
  simp only
  by_cases hzero : (data.take pageSize).all (· == 0) = true
  · rw [if_pos hzero]
    exact ⟨_, _, rfl, .zero ((all_beq_iff hp 0).mp hzero)⟩
  · rw [if_neg hzero]
    cases hsame : checkSameFilled (data.take pageSize) with
    | some value =>
        have heq := checkSameFilled_some hp hsame
        refine ⟨_, _, rfl, .same heq fun h0 => hzero ?_⟩
        rw [h0] at heq
        exact (all_beq_iff hp 0).mpr heq
    | none =>
        have hne := checkSameFilled_none hp hsame
        obtain ⟨y, hy⟩ := d.stream.exists_compress (data.take pageSize)
        simp only [hy]
        split_ifs with hbig
        · exact ⟨_, _, rfl, .huge hne⟩
        · exact ⟨_, _, rfl, .compressed hne hy (by omega)⟩

theorem not_valid {m i : UInt64} {n : Nat} (h : ¬ (i < m ∧ pageSize ≤ n)) :
    i ≥ m ∨ n < pageSize := by
  by_cases hi : i < m
  · exact Or.inr (Nat.not_le.mp fun hn => h ⟨hi, hn⟩)
  · exact Or.inl (UInt64.not_lt.mp hi)

theorem writePage_of_invalid {d : ZramDevice} {i : UInt64} {data : List UInt8}
    (h : i ≥ d.config.maxPages ∨ data.length < pageSize) :
    d.writePage i data = (d, .err .invalidArgument) := by
  unfold writePage
  split_ifs with hlen hi
  · rfl
  · rfl
  · exact absurd h (by simp only [not_or]; exact ⟨hi, hlen⟩)

/-! ## The table stays inside the device -/

/-- The configuration is kept, entries stand only under indices of the device, and no entry is
larger than a page. -/
structure WF (config : ZramConfig) (d : ZramDevice) : Prop where
  config_eq : d.config = config
  index_lt : ∀ i entry, d.pageTable.lookup i = some entry → i < config.maxPages
  memorySize_le : ∀ i entry, d.pageTable.lookup i = some entry → entry.memorySize ≤ pageSize

variable {config : ZramConfig} {d : ZramDevice}

theorem WF.new (config : ZramConfig) : (new config).WF config := by
  refine ⟨rfl, fun i entry h => ?_, fun i entry h => ?_⟩
  · cases h
  · cases h

theorem memorySize_le_of_stored {p : List UInt8} {entry : PageEntry} {stats : AtomicStats}
    (h : Stored d p entry stats) (hp : p.length = pageSize) : entry.memorySize ≤ pageSize := by
  cases h with
  | zero _ => exact Nat.zero_le _
  | same _ _ => show 1 ≤ pageSize; decide
  | huge _ => exact Nat.le_of_eq hp
  | compressed _ _ hlt => exact Nat.le_of_lt (Nat.lt_of_lt_of_le hlt (Nat.sub_le _ _))

theorem WF.store (h : d.WF config) {i : UInt64} (hi : i < config.maxPages) {entry : PageEntry}
    (he : entry.memorySize ≤ pageSize) (stats : AtomicStats) :
    (d.store i entry stats).WF config := by
  have hcases : ∀ j e, (d.store i entry stats).pageTable.lookup j = some e →
      (j = i ∧ e = entry) ∨ d.pageTable.lookup j = some e := by
    intro j e hj
    by_cases hji : j = i
    · rw [hji] at hj
      exact Or.inl ⟨hji, Option.some_inj.mp (hj.symm.trans (AList.lookup_insert d.pageTable))⟩
    · exact Or.inr ((AList.lookup_insert_ne hji).symm.trans hj)
  refine ⟨h.config_eq, fun j e hj => ?_, fun j e hj => ?_⟩
  · rcases hcases j e hj with ⟨rfl, -⟩ | hold
    · exact hi
    · exact h.index_lt j e hold
  · rcases hcases j e hj with ⟨-, rfl⟩ | hold
    · exact he
    · exact h.memorySize_le j e hold

theorem WF.erase (h : d.WF config) (i : UInt64) :
    WF config { d with pageTable := d.pageTable.erase i } := by
  have hold : ∀ j e, (d.pageTable.erase i).lookup j = some e → d.pageTable.lookup j = some e := by
    intro j e hj
    by_cases hji : j = i
    · rw [hji, AList.lookup_erase] at hj
      cases hj
    · exact (AList.lookup_erase_ne hji).symm.trans hj
  exact ⟨h.config_eq, fun j e hj => h.index_lt j e (hold j e hj),
    fun j e hj => h.memorySize_le j e (hold j e hj)⟩

/-- After `reset` no index of the device has an entry. -/
theorem WF.lookup_reset (h : d.WF config) (i : UInt64) : d.reset.1.pageTable.lookup i = none := by
  have hfold : d.reset.1.pageTable = ((List.range d.config.maxPages.toNat).map UInt64.ofNat).foldl
      (fun t j => t.erase j) d.pageTable := by
    rw [List.foldl_map]
    rfl
  rw [hfold, AList.lookup_foldl_erase]
  split_ifs with hmem
  · rfl
  · -- an index that is not erased is not in the device, and has no entry
    cases hi : d.pageTable.lookup i with
    | none => rfl
    | some entry =>
        have hlt := h.index_lt i entry hi
        refine absurd (List.mem_map.mpr ⟨i.toNat, List.mem_range.mpr ?_, UInt64.ofNat_toNat⟩) hmem
        rw [h.config_eq]
        exact UInt64.lt_iff_toNat_lt.mp hlt

theorem WF.reset (h : d.WF config) : d.reset.1.WF config := by
  refine ⟨h.config_eq, fun i entry hi => ?_, fun i entry hi => ?_⟩
  · rw [h.lookup_reset] at hi
    cases hi
  · rw [h.lookup_reset] at hi
    cases hi

theorem readPage_frame (d : ZramDevice) (i : UInt64) (buffer : List UInt8) :
    (d.readPage i buffer).1 = d ∨
    (d.readPage i buffer).1 = { d with stats := d.stats.recordRead } := by
  unfold readPage
  split_ifs
  · exact Or.inl rfl
  · exact Or.inl rfl
  · split
    · exact Or.inr rfl
    · exact Or.inl rfl

/-- **Every call keeps the table inside the device.** -/
theorem WF.call (h : d.WF config) (c : Call) : (d.call c).1.WF config := by
  cases c with
  | readPage i buffer =>
      rcases d.readPage_frame i buffer with heq | heq
      · rw [ZramDevice.call, heq]
        exact h
      · rw [ZramDevice.call, heq]
        exact ⟨h.config_eq, h.index_lt, h.memorySize_le⟩
  | writePage i data =>
      by_cases hvalid : i < config.maxPages ∧ pageSize ≤ data.length
      · obtain ⟨entry, stats, hwrite, hstored⟩ :=
          writePage_of_valid (d := d) hvalid.2 (by rw [h.config_eq]; exact hvalid.1)
        rw [ZramDevice.call, hwrite]
        refine h.store hvalid.1 (memorySize_le_of_stored hstored ?_) stats
        rw [List.length_take]
        exact Nat.min_eq_left hvalid.2
      · rw [ZramDevice.call, writePage_of_invalid (by rw [h.config_eq]; exact not_valid hvalid)]
        exact h
  | discardPage i =>
      simp only [ZramDevice.call, discardPage]
      split_ifs
      · exact h
      · exact h.erase i
  | reset => exact h.reset

end ZramDevice

theorem deviceMachine_wf (config : ZramConfig) (calls : List Call) :
    ((deviceMachine config).run calls).WF config :=
  Machine.run_invariant _ (ZramDevice.WF.new config) (fun _ c h => h.call c) calls

end Pepita.Zram
