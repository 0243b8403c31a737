import Pepita.Zram.Device

set_option autoImplicit false

/-! # What the counters say

`ZramStats` documents its fields as descriptions of the store: the number of pages stored, how many
of them are zero, same-filled or huge, the size of their data and the memory used. The counters are
only ever increased, and `record_same_page` leaves the memory out. So they describe the store
exactly as long as no page is overwritten, discarded or reset and no same-filled page is written
(`always_describes_iff`).
-/

namespace Pepita.Zram

/-- The counters that describe the page table. -/
inductive Counter where
  | pagesStored
  | zeroPages
  | samePages
  | hugePages
  | comprDataSize
  | memUsedTotal
  deriving DecidableEq, Repr

namespace Counter

/-- The counter in the snapshot `stats()` gives. -/
def read : Counter → AtomicStats → UInt64
  | .pagesStored, st => st.pagesStored
  | .zeroPages, st => st.zeroPages
  | .samePages, st => st.samePages
  | .hugePages, st => st.hugePages
  | .comprDataSize, st => st.comprDataSize
  | .memUsedTotal, st => st.memUsedTotal

/-- What one entry contributes to the quantity the counter is documented as. -/
def weight : Counter → PageEntry → Nat
  | .pagesStored, _ => 1
  | .zeroPages, .zero => 1
  | .samePages, .same _ => 1
  | .hugePages, .uncompressed _ => 1
  | .comprDataSize, .compressed data => data.length
  | .comprDataSize, .uncompressed data => data.length
  | .memUsedTotal, entry => entry.memorySize
  | _, _ => 0

/-- What a write of the entry adds to the counter. -/
def recorded : Counter → PageEntry → Nat
  | .memUsedTotal, .same _ => 0
  | k, entry => k.weight entry

end Counter

/-- The counters describe the store: each is the sum of what the entries of the table contribute
to it. -/
def StatsDescribe (d : ZramDevice) : Prop :=
  ∀ k : Counter, (k.read d.stats).toNat = d.pageTable.total k.weight

/-- The call keeps the counters right: it writes no same-filled page other than zero and hits no
page that is stored. -/
def KeepsStats (d : ZramDevice) : Call → Prop
  | .readPage _ _ => True
  | .writePage i data => i < d.config.maxPages → pageSize ≤ data.length →
      d.pageTable.lookup i = none ∧
        ∀ value, value ≠ 0 → data.take pageSize ≠ List.replicate pageSize value
  | .discardPage i => i < d.config.maxPages → d.pageTable.lookup i = none
  | .reset => d.pageTable.size = 0

/-! ## Bounds -/

theorem Counter.weight_le {entry : PageEntry} (h : entry.memorySize ≤ pageSize) (k : Counter) :
    k.weight entry ≤ pageSize := by
  have h1 : 1 ≤ pageSize := by decide
  cases k <;> cases entry <;> first | exact h | exact h1 | exact Nat.zero_le _

/-- `max_pages` pages of data are below the range of the counters. -/
theorem maxPages_mul_lt (config : ZramConfig) : config.maxPages.toNat * pageSize < 2 ^ 64 := by
  have hsize := config.sizeBytes.toNat_lt
  have hpages : config.maxPages.toNat = config.sizeBytes.toNat / pageSize := by
    unfold ZramConfig.maxPages
    rw [UInt64.toNat_div]
    rfl
  calc config.maxPages.toNat * pageSize
      = config.sizeBytes.toNat / pageSize * pageSize := by rw [hpages]
    _ ≤ config.sizeBytes.toNat := Nat.div_mul_le_self _ _
    _ < 2 ^ 64 := hsize

namespace ZramDevice

variable {config : ZramConfig} {d : ZramDevice}

theorem WF.size_le (h : d.WF config) : d.pageTable.size ≤ config.maxPages.toNat :=
  AList.size_le (f := UInt64.toNat) (fun _ _ heq => UInt64.toNat_inj.mp heq)
    fun i entry hi => UInt64.lt_iff_toNat_lt.mp (h.index_lt i entry hi)

/-- No documented quantity reaches the end of the range of its counter. -/
theorem WF.total_lt (h : d.WF config) (k : Counter) : d.pageTable.total k.weight < 2 ^ 64 := by
  calc d.pageTable.total k.weight
      ≤ d.pageTable.size * pageSize :=
        AList.total_le fun i entry hi => k.weight_le (h.memorySize_le i entry hi)
    _ ≤ config.maxPages.toNat * pageSize := Nat.mul_le_mul_right pageSize h.size_le
    _ < 2 ^ 64 := maxPages_mul_lt config

end ZramDevice

/-! ## One call -/

theorem Counter.read_recordRead (k : Counter) (st : AtomicStats) :
    k.read st.recordRead = k.read st := by
  cases k <;> rfl

theorem Stored.read {d : ZramDevice} {p : List UInt8} {entry : PageEntry} {stats : AtomicStats}
    (h : Stored d p entry stats) (hp : p.length = pageSize) (k : Counter) :
    k.read stats = k.read d.stats + UInt64.ofNat (k.recorded entry) := by
  cases h with
  | zero _ => cases k <;> simp [Counter.read, Counter.recorded, Counter.weight,
      AtomicStats.recordZeroPage, PageEntry.memorySize]
  | same _ _ => cases k <;> simp [Counter.read, Counter.recorded, Counter.weight,
      AtomicStats.recordSamePage]
  | huge _ => cases k <;> simp [Counter.read, Counter.recorded, Counter.weight,
      AtomicStats.recordHugePage, PageEntry.memorySize, hp]
  | compressed _ _ _ => cases k <;> simp [Counter.read, Counter.recorded, Counter.weight,
      AtomicStats.recordWrite, PageEntry.memorySize]

section Calls

variable {config : ZramConfig} {d : ZramDevice}

/-- A counter after a write, from one that was right. -/
theorem toNat_read_store (hd : StatsDescribe d) {i : UInt64} {p : List UInt8}
    (hp : p.length = pageSize) {entry : PageEntry} {stats : AtomicStats}
    (hs : Stored d p entry stats) (k : Counter) :
    (k.read (d.store i entry stats).stats).toNat
      = (d.pageTable.total k.weight + k.recorded entry % 2 ^ 64) % 2 ^ 64 := by
  show (k.read stats).toNat = _
  rw [hs.read hp, UInt64.toNat_add, hd k, UInt64.toNat_ofNat']

/-- Only a same-filled page contributes something that is not recorded. -/
theorem recorded_eq_weight {p : List UInt8} {entry : PageEntry} {stats : AtomicStats}
    (hs : Stored d p entry stats)
    (hns : ∀ value, value ≠ 0 → p ≠ List.replicate pageSize value) (k : Counter) :
    k.recorded entry = k.weight entry := by
  cases hs with
  | same heq h0 => exact absurd heq (hns _ h0)
  | zero _ => cases k <;> rfl
  | huge _ => cases k <;> rfl
  | compressed _ _ _ => cases k <;> rfl

/-- A write keeps the counters right exactly when the page is new and not same-filled. -/
theorem describe_store (h : d.WF config) (hd : StatsDescribe d) {i : UInt64}
    (hi : i < config.maxPages) {p : List UInt8} (hp : p.length = pageSize) {entry : PageEntry}
    {stats : AtomicStats} (hs : Stored d p entry stats) :
    StatsDescribe (d.store i entry stats) ↔
      d.pageTable.lookup i = none ∧ ∀ value, value ≠ 0 → p ≠ List.replicate pageSize value := by
  have hstep := toNat_read_store (i := i) hd hp hs
  have hwf := h.store hi (ZramDevice.memorySize_le_of_stored hs hp) stats
  constructor
  · intro hd'
    have hnew : d.pageTable.lookup i = none := by
      by_contra hold
      obtain ⟨c, hc⟩ := Option.ne_none_iff_exists'.mp hold
      -- the number of entries stays, the counter goes up
      have hpages := hd' .pagesStored
      have htotal := AList.total_insert_of_some (b := entry) (Counter.weight .pagesStored) hc
      have hlt := h.total_lt .pagesStored
      rw [hstep] at hpages
      simp only [ZramDevice.store, Counter.recorded, Counter.weight] at hpages htotal hlt
      omega
    refine ⟨hnew, fun value h0 heq => ?_⟩
    have hmem := hd' .memUsedTotal
    have htotal := AList.total_insert_of_none (b := entry) (Counter.weight .memUsedTotal) hnew
    have hlt := h.total_lt .memUsedTotal
    rw [hstep] at hmem
    cases hs with
    | same _ _ =>
        -- one byte more, which nothing records
        simp only [ZramDevice.store, Counter.recorded, Counter.weight,
          PageEntry.memorySize] at hmem htotal hlt
        omega
    | zero hz =>
        have hbytes := congrArg List.head? (hz.symm.trans heq)
        exact h0 (Option.some_inj.mp hbytes).symm
    | huge hns => exact hns value heq
    | compressed hns _ _ => exact hns value heq
  · rintro ⟨hnew, hns⟩ k
    have htotal : (d.store i entry stats).pageTable.total k.weight
        = k.weight entry + d.pageTable.total k.weight := AList.total_insert_of_none _ hnew
    have hlt := hwf.total_lt k
    rw [hstep, recorded_eq_weight hs hns, htotal]
    omega

theorem describe_discard (hd : StatsDescribe d) (i : UInt64) :
    StatsDescribe { d with pageTable := d.pageTable.erase i } ↔ d.pageTable.lookup i = none := by
  constructor
  · intro hd'
    by_contra hold
    obtain ⟨c, hc⟩ := Option.ne_none_iff_exists'.mp hold
    -- an entry goes, the counters stay
    have hbefore := hd .pagesStored
    have hafter := hd' .pagesStored
    have htotal := AList.total_erase (Counter.weight .pagesStored) hc
    simp only [Counter.weight] at hbefore hafter htotal
    omega
  · intro hnone k
    show (k.read d.stats).toNat = (d.pageTable.erase i).total k.weight
    rw [AList.erase_of_lookup_none hnone]
    exact hd k

theorem describe_reset (h : d.WF config) (hd : StatsDescribe d) :
    StatsDescribe d.reset.1 ↔ d.pageTable.size = 0 := by
  have hempty := AList.eq_empty_of_lookup h.lookup_reset
  constructor
  · intro hd'
    have hafter := hd' .pagesStored
    rw [hempty, AList.total_empty] at hafter
    rw [AList.size_eq_total]
    exact (hd .pagesStored).symm.trans hafter
  · intro hsize k
    rw [hempty, ← AList.eq_empty_of_size hsize]
    exact hd k

/-- **One call**: from a state the counters describe, they describe the next exactly when the call
keeps them right. -/
theorem describe_call (h : d.WF config) (hd : StatsDescribe d) (c : Call) :
    StatsDescribe (d.call c).1 ↔ KeepsStats d c := by
  cases c with
  | readPage i buffer =>
      refine ⟨fun _ => trivial, fun _ => ?_⟩
      rcases d.readPage_frame i buffer with heq | heq
      · rw [ZramDevice.call, heq]
        exact hd
      · rw [ZramDevice.call, heq]
        intro k
        rw [k.read_recordRead]
        exact hd k
  | writePage i data =>
      simp only [KeepsStats, h.config_eq]
      by_cases hvalid : i < config.maxPages ∧ pageSize ≤ data.length
      · obtain ⟨entry, stats, hwrite, hstored⟩ :=
          ZramDevice.writePage_of_valid (d := d) hvalid.2 (by rw [h.config_eq]; exact hvalid.1)
        have hp : (data.take pageSize).length = pageSize := by
          rw [List.length_take]
          exact Nat.min_eq_left hvalid.2
        rw [ZramDevice.call, hwrite, describe_store h hd hvalid.1 hp hstored]
        exact ⟨fun hk _ _ => hk, fun hk => hk hvalid.1 hvalid.2⟩
      · rw [ZramDevice.call, ZramDevice.writePage_of_invalid
          (by rw [h.config_eq]; exact ZramDevice.not_valid hvalid)]
        exact ⟨fun _ hi hlen => absurd ⟨hi, hlen⟩ hvalid, fun _ => hd⟩
  | discardPage i =>
      by_cases hi : i < d.config.maxPages
      · rw [ZramDevice.call, ZramDevice.discardPage,
          if_neg (show ¬ i ≥ _ from UInt64.not_le.mpr hi), describe_discard hd]
        exact ⟨fun hk _ => hk, fun hk => hk hi⟩
      · rw [ZramDevice.call, ZramDevice.discardPage, if_pos (UInt64.not_lt.mp hi)]
        exact ⟨fun _ hi' => absurd hi' hi, fun _ => hd⟩
  | reset => exact describe_reset h hd

end Calls

/-! ## Whole runs -/

/-- **When the counters describe the store.** Over any calls on a fresh device they do in every
state exactly if each call writes only new pages, none of them filled with one byte other than
zero, and discards or resets no stored page. -/
theorem always_describes_iff (config : ZramConfig) (calls : List Call) :
    (deviceMachine config).Always StatsDescribe calls ↔
      (deviceMachine config).EachStep KeepsStats calls := by
  refine Machine.always_iff_eachStep _ (I := ZramDevice.WF config) ?_ (deviceMachine_wf config) ?_
    calls
  · intro k
    cases k <;> rfl
  · intro d c h hd
    exact describe_call h hd c

/-- The zero page, written twice to the same index, is counted twice. -/
theorem zero_page_counted_twice :
    let write : Call := .writePage 0 (List.replicate pageSize 0)
    let d := (deviceMachine ⟨8192, .lz4, none⟩).run [write, write]
    d.stats.pagesStored = 2 ∧ d.storedPages = 1 ∧ ¬ StatsDescribe d := by
  intro write d
  have hstats : d.stats.pagesStored = 2 := by decide +kernel
  have hsize : d.storedPages = 1 := by decide +kernel
  refine ⟨hstats, hsize, fun h => ?_⟩
  have hpages := h .pagesStored
  have htotal : d.pageTable.total (Counter.weight .pagesStored) = 1 :=
    (AList.size_eq_total _).symm.trans hsize
  rw [htotal] at hpages
  have hread : Counter.pagesStored.read d.stats = 2 := hstats
  rw [hread] at hpages
  exact absurd hpages (by decide)

end Pepita.Zram
