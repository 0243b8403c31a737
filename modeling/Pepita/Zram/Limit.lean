import Pepita.Zram.Device

set_option autoImplicit false

/-! # The memory limit

`ZramConfig::mem_limit` is documented as the maximum memory of the device, half of its size if it
is not set. `write_page` does not look at it. So the entries stay within the limit exactly as long
as every write happens to fit next to the pages already there (`respectsLimit_iff`); a write
that does not fit is stored like any other (`limit_exceeded`).
-/

namespace Pepita.Zram

namespace ZramDevice

/-- The memory the entries take. -/
def memoryUsed (d : ZramDevice) : Nat := d.pageTable.total PageEntry.memorySize

/-- The entries take no more memory than the configuration allows. -/
def WithinLimit (d : ZramDevice) : Prop := d.memoryUsed ≤ d.config.effectiveMemLimit.toNat

/-- The memory a page takes when it is stored. -/
def storedSize (stream : CompressionStream) (page : List UInt8) : Nat :=
  if page.all (· == 0) then 0
  else if (checkSameFilled page).isSome then 1
  else
    match stream.compress page with
    | .ok compressed =>
        if pageSize - pageSize / 8 ≤ compressed.length then page.length else compressed.length
    | _ => 0

/-- The page of a valid write fits next to the entries of the other pages. Other calls store
nothing. -/
def Fits (d : ZramDevice) : Call → Prop
  | .writePage i data => i < d.config.maxPages → pageSize ≤ data.length →
      (d.pageTable.erase i).total PageEntry.memorySize + storedSize d.stream (data.take pageSize)
        ≤ d.config.effectiveMemLimit.toNat
  | _ => True

/-- A call that does not fit fails and leaves the table as it is. -/
def RejectsExcess (d : ZramDevice) (c : Call) : Prop :=
  ¬ d.Fits c → (∃ e, (d.call c).2.result = .err e) ∧ (d.call c).1.pageTable = d.pageTable

end ZramDevice

/-- The device respects its limit over the calls: every state is within it, and every call that
would exceed it is rejected. -/
def RespectsLimit (config : ZramConfig) (calls : List Call) : Prop :=
  (deviceMachine config).Always ZramDevice.WithinLimit calls ∧
  (deviceMachine config).EachStep ZramDevice.RejectsExcess calls

/-! ## One call -/

section Calls

variable {config : ZramConfig} {d : ZramDevice}

/-- The entry of a valid write has the size of its page. -/
theorem exists_store_of_valid {i : UInt64} {data : List UInt8} (hi : i < d.config.maxPages)
    (hlen : pageSize ≤ data.length) :
    ∃ entry stats, d.writePage i data = (d.store i entry stats, .ok ()) ∧
      entry.memorySize = ZramDevice.storedSize d.stream (data.take pageSize) := by
  unfold ZramDevice.writePage ZramDevice.storedSize
  rw [if_neg (by omega), if_neg (show ¬ i ≥ _ from UInt64.not_le.mpr hi)]
  simp only
  by_cases hzero : (data.take pageSize).all (· == 0) = true
  · rw [if_pos hzero, if_pos hzero]
    exact ⟨_, _, rfl, rfl⟩
  · rw [if_neg hzero, if_neg hzero]
    cases ZramDevice.checkSameFilled (data.take pageSize) with
    | some value => exact ⟨_, _, rfl, rfl⟩
    | none =>
        obtain ⟨y, hy⟩ := d.stream.exists_compress (data.take pageSize)
        simp only [hy, Option.isSome_none, Bool.false_eq_true, if_false]
        split_ifs
        · exact ⟨_, _, rfl, rfl⟩
        · exact ⟨_, _, rfl, rfl⟩

/-- A discarded page frees its memory. -/
theorem total_erase_le (t : PageTable) (i : UInt64) :
    (t.erase i).total PageEntry.memorySize ≤ t.total PageEntry.memorySize := by
  cases h : t.lookup i with
  | none => rw [AList.erase_of_lookup_none h]
  | some entry => exact Nat.le.intro (AList.total_erase _ h)

/-- **One call**: from a state within the limit, the next is within it exactly when the call fits. -/
theorem withinLimit_call (h : d.WF config) (hd : d.WithinLimit) (c : Call) :
    (d.call c).1.WithinLimit ↔ d.Fits c := by
  cases c with
  | readPage i buffer =>
      refine ⟨fun _ => trivial, fun _ => ?_⟩
      rcases d.readPage_frame i buffer with heq | heq
      · rw [ZramDevice.call, heq]
        exact hd
      · rw [ZramDevice.call, heq]
        exact hd
  | writePage i data =>
      by_cases hvalid : i < d.config.maxPages ∧ pageSize ≤ data.length
      · obtain ⟨entry, stats, hwrite, hsize⟩ := exists_store_of_valid hvalid.1 hvalid.2
        have hused : (d.store i entry stats).memoryUsed
            = (d.pageTable.erase i).total PageEntry.memorySize
              + ZramDevice.storedSize d.stream (data.take pageSize) := by
          calc (d.store i entry stats).memoryUsed
              = entry.memorySize + (d.pageTable.erase i).total PageEntry.memorySize :=
                AList.total_insert _
            _ = _ := by rw [hsize, Nat.add_comm]
        rw [ZramDevice.call, hwrite]
        show (d.store i entry stats).memoryUsed ≤ d.config.effectiveMemLimit.toNat ↔ _
        rw [hused]
        exact ⟨fun hle _ _ => hle, fun hle => hle hvalid.1 hvalid.2⟩
      · rw [ZramDevice.call, ZramDevice.writePage_of_invalid (ZramDevice.not_valid hvalid)]
        exact ⟨fun _ hi hlen => absurd ⟨hi, hlen⟩ hvalid, fun _ => hd⟩
  | discardPage i =>
      refine ⟨fun _ => trivial, fun _ => ?_⟩
      simp only [ZramDevice.call, ZramDevice.discardPage]
      split_ifs
      · exact hd
      · exact Nat.le_trans (total_erase_le d.pageTable i) hd
  | reset =>
      refine ⟨fun _ => trivial, fun _ => ?_⟩
      have hempty : d.reset.1.pageTable = ∅ := AList.eq_empty_of_lookup h.lookup_reset
      show d.reset.1.pageTable.total PageEntry.memorySize ≤ _
      rw [hempty, AList.total_empty]
      exact Nat.zero_le _

end Calls

/-! ## Whole runs -/

theorem always_withinLimit_iff (config : ZramConfig) (calls : List Call) :
    (deviceMachine config).Always ZramDevice.WithinLimit calls ↔
      (deviceMachine config).EachStep ZramDevice.Fits calls :=
  Machine.always_iff_eachStep _ (I := ZramDevice.WF config) (Nat.zero_le _)
    (deviceMachine_wf config) (fun _ c h hd => withinLimit_call h hd c) calls

/-- **When the device respects its memory limit.** Over any calls it does exactly if every page
that is written fits next to the pages stored under other indices. -/
theorem respectsLimit_iff (config : ZramConfig) (calls : List Call) :
    RespectsLimit config calls ↔ (deviceMachine config).EachStep ZramDevice.Fits calls := by
  constructor
  · rintro ⟨hwithin, -⟩
    exact (always_withinLimit_iff config calls).mp hwithin
  · intro hfits
    refine ⟨(always_withinLimit_iff config calls).mpr hfits, ?_⟩
    -- no call of the run would exceed the limit
    intro js c hpre hexcess
    exact absurd (hfits js c hpre) hexcess

/-- A device that may use no memory at all takes a page of ones. -/
theorem limit_exceeded :
    let write : Call := .writePage 0 (List.replicate pageSize 1)
    let d := (deviceMachine ⟨8192, .lz4, some 0⟩).run [write]
    d.memoryUsed = 1 ∧ d.config.effectiveMemLimit = 0 ∧
      ¬ RespectsLimit ⟨8192, .lz4, some 0⟩ [write] := by
  intro write d
  have hused : d.memoryUsed = 1 := by decide +kernel
  have hlimit : d.config.effectiveMemLimit = 0 := by decide +kernel
  refine ⟨hused, hlimit, fun h => ?_⟩
  have hd : d.memoryUsed ≤ d.config.effectiveMemLimit.toNat := h.1.run
  rw [hused, hlimit] at hd
  exact absurd hd (by decide)

end Pepita.Zram
