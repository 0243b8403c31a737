import Pepita.Zram.Device

set_option autoImplicit false

/-! # The device as an array of pages

What the device is for: an array in which every index has a page or nothing (`arrayMachine`). The
device simulates it (`device_simulates_array`): whichever of its five forms an entry has, reading
it gives the page that was written.
-/

namespace Pepita.Zram

open Lz77

/-! ## The abstract device -/

/-- The contents of a page. -/
abbrev Page : Type := { p : List UInt8 // p.length = pageSize }

/-- The page of all zeros. -/
def Page.zero : Page := ⟨List.replicate pageSize 0, List.length_replicate⟩

/-- The first page of some data. -/
def Page.ofData (data : List UInt8) (h : pageSize ≤ data.length) : Page :=
  ⟨data.take pageSize, by rw [List.length_take]; omega⟩

/-- One call on an array of pages. -/
def arrayStep (config : ZramConfig) (a : UInt64 → Option Page) :
    Call → (UInt64 → Option Page) × Reply
  | .readPage i buffer =>
      if i < config.maxPages ∧ pageSize ≤ buffer.length then
        (a, ⟨.ok (), ((a i).getD .zero).1 ++ buffer.drop pageSize⟩)
      else (a, ⟨.err .invalidArgument, buffer⟩)
  | .writePage i data =>
      if h : i < config.maxPages ∧ pageSize ≤ data.length then
        (Function.update a i (some (.ofData data h.2)), ⟨.ok (), []⟩)
      else (a, ⟨.err .invalidArgument, []⟩)
  | .discardPage i =>
      if i < config.maxPages then (Function.update a i none, ⟨.ok (), []⟩)
      else (a, ⟨.err .invalidArgument, []⟩)
  | .reset => (fun _ => none, ⟨.ok (), []⟩)

/-- An array of pages in use. -/
def arrayMachine (config : ZramConfig) : Machine (UInt64 → Option Page) Call Reply where
  init := fun _ => none
  step := arrayStep config

/-! ## Entries that hold a page -/

/-- Reading the entry gives the page, in every buffer of at least a page. -/
def Holds (stream : CompressionStream) (entry : PageEntry) (p : Page) : Prop :=
  ∀ buffer : List UInt8, pageSize ≤ buffer.length →
    readEntry stream entry buffer = (.ok (), p.1 ++ buffer.drop pageSize)

theorem fill_page {buffer : List UInt8} (h : pageSize ≤ buffer.length) (value : UInt8) :
    fill buffer 0 pageSize value
      = some (List.replicate pageSize value ++ buffer.drop pageSize) := by
  unfold fill
  rw [copyInto_of_le (Nat.zero_le _) h (by simp), List.take_zero, List.nil_append, Nat.sub_zero]

theorem holds_empty (stream : CompressionStream) : Holds stream .empty .zero := by
  intro buffer hb
  simp only [readEntry, fill_page hb, written]
  rfl

theorem holds_same (stream : CompressionStream) {p : Page} {value : UInt8}
    (h : p.1 = List.replicate pageSize value) : Holds stream (.same value) p := by
  intro buffer hb
  simp only [readEntry, fill_page hb, written, h]

theorem holds_uncompressed (stream : CompressionStream) (p : Page) :
    Holds stream (.uncompressed p.1) p := by
  intro buffer hb
  have hp := p.2
  simp only [readEntry, hp, Nat.min_self]
  rw [slice_of_le (Nat.zero_le _) (by omega), List.drop_zero, Nat.sub_zero,
    List.take_of_length_le (by omega), Option.bind_some,
    copyInto_of_le (Nat.zero_le _) hb (by omega), Option.bind_some, if_neg (Nat.lt_irrefl _),
    List.take_zero, List.nil_append]
  rfl

/-- A compressed entry that is shorter than the page is a block of it: the raw fallback of
`compress_lz4` has the length of a page. -/
theorem holds_compressed {stream : CompressionStream} {p : Page} {y : List UInt8}
    (h : stream.compress p.1 = .ok y) (hlt : y.length < pageSize) :
    Holds stream (.compressed y) p := by
  obtain ⟨compressor⟩ := stream
  have hp := p.2
  cases compressor with
  | none =>
      -- without compression nothing gets shorter
      have heq : p.1 = y := Outcome.ok.inj h
      rw [← heq] at hlt
      omega
  | lz4 =>
      intro buffer hb
      have hbuf : (buffer.take pageSize).length = pageSize := by
        rw [List.length_take]
        omega
      have hsize : pageSize < 2 ^ 64 := by decide
      have hdec := decompressLz4_of_compressLz4 (b := buffer.take pageSize) h (by omega)
        (by omega) (by omega)
      simp only [readEntry, CompressionStream.decompress, hdec]
      rw [hp, if_neg (by simp), List.drop_of_length_le (by omega), List.append_nil]

theorem Stored.holds {d : ZramDevice} {p : Page} {entry : PageEntry} {stats : AtomicStats}
    (h : Stored d p.1 entry stats) : Holds d.stream entry p := by
  cases h with
  | zero hp => exact fun buffer hb => by simp only [readEntry, fill_page hb, written, hp]
  | same hp _ => exact holds_same _ hp
  | huge _ => exact holds_uncompressed _ p
  | compressed _ hy hlt => exact holds_compressed hy (Nat.lt_of_lt_of_le hlt (Nat.sub_le _ _))

/-! ## Simulation -/

/-- The device holds the array `a`. -/
structure Represents (config : ZramConfig) (d : ZramDevice) (a : UInt64 → Option Page) : Prop where
  wf : d.WF config
  entry_holds : ∀ i, Option.Rel (Holds d.stream) (d.pageTable.lookup i) (a i)

theorem Represents.new (config : ZramConfig) :
    Represents config (.new config) (fun _ => none) :=
  ⟨.new config, fun _ => .none⟩

section Steps

variable {config : ZramConfig} {d : ZramDevice} {a : UInt64 → Option Page}

/-- A stored entry, or the empty one, reads as the page of the array. -/
theorem Represents.get (h : Represents config d a) (i : UInt64) :
    Holds d.stream (d.pageTable.get i) ((a i).getD .zero) := by
  have hrel := h.entry_holds i
  -- a page without an entry is read as `Empty`
  unfold PageTable.get
  generalize d.pageTable.lookup i = entry at hrel ⊢
  generalize a i = p at hrel ⊢
  cases hrel with
  | none => exact holds_empty _
  | some hp => exact hp

theorem Represents.insert (h : Represents config d a) {i : UInt64} {entry : PageEntry} {p : Page}
    (hp : Holds d.stream entry p) (j : UInt64) :
    Option.Rel (Holds d.stream) ((d.pageTable.insert i entry).lookup j)
      (Function.update a i (some p) j) := by
  by_cases hji : j = i
  · rw [hji, AList.lookup_insert, Function.update_self]
    exact .some hp
  · rw [AList.lookup_insert_ne hji, Function.update_of_ne hji]
    exact h.entry_holds j

theorem Represents.erase (h : Represents config d a) (i j : UInt64) :
    Option.Rel (Holds d.stream) ((d.pageTable.erase i).lookup j) (Function.update a i none j) := by
  by_cases hji : j = i
  · rw [hji, AList.lookup_erase, Function.update_self]
    exact .none
  · rw [AList.lookup_erase_ne hji, Function.update_of_ne hji]
    exact h.entry_holds j

/-! ## One call -/

theorem Represents.readPage (h : Represents config d a) (i : UInt64) (buffer : List UInt8) :
    Represents config (d.call (.readPage i buffer)).1 (arrayStep config a (.readPage i buffer)).1 ∧
    (d.call (.readPage i buffer)).2 = (arrayStep config a (.readPage i buffer)).2 := by
  simp only [ZramDevice.call, ZramDevice.readPage, arrayStep]
  by_cases hlen : pageSize ≤ buffer.length
  · by_cases hi : i < config.maxPages
    · have hin : ¬ i ≥ d.config.maxPages := by
        rw [h.wf.config_eq]
        exact UInt64.not_le.mpr hi
      rw [if_neg (by omega), if_neg hin, if_pos ⟨hi, hlen⟩, h.get i buffer hlen]
      exact ⟨⟨⟨h.wf.config_eq, h.wf.index_lt, h.wf.memorySize_le⟩, h.entry_holds⟩, rfl⟩
    · have hout : i ≥ d.config.maxPages := by
        rw [h.wf.config_eq]
        exact UInt64.not_lt.mp hi
      rw [if_neg (by omega), if_pos hout, if_neg (by tauto)]
      exact ⟨h, rfl⟩
  · rw [if_pos (by omega), if_neg (by tauto)]
    exact ⟨h, rfl⟩

theorem Represents.writePage (h : Represents config d a) (i : UInt64) (data : List UInt8) :
    Represents config (d.call (.writePage i data)).1 (arrayStep config a (.writePage i data)).1 ∧
    (d.call (.writePage i data)).2 = (arrayStep config a (.writePage i data)).2 := by
  have hwf := h.wf.call (.writePage i data)
  simp only [ZramDevice.call, arrayStep] at hwf ⊢
  split_ifs with hvalid
  · obtain ⟨entry, stats, hwrite, hstored⟩ :=
      ZramDevice.writePage_of_valid (d := d) hvalid.2 (by rw [h.wf.config_eq]; exact hvalid.1)
    rw [hwrite] at hwf ⊢
    exact ⟨⟨hwf, h.insert (Stored.holds (p := .ofData data hvalid.2) hstored)⟩, rfl⟩
  · rw [ZramDevice.writePage_of_invalid
      (by rw [h.wf.config_eq]; exact ZramDevice.not_valid hvalid)]
    exact ⟨h, rfl⟩

theorem Represents.discardPage (h : Represents config d a) (i : UInt64) :
    Represents config (d.call (.discardPage i)).1 (arrayStep config a (.discardPage i)).1 ∧
    (d.call (.discardPage i)).2 = (arrayStep config a (.discardPage i)).2 := by
  simp only [ZramDevice.call, ZramDevice.discardPage, arrayStep]
  by_cases hi : i < config.maxPages
  · have hin : ¬ i ≥ d.config.maxPages := by
      rw [h.wf.config_eq]
      exact UInt64.not_le.mpr hi
    rw [if_neg hin, if_pos hi]
    exact ⟨⟨h.wf.erase i, h.erase i⟩, rfl⟩
  · have hout : i ≥ d.config.maxPages := by
      rw [h.wf.config_eq]
      exact UInt64.not_lt.mp hi
    rw [if_pos hout, if_neg hi]
    exact ⟨h, rfl⟩

end Steps

/-- **The device simulates an array of pages**: over any calls it gives the replies the array
gives. -/
theorem device_simulates_array (config : ZramConfig) :
    Machine.Simulation (deviceMachine config) (arrayMachine config) (Represents config) where
  init := Represents.new config
  step := by
    intro d a c h
    cases c with
    | readPage i buffer => exact h.readPage i buffer
    | writePage i data => exact h.writePage i data
    | discardPage i => exact h.discardPage i
    | reset =>
        refine ⟨⟨h.wf.reset, fun i => ?_⟩, rfl⟩
        show Option.Rel _ (d.reset.1.pageTable.lookup i) none
        rw [h.wf.lookup_reset]
        exact .none

/-! ## Reading the history -/

/-- What page `i` holds after a history: the first page of the data of the last successful
`write_page` to it that no `discard_page` of it and no `reset` follows. -/
def lastPage (i : UInt64) (tr : List (Call × Reply)) : Option (List UInt8) :=
  tr.foldl (fun acc e =>
    match e.1 with
    | .readPage _ _ => acc
    | .writePage j data => if j = i ∧ e.2.result = .ok () then some (data.take pageSize) else acc
    | .discardPage j => if j = i then none else acc
    | .reset => none) none

/-- A call that names a page outside the device or comes with less than a page. -/
def Invalid (config : ZramConfig) : Call → Prop
  | .readPage i buffer => i ≥ config.maxPages ∨ buffer.length < pageSize
  | .writePage i data => i ≥ config.maxPages ∨ data.length < pageSize
  | .discardPage i => i ≥ config.maxPages
  | .reset => False

theorem lastPage_snoc (i : UInt64) (tr : List (Call × Reply)) (e : Call × Reply) :
    lastPage i (tr ++ [e]) =
      match e.1 with
      | .readPage _ _ => lastPage i tr
      | .writePage j data =>
          if j = i ∧ e.2.result = .ok () then some (data.take pageSize) else lastPage i tr
      | .discardPage j => if j = i then none else lastPage i tr
      | .reset => none := by
  unfold lastPage
  rw [List.foldl_append]
  rfl

theorem Represents.isSome_lookup {config : ZramConfig} {d : ZramDevice}
    {a : UInt64 → Option Page} (h : Represents config d a) (i : UInt64) :
    (d.pageTable.lookup i).isSome = (a i).isSome := by
  have hrel := h.entry_holds i
  generalize d.pageTable.lookup i = entry at hrel ⊢
  generalize a i = p at hrel ⊢
  cases hrel with
  | none => rfl
  | some hp => rfl

theorem Represents.call_of_invalid {config : ZramConfig} {d : ZramDevice}
    {a : UInt64 → Option Page} (h : Represents config d a) {c : Call} (hc : Invalid config c) :
    (d.call c).2.result = .err .invalidArgument ∧ (d.call c).1 = d := by
  rw [← h.wf.config_eq] at hc
  cases c with
  | readPage i buffer =>
      simp only [ZramDevice.call, ZramDevice.readPage]
      by_cases hlen : buffer.length < pageSize
      · rw [if_pos hlen]
        exact ⟨rfl, rfl⟩
      · rw [if_neg hlen, if_pos (hc.resolve_right hlen)]
        exact ⟨rfl, rfl⟩
  | writePage i data =>
      have hcall : d.call (.writePage i data) = (d, ⟨.err .invalidArgument, []⟩) := by
        rw [ZramDevice.call, ZramDevice.writePage_of_invalid hc]
      rw [hcall]
      exact ⟨rfl, rfl⟩
  | discardPage i =>
      have hcall : d.call (.discardPage i) = (d, ⟨.err .invalidArgument, []⟩) := by
        rw [ZramDevice.call, ZramDevice.discardPage, if_pos (show i ≥ _ from hc)]
      rw [hcall]
      exact ⟨rfl, rfl⟩
  | reset => exact hc.elim

theorem arrayStep_of_valid {config : ZramConfig} (a : UInt64 → Option Page) {c : Call}
    (hc : ¬ Invalid config c) : (arrayStep config a c).2.result = .ok () := by
  cases c with
  | readPage i buffer =>
      simp only [Invalid, not_or, Nat.not_lt] at hc
      rw [arrayStep, if_pos ⟨UInt64.not_le.mp hc.1, hc.2⟩]
  | writePage i data =>
      simp only [Invalid, not_or, Nat.not_lt] at hc
      rw [arrayStep, dif_pos ⟨UInt64.not_le.mp hc.1, hc.2⟩]
  | discardPage i => rw [arrayStep, if_pos (UInt64.not_le.mp hc)]
  | reset => rfl

/-- The array holds what the history says, and nothing outside the device. -/
def ArrayAgrees (config : ZramConfig) (tr : List (Call × Reply)) (a : UInt64 → Option Page) :
    Prop :=
  ∀ i, (a i).map Subtype.val = lastPage i tr ∧ (i ≥ config.maxPages → a i = none)

theorem ArrayAgrees.step {config : ZramConfig} {tr : List (Call × Reply)}
    {a : UInt64 → Option Page} (h : ArrayAgrees config tr a) (c : Call) :
    ArrayAgrees config (tr ++ [(c, (arrayStep config a c).2)]) (arrayStep config a c).1 := by
  intro i
  rw [lastPage_snoc]
  cases c with
  | readPage j buffer =>
      rw [arrayStep]
      split_ifs
      · exact h i
      · exact h i
  | writePage j data =>
      rw [arrayStep]
      split_ifs with hvalid
      · by_cases hij : j = i
        · simp only [hij, Function.update_self, Option.map_some, true_and, if_true]
          exact ⟨rfl, fun hi => absurd (hij ▸ hvalid.1) (UInt64.not_lt.mpr hi)⟩
        · simp only [Function.update_of_ne (Ne.symm hij), hij, false_and, if_false]
          exact h i
      · simp only [and_false, if_false]
        exact h i
  | discardPage j =>
      rw [arrayStep]
      split_ifs with hj
      · by_cases hij : j = i
        · simp [hij]
        · simp only [Function.update_of_ne (Ne.symm hij), hij, if_false]
          exact h i
      · by_cases hij : j = i
        · -- an index the device does not have was never written
          have hnone := (h i).2 (hij ▸ UInt64.not_lt.mp hj)
          simp [hij, hnone]
        · simp only [hij, if_false]
          exact h i
  | reset => exact ⟨rfl, fun _ => rfl⟩

/-- **The device is an array of pages.** After any calls on a fresh device, with either compressor:
a valid `read_page` gives the page last written, or zeros, and leaves the rest of the buffer; an
invalid call is answered by `InvalidArgument` and changes nothing; a valid one succeeds; and
`stored_pages` counts the pages that are written and neither discarded nor reset. -/
theorem device_acts_as_pages (config : ZramConfig) (calls : List Call) :
    let tr := (deviceMachine config).trace calls
    let d := (deviceMachine config).run calls
    (∀ i buffer, i < config.maxPages → pageSize ≤ buffer.length →
      (d.call (.readPage i buffer)).2
        = ⟨.ok (), (lastPage i tr).getD (List.replicate pageSize 0) ++ buffer.drop pageSize⟩) ∧
    (∀ c, Invalid config c → (d.call c).2.result = .err .invalidArgument ∧ (d.call c).1 = d) ∧
    (∀ c, ¬ Invalid config c → (d.call c).2.result = .ok ()) ∧
    d.storedPages = {i | (lastPage i tr).isSome}.ncard := by
  intro tr d
  have hsim := device_simulates_array config
  have hrep : Represents config d ((arrayMachine config).run calls) := hsim.run_rel calls
  have hagree : ArrayAgrees config tr ((arrayMachine config).run calls) := by
    have htr : tr = (arrayMachine config).trace calls := hsim.trace_eq calls
    rw [htr]
    exact Machine.run_history _ (fun _ => ⟨rfl, fun _ => rfl⟩) (fun tr a c h => h.step c) calls
  -- the rest is about one device that holds one array
  generalize (arrayMachine config).run calls = a at hrep hagree
  refine ⟨?_, ?_, ?_, ?_⟩
  · intro i buffer hi hlen
    rw [(hrep.readPage i buffer).2, arrayStep, if_pos ⟨hi, hlen⟩, ← (hagree i).1]
    cases a i with
    | none => rfl
    | some p => rfl
  · intro c hc
    exact hrep.call_of_invalid hc
  · intro c hc
    have hstep := (hsim.step d a c hrep).2
    have hreply : (d.call c).2 = (arrayStep config a c).2 := hstep
    rw [hreply]
    exact arrayStep_of_valid a hc
  · rw [ZramDevice.storedPages, AList.size_eq_ncard]
    congr 1
    ext i
    show (d.pageTable.lookup i).isSome ↔ (lastPage i tr).isSome
    rw [← (hagree i).1, Option.isSome_map, hrep.isSome_lookup]

end Pepita.Zram
