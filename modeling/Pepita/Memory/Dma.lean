import Pepita.Memory.Address

set_option autoImplicit false

/-! # DMA buffers

`DmaBuffer` of `memory.rs`. `page_count` rounds the size up to pages and does not look at the
address, so it counts a page too few when the buffer starts too late in its first page, and counts
none when the rounding wraps (`pageCount_eq_iff`).
-/

namespace Pepita.Memory

/-- `DmaBuffer`. -/
structure DmaBuffer where
  phys : PhysAddr
  virt : VirtAddr
  size : UInt64
  deriving DecidableEq, Repr

namespace DmaBuffer

/-- `is_valid`. -/
def isValid (b : DmaBuffer) : Bool := !b.phys.isNull && !b.virt.isNull && decide (b.size > 0)

/-- `page_count`. -/
def pageCount (b : DmaBuffer) : UInt64 := (b.size + pageSize - 1) / pageSize

/-- The page frames of the addresses of the buffer. -/
def frames (b : DmaBuffer) : Set Pfn :=
  {p | ∃ x : PhysAddr, b.phys.asU64.toNat ≤ x.asU64.toNat ∧
    x.asU64.toNat < b.phys.asU64.toNat + b.size.toNat ∧ Pfn.fromAddr x = p}

/-- The frames as numbers are the blocks that the buffer meets. -/
theorem ncard_frames (b : DmaBuffer)
    (hend : b.phys.asU64.toNat + b.size.toNat ≤ 2 ^ 64) :
    b.frames.ncard = ((fun x => x / 4096) '' Set.Ico b.phys.asU64.toNat
      (b.phys.asU64.toNat + b.size.toNat)).ncard := by
  have hinj : Function.Injective fun p : Pfn => p.asU64.toNat := fun _ _ h =>
    congrArg Pfn.mk (UInt64.toNat_inj.mp h)
  rw [← Set.ncard_image_of_injective b.frames hinj]
  congr 1
  ext q
  constructor
  · rintro ⟨p, ⟨x, hlo, hhi, rfl⟩, rfl⟩
    exact ⟨x.asU64.toNat, ⟨hlo, hhi⟩, (Pfn.toNat_fromAddr x).symm⟩
  · rintro ⟨x, ⟨hlo, hhi⟩, rfl⟩
    have hx : (UInt64.ofNat x).toNat = x := UInt64.toNat_ofNat_of_lt' (hhi.trans_le hend)
    refine ⟨Pfn.fromAddr ⟨UInt64.ofNat x⟩, ⟨⟨UInt64.ofNat x⟩, ?_, ?_, rfl⟩, ?_⟩
    · rwa [hx]
    · rwa [hx]
    · exact (Pfn.toNat_fromAddr _).trans (by rw [hx])

theorem toNat_pageCount (b : DmaBuffer) :
    b.pageCount.toNat = (b.size.toNat + 4095) % 2 ^ 64 / 4096 := by
  rw [pageCount, UInt64.toNat_div, toNat_add_pageSize_sub_one]
  rfl

/-- **When `page_count` counts the pages of the buffer**, for a valid buffer that does not go beyond
the address space. -/
theorem pageCount_eq_iff (b : DmaBuffer) (hvalid : b.isValid = true)
    (hend : b.phys.asU64.toNat + b.size.toNat ≤ 2 ^ 64) :
    b.pageCount.toNat = b.frames.ncard ↔
      b.size.toNat ≤ 2 ^ 64 - 4096 ∧
        b.phys.pageOffset.toNat + (b.size.toNat - 1) % 4096 < 4096 := by
  have hsize : 0 < b.size.toNat := by
    simp only [isValid, Bool.and_eq_true, decide_eq_true_eq] at hvalid
    exact UInt64.lt_iff_toNat_lt.mp hvalid.2
  have hlt := b.size.toNat_lt
  have hoffset : b.phys.pageOffset.toNat = b.phys.asU64.toNat % 4096 := toNat_pageOffset _
  rw [hoffset, toNat_pageCount, ncard_frames b hend]
  by_cases hwrap : b.size.toNat ≤ 2 ^ 64 - 4096
  · have hiff := Blocks.ncard_blocks_eq_iff (p := 4096) (by decide) b.phys.asU64.toNat hsize
    rw [Nat.mod_eq_of_lt (by omega), eq_comm]
    exact hiff.trans (iff_and_self.mpr fun _ => hwrap)
  · -- the rounding has wrapped, and no page is counted
    rw [Blocks.ncard_blocks (by decide) _ hsize]
    omega

/-- Half a page from the middle of a page on is counted right. -/
theorem pageCount_eq_iff_half :
    let b : DmaBuffer := ⟨⟨0x1800⟩, ⟨0x1000⟩, 2048⟩
    b.pageCount.toNat = b.frames.ncard := by
  intro b
  exact (pageCount_eq_iff b (by decide) (by decide)).mpr (by decide)

/-- A page from the middle of a page on meets two frames and is counted as one page; and for all
addresses but the null address no page is counted. -/
theorem pageCount_too_few :
    let b : DmaBuffer := ⟨⟨0x1800⟩, ⟨0x1000⟩, 4096⟩
    let whole : DmaBuffer := ⟨⟨1⟩, ⟨0x1000⟩, UInt64.ofNat (2 ^ 64 - 1)⟩
    (b.isValid = true ∧ b.phys.asU64.toNat + b.size.toNat ≤ 2 ^ 64 ∧
      b.pageCount = 1 ∧ b.frames.ncard = 2) ∧
    whole.isValid = true ∧ whole.phys.asU64.toNat + whole.size.toNat ≤ 2 ^ 64 ∧
      whole.pageCount = 0 ∧ whole.frames.ncard = 2 ^ 52 := by
  intro b whole
  have hb : b.frames.ncard = 2 := by
    rw [ncard_frames b (by decide), Blocks.ncard_blocks (by decide) _ (by decide)]
    decide
  have hwhole : whole.frames.ncard = 2 ^ 52 := by
    rw [ncard_frames whole (by decide), Blocks.ncard_blocks (by decide) _ (by decide)]
    decide
  exact ⟨⟨by decide, by decide, by decide, hb⟩, by decide, by decide, by decide, hwhole⟩

end DmaBuffer

end Pepita.Memory
