import Pepita.Lib.Blocks

set_option autoImplicit false

/-! # Addresses and page frames

`PhysAddr`, `VirtAddr` and `Pfn` of `memory.rs`: newtypes of a 64-bit word, with masks and shifts
for the page arithmetic. The functions of the two kinds of address are the same; they are written
once for words and then given to each kind.

Additions wrap, as in a release build. So rounding up is exact unless the next page boundary is
2^64, which is no address, and a frame number is recovered from its address if it has one
(`page_arithmetic`).
-/

namespace Pepita.Memory

/-! ## Words -/

/-- `PAGE_SIZE`, as a word. -/
def pageSize : UInt64 := 4096

/-- `PAGE_SHIFT`. -/
def pageShift : UInt64 := 12

/-- `PAGE_MASK`. -/
def pageMask : UInt64 := ~~~(pageSize - 1)

/-- `is_page_aligned`. -/
def isPageAligned (addr : UInt64) : Bool := addr &&& (pageSize - 1) == 0

/-- `page_align_down`. -/
def pageAlignDown (addr : UInt64) : UInt64 := addr &&& pageMask

/-- `page_align_up`. -/
def pageAlignUp (addr : UInt64) : UInt64 := (addr + pageSize - 1) &&& pageMask

/-- `page_offset`. -/
def pageOffset (addr : UInt64) : UInt64 := addr &&& (pageSize - 1)

/-! ## Newtypes -/

/-- `PhysAddr`. -/
structure PhysAddr where
  asU64 : UInt64
  deriving DecidableEq, Repr

namespace PhysAddr

def isNull (a : PhysAddr) : Bool := a.asU64 == 0

def isPageAligned (a : PhysAddr) : Bool := Memory.isPageAligned a.asU64

def pageAlignDown (a : PhysAddr) : PhysAddr := ⟨Memory.pageAlignDown a.asU64⟩

def pageAlignUp (a : PhysAddr) : PhysAddr := ⟨Memory.pageAlignUp a.asU64⟩

def pageOffset (a : PhysAddr) : UInt64 := Memory.pageOffset a.asU64

end PhysAddr

/-- `VirtAddr`. -/
structure VirtAddr where
  asU64 : UInt64
  deriving DecidableEq, Repr

namespace VirtAddr

def isNull (a : VirtAddr) : Bool := a.asU64 == 0

def isPageAligned (a : VirtAddr) : Bool := Memory.isPageAligned a.asU64

def pageAlignDown (a : VirtAddr) : VirtAddr := ⟨Memory.pageAlignDown a.asU64⟩

def pageAlignUp (a : VirtAddr) : VirtAddr := ⟨Memory.pageAlignUp a.asU64⟩

def pageOffset (a : VirtAddr) : UInt64 := Memory.pageOffset a.asU64

end VirtAddr

/-- `Pfn`, a page frame number. -/
structure Pfn where
  asU64 : UInt64
  deriving DecidableEq, Repr

namespace Pfn

/-- `from_addr`. -/
def fromAddr (a : PhysAddr) : Pfn := ⟨a.asU64 >>> pageShift⟩

/-- `to_addr`. -/
def toAddr (p : Pfn) : PhysAddr := ⟨p.asU64 <<< pageShift⟩

end Pfn

/-! ## The words as numbers -/

section Words

variable (addr : UInt64)

theorem toNat_pageOffset : (pageOffset addr).toNat = addr.toNat % 4096 := by
  unfold pageOffset
  rw [UInt64.toNat_and]
  exact Nat.and_two_pow_sub_one_eq_mod addr.toNat 12

theorem isPageAligned_iff : isPageAligned addr = true ↔ 4096 ∣ addr.toNat := by
  have hoffset : isPageAligned addr = true ↔ (pageOffset addr).toNat = 0 := by
    rw [isPageAligned, beq_iff_eq, ← UInt64.toNat_inj]
    rfl
  rw [hoffset, toNat_pageOffset, Nat.dvd_iff_mod_eq_zero]

/-- The mask clears the bits that shifting out and back in loses. -/
theorem pageAlignDown_eq_shift : pageAlignDown addr = addr >>> pageShift <<< pageShift := by
  have hmask : pageMask.toBitVec = BitVec.allOnes 64 <<< 12 := by decide
  apply UInt64.toBitVec_inj.mp
  change addr.toBitVec &&& pageMask.toBitVec = addr.toBitVec >>> 12 <<< 12
  rw [hmask]
  ext i hi
  rw [BitVec.getElem_and, BitVec.getElem_shiftLeft, BitVec.getElem_shiftLeft,
    BitVec.getElem_allOnes, BitVec.getElem_ushiftRight]
  by_cases h : i < 12
  · simp [h]
  · have hback : 12 + (i - 12) = i := by omega
    simp [h, hback, BitVec.getLsbD_eq_getElem hi]

theorem toNat_pageAlignDown : (pageAlignDown addr).toNat = addr.toNat / 4096 * 4096 := by
  have hlt := addr.toNat_lt
  rw [pageAlignDown_eq_shift, UInt64.toNat_shiftLeft, UInt64.toNat_shiftRight]
  change addr.toNat >>> 12 <<< 12 % 2 ^ 64 = _
  rw [Nat.shiftRight_eq_div_pow, Nat.shiftLeft_eq]
  omega

theorem toNat_add_pageSize_sub_one :
    (addr + pageSize - 1).toNat = (addr.toNat + 4095) % 2 ^ 64 := by
  rw [UInt64.toNat_sub, UInt64.toNat_add]
  change (2 ^ 64 - 1 + (addr.toNat + 4096) % 2 ^ 64) % 2 ^ 64 = _
  omega

/-- Rounding up wraps to zero behind the last page boundary. -/
theorem toNat_pageAlignUp :
    (pageAlignUp addr).toNat = (addr.toNat + 4095) / 4096 * 4096 % 2 ^ 64 := by
  have hlt := addr.toNat_lt
  change (pageAlignDown (addr + pageSize - 1)).toNat = _
  rw [toNat_pageAlignDown, toNat_add_pageSize_sub_one]
  omega

end Words

/-! ## The laws -/

/-- `derive(Ord)`. -/
instance : LinearOrder PhysAddr :=
  LinearOrder.lift' (fun a => a.asU64.toNat) fun _ _ h =>
    congrArg PhysAddr.mk (UInt64.toNat_inj.mp h)

/-- `derive(Ord)`. -/
instance : LinearOrder VirtAddr :=
  LinearOrder.lift' (fun a => a.asU64.toNat) fun _ _ h =>
    congrArg VirtAddr.mk (UInt64.toNat_inj.mp h)

/-- What the page arithmetic of a kind of address `A` does. Rounding up goes wrong behind the last
page boundary only, where there is nothing to round up to. -/
structure PageArithmetic (A : Type) [LinearOrder A] (asU64 : A → UInt64)
    (isPageAligned : A → Bool) (pageAlignDown pageAlignUp : A → A) (pageOffset : A → UInt64) :
    Prop where
  aligned_iff : ∀ a, isPageAligned a = true ↔ 4096 ∣ (asU64 a).toNat
  down_greatest : ∀ a, IsGreatest {x | isPageAligned x = true ∧ x ≤ a} (pageAlignDown a)
  down_add_offset : ∀ a,
    (asU64 a).toNat = (asU64 (pageAlignDown a)).toNat + (pageOffset a).toNat
  down_idem : ∀ a, pageAlignDown (pageAlignDown a) = pageAlignDown a
  down_mono : Monotone pageAlignDown
  up_aligned : ∀ a, isPageAligned (pageAlignUp a) = true
  up_lt : ∀ a, (asU64 (pageAlignUp a)).toNat < (asU64 a).toNat + 4096
  le_up_iff : ∀ a, a ≤ pageAlignUp a ↔ (asU64 a).toNat ≤ 2 ^ 64 - 4096
  up_eq_iff : ∀ a, pageAlignUp a = a ↔ isPageAligned a = true
  up_idem : ∀ a, pageAlignUp (pageAlignUp a) = pageAlignUp a
  up_mono_iff : ∀ a b, a ≤ b → (pageAlignUp a ≤ pageAlignUp b ↔
    (asU64 b).toNat ≤ 2 ^ 64 - 4096 ∨ (asU64 a).toNat = 0 ∨ 2 ^ 64 - 4096 < (asU64 a).toNat)

/-- The laws for a kind of address whose functions are those of the words. -/
theorem PageArithmetic.of_words {A : Type} [LinearOrder A] {asU64 : A → UInt64}
    {isPageAligned : A → Bool} {pageAlignDown pageAlignUp : A → A} {pageOffset : A → UInt64}
    (hle : ∀ a b, a ≤ b ↔ (asU64 a).toNat ≤ (asU64 b).toNat)
    (haligned : ∀ a, isPageAligned a = Memory.isPageAligned (asU64 a))
    (hdown : ∀ a, asU64 (pageAlignDown a) = Memory.pageAlignDown (asU64 a))
    (hup : ∀ a, asU64 (pageAlignUp a) = Memory.pageAlignUp (asU64 a))
    (hoffset : ∀ a, pageOffset a = Memory.pageOffset (asU64 a)) :
    PageArithmetic A asU64 isPageAligned pageAlignDown pageAlignUp pageOffset := by
  have heq : ∀ a b, a = b ↔ (asU64 a).toNat = (asU64 b).toNat := fun a b => by
    rw [le_antisymm_iff, hle, hle, ← le_antisymm_iff]
  have hlt : ∀ a, (asU64 a).toNat < 2 ^ 64 := fun a => (asU64 a).toNat_lt
  constructor
  case aligned_iff =>
    intro a
    rw [haligned, isPageAligned_iff]
  case down_greatest =>
    intro a
    have hfloor := Blocks.isGreatest_floor (p := 4096) (by decide) (asU64 a).toNat
    rw [← toNat_pageAlignDown, ← hdown] at hfloor
    refine ⟨⟨?_, (hle _ _).mpr hfloor.1.2⟩, ?_⟩
    · rw [haligned, isPageAligned_iff]
      exact hfloor.1.1
    · rintro x ⟨hx, hxa⟩
      rw [haligned, isPageAligned_iff] at hx
      exact (hle _ _).mpr (hfloor.2 ⟨hx, (hle _ _).mp hxa⟩)
  case down_add_offset =>
    intro a
    rw [hdown, hoffset, toNat_pageAlignDown, toNat_pageOffset]
    exact (Nat.div_add_mod' _ _).symm
  case down_idem =>
    intro a
    rw [heq, hdown, hdown, toNat_pageAlignDown, toNat_pageAlignDown]
    omega
  case down_mono =>
    intro a b hab
    rw [hle, hdown, hdown, toNat_pageAlignDown, toNat_pageAlignDown]
    exact Nat.mul_le_mul_right _ (Nat.div_le_div_right ((hle a b).mp hab))
  case up_aligned =>
    intro a
    rw [haligned, isPageAligned_iff, hup, toNat_pageAlignUp]
    omega
  case up_lt =>
    intro a
    rw [hup, toNat_pageAlignUp]
    omega
  case le_up_iff =>
    intro a
    have := hlt a
    rw [hle, hup, toNat_pageAlignUp]
    omega
  case up_eq_iff =>
    intro a
    have := hlt a
    rw [heq, haligned, isPageAligned_iff, hup, toNat_pageAlignUp]
    omega
  case up_idem =>
    intro a
    have := hlt a
    rw [heq, hup, hup, toNat_pageAlignUp, toNat_pageAlignUp]
    omega
  case up_mono_iff =>
    intro a b hab
    have := hlt b
    rw [hle] at hab ⊢
    rw [hup, hup, toNat_pageAlignUp, toNat_pageAlignUp]
    omega

namespace Pfn

theorem toNat_fromAddr (a : PhysAddr) : (fromAddr a).asU64.toNat = a.asU64.toNat / 4096 := by
  change (a.asU64 >>> pageShift).toNat = _
  rw [UInt64.toNat_shiftRight, Nat.shiftRight_eq_div_pow]
  rfl

theorem toNat_toAddr (p : Pfn) : p.toAddr.asU64.toNat = p.asU64.toNat * 4096 % 2 ^ 64 := by
  change (p.asU64 <<< pageShift).toNat = _
  rw [UInt64.toNat_shiftLeft, Nat.shiftLeft_eq]
  rfl

/-- The frames that have an address are those below 2^52. -/
theorem fromAddr_toAddr_iff (p : Pfn) : fromAddr p.toAddr = p ↔ p.asU64.toNat < 2 ^ 52 := by
  have hlt := p.asU64.toNat_lt
  have heq : fromAddr p.toAddr = p ↔ (fromAddr p.toAddr).asU64.toNat = p.asU64.toNat :=
    ⟨fun h => by rw [h], fun h => congrArg mk (UInt64.toNat_inj.mp h)⟩
  rw [heq, toNat_fromAddr, toNat_toAddr]
  omega

end Pfn

/-- **Page arithmetic on the whole address space**, for physical and for virtual addresses, and for
page frames. -/
theorem page_arithmetic :
    PageArithmetic PhysAddr PhysAddr.asU64 PhysAddr.isPageAligned PhysAddr.pageAlignDown
      PhysAddr.pageAlignUp PhysAddr.pageOffset ∧
    PageArithmetic VirtAddr VirtAddr.asU64 VirtAddr.isPageAligned VirtAddr.pageAlignDown
      VirtAddr.pageAlignUp VirtAddr.pageOffset ∧
    (∀ a, (Pfn.fromAddr a).toAddr = a.pageAlignDown) ∧
    ∀ p, Pfn.fromAddr p.toAddr = p ↔ p.asU64.toNat < 2 ^ 52 := by
  refine ⟨?_, ?_, fun a => ?_, Pfn.fromAddr_toAddr_iff⟩
  · exact .of_words (fun _ _ => Iff.rfl) (fun _ => rfl) (fun _ => rfl) (fun _ => rfl) fun _ => rfl
  · exact .of_words (fun _ _ => Iff.rfl) (fun _ => rfl) (fun _ => rfl) (fun _ => rfl) fun _ => rfl
  · exact congrArg PhysAddr.mk (pageAlignDown_eq_shift a.asU64).symm

/-- The last address is rounded up to zero: no page boundary is above it. So rounding up is not
monotone on all addresses. And frame 2^52 has no address: it is given that of frame 0. -/
theorem pageAlignUp_wraps :
    let a : PhysAddr := ⟨UInt64.ofNat (2 ^ 64 - 1)⟩
    ¬ a ≤ a.pageAlignUp ∧ (∀ x : PhysAddr, x.isPageAligned = true → ¬ a ≤ x) ∧
    ¬ Monotone PhysAddr.pageAlignUp ∧
    Pfn.fromAddr (Pfn.toAddr ⟨UInt64.ofNat (2 ^ 52)⟩) ≠ ⟨UInt64.ofNat (2 ^ 52)⟩ := by
  intro a
  have hwrap : a.pageAlignUp = ⟨0⟩ := by decide
  have hlast : a.asU64.toNat = 2 ^ 64 - 1 := UInt64.toNat_ofNat_of_lt' (by decide)
  have hno : ∀ x : PhysAddr, x.isPageAligned = true → ¬ a ≤ x := by
    intro x hx hax
    have hle : a.asU64.toNat ≤ x.asU64.toNat := hax
    have hdvd := (isPageAligned_iff x.asU64).mp hx
    have hlt := x.asU64.toNat_lt
    omega
  have hup : ¬ a ≤ a.pageAlignUp := hno _ (by decide)
  refine ⟨hup, hno, fun hmono => ?_, by decide⟩
  have hone : (⟨1⟩ : PhysAddr) ≤ a := by decide
  have hle := hmono hone
  rw [hwrap] at hle
  exact absurd hle (by decide)

end Pepita.Memory
