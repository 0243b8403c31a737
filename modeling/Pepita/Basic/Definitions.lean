import Mathlib.Tactic

set_option autoImplicit false

/-! # Errors, constants and byte slices

The error enumeration every fallible call of the library returns (`error.rs`), the page size
(`lib.rs`, `constants`) and the byte slices that are passed in.
-/

namespace Pepita

/-- All error conditions of the library (`KernelError`). -/
inductive KernelError where
  | outOfMemory
  | invalidAddress
  | alignmentError
  | overlappingRegion
  | ioTimeout
  | deviceNotReady
  | invalidRequest
  | cancelled
  | ublkQueueFull
  | ublkInvalidTag
  | ublkDeviceBusy
  | ublkDeviceNotFound
  | ublkInvalidDeviceId
  | ublkNotPermitted
  | ioUringSubmitFull
  | ioUringCqOverflow
  | ioUringInvalidOpcode
  | blockError
  | noTagsAvailable
  | invalidQueueId
  | notSupported
  | invalidArgument
  | wouldBlock
  | interrupted
  | resourceBusy
  deriving DecidableEq, Repr

/-- `PAGE_SIZE`, in bytes. -/
def pageSize : Nat := 4096

/-- A byte slice. No object is larger than `isize::MAX` bytes. -/
def ByteSlice : Type := { b : List UInt8 // b.length < 2 ^ 63 }

/-- The slice of the bytes `b`. -/
def ByteSlice.ofList (b : List UInt8) (h : b.length < 2 ^ 63) : ByteSlice := ⟨b, h⟩

end Pepita
