import Pepita.Basic.Definitions

set_option autoImplicit false

/-! # Tasks and their results

The types of `task.rs` that the pool and the transport share.
-/

namespace Pepita.Exec

/-- `TaskState`. -/
inductive TaskState where
  | pending
  | queued
  | running
  | completed
  | failed
  | cancelled
  | timedOut
  deriving DecidableEq, Repr

/-- `Backend`. -/
inductive Backend where
  | cpu
  | gpu
  | remote
  | any
  deriving DecidableEq, Repr

/-- `Task`. The pool reads and writes its retry count only; `spec` stands for what it hands on to
the executors unread. -/
structure Task (κ : Type) where
  spec : κ
  maxRetries : UInt32
  retryCount : UInt32
  deriving DecidableEq, Repr

/-- `can_retry`. -/
def Task.canRetry {κ : Type} (t : Task κ) : Bool := t.retryCount < t.maxRetries

/-- `increment_retry`. -/
def Task.incrementRetry {κ : Type} (t : Task κ) : Task κ :=
  { t with retryCount := t.retryCount + 1 }

/-- `ExecutionResult`. -/
structure ExecutionResult where
  taskId : UInt64
  exitCode : Option Int32
  stdout : List UInt8
  stderr : List UInt8
  outputBuffers : List (List UInt8)
  duration : Nat
  state : TaskState
  error : Option String
  deriving DecidableEq

/-- `is_success`. -/
def ExecutionResult.isSuccess (r : ExecutionResult) : Bool := r.state = .completed

end Pepita.Exec
