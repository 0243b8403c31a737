import Mathlib.Data.UInt
import Pepita.Exec.Pool
import Pepita.Exec.Registry
import Pepita.Scheduler.Atomic

set_option autoImplicit false

/-! # The pool under interleaving

Any number of clients call `submit`, `submit_async` and `shutdown` of one pool. Here the executors
are part of the pool, and only the processes they start are outside.

The atomic steps are those of the code. `submit` reads the flag of the pool, counts the task, asks
one executor after the other whether it can execute the task, and starts it there; the CPU executor
reads its own flag, and counts a command in before it runs and out after it. A client in between
may find an executor shut down that has just said that it can execute the task. The waiting for a
process touches nothing that is shared and is one step, if the command ends (`Process`); a client
whose command does not end takes no further step. `submit_async` goes on with the steps of the
scheduler's `submit`; no call of the pool adds a worker, so the lock on the list of workers is never
waited for.

`counters_account` says where every task is at every moment: no interleaving loses or doubles one.
-/

namespace Pepita.Exec

open Pepita.Fault

/-! ## The model -/

/-- What lies outside of a step: the process behind a command, and the time since a start. -/
structure Outside where
  os : BinaryTask → Process
  elapsed : Nat

/-- Every command is done at once, with the exit code 0 and no output. -/
def Outside.quiet : Outside :=
  ⟨fun _ => ⟨none, fun _ => .exited (some 0), fun _ => 0, some ⟨some 0, [], []⟩, 0,
    fun _ => ⟨0, .inl (by decide)⟩⟩, 0⟩

/-- `PoolConfig`, the fields that choose the executors. -/
structure BackendConfig where
  enableGpu : Bool
  remoteWorkers : List String
  deriving DecidableEq, Repr

/-- `CpuExecutor::new`. -/
def CpuExecutor.new : CpuExecutor := ⟨none, 0, true⟩

/-- `GpuExecutor::new`. -/
def GpuExecutor.new : GpuExecutor := ⟨0, true⟩

/-- `RemoteExecutor::new`. -/
def RemoteExecutor.new : RemoteExecutor := ⟨[], false⟩

/-- `RemoteExecutor::add_worker`. -/
def RemoteExecutor.addWorker (r : RemoteExecutor) (address : String) : RemoteExecutor :=
  { r with workers := r.workers ++ [address] }

/-- `ExecutorRegistry::register`. -/
def ExecutorRegistry.register (r : ExecutorRegistry) (e : Executor) : ExecutorRegistry :=
  ⟨r.executors ++ [e]⟩

/-- The registry that `from_config` sets up. -/
def ExecutorRegistry.fromConfig (backends : BackendConfig) : ExecutorRegistry :=
  let executors : ExecutorRegistry := ⟨[]⟩
  let executors := executors.register (.cpu .new)
  let executors := if backends.enableGpu then executors.register (.gpu .new) else executors
  if backends.remoteWorkers.isEmpty then executors
  else
    executors.register
      (.remote (backends.remoteWorkers.foldl (fun remote addr => remote.addWorker addr) .new))

/-- `Pool` with its executors and the flag of its failure detector. -/
structure SharedPool where
  pool : Pool TaskSpec
  registry : ExecutorRegistry
  detectorRunning : Bool

/-- `from_config`. -/
def SharedPool.fromConfig (config : PoolConfig) (backends : BackendConfig)
    (parallelism : Option UInt64) : SharedPool :=
  ⟨.fromConfig config parallelism, .fromConfig backends, true⟩

/-- What a command is run for: it is the task, or the stage `idx` of a pipeline before the stages
`rest`. -/
inductive Purpose where
  | binary
  | stage (idx : Nat) (rest : List BinaryTask) (pipeOutput : Bool)
  deriving DecidableEq, Repr

/-- How `execute_sync` goes on: it runs a command, or is done. -/
inductive Next where
  | command (task : BinaryTask) (purpose : Purpose)
  | outcome (o : Except KernelError ExecutionResult)

/-- The stages of a pipeline from stage `idx` on. -/
def Next.ofStages (elapsed : Nat) (pipeOutput : Bool) (idx : Nat) (stages : List BinaryTask)
    (lastOutput : Option (List UInt8)) : Next :=
  match stages with
  | [] => .outcome (.ok ⟨0, some 0, lastOutput.getD [], [], [], elapsed, .completed, none⟩)
  | stage :: rest =>
      .command (if pipeOutput && idx > 0 then { stage with stdin := lastOutput } else stage)
        (.stage idx rest pipeOutput)

/-- The start of `execute_sync` on a running CPU executor. -/
def Next.ofKind (elapsed : Nat) : TaskKind → Next
  | .binary binaryTask => .command binaryTask .binary
  | .pipeline pipelineTask => .ofStages elapsed pipelineTask.pipeOutput 0 pipelineTask.stages none
  | .shader => .outcome (.error .notSupported)

/-- What `execute_sync` does with the result of a command. -/
def Purpose.next (elapsed : Nat) : Purpose → Except KernelError ExecutionResult → Next
  | .binary, result => .outcome result
  | .stage _ _ _, .error e => .outcome (.error e)
  | .stage idx rest pipeOutput, .ok result =>
      if !result.isSuccess then
        .outcome (.ok ⟨0, result.exitCode, result.stdout, result.stderr, [], elapsed, .failed,
          some s!"Pipeline stage {idx} failed"⟩)
      else .ofStages elapsed pipeOutput (idx + 1) rest (some result.stdout)

namespace Executor

/-- The flag that `shutdown` clears. -/
def isOpen : Executor → Bool
  | .cpu e => e.running
  | .gpu e => e.running
  | .remote e => e.connected

/-- `shutdown`. -/
def shutdown : Executor → Executor
  | .cpu e => .cpu { e with running := false }
  | .gpu e => .gpu { e with running := false }
  | .remote e => .remote { e with connected := false }

/-- `execute_sync` up to its first command. -/
def start (elapsed : Nat) (task : Task TaskSpec) : Executor → Next
  | .cpu e => if !e.running then .outcome (.error .deviceNotReady) else .ofKind elapsed task.spec.kind
  | .gpu e => .outcome (e.executeSync task)
  | .remote e => .outcome (e.executeSync task)

/-- The commands that run, on a CPU executor. -/
def mapRunningTasks (f : UInt64 → UInt64) : Executor → Executor
  | .cpu e => .cpu { e with runningTasks := f e.runningTasks }
  | .gpu e => .gpu e
  | .remote e => .remote e

/-- `max_cpu_time`, on a CPU executor. -/
def maxCpuTime : Executor → Option Nat
  | .cpu e => e.maxCpuTime
  | .gpu _ => none
  | .remote _ => none

end Executor

/-- The local variables of `submit`. -/
structure Submission where
  retryState : RetryState
  currentTask : Task TaskSpec
  deriving DecidableEq, Repr

/-- `should_retry`, under the policy of the pool. -/
def Submission.shouldRetry (sub : Submission) (policy : RetryPolicy) : Bool :=
  sub.retryState.shouldRetry policy

/-- What both failure branches do to the local variables. -/
def Submission.retry (sub : Submission) : Submission :=
  ⟨sub.retryState.recordFailure, sub.currentTask.incrementRetry⟩

/-- Where a client is in its call. -/
inductive Point where
  /-- in `submit`, about to read the flag of the pool -/
  | submitting (task : Task TaskSpec)
  /-- about to count the task -/
  | counting (task : Task TaskSpec)
  /-- in `find_executor`, about to ask executor `i` -/
  | finding (sub : Submission) (i : Nat)
  /-- in `execute_sync` of executor `i` -/
  | starting (sub : Submission) (i : Nat)
  /-- in `execute_binary`, about to count the command in -/
  | spawning (sub : Submission) (i : Nat) (command : BinaryTask) (purpose : Purpose)
  /-- in `run_binary_internal` -/
  | waiting (sub : Submission) (i : Nat) (command : BinaryTask) (purpose : Purpose)
  /-- in `execute_binary`, about to count the command out -/
  | leaving (sub : Submission) (i : Nat) (result : Except KernelError ExecutionResult)
      (purpose : Purpose)
  /-- in `submit`, about to count the outcome -/
  | finishing (sub : Submission) (outcome : Except KernelError ExecutionResult)
  /-- in `submit_async`, about to read the flag of the pool -/
  | submittingAsync (task : Task TaskSpec)
  /-- in `submit_async`, about to count the task -/
  | countingAsync (task : Task TaskSpec)
  /-- in the `submit` of the scheduler, about to read its flag -/
  | checkingScheduler (task : Task TaskSpec)
  /-- in the `submit` of the scheduler, under the read lock -/
  | queueing (p : Sched.Locked (Task TaskSpec))
  /-- in `shutdown`, before the store to each flag -/
  | stopping
  | stoppingScheduler
  | stoppingExecutor (i : Nat)
  | stoppingDetector
  deriving DecidableEq

/-- `execute_sync` of executor `i` goes on. -/
def Submission.goto (sub : Submission) (i : Nat) : Next → Point
  | .command command purpose => .spawning sub i command purpose
  | .outcome o => .finishing sub o

/-- The calls on a shared pool. -/
inductive SharedCall where
  | submit (task : Task TaskSpec)
  | submitAsync (task : Task TaskSpec)
  | shutdown
  deriving DecidableEq, Repr

/-- What the calls give back. -/
inductive SharedReply where
  | executed (result : Except KernelError ExecutionResult)
  | queued (id : Except KernelError UInt64)
  | stopped
  deriving DecidableEq

namespace SharedPool

/-- Executor `i` after an atomic change. -/
def modifyExecutor (s : SharedPool) (i : Nat) (f : Executor → Executor) : SharedPool :=
  { s with registry := ⟨s.registry.executors.modify i f⟩ }

/-- The end of `submit`'s loop body: count the outcome, and return it or try again. -/
def finish (s : SharedPool) (sub : Submission) (outcome : Except KernelError ExecutionResult) :
    SharedPool × Progress Point SharedReply :=
  match outcome with
  | .ok result =>
      if result.isSuccess then
        ({ s with pool := s.pool.countCompleted }, .ret (.executed (.ok result)))
      else if sub.shouldRetry s.pool.config.retryPolicy then
        ({ s with pool := s.pool.countRetry }, .goto (.finding sub.retry 0))
      else ({ s with pool := s.pool.countFailed }, .ret (.executed (.ok result)))
  | .error e =>
      if e.isRetriable && sub.shouldRetry s.pool.config.retryPolicy then
        ({ s with pool := s.pool.countRetry }, .goto (.finding sub.retry 0))
      else ({ s with pool := s.pool.countFailed }, .ret (.executed (.error e)))

/-- The atomic step from each point. -/
def exec (w : Outside) (s : SharedPool) : Point → SharedPool × Progress Point SharedReply
  | .submitting task =>
      if !s.pool.running then (s, .ret (.executed (.error .deviceNotReady)))
      else (s, .goto (.counting task))
  | .counting task =>
      ({ s with pool := s.pool.countSubmitted }, .goto (.finding ⟨.new, task⟩ 0))
  | .finding sub i =>
      match s.registry.executors[i]? with
      | none => (s, .goto (.finishing sub (.error .notSupported)))
      | some e =>
          if e.canExecute sub.currentTask then (s, .goto (.starting sub i))
          else (s, .goto (.finding sub (i + 1)))
  | .starting sub i =>
      match s.registry.executors[i]? with
      | none => (s, .goto (.finishing sub (.error .notSupported)))
      | some e => (s, .goto (sub.goto i (e.start w.elapsed sub.currentTask)))
  | .spawning sub i command purpose =>
      (s.modifyExecutor i (Executor.mapRunningTasks (· + 1)), .goto (.waiting sub i command purpose))
  | .waiting sub i command purpose =>
      let maxCpuTime := s.registry.executors[i]?.bind Executor.maxCpuTime
      let result := (w.os command).runBinaryInternal (sub.currentTask.spec.timeout <|> maxCpuTime)
      (s, .goto (.leaving sub i result purpose))
  | .leaving sub i result purpose =>
      (s.modifyExecutor i (Executor.mapRunningTasks (· - 1)),
        .goto (sub.goto i (purpose.next w.elapsed result)))
  | .finishing sub outcome => s.finish sub outcome
  | .submittingAsync task =>
      if !s.pool.running then (s, .ret (.queued (.error .deviceNotReady)))
      else (s, .goto (.countingAsync task))
  | .countingAsync task =>
      ({ s with pool := s.pool.countSubmitted }, .goto (.checkingScheduler task))
  | .checkingScheduler task =>
      if !s.pool.scheduler.running then (s, .ret (.queued (.error .ublkQueueFull)))
      else (s, .goto (.queueing (.drawing task)))
  | .queueing p =>
      match s.pool.scheduler.lockedStep p with
      | (scheduler, .goto p') =>
          ({ s with pool := { s.pool with scheduler := scheduler } }, .goto (.queueing p'))
      | (scheduler, .ret reply) =>
          ({ s with pool := { s.pool with scheduler := scheduler } },
            .ret (.queued (reply.acceptedId.elim (.error .ublkQueueFull) .ok)))
  | .stopping => ({ s with pool := { s.pool with running := false } }, .goto .stoppingScheduler)
  | .stoppingScheduler =>
      ({ s with pool := { s.pool with scheduler := s.pool.scheduler.stop } },
        .goto (.stoppingExecutor 0))
  | .stoppingExecutor i =>
      match s.registry.executors[i]? with
      | none => (s, .goto .stoppingDetector)
      | some _ => (s.modifyExecutor i Executor.shutdown, .goto (.stoppingExecutor (i + 1)))
  | .stoppingDetector => ({ s with detectorRunning := false }, .ret .stopped)

end SharedPool

/-- The calls as atomic steps. -/
def poolCode : Code Outside SharedPool SharedCall Point SharedReply where
  entry
    | .submit task => .submitting task
    | .submitAsync task => .submittingAsync task
    | .shutdown => .stopping
  exec := SharedPool.exec

/-- `clients` clients on a pool from its construction on. -/
def sharedPoolMachine (config : PoolConfig) (backends : BackendConfig)
    (parallelism : Option UInt64) (clients : Nat) :
    Machine (Clients SharedPool Point) (Outside × Move SharedCall)
      (Option (Point × Progress Point SharedReply)) :=
  poolCode.machine (.fromConfig config backends parallelism) clients

/-! ## What the steps count -/

/-- The task of the call is counted as submitted, and what becomes of it is not known yet. -/
def Point.underway : Point → Bool
  | .finding _ _ => true
  | .starting _ _ => true
  | .spawning _ _ _ _ => true
  | .waiting _ _ _ _ => true
  | .leaving _ _ _ _ => true
  | .finishing _ _ => true
  | .checkingScheduler _ => true
  -- the task is in the scheduler
  | .queueing (.numbering _) => false
  | .queueing _ => true
  | _ => false

/-- A client that is under the lock of the scheduler is in its `submit`. -/
def Point.placed : Point → Bool
  | .queueing p => p.inSubmit
  | _ => true

/-- The client is inside a command of executor `i`. -/
def Point.inCommand (i : Nat) : Point → Bool
  | .waiting _ j _ _ => j = i
  | .leaving _ j _ _ => j = i
  | _ => false

/-- A step, by the point that it leaves and how it ends. -/
abbrev Event : Type := Point × Progress Point SharedReply

/-- The steps that make a difference to the books. -/
inductive Kind where
  /-- a task is counted -/
  | submission
  /-- a `submit` returns a success -/
  | completion
  /-- a `submit` whose task was counted returns something else -/
  | failure
  /-- a `submit` tries again -/
  | retry
  /-- a `submit_async` gets its task into a queue -/
  | acceptance
  /-- a `submit_async` whose task was counted returns an error -/
  | refusal
  deriving DecidableEq, Repr

/-- The kind of a step, if it is of any. -/
def Event.kind : Event → Option Kind
  | (.counting _, _) => some .submission
  | (.countingAsync _, _) => some .submission
  | (.finishing _ _, .ret (.executed (.ok result))) =>
      if result.isSuccess then some .completion else some .failure
  | (.finishing _ _, .ret _) => some .failure
  | (.finishing _ _, .goto _) => some .retry
  | (.checkingScheduler _, .ret _) => some .refusal
  | (.queueing (.pushing _ _), .goto _) => some .acceptance
  | (.queueing (.numbering _), _) => none
  | (.queueing _, .ret _) => some .refusal
  | _ => none

/-- 1 for a step of the kind `k`, else 0. -/
def Event.count (e : Event) (k : Kind) : Nat := if e.kind = some k then 1 else 0

/-- The history of a shared pool. -/
abbrev History : Type := List ((Outside × Move SharedCall) × Option Event)

/-- The steps of a history, without the actions that were not possible. -/
def History.events (tr : History) : List Event := tr.filterMap Prod.snd

/-- How many steps of a history are of the kind `k`. -/
def History.count (tr : History) (k : Kind) : Nat := tr.events.countP fun e => e.kind = some k

theorem History.events_none (tr : History) (i : Outside × Move SharedCall) :
    History.events (tr ++ [(i, none)]) = tr.events := by
  simp [History.events]

theorem History.events_some (tr : History) (i : Outside × Move SharedCall) (e : Event) :
    History.events (tr ++ [(i, some e)]) = tr.events ++ [e] := by
  simp [History.events]

theorem History.count_none (tr : History) (i : Outside × Move SharedCall) (k : Kind) :
    History.count (tr ++ [(i, none)]) k = tr.count k := by
  rw [History.count, History.events_none, History.count]

theorem History.count_some (tr : History) (i : Outside × Move SharedCall) (e : Event) (k : Kind) :
    History.count (tr ++ [(i, some e)]) k = tr.count k + e.count k := by
  rw [History.count, History.events_some, List.countP_append, List.countP_singleton]
  simp [History.count, Event.count]

/-- What a step does to the counters, the tasks in the scheduler and the tasks under way. -/
structure Counts (s s' : SharedPool) (e : Event) : Prop where
  submitted : s'.pool.tasksSubmitted = s.pool.tasksSubmitted + UInt64.ofNat (e.count .submission)
  completed : s'.pool.tasksCompleted = s.pool.tasksCompleted + UInt64.ofNat (e.count .completion)
  failed : s'.pool.tasksFailed = s.pool.tasksFailed + UInt64.ofNat (e.count .failure)
  retries : s'.pool.totalRetries = s.pool.totalRetries + UInt64.ofNat (e.count .retry)
  wf : s'.pool.scheduler.WF
  pending : s'.pool.scheduler.tasks.card = s.pool.scheduler.tasks.card + e.count .acceptance
  balance : e.1.underway.toNat + e.count .submission
    = e.count .completion + e.count .failure + e.count .acceptance + e.count .refusal
      + (e.2.point.any Point.underway).toNat

namespace Counts

variable {s s' : SharedPool} {e : Event}

/-- A step of no kind, which leaves all of the pool but its flags. -/
theorem silent (hwf : s.pool.scheduler.WF)
    (hpool : s'.pool = { s.pool with
      running := s'.pool.running
      scheduler := { s.pool.scheduler with running := s'.pool.scheduler.running } })
    (hkind : e.kind = none) (hunder : e.2.point.any Point.underway = e.1.underway) :
    Counts s s' e := by
  have hcount : ∀ k, e.count k = 0 := by
    intro k
    rw [Event.count, hkind]
    rfl
  constructor
  case wf =>
    rw [hpool]
    exact hwf
  case pending =>
    rw [hpool, hcount]
    rfl
  case balance => simp [hcount, hunder]
  all_goals
    rw [hpool, hcount]
    simp

theorem count_of_kind {k : Kind} (hkind : e.kind = some k) (k' : Kind) :
    e.count k' = if k = k' then 1 else 0 := by
  rw [Event.count, hkind]
  simp only [Option.some.injEq]

theorem submission (hwf : s.pool.scheduler.WF) (hpool : s'.pool = s.pool.countSubmitted)
    (hkind : e.kind = some .submission) (hfrom : e.1.underway = false)
    (hto : e.2.point.any Point.underway = true) : Counts s s' e := by
  constructor
  case wf => exact hpool ▸ hwf
  all_goals simp [hpool, Pool.countSubmitted, count_of_kind hkind, hfrom, hto]

theorem completion (hwf : s.pool.scheduler.WF) (hpool : s'.pool = s.pool.countCompleted)
    (hkind : e.kind = some .completion) (hfrom : e.1.underway = true)
    (hto : e.2.point.any Point.underway = false) : Counts s s' e := by
  constructor
  case wf => exact hpool ▸ hwf
  all_goals simp [hpool, Pool.countCompleted, count_of_kind hkind, hfrom, hto]

theorem failure (hwf : s.pool.scheduler.WF) (hpool : s'.pool = s.pool.countFailed)
    (hkind : e.kind = some .failure) (hfrom : e.1.underway = true)
    (hto : e.2.point.any Point.underway = false) : Counts s s' e := by
  constructor
  case wf => exact hpool ▸ hwf
  all_goals simp [hpool, Pool.countFailed, count_of_kind hkind, hfrom, hto]

theorem retry (hwf : s.pool.scheduler.WF) (hpool : s'.pool = s.pool.countRetry)
    (hkind : e.kind = some .retry) (hfrom : e.1.underway = true)
    (hto : e.2.point.any Point.underway = true) : Counts s s' e := by
  constructor
  case wf => exact hpool ▸ hwf
  all_goals simp [hpool, Pool.countRetry, count_of_kind hkind, hfrom, hto]

/-- A step of the scheduler. -/
theorem scheduler {sched : Sched.Scheduler (Task TaskSpec)}
    (hpool : s'.pool = { s.pool with scheduler := sched }) (hwf : sched.WF)
    (htasks : sched.tasks.card = s.pool.scheduler.tasks.card + e.count .acceptance)
    (hkind : e.kind = none ∨ e.kind = some .acceptance ∨ e.kind = some .refusal)
    (hbal : e.1.underway.toNat
      = e.count .acceptance + e.count .refusal + (e.2.point.any Point.underway).toNat) :
    Counts s s' e := by
  have hcount : ∀ k, e.count k = if e.kind = some k then 1 else 0 := fun k => rfl
  constructor
  case wf => exact hpool ▸ hwf
  case pending => rw [hpool, htasks]
  case balance => rcases hkind with hk | hk | hk <;> simp [hcount, hk] at hbal ⊢ <;> exact hbal
  all_goals rcases hkind with hk | hk | hk <;> simp [hpool, hcount, hk]

end Counts

theorem Submission.inCommand_goto (sub : Submission) (i j : Nat) (next : Next) :
    (sub.goto j next).inCommand i = false := by
  cases next <;> rfl

theorem Submission.underway_goto (sub : Submission) (i : Nat) (next : Next) :
    (sub.goto i next).underway = true := by
  cases next <;> rfl

namespace SharedPool

variable {s : SharedPool}

theorem finish_counts (hwf : s.pool.scheduler.WF) (sub : Submission)
    (outcome : Except KernelError ExecutionResult) :
    Counts s (s.finish sub outcome).1 (.finishing sub outcome, (s.finish sub outcome).2) := by
  unfold finish
  cases outcome with
  | ok result =>
      dsimp only
      split_ifs with hsuccess hretry
      · exact .completion hwf rfl (by simp [Event.kind, hsuccess]) rfl rfl
      · exact .retry hwf rfl rfl rfl rfl
      · exact .failure hwf rfl (by simp [Event.kind, hsuccess]) rfl rfl
  | error e =>
      dsimp only
      split_ifs with hretry
      · exact .retry hwf rfl rfl rfl rfl
      · exact .failure hwf rfl rfl rfl rfl

/-- A step of the scheduler's `submit`. -/
theorem queue_counts (hwf : s.pool.scheduler.WF) (w : Outside) {p : Sched.Locked (Task TaskSpec)}
    (hp : (Point.queueing p).placed = true) :
    Counts s (s.exec w (.queueing p)).1 (.queueing p, (s.exec w (.queueing p)).2) := by
  cases p with
  | drawing task =>
      rw [exec, Sched.Scheduler.lockedStep]
      split_ifs
      · exact .scheduler rfl hwf rfl (.inr (.inr rfl)) rfl
      · exact .scheduler rfl hwf rfl (.inl rfl) rfl
  | scanning task start i =>
      rw [exec, Sched.Scheduler.lockedStep]
      split_ifs
      · exact .scheduler rfl hwf rfl (.inl rfl) rfl
      · exact .scheduler rfl hwf rfl (.inl rfl) rfl
      · exact .scheduler rfl hwf rfl (.inr (.inr rfl)) rfl
  | sizing task start i =>
      rw [exec, Sched.Scheduler.lockedStep]
      cases s.pool.scheduler.workers[(start + i) % s.pool.scheduler.workers.length]? with
      | none => exact .scheduler rfl hwf rfl (.inl rfl) rfl
      | some worker =>
          dsimp only
          split_ifs
          · exact .scheduler rfl hwf rfl (.inl rfl) rfl
          · exact .scheduler rfl hwf rfl (.inl rfl) rfl
  | pushing task target =>
      obtain ⟨hwf', htasks, -⟩ := Sched.Scheduler.pushTo_effect hwf target task
      rw [Sched.Scheduler.pushTo] at hwf' htasks
      rw [exec, Sched.Scheduler.lockedStep]
      cases hpush : s.pool.scheduler.access target (fun q => q.push task)
          (.error KernelError.ublkQueueFull) with
      | mk sched result =>
          rw [hpush] at hwf' htasks
          have hcard := congrArg Multiset.card htasks
          cases result with
          | ok u =>
              refine .scheduler rfl hwf' ?_ (.inr (.inl rfl)) rfl
              exact hcard.trans (Multiset.card_add _ _)
          | error e =>
              refine .scheduler rfl hwf' ?_ (.inr (.inr rfl)) rfl
              exact hcard.trans (Multiset.card_add _ _)
  | numbering task => exact .scheduler rfl hwf rfl (.inl rfl) rfl
  | _ => cases hp

/-- **What one step counts.** -/
theorem exec_counts (hwf : s.pool.scheduler.WF) (w : Outside) {p : Point}
    (hp : p.placed = true) : Counts s (s.exec w p).1 (p, (s.exec w p).2) := by
  cases p with
  | submitting task =>
      rw [exec]
      split_ifs
      · exact .silent hwf rfl rfl rfl
      · exact .silent hwf rfl rfl rfl
  | counting task => exact .submission hwf rfl rfl rfl rfl
  | finding sub i =>
      rw [exec]
      split
      · exact .silent hwf rfl rfl rfl
      · split_ifs
        · exact .silent hwf rfl rfl rfl
        · exact .silent hwf rfl rfl rfl
  | starting sub i =>
      rw [exec]
      split
      · exact .silent hwf rfl rfl rfl
      · exact .silent hwf rfl rfl (sub.underway_goto i _)
  | spawning sub i command purpose => exact .silent hwf rfl rfl rfl
  | waiting sub i command purpose => exact .silent hwf rfl rfl rfl
  | leaving sub i result purpose => exact .silent hwf rfl rfl (sub.underway_goto i _)
  | finishing sub outcome => exact finish_counts hwf sub outcome
  | submittingAsync task =>
      rw [exec]
      split_ifs
      · exact .silent hwf rfl rfl rfl
      · exact .silent hwf rfl rfl rfl
  | countingAsync task => exact .submission hwf rfl rfl rfl rfl
  | checkingScheduler task =>
      rw [exec]
      split_ifs
      · exact .scheduler rfl hwf rfl (.inr (.inr rfl)) rfl
      · exact .silent hwf rfl rfl rfl
  | queueing p => exact queue_counts hwf w hp
  | stopping => exact .silent hwf rfl rfl rfl
  | stoppingScheduler => exact .silent hwf rfl rfl rfl
  | stoppingExecutor i =>
      rw [exec]
      split
      · exact .silent hwf rfl rfl rfl
      · exact .silent hwf rfl rfl rfl
  | stoppingDetector => exact .silent hwf rfl rfl rfl

/-- A change that keeps the kind of an executor and does `g` to the commands that run on it. -/
theorem cpu_modifyExecutor {i j : Nat} {f : Executor → Executor} (g : UInt64 → UInt64)
    (hf : ∀ (x : Executor) (e' : CpuExecutor), f x = .cpu e' →
      ∃ e, x = .cpu e ∧ e'.runningTasks = g e.runningTasks)
    {e' : CpuExecutor} (h : (s.modifyExecutor j f).registry.executors[i]? = some (.cpu e')) :
    ∃ e, s.registry.executors[i]? = some (.cpu e) ∧
      e'.runningTasks = if j = i then g e.runningTasks else e.runningTasks := by
  rw [modifyExecutor, List.getElem?_modify, Option.map_eq_map, Option.map_eq_some_iff] at h
  obtain ⟨x, hx, heq⟩ := h
  split_ifs at heq with hj
  · obtain ⟨e, rfl, he⟩ := hf x e' heq
    exact ⟨e, hx, by rw [if_pos hj, he]⟩
  · subst heq
    exact ⟨e', hx, by rw [if_neg hj]⟩

theorem cpu_mapRunningTasks (g : UInt64 → UInt64) (x : Executor) (e' : CpuExecutor)
    (h : x.mapRunningTasks g = .cpu e') :
    ∃ e, x = .cpu e ∧ e'.runningTasks = g e.runningTasks := by
  cases x <;> cases h
  exact ⟨_, rfl, rfl⟩

theorem cpu_shutdown (x : Executor) (e' : CpuExecutor) (h : x.shutdown = .cpu e') :
    ∃ e, x = .cpu e ∧ e'.runningTasks = id e.runningTasks := by
  cases x <;> cases h
  exact ⟨_, rfl, rfl⟩

/-- The outcome is counted outside of the commands. -/
theorem finish_registry (s : SharedPool) (sub : Submission)
    (outcome : Except KernelError ExecutionResult) (i : Nat) :
    (s.finish sub outcome).1.registry = s.registry ∧
      (s.finish sub outcome).2.point.any (Point.inCommand i) = false := by
  unfold finish
  cases outcome with
  | ok result =>
      dsimp only
      split_ifs <;> exact ⟨rfl, rfl⟩
  | error e =>
      dsimp only
      split_ifs <;> exact ⟨rfl, rfl⟩

/-- **What one step does to the commands of executor `i`**: a command is counted in by the step into
it, and counted out by the step out of it. -/
theorem exec_runningTasks (w : Outside) (p : Point) {i : Nat} {e' : CpuExecutor}
    (h : (s.exec w p).1.registry.executors[i]? = some (.cpu e')) :
    ∃ e, s.registry.executors[i]? = some (.cpu e) ∧
      e'.runningTasks + UInt64.ofNat (p.inCommand i).toNat
        = e.runningTasks + UInt64.ofNat ((s.exec w p).2.point.any (Point.inCommand i)).toNat := by
  cases p with
  | spawning sub j command purpose =>
      obtain ⟨e, he, hrunning⟩ := cpu_modifyExecutor (· + 1) (cpu_mapRunningTasks _) h
      refine ⟨e, he, ?_⟩
      by_cases hj : j = i <;> simp [exec, Point.inCommand, Progress.point, hrunning, hj]
  | leaving sub j result purpose =>
      obtain ⟨e, he, hrunning⟩ := cpu_modifyExecutor (· - 1) (cpu_mapRunningTasks _) h
      refine ⟨e, he, ?_⟩
      have hnext : (s.exec w (.leaving sub j result purpose)).2.point.any (Point.inCommand i)
          = false := sub.inCommand_goto i j _
      rw [hnext]
      by_cases hj : j = i <;> simp [Point.inCommand, hrunning, hj]
  | stoppingExecutor j =>
      rw [exec] at h ⊢
      split at h
      · exact ⟨e', h, by simp [Point.inCommand, Progress.point]⟩
      · obtain ⟨e, he, hrunning⟩ := cpu_modifyExecutor id cpu_shutdown h
        refine ⟨e, he, ?_⟩
        by_cases hj : j = i <;> simp [Point.inCommand, Progress.point, hrunning, hj]
  | submitting task | submittingAsync task | checkingScheduler task =>
      rw [exec] at h ⊢
      split_ifs at h ⊢
      · exact ⟨e', h, rfl⟩
      · exact ⟨e', h, rfl⟩
  | finding sub j =>
      rw [exec] at h ⊢
      split at h
      · exact ⟨e', h, rfl⟩
      · split_ifs at h ⊢
        · exact ⟨e', h, rfl⟩
        · exact ⟨e', h, rfl⟩
  | starting sub j =>
      rw [exec] at h ⊢
      split at h
      · exact ⟨e', h, rfl⟩
      · refine ⟨e', h, ?_⟩
        rw [Progress.point, Option.any_some, sub.inCommand_goto]
        rfl
  | finishing sub outcome =>
      obtain ⟨hregistry, hpoint⟩ := s.finish_registry sub outcome i
      rw [exec, hregistry] at h
      refine ⟨e', h, ?_⟩
      rw [exec, hpoint]
      rfl
  | queueing p =>
      rw [exec] at h ⊢
      split at h <;> exact ⟨e', h, rfl⟩
  | counting task | waiting sub j command purpose | countingAsync task | stopping
  | stoppingScheduler | stoppingDetector => exact ⟨e', h, rfl⟩

/-- **How a call gets under the lock of the scheduler**, and how it goes on there. -/
theorem exec_goto_queueing (w : Outside) {p : Point} {q : Sched.Locked (Task TaskSpec)}
    (h : (s.exec w p).2 = .goto (.queueing q)) :
    (∃ task, p = .checkingScheduler task ∧ q = .drawing task) ∨
      ∃ p', p = .queueing p' ∧ (s.pool.scheduler.lockedStep p').2 = .goto q := by
  have hgoto : ∀ (sub : Submission) (i : Nat) (next : Next), sub.goto i next ≠ .queueing q := by
    intro sub i next
    cases next <;> simp [Submission.goto]
  cases p with
  | checkingScheduler task =>
      rw [exec] at h
      split_ifs at h
      cases h
      exact .inl ⟨task, rfl, rfl⟩
  | queueing p =>
      rw [exec] at h
      split at h
      · next heq =>
          cases h
          exact .inr ⟨p, rfl, congrArg Prod.snd heq⟩
      · cases h
  | submitting task | submittingAsync task =>
      rw [exec] at h
      split_ifs at h
      cases h
  | finding sub i =>
      rw [exec] at h
      split at h
      · cases h
      · split_ifs at h <;> cases h
  | starting sub i =>
      rw [exec] at h
      split at h
      · cases h
      · exact absurd (Progress.goto.inj h) (hgoto sub i _)
  | leaving sub i result purpose => exact absurd (Progress.goto.inj h) (hgoto sub i _)
  | finishing sub outcome =>
      change (s.finish sub outcome).2 = _ at h
      unfold finish at h
      cases outcome with
      | ok result =>
          dsimp only at h
          split_ifs at h
          cases h
      | error e =>
          dsimp only at h
          split_ifs at h
          cases h
  | stoppingExecutor i =>
      rw [exec] at h
      split at h <;> cases h
  | counting task | spawning sub i command purpose | waiting sub i command purpose
  | countingAsync task | stopping | stoppingScheduler | stoppingDetector => cases h

theorem exec_placed (w : Outside) {p q : Point} (hp : p.placed = true)
    (h : (s.exec w p).2 = .goto q) : q.placed = true := by
  cases q with
  | queueing q =>
      rcases exec_goto_queueing w h with ⟨task, rfl, rfl⟩ | ⟨p', rfl, hstep⟩
      · rfl
      · exact Sched.Scheduler.lockedStep_inSubmit hp hstep
  | _ => rfl

end SharedPool

/-! ## Whole runs -/

/-- The books of a pool after the history `tr`. -/
structure Accounts (tr : History) (s : Clients SharedPool Point) : Prop where
  submitted : s.shared.pool.tasksSubmitted = UInt64.ofNat (tr.count .submission)
  completed : s.shared.pool.tasksCompleted = UInt64.ofNat (tr.count .completion)
  failed : s.shared.pool.tasksFailed = UInt64.ofNat (tr.count .failure)
  retries : s.shared.pool.totalRetries = UInt64.ofNat (tr.count .retry)
  wf : s.shared.pool.scheduler.WF
  pending : s.shared.pool.scheduler.tasks.card = tr.count .acceptance
  balance : tr.count .submission
    = tr.count .completion + tr.count .failure + tr.count .acceptance + tr.count .refusal
      + s.clients.countP fun client => client.any Point.underway
  running : ∀ (i : Nat) (e : CpuExecutor), s.shared.registry.executors[i]? = some (.cpu e) →
    e.runningTasks = UInt64.ofNat (s.clients.countP fun client => client.any (Point.inCommand i))
  placed : ∀ (c : Nat) (p : Point), s.clients[c]? = some (some p) → p.placed = true

namespace Accounts

variable {tr : History} {s : Clients SharedPool Point}

theorem init (config : PoolConfig) (backends : BackendConfig) (parallelism : Option UInt64)
    (clients : Nat) :
    Accounts [] (sharedPoolMachine config backends parallelism clients).init := by
  have hcount : ∀ q : Option Point → Bool, q none = false →
      (List.replicate clients none).countP q = 0 := by
    intro q hq
    rw [List.countP_replicate, hq]
    rfl
  refine ⟨rfl, rfl, rfl, rfl, .withCapacity _ _, ?_, ?_, ?_, ?_⟩
  · show Multiset.card (Sched.Scheduler.withCapacity _ _ : Sched.Scheduler (Task TaskSpec)).tasks = 0
    rw [Sched.Scheduler.tasks_withCapacity, Multiset.card_zero]
  · show 0 = 0 + (List.replicate clients none).countP fun client => client.any Point.underway
    rw [hcount _ rfl]
  · intro i e he
    have hzero : e.runningTasks = 0 := by
      have hmem := List.mem_of_getElem? he
      change Executor.cpu e ∈ (ExecutorRegistry.fromConfig backends).executors at hmem
      unfold ExecutorRegistry.fromConfig ExecutorRegistry.register at hmem
      split_ifs at hmem <;> simp at hmem <;> rw [hmem] <;> rfl
    rw [hzero]
    exact (congrArg UInt64.ofNat (hcount _ rfl)).symm
  · intro c p hp
    cases List.eq_of_mem_replicate (List.mem_of_getElem? hp)

/-- An action that is not possible is in the history and in no account. -/
theorem skip (h : Accounts tr s) (i : Outside × Move SharedCall) :
    Accounts (tr ++ [(i, none)]) s := by
  have hcount := History.count_none tr i
  refine ⟨?_, ?_, ?_, ?_, h.wf, ?_, ?_, h.running, h.placed⟩
  all_goals simp only [hcount]
  · exact h.submitted
  · exact h.completed
  · exact h.failed
  · exact h.retries
  · exact h.pending
  · exact h.balance

theorem underway_entry (call : SharedCall) : (poolCode.entry call).underway = false := by
  cases call <;> rfl

theorem inCommand_entry (i : Nat) (call : SharedCall) :
    (poolCode.entry call).inCommand i = false := by
  cases call <;> rfl

theorem placed_at (h : Accounts tr s) {c : Nat} {p : Point} (hp : poolCode.At s c p) :
    p.placed = true := by
  rcases hp with hp | ⟨-, call, rfl⟩
  · exact h.placed c p hp
  · cases call <;> rfl

/-- **One step of one client.** -/
theorem take (h : Accounts tr s) (i : Outside × Move SharedCall) {c : Nat} {p : Point}
    (hp : poolCode.At s c p) :
    Accounts (tr ++ [(i, some (p, (poolCode.exec i.1 s.shared p).2))])
      (poolCode.take i.1 s c p) := by
  have hcounts : Counts s.shared (poolCode.exec i.1 s.shared p).1
      (p, (poolCode.exec i.1 s.shared p).2) := SharedPool.exec_counts h.wf i.1 (h.placed_at hp)
  obtain ⟨hsub, hcom, hfail, hretry, hwf, hpend, hbal⟩ := hcounts
  have hcount := History.count_some tr i (p, (poolCode.exec i.1 s.shared p).2)
  constructor
  · rw [hcount, UInt64.ofNat_add, ← h.submitted]
    exact hsub
  · rw [hcount, UInt64.ofNat_add, ← h.completed]
    exact hcom
  · rw [hcount, UInt64.ofNat_add, ← h.failed]
    exact hfail
  · rw [hcount, UInt64.ofNat_add, ← h.retries]
    exact hretry
  · exact hwf
  · rw [hcount, ← h.pending]
    exact hpend
  · have hmove := poolCode.countP_take (q := fun client => client.any Point.underway)
      (fun call => underway_entry call) i.1 hp
    have hold := h.balance
    simp only [hcount, Option.any_some] at hmove ⊢
    dsimp only at hbal
    omega
  · intro j e he
    obtain ⟨e₀, he₀, hstep⟩ := SharedPool.exec_runningTasks i.1 p he
    have hmove := poolCode.countP_take (q := fun client => client.any (Point.inCommand j))
      (fun call => inCommand_entry j call) i.1 hp
    -- both sides of the move, as words
    have hwords := congrArg UInt64.ofNat hmove
    rw [UInt64.ofNat_add, UInt64.ofNat_add, ← h.running j e₀ he₀] at hwords
    exact add_right_cancel (hstep.trans hwords.symm)
  · intro c' q hq
    rcases poolCode.client_take hq with ⟨-, hnext⟩ | ⟨-, hq⟩
    · exact SharedPool.exec_placed i.1 (h.placed_at hp) hnext
    · exact h.placed c' q hq

end Accounts

theorem accounts_run (config : PoolConfig) (backends : BackendConfig) (parallelism : Option UInt64)
    (clients : Nat) (is : List (Outside × Move SharedCall)) :
    let M := sharedPoolMachine config backends parallelism clients
    Accounts (M.trace is) (M.run is) :=
  poolCode.run_history _ _ (.init config backends parallelism clients)
    (fun _ _ i h => h.skip i) (fun _ _ i _ _ h hp => h.take i hp) is

/-- **No interleaving loses or doubles a task.** However the calls of the clients are interleaved,
with each other and with a `shutdown`, and whatever the processes do, at every moment: the five
numbers of `stats` count the steps of the history they are named after; the tasks submitted are
those completed, failed, pending, refused by a full or stopped scheduler, and under way; and
`running_tasks` of a CPU executor counts the clients that are inside one of its commands. -/
theorem counters_account (config : PoolConfig) (backends : BackendConfig)
    (parallelism : Option UInt64) (clients : Nat) (is : List (Outside × Move SharedCall)) :
    let M := sharedPoolMachine config backends parallelism clients
    let tr : History := M.trace is
    let s := M.run is
    s.shared.pool.stats = ⟨.ofNat (tr.count .submission), .ofNat (tr.count .completion),
      .ofNat (tr.count .failure), .ofNat (tr.count .acceptance), .ofNat (tr.count .retry)⟩ ∧
    tr.count .submission
      = tr.count .completion + tr.count .failure + tr.count .acceptance + tr.count .refusal
        + s.clients.countP (fun client => client.any Point.underway) ∧
    ∀ (i : Nat) (e : CpuExecutor), s.shared.registry.executors[i]? = some (.cpu e) →
      e.runningTasks
        = UInt64.ofNat (s.clients.countP fun client => client.any (Point.inCommand i)) := by
  intro M tr s
  have h : Accounts tr s := accounts_run config backends parallelism clients is
  refine ⟨?_, h.balance, h.running⟩
  rw [Pool.stats, h.submitted, h.completed, h.failed, h.retries, h.wf.pendingTasks_eq, h.pending]

end Pepita.Exec
