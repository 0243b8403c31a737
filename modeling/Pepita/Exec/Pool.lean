import Pepita.Exec.Task
import Pepita.Fault.Retry
import Pepita.Lib.Machine
import Pepita.Lib.Outcome
import Pepita.Scheduler.Capacity

set_option autoImplicit false

/-! # The execution pool

`Pool` of `pool.rs`. `submit` runs a task on the caller's thread, again and again while the retry
policy allows it; `submit_async` leaves the task in the scheduler. Four counters tell what became
of the tasks.

What the executors do is outside: the outcomes of the executions of a call are given as a sequence,
of any results and errors. The sleeps between them are recorded and take no time.

The counters balance after every call except a `submit_async` that the scheduler refuses: it has
counted its task before, and leaves it in no bucket. `stats_balance_iff` says how many calls it
takes to get there.
-/

namespace Pepita.Exec

open Pepita.Fault
open Pepita.Sched (Scheduler)

/-- What the executors answer to the executions of one call: a result or an error each. -/
abbrev Outcomes : Type := Nat → Except KernelError ExecutionResult

/-! ## The pool -/

/-- `PoolConfig`, without the fields that choose the executors. -/
structure PoolConfig where
  cpuWorkers : UInt64
  queueCapacity : UInt64
  retryPolicy : RetryPolicy
  deriving DecidableEq, Repr

/-- The number of workers. `parallelism` is what `available_parallelism` reports, if anything. -/
def PoolConfig.workers (config : PoolConfig) (parallelism : Option UInt64) : UInt64 :=
  if config.cpuWorkers = 0 then parallelism.getD 4 else config.cpuWorkers

/-- `PoolStats`. -/
structure PoolStats where
  tasksSubmitted : UInt64
  tasksCompleted : UInt64
  tasksFailed : UInt64
  tasksPending : UInt64
  totalRetries : UInt64
  deriving DecidableEq, Repr

/-- `Pool`. -/
structure Pool (κ : Type) where
  config : PoolConfig
  scheduler : Scheduler (Task κ)
  tasksSubmitted : UInt64
  tasksCompleted : UInt64
  tasksFailed : UInt64
  totalRetries : UInt64
  running : Bool
  deriving DecidableEq, Repr

variable {κ : Type}

/-- The loop of `submit` between two executions: the pool, the local variables, and what has been
executed and slept so far. -/
structure Attempt (κ : Type) where
  pool : Pool κ
  retryState : RetryState
  currentTask : Task κ
  executed : List (Task κ)
  slept : List Nat

namespace Pool

/-- `from_config`. -/
def fromConfig (config : PoolConfig) (parallelism : Option UInt64) : Pool κ where
  config := config
  scheduler := .withCapacity (config.workers parallelism) config.queueCapacity
  tasksSubmitted := 0
  tasksCompleted := 0
  tasksFailed := 0
  totalRetries := 0
  running := true

/-- `tasks_submitted.fetch_add(1)`. -/
def countSubmitted (p : Pool κ) : Pool κ := { p with tasksSubmitted := p.tasksSubmitted + 1 }

/-- `tasks_completed.fetch_add(1)`. -/
def countCompleted (p : Pool κ) : Pool κ := { p with tasksCompleted := p.tasksCompleted + 1 }

/-- `tasks_failed.fetch_add(1)`. -/
def countFailed (p : Pool κ) : Pool κ := { p with tasksFailed := p.tasksFailed + 1 }

/-- `total_retries.fetch_add(1)`. -/
def countRetry (p : Pool κ) : Pool κ := { p with totalRetries := p.totalRetries + 1 }

end Pool

namespace Attempt

/-- `retry_state.should_retry(&self.config.retry_policy)`. -/
def shouldRetry (a : Attempt κ) : Bool := a.retryState.shouldRetry a.pool.config.retryPolicy

/-- `executors.execute(&current_task)`. -/
def execute (a : Attempt κ) : Attempt κ := { a with executed := a.executed ++ [a.currentTask] }

/-- What both failure branches do before they go on, as in a release build: the counts and the
power in the delay wrap. -/
def retry (a : Attempt κ) : Attempt κ :=
  let retryState := a.retryState.recordFailure
  let delay := retryState.nextDelay a.pool.config.retryPolicy
  { a with
    retryState := retryState
    pool := a.pool.countRetry
    currentTask := a.currentTask.incrementRetry
    slept := if 0 < delay then a.slept ++ [delay] else a.slept }

/-- What the failure branches do when they give up. -/
def giveUp (a : Attempt κ) : Attempt κ := { a with pool := a.pool.countFailed }

/-- One pass of the loop of `submit`. -/
def pass (outcomes : Outcomes) (a : Attempt κ) :
    Pass (Attempt κ) (Attempt κ × Outcome KernelError ExecutionResult) :=
  match outcomes a.executed.length with
  | .ok result =>
      if result.isSuccess then
        .ret ({ a.execute with pool := a.pool.countCompleted }, .ok result)
      else if a.shouldRetry then .next a.execute.retry
      else .ret (a.execute.giveUp, .ok result)
  | .error e =>
      if e.isRetriable && a.shouldRetry then .next a.execute.retry
      else .ret (a.execute.giveUp, .err e)

end Attempt

namespace Pool

/-- `submit`. The fuel of the loop is the number of executions the policy allows. -/
def submit (p : Pool κ) (task : Task κ) (outcomes : Outcomes) :
    Attempt κ × Outcome KernelError ExecutionResult :=
  if !p.running then (⟨p, .new, task, [], []⟩, .err .deviceNotReady)
  else
    let start : Attempt κ := ⟨p.countSubmitted, .new, task, [], []⟩
    match whileLoop (fun _ => true) (Attempt.pass outcomes)
        (p.config.retryPolicy.maxRetries.toNat + 1) start with
    | .ret r => r
    | .done a => (a, .diverge)
    | .timeout => (start, .diverge)

/-- `submit_async`. -/
def submitAsync (p : Pool κ) (task : Task κ) : Pool κ × Outcome KernelError UInt64 :=
  if !p.running then (p, .err .deviceNotReady)
  else
    let r := p.scheduler.submit task
    ({ p.countSubmitted with scheduler := r.1 }, .okOr .ublkQueueFull r.2)

/-- `stats`. -/
def stats (p : Pool κ) : PoolStats where
  tasksSubmitted := p.tasksSubmitted
  tasksCompleted := p.tasksCompleted
  tasksFailed := p.tasksFailed
  tasksPending := p.scheduler.pendingTasks
  totalRetries := p.totalRetries

end Pool

/-- The calls that bring tasks into a pool, a `submit` with the outcomes of its executions. -/
inductive Call (κ : Type) where
  | submit (task : Task κ) (outcomes : Outcomes)
  | submitAsync (task : Task κ)

/-- What the calls give back. -/
inductive Reply where
  | executed (result : Outcome KernelError ExecutionResult)
  | queued (id : Outcome KernelError UInt64)

/-- One call. -/
def Pool.call (p : Pool κ) : Call κ → Pool κ × Reply
  | .submit task outcomes =>
      ((p.submit task outcomes).1.pool, .executed (p.submit task outcomes).2)
  | .submitAsync task => ((p.submitAsync task).1, .queued (p.submitAsync task).2)

/-- A pool from its construction on. -/
def poolMachine (κ : Type) (config : PoolConfig) (parallelism : Option UInt64) :
    Machine (Pool κ) (Call κ) Reply where
  init := .fromConfig config parallelism
  step := Pool.call

/-! ## The retry loop -/

/-- The outcome is a success. -/
def successful : Except KernelError ExecutionResult → Bool
  | .ok result => result.isSuccess
  | .error _ => false

/-- The outcome ends a submission whatever the policy: a success, or an error not worth a retry. -/
def conclusive : Except KernelError ExecutionResult → Bool
  | .ok result => result.isSuccess
  | .error e => !e.isRetriable

/-- What the caller is given for an outcome: the same result, or the same error. -/
def reply : Except KernelError ExecutionResult → Outcome KernelError ExecutionResult
  | .ok result => .ok result
  | .error e => .err e

theorem conclusive_of_successful {o : Except KernelError ExecutionResult}
    (h : successful o = true) : conclusive o = true := by
  cases o with
  | ok result => exact h
  | error e => cases h

/-- A task as it runs in the attempt after `i` others. -/
def Task.attempt (task : Task κ) (i : Nat) : Task κ :=
  { task with retryCount := task.retryCount + UInt32.ofNat i }

theorem Task.incrementRetry_attempt (task : Task κ) (i : Nat) :
    (task.attempt i).incrementRetry = task.attempt (i + 1) := by
  simp only [attempt, incrementRetry]
  rw [UInt32.ofNat_add, ← UInt32.add_assoc]
  rfl

namespace Attempt

variable {outcomes : Outcomes} {a : Attempt κ}

/-- The two branches of a pass are one: they differ in which outcomes are worth a retry. -/
theorem pass_eq (outcomes : Outcomes) (a : Attempt κ) :
    pass outcomes a
      = if successful (outcomes a.executed.length) then
          .ret ({ a.execute with pool := a.pool.countCompleted },
            reply (outcomes a.executed.length))
        else if !conclusive (outcomes a.executed.length) && a.shouldRetry then .next a.execute.retry
        else .ret (a.execute.giveUp, reply (outcomes a.executed.length)) := by
  rw [pass]
  cases outcomes a.executed.length with
  | ok result =>
      cases hs : result.isSuccess with
      | true => simp [successful, reply, hs]
      | false => simp [successful, conclusive, reply, hs]
  | error e => simp [successful, conclusive, reply]

theorem pass_next {a' : Attempt κ} (h : pass outcomes a = .next a') :
    conclusive (outcomes a.executed.length) = false ∧ a.shouldRetry = true ∧
      a' = a.execute.retry := by
  rw [pass_eq] at h
  split_ifs at h with hs hretry
  rw [Bool.and_eq_true, Bool.not_eq_true'] at hretry
  exact ⟨hretry.1, hretry.2, (Pass.next.inj h).symm⟩

/-- The pass that ends the loop: it had a reason to, returns the outcome as it is, and counts the
task in the bucket of that outcome. -/
theorem pass_ret {r : Attempt κ × Outcome KernelError ExecutionResult}
    (h : pass outcomes a = .ret r) :
    (conclusive (outcomes a.executed.length) = true ∨ a.shouldRetry = false) ∧
    r.1.executed = a.executed ++ [a.currentTask] ∧
    r.2 = reply (outcomes a.executed.length) ∧
    r.1.pool = (if successful (outcomes a.executed.length) then a.pool.countCompleted
      else a.pool.countFailed) := by
  rw [pass_eq] at h
  split_ifs at h with hs hretry
  · rw [← Pass.ret.inj h, if_pos hs]
    exact ⟨.inl (conclusive_of_successful hs), rfl, rfl, rfl⟩
  · rw [← Pass.ret.inj h, if_neg hs]
    refine ⟨?_, rfl, rfl, rfl⟩
    rw [Bool.and_eq_true, Bool.not_eq_true', not_and_or] at hretry
    simpa using hretry

theorem pass_ne_stop {a' : Attempt κ} : pass outcomes a ≠ .stop a' := by
  intro h
  rw [pass_eq] at h
  split_ifs at h

/-- The loop after `j` inconclusive executions of a submission of `task` to `p`. -/
structure After (p : Pool κ) (task : Task κ) (outcomes : Outcomes) (j : Nat) (a : Attempt κ) :
    Prop where
  le : j ≤ p.config.retryPolicy.maxRetries.toNat
  inconclusive : ∀ i < j, conclusive (outcomes i) = false
  pool : a.pool = { p.countSubmitted with totalRetries := p.totalRetries + UInt64.ofNat j }
  attempts : a.retryState.attempts.toNat = j
  currentTask : a.currentTask = task.attempt j
  executed : a.executed = (List.range j).map task.attempt

namespace After

variable {p : Pool κ} {task : Task κ} {j : Nat}

theorem start (p : Pool κ) (task : Task κ) (outcomes : Outcomes) :
    After p task outcomes 0 ⟨p.countSubmitted, .new, task, [], []⟩ where
  le := Nat.zero_le _
  inconclusive := fun i hi => absurd hi (Nat.not_lt_zero i)
  pool := by simp [Pool.countSubmitted]
  attempts := rfl
  currentTask := by simp [Task.attempt]
  executed := rfl

theorem length_executed (h : After p task outcomes j a) : a.executed.length = j := by
  rw [h.executed, List.length_map, List.length_range]

theorem shouldRetry_iff (h : After p task outcomes j a) :
    a.shouldRetry = true ↔ j < p.config.retryPolicy.maxRetries.toNat := by
  rw [← h.attempts, shouldRetry, h.pool]
  simp [RetryState.shouldRetry, RetryPolicy.shouldRetry, UInt32.lt_iff_toNat_lt,
    Pool.countSubmitted]

/-- **One retry.** -/
theorem next {a' : Attempt κ} (h : After p task outcomes j a) (hb : pass outcomes a = .next a') :
    After p task outcomes (j + 1) a' := by
  obtain ⟨hinc, hretry, rfl⟩ := pass_next hb
  rw [h.length_executed] at hinc
  have hlt := h.shouldRetry_iff.mp hretry
  -- both failure branches do the same bookkeeping, field by field
  constructor
  · omega
  · intro i hi
    rcases Nat.lt_succ_iff_lt_or_eq.mp hi with hi | rfl
    · exact h.inconclusive i hi
    · exact hinc
  · show a.pool.countRetry = _
    rw [h.pool, UInt64.ofNat_add, ← UInt64.add_assoc]
    rfl
  · show a.retryState.recordFailure.attempts.toNat = _
    rw [(RetryState.attempts_recordFailure hretry).1, h.attempts]
  · show a.currentTask.incrementRetry = _
    rw [h.currentTask, Task.incrementRetry_attempt]
  · show a.executed ++ [a.currentTask] = _
    rw [h.executed, h.currentTask, List.range_succ, List.map_append]
    rfl

end After

end Attempt

namespace Pool

/-- **A submission ends**: each retry uses up one of those the policy allows, so some execution is
the last, and its pass is what the caller gets. -/
theorem exists_last_pass {p : Pool κ} (hrun : p.running = true) (task : Task κ)
    (outcomes : Outcomes) :
    ∃ j a, Attempt.After p task outcomes j a ∧
      Attempt.pass outcomes a = .ret (p.submit task outcomes) := by
  let start : Attempt κ := ⟨p.countSubmitted, .new, task, [], []⟩
  let maxRetries := p.config.retryPolicy.maxRetries.toNat
  have hloop : ∃ r, whileLoop (fun _ => true) (Attempt.pass outcomes) (maxRetries + 1) start
      = .ret r ∧ ∃ j a, Attempt.After p task outcomes j a ∧ Attempt.pass outcomes a = .ret r := by
    -- the variant is the number of retries the policy still allows
    refine whileLoop_total (I := fun a => ∃ j, Attempt.After p task outcomes j a)
      (μ := fun a => maxRetries - a.retryState.attempts.toNat)
      (Q := fun e => ∃ r, e = .ret r ∧
        ∃ j a, Attempt.After p task outcomes j a ∧ Attempt.pass outcomes a = .ret r)
      ?_ ?_ ?_ ?_ _ start ⟨0, .start p task outcomes⟩ (by omega)
    · intro a _ hc
      cases hc
    · rintro a a' ⟨j, h⟩ _ hb
      have h' := h.next hb
      refine ⟨⟨j + 1, h'⟩, ?_⟩
      have hle : j + 1 ≤ maxRetries := h'.le
      rw [h.attempts, h'.attempts]
      omega
    · intro a a' _ _ hb
      exact absurd hb Attempt.pass_ne_stop
    · rintro a r ⟨j, h⟩ _ hb
      exact ⟨r, rfl, j, a, h, hb⟩
  obtain ⟨r, hret, j, a, h, hpass⟩ := hloop
  have hsubmit : p.submit task outcomes = r := by
    rw [submit, if_neg (by simp [hrun])]
    dsimp only
    rw [hret]
  exact ⟨j, a, h, hsubmit ▸ hpass⟩

/-- Of the pool only the counters have changed, and the task is in one bucket. -/
theorem submit_spec {p : Pool κ} (hrun : p.running = true) (task : Task κ) (outcomes : Outcomes) :
    ∃ retries,
      (p.submit task outcomes).1.pool
          = { p.countSubmitted.countCompleted with totalRetries := retries } ∨
        (p.submit task outcomes).1.pool
          = { p.countSubmitted.countFailed with totalRetries := retries } := by
  obtain ⟨j, a, h, hpass⟩ := exists_last_pass hrun task outcomes
  obtain ⟨-, -, -, hpool⟩ := Attempt.pass_ret hpass
  refine ⟨p.totalRetries + UInt64.ofNat j, ?_⟩
  rw [hpool, h.pool]
  split_ifs
  · exact .inl rfl
  · exact .inr rfl

/-- The executions of a submission stop at the first outcome that is conclusive, or that is the
last the policy allows. -/
theorem isLeast_executions {p : Pool κ} {task : Task κ} {outcomes : Outcomes} {j : Nat}
    {a : Attempt κ} {r : Attempt κ × Outcome KernelError ExecutionResult}
    (h : Attempt.After p task outcomes j a) (hpass : Attempt.pass outcomes a = .ret r) :
    IsLeast {k | 1 ≤ k ∧ (conclusive (outcomes (k - 1)) = true ∨
        k = p.config.retryPolicy.maxRetries.toNat + 1)} (j + 1) ∧
      r.1.executed = (List.range (j + 1)).map task.attempt := by
  obtain ⟨hend, hexec, -, -⟩ := Attempt.pass_ret hpass
  rw [h.length_executed] at hend
  refine ⟨⟨⟨by omega, ?_⟩, ?_⟩, ?_⟩
  · rcases hend with hcon | hretry
    · exact .inl hcon
    · right
      -- the retries are used up, so this was the last attempt
      have hge := mt h.shouldRetry_iff.mpr (by simp [hretry])
      have := h.le
      omega
  · -- an earlier end would have been an inconclusive outcome
    rintro k ⟨hpos, hk⟩
    by_contra hlt
    rcases hk with hcon | rfl
    · rw [h.inconclusive (k - 1) (by omega)] at hcon
      cases hcon
    · have := h.le
      omega
  · rw [hexec, h.executed, h.currentTask, List.range_succ, List.map_append]
    rfl

/-- What a submission does, with the counters as the words they are. -/
theorem submit_retries (p : Pool κ) (hrun : p.running = true) (task : Task κ)
    (outcomes : Outcomes) :
    ∃ k, IsLeast {k | 1 ≤ k ∧ (conclusive (outcomes (k - 1)) = true ∨
        k = p.config.retryPolicy.maxRetries.toNat + 1)} k ∧
      (p.submit task outcomes).1.executed = (List.range k).map task.attempt ∧
      (p.submit task outcomes).2 = reply (outcomes (k - 1)) ∧
      (p.submit task outcomes).1.pool = { p with
        tasksSubmitted := p.tasksSubmitted + UInt64.ofNat 1
        totalRetries := p.totalRetries + UInt64.ofNat (k - 1)
        tasksCompleted := p.tasksCompleted +
          UInt64.ofNat (if successful (outcomes (k - 1)) then 1 else 0)
        tasksFailed := p.tasksFailed +
          UInt64.ofNat (if successful (outcomes (k - 1)) then 0 else 1) } := by
  obtain ⟨j, a, h, hpass⟩ := exists_last_pass hrun task outcomes
  obtain ⟨hleast, hexec⟩ := isLeast_executions h hpass
  obtain ⟨-, -, hreply, hpool⟩ := Attempt.pass_ret hpass
  rw [h.length_executed] at hreply hpool
  refine ⟨j + 1, hleast, hexec, hreply, ?_⟩
  rw [hpool, h.pool, Nat.add_sub_cancel]
  split_ifs <;> simp [countSubmitted, countCompleted, countFailed]

/-- A counter has grown by `n`, as a word. -/
def GrowsAsWord (before : UInt64) (n : Nat) (after : UInt64) : Prop :=
  after = before + UInt64.ofNat n

/-- A counter has grown by `n`, as a number: it has not wrapped. -/
def GrowsAsNumber (before : UInt64) (n : Nat) (after : UInt64) : Prop :=
  after.toNat = before.toNat + n

/-- `submit` does right with the `k` executions that the policy and the outcomes ask for: there are
as many, attempt `i + 1` is of the task with a retry count higher by `i`, the caller gets the last
outcome as it is, and the counters tell what happened. -/
structure RetriesCorrectly (grows : UInt64 → Nat → UInt64 → Prop) (p : Pool κ) (task : Task κ)
    (outcomes : Outcomes) (k : Nat) : Prop where
  executions : (p.submit task outcomes).1.executed.length = k
  attempts : ∀ i t, (p.submit task outcomes).1.executed[i]? = some t →
    t.spec = task.spec ∧ t.maxRetries = task.maxRetries ∧
      t.retryCount.toNat = task.retryCount.toNat + i
  result : (p.submit task outcomes).2 = reply (outcomes (k - 1))
  submitted : grows p.tasksSubmitted 1 (p.submit task outcomes).1.pool.tasksSubmitted
  retries : grows p.totalRetries (k - 1) (p.submit task outcomes).1.pool.totalRetries
  completed : grows p.tasksCompleted (if successful (outcomes (k - 1)) then 1 else 0)
    (p.submit task outcomes).1.pool.tasksCompleted
  failed : grows p.tasksFailed (if successful (outcomes (k - 1)) then 0 else 1)
    (p.submit task outcomes).1.pool.tasksFailed
  rest : (p.submit task outcomes).1.pool.config = p.config ∧
    (p.submit task outcomes).1.pool.scheduler = p.scheduler ∧
    (p.submit task outcomes).1.pool.running = p.running

/-- No counter of the pool that a submission with `k` executions increases is at its end. -/
def CountersFit (p : Pool κ) (outcomes : Outcomes) (k : Nat) : Prop :=
  p.tasksSubmitted.toNat + 1 < 2 ^ 64 ∧ p.totalRetries.toNat + (k - 1) < 2 ^ 64 ∧
    (if successful (outcomes (k - 1)) then p.tasksCompleted else p.tasksFailed).toNat + 1 < 2 ^ 64

theorem growsAsNumber_iff (a : UInt64) (n : Nat) :
    GrowsAsNumber a n (a + UInt64.ofNat n) ↔ a.toNat + n < 2 ^ 64 := by
  have ha := a.toNat_lt
  rw [GrowsAsNumber, UInt64.toNat_add, UInt64.toNat_ofNat']
  omega

/-- The retry counts of the attempts are right exactly if the last of them is a `u32`. -/
theorem attempts_retryCount_iff (task : Task κ) {k : Nat} (hk : 1 ≤ k) :
    (∀ i < k, (task.attempt i).retryCount.toNat = task.retryCount.toNat + i) ↔
      task.retryCount.toNat + (k - 1) < 2 ^ 32 := by
  have hcount : ∀ i, (task.attempt i).retryCount.toNat = (task.retryCount.toNat + i) % 2 ^ 32 := by
    intro i
    rw [Task.attempt, UInt32.toNat_add, UInt32.toNat_ofNat', Nat.add_mod_mod]
  constructor
  · intro h
    have hlast := h (k - 1) (by omega)
    rw [← hlast]
    exact UInt32.toNat_lt _
  · intro hlt i hi
    rw [hcount]
    exact Nat.mod_eq_of_lt (by omega)

/-- A submission does right but for the retry counts and the counters of the pool. -/
theorem retriesCorrectly_iff {p : Pool κ} {task : Task κ} {outcomes : Outcomes} {k : Nat}
    {grows : UInt64 → Nat → UInt64 → Prop} (hk : 1 ≤ k)
    (hexec : (p.submit task outcomes).1.executed = (List.range k).map task.attempt)
    (hreply : (p.submit task outcomes).2 = reply (outcomes (k - 1)))
    (hrest : (p.submit task outcomes).1.pool.config = p.config ∧
      (p.submit task outcomes).1.pool.scheduler = p.scheduler ∧
      (p.submit task outcomes).1.pool.running = p.running) :
    RetriesCorrectly grows p task outcomes k ↔
      task.retryCount.toNat + (k - 1) < 2 ^ 32 ∧
      grows p.tasksSubmitted 1 (p.submit task outcomes).1.pool.tasksSubmitted ∧
      grows p.totalRetries (k - 1) (p.submit task outcomes).1.pool.totalRetries ∧
      grows p.tasksCompleted (if successful (outcomes (k - 1)) then 1 else 0)
        (p.submit task outcomes).1.pool.tasksCompleted ∧
      grows p.tasksFailed (if successful (outcomes (k - 1)) then 0 else 1)
        (p.submit task outcomes).1.pool.tasksFailed := by
  have hget : ∀ i t, (p.submit task outcomes).1.executed[i]? = some t ↔
      i < k ∧ t = task.attempt i := by
    intro i t
    rw [hexec, List.getElem?_map, Option.map_eq_some_iff]
    constructor
    · rintro ⟨j, hj, rfl⟩
      obtain ⟨hi, rfl⟩ := List.getElem?_eq_some_iff.mp hj
      rw [List.length_range] at hi
      exact ⟨hi, by rw [List.getElem_range]⟩
    · rintro ⟨hi, rfl⟩
      exact ⟨i, List.getElem?_range hi, rfl⟩
  rw [← attempts_retryCount_iff task hk]
  constructor
  · intro h
    refine ⟨fun i hi => ?_, h.submitted, h.retries, h.completed, h.failed⟩
    exact (h.attempts i _ ((hget i _).mpr ⟨hi, rfl⟩)).2.2
  · rintro ⟨hcounts, hsubmitted, hretries, hcompleted, hfailed⟩
    refine ⟨?_, ?_, hreply, hsubmitted, hretries, hcompleted, hfailed, hrest⟩
    · rw [hexec, List.length_map, List.length_range]
    · intro i t ht
      obtain ⟨hi, rfl⟩ := (hget i t).mp ht
      exact ⟨rfl, rfl, hcounts i hi⟩

/-- **When a submission does right.** In a release build, with `k` the least number of executions
such that the last outcome is conclusive or is the last the policy allows: `submit` does right, with
the counters of the pool as words, exactly if the retry count of the task can be increased `k - 1`
times; and with the counters as numbers, exactly if moreover they can be increased. -/
theorem submit_retries_iff (p : Pool κ) (hrun : p.running = true) (task : Task κ)
    (outcomes : Outcomes) :
    ∃ k, IsLeast {k | 1 ≤ k ∧ (conclusive (outcomes (k - 1)) = true ∨
        k = p.config.retryPolicy.maxRetries.toNat + 1)} k ∧
      (RetriesCorrectly GrowsAsWord p task outcomes k ↔
        task.retryCount.toNat + (k - 1) < 2 ^ 32) ∧
      (RetriesCorrectly GrowsAsNumber p task outcomes k ↔
        task.retryCount.toNat + (k - 1) < 2 ^ 32 ∧ p.CountersFit outcomes k) := by
  obtain ⟨k, hleast, hexec, hreply, hpool⟩ := submit_retries p hrun task outcomes
  have hk : 1 ≤ k := hleast.1.1
  refine ⟨k, hleast, ?_, ?_⟩
  · rw [retriesCorrectly_iff hk hexec hreply (by rw [hpool]; exact ⟨rfl, rfl, rfl⟩), hpool]
    exact and_iff_left ⟨rfl, rfl, rfl, rfl⟩
  · rw [retriesCorrectly_iff hk hexec hreply (by rw [hpool]; exact ⟨rfl, rfl, rfl⟩), hpool]
    refine and_congr_right fun _ => ?_
    dsimp only
    rw [growsAsNumber_iff, growsAsNumber_iff, growsAsNumber_iff, growsAsNumber_iff, CountersFit]
    have hcompleted := p.tasksCompleted.toNat_lt
    have hfailed := p.tasksFailed.toNat_lt
    -- the bucket that does not grow cannot wrap
    cases successful (outcomes (k - 1)) with
    | true => simp [hfailed]
    | false => simp [hcompleted]

/-- A retriable error, a failed execution, a success: three executions, and two of four retries. -/
theorem submit_retries_iff_third :
    let p : Pool Unit := .fromConfig ⟨1, 1, ⟨4, 0, 0, 2⟩⟩ none
    let task : Task Unit := ⟨(), 0, 7⟩
    let result := fun state => (⟨1, none, [], [], [], 0, state, none⟩ : ExecutionResult)
    let outcomes : Outcomes := fun i =>
      if i = 0 then .error .wouldBlock
      else if i = 1 then .ok (result .failed) else .ok (result .completed)
    RetriesCorrectly GrowsAsNumber p task outcomes 3 := by
  intro p task result outcomes
  obtain ⟨k, ⟨⟨hpos, hend⟩, hleast⟩, -, hiff⟩ := submit_retries_iff p rfl task outcomes
  have hle : k ≤ 3 := hleast ⟨by decide, .inl rfl⟩
  have hk : k = 3 := by
    interval_cases k
    · exact absurd hend (by decide)
    · exact absurd hend (by decide)
    · rfl
  subst hk
  exact hiff.mpr ⟨by decide, by decide, by decide, by decide⟩

/-- A task whose retry count is at its end, and one retry: the second attempt sees the count 0. -/
theorem retry_count_wraps :
    let p : Pool Unit := .fromConfig ⟨1, 1, ⟨1, 0, 0, 2⟩⟩ none
    let task : Task Unit := ⟨(), 0, .ofNat (2 ^ 32 - 1)⟩
    let outcomes : Outcomes := fun _ => .ok ⟨1, none, [], [], [], 0, .failed, none⟩
    IsLeast {k | 1 ≤ k ∧ (conclusive (outcomes (k - 1)) = true ∨
        k = p.config.retryPolicy.maxRetries.toNat + 1)} 2 ∧
    (p.submit task outcomes).1.executed = [task, ⟨(), 0, 0⟩] ∧
    ¬ RetriesCorrectly GrowsAsWord p task outcomes 2 := by
  intro p task outcomes
  have hexec : (p.submit task outcomes).1.executed = [task, ⟨(), 0, 0⟩] := by decide
  refine ⟨⟨⟨by decide, .inr rfl⟩, ?_⟩, hexec, fun h => ?_⟩
  · rintro k ⟨-, hcon | rfl⟩
    · cases hcon
    · exact le_rfl
  · have hsecond := (h.attempts 1 ⟨(), 0, 0⟩ (by rw [hexec]; rfl)).2.2
    exact absurd hsecond (by decide)

/-! ### The task's own limit

`Task::max_retries` is a limit of its own, and `can_retry` tells whether it is used up. The loop
counts the retries of a task, but asks the policy only. -/

/-- The task is executed at most once more than it may be retried. -/
def WithinTaskLimit (p : Pool κ) (task : Task κ) (outcomes : Outcomes) : Prop :=
  (p.submit task outcomes).1.executed.length ≤ 1 + task.maxRetries.toNat

/-- Whenever the task is executed again, it could be retried. -/
def RetriesOnlyRetriable (p : Pool κ) (task : Task κ) (outcomes : Outcomes) : Prop :=
  ∀ i t, i + 1 < (p.submit task outcomes).1.executed.length →
    (p.submit task outcomes).1.executed[i]? = some t → t.canRetry = true

/-- The policy allows no more retries than the task does, or an outcome among the first
`max_retries + 1` ends the submission; on a stopped pool nothing is executed. -/
def TaskLimitKept (p : Pool κ) (task : Task κ) (outcomes : Outcomes) : Prop :=
  p.running = false ∨ p.config.retryPolicy.maxRetries ≤ task.maxRetries ∨
    ∃ i ≤ task.maxRetries.toNat, conclusive (outcomes i) = true

/-- On a new task the retries the loop counts are those the task counts. -/
theorem canRetry_attempt {task : Task κ} (h0 : task.retryCount = 0) {i : Nat} (hi : i < 2 ^ 32) :
    (task.attempt i).canRetry = true ↔ i < task.maxRetries.toNat := by
  have hnat : (UInt32.ofNat i).toNat = i := UInt32.toNat_ofNat_of_lt' hi
  simp only [Task.canRetry, Task.attempt, h0, decide_eq_true_iff, UInt32.lt_iff_toNat_lt,
    UInt32.zero_add, hnat]

/-- The executions before the last one are of a task that can be retried as long as they stay within
its limit. -/
theorem attempts_canRetry_iff {task : Task κ} (h0 : task.retryCount = 0) {j : Nat}
    (hj : j < 2 ^ 32) :
    (∀ i t, i + 1 < j + 1 → ((List.range (j + 1)).map task.attempt)[i]? = some t →
      t.canRetry = true) ↔ j ≤ task.maxRetries.toNat := by
  have hget : ∀ i < j + 1,
      ((List.range (j + 1)).map task.attempt)[i]? = some (task.attempt i) := by
    intro i hi
    rw [List.getElem?_map, List.getElem?_range hi, Option.map_some]
  constructor
  · intro hretry
    by_contra hgt
    -- the retry that goes over the limit
    have hlast := hretry task.maxRetries.toNat _ (by omega) (hget _ (by omega))
    rw [canRetry_attempt h0 (by omega)] at hlast
    omega
  · intro hle i t hi ht
    rw [hget i (by omega)] at ht
    rw [← Option.some_inj.mp ht, canRetry_attempt h0 (by omega)]
    omega

/-- Whether the last execution is within the limit of the task. -/
theorem last_le_iff_taskLimitKept {p : Pool κ} (hrun : p.running = true) {task : Task κ}
    {outcomes : Outcomes} {j : Nat}
    (h : IsLeast {k | 1 ≤ k ∧ (conclusive (outcomes (k - 1)) = true ∨
      k = p.config.retryPolicy.maxRetries.toNat + 1)} (j + 1)) :
    j ≤ task.maxRetries.toNat ↔ p.TaskLimitKept task outcomes := by
  obtain ⟨⟨-, hend⟩, hleast⟩ := h
  rw [TaskLimitKept, hrun, UInt32.le_iff_toNat_le]
  constructor
  · intro hj
    rcases hend with hcon | hmax
    · exact .inr (.inr ⟨j, hj, hcon⟩)
    · exact .inr (.inl (by omega))
  · rintro (hstop | hmax | ⟨i, hi, hcon⟩)
    · cases hstop
    · have := hleast ⟨by omega, .inr rfl⟩
      omega
    · have := hleast (a := i + 1) ⟨by omega, .inl hcon⟩
      omega

/-- **When a submission honours the limit of its task**, for a task not retried before. -/
theorem taskLimit_iff (p : Pool κ) (task : Task κ) (h0 : task.retryCount = 0)
    (outcomes : Outcomes) :
    (p.WithinTaskLimit task outcomes ↔ p.TaskLimitKept task outcomes) ∧
    (p.RetriesOnlyRetriable task outcomes ↔ p.TaskLimitKept task outcomes) := by
  cases hrun : p.running with
  | false =>
      have hsubmit : (p.submit task outcomes).1.executed = [] := by simp [submit, hrun]
      simp [WithinTaskLimit, RetriesOnlyRetriable, TaskLimitKept, hrun, hsubmit]
  | true =>
      obtain ⟨j, a, h, hpass⟩ := exists_last_pass hrun task outcomes
      obtain ⟨hleast, hexec⟩ := isLeast_executions h hpass
      have hlen : (p.submit task outcomes).1.executed.length = j + 1 := by
        rw [hexec, List.length_map, List.length_range]
      have hmax := p.config.retryPolicy.maxRetries.toNat_lt
      have hle := h.le
      rw [← last_le_iff_taskLimitKept hrun hleast]
      constructor
      · rw [WithinTaskLimit, hlen]
        omega
      · rw [RetriesOnlyRetriable, hlen, hexec]
        exact attempts_canRetry_iff h0 (by omega)

/-- Two retries allowed by the task, three by the policy, and a success at the third execution. -/
theorem taskLimit_third :
    let p : Pool Unit := .fromConfig ⟨1, 1, .default⟩ none
    let task : Task Unit := ⟨(), 2, 0⟩
    let outcomes : Outcomes := fun i =>
      .ok ⟨1, none, [], [], [], 0, if i = 2 then .completed else .failed, none⟩
    p.WithinTaskLimit task outcomes ∧ p.RetriesOnlyRetriable task outcomes := by
  intro p task outcomes
  have hkept : p.TaskLimitKept task outcomes := .inr (.inr ⟨2, by decide, by decide⟩)
  exact ⟨(taskLimit_iff p task rfl outcomes).1.mpr hkept,
    (taskLimit_iff p task rfl outcomes).2.mpr hkept⟩

/-- A task that asks for no retries, under the default policy: it fails and is executed four
times. -/
theorem taskLimit_ignored :
    let p : Pool Unit := .fromConfig ⟨1, 1, .default⟩ none
    let task : Task Unit := ⟨(), 0, 0⟩
    let outcomes : Outcomes := fun _ => .ok ⟨1, none, [], [], [], 0, .failed, none⟩
    (p.submit task outcomes).1.executed.length = 4 ∧ task.canRetry = false ∧
    ¬ p.WithinTaskLimit task outcomes ∧ ¬ p.RetriesOnlyRetriable task outcomes := by
  intro p task outcomes
  have hlen : (p.submit task outcomes).1.executed.length = 4 := by decide
  refine ⟨hlen, by decide, ?_, ?_⟩
  · rw [WithinTaskLimit, hlen]
    decide
  · intro h
    have hfirst := h 0 task (by rw [hlen]; decide) (by decide)
    cases hfirst

end Pool

/-! ## The statistics -/

/-- The counters add up, as the words they are. -/
def PoolStats.Balanced (s : PoolStats) : Prop :=
  s.tasksSubmitted = s.tasksCompleted + s.tasksFailed + s.tasksPending

/-- The counters add up as numbers, without a sum that wraps. -/
def PoolStats.BalancedExactly (s : PoolStats) : Prop :=
  s.tasksSubmitted.toNat = s.tasksCompleted.toNat + s.tasksFailed.toNat + s.tasksPending.toNat

/-- The call is a `submit_async`. -/
def Call.isAsync : Call κ → Bool
  | .submit _ _ => false
  | .submitAsync _ => true

theorem add_one_eq_ofNat {a : UInt64} {n : Nat} (h : a = UInt64.ofNat n) :
    a + 1 = UInt64.ofNat (n + 1) := by
  rw [h, UInt64.ofNat_add]
  rfl

/-- How many of the calls are `submit_async`. -/
def asyncCalls (calls : List (Call κ)) : Nat := calls.countP Call.isAsync

theorem asyncCalls_snoc (calls : List (Call κ)) (call : Call κ) :
    asyncCalls (calls ++ [call]) = asyncCalls calls + if call.isAsync then 1 else 0 := by
  simp [asyncCalls, List.countP_append, List.countP_singleton]

/-- Where the tasks of the calls so far are, on a pool with room for `workers * capacity` tasks:
the executed ones in two buckets, and the asynchronous ones pending as far as there was room. -/
structure Ledger (workers : Nat) (capacity : UInt64) (calls : List (Call κ)) (p : Pool κ) :
    Prop where
  running : p.running = true
  uniform : p.scheduler.Uniform workers capacity
  submitted : p.tasksSubmitted = UInt64.ofNat calls.length
  executed : ∃ completed failed,
    p.tasksCompleted = UInt64.ofNat completed ∧ p.tasksFailed = UInt64.ofNat failed ∧
      completed + failed + asyncCalls calls = calls.length
  pending : p.scheduler.tasks.card = min (asyncCalls calls) (workers * capacity.toNat)

namespace Ledger

variable {workers : Nat} {capacity : UInt64} {calls : List (Call κ)} {p : Pool κ}

theorem fromConfig (config : PoolConfig) (parallelism : Option UInt64) :
    Ledger (config.workers parallelism).toNat config.queueCapacity []
      (Pool.fromConfig config parallelism : Pool κ) where
  running := rfl
  uniform := .withCapacity _ _
  submitted := rfl
  executed := ⟨0, 0, rfl, rfl, rfl⟩
  pending := by
    show (Scheduler.withCapacity (config.workers parallelism) config.queueCapacity
      : Scheduler (Task κ)).tasks.card = _
    rw [Scheduler.tasks_withCapacity]
    simp [asyncCalls]

theorem submit (h : Ledger workers capacity calls p) (task : Task κ) (outcomes : Outcomes) :
    Ledger workers capacity (calls ++ [.submit task outcomes])
      (p.submit task outcomes).1.pool := by
  obtain ⟨completed, failed, hcompleted, hfailed, hsum⟩ := h.executed
  have hasync : asyncCalls (calls ++ [.submit task outcomes]) = asyncCalls calls :=
    asyncCalls_snoc calls _
  have hlen : (calls ++ [Call.submit task outcomes]).length = calls.length + 1 := by simp
  have hsubmitted := add_one_eq_ofNat h.submitted
  obtain ⟨retries, hpool | hpool⟩ := Pool.submit_spec h.running task outcomes
  · rw [hpool]
    refine ⟨h.running, h.uniform, hlen ▸ hsubmitted,
      ⟨completed + 1, failed, add_one_eq_ofNat hcompleted, hfailed, ?_⟩, hasync ▸ h.pending⟩
    rw [hasync, hlen]
    omega
  · rw [hpool]
    refine ⟨h.running, h.uniform, hlen ▸ hsubmitted,
      ⟨completed, failed + 1, hcompleted, add_one_eq_ofNat hfailed, ?_⟩, hasync ▸ h.pending⟩
    rw [hasync, hlen]
    omega

theorem submitAsync (h : Ledger workers capacity calls p) (task : Task κ) :
    Ledger workers capacity (calls ++ [.submitAsync task]) (p.submitAsync task).1 := by
  obtain ⟨completed, failed, hcompleted, hfailed, hsum⟩ := h.executed
  have hasync : asyncCalls (calls ++ [.submitAsync task]) = asyncCalls calls + 1 :=
    asyncCalls_snoc calls _
  have hlen : (calls ++ [Call.submitAsync task]).length = calls.length + 1 := by simp
  rw [Pool.submitAsync, if_neg (by simp [h.running])]
  refine ⟨h.running, h.uniform.submit task, hlen ▸ add_one_eq_ofNat h.submitted,
    ⟨completed, failed, hcompleted, hfailed, ?_⟩, ?_⟩
  · rw [hasync, hlen]
    omega
  · show (p.scheduler.submit task).1.tasks.card = _
    have hpending := h.pending
    rw [hasync]
    rcases Nat.lt_or_ge p.scheduler.tasks.card (workers * capacity.toNat) with hroom | hfull
    · rw [(h.uniform.submit_room hroom task).2]
      omega
    · rw [(h.uniform.submit_full hfull task).2]
      omega

theorem call (h : Ledger workers capacity calls p) (c : Call κ) :
    Ledger workers capacity (calls ++ [c]) (p.call c).1 := by
  cases c with
  | submit task outcomes => exact h.submit task outcomes
  | submitAsync task => exact h.submitAsync task

/-- The tasks that are in no bucket are the asynchronous ones there was no room for. -/
theorem balanced_iff (h : Ledger workers capacity calls p) :
    p.stats.Balanced ↔ 2 ^ 64 ∣ asyncCalls calls - workers * capacity.toNat := by
  obtain ⟨completed, failed, hcompleted, hfailed, hsum⟩ := h.executed
  have hpending := h.pending
  rw [PoolStats.Balanced, Pool.stats]
  dsimp only
  rw [h.submitted, hcompleted, hfailed, h.uniform.wf.pendingTasks_eq, ← UInt64.ofNat_add,
    ← UInt64.ofNat_add,
    ← UInt64.toNat_inj, UInt64.toNat_ofNat', UInt64.toNat_ofNat', hpending, ← hsum]
  omega

theorem balancedExactly_iff (h : Ledger workers capacity calls p) (hlen : calls.length < 2 ^ 64) :
    p.stats.BalancedExactly ↔ asyncCalls calls ≤ workers * capacity.toNat := by
  obtain ⟨completed, failed, hcompleted, hfailed, hsum⟩ := h.executed
  have hpending := h.pending
  rw [PoolStats.BalancedExactly, Pool.stats]
  dsimp only
  rw [h.submitted, hcompleted, hfailed, h.uniform.wf.pendingTasks_eq, UInt64.toNat_ofNat',
    UInt64.toNat_ofNat', UInt64.toNat_ofNat', UInt64.toNat_ofNat', Nat.mod_eq_of_lt (by omega),
    Nat.mod_eq_of_lt (by omega), Nat.mod_eq_of_lt (by omega), Nat.mod_eq_of_lt (by omega)]
  omega

end Ledger

section Runs

variable (config : PoolConfig) (parallelism : Option UInt64)

theorem run_ledger (calls : List (Call κ)) :
    Ledger (config.workers parallelism).toNat config.queueCapacity calls
      ((poolMachine κ config parallelism).run calls) :=
  (poolMachine κ config parallelism).run_inputs_of_eachStep (C := fun _ _ => True)
    (.fromConfig config parallelism) (fun _ _ c h _ => h.call c) calls fun _ _ _ => trivial

variable {config parallelism}

/-- A property that holds until the room is used up and fails at the next `submit_async` holds
throughout a run exactly when the room is enough for it. -/
theorem always_iff_asyncCalls_le {P : Pool κ → Prop} {room : Nat} (calls : List (Call κ))
    (hkeep : ∀ js, js <+: calls → asyncCalls js ≤ room →
      P ((poolMachine κ config parallelism).run js))
    (hlose : ∀ js, js <+: calls → asyncCalls js = room + 1 →
      ¬ P ((poolMachine κ config parallelism).run js)) :
    (poolMachine κ config parallelism).Always P calls ↔ asyncCalls calls ≤ room := by
  constructor
  · intro h
    -- no prefix can be the first to exceed the room
    have hpre : ∀ js, js <+: calls → asyncCalls js ≤ room := by
      intro js
      induction js using List.reverseRecOn with
      | nil => intro _; exact Nat.zero_le _
      | append_singleton js c ih =>
          intro hjs
          have hle := ih ((List.prefix_append js [c]).trans hjs)
          have hne : asyncCalls (js ++ [c]) ≠ room + 1 := fun heq => hlose _ hjs heq (h _ hjs)
          have hstep : asyncCalls (js ++ [c]) ≤ asyncCalls js + 1 := by
            rw [asyncCalls_snoc]
            split_ifs <;> omega
          omega
    exact hpre calls List.prefix_rfl
  · intro hle js hjs
    exact hkeep js hjs ((hjs.sublist.countP_le).trans hle)

variable (config parallelism)

/-- **When the statistics balance.** In every state of a run the tasks submitted are those
completed, failed and pending exactly when the `submit_async` calls are no more than the queues
hold; in a run of fewer than 2^64 calls no counter wraps, and the sum is one of numbers. -/
theorem stats_balance_iff (calls : List (Call κ)) :
    ((poolMachine κ config parallelism).Always (fun p => p.stats.Balanced) calls ↔
      asyncCalls calls ≤ (config.workers parallelism).toNat * config.queueCapacity.toNat) ∧
    (calls.length < 2 ^ 64 →
      ((poolMachine κ config parallelism).Always (fun p => p.stats.BalancedExactly) calls ↔
        asyncCalls calls ≤ (config.workers parallelism).toNat * config.queueCapacity.toNat)) := by
  constructor
  · apply always_iff_asyncCalls_le
    · intro js _ hle
      rw [(run_ledger config parallelism js).balanced_iff, Nat.sub_eq_zero_of_le hle]
      exact Nat.dvd_zero _
    · intro js _ hnext
      rw [(run_ledger config parallelism js).balanced_iff, hnext]
      omega
  · intro hlen
    apply always_iff_asyncCalls_le
    · intro js hjs hle
      exact ((run_ledger config parallelism js).balancedExactly_iff
        (hjs.length_le.trans_lt hlen)).mpr hle
    · intro js hjs hnext
      rw [(run_ledger config parallelism js).balancedExactly_iff (hjs.length_le.trans_lt hlen)]
      omega

end Runs

/-- One worker with a queue of one: the second `submit_async` is counted and refused. -/
theorem refused_submit_unbalanced :
    let config : PoolConfig := ⟨1, 1, ⟨3, 100000000, 30000000000, 2⟩⟩
    let task : Task Unit := ⟨(), 0, 0⟩
    let calls := [Call.submitAsync task, Call.submitAsync task]
    ((poolMachine Unit config none).run calls).stats = ⟨2, 0, 0, 1, 0⟩ ∧
    ¬ ((poolMachine Unit config none).run calls).stats.Balanced := by
  intro config task calls
  have hstats : ((poolMachine Unit config none).run calls).stats = ⟨2, 0, 0, 1, 0⟩ := by decide
  refine ⟨hstats, ?_⟩
  rw [hstats, PoolStats.Balanced]
  decide

end Pepita.Exec
