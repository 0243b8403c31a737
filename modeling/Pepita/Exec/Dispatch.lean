import Mathlib.Order.Monotone.Basic
import Pepita.Exec.Concurrent
import Pepita.Scheduler.Alone

set_option autoImplicit false

/-! # What a pool executes

Two things about the pools that `from_config` builds, in every interleaving. The GPU executor knows
of no device and the remote executor is never connected, so all executions are on the CPU executor
(`accelerators_unused`). And the errors an execution can end with are not worth a retry, so
`submit` returns the first one; what it retries are results, of commands that ran and failed or
timed out (`errors_not_retried`).

A call that is not interrupted does what the sequential models say (`uninterrupted_submit`): those
of the pool, the registry, the CPU executor and its pipelines are put together, and those of the
pool and its scheduler.
-/

namespace Pepita.Exec

open Pepita.Fault

/-! ## A call that is not interrupted

The steps of the call are numbered from 0, and `ws` is what lies outside of each. -/

/-- The outside of one execution: its commands run at every third step from `o` on, and it reads the
clock for its result at step `e`. -/
def worldAt (ws : Nat → Outside) (o e : Nat) : World :=
  ⟨fun n => (ws (o + 3 * n)).os, (ws e).elapsed⟩

/-- The outcomes of the executions of a task on the registry `r`. -/
def outcomesAt (ws : Nat → Outside) (o e : Nat → Nat) (r : ExecutorRegistry)
    (task : Task TaskSpec) : Outcomes :=
  fun i => (r.execute (worldAt ws (o i) (e i)) (task.attempt i)).2

/-- The reply of a `submit_async`, as the sequential pool gives it. -/
def queueReply : Except KernelError UInt64 → Outcome KernelError UInt64
  | .ok id => .ok id
  | .error e => .err e

/-- The local variables of `submit` after `k` retries. -/
def Submission.after (task : Task TaskSpec) (k : Nat) : Submission :=
  ⟨⟨UInt32.ofNat k⟩, task.attempt k⟩

theorem Submission.retry_after (task : Task TaskSpec) (k : Nat) :
    (Submission.after task k).retry = .after task (k + 1) := by
  simp only [retry, after, RetryState.recordFailure, Task.incrementRetry_attempt, UInt32.ofNat_add]
  rfl

theorem Submission.shouldRetry_after (task : Task TaskSpec) {k : Nat} {policy : RetryPolicy}
    (hk : k ≤ policy.maxRetries.toNat) :
    (Submission.after task k).shouldRetry policy = true ↔ k < policy.maxRetries.toNat := by
  have hmax := policy.maxRetries.toNat_lt
  have hlt : k < 2 ^ 32 := by omega
  have hnat : (UInt32.ofNat k).toNat = k := UInt32.toNat_ofNat_of_lt' hlt
  simp only [shouldRetry, RetryState.shouldRetry, RetryPolicy.shouldRetry, after,
    decide_eq_true_iff, UInt32.lt_iff_toNat_lt, hnat]

namespace SharedPool

variable {s : SharedPool} (ws : Nat → Outside)

/-- A command counted in and out again leaves the registry. -/
theorem modifyExecutor_add_sub (s : SharedPool) (i : Nat) :
    (s.modifyExecutor i (Executor.mapRunningTasks (· + 1))).modifyExecutor i
      (Executor.mapRunningTasks (· - 1)) = s := by
  have hid : Executor.mapRunningTasks (· - 1) ∘ Executor.mapRunningTasks (· + 1) = id := by
    funext e
    cases e <;> simp [Executor.mapRunningTasks]
  simp only [modifyExecutor, List.modify_modify_eq, hid, List.modify_id]

/-- One command of executor `i`: it runs at the second of its three steps. -/
theorem leads_command {i : Nat} {e : CpuExecutor}
    (he : s.registry.executors[i]? = some (.cpu e)) (sub : Submission) (command : BinaryTask)
    (purpose : Purpose) (t : Nat) :
    (poolCode.clocked ws).Leads () ((t, s), .spawning sub i command purpose)
      ((t + 3, s), sub.goto i (purpose.next (ws (t + 2)).elapsed
        (((ws (t + 1)).os command).runBinaryInternal
          (sub.currentTask.spec.timeout <|> e.maxCpuTime)))) := by
  let s₁ := s.modifyExecutor i (Executor.mapRunningTasks (· + 1))
  have hmax : s₁.registry.executors[i]?.bind Executor.maxCpuTime = e.maxCpuTime := by
    simp only [s₁, modifyExecutor, List.getElem?_modify_eq, he]
    rfl
  have hspawn : poolCode.exec (ws t) s (.spawning sub i command purpose)
      = (s₁, .goto (.waiting sub i command purpose)) := rfl
  have hwait : poolCode.exec (ws (t + 1)) s₁ (.waiting sub i command purpose)
      = (s₁, .goto (.leaving sub i (((ws (t + 1)).os command).runBinaryInternal
          (sub.currentTask.spec.timeout <|> e.maxCpuTime)) purpose)) := by
    rw [← hmax]
    rfl
  refine (Code.leads_tick hspawn).trans ((Code.leads_tick hwait).trans (Code.leads_tick ?_))
  show (s₁.modifyExecutor i (Executor.mapRunningTasks (· - 1)), _) = _
  rw [modifyExecutor_add_sub]

/-- The stages of a pipeline whose first command runs at step `o`. The induction is on the stages
that are left. -/
theorem leads_stages {i : Nat} {e : CpuExecutor}
    (he : s.registry.executors[i]? = some (.cpu e)) (sub : Submission) (pipeOutput : Bool) (o : Nat)
    (stages : List BinaryTask) :
    ∀ (idx : Nat) (lastOutput : Option (List UInt8)) (c : CpuCall) (t₀ t : Nat),
      c.started.length = idx → t + 1 = o + 3 * idx →
      ∃ e' t', o ≤ t' + 1 ∧
        (poolCode.clocked ws).Leads ()
          ((t, s), sub.goto i (.ofStages (ws t₀).elapsed pipeOutput idx stages lastOutput))
          ((t', s), .finishing sub (CpuCall.pipelineLoop (e.processes (worldAt ws o e').os)
            pipeOutput sub.currentTask.spec.timeout (worldAt ws o e').elapsed idx stages
            lastOutput c).2) := by
  induction stages with
  | nil =>
      intro idx lastOutput c t₀ t _ ht
      exact ⟨t₀, t, by omega, .refl⟩
  | cons stage stages ih =>
      intro idx lastOutput c t₀ t hstarted ht
      have hcommand := leads_command ws he sub
        (if pipeOutput && decide (idx > 0) then { stage with stdin := lastOutput } else stage)
        (.stage idx stages pipeOutput) t
      rw [ht] at hcommand
      simp only [CpuCall.pipelineLoop, CpuCall.executeBinary_eq, CpuExecutor.processes, worldAt,
        hstarted]
      cases hrun : ((ws (o + 3 * idx)).os (if pipeOutput && decide (idx > 0) then
          { stage with stdin := lastOutput } else stage)).runBinaryInternal
            (sub.currentTask.spec.timeout <|> e.maxCpuTime) with
      | error err =>
          rw [hrun] at hcommand
          exact ⟨t, t + 3, by omega, hcommand⟩
      | ok result =>
          rw [hrun] at hcommand
          cases hsuccess : result.isSuccess with
          | false =>
              simp only [Purpose.next, hsuccess, Bool.not_false, if_true] at hcommand ⊢
              exact ⟨t + 2, t + 3, by omega, hcommand⟩
          | true =>
              simp only [Purpose.next, hsuccess, Bool.not_true, Bool.false_eq_true, if_false]
                at hcommand ⊢
              obtain ⟨e', t', hle, hrest⟩ := ih (idx + 1) (some result.stdout)
                ⟨c.executor, c.started ++ [if pipeOutput && decide (idx > 0) then
                  { stage with stdin := lastOutput } else stage]⟩ (t + 2) (t + 3)
                (by rw [List.length_append, hstarted, List.length_singleton]) (by omega)
              exact ⟨e', t', hle, hcommand.trans hrest⟩

/-- `execute_sync` of executor `i`. -/
theorem leads_executeSync {i : Nat} {e : Executor} (he : s.registry.executors[i]? = some e)
    (sub : Submission) (t : Nat) :
    ∃ e' t', t + 1 ≤ t' ∧
      (poolCode.clocked ws).Leads () ((t, s), .starting sub i)
        ((t', s), .finishing sub (e.executeSync (worldAt ws (t + 2) e') sub.currentTask).2) := by
  have hstart : poolCode.exec (ws t) s (.starting sub i)
      = (s, .goto (sub.goto i (e.start (ws t).elapsed sub.currentTask))) := by
    show s.exec (ws t) (.starting sub i) = _
    rw [exec, he]
  have hleads : (poolCode.clocked ws).Leads () ((t, s), .starting sub i)
      ((t + 1, s), sub.goto i (e.start (ws t).elapsed sub.currentTask)) := Code.leads_tick hstart
  cases e with
  | gpu e => exact ⟨t, t + 1, le_rfl, hleads⟩
  | remote e => exact ⟨t, t + 1, le_rfl, hleads⟩
  | cpu e =>
      simp only [Executor.executeSync, Executor.start, CpuExecutor.executeSync] at hleads ⊢
      cases hrun : e.running with
      | false =>
          rw [hrun] at hleads
          exact ⟨t, t + 1, le_rfl, hleads⟩
      | true =>
          simp only [hrun, Bool.not_true, Bool.false_eq_true, if_false] at hleads ⊢
          cases hkind : sub.currentTask.spec.kind with
          | binary task =>
              rw [hkind] at hleads
              simp only [CpuCall.executeBinary_eq]
              exact ⟨t, t + 1 + 3, by omega,
                hleads.trans (leads_command ws he sub task .binary (t + 1))⟩
          | pipeline task =>
              rw [hkind] at hleads
              obtain ⟨e', t', hle, hstages⟩ := leads_stages ws he sub task.pipeOutput (t + 2)
                task.stages 0 none ⟨e, []⟩ t (t + 1) rfl rfl
              exact ⟨e', t', by omega, hleads.trans hstages⟩
          | shader =>
              rw [hkind] at hleads
              exact ⟨t, t + 1, le_rfl, hleads⟩

/-- `find_executor` goes past executors that cannot execute the task. -/
theorem leads_past (sub : Submission) {n : Nat} (hn : n ≤ s.registry.executors.length)
    (hcannot : ∀ (j : Nat) (e : Executor), j < n → s.registry.executors[j]? = some e →
      e.canExecute sub.currentTask = false) (t : Nat) :
    (poolCode.clocked ws).Leads () ((t, s), .finding sub 0) ((t + n, s), .finding sub n) := by
  induction n with
  | zero => exact .refl
  | succ n ih =>
      have hget := List.getElem?_eq_getElem (Nat.lt_of_succ_le hn)
      have hstep : poolCode.exec (ws (t + n)) s (.finding sub n)
          = (s, .goto (.finding sub (n + 1))) := by
        show s.exec (ws (t + n)) (.finding sub n) = _
        rw [exec, hget]
        dsimp only
        rw [hcannot n _ (Nat.lt_succ_self n) hget, if_neg Bool.false_ne_true]
      have hpast := ih (Nat.le_of_succ_le hn) fun j e hj => hcannot j e (Nat.lt_succ_of_lt hj)
      exact hpast.trans (Code.leads_tick hstep)

/-- `find_executor` when executor `i` is the first that can. -/
theorem leads_found {i : Nat} {e : Executor} (he : s.registry.executors[i]? = some e)
    (sub : Submission) (hcan : e.canExecute sub.currentTask = true)
    (hfirst : ∀ (j : Nat) (e' : Executor), j < i → s.registry.executors[j]? = some e' →
      e'.canExecute sub.currentTask = false) (t : Nat) :
    (poolCode.clocked ws).Leads () ((t, s), .finding sub 0) ((t + i + 1, s), .starting sub i) := by
  have hi := (List.getElem?_eq_some_iff.mp he).1
  have hstep : poolCode.exec (ws (t + i)) s (.finding sub i) = (s, .goto (.starting sub i)) := by
    show s.exec (ws (t + i)) (.finding sub i) = _
    rw [exec, he]
    dsimp only
    rw [hcan, if_pos rfl]
  exact (leads_past ws sub hi.le hfirst t).trans (Code.leads_tick hstep)

/-- `find_executor` when no executor can. -/
theorem leads_not_found (sub : Submission)
    (hnone : ∀ e ∈ s.registry.executors, e.canExecute sub.currentTask = false) (t : Nat) :
    (poolCode.clocked ws).Leads () ((t, s), .finding sub 0)
      ((t + s.registry.executors.length + 1, s), .finishing sub (.error .notSupported)) := by
  have hpast := leads_past ws sub le_rfl (fun j e _ he => hnone e (List.mem_of_getElem? he)) t
  refine hpast.trans (Code.leads_tick ?_)
  show s.exec (ws (t + s.registry.executors.length)) (.finding sub _) = _
  rw [exec, List.getElem?_eq_none le_rfl]

/-- **One execution**, from the step `t` on to the step `t'`. Its commands run after `t`, and before
those of an execution that begins after `t'`. -/
theorem leads_execute (s : SharedPool) (ws : Nat → Outside) (sub : Submission) (t : Nat) :
    ∃ o e t', t + 2 ≤ o ∧ o ≤ t' + 1 ∧
      (poolCode.clocked ws).Leads () ((t, s), .finding sub 0)
        ((t', s), .finishing sub (s.registry.execute (worldAt ws o e) sub.currentTask).2) := by
  by_cases hcan : ∃ e ∈ s.registry.executors, e.canExecute sub.currentTask = true
  · obtain ⟨i, e, he, hecan, hfirst, -⟩ := ExecutorRegistry.exists_first (worldAt ws 0 0) hcan
    obtain ⟨e', t', hle, hsync⟩ := leads_executeSync ws he sub (t + i + 1)
    refine ⟨t + i + 1 + 2, e', t', by omega, by omega, ?_⟩
    have hexec : (s.registry.execute (worldAt ws (t + i + 1 + 2) e') sub.currentTask).2
        = (e.executeSync (worldAt ws (t + i + 1 + 2) e') sub.currentTask).2 := by
      obtain ⟨j, e₁, he₁, hcan₁, hfirst₁, hexec⟩ :=
        ExecutorRegistry.exists_first (worldAt ws (t + i + 1 + 2) e') hcan
      -- there is one first executor that can
      have hij : i = j := by
        rcases Nat.lt_trichotomy i j with hlt | heq | hlt
        · rw [hfirst₁ i e hlt he] at hecan
          cases hecan
        · exact heq
        · rw [hfirst j e₁ hlt he₁] at hcan₁
          cases hcan₁
      subst hij
      rw [he, Option.some_inj] at he₁
      rw [hexec, he₁]
    rw [hexec]
    exact (leads_found ws he sub hecan hfirst t).trans hsync
  · have hnone : ∀ e ∈ s.registry.executors, e.canExecute sub.currentTask = false := by
      intro e he
      exact Bool.eq_false_iff.mpr fun h => hcan ⟨e, he, h⟩
    have hfind : s.registry.findExecutor sub.currentTask = none :=
      List.findIdx?_eq_none_iff.mpr hnone
    let len := s.registry.executors.length
    refine ⟨t + len + 2, t, t + len + 1, by omega, by omega, ?_⟩
    have hexec : (s.registry.execute (worldAt ws (t + len + 2) t) sub.currentTask).2
        = .error .notSupported := by
      simp [ExecutorRegistry.execute, hfind]
    rw [hexec]
    exact leads_not_found ws sub hnone t

/-- The pool of `submit` after `k` retries. -/
def retried (s : SharedPool) (k : Nat) : SharedPool :=
  { s with pool := { s.pool.countSubmitted with
    totalRetries := s.pool.totalRetries + UInt64.ofNat k } }

/-- What `finish` does with an outcome. -/
theorem finish_eq (s : SharedPool) (sub : Submission)
    (outcome : Except KernelError ExecutionResult) :
    s.finish sub outcome
      = if successful outcome then
          ({ s with pool := s.pool.countCompleted }, .ret (.executed outcome))
        else if !conclusive outcome && sub.shouldRetry s.pool.config.retryPolicy then
          ({ s with pool := s.pool.countRetry }, .goto (.finding sub.retry 0))
        else ({ s with pool := s.pool.countFailed }, .ret (.executed outcome)) := by
  unfold finish
  cases outcome with
  | ok result =>
      cases hs : result.isSuccess with
      | true => simp [successful, hs]
      | false => simp [successful, conclusive, hs]
  | error e => simp [successful, conclusive]

/-- Where the executions of a submission would be, each after the one before: execution `k` from
step `start k` on, with its outcome at the step before `start (k + 1)`. -/
structure Schedule (s : SharedPool) (ws : Nat → Outside) (task : Task TaskSpec)
    (start o e : Nat → Nat) : Prop where
  first : start 0 = 2
  commands : ∀ k, start k + 2 ≤ o k ∧ o k ≤ start (k + 1)
  leads : ∀ k, ∃ t', start (k + 1) = t' + 1 ∧
    (poolCode.clocked ws).Leads () ((start k, s.retried k), .finding (.after task k) 0)
      ((t', s.retried k), .finishing (.after task k) (outcomesAt ws o e s.registry task k))

theorem exists_schedule (s : SharedPool) (ws : Nat → Outside) (task : Task TaskSpec) :
    ∃ start o e, Schedule s ws task start o e := by
  have hexecute := fun k t => leads_execute (s.retried k) ws (.after task k) t
  choose o e t' hlow hhigh hleads using hexecute
  let start : Nat → Nat := fun k => Nat.rec 2 (fun k t => t' k t + 1) k
  exact ⟨start, fun k => o k (start k), fun k => e k (start k), rfl,
    fun k => ⟨hlow k (start k), hhigh k (start k)⟩,
    fun k => ⟨t' k (start k), rfl, hleads k (start k)⟩⟩

namespace Schedule

variable {ws} {task : Task TaskSpec} {start o e : Nat → Nat}

theorem strictMono (h : Schedule s ws task start o e) : StrictMono o := by
  apply strictMono_nat_of_lt_succ
  intro k
  calc o k
      ≤ start (k + 1) := (h.commands k).2
    _ < start (k + 1) + 2 := by omega
    _ ≤ o (k + 1) := (h.commands (k + 1)).1

/-- **The retries.** As long as the outcomes are inconclusive and the policy allows it. -/
theorem leads_retries (h : Schedule s ws task start o e) (k : Nat)
    (hk : k ≤ s.pool.config.retryPolicy.maxRetries.toNat)
    (hinc : ∀ i < k, conclusive (outcomesAt ws o e s.registry task i) = false) :
    (poolCode.clocked ws).Leads () ((2, s.retried 0), .finding (.after task 0) 0)
      ((start k, s.retried k), .finding (.after task k) 0) := by
  induction k with
  | zero =>
      rw [h.first]
      exact .refl
  | succ k ih =>
      obtain ⟨t', hnext, hleads⟩ := h.leads k
      refine (ih (by omega) fun i hi => hinc i (by omega)).trans (hleads.trans ?_)
      rw [hnext]
      refine Code.leads_tick ?_
      have hinc' := hinc k (by omega)
      have hfail : successful (outcomesAt ws o e s.registry task k) = false := by
        by_contra hs
        rw [Bool.not_eq_false] at hs
        rw [conclusive_of_successful hs] at hinc'
        cases hinc'
      have hretry : (Submission.after task k).shouldRetry (s.retried k).pool.config.retryPolicy
          = true := (Submission.shouldRetry_after task (Nat.le_of_succ_le hk)).mpr hk
      show SharedPool.finish _ _ _ = _
      rw [finish_eq, hfail, hinc', hretry]
      simp only [Bool.false_eq_true, if_false, Bool.not_false, Bool.and_self, if_true,
        Submission.retry_after]
      rw [retried, retried, UInt64.ofNat_add, ← UInt64.add_assoc]
      rfl

end Schedule

/-- **`submit` is the sequential `submit`** of the pool, whose executions are those of the registry,
when nobody interrupts it. -/
theorem submit_ends (s : SharedPool) (ws : Nat → Outside) (task : Task TaskSpec) :
    ∃ o e result t', StrictMono o ∧
      (s.pool.submit task (outcomesAt ws o e s.registry task)).2 = reply result ∧
      (poolCode.clocked ws).Ends () ((0, s), poolCode.entry (.submit task))
        ((t', { s with pool :=
          (s.pool.submit task (outcomesAt ws o e s.registry task)).1.pool }), .executed result) := by
  obtain ⟨start, o, e, hschedule⟩ := exists_schedule s ws task
  let outcomes := outcomesAt ws o e s.registry task
  refine ⟨o, e, ?_⟩
  cases hrun : s.pool.running with
  | false =>
      refine ⟨.error .deviceNotReady, 1, hschedule.strictMono, by simp [Pool.submit, hrun, reply],
        Code.ends_tick ?_⟩
      simp [poolCode, exec, Pool.submit, hrun]
  | true =>
      obtain ⟨j, a, hafter, hpass⟩ := Pool.exists_last_pass hrun task outcomes
      obtain ⟨hwhy, -, hreply, hpool⟩ := Attempt.pass_ret hpass
      rw [hafter.length_executed] at hwhy hreply hpool
      -- the call gets to the execution that is the last
      have hload : poolCode.exec (ws 0) s (.submitting task) = (s, .goto (.counting task)) := by
        simp [poolCode, exec, hrun]
      have hcount : poolCode.exec (ws 1) s (.counting task)
          = (s.retried 0, .goto (.finding (.after task 0) 0)) := by
        simp [poolCode, exec, retried, Submission.after, RetryState.new, Task.attempt,
          Pool.countSubmitted]
      obtain ⟨t', -, hlast⟩ := hschedule.leads j
      have hleads : (poolCode.clocked ws).Leads () ((0, s), .submitting task)
          ((t', s.retried j), .finishing (.after task j) (outcomes j)) :=
        (Code.leads_tick hload).trans ((Code.leads_tick hcount).trans
          ((hschedule.leads_retries j hafter.le hafter.inconclusive).trans hlast))
      -- and there it returns
      have hend : (poolCode.clocked ws).Ends ()
          ((t', s.retried j), .finishing (.after task j) (outcomes j))
          ((t' + 1, { s with pool := (s.pool.submit task outcomes).1.pool }),
            .executed (outcomes j)) := by
        have hpool' : a.pool = (s.retried j).pool := hafter.pool
        have hstop : (!conclusive (outcomes j) &&
            (Submission.after task j).shouldRetry (s.retried j).pool.config.retryPolicy)
              = false := by
          rcases hwhy with hcon | hretry
          · rw [hcon]
            rfl
          · have hlast := mt hafter.shouldRetry_iff.mpr (by simp [hretry])
            rw [← Submission.shouldRetry_after task hafter.le, Bool.not_eq_true] at hlast
            exact (congrArg _ hlast).trans (Bool.and_false _)
        refine Code.ends_tick ?_
        show SharedPool.finish _ _ _ = _
        rw [finish_eq, hpool, hpool', hstop]
        cases successful (outcomes j) <;> rfl
      exact ⟨outcomes j, t' + 1, hschedule.strictMono, hreply, hleads.ends hend⟩

/-- The steps of the scheduler's `submit`. -/
theorem queue_ends {sched sched' : Sched.Scheduler (Task TaskSpec)}
    {p : Sched.Locked (Task TaskSpec)} {r : Sched.Reply (Task TaskSpec)}
    (h : (Sched.lockedCode (Task TaskSpec)).Ends () (sched, p) (sched', r)) (s : SharedPool)
    (ws : Nat → Outside) (t : Nat) :
    ∃ t', (poolCode.clocked ws).Ends ()
      ((t, { s with pool := { s.pool with scheduler := sched } }), .queueing p)
      ((t', { s with pool := { s.pool with scheduler := sched' } }),
        .queued (r.acceptedId.elim (.error .ublkQueueFull) .ok)) := by
  obtain ⟨fuel, hfuel⟩ := h
  induction fuel generalizing sched p t with
  | zero => cases hfuel
  | succ fuel ih =>
      rw [Code.alone] at hfuel
      split at hfuel
      · next s₁ r₁ hexec =>
          cases hfuel
          refine ⟨t + 1, Code.ends_tick ?_⟩
          show SharedPool.exec (ws t) _ (.queueing p) = _
          rw [exec, show sched.lockedStep p = _ from hexec]
      · next s₁ p₁ hexec =>
          obtain ⟨t', hends⟩ := ih (t + 1) hfuel
          have hstep : poolCode.exec (ws t) { s with pool := { s.pool with scheduler := sched } }
              (.queueing p)
              = ({ s with pool := { s.pool with scheduler := s₁ } }, .goto (.queueing p₁)) := by
            show SharedPool.exec (ws t) _ (.queueing p) = _
            rw [exec, show sched.lockedStep p = _ from hexec]
          exact ⟨t', (Code.leads_tick hstep).ends hends⟩

/-- **`submit_async` is the sequential `submit_async`.** -/
theorem submitAsync_ends (s : SharedPool) (ws : Nat → Outside) (task : Task TaskSpec) :
    ∃ result t', (s.pool.submitAsync task).2 = queueReply result ∧
      (poolCode.clocked ws).Ends () ((0, s), poolCode.entry (.submitAsync task))
        ((t', { s with pool := (s.pool.submitAsync task).1 }), .queued result) := by
  cases hrun : s.pool.running with
  | false =>
      refine ⟨.error .deviceNotReady, 1, by simp [Pool.submitAsync, hrun, queueReply],
        Code.ends_tick ?_⟩
      simp [poolCode, exec, Pool.submitAsync, hrun]
  | true =>
      let s₁ : SharedPool := { s with pool := s.pool.countSubmitted }
      have hload : poolCode.exec (ws 0) s (.submittingAsync task)
          = (s, .goto (.countingAsync task)) := by
        simp [poolCode, exec, hrun]
      have hcount : poolCode.exec (ws 1) s (.countingAsync task)
          = (s₁, .goto (.checkingScheduler task)) := rfl
      have hpool : s.pool.submitAsync task
          = ({ s.pool.countSubmitted with scheduler := (s.pool.scheduler.submit task).1 },
            .okOr .ublkQueueFull (s.pool.scheduler.submit task).2) := by
        simp [Pool.submitAsync, hrun]
      have hleads : (poolCode.clocked ws).Leads () ((0, s), .submittingAsync task)
          ((2, s₁), .checkingScheduler task) :=
        (Code.leads_tick hload).trans (Code.leads_tick hcount)
      refine ⟨(s.pool.scheduler.submit task).2.elim (.error .ublkQueueFull) .ok, ?_⟩
      have hreply : (s.pool.submitAsync task).2
          = queueReply ((s.pool.scheduler.submit task).2.elim (.error .ublkQueueFull) .ok) := by
        rw [hpool]
        cases (s.pool.scheduler.submit task).2 <;> rfl
      cases hsched : s.pool.scheduler.running with
      | false =>
          refine ⟨3, hreply, hleads.ends (Code.ends_tick ?_)⟩
          have hnone : s.pool.scheduler.submit task = (s.pool.scheduler, none) := by
            simp [Sched.Scheduler.submit, Sched.Scheduler.select, hsched]
          have hflag : s₁.pool.scheduler.running = false := hsched
          rw [hpool, hnone]
          show SharedPool.exec (ws 2) s₁ (.checkingScheduler task) = _
          rw [exec, if_pos (by simp [hflag])]
          rfl
      | true =>
          have hflag : s₁.pool.scheduler.running = true := hsched
          have hcheck : poolCode.exec (ws 2) s₁ (.checkingScheduler task)
              = (s₁, .goto (.queueing (.drawing task))) := by
            show SharedPool.exec (ws 2) s₁ (.checkingScheduler task) = _
            rw [exec, if_neg (by simp [hflag])]
          obtain ⟨t', hqueue⟩ := queue_ends (Sched.Scheduler.submit_ends hsched task) s₁ ws 3
          refine ⟨t', hreply, hleads.ends ((Code.leads_tick hcheck).ends ?_)⟩
          rw [hpool]
          exact hqueue

end SharedPool

/-- **A submission that is not interrupted.** From every state that is reached, for a client in no
call, and whatever lies outside of each of its steps: a `submit` that is not interrupted leaves the
pool as the sequential `submit` does, with the outcomes that the sequential registry, CPU executor
and pipelines give, and returns the same; the executors are as before. Command `n` of execution `i`
meets the outside of step `o i + 3 * n` of the call. So it is with `submit_async` and the sequential
pool and scheduler. -/
theorem uninterrupted_submit (config : PoolConfig) (backends : BackendConfig)
    (parallelism : Option UInt64) (clients : Nat) (is : List (Outside × Move SharedCall))
    (ws : Nat → Outside) (c : Nat) (task : Task TaskSpec) :
    let M := sharedPoolMachine config backends parallelism clients
    let s := (M.run is).shared
    let r := fun o e => s.pool.submit task (outcomesAt ws o e s.registry task)
    let a := s.pool.submitAsync task
    (M.run is).clients[c]? = some none →
      (∃ k o e result, StrictMono o ∧ (r o e).2 = reply result ∧
        M.run (is ++ Code.solo ws c (.submit task) k)
          = ⟨{ s with pool := (r o e).1.pool }, (M.run is).clients⟩ ∧
        Code.replies (M.traceFrom (M.run is) (Code.solo ws c (.submit task) k))
          = [.executed result]) ∧
      (∃ k result, a.2 = queueReply result ∧
        M.run (is ++ Code.solo ws c (.submitAsync task) k)
          = ⟨{ s with pool := a.1 }, (M.run is).clients⟩ ∧
        Code.replies (M.traceFrom (M.run is) (Code.solo ws c (.submitAsync task) k))
          = [.queued result]) := by
  intro M s r a hidle
  constructor
  · obtain ⟨o, e, result, t', hmono, hresult, hends⟩ := SharedPool.submit_ends s ws task
    obtain ⟨k, hrun, htrace⟩ := Code.run_solo
      (.fromConfig config backends parallelism) clients hidle hends
    refine ⟨k, o, e, result, hmono, hresult, ?_, htrace⟩
    rw [M.run_append]
    exact hrun
  · obtain ⟨result, t', hresult, hends⟩ := SharedPool.submitAsync_ends s ws task
    obtain ⟨k, hrun, htrace⟩ := Code.run_solo
      (.fromConfig config backends parallelism) clients hidle hends
    refine ⟨k, result, hresult, ?_, htrace⟩
    rw [M.run_append]
    exact hrun

/-- Every command fails at once. -/
def Outside.failing : Outside :=
  ⟨fun _ => ⟨none, fun _ => .exited (some 1), fun _ => 0, some ⟨some 1, [], []⟩, 0,
    fun _ => ⟨0, .inl (by decide)⟩⟩, 0⟩

/-- A binary that fails when it is run first, at step 5, and then succeeds, at step 11. -/
theorem uninterrupted_submit_retry :
    let config : PoolConfig := ⟨1, 1, .default⟩
    let M := sharedPoolMachine config ⟨false, []⟩ none 1
    let task : Task TaskSpec := ⟨⟨.binary ⟨"./worker", [], [], none, none⟩, .any, none⟩, 3, 0⟩
    let ws := fun t => if t < 11 then Outside.failing else Outside.quiet
    (M.run []).clients[0]? = some none ∧
    (M.run (Code.solo ws 0 (.submit task) 13)).shared.pool.stats = ⟨1, 1, 0, 0, 1⟩ ∧
    (∃ k o e result, StrictMono o ∧
      ((SharedPool.fromConfig config ⟨false, []⟩ none).pool.submit task
        (outcomesAt ws o e (.fromConfig ⟨false, []⟩) task)).2 = reply result ∧
      Code.replies (M.traceFrom (M.run []) (Code.solo ws 0 (.submit task) k))
        = [.executed result]) ∧
    ∃ k, (M.run ([] ++ Code.solo ws 0 (.submitAsync task) k)).shared.pool.stats
      = ⟨1, 0, 0, 1, 0⟩ := by
  intro config M task ws
  have hidle : (M.run []).clients[0]? = some none := by decide +kernel
  obtain ⟨⟨k, o, e, result, hmono, hresult, -, htrace⟩, ⟨l, -, -, hl, -⟩⟩ :=
    uninterrupted_submit config ⟨false, []⟩ none 1 [] ws 0 task hidle
  refine ⟨hidle, by decide +kernel, ⟨k, o, e, result, hmono, hresult, htrace⟩, ⟨l, ?_⟩⟩
  rw [hl]
  decide +kernel

/-! ## How many commands run at once -/

namespace SharedPool

/-- The pool and its CPU executor, the first, are not shut down. -/
def Open (s : SharedPool) : Prop :=
  s.pool.running = true ∧ ∃ e, s.registry.executors[0]? = some (.cpu e) ∧ e.running = true

/-- From the start of a `submit` into its command. -/
theorem Open.leads_waiting {s : SharedPool} (h : s.Open) (w : Outside) (command : BinaryTask) :
    let task : Task TaskSpec := ⟨⟨.binary command, .any, none⟩, 3, 0⟩
    ∃ s' : SharedPool, s'.Open ∧
      poolCode.Leads w (s, .counting task) (s', .waiting ⟨.new, task⟩ 0 command .binary) := by
  intro task
  obtain ⟨hpool, e, he, hrun⟩ := h
  let s₁ : SharedPool := { s with pool := s.pool.countSubmitted }
  let s₂ := s₁.modifyExecutor 0 (Executor.mapRunningTasks (· + 1))
  have he₁ : s₁.registry.executors[0]? = some (.cpu e) := he
  have hcan : (Executor.cpu e).canExecute task = true := by
    simp [Executor.canExecute, CpuExecutor.canExecute, task, hrun]
  have hfind : poolCode.exec w s₁ (.finding ⟨.new, task⟩ 0)
      = (s₁, .goto (.starting ⟨.new, task⟩ 0)) := by
    simp only [poolCode, exec, he₁, hcan, if_true]
  have hstart : poolCode.exec w s₁ (.starting ⟨.new, task⟩ 0)
      = (s₁, .goto (.spawning ⟨.new, task⟩ 0 command .binary)) := by
    simp only [poolCode, exec, he₁, Executor.start, hrun, Bool.not_true, Bool.false_eq_true,
      if_false]
    rfl
  refine ⟨s₂, ⟨hpool, { e with runningTasks := e.runningTasks + 1 }, ?_, hrun⟩, ?_⟩
  · show (s.registry.executors.modify 0 (Executor.mapRunningTasks (· + 1)))[0]? = _
    rw [List.getElem?_modify_eq, he]
    rfl
  · have hcount : poolCode.exec w s (.counting task) = (s₁, .goto (.finding ⟨.new, task⟩ 0)) := rfl
    have hspawn : poolCode.exec w s₁ (.spawning ⟨.new, task⟩ 0 command .binary)
        = (s₂, .goto (.waiting ⟨.new, task⟩ 0 command .binary)) := rfl
    exact (Code.leads_step hcount).trans ((Code.leads_step hfind).trans
      ((Code.leads_step hstart).trans (Code.leads_step hspawn)))

end SharedPool

/-- The clients from the first on, one after the other, start a command each. -/
theorem exists_run_waiting (config : PoolConfig) (backends : BackendConfig)
    (parallelism : Option UInt64) (n : Nat) (w : Outside) (command : BinaryTask) (m : Nat)
    (hm : m ≤ n) :
    let M := sharedPoolMachine config backends parallelism n
    let p : Point := .waiting ⟨.new, ⟨⟨.binary command, .any, none⟩, 3, 0⟩⟩ 0 command .binary
    ∃ is, (M.run is).shared.Open ∧
      (M.run is).clients = List.replicate m (some p) ++ List.replicate (n - m) none := by
  intro M p
  induction m with
  | zero =>
      refine ⟨[], ⟨rfl, .new, ?_, rfl⟩, rfl⟩
      show (ExecutorRegistry.fromConfig backends).executors[0]? = _
      unfold ExecutorRegistry.fromConfig ExecutorRegistry.register
      split_ifs <;> rfl
  | succ m ih =>
      obtain ⟨is, hopen, hclients⟩ := ih (by omega)
      let task : Task TaskSpec := ⟨⟨.binary command, .any, none⟩, 3, 0⟩
      obtain ⟨s', hopen', hleads⟩ := hopen.leads_waiting w command
      have hidle : (M.run is).clients[m]? = some none := by
        rw [hclients, List.getElem?_append_right (by simp), List.length_replicate, Nat.sub_self,
          List.getElem?_replicate_of_lt (by omega)]
      have hlt := (List.getElem?_eq_some_iff.mp hidle).1
      -- the first step, then the steps into the command
      have hinvoke : (M.step (M.run is) (w, .invoke m (.submit task))).1
          = ⟨(M.run is).shared, (M.run is).clients.set m (some (.counting task))⟩ := by
        show (poolCode.step (M.run is) (w, .invoke m (.submit task))).1 = _
        have hexec : poolCode.exec w (M.run is).shared (poolCode.entry (.submit task))
            = ((M.run is).shared, .goto (.counting task)) := by
          simp [poolCode, SharedPool.exec, hopen.1]
        simp only [Code.step, Code.turn, hidle, Code.take, hexec, Progress.point]
      obtain ⟨k, hk⟩ : ∃ k, M.runFrom
          ⟨(M.run is).shared, (M.run is).clients.set m (some (.counting task))⟩
          (List.replicate k (w, .advance m))
            = ⟨s', ((M.run is).clients.set m (some (.counting task))).set m (some p)⟩ :=
        hleads.run (.fromConfig config backends parallelism) n (List.getElem?_set_self hlt)
      refine ⟨is ++ [(w, .invoke m (.submit task))] ++ List.replicate k (w, .advance m), ?_⟩
      rw [M.run_append, M.run_snoc, hinvoke, hk]
      refine ⟨hopen', ?_⟩
      show ((M.run is).clients.set m _).set m (some p) = _
      rw [List.set_set, hclients, List.set_append_right _ _ (by simp), List.length_replicate,
        Nat.sub_self, show n - m = (n - (m + 1)) + 1 by omega, List.replicate_succ,
        List.set_cons_zero, List.replicate_succ', List.append_assoc]
      rfl

/-- **Nothing limits the commands that run at once.** However many workers are configured, any
number of clients can be inside a command of the CPU executor at the same time, and it counts them
all. -/
theorem commands_unlimited (config : PoolConfig) (backends : BackendConfig)
    (parallelism : Option UInt64) (n : Nat) :
    let M := sharedPoolMachine config backends parallelism n
    ∃ is, (M.run is).clients.countP (fun client => client.any (Point.inCommand 0)) = n ∧
      ∃ e, (M.run is).shared.registry.executors[0]? = some (.cpu e) ∧
        e.runningTasks = UInt64.ofNat n := by
  intro M
  obtain ⟨is, ⟨-, e, he, -⟩, hclients⟩ := exists_run_waiting config backends parallelism n .quiet
    ⟨"./worker", [], [], none, none⟩ n le_rfl
  have hcount : (M.run is).clients.countP (fun client => client.any (Point.inCommand 0)) = n := by
    rw [hclients, Nat.sub_self, List.replicate_zero, List.append_nil, List.countP_replicate]
    rfl
  refine ⟨is, hcount, e, he, ?_⟩
  rw [(accounts_run config backends parallelism n is).running 0 e he, hcount]

/-! ## Where tasks are executed -/

/-- The CPU executor takes such tasks. -/
def TaskSpec.forCpu (spec : TaskSpec) : Bool :=
  (match spec.kind with
    | .binary _ => true
    | .pipeline _ => true
    | .shader => false) &&
  (spec.backend = .cpu || spec.backend = .any)

/-- A GPU executor without devices, or a remote executor that is not connected. -/
def Executor.offline : Executor → Bool
  | .cpu _ => false
  | .gpu e => e.numDevices = 0
  | .remote e => !e.connected

/-- Only the first executor can execute anything, and it is a CPU executor. -/
def ExecutorRegistry.CpuOnly (r : ExecutorRegistry) : Prop :=
  ∀ (i : Nat) (e : Executor), r.executors[i]? = some e →
    (i = 0 ∧ ∃ cpu, e = .cpu cpu) ∨ e.offline = true

/-- An execution can end like this: with an error that is not worth a retry, or a result of one of
three states. -/
def Settled : Except KernelError ExecutionResult → Prop
  | .ok result => result.state = .completed ∨ result.state = .failed ∨ result.state = .timedOut
  | .error e => e.isRetriable = false

/-- What holds of a client at a point: it is on the CPU executor with a task for it, and brings back
what an execution can end with. -/
def Point.OnCpu : Point → Prop
  | .starting sub i => i = 0 ∧ sub.currentTask.spec.forCpu = true
  | .spawning sub i _ _ => i = 0 ∧ sub.currentTask.spec.forCpu = true
  | .waiting sub i _ _ => i = 0 ∧ sub.currentTask.spec.forCpu = true
  | .leaving sub i result _ => i = 0 ∧ sub.currentTask.spec.forCpu = true ∧ Settled result
  | .finishing sub outcome =>
      Settled outcome ∧ (sub.currentTask.spec.forCpu = false → outcome = .error .notSupported)
  | _ => True

theorem Executor.canExecute_of_offline {e : Executor} (h : e.offline = true)
    (task : Task TaskSpec) : e.canExecute task = false := by
  cases e with
  | cpu e => cases h
  | gpu e =>
      have hzero : e.numDevices = 0 := by simpa [offline] using h
      simp [canExecute, GpuExecutor.canExecute, hzero]
  | remote e =>
      have hnot : e.connected = false := by simpa [offline] using h
      simp [canExecute, RemoteExecutor.canExecute, hnot]

theorem CpuExecutor.forCpu_of_canExecute {e : CpuExecutor} {task : Task TaskSpec}
    (h : e.canExecute task = true) : task.spec.forCpu = true := by
  rw [canExecute, Bool.and_eq_true] at h
  exact h.1

theorem ExecutorRegistry.CpuOnly.modify {r : ExecutorRegistry} (h : r.CpuOnly) (i : Nat)
    {f : Executor → Executor} (hcpu : ∀ cpu, ∃ cpu', f (.cpu cpu) = .cpu cpu')
    (hoff : ∀ e, e.offline = true → (f e).offline = true) :
    (ExecutorRegistry.mk (r.executors.modify i f)).CpuOnly := by
  intro j e' he'
  rw [List.getElem?_modify, Option.map_eq_map, Option.map_eq_some_iff] at he'
  obtain ⟨e, he, rfl⟩ := he'
  split_ifs
  · rcases h j e he with ⟨hj, cpu, rfl⟩ | hoffline
    · exact .inl ⟨hj, hcpu cpu⟩
    · exact .inr (hoff e hoffline)
  · exact h j e he

theorem ExecutorRegistry.CpuOnly.fromConfig (backends : BackendConfig) :
    (ExecutorRegistry.fromConfig backends).CpuOnly := by
  have hremote : (Executor.remote
      (backends.remoteWorkers.foldl (fun remote addr => remote.addWorker addr) .new)).offline
        = true := by
    have hfold : ∀ (addrs : List String) (r : RemoteExecutor),
        (addrs.foldl (fun remote addr => remote.addWorker addr) r).connected = r.connected := by
      intro addrs
      induction addrs with
      | nil => intro r; rfl
      | cons addr addrs ih =>
          intro r
          rw [List.foldl_cons, ih]
          rfl
    simp [Executor.offline, hfold, RemoteExecutor.new]
  have hgpu : (Executor.gpu .new).offline = true := rfl
  unfold ExecutorRegistry.fromConfig ExecutorRegistry.register
  intro i e he
  -- at most three executors, the first of them the CPU executor
  split_ifs at he
  all_goals
    simp only [List.nil_append, List.cons_append] at he
    rcases i with _ | _ | _ | i <;> simp at he <;> first
      | exact .inl ⟨rfl, _, he.symm⟩
      | exact .inr (he ▸ hgpu)
      | exact .inr (he ▸ hremote)

theorem Process.settled_runBinaryInternal (p : Process) (limit : Option Nat) :
    Settled (p.runBinaryInternal limit) := by
  have hbuild : ∀ (code : Option Int32) (stdout stderr : List UInt8) (elapsed : Nat) (ok : Bool),
      Settled (.ok (buildResult 0 code stdout stderr elapsed ok)) := by
    intro code stdout stderr elapsed ok
    cases ok
    · exact .inr (.inl rfl)
    · exact .inl rfl
  unfold runBinaryInternal
  cases p.spawn with
  | some reason => cases reason <;> rfl
  | none =>
      cases limit with
      | none =>
          dsimp only
          split
          · rfl
          · exact hbuild _ _ _ _ _
      | some deadline =>
          dsimp only
          split
          · split
            · rfl
            · exact hbuild _ _ _ _ _
          · exact .inr (.inr rfl)
          · rfl

theorem SharedPool.finish_onCpu (s : SharedPool) (sub : Submission)
    (outcome : Except KernelError ExecutionResult) :
    ∀ p, (s.finish sub outcome).2.point = some p → p.OnCpu := by
  intro p hp
  rw [finish_eq] at hp
  split_ifs at hp <;> cases hp
  trivial

theorem Purpose.settled_next {elapsed : Nat} {purpose : Purpose}
    {result : Except KernelError ExecutionResult} (h : Settled result)
    {o : Except KernelError ExecutionResult} (ho : purpose.next elapsed result = .outcome o) :
    Settled o := by
  cases purpose with
  | binary =>
      cases ho
      exact h
  | stage idx rest pipeOutput =>
      cases result with
      | error e =>
          cases ho
          exact h
      | ok result =>
          simp only [next] at ho
          split_ifs at ho
          · cases ho
            exact .inr (.inl rfl)
          · cases rest with
            | nil =>
                cases ho
                exact .inl rfl
            | cons stage rest => cases ho

/-- What `execute_sync` goes on with is right for a task for the CPU executor. -/
theorem Submission.onCpu_goto {sub : Submission} (h : sub.currentTask.spec.forCpu = true)
    {next : Next} (hnext : ∀ o, next = .outcome o → Settled o) : (sub.goto 0 next).OnCpu := by
  cases next with
  | command command purpose => exact ⟨rfl, h⟩
  | outcome o => exact ⟨hnext o rfl, fun hnot => by rw [h] at hnot; cases hnot⟩

/-- **One step on a registry with one executor that can do something.** -/
theorem SharedPool.exec_onCpu {s : SharedPool} (w : Outside) {p : Point}
    (hr : s.registry.CpuOnly) (hp : p.OnCpu) :
    (s.exec w p).1.registry.CpuOnly ∧ ∀ q, (s.exec w p).2.point = some q → q.OnCpu := by
  have hcpu : ∀ f cpu, ∃ cpu', (Executor.cpu cpu).mapRunningTasks f = .cpu cpu' :=
    fun f cpu => ⟨_, rfl⟩
  have hoff : ∀ f e, e.offline = true → (Executor.mapRunningTasks f e).offline = true := by
    intro f e he
    cases e with
    | cpu e => cases he
    | gpu e => exact he
    | remote e => exact he
  cases p with
  | submitting task | submittingAsync task | checkingScheduler task =>
      rw [exec]
      split_ifs
      · exact ⟨hr, fun q hq => by cases hq⟩
      · exact ⟨hr, fun q hq => by cases hq; trivial⟩
  | finding sub i =>
      rw [exec]
      split
      · refine ⟨hr, fun q hq => ?_⟩
        cases hq
        exact ⟨rfl, fun _ => rfl⟩
      · next e he =>
          split_ifs with hcan
          · refine ⟨hr, fun q hq => ?_⟩
            cases hq
            rcases hr i e he with ⟨hi, cpu, rfl⟩ | hoffline
            · exact ⟨hi, CpuExecutor.forCpu_of_canExecute hcan⟩
            · rw [Executor.canExecute_of_offline hoffline] at hcan
              cases hcan
          · exact ⟨hr, fun q hq => by cases hq; trivial⟩
  | starting sub i =>
      obtain ⟨rfl, hfor⟩ := hp
      rw [exec]
      split
      · refine ⟨hr, fun q hq => ?_⟩
        cases hq
        exact ⟨rfl, fun _ => rfl⟩
      · next e he =>
          refine ⟨hr, fun q hq => ?_⟩
          cases hq
          refine Submission.onCpu_goto hfor fun o ho => ?_
          cases e with
          | cpu e =>
              simp only [Executor.start] at ho
              split_ifs at ho
              · cases ho
                rfl
              · cases hkind : sub.currentTask.spec.kind with
                | binary task => rw [hkind] at ho; cases ho
                | pipeline task =>
                    rw [hkind] at ho
                    cases hstages : task.stages with
                    | nil =>
                        simp only [Next.ofKind, hstages, Next.ofStages, Next.outcome.injEq] at ho
                        rw [← ho]
                        exact .inl rfl
                    | cons stage rest =>
                        simp only [Next.ofKind, hstages, Next.ofStages, reduceCtorEq] at ho
                | shader =>
                    rw [hkind] at ho
                    cases ho
                    rfl
          | gpu e =>
              cases ho
              rfl
          | remote e =>
              cases ho
              rfl
  | spawning sub i command purpose =>
      refine ⟨hr.modify i (hcpu _) (hoff _), fun q hq => ?_⟩
      cases hq
      exact hp
  | waiting sub i command purpose =>
      refine ⟨hr, fun q hq => ?_⟩
      cases hq
      exact ⟨hp.1, hp.2, Process.settled_runBinaryInternal _ _⟩
  | leaving sub i result purpose =>
      obtain ⟨rfl, hfor, hresult⟩ := hp
      refine ⟨hr.modify 0 (hcpu _) (hoff _), fun q hq => ?_⟩
      cases hq
      exact Submission.onCpu_goto hfor fun o ho => Purpose.settled_next hresult ho
  | finishing sub outcome =>
      refine ⟨?_, finish_onCpu s sub outcome⟩
      rw [exec, (s.finish_registry sub outcome 0).1]
      exact hr
  | counting task | countingAsync task | stopping | stoppingScheduler =>
      exact ⟨hr, fun q hq => by cases hq; trivial⟩
  | queueing p =>
      rw [exec]
      split
      · exact ⟨hr, fun q hq => by cases hq; trivial⟩
      · exact ⟨hr, fun q hq => by cases hq⟩
  | stoppingExecutor i =>
      rw [exec]
      split
      · exact ⟨hr, fun q hq => by cases hq; trivial⟩
      · refine ⟨hr.modify i (fun cpu => ⟨_, rfl⟩) fun e he => ?_, fun q hq => by cases hq; trivial⟩
        cases e with
        | cpu e => cases he
        | gpu e => exact he
        | remote e => rfl
  | stoppingDetector => exact ⟨hr, fun q hq => by cases hq⟩

/-- Every step of the history was taken from a point that is in order, on some pool. -/
structure CpuHistory (tr : History) (s : Clients SharedPool Point) : Prop where
  registry : s.shared.registry.CpuOnly
  clients : ∀ (c : Nat) (p : Point), s.clients[c]? = some (some p) → p.OnCpu
  events : ∀ e ∈ tr.events, e.1.OnCpu ∧ ∃ t w, e.2 = (SharedPool.exec w t e.1).2

theorem cpuHistory_run (config : PoolConfig) (backends : BackendConfig)
    (parallelism : Option UInt64) (clients : Nat) (is : List (Outside × Move SharedCall)) :
    let M := sharedPoolMachine config backends parallelism clients
    CpuHistory (M.trace is) (M.run is) := by
  refine poolCode.run_history (I := CpuHistory) (.fromConfig config backends parallelism) clients
    ⟨.fromConfig backends, ?_, ?_⟩ ?_ ?_ is
  · intro c p hp
    cases List.eq_of_mem_replicate (List.mem_of_getElem? hp)
  · intro e he
    cases he
  · rintro tr s i ⟨hregistry, hclients, hevents⟩
    refine ⟨hregistry, hclients, ?_⟩
    rw [History.events_none]
    exact hevents
  · rintro tr s i c p ⟨hregistry, hclients, hevents⟩ hp
    have hat : p.OnCpu := by
      rcases hp with hp | ⟨-, call, rfl⟩
      · exact hclients c p hp
      · cases call <;> trivial
    obtain ⟨hregistry', hnext⟩ := SharedPool.exec_onCpu i.1 hregistry hat
    refine ⟨hregistry', ?_, ?_⟩
    · intro c' p' hp'
      rcases poolCode.client_take hp' with ⟨-, hgoto⟩ | ⟨-, hp'⟩
      · exact hnext p' (congrArg Progress.point hgoto)
      · exact hclients c' p' hp'
    · intro e he
      rw [History.events_some] at he
      rcases List.mem_append.mp he with he | he
      · exact hevents e he
      · rw [List.mem_singleton.mp he]
        exact ⟨hat, s.shared, i.1, rfl⟩

/-- **The GPU and the remote workers are not used.** On a pool with any configuration, in every
interleaving: every command runs on the CPU executor, for a binary or pipeline task that allows the
CPU; and a `submit` of any other task, whether a GPU or remote workers are configured or not,
returns `NotSupported` unless the pool is shut down before. -/
theorem accelerators_unused (config : PoolConfig) (backends : BackendConfig)
    (parallelism : Option UInt64) (clients : Nat) (is : List (Outside × Move SharedCall)) :
    let tr : History := (sharedPoolMachine config backends parallelism clients).trace is
    (∀ sub i command purpose progress, (.waiting sub i command purpose, progress) ∈ tr.events →
      i = 0 ∧ sub.currentTask.spec.forCpu = true) ∧
    (∀ sub outcome progress, (.finishing sub outcome, progress) ∈ tr.events →
      sub.currentTask.spec.forCpu = false →
      progress = .ret (.executed (.error .notSupported))) := by
  intro tr
  have h := cpuHistory_run config backends parallelism clients is
  constructor
  · intro sub i command purpose progress hmem
    exact (h.events _ hmem).1
  · intro sub outcome progress hmem hnot
    obtain ⟨⟨-, honly⟩, t, w, hprogress⟩ := h.events _ hmem
    dsimp only at hprogress
    rw [hprogress, honly hnot]
    rfl

/-- A pool with a GPU and a remote worker, and a binary task for the remote backend. -/
theorem accelerators_unused_remote :
    let config : PoolConfig := ⟨1, 1, .default⟩
    let M := sharedPoolMachine config ⟨true, ["10.0.0.1:9000"]⟩ none 1
    let task : Task TaskSpec := ⟨⟨.binary ⟨"./worker", [], [], none, none⟩, .remote, none⟩, 3, 0⟩
    let w := Outside.quiet
    let is := (w, .invoke 0 (.submit task)) :: List.replicate 6 (w, .advance 0)
    ∃ progress, (.finishing ⟨.new, task⟩ (.error .notSupported), progress)
        ∈ History.events (M.trace is) ∧
      progress = .ret (.executed (.error .notSupported)) := by
  intro config M task w is
  have hmem : (.finishing ⟨.new, task⟩ (.error .notSupported),
      .ret (.executed (.error .notSupported))) ∈ History.events (M.trace is) := by decide +kernel
  exact ⟨_, hmem, (accelerators_unused config ⟨true, ["10.0.0.1:9000"]⟩ none 1 is).2 _ _ _ hmem
    (by decide)⟩

/-- **Errors are not retried.** On a pool with any configuration and any retry policy, in every
interleaving and whatever the processes do: an execution that ends with an error ends its `submit`,
which returns that error; the only outcomes that are retried are results, of a command that was run
and failed or timed out. -/
theorem errors_not_retried (config : PoolConfig) (backends : BackendConfig)
    (parallelism : Option UInt64) (clients : Nat) (is : List (Outside × Move SharedCall)) :
    let tr : History := (sharedPoolMachine config backends parallelism clients).trace is
    ∀ sub outcome progress, (.finishing sub outcome, progress) ∈ tr.events →
      (∀ e, outcome = .error e → progress = .ret (.executed (.error e))) ∧
      (∀ p, progress = .goto p → ∃ result, outcome = .ok result ∧
        (result.state = .failed ∨ result.state = .timedOut) ∧ p = .finding sub.retry 0) := by
  intro tr sub outcome progress hmem
  obtain ⟨⟨hsettled, -⟩, t, w, hprogress⟩ :=
    (cpuHistory_run config backends parallelism clients is).events _ hmem
  dsimp only at hprogress
  change progress = (t.finish sub outcome).2 at hprogress
  cases outcome with
  | error e =>
      have hfinal : e.isRetriable = false := hsettled
      have hret : progress = .ret (.executed (.error e)) := by
        rw [hprogress]
        simp [SharedPool.finish, hfinal]
      refine ⟨fun e' he' => ?_, fun p hp => ?_⟩
      · cases he'
        exact hret
      · rw [hret] at hp
        cases hp
  | ok result =>
      refine ⟨fun e he => (by cases he), fun p hp => ⟨result, rfl, ?_⟩⟩
      rw [hp, SharedPool.finish_eq] at hprogress
      split_ifs at hprogress with hsuccess hretry
      · cases hprogress
        refine ⟨?_, rfl⟩
        rcases hsettled with hstate | hstate
        · exact absurd (by simpa [successful, ExecutionResult.isSuccess] using hstate) hsuccess
        · exact hstate

/-- A binary that does not exist, under a policy of three retries. -/
theorem errors_not_retried_missing :
    let config : PoolConfig := ⟨1, 1, .default⟩
    let M := sharedPoolMachine config ⟨false, []⟩ none 1
    let task : Task TaskSpec := ⟨⟨.binary ⟨"./missing", [], [], none, none⟩, .any, none⟩, 3, 0⟩
    let w : Outside := ⟨fun _ => ⟨some .notFound, fun _ => .failed, fun _ => 0, none, 0,
      fun _ => ⟨0, .inl (by decide)⟩⟩, 0⟩
    let is := (w, .invoke 0 (.submit task)) :: List.replicate 7 (w, .advance 0)
    ∃ progress, (.finishing ⟨.new, task⟩ (.error .ublkDeviceNotFound), progress)
        ∈ History.events (M.trace is) ∧
      progress = .ret (.executed (.error .ublkDeviceNotFound)) := by
  intro config M task w is
  have hmem : (.finishing ⟨.new, task⟩ (.error .ublkDeviceNotFound),
      .ret (.executed (.error .ublkDeviceNotFound))) ∈ History.events (M.trace is) := by
    decide +kernel
  exact ⟨_, hmem, (errors_not_retried config ⟨false, []⟩ none 1 is _ _ _ hmem).1 _ rfl⟩

end Pepita.Exec
