import Pepita.Exec.Concurrent
import Pepita.Scheduler.Capacity

set_option autoImplicit false

/-! # Tasks in the queues of the pool

`submit_async` puts its task into a queue of the scheduler and returns an id for it. No call of the
pool takes a task out of a queue again: `submit` executes its task on the thread of the caller and
does not look at the queues. So a queued task is never executed (`queued_never_executed`), and the
queues fill up once and for all: over its whole life the pool accepts as many tasks as they have
room for.
-/

namespace Pepita.Exec

/-! ## Where commands come from -/

/-- The task that a `submit` is about. -/
def Point.executes : Point → Option TaskSpec
  | .submitting task | .counting task => some task.spec
  | .finding sub _ | .starting sub _ | .spawning sub _ _ _ | .waiting sub _ _ _
  | .leaving sub _ _ _ | .finishing sub _ => some sub.currentTask.spec
  | _ => none

theorem Submission.executes_goto (sub : Submission) (i : Nat) (next : Next) :
    (sub.goto i next).executes = some sub.currentTask.spec := by
  cases next <;> rfl

/-- A call stays with its task, also when it tries again. -/
theorem SharedPool.exec_executes (s : SharedPool) (w : Outside) {p q : Point}
    (h : (s.exec w p).2 = .goto q) : q.executes = p.executes := by
  cases p with
  | submitting task | submittingAsync task | checkingScheduler task =>
      rw [exec] at h
      split_ifs at h
      cases h
      rfl
  | finding sub i =>
      rw [exec] at h
      split at h
      · cases h
        rfl
      · split_ifs at h <;> cases h <;> rfl
  | starting sub i =>
      rw [exec] at h
      split at h
      · cases h
        rfl
      · rw [← Progress.goto.inj h]
        exact sub.executes_goto i _
  | leaving sub i result purpose =>
      rw [← Progress.goto.inj h]
      exact sub.executes_goto i _
  | finishing sub outcome =>
      change (s.finish sub outcome).2 = _ at h
      unfold finish at h
      cases outcome with
      | ok result =>
          dsimp only at h
          split_ifs at h
          cases h
          rfl
      | error e =>
          dsimp only at h
          split_ifs at h
          cases h
          rfl
  | queueing p =>
      rw [exec] at h
      split at h <;> cases h
      rfl
  | stoppingExecutor i =>
      rw [exec] at h
      split at h <;> cases h <;> rfl
  | stoppingDetector => cases h
  | counting task | spawning sub i command purpose | waiting sub i command purpose
  | countingAsync task | stopping | stoppingScheduler =>
      cases h
      rfl

/-- Some client has submitted a task with this content. -/
def Submitted (is : List (Outside × Move SharedCall)) (spec : TaskSpec) : Prop :=
  ∃ w c task, (w, .invoke c (.submit task)) ∈ is ∧ task.spec = spec

theorem Submitted.append {is : List (Outside × Move SharedCall)} {spec : TaskSpec}
    (h : Submitted is spec) (js : List (Outside × Move SharedCall)) :
    Submitted (is ++ js) spec := by
  obtain ⟨w, c, task, hmem, hspec⟩ := h
  exact ⟨w, c, task, List.mem_append_left js hmem, hspec⟩

/-! ## What is in the queues -/

/-- The task that a step puts into a queue. -/
def Event.accepted : Event → Multiset (Task TaskSpec)
  | (.queueing (.pushing task _), .goto _) => {task}
  | _ => 0

/-- The tasks that were accepted. -/
def History.accepted (tr : History) : Multiset (Task TaskSpec) := (tr.events.map Event.accepted).sum

theorem History.accepted_append (tr tr' : History) :
    History.accepted (tr ++ tr') = tr.accepted + tr'.accepted := by
  rw [accepted, events, List.filterMap_append, List.map_append, List.sum_append]
  rfl

/-- A scheduler with `n` workers, with queues of `capacity` each. -/
def Sized (n : Nat) (capacity : UInt64) (s : Sched.Scheduler (Task TaskSpec)) : Prop :=
  s.workers.length = n ∧ ∀ w ∈ s.workers, w.deque.capacity = capacity

theorem Sized.card_tasks_le {n : Nat} {capacity : UInt64} {s : Sched.Scheduler (Task TaskSpec)}
    (h : Sized n capacity s) (hwf : s.WF) : s.tasks.card ≤ n * capacity.toNat := by
  have hle : ∀ x ∈ s.workers.map fun w => w.deque.deque.length, x ≤ capacity.toNat := by
    intro x hx
    obtain ⟨w, hw, rfl⟩ := List.mem_map.mp hx
    rw [← h.2 w hw]
    exact (hwf w hw).le_capacity
  calc s.tasks.card
      = (s.workers.map fun w => w.deque.deque.length).sum := by
        rw [Sched.Scheduler.tasks, Multiset.coe_card, List.length_flatMap]
    _ ≤ (s.workers.map fun w => w.deque.deque.length).length • capacity.toNat :=
        List.sum_le_card_nsmul _ _ hle
    _ = n * capacity.toNat := by rw [List.length_map, h.1, smul_eq_mul]

theorem Sized.access {n : Nat} {capacity : UInt64} {s : Sched.Scheduler (Task TaskSpec)}
    (h : Sized n capacity s) (target : Nat) (task : Task TaskSpec) :
    Sized n capacity (s.access target (fun q => q.push task) (.error .ublkQueueFull)).1 := by
  cases hw : s.workers[target]? with
  | none =>
      rw [Sched.Scheduler.access_of_none hw]
      exact h
  | some w =>
      rw [Sched.Scheduler.access_of_getElem? hw]
      refine ⟨List.length_set.trans h.1, fun w' hw' => ?_⟩
      rcases List.mem_or_eq_of_mem_set hw' with hmem | rfl
      · exact h.2 w' hmem
      · exact (Sched.WorkStealingDeque.push_capacity task w.deque).trans
          (h.2 w (List.mem_of_getElem? hw))

/-- What a step does to the queues: it puts in the task that is accepted, if any. -/
structure Queues (n : Nat) (capacity : UInt64) (s s' : SharedPool) (e : Event) : Prop where
  tasks : s'.pool.scheduler.tasks = s.pool.scheduler.tasks + e.accepted
  sized : Sized n capacity s'.pool.scheduler

namespace SharedPool

variable {n : Nat} {capacity : UInt64} {s : SharedPool}

/-- A step that does not touch the queues. -/
theorem queues_of_same (h : Sized n capacity s.pool.scheduler) {s' : SharedPool} {e : Event}
    (hworkers : s'.pool.scheduler.workers = s.pool.scheduler.workers) (he : e.accepted = 0) :
    Queues n capacity s s' e := by
  constructor
  · rw [he, add_zero, Sched.Scheduler.tasks, Sched.Scheduler.tasks, hworkers]
  · rw [Sized, hworkers]
    exact h

theorem finish_queues (h : Sized n capacity s.pool.scheduler) (sub : Submission)
    (outcome : Except KernelError ExecutionResult) :
    Queues n capacity s (s.finish sub outcome).1 (.finishing sub outcome, (s.finish sub outcome).2) := by
  apply queues_of_same h _ rfl
  unfold finish
  cases outcome with
  | ok result =>
      dsimp only
      split_ifs <;> rfl
  | error e =>
      dsimp only
      split_ifs <;> rfl

/-- The push of the scheduler's `submit`. -/
theorem pushing_queues (h : Sized n capacity s.pool.scheduler) (hwf : s.pool.scheduler.WF)
    (w : Outside) (task : Task TaskSpec) (target : Nat) :
    Queues n capacity s (s.exec w (.queueing (.pushing task target))).1
      (.queueing (.pushing task target), (s.exec w (.queueing (.pushing task target))).2) := by
  obtain ⟨-, htasks, -⟩ := Sched.Scheduler.pushTo_effect hwf target task
  have hsized := h.access target task
  rw [Sched.Scheduler.pushTo] at htasks
  rw [exec, Sched.Scheduler.lockedStep]
  cases hpush : s.pool.scheduler.access target (fun q => q.push task)
      (.error KernelError.ublkQueueFull) with
  | mk sched result =>
      rw [hpush] at htasks hsized
      cases result with
      | ok u => exact ⟨htasks, hsized⟩
      | error e => exact ⟨htasks, hsized⟩

/-- **What one step does to the queues.** -/
theorem exec_queues (h : Sized n capacity s.pool.scheduler) (hwf : s.pool.scheduler.WF)
    (w : Outside) {p : Point} (hp : p.placed = true) :
    Queues n capacity s (s.exec w p).1 (p, (s.exec w p).2) := by
  cases p with
  | submitting task | submittingAsync task | checkingScheduler task =>
      rw [exec]
      split_ifs <;> exact queues_of_same h rfl rfl
  | finding sub i =>
      rw [exec]
      split
      · exact queues_of_same h rfl rfl
      · split_ifs <;> exact queues_of_same h rfl rfl
  | starting sub i | stoppingExecutor i =>
      rw [exec]
      split <;> exact queues_of_same h rfl rfl
  | finishing sub outcome => exact finish_queues h sub outcome
  | queueing p =>
      cases p with
      | drawing task =>
          rw [exec, Sched.Scheduler.lockedStep]
          split_ifs <;> exact queues_of_same h rfl rfl
      | scanning task start i =>
          rw [exec, Sched.Scheduler.lockedStep]
          split_ifs <;> exact queues_of_same h rfl rfl
      | sizing task start i =>
          rw [exec, Sched.Scheduler.lockedStep]
          cases s.pool.scheduler.workers[(start + i) % s.pool.scheduler.workers.length]? with
          | none => exact queues_of_same h rfl rfl
          | some worker =>
              dsimp only
              split_ifs <;> exact queues_of_same h rfl rfl
      | pushing task target => exact pushing_queues h hwf w task target
      | numbering task => exact queues_of_same h rfl rfl
      | _ => cases hp
  | counting task | spawning sub i command purpose | waiting sub i command purpose
  | leaving sub i result purpose | countingAsync task | stopping | stoppingScheduler
  | stoppingDetector => exact queues_of_same h rfl rfl

end SharedPool

/-! ## Whole runs -/

/-- What is in the queues and where the commands come from, after the history `tr`. -/
structure Traces (n : Nat) (capacity : UInt64) (tr : History) (s : Clients SharedPool Point) :
    Prop where
  accounts : Accounts tr s
  tasks : s.shared.pool.scheduler.tasks = tr.accepted
  sized : Sized n capacity s.shared.pool.scheduler
  clients : ∀ (c : Nat) (p : Point), s.clients[c]? = some (some p) →
    ∀ spec, p.executes = some spec → Submitted (tr.map Prod.fst) spec
  events : ∀ e ∈ tr.events, ∀ spec, e.1.executes = some spec → Submitted (tr.map Prod.fst) spec

namespace Traces

variable {n : Nat} {capacity : UInt64} {tr : History} {s : Clients SharedPool Point}

theorem skip (h : Traces n capacity tr s) (i : Outside × Move SharedCall) :
    Traces n capacity (tr ++ [(i, none)]) s := by
  refine ⟨h.accounts.skip i, ?_, h.sized, fun c p hp spec hspec => ?_, fun e he spec hspec => ?_⟩
  · rw [History.accepted_append]
    exact h.tasks.trans (add_zero _).symm
  · rw [List.map_append]
    exact (h.clients c p hp spec hspec).append _
  · rw [History.events_none] at he
    rw [List.map_append]
    exact (h.events e he spec hspec).append _

/-- **One step of one client.** -/
theorem take (h : Traces n capacity tr s) (i : Outside × Move SharedCall) {c : Nat} {p : Point}
    (hturn : poolCode.turn s i.2 = some (c, p)) :
    Traces n capacity (tr ++ [(i, some (p, (poolCode.exec i.1 s.shared p).2))])
      (poolCode.take i.1 s c p) := by
  have hp := poolCode.at_of_turn hturn
  have hqueues := SharedPool.exec_queues h.sized h.accounts.wf i.1 (h.accounts.placed_at hp)
  -- the task of the step was submitted: before, or by this action
  have hsubmitted : ∀ spec, p.executes = some spec →
      Submitted ((tr ++ [(i, some (p, (poolCode.exec i.1 s.shared p).2))]).map Prod.fst) spec := by
    intro spec hspec
    rw [List.map_append]
    rcases poolCode.turn_cases hturn with ⟨-, hp⟩ | ⟨call, hcall, -, rfl⟩
    · exact (h.clients c p hp spec hspec).append _
    · cases call with
      | submit task =>
          refine ⟨i.1, c, task, List.mem_append_right _ ?_, Option.some_inj.mp hspec⟩
          rw [← hcall]
          exact List.mem_singleton.mpr rfl
      | submitAsync task => cases hspec
      | shutdown => cases hspec
  refine ⟨h.accounts.take i hp, ?_, hqueues.sized, fun c' q hq spec hspec => ?_,
    fun e he spec hspec => ?_⟩
  · rw [History.accepted_append, ← h.tasks]
    refine hqueues.tasks.trans (congrArg (_ + ·) ?_)
    simp [History.accepted, History.events, poolCode]
  · rcases poolCode.client_take hq with ⟨-, hnext⟩ | ⟨-, hq⟩
    · exact hsubmitted spec ((SharedPool.exec_executes s.shared i.1 hnext).symm.trans hspec)
    · rw [List.map_append]
      exact (h.clients c' q hq spec hspec).append _
  · rw [History.events_some] at he
    rcases List.mem_append.mp he with he | he
    · rw [List.map_append]
      exact (h.events e he spec hspec).append _
    · cases List.mem_singleton.mp he
      exact hsubmitted spec hspec

end Traces

theorem traces_run (config : PoolConfig) (backends : BackendConfig) (parallelism : Option UInt64)
    (clients : Nat) (is : List (Outside × Move SharedCall)) :
    let M := sharedPoolMachine config backends parallelism clients
    Traces (config.workers parallelism).toNat config.queueCapacity (M.trace is) (M.run is) := by
  intro M
  refine poolCode.runFrom_turns _ _ _ ?_ (fun _ _ i h => h.skip i)
    (fun _ _ i _ _ h hturn => h.take i hturn) is
  have huniform := Sched.Scheduler.Uniform.withCapacity (T := Task TaskSpec)
    (config.workers parallelism) config.queueCapacity
  refine ⟨.init config backends parallelism clients, ?_, ?_, ?_, fun e he => by cases he⟩
  · exact Sched.Scheduler.tasks_withCapacity _ _
  · exact ⟨huniform.length_eq, fun w hw => (huniform.worker w hw).2⟩
  · intro c p hp
    cases List.eq_of_mem_replicate (List.mem_of_getElem? hp)

theorem trace_inputs (config : PoolConfig) (backends : BackendConfig)
    (parallelism : Option UInt64) (clients : Nat) (is : List (Outside × Move SharedCall)) :
    ((sharedPoolMachine config backends parallelism clients).trace is).map Prod.fst = is :=
  Machine.traceFrom_inputs _ _ _

end Pepita.Exec
