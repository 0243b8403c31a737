import Pepita.Exec.Concurrent
import Pepita.Scheduler.Lock

set_option autoImplicit false

/-! # Shutting down a pool that is in use

`shutdown` clears the flag of the pool, of the scheduler, of each executor and of the failure
detector, one after the other, while other clients go on. It waits for nobody: calls that are under
way when it returns come to their end later.

* `no_execution_after_shutdown`: once a `shutdown` has returned, no flag is ever set again, every
  new submission is refused, and no execution begins.
* `returns_after_shutdown`: every call that is then under way returns after a number of its own
  steps that the call itself determines, if the commands that it runs end. It may still run the
  stages left of a pipeline.
-/

namespace Pepita.Exec

open Pepita.Fault

/-! ## Flags -/

namespace SharedPool

/-- All flags are cleared. -/
structure Stopped (s : SharedPool) : Prop where
  pool : s.pool.running = false
  scheduler : s.pool.scheduler.running = false
  executors : ∀ e ∈ s.registry.executors, e.isOpen = false
  detector : s.detectorRunning = false

/-- The flags that are cleared in `s` are cleared in `s'`, and the executors and the workers of the
scheduler are the same ones. -/
structure Closes (s s' : SharedPool) : Prop where
  pool : s.pool.running = false → s'.pool.running = false
  scheduler : s.pool.scheduler.running = false → s'.pool.scheduler.running = false
  executors : s'.registry.executors.length = s.registry.executors.length ∧
    ∀ (i : Nat) (e' : Executor), s'.registry.executors[i]? = some e' →
      ∃ e, s.registry.executors[i]? = some e ∧ (e.isOpen = false → e'.isOpen = false)
  detector : s.detectorRunning = false → s'.detectorRunning = false
  workers : s'.pool.scheduler.workers.length = s.pool.scheduler.workers.length

theorem Closes.refl (s : SharedPool) : s.Closes s :=
  ⟨id, id, ⟨rfl, fun _ e he => ⟨e, he, id⟩⟩, id, rfl⟩

/-- A step that does not touch the registry. -/
theorem Closes.of_registry_eq {s s' : SharedPool} (hregistry : s'.registry = s.registry)
    (hpool : s.pool.running = false → s'.pool.running = false)
    (hsched : s.pool.scheduler.running = false → s'.pool.scheduler.running = false)
    (hdetector : s.detectorRunning = false → s'.detectorRunning = false)
    (hworkers : s'.pool.scheduler.workers.length = s.pool.scheduler.workers.length) :
    s.Closes s' :=
  ⟨hpool, hsched, hregistry ▸ ⟨rfl, fun _ e he => ⟨e, he, id⟩⟩, hdetector, hworkers⟩

/-- A change of one executor that does not open it. -/
theorem Closes.modifyExecutor (s : SharedPool) (i : Nat) {f : Executor → Executor}
    (hf : ∀ e, e.isOpen = false → (f e).isOpen = false) : s.Closes (s.modifyExecutor i f) := by
  refine ⟨id, id, ⟨List.length_modify _ _ _, ?_⟩, id, rfl⟩
  intro j e' he'
  rw [SharedPool.modifyExecutor, List.getElem?_modify, Option.map_eq_map,
    Option.map_eq_some_iff] at he'
  obtain ⟨e, he, rfl⟩ := he'
  refine ⟨e, he, fun hclosed => ?_⟩
  split_ifs
  · exact hf e hclosed
  · exact hclosed

theorem Stopped.mono {s s' : SharedPool} (h : s.Stopped) (hs : s.Closes s') : s'.Stopped := by
  refine ⟨hs.pool h.pool, hs.scheduler h.scheduler, fun e' he' => ?_, hs.detector h.detector⟩
  obtain ⟨i, hi⟩ := List.mem_iff_getElem?.mp he'
  obtain ⟨e, he, hclosed⟩ := hs.executors.2 i e' hi
  exact hclosed (h.executors e (List.mem_of_getElem? he))

end SharedPool

theorem Executor.isOpen_mapRunningTasks (f : UInt64 → UInt64) (e : Executor) :
    (e.mapRunningTasks f).isOpen = e.isOpen := by
  cases e <;> rfl

theorem Executor.isOpen_shutdown (e : Executor) : e.shutdown.isOpen = false := by
  cases e <;> rfl

theorem Executor.canExecute_of_closed {e : Executor} (h : e.isOpen = false)
    (task : Task TaskSpec) : e.canExecute task = false := by
  cases e with
  | cpu e =>
      change e.running = false at h
      simp [canExecute, CpuExecutor.canExecute, h]
  | gpu e =>
      change e.running = false at h
      simp [canExecute, GpuExecutor.canExecute, h]
  | remote e =>
      change e.connected = false at h
      simp [canExecute, RemoteExecutor.canExecute, h]

/-- A closed executor starts nothing. -/
theorem Executor.start_of_closed {e : Executor} (h : e.isOpen = false) (elapsed : Nat)
    (task : Task TaskSpec) :
    e.start elapsed task = .outcome (.error .deviceNotReady) ∨
      e.start elapsed task = .outcome (.error .notSupported) := by
  cases e with
  | cpu e =>
      change e.running = false at h
      exact .inl (by simp [start, h])
  | gpu e => exact .inr rfl
  | remote e => exact .inr rfl

namespace SharedPool

variable {s : SharedPool}

theorem finish_closes (s : SharedPool) (sub : Submission)
    (outcome : Except KernelError ExecutionResult) : s.Closes (s.finish sub outcome).1 := by
  unfold finish
  cases outcome with
  | ok result =>
      dsimp only
      split_ifs <;> exact .of_registry_eq rfl id id id rfl
  | error e =>
      dsimp only
      split_ifs <;> exact .of_registry_eq rfl id id id rfl

/-- **No step sets a flag.** -/
theorem exec_closes (w : Outside) (s : SharedPool) (p : Point) : s.Closes (s.exec w p).1 := by
  cases p with
  | submitting task | submittingAsync task | checkingScheduler task =>
      rw [exec]
      split_ifs <;> exact .refl s
  | finding sub i =>
      rw [exec]
      split
      · exact .refl s
      · split_ifs <;> exact .refl s
  | starting sub i =>
      rw [exec]
      split <;> exact .refl s
  | spawning sub i command purpose | leaving sub i result purpose =>
      refine .modifyExecutor s i fun e he => ?_
      rw [Executor.isOpen_mapRunningTasks]
      exact he
  | waiting sub i command purpose => exact .refl s
  | finishing sub outcome => exact finish_closes s sub outcome
  | counting task | countingAsync task => exact .of_registry_eq rfl id id id rfl
  | queueing p =>
      have hframe := s.pool.scheduler.lockedStep_frame p
      rw [exec]
      split
      all_goals
        next heq =>
          rw [heq] at hframe
          exact .of_registry_eq rfl id (fun h => hframe.running_eq.trans h) id hframe.length_eq
  | stopping => exact .of_registry_eq rfl (fun _ => rfl) id id rfl
  | stoppingScheduler => exact .of_registry_eq rfl id (fun _ => rfl) id rfl
  | stoppingExecutor i =>
      rw [exec]
      split
      · exact .refl s
      · exact .modifyExecutor s i fun e _ => e.isOpen_shutdown
  | stoppingDetector => exact .of_registry_eq rfl id id (fun _ => rfl) rfl

/-! ## The course of a shutdown -/

/-- What a `shutdown` has done by the time it is at a point. -/
def Reached (s : SharedPool) : Point → Prop
  | .stoppingScheduler => s.pool.running = false
  | .stoppingExecutor i =>
      s.pool.running = false ∧ s.pool.scheduler.running = false ∧
        ∀ (j : Nat) (e : Executor), j < i → s.registry.executors[j]? = some e → e.isOpen = false
  | .stoppingDetector =>
      s.pool.running = false ∧ s.pool.scheduler.running = false ∧
        ∀ e ∈ s.registry.executors, e.isOpen = false
  | _ => True

theorem Reached.mono {s' : SharedPool} {p : Point} (h : s.Reached p) (hs : s.Closes s') :
    s'.Reached p := by
  cases p with
  | stoppingScheduler => exact hs.pool h
  | stoppingExecutor i =>
      obtain ⟨hpool, hsched, hexec⟩ := h
      refine ⟨hs.pool hpool, hs.scheduler hsched, fun j e' hj he' => ?_⟩
      obtain ⟨e, he, hclosed⟩ := hs.executors.2 j e' he'
      exact hclosed (hexec j e hj he)
  | stoppingDetector =>
      obtain ⟨hpool, hsched, hexec⟩ := h
      refine ⟨hs.pool hpool, hs.scheduler hsched, fun e' he' => ?_⟩
      obtain ⟨j, hj⟩ := List.mem_iff_getElem?.mp he'
      obtain ⟨e, he, hclosed⟩ := hs.executors.2 j e' hj
      exact hclosed (hexec e (List.mem_of_getElem? he))
  | _ => trivial

/-- The calls other than `shutdown`. -/
def isOther : Point → Bool
  | .stopping => false
  | .stoppingScheduler => false
  | .stoppingExecutor _ => false
  | .stoppingDetector => false
  | _ => true

theorem finish_other (s : SharedPool) (sub : Submission)
    (outcome : Except KernelError ExecutionResult) :
    (s.finish sub outcome).2 ≠ .ret .stopped ∧
      (s.finish sub outcome).2.point.all isOther = true := by
  unfold finish
  cases outcome with
  | ok result =>
      dsimp only
      split_ifs <;> exact ⟨by simp, rfl⟩
  | error e =>
      dsimp only
      split_ifs <;> exact ⟨by simp, rfl⟩

/-- They do not turn into a `shutdown`. -/
theorem exec_other (w : Outside) (s : SharedPool) {p : Point} (h : isOther p = true) :
    (s.exec w p).2 ≠ .ret .stopped ∧ (s.exec w p).2.point.all isOther = true := by
  have hgoto : ∀ (sub : Submission) (i : Nat) (next : Next), isOther (sub.goto i next) = true := by
    intro sub i next
    cases next <;> rfl
  cases p with
  | submitting task | submittingAsync task | checkingScheduler task =>
      rw [exec]
      split_ifs <;> exact ⟨by simp, rfl⟩
  | finding sub i =>
      rw [exec]
      split
      · exact ⟨by simp, rfl⟩
      · split_ifs <;> exact ⟨by simp, rfl⟩
  | starting sub i =>
      rw [exec]
      split
      · exact ⟨by simp, rfl⟩
      · exact ⟨by simp, hgoto sub i _⟩
  | leaving sub i result purpose => exact ⟨by simp [exec], hgoto sub i _⟩
  | finishing sub outcome => exact finish_other s sub outcome
  | queueing p =>
      rw [exec]
      split <;> exact ⟨by simp, rfl⟩
  | counting task | countingAsync task | spawning sub i command purpose
  | waiting sub i command purpose => exact ⟨by simp [exec], rfl⟩
  | stopping | stoppingScheduler | stoppingExecutor i | stoppingDetector => cases h

/-- The next store of a `shutdown`. -/
theorem Reached.exec (w : Outside) {p : Point} (h : s.Reached p) :
    (∀ p', (s.exec w p).2 = .goto p' → (s.exec w p).1.Reached p') ∧
      ((s.exec w p).2 = .ret .stopped → (s.exec w p).1.Stopped) := by
  cases hother : isOther p with
  | true =>
      obtain ⟨hret, hpoint⟩ := exec_other w s hother
      refine ⟨fun p' hp' => ?_, fun hp => absurd hp hret⟩
      rw [hp'] at hpoint
      change isOther p' = true at hpoint
      cases p' <;> trivial
  | false =>
      cases p with
      | stopping =>
          refine ⟨?_, fun hp => by cases hp⟩
          rintro p' ⟨⟩
          rfl
      | stoppingScheduler =>
          refine ⟨?_, fun hp => by cases hp⟩
          rintro p' ⟨⟩
          exact ⟨h, rfl, fun j e hj => absurd hj (Nat.not_lt_zero j)⟩
      | stoppingExecutor i =>
          obtain ⟨hpool, hsched, hexec⟩ := h
          rw [SharedPool.exec]
          split
          · next hnone =>
              refine ⟨?_, fun hp => by cases hp⟩
              rintro p' ⟨⟩
              refine ⟨hpool, hsched, fun e he => ?_⟩
              obtain ⟨j, hj⟩ := List.mem_iff_getElem?.mp he
              have hlt := (List.getElem?_eq_some_iff.mp hj).1
              exact hexec j e (hlt.trans_le (List.getElem?_eq_none_iff.mp hnone)) hj
          · next e₀ he₀ =>
              refine ⟨?_, fun hp => by cases hp⟩
              rintro p' ⟨⟩
              refine ⟨hpool, hsched, fun j e hj he => ?_⟩
              change (s.registry.executors.modify i Executor.shutdown)[j]? = some e at he
              rw [List.getElem?_modify, Option.map_eq_map, Option.map_eq_some_iff] at he
              obtain ⟨e₁, he₁, rfl⟩ := he
              split_ifs with hij
              · exact e₁.isOpen_shutdown
              · exact hexec j e₁ (by omega) he₁
      | stoppingDetector =>
          refine ⟨fun p' hp' => (by cases hp'), fun _ => ?_⟩
          exact ⟨h.1, h.2.1, h.2.2, rfl⟩
      | _ => cases hother

end SharedPool

/-- A `shutdown` has returned. -/
def History.ShutDown (tr : History) : Prop :=
  ∃ p, (p, .ret .stopped) ∈ tr.events

/-- What the stores of the shutdowns have come to. -/
structure Closing (tr : History) (s : Clients SharedPool Point) : Prop where
  reached : ∀ (c : Nat) (p : Point), s.clients[c]? = some (some p) → s.shared.Reached p
  stopped : tr.ShutDown → s.shared.Stopped

theorem closing_run (config : PoolConfig) (backends : BackendConfig) (parallelism : Option UInt64)
    (clients : Nat) (is : List (Outside × Move SharedCall)) :
    let M := sharedPoolMachine config backends parallelism clients
    Closing (M.trace is) (M.run is) := by
  refine poolCode.run_history (I := Closing) _ _ ⟨?_, ?_⟩ ?_ ?_ is
  · intro c p hp
    have hmem := List.mem_of_getElem? hp
    cases List.eq_of_mem_replicate hmem
  · rintro ⟨p, hmem⟩
    cases hmem
  · rintro tr s i ⟨hreached, hstopped⟩
    refine ⟨hreached, fun ⟨p, hmem⟩ => hstopped ⟨p, ?_⟩⟩
    rw [History.events_none] at hmem
    exact hmem
  · rintro tr s i c p ⟨hreached, hstopped⟩ hp
    have hcloses : s.shared.Closes (poolCode.exec i.1 s.shared p).1 :=
      SharedPool.exec_closes i.1 s.shared p
    have hat : s.shared.Reached p := by
      rcases hp with hp | ⟨-, call, rfl⟩
      · exact hreached c p hp
      · cases call <;> trivial
    obtain ⟨hgoto, hret⟩ := hat.exec i.1
    constructor
    · intro c' p' hp'
      rcases poolCode.client_take hp' with ⟨-, hnext⟩ | ⟨-, hp'⟩
      · exact hgoto p' hnext
      · exact (hreached c' p' hp').mono hcloses
    · rintro ⟨q, hmem⟩
      rw [History.events_some] at hmem
      rcases List.mem_append.mp hmem with hmem | hmem
      · exact (hstopped ⟨q, hmem⟩).mono hcloses
      · have heq := List.mem_singleton.mp hmem
        exact hret (congrArg Prod.snd heq).symm

/-! ## After a shutdown -/

/-- What a step does on a stopped pool: a submission is refused, no executor can execute a task, and
one that has been found before does not start it. -/
def Event.Barred : Event → Prop
  | (.submitting _, progress) => progress = .ret (.executed (.error .deviceNotReady))
  | (.submittingAsync _, progress) => progress = .ret (.queued (.error .deviceNotReady))
  | (.finding sub i, progress) =>
      progress = .goto (.finding sub (i + 1)) ∨
        progress = .goto (.finishing sub (.error .notSupported))
  | (.starting sub _, progress) =>
      progress = .goto (.finishing sub (.error .deviceNotReady)) ∨
        progress = .goto (.finishing sub (.error .notSupported))
  | (.checkingScheduler _, progress) => progress = .ret (.queued (.error .ublkQueueFull))
  | _ => True

theorem SharedPool.Stopped.barred {s : SharedPool} (h : s.Stopped) (w : Outside) (p : Point) :
    Event.Barred (p, (s.exec w p).2) := by
  cases p with
  | submitting task | submittingAsync task =>
      rw [exec, if_pos (by simp [h.pool])]
      rfl
  | finding sub i =>
      rw [exec]
      split
      · exact .inr rfl
      · next e he =>
          have hclosed := h.executors e (List.mem_of_getElem? he)
          rw [Executor.canExecute_of_closed hclosed, if_neg (by simp)]
          exact .inl rfl
  | starting sub i =>
      rw [exec]
      split
      · exact .inr rfl
      · next e he =>
          have hclosed := h.executors e (List.mem_of_getElem? he)
          rcases Executor.start_of_closed hclosed w.elapsed sub.currentTask with hstart | hstart
          · rw [hstart]
            exact .inl rfl
          · rw [hstart]
            exact .inr rfl
  | checkingScheduler task =>
      rw [exec, if_pos (by simp [h.scheduler])]
      rfl
  | _ => trivial

/-- From a state in which all flags are cleared they stay cleared, and every step is barred. -/
theorem stopped_runFrom (config : PoolConfig) (backends : BackendConfig)
    (parallelism : Option UInt64) (clients : Nat) (js : List (Outside × Move SharedCall)) :
    let M := sharedPoolMachine config backends parallelism clients
    ∀ s : Clients SharedPool Point, s.shared.Stopped →
      (M.runFrom s js).shared.Stopped ∧
      ∀ e ∈ History.events (M.traceFrom s js), Event.Barred e := by
  intro M
  induction js with
  | nil =>
      intro s hs
      refine ⟨hs, fun e hmem => ?_⟩
      cases hmem
  | cons j js ih =>
      intro s hs
      show (M.runFrom (poolCode.step s j).1 js).shared.Stopped ∧
        ∀ e ∈ History.events ((j, (poolCode.step s j).2) ::
          M.traceFrom (poolCode.step s j).1 js), Event.Barred e
      rcases poolCode.step_cases s j with ⟨-, heq⟩ | ⟨c, p, -, -, heq⟩
      · rw [heq]
        exact ih s hs
      · rw [heq]
        obtain ⟨hstopped, hbarred⟩ := ih (poolCode.take j.1 s c p)
          (hs.mono (SharedPool.exec_closes j.1 s.shared p))
        refine ⟨hstopped, fun e hmem => ?_⟩
        rcases List.mem_cons.mp hmem with hfirst | hrest
        · rw [hfirst]
          exact hs.barred j.1 p
        · exact hbarred e hrest

/-- **A shutdown is final.** Once a `shutdown` has returned, whatever was under way and whatever
comes after: the flags of the pool, the scheduler, every executor and the detector stay cleared; a
`submit` or `submit_async` that starts then is refused with `DeviceNotReady`; a `submit` that was
between two executions finds no executor; and no executor starts a task, not even one that had just
said that it can execute it. -/
theorem no_execution_after_shutdown (config : PoolConfig) (backends : BackendConfig)
    (parallelism : Option UInt64) (clients : Nat) (is js : List (Outside × Move SharedCall)) :
    let M := sharedPoolMachine config backends parallelism clients
    History.ShutDown (M.trace is) →
      (M.run (is ++ js)).shared.Stopped ∧
      ∀ e ∈ History.events (M.traceFrom (M.run is) js), Event.Barred e := by
  intro M hdown
  have hstopped := (closing_run config backends parallelism clients is).stopped hdown
  rw [M.run_append]
  exact stopped_runFrom config backends parallelism clients js (M.run is) hstopped

/-- One client shuts the pool down; another has found the CPU executor just before, and gets
`DeviceNotReady` from it. -/
theorem no_execution_after_shutdown_race :
    let config : PoolConfig := ⟨1, 1, .default⟩
    let M := sharedPoolMachine config ⟨false, []⟩ none 2
    let task : Task TaskSpec := ⟨⟨.binary ⟨"./worker", [], [], none, none⟩, .any, none⟩, 3, 0⟩
    let act := fun a : Move SharedCall => (Outside.quiet, a)
    let is := [act (.invoke 0 (.submit task)), act (.advance 0), act (.advance 0),
      act (.invoke 1 .shutdown), act (.advance 1), act (.advance 1), act (.advance 1),
      act (.advance 1)]
    History.ShutDown (M.trace is) ∧
    (M.run is).clients[0]? = some (some (.starting ⟨.new, task⟩ 0)) ∧
    (M.run (is ++ [act (.advance 0)])).shared.Stopped := by
  intro config M task act is
  have hdown : History.ShutDown (M.trace is) :=
    ⟨.stoppingDetector, by decide +kernel⟩
  exact ⟨hdown, by decide +kernel,
    (no_execution_after_shutdown config ⟨false, []⟩ none 2 is [act (.advance 0)] hdown).1⟩

/-! ## The calls under way -/

/-- The commands that may still be run after one. -/
def Purpose.commandsLeft : Purpose → Nat
  | .binary => 0
  | .stage _ rest _ => rest.length

/-- How many steps a call takes at most from a point on a stopped pool with `executors` executors and
`workers` workers. After its last command a `submit` may ask each executor once more, and a
`submit_async` that has found the scheduler running may look at each worker. -/
def Point.stepsLeft (executors workers : Nat) : Point → Nat
  | .submitting _ => 1
  | .counting _ => executors + 4
  | .finding _ i => executors - i + 2
  | .starting _ _ => 2
  | .spawning _ _ _ purpose => 3 * purpose.commandsLeft + 3 + (executors + 3)
  | .waiting _ _ _ purpose => 3 * purpose.commandsLeft + 2 + (executors + 3)
  | .leaving _ _ _ purpose => 3 * purpose.commandsLeft + 1 + (executors + 3)
  | .finishing _ outcome => if conclusive outcome then 1 else executors + 3
  | .submittingAsync _ => 1
  | .countingAsync _ => 2
  | .checkingScheduler _ => 1
  | .queueing p => p.stepsLeft workers
  | .stopping => executors + 4
  | .stoppingScheduler => executors + 3
  | .stoppingExecutor i => executors - i + 2
  | .stoppingDetector => 1

/-- The steps left of a client, none of which is left to one in no call. -/
def stepsLeft (executors workers : Nat) (client : Option Point) : Nat :=
  client.elim 0 (Point.stepsLeft executors workers)

theorem stepsLeft_eq_zero_iff (executors workers : Nat) (client : Option Point) :
    stepsLeft executors workers client = 0 ↔ client = none := by
  cases client with
  | none => simp [stepsLeft]
  | some p =>
      have hpos : 0 < p.stepsLeft executors workers := by
        cases p
        case finishing sub outcome =>
          simp only [Point.stepsLeft]
          split_ifs <;> omega
        case queueing p => exact p.stepsLeft_pos workers
        all_goals simp [Point.stepsLeft]
      simp only [stepsLeft, Option.elim_some, reduceCtorEq, iff_false]
      omega

/-- What follows a command has fewer commands left, or none. -/
theorem Next.stepsLeft_goto (sub : Submission) (i : Nat) (executors workers : Nat) (next : Next) :
    (sub.goto i next).stepsLeft executors workers ≤ executors + 3 ∨
      ∃ command purpose, next = .command command purpose ∧
        (sub.goto i next).stepsLeft executors workers
          = 3 * purpose.commandsLeft + 3 + (executors + 3) := by
  cases next with
  | command command purpose => exact .inr ⟨command, purpose, rfl, rfl⟩
  | outcome o =>
      left
      simp only [Submission.goto, Point.stepsLeft]
      split_ifs <;> omega

theorem Purpose.commandsLeft_next {elapsed : Nat} {purpose : Purpose}
    {result : Except KernelError ExecutionResult} {command : BinaryTask} {purpose' : Purpose}
    (h : purpose.next elapsed result = .command command purpose') :
    purpose'.commandsLeft < purpose.commandsLeft := by
  cases purpose with
  | binary => cases h
  | stage idx rest pipeOutput =>
      cases result with
      | error e => cases h
      | ok result =>
          simp only [next] at h
          split_ifs at h
          cases rest with
          | nil => cases h
          | cons stage rest =>
              simp only [Next.ofStages, Next.command.injEq] at h
              rw [← h.2]
              exact Nat.lt_succ_self rest.length

theorem SharedPool.finish_stepsLeft (s : SharedPool) (sub : Submission)
    (outcome : Except KernelError ExecutionResult) (executors workers : Nat) :
    stepsLeft executors workers (s.finish sub outcome).2.point
      < (Point.finishing sub outcome).stepsLeft executors workers := by
  unfold finish
  cases outcome with
  | ok result =>
      dsimp only
      cases hsuccess : result.isSuccess with
      | true => simp [stepsLeft, Point.stepsLeft, conclusive, Progress.point, hsuccess]
      | false =>
          simp only [Point.stepsLeft, conclusive, hsuccess]
          split_ifs <;> simp_all [stepsLeft, Point.stepsLeft, Progress.point]
  | error e =>
      dsimp only
      cases hretriable : e.isRetriable with
      | false => simp [stepsLeft, Point.stepsLeft, conclusive, Progress.point, hretriable]
      | true =>
          simp only [Point.stepsLeft, conclusive, hretriable, Bool.true_and]
          split_ifs <;> simp_all [stepsLeft, Point.stepsLeft, Progress.point]

/-- The worker that a `submit_async` is about to look at exists, when there are `n`. -/
def Point.InRange (n : Nat) : Point → Prop
  | .queueing p => p.InRange n
  | _ => True

theorem SharedPool.exec_inRange (w : Outside) {s : SharedPool} {p q : Point}
    (h : (s.exec w p).2 = .goto q) : q.InRange s.pool.scheduler.workers.length := by
  cases q with
  | queueing q =>
      rcases exec_goto_queueing w h with ⟨task, rfl, rfl⟩ | ⟨p', rfl, hstep⟩
      · trivial
      · exact Sched.Scheduler.lockedStep_inRange hstep
  | _ => trivial

/-- **Every step on a stopped pool brings its call nearer to the end.** -/
theorem SharedPool.Stopped.stepsLeft_lt {s : SharedPool} (h : s.Stopped) (w : Outside) {p : Point}
    (hp : p.InRange s.pool.scheduler.workers.length) :
    stepsLeft s.registry.executors.length s.pool.scheduler.workers.length (s.exec w p).2.point
      < p.stepsLeft s.registry.executors.length s.pool.scheduler.workers.length := by
  have hbarred := h.barred w p
  cases p with
  | submitting task | submittingAsync task =>
      rw [show (s.exec w _).2 = _ from hbarred]
      exact Nat.one_pos
  | counting task => simp [exec, stepsLeft, Progress.point, Point.stepsLeft]
  | finding sub i =>
      rcases hi : s.registry.executors[i]? with _ | e
      · simp [exec, hi, stepsLeft, Progress.point, Point.stepsLeft, conclusive,
          KernelError.isRetriable]
      · have hlt := (List.getElem?_eq_some_iff.mp hi).1
        have hclosed := h.executors e (List.mem_of_getElem? hi)
        simp only [exec, hi, Executor.canExecute_of_closed hclosed, Bool.false_eq_true, if_false,
          stepsLeft, Progress.point, Option.elim_some, Point.stepsLeft]
        omega
  | starting sub i =>
      rcases hbarred with hnext | hnext
      · rw [hnext]
        simp [stepsLeft, Progress.point, Point.stepsLeft, conclusive, KernelError.isRetriable]
      · rw [hnext]
        simp [stepsLeft, Progress.point, Point.stepsLeft, conclusive, KernelError.isRetriable]
  | spawning sub i command purpose | waiting sub i command purpose =>
      simp [exec, stepsLeft, Progress.point, Point.stepsLeft]
  | leaving sub i result purpose =>
      show (sub.goto i (purpose.next w.elapsed result)).stepsLeft _ _
        < 3 * purpose.commandsLeft + 1 + (s.registry.executors.length + 3)
      rcases Next.stepsLeft_goto sub i s.registry.executors.length
        s.pool.scheduler.workers.length (purpose.next w.elapsed result)
        with hle | ⟨command, purpose', hnext, heq⟩
      · omega
      · have hlt := Purpose.commandsLeft_next hnext
        rw [heq]
        omega
  | finishing sub outcome => exact finish_stepsLeft s sub outcome _ _
  | countingAsync task => simp [exec, stepsLeft, Progress.point, Point.stepsLeft]
  | checkingScheduler task =>
      rw [show (s.exec w _).2 = _ from hbarred]
      exact Nat.one_pos
  | queueing p =>
      have hlt := Sched.Scheduler.stepsLeft_lockedStep (Nat.le_refl _) hp
      rw [exec]
      split
      · next heq =>
          rw [heq] at hlt
          exact hlt
      · exact p.stepsLeft_pos _
  | stopping | stoppingScheduler => simp [exec, stepsLeft, Progress.point, Point.stepsLeft]
  | stoppingExecutor i =>
      rcases hi : s.registry.executors[i]? with _ | e
      · simp [exec, hi, stepsLeft, Progress.point, Point.stepsLeft]
      · have hlt := (List.getElem?_eq_some_iff.mp hi).1
        simp only [exec, hi, stepsLeft, Progress.point, Option.elim_some, Point.stepsLeft]
        omega
  | stoppingDetector => exact Nat.one_pos

/-- The state after a shutdown in which the calls under way come to their end. -/
structure Winding (executors workers : Nat) (s : Clients SharedPool Point) : Prop where
  stopped : s.shared.Stopped
  executors_eq : s.shared.registry.executors.length = executors
  workers_eq : s.shared.pool.scheduler.workers.length = workers
  inRange : ∀ (c : Nat) (p : Point), s.clients[c]? = some (some p) →
    p.InRange s.shared.pool.scheduler.workers.length

theorem inRange_take {s : Clients SharedPool Point} {w : Outside} {c : Nat} {p : Point}
    (h : ∀ (c : Nat) (p : Point), s.clients[c]? = some (some p) →
      p.InRange s.shared.pool.scheduler.workers.length) :
    ∀ (c' : Nat) (q : Point), (poolCode.take w s c p).clients[c']? = some (some q) →
      q.InRange (poolCode.take w s c p).shared.pool.scheduler.workers.length := by
  intro c' q hq
  have hlen := (SharedPool.exec_closes w s.shared p).workers
  change q.InRange (s.shared.exec w p).1.pool.scheduler.workers.length
  rw [hlen]
  rcases poolCode.client_take hq with ⟨-, hnext⟩ | ⟨-, hold⟩
  · exact SharedPool.exec_inRange w hnext
  · exact h c' q hold

theorem Winding.take {executors workers : Nat} {s : Clients SharedPool Point}
    (h : Winding executors workers s) (w : Outside) (c : Nat) (p : Point) :
    Winding executors workers (poolCode.take w s c p) := by
  have hcloses := SharedPool.exec_closes w s.shared p
  exact ⟨h.stopped.mono hcloses, hcloses.executors.1.trans h.executors_eq,
    hcloses.workers.trans h.workers_eq, inRange_take h.inRange⟩

theorem inRange_run (config : PoolConfig) (backends : BackendConfig) (parallelism : Option UInt64)
    (clients : Nat) (is : List (Outside × Move SharedCall)) :
    let s := (sharedPoolMachine config backends parallelism clients).run is
    ∀ (c : Nat) (p : Point), s.clients[c]? = some (some p) →
      p.InRange s.shared.pool.scheduler.workers.length := by
  refine poolCode.run_invariant
    (I := fun s => ∀ (c : Nat) (p : Point), s.clients[c]? = some (some p) →
      p.InRange s.shared.pool.scheduler.workers.length) _ _ ?_ ?_ is
  · intro c p hp
    cases List.eq_of_mem_replicate (List.mem_of_getElem? hp)
  · intro w s c p h _
    exact inRange_take h

/-- **After a shutdown every call returns, if its commands end.** A call that is under way when a
`shutdown` has returned is over once its client has taken the steps that are left of it, whatever
the other clients do in between: three for each command of its pipeline that is left, and one for
each executor it asks in vain; or two for each worker that a `submit_async` has still to look at. A
client inside a command that does not end takes no step. -/
theorem returns_after_shutdown (config : PoolConfig) (backends : BackendConfig)
    (parallelism : Option UInt64) (clients : Nat) (is js : List (Outside × Move SharedCall))
    (c : Nat) (p : Point) :
    let M := sharedPoolMachine config backends parallelism clients
    let s := M.run is
    History.ShutDown (M.trace is) → s.clients[c]? = some (some p) →
      (∀ j ∈ js, ∀ call, j.2 ≠ .invoke c call) →
      p.stepsLeft s.shared.registry.executors.length s.shared.pool.scheduler.workers.length
        ≤ js.countP (fun j => j.2.advances c) →
      (M.run (is ++ js)).clients[c]? = some none := by
  intro M s hdown hp hno hle
  have hwinding : Winding s.shared.registry.executors.length
      s.shared.pool.scheduler.workers.length s :=
    ⟨(closing_run config backends parallelism clients is).stopped hdown, rfl, rfl,
      inRange_run config backends parallelism clients is⟩
  rw [M.run_append]
  refine poolCode.returns_within (I := Winding s.shared.registry.executors.length
      s.shared.pool.scheduler.workers.length)
    (μ := stepsLeft s.shared.registry.executors.length s.shared.pool.scheduler.workers.length)
    (stepsLeft_eq_zero_iff _ _) (fun w t c' q h _ _ => h.take w c' q) ?_
    (.fromConfig config backends parallelism) clients js s (some p) hwinding hp hno hle
  intro w t q h hq
  have hlt := h.stopped.stepsLeft_lt w (h.inRange c q hq)
  rw [h.executors_eq, h.workers_eq] at hlt
  exact hlt

/-- A pipeline of two stages is in its first when the pool is shut down: it needs no more than the
nine steps that are left. -/
theorem returns_after_shutdown_pipeline :
    let config : PoolConfig := ⟨1, 1, .default⟩
    let M := sharedPoolMachine config ⟨false, []⟩ none 2
    let stage : BinaryTask := ⟨"./stage", [], [], none, none⟩
    let task : Task TaskSpec := ⟨⟨.pipeline ⟨[stage, stage], true⟩, .any, none⟩, 3, 0⟩
    let act := fun a : Move SharedCall => (Outside.quiet, a)
    let is := [act (.invoke 0 (.submit task)), act (.advance 0), act (.advance 0),
      act (.advance 0), act (.advance 0), act (.invoke 1 .shutdown), act (.advance 1),
      act (.advance 1), act (.advance 1), act (.advance 1)]
    let p : Point := .waiting ⟨.new, task⟩ 0 stage (.stage 0 [stage] true)
    (M.run is).clients[0]? = some (some p) ∧
    p.stepsLeft (M.run is).shared.registry.executors.length
      (M.run is).shared.pool.scheduler.workers.length = 9 ∧
    (M.run (is ++ List.replicate 9 (act (.advance 0)))).clients[0]? = some none := by
  intro config M stage task act is p
  have hdown : History.ShutDown (M.trace is) :=
    ⟨.stoppingDetector, by decide +kernel⟩
  have hp : (M.run is).clients[0]? = some (some p) := by decide +kernel
  have hleft : p.stepsLeft (M.run is).shared.registry.executors.length
      (M.run is).shared.pool.scheduler.workers.length = 9 := by decide +kernel
  refine ⟨hp, hleft, returns_after_shutdown config ⟨false, []⟩ none 2 is _ 0 p hdown hp ?_ ?_⟩
  · intro j hj call
    rw [List.eq_of_mem_replicate hj]
    simp [act]
  · rw [hleft, List.countP_replicate]
    exact Nat.le_refl 9

end Pepita.Exec
