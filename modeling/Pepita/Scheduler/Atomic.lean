import Pepita.Lib.RwLock
import Pepita.Scheduler.Submit

set_option autoImplicit false

/-! # The scheduler, one atomic operation at a time

`Scheduler/Concurrent.lean` takes the selection of `submit` for one step. Here every load, store and
critical section of the code is a step of its own: `submit` looks at the flag of the scheduler, takes
the read lock, draws a start, looks at the flag and then at the length of one worker after the other,
pushes, and draws the task id; `steal_batch` reads a flag and a length for each worker. The lock on
the list of workers is a part of the state: `add_worker` has to wait until nobody reads the list,
and while it holds the lock the other calls wait.

The critical section of a deque's mutex is one step: of what happens inside, others see only the
store to the length counter.

* `tasks_accounted`: no task is lost or duplicated, and at every moment each is in a deque or in the
  hands of a call.
* `task_ids_distinct`: no two submissions get the same id.
* `accepted_after_stop`: what gets in after a stop.
-/

namespace Pepita.Sched

variable {T : Type}

/-! ## The model -/

/-- Where a call is while it holds the read lock. -/
inductive Locked (T : Type) where
  /-- in `submit`, about to draw a start -/
  | drawing (task : T)
  /-- in `submit`, about to read the flag of the worker `i` places from the start -/
  | scanning (task : T) (start i : Nat)
  /-- in `submit`, about to read the length of that worker's deque -/
  | sizing (task : T) (start i : Nat)
  /-- in `submit`, about to push -/
  | pushing (task : T) (target : Nat)
  /-- in `submit`, about to draw the task id -/
  | numbering (task : T)
  /-- in `pop` -/
  | popping (worker : UInt32)
  /-- at the start of `steal` -/
  | stealing (thief : UInt32)
  /-- in `steal`, about to read the flag of the victim at this offset -/
  | probing (thiefIdx offset : Nat)
  /-- in `steal`, about to lock the deque of that victim -/
  | taking (thiefIdx offset : Nat)
  /-- at the start of `steal_batch` -/
  | batching (thief : UInt32)
  /-- in `steal_batch`, about to read the flag of worker `idx` -/
  | looking (thiefIdx idx : Nat) (acc : Option Nat × UInt64)
  /-- in `steal_batch`, about to read the length of its deque -/
  | measuring (thiefIdx idx : Nat) (acc : Option Nat × UInt64)
  /-- in `steal_batch`, about to lock the deque of the victim -/
  | halving (victimIdx : Nat)
  /-- in `deactivate_worker` -/
  | deactivating (worker : UInt32)
  deriving DecidableEq, Repr

/-- Where a call is. -/
inductive Point (T : Type) where
  /-- in `submit`, about to read the flag of the scheduler -/
  | checking (task : T)
  /-- about to take the read lock -/
  | locking (p : Locked T)
  | locked (p : Locked T)
  /-- about to release the read lock -/
  | unlocking (reply : Reply T)
  /-- in `add_worker`, about to take the write lock -/
  | adding
  /-- in `add_worker`, about to extend the list -/
  | extending
  /-- in `add_worker`, about to count the worker -/
  | enlisting (id : UInt32)
  /-- in `add_worker`, about to release the write lock -/
  | releasing (id : UInt32)
  /-- in `stop` -/
  | stopping
  deriving DecidableEq, Repr

/-- The scheduler with the lock on its list of workers. -/
structure SharedScheduler (T : Type) where
  sched : Scheduler T
  lock : RwLock
  deriving DecidableEq, Repr

/-- The atomic steps under the read lock. -/
def Scheduler.lockedStep (s : Scheduler T) : Locked T → Scheduler T × Progress (Locked T) (Reply T)
  | .drawing task =>
      if s.workers.isEmpty then (s, .ret (.submitted task none))
      else
        ({ s with submitCounter := s.submitCounter + 1 },
          .goto (.scanning task (s.submitCounter.toNat % s.workers.length) 0))
  | .scanning task start i =>
      if i < s.workers.length then
        if s.isActive ((start + i) % s.workers.length) then (s, .goto (.sizing task start i))
        else (s, .goto (.scanning task start (i + 1)))
      else (s, .ret (.submitted task none))
  | .sizing task start i =>
      match s.workers[(start + i) % s.workers.length]? with
      | none => (s, .goto (.scanning task start (i + 1)))
      | some w =>
          if w.deque.len < w.deque.capacity then
            (s, .goto (.pushing task ((start + i) % s.workers.length)))
          else (s, .goto (.scanning task start (i + 1)))
  | .pushing task target =>
      match s.access target (fun q => q.push task) (.error .ublkQueueFull) with
      | (s', .ok ()) => (s', .goto (.numbering task))
      | (s', .error _) => (s', .ret (.submitted task none))
  | .numbering task =>
      ({ s with nextTaskId := s.nextTaskId + 1 }, .ret (.submitted task (some s.nextTaskId)))
  | .popping worker => ((s.pop worker).1, .ret (.popped (s.pop worker).2))
  | .stealing thief =>
      if s.workers.length ≤ 1 ∨ thief.toNat ≥ s.workers.length then (s, .ret (.stolen none))
      else (s, .goto (.probing thief.toNat 1))
  | .probing thiefIdx offset =>
      if offset < s.workers.length then
        if s.isActive ((thiefIdx + offset) % s.workers.length) then
          (s, .goto (.taking thiefIdx offset))
        else (s, .goto (.probing thiefIdx (offset + 1)))
      else (s, .ret (.stolen none))
  | .taking thiefIdx offset =>
      match s.access ((thiefIdx + offset) % s.workers.length) WorkStealingDeque.steal none with
      | (s', some task) => (s', .ret (.stolen (some task)))
      | (s', none) => (s', .goto (.probing thiefIdx (offset + 1)))
  | .batching thief =>
      if s.workers.length ≤ 1 ∨ thief.toNat ≥ s.workers.length then (s, .ret (.batch []))
      else (s, .goto (.looking thief.toNat 0 (none, 0)))
  | .looking thiefIdx idx acc =>
      if idx < s.workers.length then
        if idx ≠ thiefIdx ∧ s.isActive idx = true then (s, .goto (.measuring thiefIdx idx acc))
        else (s, .goto (.looking thiefIdx (idx + 1) acc))
      else
        match acc.1 with
        | some victimIdx => (s, .goto (.halving victimIdx))
        | none => (s, .ret (.batch []))
  | .measuring thiefIdx idx acc =>
      match s.workers[idx]? with
      | none => (s, .goto (.looking thiefIdx (idx + 1) acc))
      | some w =>
          if w.deque.len > acc.2 then
            (s, .goto (.looking thiefIdx (idx + 1) (some idx, w.deque.len)))
          else (s, .goto (.looking thiefIdx (idx + 1) acc))
  | .halving victimIdx =>
      ((s.access victimIdx WorkStealingDeque.stealHalf []).1,
        .ret (.batch (s.access victimIdx WorkStealingDeque.stealHalf []).2))
  | .deactivating worker =>
      ((s.deactivateWorker worker).1, .ret (.deactivated (s.deactivateWorker worker).2))

namespace SharedScheduler

/-- The atomic step from each point. A call that waits for the lock stays where it is. -/
def exec (s : SharedScheduler T) : Point T → SharedScheduler T × Progress (Point T) (Reply T)
  | .checking task =>
      if !s.sched.running then (s, .ret (.submitted task none))
      else (s, .goto (.locking (.drawing task)))
  | .locking p =>
      if s.lock.barsReaders then (s, .goto (.locking p))
      else ({ s with lock := s.lock.lockRead }, .goto (.locked p))
  | .locked p =>
      match s.sched.lockedStep p with
      | (sched, .goto p') => ({ s with sched := sched }, .goto (.locked p'))
      | (sched, .ret reply) => ({ s with sched := sched }, .goto (.unlocking reply))
  | .unlocking reply => ({ s with lock := s.lock.unlockRead }, .ret reply)
  | .adding =>
      if s.lock.barsWriters then (s, .goto .adding)
      else ({ s with lock := s.lock.lockWrite }, .goto .extending)
  | .extending =>
      ({ s with sched := { s.sched with workers := s.sched.workers ++ [.new s.sched.queueCapacity] } },
        .goto (.enlisting (UInt32.ofNat s.sched.workers.length)))
  | .enlisting id =>
      ({ s with sched := { s.sched with numWorkers := s.sched.numWorkers + 1 } },
        .goto (.releasing id))
  | .releasing id => ({ s with lock := s.lock.unlockWrite }, .ret (.added (some id)))
  | .stopping => ({ s with sched := s.sched.stop }, .ret .stopped)

end SharedScheduler

/-- The calls as atomic operations. -/
def schedulerCode (T : Type) :
    Code Unit (SharedScheduler T) (Call T) (Point T) (Reply T) where
  entry
    | .submit task => .checking task
    | .pop worker => .locking (.popping worker)
    | .steal thief => .locking (.stealing thief)
    | .stealBatch thief => .locking (.batching thief)
    | .addWorker => .adding
    | .deactivateWorker worker => .locking (.deactivating worker)
    | .stop => .stopping
  exec _ s p := s.exec p

/-- `clients` clients on a scheduler of `numWorkers` workers. -/
def sharedSchedulerMachine (T : Type) (numWorkers queueCapacity : UInt64) (clients : Nat) :
    Machine (Clients (SharedScheduler T) (Point T)) (Unit × Move (Call T))
      (Option (Point T × Progress (Point T) (Reply T))) :=
  (schedulerCode T).machine ⟨.withCapacity numWorkers queueCapacity, .free⟩ clients

/-! ## Where the tasks are -/

/-- The task that a reply accepts. -/
def Reply.gained (reply : Reply T) : Multiset T := reply.accepted

/-- The tasks that a reply hands out. -/
def Reply.handed (reply : Reply T) : Multiset T := reply.delivered

/-- The task that a call has pushed and will return an id for. -/
def Locked.pushed : Locked T → Multiset T
  | .numbering task => {task}
  | _ => 0

/-- The same of a call at any point. -/
def Point.pushed : Point T → Multiset T
  | .locking p => p.pushed
  | .locked p => p.pushed
  | .unlocking reply => reply.gained
  | _ => 0

/-- The tasks that a call has taken out and will return. -/
def Point.taken : Point T → Multiset T
  | .unlocking reply => reply.handed
  | _ => 0

namespace Scheduler

variable {s : Scheduler T}

/-- What a step does to the tasks: those that get into the deques come from the hands of the call,
and those that leave them go there. -/
structure Moves (s : Scheduler T) (p : Locked T) (s' : Scheduler T)
    (next : Progress (Locked T) (Reply T)) : Prop where
  wf : s'.WF
  tasks_eq : s'.tasks + next.worth (fun _ => 0) Reply.handed + p.pushed
    = s.tasks + next.worth Locked.pushed Reply.gained

/-- A step that touches no deque. -/
theorem Moves.silent {s' : Scheduler T} {p : Locked T} {next : Progress (Locked T) (Reply T)}
    (hwf : s.WF) (hworkers : s'.workers = s.workers) (hp : p.pushed = 0)
    (hpushed : next.worth Locked.pushed Reply.gained = 0)
    (htaken : next.worth (fun _ => 0) Reply.handed = 0) : s.Moves p s' next := by
  refine ⟨fun w hw => hwf w (hworkers ▸ hw), ?_⟩
  rw [hp, hpushed, htaken, tasks, hworkers, tasks, add_zero]

/-- A step that ends the call with a reply that shows what it has done. -/
theorem Moves.of_balanced {s' : Scheduler T} {p : Locked T} {reply : Reply T}
    (h : Balanced s s' (some reply)) (hp : p.pushed = 0) : s.Moves p s' (.ret reply) := by
  refine ⟨h.wf, ?_⟩
  rw [hp, add_zero]
  exact h.tasks_eq

/-- The push of `submit`. -/
theorem push_moves (hwf : s.WF) (task : T) (target : Nat) :
    s.Moves (.pushing task target) (s.lockedStep (.pushing task target)).1
      (s.lockedStep (.pushing task target)).2 := by
  obtain ⟨hwf', htasks, -⟩ := pushTo_effect hwf target task
  rw [lockedStep]
  rw [pushTo] at hwf' htasks
  split
  · next s' heq =>
      rw [heq] at hwf' htasks
      refine ⟨hwf', ?_⟩
      show s'.tasks + 0 + 0 = s.tasks + {task}
      rw [add_zero, add_zero]
      exact htasks
  · next s' e heq =>
      rw [heq] at hwf' htasks
      refine ⟨hwf', ?_⟩
      show s'.tasks + 0 + 0 = s.tasks + 0
      rw [add_zero, add_zero]
      exact htasks

/-- **One step under the lock.** -/
theorem lockedStep_moves (hwf : s.WF) (p : Locked T) :
    s.Moves p (s.lockedStep p).1 (s.lockedStep p).2 := by
  cases p with
  | drawing task =>
      rw [lockedStep]
      split_ifs <;> exact .silent hwf rfl rfl rfl rfl
  | scanning task start i =>
      rw [lockedStep]
      split_ifs <;> exact .silent hwf rfl rfl rfl rfl
  | sizing task start i =>
      rw [lockedStep]
      split
      · exact .silent hwf rfl rfl rfl rfl
      · split_ifs <;> exact .silent hwf rfl rfl rfl rfl
  | pushing task target => exact push_moves hwf task target
  | numbering task =>
      refine ⟨hwf, ?_⟩
      show s.tasks + 0 + {task} = s.tasks + {task}
      rw [add_zero]
  | popping worker => exact .of_balanced (.pop hwf worker) rfl
  | stealing thief =>
      rw [lockedStep]
      split_ifs <;> exact .silent hwf rfl rfl rfl rfl
  | probing thiefIdx offset =>
      rw [lockedStep]
      split_ifs <;> exact .silent hwf rfl rfl rfl rfl
  | taking thiefIdx offset =>
      have htake := Balanced.stealAccess hwf ((thiefIdx + offset) % s.workers.length)
      rw [lockedStep]
      split
      · next s' task heq =>
          rw [heq] at htake
          exact .of_balanced htake rfl
      · next s' heq =>
          -- nothing was there to take
          rw [heq] at htake
          refine ⟨htake.wf, ?_⟩
          show s'.tasks + 0 + 0 = s.tasks + 0
          rw [add_zero]
          exact htake.tasks_eq
  | batching thief =>
      rw [lockedStep]
      split_ifs <;> exact .silent hwf rfl rfl rfl rfl
  | looking thiefIdx idx acc =>
      rw [lockedStep]
      split_ifs
      · exact .silent hwf rfl rfl rfl rfl
      · exact .silent hwf rfl rfl rfl rfl
      · split <;> exact .silent hwf rfl rfl rfl rfl
  | measuring thiefIdx idx acc =>
      rw [lockedStep]
      split
      · exact .silent hwf rfl rfl rfl rfl
      · split_ifs <;> exact .silent hwf rfl rfl rfl rfl
  | halving victimIdx => exact .of_balanced (.stealHalfAccess hwf victimIdx) rfl
  | deactivating worker =>
      exact .of_balanced (.of_tasks_eq (hwf.deactivateWorker worker)
        (tasks_deactivateWorker worker) rfl rfl) rfl

end Scheduler

/-- A step under the lock, by what comes next. -/
theorem SharedScheduler.exec_locked (s : SharedScheduler T) (p : Locked T) :
    (s.exec (.locked p)).1 = { s with sched := (s.sched.lockedStep p).1 } ∧
      (s.exec (.locked p)).2
        = (s.sched.lockedStep p).2.worth (fun p' => .goto (.locked p'))
          (fun reply => .goto (.unlocking reply)) := by
  rw [exec]
  split
  all_goals
    next heq =>
      rw [heq]
      exact ⟨rfl, rfl⟩

/-- The worth of such a step is that of the step of the scheduler, when being under the lock and
about to release it count nothing. -/
theorem SharedScheduler.worth_locked {G : Type} (s : SharedScheduler T) (p : Locked T)
    (f : Point T → G) (g : Reply T → G) :
    (s.exec (.locked p)).2.worth f g
      = (s.sched.lockedStep p).2.worth (fun p' => f (.locked p'))
        (fun reply => f (.unlocking reply)) := by
  rw [(s.exec_locked p).2]
  cases (s.sched.lockedStep p).2 <;> rfl

/-- **One step.** -/
theorem SharedScheduler.exec_moves {s : SharedScheduler T} (hwf : s.sched.WF) (p : Point T) :
    (s.exec p).1.sched.WF ∧
      (s.exec p).1.sched.tasks + (s.exec p).2.worth Point.taken Reply.handed + p.pushed
        = s.sched.tasks + p.taken + (s.exec p).2.worth Point.pushed Reply.gained := by
  cases p with
  | checking task =>
      rw [exec]
      split_ifs <;> exact ⟨hwf, rfl⟩
  | locking p =>
      have hsame : s.sched.tasks + 0 + p.pushed = s.sched.tasks + 0 + p.pushed := rfl
      rw [exec]
      split_ifs <;> exact ⟨hwf, hsame⟩
  | locked p =>
      obtain ⟨hwf', htasks⟩ := Scheduler.lockedStep_moves hwf p
      rw [worth_locked, worth_locked, (s.exec_locked p).1]
      refine ⟨hwf', ?_⟩
      show _ + p.pushed = s.sched.tasks + 0 + _
      rw [add_zero]
      exact htasks
  | unlocking reply =>
      refine ⟨hwf, ?_⟩
      show s.sched.tasks + reply.handed + reply.gained = s.sched.tasks + reply.handed + reply.gained
      rfl
  | adding =>
      rw [exec]
      split_ifs <;> exact ⟨hwf, rfl⟩
  | extending =>
      refine ⟨hwf.addWorker, ?_⟩
      show s.sched.addWorker.1.tasks + 0 + 0 = s.sched.tasks + 0 + 0
      rw [Scheduler.tasks_addWorker]
  | enlisting id => exact ⟨hwf, rfl⟩
  | releasing id => exact ⟨hwf, rfl⟩
  | stopping => exact ⟨hwf, rfl⟩

/-! ## Whole runs -/

/-- The history of a shared scheduler. -/
abbrev History (T : Type) : Type :=
  List ((Unit × Move (Call T)) × Option (Point T × Progress (Point T) (Reply T)))

/-- The tasks whose `submit` has returned `Some`. -/
def History.accepted (tr : History T) : Multiset T := ((Code.replies tr).map Reply.gained).sum

/-- The tasks handed out. -/
def History.delivered (tr : History T) : Multiset T := ((Code.replies tr).map Reply.handed).sum

/-- The sum over the clients of what they have in hand, which is nothing outside of a call. -/
def inHand {G : Type} [AddCommMonoid G] (f : Point T → G) (clients : List (Option (Point T))) : G :=
  (clients.map fun client => client.elim 0 f).sum

theorem inHand_idle {G : Type} [AddCommMonoid G] (f : Point T → G) (n : Nat) :
    inHand f (List.replicate n none) = 0 := by
  rw [inHand, List.map_replicate, List.sum_replicate]
  exact smul_zero n

/-- Every task that was accepted, or pushed by a call under way, is in one place. -/
structure Accounted (tr : History T) (s : Clients (SharedScheduler T) (Point T)) : Prop where
  wf : s.shared.sched.WF
  tasks_eq : tr.accepted + inHand Point.pushed s.clients
    = tr.delivered + inHand Point.taken s.clients + s.shared.sched.tasks

/-- A call that has done nothing yet has nothing in hand. -/
theorem entry_pushed (call : Call T) : ((schedulerCode T).entry call).pushed = 0 := by
  cases call <;> rfl

theorem entry_taken (call : Call T) : ((schedulerCode T).entry call).taken = 0 := by
  cases call <;> rfl

theorem Accounted.take {tr : History T} {s : Clients (SharedScheduler T) (Point T)}
    (h : Accounted tr s) (i : Unit × Move (Call T)) {c : Nat} {p : Point T}
    (hp : (schedulerCode T).At s c p) :
    Accounted (tr ++ [(i, some (p, ((schedulerCode T).exec i.1 s.shared p).2))])
      ((schedulerCode T).take i.1 s c p) := by
  obtain ⟨hwf, hmoves⟩ := SharedScheduler.exec_moves h.wf p
  have hpushed := (schedulerCode T).sum_replies_take (g := Reply.gained) entry_pushed tr i hp
  have htaken := (schedulerCode T).sum_replies_take (g := Reply.handed) entry_taken tr i hp
  have hold := h.tasks_eq
  refine ⟨hwf, ?_⟩
  change History.accepted _ + inHand Point.pushed _ + _ = tr.accepted + inHand _ _
    + (s.shared.exec p).2.worth _ _ at hpushed
  change History.delivered _ + inHand Point.taken _ + _ = tr.delivered + inHand _ _
    + (s.shared.exec p).2.worth _ _ at htaken
  change _ = _ + (s.shared.exec p).1.sched.tasks
  -- the equations are compared task by task
  classical
  ext t
  have h1 := congrArg (Multiset.count t) hmoves
  have h2 := congrArg (Multiset.count t) hpushed
  have h3 := congrArg (Multiset.count t) htaken
  have h4 := congrArg (Multiset.count t) hold
  simp only [Multiset.count_add] at h1 h2 h3 h4 ⊢
  omega

theorem accounted_run (numWorkers queueCapacity : UInt64) (clients : Nat)
    (is : List (Unit × Move (Call T))) :
    let M := sharedSchedulerMachine T numWorkers queueCapacity clients
    Accounted (M.trace is) (M.run is) := by
  refine (schedulerCode T).run_history (I := Accounted)
    ⟨.withCapacity numWorkers queueCapacity, .free⟩ clients ⟨.withCapacity _ _, ?_⟩ ?_ ?_ is
  · show (0 : Multiset T) + inHand Point.pushed (List.replicate clients none)
      = 0 + inHand Point.taken (List.replicate clients none)
        + (Scheduler.withCapacity numWorkers queueCapacity).tasks
    rw [inHand_idle, inHand_idle, Scheduler.tasks_withCapacity, add_zero, add_zero]
  · intro tr s i h
    refine ⟨h.wf, ?_⟩
    rw [History.accepted, History.delivered, Code.replies_skip]
    exact h.tasks_eq
  · intro tr s i c p h hp
    exact h.take i hp

/-- **No task is lost or duplicated between any two atomic operations.** At every moment of every
interleaving, the tasks whose `submit` has returned `Some` and those a `submit` under way has pushed
are the tasks that were handed out, those that a call under way has taken out and not yet returned,
and those in the deques; the counter of each deque is its length, and no deque is beyond its
capacity. -/
theorem tasks_accounted (numWorkers queueCapacity : UInt64) (clients : Nat)
    (is : List (Unit × Move (Call T))) :
    let M := sharedSchedulerMachine T numWorkers queueCapacity clients
    let tr : History T := M.trace is
    let s := M.run is
    tr.accepted + inHand Point.pushed s.clients
      = tr.delivered + inHand Point.taken s.clients + s.shared.sched.tasks ∧
    ∀ w ∈ s.shared.sched.workers, w.deque.len.toNat = w.deque.deque.length ∧
      w.deque.deque.length ≤ w.deque.capacity.toNat := by
  intro M tr s
  have h : Accounted tr s := accounted_run numWorkers queueCapacity clients is
  exact ⟨h.tasks_eq, fun w hw => ⟨(h.wf w hw).len_eq, (h.wf w hw).le_capacity⟩⟩

/-! ## Task ids -/

/-- The id that a reply gives out. -/
def Reply.ids (reply : Reply T) : Multiset UInt64 := reply.acceptedId.toList

/-- The id that a call has drawn and will return. -/
def Point.ids : Point T → Multiset UInt64
  | .unlocking reply => reply.ids
  | _ => 0

/-- The ids that were returned. -/
def History.ids (tr : History T) : Multiset UInt64 := ((Code.replies tr).map Reply.ids).sum

/-- The task of a `submit` that has found the scheduler running. -/
def Locked.entered : Locked T → Multiset T
  | .drawing task => {task}
  | .scanning task _ _ => {task}
  | .sizing task _ _ => {task}
  | .pushing task _ => {task}
  | .numbering task => {task}
  | _ => 0

/-- The same of a call at any point. -/
def Point.entered : Point T → Multiset T
  | .locking p => p.entered
  | .locked p => p.entered
  | .unlocking reply => reply.gained
  | _ => 0

/-- What a step under the lock leaves alone: the list of workers keeps its length, the flag is not
touched, no id is drawn but the next one, and only the task of the call itself is accepted. -/
structure Scheduler.Frame (s : Scheduler T) (p : Locked T) (s' : Scheduler T)
    (next : Progress (Locked T) (Reply T)) : Prop where
  length_eq : s'.workers.length = s.workers.length
  running_eq : s'.running = s.running
  ids : (next.worth (fun _ => 0) Reply.ids = 0 ∧ s'.nextTaskId = s.nextTaskId) ∨
    (next.worth (fun _ => 0) Reply.ids = {s.nextTaskId} ∧ s'.nextTaskId = s.nextTaskId + 1)
  entered_le : next.worth Locked.entered Reply.gained ≤ p.entered

namespace Scheduler

variable {s : Scheduler T} {p : Locked T}

/-- A step that draws no id and changes at most the round-robin counter. -/
theorem Frame.silent {s' : Scheduler T} {next : Progress (Locked T) (Reply T)}
    (hworkers : s'.workers = s.workers) (hrunning : s'.running = s.running)
    (hid : s'.nextTaskId = s.nextTaskId) (hids : next.worth (fun _ => 0) Reply.ids = 0)
    (hentered : next.worth Locked.entered Reply.gained = p.entered ∨
      next.worth Locked.entered Reply.gained = 0) : s.Frame p s' next := by
  refine ⟨congrArg List.length hworkers, hrunning, .inl ⟨hids, hid⟩, ?_⟩
  rcases hentered with heq | heq
  · exact heq.le
  · rw [heq]
    exact Multiset.zero_le _

/-- A critical section of a deque. -/
theorem Frame.access {α : Type} {i : Nat} {f : WorkStealingDeque T → WorkStealingDeque T × α}
    {o : α} {next : Progress (Locked T) (Reply T)} (hids : next.worth (fun _ => 0) Reply.ids = 0)
    (hentered : next.worth Locked.entered Reply.gained = p.entered ∨
      next.worth Locked.entered Reply.gained = 0) : s.Frame p (s.access i f o).1 next := by
  obtain ⟨hlen, -, hid, hrun⟩ := access_frame (s := s) (i := i) (f := f) (o := o)
  refine ⟨hlen, hrun, .inl ⟨hids, hid⟩, ?_⟩
  rcases hentered with heq | heq
  · exact heq.le
  · rw [heq]
    exact Multiset.zero_le _

theorem lockedStep_frame (s : Scheduler T) (p : Locked T) :
    s.Frame p (s.lockedStep p).1 (s.lockedStep p).2 := by
  cases p with
  | drawing task =>
      rw [lockedStep]
      split_ifs
      · exact .silent rfl rfl rfl rfl (.inr rfl)
      · exact .silent rfl rfl rfl rfl (.inl rfl)
  | scanning task start i =>
      rw [lockedStep]
      split_ifs
      · exact .silent rfl rfl rfl rfl (.inl rfl)
      · exact .silent rfl rfl rfl rfl (.inl rfl)
      · exact .silent rfl rfl rfl rfl (.inr rfl)
  | stealing thief | probing thiefIdx offset | batching thief =>
      rw [lockedStep]
      split_ifs <;> exact .silent rfl rfl rfl rfl (.inr rfl)
  | sizing task start i | measuring thiefIdx idx acc =>
      rw [lockedStep]
      split
      · exact .silent rfl rfl rfl rfl (.inl rfl)
      · split_ifs <;> exact .silent rfl rfl rfl rfl (.inl rfl)
  | pushing task target =>
      rw [lockedStep]
      split
      · next heq =>
          rw [← congrArg Prod.fst heq]
          exact .access rfl (.inl rfl)
      · next heq =>
          rw [← congrArg Prod.fst heq]
          exact .access rfl (.inr rfl)
  | taking thiefIdx offset =>
      rw [lockedStep]
      split
      · next heq =>
          rw [← congrArg Prod.fst heq]
          exact .access rfl (.inr rfl)
      · next heq =>
          rw [← congrArg Prod.fst heq]
          exact .access rfl (.inr rfl)
  | numbering task => exact ⟨rfl, rfl, .inr ⟨rfl, rfl⟩, le_rfl⟩
  | popping worker =>
      rw [lockedStep, pop]
      split_ifs
      · exact .silent rfl rfl rfl rfl (.inr rfl)
      · exact .access rfl (.inr rfl)
  | looking thiefIdx idx acc =>
      rw [lockedStep]
      split_ifs
      · exact .silent rfl rfl rfl rfl (.inr rfl)
      · exact .silent rfl rfl rfl rfl (.inr rfl)
      · split <;> exact .silent rfl rfl rfl rfl (.inr rfl)
  | halving victimIdx =>
      rw [lockedStep]
      exact .access rfl (.inr rfl)
  | deactivating worker =>
      rw [lockedStep, deactivateWorker]
      split
      · exact .silent rfl rfl rfl rfl (.inr rfl)
      · exact ⟨List.length_set, rfl, .inl ⟨rfl, rfl⟩, le_rfl⟩

end Scheduler

/-- The call is in `submit`. -/
def Locked.inSubmit : Locked T → Bool
  | .drawing _ => true
  | .scanning _ _ _ => true
  | .sizing _ _ _ => true
  | .pushing _ _ => true
  | .numbering _ => true
  | _ => false

theorem Scheduler.lockedStep_inSubmit {s : Scheduler T} {p q : Locked T} (hp : p.inSubmit = true)
    (h : (s.lockedStep p).2 = .goto q) : q.inSubmit = true := by
  cases p with
  | drawing task =>
      rw [lockedStep] at h
      split_ifs at h
      cases h
      rfl
  | scanning task start i =>
      rw [lockedStep] at h
      split_ifs at h <;> cases h <;> rfl
  | sizing task start i =>
      rw [lockedStep] at h
      split at h
      · cases h
        rfl
      · split_ifs at h <;> cases h <;> rfl
  | pushing task target =>
      rw [lockedStep] at h
      split at h <;> cases h
      rfl
  | numbering task => cases h
  | _ => cases hp

theorem SharedScheduler.exec_ids (s : SharedScheduler T) (p : Point T) :
    ((s.exec p).2.worth Point.ids Reply.ids = p.ids ∧
      (s.exec p).1.sched.nextTaskId = s.sched.nextTaskId) ∨
    ((s.exec p).2.worth Point.ids Reply.ids = p.ids + {s.sched.nextTaskId} ∧
      (s.exec p).1.sched.nextTaskId = s.sched.nextTaskId + 1) := by
  cases p with
  | checking task | locking p | adding =>
      rw [exec]
      split_ifs <;> exact .inl ⟨rfl, rfl⟩
  | locked p =>
      rw [worth_locked, (s.exec_locked p).1, show (Point.locked p).ids = 0 from rfl, zero_add]
      exact (s.sched.lockedStep_frame p).ids
  | unlocking reply => exact .inl ⟨rfl, rfl⟩
  | extending => exact .inl ⟨rfl, rfl⟩
  | enlisting id => exact .inl ⟨rfl, rfl⟩
  | releasing id => exact .inl ⟨rfl, rfl⟩
  | stopping => exact .inl ⟨rfl, rfl⟩

/-- `n` ids were drawn, each by one call. -/
def Numbered (n : Nat) (tr : History T) (s : Clients (SharedScheduler T) (Point T)) : Prop :=
  s.shared.sched.nextTaskId = UInt64.ofNat n ∧
    tr.ids + inHand Point.ids s.clients = ((List.range n).map UInt64.ofNat : Multiset UInt64)

theorem entry_ids (call : Call T) : ((schedulerCode T).entry call).ids = 0 := by
  cases call <;> rfl

theorem numbered_run (numWorkers queueCapacity : UInt64) (clients : Nat)
    (is : List (Unit × Move (Call T))) :
    let M := sharedSchedulerMachine T numWorkers queueCapacity clients
    ∃ n, Numbered n (M.trace is) (M.run is) := by
  refine (schedulerCode T).run_history (I := fun tr s => ∃ n, Numbered n tr s)
    ⟨.withCapacity numWorkers queueCapacity, .free⟩ clients ⟨0, rfl, ?_⟩ ?_ ?_ is
  · show 0 + inHand Point.ids (List.replicate clients none) = 0
    rw [inHand_idle, add_zero]
  · rintro tr s i ⟨n, hnext, hids⟩
    refine ⟨n, hnext, ?_⟩
    rw [History.ids, Code.replies_skip]
    exact hids
  · rintro tr s i c p ⟨n, hnext, hids⟩ hp
    have hmove := (schedulerCode T).sum_replies_take (g := Reply.ids) entry_ids tr i hp
    change History.ids _ + inHand Point.ids _ + p.ids = History.ids tr + inHand Point.ids _
      + (s.shared.exec p).2.worth _ _ at hmove
    rcases s.shared.exec_ids p with ⟨hworth, hnext'⟩ | ⟨hworth, hnext'⟩
    · refine ⟨n, hnext'.trans hnext, ?_⟩
      rw [hworth] at hmove
      exact (add_right_cancel hmove).trans hids
    · refine ⟨n + 1, ?_, ?_⟩
      · rw [UInt64.ofNat_add, ← hnext]
        exact hnext'
      · rw [hworth, add_comm p.ids, ← add_assoc] at hmove
        rw [add_right_cancel hmove, hids, hnext, List.range_succ, List.map_append, List.map_singleton,
          ← Multiset.coe_add]
        rfl

/-- **No two submissions get the same id.** At every moment of every interleaving the ids that were
returned, and those that a `submit` under way is about to return, are the first so many numbers, in
some order; so they are distinct as long as there are at most 2^64 of them. -/
theorem task_ids_distinct (numWorkers queueCapacity : UInt64) (clients : Nat)
    (is : List (Unit × Move (Call T))) :
    let M := sharedSchedulerMachine T numWorkers queueCapacity clients
    let ids := History.ids (M.trace is) + inHand Point.ids (M.run is).clients
    ids = ((List.range ids.card).map UInt64.ofNat : Multiset UInt64) ∧
      (ids.card ≤ 2 ^ 64 → ids.Nodup) := by
  intro M ids
  obtain ⟨n, -, hids⟩ := numbered_run numWorkers queueCapacity clients is
  have hids' : ids = ((List.range n).map UInt64.ofNat : Multiset UInt64) := hids
  have hcard : ids.card = n := by
    rw [hids', Multiset.coe_card, List.length_map, List.length_range]
  rw [hcard]
  refine ⟨hids', fun hn => ?_⟩
  rw [hids']
  exact nodup_map_ofNat_range hn

/-! ## After a stop -/

theorem SharedScheduler.exec_running (s : SharedScheduler T) (p : Point T)
    (h : s.sched.running = false) : (s.exec p).1.sched.running = false := by
  cases p with
  | checking task | locking p | adding =>
      rw [exec]
      split_ifs <;> exact h
  | locked p =>
      rw [(s.exec_locked p).1]
      exact (s.sched.lockedStep_frame p).running_eq.trans h
  | unlocking reply => exact h
  | extending => exact h
  | enlisting id => exact h
  | releasing id => exact h
  | stopping => rfl

/-- On a stopped scheduler nobody gets past the check. -/
theorem SharedScheduler.exec_entered {s : SharedScheduler T} (h : s.sched.running = false)
    (p : Point T) : (s.exec p).2.worth Point.entered Reply.gained ≤ p.entered := by
  cases p with
  | checking task =>
      rw [exec, if_pos (by simp [h])]
      exact le_rfl
  | locking p | adding =>
      rw [exec]
      split_ifs <;> exact le_rfl
  | locked p =>
      rw [worth_locked]
      exact (s.sched.lockedStep_frame p).entered_le
  | unlocking reply => exact le_rfl
  | extending => exact le_rfl
  | enlisting id => exact le_rfl
  | releasing id => exact le_rfl
  | stopping => exact le_rfl

theorem entry_entered (call : Call T) : ((schedulerCode T).entry call).entered = 0 := by
  cases call <;> rfl

/-- A `stop` has returned. -/
def History.Stopped (tr : History T) : Prop := ∃ i, (i, some (.stopping, .ret .stopped)) ∈ tr

/-- The flag is cleared once a `stop` has returned. -/
theorem running_of_stopped (numWorkers queueCapacity : UInt64) (clients : Nat)
    (is : List (Unit × Move (Call T))) :
    let M := sharedSchedulerMachine T numWorkers queueCapacity clients
    History.Stopped (M.trace is) → (M.run is).shared.sched.running = false := by
  refine (schedulerCode T).run_history
    (I := fun tr s => History.Stopped tr → s.shared.sched.running = false)
    ⟨.withCapacity numWorkers queueCapacity, .free⟩ clients ?_ ?_ ?_ is
  · rintro ⟨i, hmem⟩
    cases hmem
  · rintro tr s i h ⟨j, hmem⟩
    rcases List.mem_append.mp hmem with hmem | hmem
    · exact h ⟨j, hmem⟩
    · cases List.mem_singleton.mp hmem
  · rintro tr s i c p h - ⟨j, hmem⟩
    rcases List.mem_append.mp hmem with hmem | hmem
    · exact s.shared.exec_running p (h ⟨j, hmem⟩)
    · have heq := List.mem_singleton.mp hmem
      simp only [Prod.mk.injEq, Option.some.injEq] at heq
      rw [← heq.2.1]
      rfl

/-- **What gets in after a stop.** Once a `stop` has returned the scheduler stays stopped, and the
tasks that are accepted from then on are among those of the `submit` calls that had found it running
before: at most one for each client, whatever is called afterwards. -/
theorem accepted_after_stop (numWorkers queueCapacity : UInt64) (clients : Nat)
    (is js : List (Unit × Move (Call T))) :
    let M := sharedSchedulerMachine T numWorkers queueCapacity clients
    History.Stopped (M.trace is) →
      (M.run (is ++ js)).shared.sched.running = false ∧
      History.accepted (M.traceFrom (M.run is) js) ≤ inHand Point.entered (M.run is).clients := by
  intro M hstopped
  have hrunning := running_of_stopped numWorkers queueCapacity clients is hstopped
  -- a task is accepted by a call that had it in hand
  have hinv := (schedulerCode T).runFrom_history
    (I := fun tr s => s.shared.sched.running = false ∧
      History.accepted tr + inHand Point.entered s.clients
        ≤ inHand Point.entered (M.run is).clients)
    ⟨.withCapacity numWorkers queueCapacity, .free⟩ clients (M.run is) ⟨hrunning, ?_⟩ ?_ ?_ js
  · rw [M.run_append]
    exact ⟨hinv.1, (Multiset.le_add_right _ _).trans hinv.2⟩
  · show 0 + _ ≤ _
    rw [zero_add]
  · rintro tr s i ⟨hrun, hle⟩
    refine ⟨hrun, ?_⟩
    rw [History.accepted, Code.replies_skip]
    exact hle
  · rintro tr s i c p ⟨hrun, hle⟩ hp
    refine ⟨s.shared.exec_running p hrun, ?_⟩
    have hmove := (schedulerCode T).sum_replies_take (g := Reply.gained) entry_entered tr i hp
    change History.accepted _ + inHand Point.entered _ + p.entered
      = History.accepted tr + inHand Point.entered _ + (s.shared.exec p).2.worth _ _ at hmove
    have hworth := SharedScheduler.exec_entered hrun p
    have hstep : _ + p.entered ≤ inHand Point.entered (M.run is).clients + p.entered :=
      hmove.trans_le (add_le_add hle hworth)
    exact le_of_add_le_add_right hstep

/-- A `submit` has found the scheduler running when it is stopped, and goes on. -/
theorem accepted_after_stop_race :
    let M := sharedSchedulerMachine Nat 1 1 2
    let is : List (Unit × Move (Call Nat)) := [((), .invoke 0 (.submit 7)), ((), .invoke 1 .stop)]
    let js : List (Unit × Move (Call Nat)) := List.replicate 7 ((), .advance 0)
    Code.replies (M.traceFrom (M.run is) js) = [.submitted 7 (some 0)] ∧
    (M.run (is ++ js)).shared.sched.running = false ∧
    History.accepted (M.traceFrom (M.run is) js) ≤ inHand Point.entered (M.run is).clients := by
  intro M is js
  have hstopped : History.Stopped (M.trace is) := ⟨((), .invoke 1 .stop), by decide +kernel⟩
  have hafter : ∀ is js : List (Unit × Move (Call Nat)), History.Stopped (M.trace is) →
      (M.run (is ++ js)).shared.sched.running = false ∧
      History.accepted (M.traceFrom (M.run is) js) ≤ inHand Point.entered (M.run is).clients :=
    fun is js h => accepted_after_stop 1 1 2 is js h
  exact ⟨by decide +kernel, hafter is js hstopped⟩

end Pepita.Sched
