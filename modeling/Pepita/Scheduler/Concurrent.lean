import Pepita.Scheduler.Capacity

set_option autoImplicit false

/-! # The scheduler under interleaving

Any number of clients share one scheduler. A client is idle or somewhere inside a call; an action
either lets an idle client start a call or lets a client inside a call take its next atomic step.
A list of actions is one interleaving. An action that is not possible (a busy client starting
another call, `add_worker` while a call holds the read lock) changes nothing.

The atomic steps are those of the code: `submit` chooses its target and then pushes; `pop` is one
critical section; `steal` reads the flag of one victim at a time and then locks its deque;
`steal_batch` reads one worker at a time and then locks the busiest one it saw. A call that has
started holds the read lock on the list of workers until it returns.
-/

namespace Pepita.Sched

variable {T : Type}

/-! ## The model -/

/-- Where a client is in its call. -/
inductive Client (T : Type) where
  /-- not in a call -/
  | idle
  /-- in `submit`, with the target chosen -/
  | pushing (task : T) (target : Nat)
  /-- in `steal`, about to read the flag of the victim at this offset -/
  | probing (thiefIdx offset : Nat)
  /-- in `steal`, about to lock the deque of the victim at this offset -/
  | taking (thiefIdx offset : Nat)
  /-- in `steal_batch`, about to look at worker `idx` -/
  | scanning (thiefIdx idx : Nat) (acc : Option Nat × UInt64)
  /-- in `steal_batch`, about to lock the deque of the victim -/
  | halving (victimIdx : Nat)
  deriving DecidableEq, Repr

/-- The scheduler and its clients. -/
structure Sys (T : Type) where
  sched : Scheduler T
  clients : List (Client T)
  deriving DecidableEq, Repr

/-- An action of client `c`: start a call, or take the next step of the call it is in. -/
inductive Action (T : Type) where
  | invoke (c : Nat) (call : Call T)
  | advance (c : Nat)
  deriving DecidableEq, Repr

namespace Sys

/-- Client `c` moves to `l`. -/
def move (s : Sys T) (c : Nat) (l : Client T) : Sys T := { s with clients := s.clients.set c l }

/-- No call holds the read lock. -/
def quiet (s : Sys T) : Bool :=
  s.clients.all fun
    | .idle => true
    | _ => false

/-- The first step of a call by the idle client `c`, with the reply if the call ends there. -/
def invoke (s : Sys T) (c : Nat) : Call T → Sys T × Option (Reply T)
  | .submit task =>
      match s.sched.select with
      | (sched, none) => ({ s with sched := sched }, some (.submitted task none))
      | (sched, some target) => (move { s with sched := sched } c (.pushing task target), none)
  | .pop worker =>
      ({ s with sched := (s.sched.pop worker).1 }, some (.popped (s.sched.pop worker).2))
  | .steal thief =>
      if s.sched.workers.length ≤ 1 ∨ thief.toNat ≥ s.sched.workers.length then
        (s, some (.stolen none))
      else (s.move c (.probing thief.toNat 1), none)
  | .stealBatch thief =>
      if s.sched.workers.length ≤ 1 ∨ thief.toNat ≥ s.sched.workers.length then
        (s, some (.batch []))
      else (s.move c (.scanning thief.toNat 0 (none, 0)), none)
  -- the write lock waits for the calls that hold the read lock
  | .addWorker =>
      if s.quiet then ({ s with sched := s.sched.addWorker.1 }, some (.added s.sched.addWorker.2))
      else (s, none)
  | .deactivateWorker worker =>
      ({ s with sched := (s.sched.deactivateWorker worker).1 },
        some (.deactivated (s.sched.deactivateWorker worker).2))
  | .stop => ({ s with sched := s.sched.stop }, some .stopped)

/-- The next step of the call client `c` is in, with the reply if the call ends there. -/
def advance (s : Sys T) (c : Nat) : Client T → Sys T × Option (Reply T)
  | .idle => (s, none)
  | .pushing task target =>
      (move { s with sched := (s.sched.pushTo target task).1 } c .idle,
        some (.submitted task (s.sched.pushTo target task).2))
  | .probing thiefIdx offset =>
      if offset < s.sched.workers.length then
        if s.sched.isActive ((thiefIdx + offset) % s.sched.workers.length) then
          (s.move c (.taking thiefIdx offset), none)
        else (s.move c (.probing thiefIdx (offset + 1)), none)
      else (s.move c .idle, some (.stolen none))
  | .taking thiefIdx offset =>
      match s.sched.access ((thiefIdx + offset) % s.sched.workers.length)
          WorkStealingDeque.steal none with
      | (sched, some task) => (move { s with sched := sched } c .idle, some (.stolen (some task)))
      | (sched, none) => (move { s with sched := sched } c (.probing thiefIdx (offset + 1)), none)
  | .scanning thiefIdx idx acc =>
      match s.sched.workers[idx]? with
      | some w =>
          (s.move c (.scanning thiefIdx (idx + 1) (Scheduler.scanWorker thiefIdx acc idx w)), none)
      | none =>
          match acc.1 with
          | some victimIdx => (s.move c (.halving victimIdx), none)
          | none => (s.move c .idle, some (.batch []))
  | .halving victimIdx =>
      (move { s with sched := (s.sched.access victimIdx WorkStealingDeque.stealHalf []).1 } c .idle,
        some (.batch (s.sched.access victimIdx WorkStealingDeque.stealHalf []).2))

/-- One action, with the reply of the call that ends by it. -/
def step (s : Sys T) : Action T → Sys T × Option (Reply T)
  | .invoke c call =>
      match s.clients[c]? with
      | some .idle => s.invoke c call
      | _ => (s, none)
  | .advance c =>
      match s.clients[c]? with
      | some l => s.advance c l
      | none => (s, none)

end Sys

/-- `clients` clients on a scheduler of `numWorkers` workers. -/
def systemMachine (T : Type) (numWorkers queueCapacity : UInt64) (clients : Nat) :
    Machine (Sys T) (Action T) (Option (Reply T)) where
  init := ⟨.withCapacity numWorkers queueCapacity, List.replicate clients .idle⟩
  step := Sys.step

/-! ## Accepted and delivered tasks -/

/-- The task of a `submit` that returned `Some`. -/
def Reply.accepted : Reply T → List T
  | .submitted task (some _) => [task]
  | _ => []

/-- The tasks a call handed out. -/
def Reply.delivered : Reply T → List T
  | .popped result => result.toList
  | .stolen result => result.toList
  | .batch result => result
  | _ => []

/-- The tasks whose `submit` returned `Some`, in the order of the returns. -/
def accepted (tr : List (Action T × Option (Reply T))) : List T :=
  tr.flatMap fun e => e.2.elim [] Reply.accepted

/-- The tasks handed out by `pop`, `steal` and `steal_batch`, in the order of the returns. -/
def delivered (tr : List (Action T × Option (Reply T))) : List T :=
  tr.flatMap fun e => e.2.elim [] Reply.delivered

/-! ## What one action does to the tasks -/

/-- The balance of an action that takes the scheduler from `s` to `s'` and ends with `reply`. -/
structure Balanced (s s' : Scheduler T) (reply : Option (Reply T)) : Prop where
  wf : s'.WF
  tasks_eq : s'.tasks + (reply.elim [] Reply.delivered : List T)
    = s.tasks + (reply.elim [] Reply.accepted : List T)

theorem Balanced.refl {s : Scheduler T} (h : s.WF) : Balanced s s none := ⟨h, rfl⟩

theorem Balanced.of_tasks_eq {s s' : Scheduler T} {reply : Reply T} (h : s'.WF)
    (ht : s'.tasks = s.tasks) (hd : reply.delivered = []) (ha : reply.accepted = []) :
    Balanced s s' (some reply) :=
  ⟨h, by simp only [Option.elim_some, hd, ha, ht]⟩

/-- An access that takes tasks, answered by a reply that shows them. -/
theorem Balanced.access {s : Scheduler T} (h : s.WF) {α : Type}
    {f : WorkStealingDeque T → WorkStealingDeque T × α} {given : α → List T}
    (hf : WorkStealingDeque.Takes f given) {reply : α → Reply T}
    (hd : ∀ a, (reply a).delivered = given a) (ha : ∀ a, (reply a).accepted = [])
    (idx : Nat) (o : α) (ho : given o = []) :
    Balanced s (s.access idx f o).1 (some (reply (s.access idx f o).2)) := by
  obtain ⟨hwf, htasks⟩ := Scheduler.tasks_access_takes (i := idx) h hf ho
  refine ⟨hwf, ?_⟩
  simp only [Option.elim_some, hd, ha, htasks]
  simp

theorem Balanced.select {s : Scheduler T} (h : s.WF) : Balanced s s.select.1 none := by
  unfold Scheduler.select
  split_ifs
  · exact .refl h
  · exact .refl h
  · exact ⟨h, rfl⟩

theorem Balanced.pushTo {s : Scheduler T} (h : s.WF) (target : Nat) (task : T) :
    Balanced s (s.pushTo target task).1 (some (.submitted task (s.pushTo target task).2)) := by
  obtain ⟨hwf, htasks, -⟩ := Scheduler.pushTo_effect h target task
  refine ⟨hwf, ?_⟩
  rw [htasks]
  cases (s.pushTo target task).2 <;> simp [Reply.accepted, Reply.delivered]

theorem Balanced.pop {s : Scheduler T} (h : s.WF) (worker : UInt32) :
    Balanced s (s.pop worker).1 (some (.popped (s.pop worker).2)) := by
  unfold Scheduler.pop
  split_ifs
  · exact .of_tasks_eq h rfl rfl rfl
  · exact .access h WorkStealingDeque.pop_takes (fun _ => rfl) (fun _ => rfl) _ none rfl

theorem Balanced.stealAccess {s : Scheduler T} (h : s.WF) (idx : Nat) :
    Balanced s (s.access idx WorkStealingDeque.steal none).1
      (some (.stolen (s.access idx WorkStealingDeque.steal none).2)) :=
  .access h WorkStealingDeque.steal_takes (fun _ => rfl) (fun _ => rfl) idx none rfl

theorem Balanced.stealHalfAccess {s : Scheduler T} (h : s.WF) (idx : Nat) :
    Balanced s (s.access idx WorkStealingDeque.stealHalf []).1
      (some (.batch (s.access idx WorkStealingDeque.stealHalf []).2)) :=
  .access h WorkStealingDeque.stealHalf_takes (fun _ => rfl) (fun _ => rfl) idx [] rfl

theorem Sys.invoke_balanced {s : Sys T} (h : s.sched.WF) (c : Nat) (call : Call T) :
    Balanced s.sched (s.invoke c call).1.sched (s.invoke c call).2 := by
  cases call with
  | submit task =>
      have hsel := Balanced.select h
      rw [Sys.invoke]
      split
      · next sched heq =>
          rw [heq] at hsel
          exact ⟨hsel.wf, hsel.tasks_eq⟩
      · next sched target heq =>
          rw [heq] at hsel
          exact hsel
  | pop worker => exact .pop h worker
  | steal thief =>
      rw [Sys.invoke]
      split_ifs
      · exact .of_tasks_eq h rfl rfl rfl
      · exact .refl h
  | stealBatch thief =>
      rw [Sys.invoke]
      split_ifs
      · exact .of_tasks_eq h rfl rfl rfl
      · exact .refl h
  | addWorker =>
      rw [Sys.invoke]
      split_ifs
      · exact .of_tasks_eq h.addWorker Scheduler.tasks_addWorker rfl rfl
      · exact .refl h
  | deactivateWorker worker =>
      exact .of_tasks_eq (h.deactivateWorker worker) (Scheduler.tasks_deactivateWorker worker) rfl rfl
  | stop => exact .of_tasks_eq h rfl rfl rfl

theorem Sys.advance_balanced {s : Sys T} (h : s.sched.WF) (c : Nat) (l : Client T) :
    Balanced s.sched (s.advance c l).1.sched (s.advance c l).2 := by
  cases l with
  | idle => exact .refl h
  | pushing task target => exact .pushTo h target task
  | probing thiefIdx offset =>
      rw [Sys.advance]
      split_ifs
      · exact .refl h
      · exact .refl h
      · exact .of_tasks_eq h rfl rfl rfl
  | taking thiefIdx offset =>
      have htake := Balanced.stealAccess h ((thiefIdx + offset) % s.sched.workers.length)
      rw [Sys.advance]
      split
      · next sched task heq =>
          rw [heq] at htake
          exact htake
      · next sched heq =>
          -- nothing was taken, so the call goes on without a reply
          rw [heq] at htake
          exact ⟨htake.wf, htake.tasks_eq⟩
  | scanning thiefIdx idx acc =>
      rw [Sys.advance]
      split
      · exact .refl h
      · split
        · exact .refl h
        · exact .of_tasks_eq h rfl rfl rfl
  | halving victimIdx => exact .stealHalfAccess h victimIdx

/-- **Every action balances**: the tasks it hands out and the tasks left are the tasks there were
and the task it accepts. -/
theorem Sys.step_balanced {s : Sys T} (h : s.sched.WF) (a : Action T) :
    Balanced s.sched (s.step a).1.sched (s.step a).2 := by
  cases a with
  | invoke c call =>
      rw [Sys.step]
      split
      · exact Sys.invoke_balanced h c call
      · exact .refl h
  | advance c =>
      rw [Sys.step]
      split
      · exact Sys.advance_balanced h c _
      · exact .refl h

/-! ## Whole runs -/

/-- The scheduler agrees with the history of accepted and delivered tasks. -/
def Conserved (tr : List (Action T × Option (Reply T))) (s : Sys T) : Prop :=
  s.sched.WF ∧ (accepted tr : Multiset T) = delivered tr + s.sched.tasks

theorem Conserved.step {tr : List (Action T × Option (Reply T))} {s : Sys T}
    (h : Conserved tr s) (a : Action T) :
    Conserved (tr ++ [(a, (s.step a).2)]) (s.step a).1 := by
  obtain ⟨hwf, htasks⟩ := h
  obtain ⟨hwf', hbal⟩ := Sys.step_balanced hwf a
  refine ⟨hwf', ?_⟩
  simp only [accepted, delivered, List.flatMap_append, List.flatMap_singleton] at htasks ⊢
  -- what the action accepts joins what was held; what it hands out leaves it
  rw [← Multiset.coe_add, htasks, ← Multiset.coe_add, add_assoc, ← hbal]
  abel

theorem conserved_run (numWorkers queueCapacity : UInt64) (clients : Nat)
    (acts : List (Action T)) :
    Conserved ((systemMachine T numWorkers queueCapacity clients).trace acts)
      ((systemMachine T numWorkers queueCapacity clients).run acts) := by
  refine Machine.run_history _ ⟨.withCapacity _ _, ?_⟩ (fun tr s a h => h.step a) acts
  show ((0 : Multiset T)) = 0 + (Scheduler.withCapacity numWorkers queueCapacity).tasks
  rw [Scheduler.tasks_withCapacity, add_zero]

/-- **No accepted task is lost or duplicated, under any interleaving.** The tasks whose `submit`
returned `Some` are, as a multiset, the tasks handed out so far and the tasks in the deques; every
counter shows the length of its deque; `pending_tasks` is the number of tasks accepted and not
yet handed out, modulo 2^64; and no deque holds more than its capacity. -/
theorem tasks_conserved (numWorkers queueCapacity : UInt64) (clients : Nat)
    (acts : List (Action T)) :
    let tr := (systemMachine T numWorkers queueCapacity clients).trace acts
    let sched := ((systemMachine T numWorkers queueCapacity clients).run acts).sched
    (accepted tr : Multiset T) = delivered tr + sched.tasks ∧
    (∀ w ∈ sched.workers, w.deque.len.toNat = w.deque.deque.length) ∧
    (∃ undelivered, (accepted tr).length = (delivered tr).length + undelivered ∧
      sched.pendingTasks.toNat = undelivered % 2 ^ 64) ∧
    (∀ w ∈ sched.workers, w.deque.deque.length ≤ w.deque.capacity.toNat) := by
  intro tr sched
  obtain ⟨hwf, htasks⟩ := conserved_run numWorkers queueCapacity clients acts
  refine ⟨htasks, fun w hw => (hwf w hw).len_eq, ⟨sched.tasks.card, ?_, ?_⟩,
    fun w hw => (hwf w hw).le_capacity⟩
  · have hcard := congrArg Multiset.card htasks
    rwa [Multiset.card_add, Multiset.coe_card, Multiset.coe_card] at hcard
  · rw [hwf.pendingTasks_eq, UInt64.toNat_ofNat']

/-! ## More tasks than a word counts

The queues of a few workers together can hold more tasks than `usize` has values. -/

/-- The actions of one client that submits the same task `k` times. -/
def submissions (task : T) : Nat → List (Action T)
  | 0 => []
  | k + 1 => submissions task k ++ [.invoke 0 (.submit task), .advance 0]

/-- One submission by the only client, when there is room. -/
theorem Scheduler.Uniform.trace_submit {s : Scheduler T} {n : Nat} {capacity : UInt64}
    (h : s.Uniform n capacity) (hroom : s.tasks.card < n * capacity.toNat) (task : T)
    (numWorkers queueCapacity : UInt64) :
    let M := systemMachine T numWorkers queueCapacity 1
    ∃ id, M.traceFrom ⟨s, [.idle]⟩ [.invoke 0 (.submit task), .advance 0]
        = [(.invoke 0 (.submit task), none), (.advance 0, some (.submitted task (some id)))] ∧
      M.runFrom ⟨s, [.idle]⟩ [.invoke 0 (.submit task), .advance 0]
        = ⟨(s.submit task).1, [.idle]⟩ := by
  intro M
  obtain ⟨hsome, -⟩ := h.submit_room hroom task
  obtain ⟨id, hid⟩ := Option.isSome_iff_exists.mp hsome
  cases hsel : s.select with
  | mk s' target =>
      cases target with
      | none =>
          rw [Scheduler.submit, hsel] at hid
          cases hid
      | some target =>
          have hsubmit : s.submit task = s'.pushTo target task := by
            rw [Scheduler.submit, hsel]
          have hinvoke : M.step ⟨s, [.idle]⟩ (.invoke 0 (.submit task))
              = (⟨s', [.pushing task target]⟩, none) := by
            show Sys.invoke ⟨s, [.idle]⟩ 0 (.submit task) = _
            simp only [Sys.invoke, hsel]
            rfl
          have hadvance : M.step ⟨s', [.pushing task target]⟩ (.advance 0)
              = (⟨(s.submit task).1, [.idle]⟩, some (.submitted task (some id))) := by
            rw [← hid, hsubmit]
            rfl
          refine ⟨id, ?_, ?_⟩
          · rw [Machine.traceFrom, hinvoke, Machine.traceFrom, hadvance, Machine.traceFrom]
          · show (M.step (M.step _ _).1 _).1 = _
            rw [hinvoke, hadvance]

/-- As many submissions as there is room for are all accepted. -/
theorem run_submissions (task : T) (numWorkers queueCapacity : UInt64) (k : Nat)
    (hk : k ≤ numWorkers.toNat * queueCapacity.toNat) :
    let M := systemMachine T numWorkers queueCapacity 1
    ∃ s : Scheduler T, M.run (submissions task k) = ⟨s, [.idle]⟩ ∧
      s.Uniform numWorkers.toNat queueCapacity ∧ s.tasks.card = k ∧
      (accepted (M.trace (submissions task k))).length = k ∧
      delivered (M.trace (submissions task k)) = [] := by
  intro M
  induction k with
  | zero =>
      refine ⟨.withCapacity numWorkers queueCapacity, rfl, .withCapacity _ _, ?_, rfl, rfl⟩
      rw [Scheduler.tasks_withCapacity]
      rfl
  | succ k ih =>
      obtain ⟨s, hrun, huniform, hcard, haccepted, hdelivered⟩ := ih (by omega)
      obtain ⟨id, htrace, hrun'⟩ := huniform.trace_submit (by omega) task numWorkers queueCapacity
      obtain ⟨-, hcard'⟩ := huniform.submit_room (by omega) task
      rw [submissions, M.run_append, M.trace_append, hrun, htrace, hrun']
      refine ⟨_, rfl, huniform.submit task, by rw [hcard', hcard], ?_, ?_⟩
      · rw [accepted, List.flatMap_append, List.length_append]
        exact congrArg (· + 1) haccepted
      · rw [delivered, List.flatMap_append]
        exact (congrArg (· ++ []) hdelivered)

/-- 2^64 tasks that take no room are accepted and none is handed out, and no task is pending. -/
theorem pending_wraps :
    let M := systemMachine Unit 3 (.ofNat (2 ^ 63)) 1
    let acts := submissions () (2 ^ 64)
    (accepted (M.trace acts)).length = 2 ^ 64 ∧ (delivered (M.trace acts)).length = 0 ∧
    (M.run acts).sched.pendingTasks.toNat = 0 := by
  have hcap : (UInt64.ofNat (2 ^ 63)).toNat = 2 ^ 63 :=
    UInt64.toNat_ofNat_of_lt' (show 2 ^ 63 < 2 ^ 64 by omega)
  have hthree : (3 : UInt64).toNat = 3 := rfl
  generalize UInt64.ofNat (2 ^ 63) = capacity at hcap ⊢
  intro M acts
  obtain ⟨s, hrun, huniform, hcard, haccepted, hdelivered⟩ :=
    run_submissions () 3 capacity (2 ^ 64) (by rw [hcap, hthree]; omega)
  refine ⟨haccepted, congrArg List.length hdelivered, ?_⟩
  rw [hrun, huniform.wf.pendingTasks_eq, hcard, UInt64.toNat_ofNat', Nat.mod_self]

end Pepita.Sched
