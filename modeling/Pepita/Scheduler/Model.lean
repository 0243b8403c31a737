import Pepita.Lib.Machine
import Pepita.Scheduler.Deque

set_option autoImplicit false

/-! # The scheduler

`Scheduler` of `scheduler.rs`, one call at a time: each operation is a function of the state. The
workers are numbered from 0; a worker is never removed, only deactivated.

Every operation reaches a deque through `access`, the critical section under that deque's mutex.
What an access does to the other workers, to well-formedness and to the tasks held is said once,
for any operation on the deque. The interleaved semantics (`Scheduler/Concurrent.lean`) is built
from the same pieces.
-/

namespace Pepita.Sched

variable {T : Type}

/-! ## The model -/

/-- `WorkerState`. -/
structure WorkerState (T : Type) where
  deque : WorkStealingDeque T
  active : Bool
  deriving DecidableEq, Repr

/-- `WorkerState::new`. -/
def WorkerState.new (capacity : UInt64) : WorkerState T := ⟨.new capacity, true⟩

/-- The test of `submit`'s search, on the active flag and the unlocked counter. -/
def WorkerState.hasSpace (w : WorkerState T) : Bool :=
  w.active && decide (w.deque.len < w.deque.capacity)

/-- `Scheduler`. -/
structure Scheduler (T : Type) where
  workers : List (WorkerState T)
  numWorkers : UInt64
  nextTaskId : UInt64
  queueCapacity : UInt64
  submitCounter : UInt64
  running : Bool
  deriving DecidableEq, Repr

namespace Scheduler

/-- `with_capacity`. -/
def withCapacity (numWorkers queueCapacity : UInt64) : Scheduler T where
  workers := List.replicate numWorkers.toNat (.new queueCapacity)
  numWorkers := numWorkers
  nextTaskId := 0
  queueCapacity := queueCapacity
  submitCounter := 0
  running := true

/-- The deque of worker `idx` under its mutex: run `f` on it, keep the deque `f` leaves and hand
out the result. `out` stands for a worker that does not exist. -/
def access {α : Type} (s : Scheduler T) (idx : Nat)
    (f : WorkStealingDeque T → WorkStealingDeque T × α) (out : α) : Scheduler T × α :=
  match s.workers[idx]? with
  | none => (s, out)
  | some w =>
      ({ s with workers := s.workers.set idx { w with deque := (f w.deque).1 } }, (f w.deque).2)

/-- The `active` flag of worker `idx`. -/
def isActive (s : Scheduler T) (idx : Nat) : Bool :=
  match s.workers[idx]? with
  | none => false
  | some w => w.active

/-- The first part of `submit`: check that the scheduler runs, draw a start from the round-robin
counter and look for the first worker from there on, cyclically, that is active and has space. -/
def select (s : Scheduler T) : Scheduler T × Option Nat :=
  if !s.running then (s, none)
  else if s.workers.isEmpty then (s, none)
  else
    let start := s.submitCounter.toNat % s.workers.length
    ({ s with submitCounter := s.submitCounter + 1 },
      ((List.range s.workers.length).map fun i => (start + i) % s.workers.length).find?
        fun idx => s.workers[idx]?.any WorkerState.hasSpace)

/-- The second part of `submit`: push to the chosen worker and draw a task id. A push that finds
the deque full loses the task. -/
def pushTo (s : Scheduler T) (target : Nat) (task : T) : Scheduler T × Option UInt64 :=
  match s.access target (fun q => q.push task) (.error .ublkQueueFull) with
  | (s', .ok ()) => ({ s' with nextTaskId := s'.nextTaskId + 1 }, some s'.nextTaskId)
  | (s', .error _) => (s', none)

/-- `submit`. -/
def submit (s : Scheduler T) (task : T) : Scheduler T × Option UInt64 :=
  match s.select with
  | (s', none) => (s', none)
  | (s', some target) => s'.pushTo target task

/-- `pop`. -/
def pop (s : Scheduler T) (worker : UInt32) : Scheduler T × Option T :=
  if worker.toNat ≥ s.workers.length then (s, none)
  else s.access worker.toNat WorkStealingDeque.pop none

/-- The loop of `steal` over the offsets from the thief. -/
def stealLoop (thiefIdx : Nat) : Scheduler T → List Nat → Scheduler T × Option T
  | s, [] => (s, none)
  | s, offset :: offsets =>
      let victimIdx := (thiefIdx + offset) % s.workers.length
      if s.isActive victimIdx then
        match s.access victimIdx WorkStealingDeque.steal none with
        | (s', some task) => (s', some task)
        | (s', none) => stealLoop thiefIdx s' offsets
      else stealLoop thiefIdx s offsets

/-- `steal`. -/
def steal (s : Scheduler T) (thief : UInt32) : Scheduler T × Option T :=
  if s.workers.length ≤ 1 ∨ thief.toNat ≥ s.workers.length then (s, none)
  else stealLoop thief.toNat s (List.range' 1 (s.workers.length - 1))

/-- One pass of the search of `steal_batch`: the busiest worker so far and its length. -/
def scanWorker (thiefIdx : Nat) (acc : Option Nat × UInt64) (idx : Nat) (w : WorkerState T) :
    Option Nat × UInt64 :=
  if idx ≠ thiefIdx ∧ w.active = true then
    if w.deque.len > acc.2 then (some idx, w.deque.len) else acc
  else acc

/-- `steal_batch`. -/
def stealBatch (s : Scheduler T) (thief : UInt32) : Scheduler T × List T :=
  if s.workers.length ≤ 1 ∨ thief.toNat ≥ s.workers.length then (s, [])
  else
    match (s.workers.zipIdx.foldl (fun acc p => scanWorker thief.toNat acc p.2 p.1) (none, 0)).1 with
    | some idx => s.access idx WorkStealingDeque.stealHalf []
    | none => (s, [])

/-- `pending_tasks`. The sum of the `usize` counters wraps, as in a release build. -/
def pendingTasks (s : Scheduler T) : UInt64 :=
  (s.workers.map fun w => w.deque.len).foldl (· + ·) 0

/-- `worker_loads`. -/
def workerLoads (s : Scheduler T) : List UInt64 := s.workers.map fun w => w.deque.len

/-- `stop`. -/
def stop (s : Scheduler T) : Scheduler T := { s with running := false }

/-- `add_worker`. -/
def addWorker (s : Scheduler T) : Scheduler T × Option UInt32 :=
  ({ s with
      workers := s.workers ++ [.new s.queueCapacity]
      numWorkers := s.numWorkers + 1 }, some (UInt32.ofNat s.workers.length))

/-- `deactivate_worker`. -/
def deactivateWorker (s : Scheduler T) (worker : UInt32) : Scheduler T × Bool :=
  match s.workers[worker.toNat]? with
  | none => (s, false)
  | some w => ({ s with workers := s.workers.set worker.toNat { w with active := false } }, true)

end Scheduler

/-- The calls on a scheduler. -/
inductive Call (T : Type) where
  | submit (task : T)
  | pop (worker : UInt32)
  | steal (thief : UInt32)
  | stealBatch (thief : UInt32)
  | addWorker
  | deactivateWorker (worker : UInt32)
  | stop
  deriving DecidableEq, Repr

/-- What the calls give back. A reply to `submit` repeats the task. -/
inductive Reply (T : Type) where
  | submitted (task : T) (id : Option UInt64)
  | popped (result : Option T)
  | stolen (result : Option T)
  | batch (result : List T)
  | added (id : Option UInt32)
  | deactivated (found : Bool)
  | stopped
  deriving DecidableEq, Repr

/-- One call, run alone. -/
def Scheduler.call (s : Scheduler T) : Call T → Scheduler T × Reply T
  | .submit task => ((s.submit task).1, .submitted task (s.submit task).2)
  | .pop worker => ((s.pop worker).1, .popped (s.pop worker).2)
  | .steal thief => ((s.steal thief).1, .stolen (s.steal thief).2)
  | .stealBatch thief => ((s.stealBatch thief).1, .batch (s.stealBatch thief).2)
  | .addWorker => (s.addWorker.1, .added s.addWorker.2)
  | .deactivateWorker worker =>
      ((s.deactivateWorker worker).1, .deactivated (s.deactivateWorker worker).2)
  | .stop => (s.stop, .stopped)

/-- A scheduler used one call at a time. -/
def schedulerMachine (T : Type) (numWorkers queueCapacity : UInt64) :
    Machine (Scheduler T) (Call T) (Reply T) where
  init := .withCapacity numWorkers queueCapacity
  step := Scheduler.call

/-! ## Accessing a deque -/

namespace Scheduler

variable {α : Type} {s : Scheduler T} {i : Nat}
  {f : WorkStealingDeque T → WorkStealingDeque T × α} {o : α}

theorem access_of_getElem? {w : WorkerState T} (h : s.workers[i]? = some w) :
    s.access i f o
      = ({ s with workers := s.workers.set i { w with deque := (f w.deque).1 } },
          (f w.deque).2) := by
  simp [access, h]

theorem access_of_none (h : s.workers[i]? = none) : s.access i f o = (s, o) := by
  simp [access, h]

/-- An operation that leaves the deque leaves the scheduler. -/
theorem access_of_eq {w : WorkerState T} (h : s.workers[i]? = some w) {a : α}
    (hf : f w.deque = (w.deque, a)) : s.access i f o = (s, a) := by
  obtain ⟨hlt, rfl⟩ := List.getElem?_eq_some_iff.mp h
  rw [access_of_getElem? h, hf]
  show ({ s with workers := s.workers.set i s.workers[i] }, a) = (s, a)
  rw [List.set_getElem_self]

/-- The counters and flags of the scheduler are outside the critical section. -/
theorem access_frame :
    (s.access i f o).1.workers.length = s.workers.length ∧
    (s.access i f o).1.submitCounter = s.submitCounter ∧
    (s.access i f o).1.nextTaskId = s.nextTaskId ∧
    (s.access i f o).1.running = s.running := by
  unfold access
  split <;> simp

/-! ## Choosing a target -/

/-- The cyclic search from any start passes every worker. -/
theorem exists_cyclic {n start j : Nat} (hs : start < n) (hj : j < n) :
    ∃ i < n, (start + i) % n = j := by
  refine ⟨(j + n - start) % n, Nat.mod_lt _ (by omega), ?_⟩
  rw [Nat.add_mod_mod, show start + (j + n - start) = j + n by omega, Nat.add_mod_right,
    Nat.mod_eq_of_lt hj]

theorem select_workers (s : Scheduler T) : s.select.1.workers = s.workers := by
  unfold select
  split_ifs <;> rfl

/-- The chosen worker is active and has space, and the scheduler runs. -/
theorem select_some {t : Nat} (h : s.select.2 = some t) :
    s.running = true ∧ ∃ w, s.workers[t]? = some w ∧ w.hasSpace = true := by
  unfold select at h
  split_ifs at h with hrun hempty
  have hfound := List.find?_some h
  refine ⟨by simpa using hrun, ?_⟩
  cases hw : s.workers[t]? with
  | none => simp [hw] at hfound
  | some w => exact ⟨w, rfl, by simpa [hw] using hfound⟩

/-- On a running scheduler the search comes back empty only when no worker is active with space. -/
theorem select_none (hrun : s.running = true) (h : s.select.2 = none) :
    ∀ w ∈ s.workers, w.hasSpace = false := by
  intro w hw
  obtain ⟨j, hj, rfl⟩ := List.getElem_of_mem hw
  unfold select at h
  rw [if_neg (by simp [hrun]), if_neg (by simpa using List.ne_nil_of_mem hw)] at h
  obtain ⟨i, hi, hij⟩ := exists_cyclic (Nat.mod_lt s.submitCounter.toNat (by omega)) hj
  have hnot := List.find?_eq_none.mp h j
    (List.mem_map.mpr ⟨i, List.mem_range.mpr hi, hij⟩)
  simpa [List.getElem?_eq_getElem hj] using hnot

/-! ## Well-formedness -/

/-- In a well-formed scheduler the search of `submit` sees the real length of each deque. -/
theorem hasSpace_iff {w : WorkerState T} (h : w.deque.WF) :
    w.hasSpace = true ↔
      w.active = true ∧ w.deque.deque.length < w.deque.capacity.toNat := by
  unfold WorkerState.hasSpace
  rw [Bool.and_eq_true, decide_eq_true_iff, h.len_lt_iff]

/-- Every deque is well formed. -/
def WF (s : Scheduler T) : Prop := ∀ w ∈ s.workers, w.deque.WF

theorem WF.access (h : s.WF) (hf : ∀ q : WorkStealingDeque T, q.WF → (f q).1.WF) :
    (s.access i f o).1.WF := by
  cases hw : s.workers[i]? with
  | none => rw [access_of_none hw]; exact h
  | some w =>
      rw [access_of_getElem? hw]
      intro w' hw'
      rcases List.mem_or_eq_of_mem_set hw' with hmem | rfl
      · exact h w' hmem
      · exact hf _ (h w (List.mem_of_getElem? hw))

theorem WF.withCapacity (numWorkers queueCapacity : UInt64) :
    (withCapacity numWorkers queueCapacity : Scheduler T).WF := by
  intro w hw
  rw [List.eq_of_mem_replicate hw]
  exact .new _

theorem WF.addWorker (h : s.WF) : s.addWorker.1.WF := by
  intro w hw
  rcases List.mem_append.mp hw with hw | hw
  · exact h w hw
  · rw [List.mem_singleton.mp hw]; exact .new _

theorem WF.deactivateWorker (h : s.WF) (worker : UInt32) : (s.deactivateWorker worker).1.WF := by
  unfold Scheduler.deactivateWorker
  split
  · exact h
  · next w hw =>
      intro w' hw'
      rcases List.mem_or_eq_of_mem_set hw' with hmem | rfl
      · exact h w' hmem
      · exact h w (List.mem_of_getElem? hw)

/-! ## The tasks held -/

/-- All tasks in the deques. -/
def tasks (s : Scheduler T) : Multiset T := (s.workers.flatMap fun w => w.deque.deque : List T)

/-- Replacing one worker exchanges its tasks. -/
theorem tasks_set {w : WorkerState T} (h : s.workers[i]? = some w) (w' : WorkerState T) :
    ({ s with workers := s.workers.set i w' } : Scheduler T).tasks + w.deque.deque
      = s.tasks + w'.deque.deque := by
  obtain ⟨hlt, rfl⟩ := List.getElem?_eq_some_iff.mp h
  unfold tasks
  conv_rhs => rw [← List.take_append_drop i s.workers, List.drop_eq_getElem_cons hlt]
  rw [List.set_eq_take_append_cons_drop, if_pos hlt]
  simp only [List.flatMap_append, List.flatMap_cons, ← Multiset.coe_add]
  abel

/-- An access that takes tasks removes exactly those from the scheduler. -/
theorem tasks_access_takes {given : α → List T} (h : s.WF)
    (hf : WorkStealingDeque.Takes f given) (hout : given o = []) :
    (s.access i f o).1.WF ∧
    (s.access i f o).1.tasks + given (s.access i f o).2 = s.tasks := by
  refine ⟨h.access fun q hq => (hf q hq).1, ?_⟩
  cases hw : s.workers[i]? with
  | none => rw [access_of_none hw]; simp [hout]
  | some w =>
      have hset := tasks_set hw { w with deque := (f w.deque).1 }
      have hperm := (hf w.deque (h w (List.mem_of_getElem? hw))).2
      have hcoe : ((f w.deque).1.deque : Multiset T) + given (f w.deque).2 = w.deque.deque := by
        rw [Multiset.coe_add]; exact Multiset.coe_eq_coe.mpr hperm
      rw [access_of_getElem? hw]
      apply add_right_cancel (b := (w.deque.deque : Multiset T))
      calc _ + (given (f w.deque).2 : Multiset T) + w.deque.deque
          = s.tasks + (f w.deque).1.deque + given (f w.deque).2 := by
            rw [add_right_comm, hset]
        _ = s.tasks + w.deque.deque := by rw [add_assoc, hcoe]

/-- The push of `submit`: well-formedness is kept, the task is added exactly when an id is
returned, and an id is returned exactly when the chosen deque exists and has room. -/
theorem pushTo_effect (h : s.WF) (target : Nat) (task : T) :
    (s.pushTo target task).1.WF ∧
    (s.pushTo target task).1.tasks
      = s.tasks + (if (s.pushTo target task).2.isSome then [task] else [] : List T) ∧
    ((s.pushTo target task).2.isSome ↔
      ∃ w, s.workers[target]? = some w ∧ w.deque.deque.length < w.deque.capacity.toNat) := by
  cases hw : s.workers[target]? with
  | none => simp [pushTo, access_of_none hw, h]
  | some w =>
      have hq := h w (List.mem_of_getElem? hw)
      by_cases hroom : w.deque.deque.length < w.deque.capacity.toNat
      · -- there is room: the worker's deque is replaced by one with the task at the back
        obtain ⟨q', hpush, hdeque, -, hwf⟩ := WorkStealingDeque.push_room hq hroom task
        have hacc := access_of_getElem? (f := fun q => q.push task)
          (o := .error KernelError.ublkQueueFull) hw
        rw [hpush] at hacc
        have hset := tasks_set hw { w with deque := q' }
        have hkeep : (s.access target (fun q => q.push task)
            (.error KernelError.ublkQueueFull)).1.WF := by
          rw [hacc]
          intro w' hw'
          rcases List.mem_or_eq_of_mem_set hw' with hmem | rfl
          · exact h w' hmem
          · exact hwf
        rw [hacc] at hkeep
        simp only [pushTo, hacc, Option.isSome_some, if_true, true_iff]
        refine ⟨hkeep, ?_, w, rfl, hroom⟩
        rw [← add_right_cancel_iff (a := (w.deque.deque : Multiset T)), add_right_comm]
        refine Eq.trans hset ?_
        rw [hdeque, ← Multiset.coe_add]
        abel
      · -- the push is refused and the task is gone
        have hfull := WorkStealingDeque.push_full (Nat.not_lt.mp hroom) task
        have hacc := access_of_eq (f := fun q => q.push task)
          (o := .error KernelError.ublkQueueFull) hw hfull
        simp [pushTo, hacc, h, hroom]

theorem tasks_withCapacity (numWorkers queueCapacity : UInt64) :
    (withCapacity numWorkers queueCapacity : Scheduler T).tasks = 0 := by
  simp [tasks, withCapacity, WorkerState.new, WorkStealingDeque.new]

theorem tasks_addWorker : s.addWorker.1.tasks = s.tasks := by
  simp [tasks, addWorker, WorkerState.new, WorkStealingDeque.new]

theorem tasks_deactivateWorker (worker : UInt32) : (s.deactivateWorker worker).1.tasks = s.tasks := by
  unfold deactivateWorker
  split
  · rfl
  · next w hw => exact add_right_cancel (tasks_set hw { w with active := false })

/-- In a well-formed scheduler the counters add up to the number of tasks held. -/
theorem WF.card_tasks (h : s.WF) :
    s.tasks.card = (s.workers.map fun w => w.deque.len.toNat).sum := by
  unfold tasks
  rw [Multiset.coe_card, List.length_flatMap]
  congr 1
  exact List.map_congr_left fun w hw => (h w hw).len_eq.symm

/-- `pending_tasks` is that number as a word. -/
theorem WF.pendingTasks_eq (h : s.WF) : s.pendingTasks = UInt64.ofNat s.tasks.card := by
  -- the sum so far is any word
  have hsum : ∀ (ws : List (WorkerState T)) (n : UInt64),
      (ws.map fun w => w.deque.len).foldl (· + ·) n
        = n + UInt64.ofNat (ws.map fun w => w.deque.len.toNat).sum := by
    intro ws
    induction ws with
    | nil => exact fun n => (UInt64.add_zero n).symm
    | cons w ws ih =>
        intro n
        rw [List.map_cons, List.foldl_cons, ih, List.map_cons, List.sum_cons, UInt64.ofNat_add,
          UInt64.ofNat_toNat, UInt64.add_assoc]
  rw [h.card_tasks, pendingTasks, hsum, UInt64.zero_add]

end Scheduler

end Pepita.Sched
