import Pepita.Scheduler.Sequential

set_option autoImplicit false

/-! # Where a submitted task goes

`submit`, called alone, draws a start from a counter that runs freely and takes the first worker
from there on, cyclically, that is active and not full. `submit_of_firstFrom` and
`submit_of_not_accepting` give the call as an equation for each of its two results.

Over a run the counter shows the number of submissions that reached the search, and the next task
id the number of those accepted (`submit_exact`). Both are 64-bit words: the counter goes back to 0
after 2^64 submissions, in the middle of a round unless the number of workers divides 2^64
(`counter_wraps`).
-/

namespace Pepita.Sched

variable {T : Type}

namespace Scheduler

variable {s : Scheduler T}

/-! ## The search -/

/-- Worker `idx` is active and below its capacity. -/
def Eligible (s : Scheduler T) (idx : Nat) : Prop :=
  ∃ w, s.workers[idx]? = some w ∧ w.active = true ∧
    w.deque.deque.length < w.deque.capacity.toNat

/-- `target` is the first eligible worker in the cyclic order from `start` on. -/
def FirstFrom (s : Scheduler T) (start target : Nat) : Prop :=
  ∃ i < s.workers.length, (start + i) % s.workers.length = target ∧ s.Eligible target ∧
    ∀ j < i, ¬ s.Eligible ((start + j) % s.workers.length)

/-- The scheduler runs and has an eligible worker. -/
def Accepting (s : Scheduler T) : Prop := s.running = true ∧ ∃ idx, s.Eligible idx

/-- The test of the search, in a well-formed scheduler. -/
theorem any_hasSpace_iff (h : s.WF) (idx : Nat) :
    s.workers[idx]?.any WorkerState.hasSpace = true ↔ s.Eligible idx := by
  unfold Eligible
  cases hw : s.workers[idx]? with
  | none => simp
  | some w => simp [hasSpace_iff (h w (List.mem_of_getElem? hw))]

theorem select_eq_some_iff (h : s.WF) {target : Nat} :
    s.select.2 = some target ↔
      s.running = true ∧ s.FirstFrom (s.submitCounter.toNat % s.workers.length) target := by
  unfold select FirstFrom
  cases hrun : s.running with
  | false => simp
  | true =>
      cases hempty : s.workers.isEmpty with
      | true =>
          rw [List.isEmpty_iff] at hempty
          simp [hempty]
      | false =>
          simp only [Bool.not_true, Bool.false_eq_true, if_false, true_and,
            List.find?_eq_some_iff_getElem, any_hasSpace_iff h, List.getElem_map,
            List.getElem_range, List.length_map, List.length_range, Bool.not_eq_true',
            ← Bool.not_eq_true]
          constructor
          · rintro ⟨helig, i, hi, hcyc, hfirst⟩
            exact ⟨i, hi, hcyc, helig, hfirst⟩
          · rintro ⟨i, hi, hcyc, helig, hfirst⟩
            exact ⟨helig, i, hi, hcyc, hfirst⟩

/-- An eligible worker is found, whatever the start. -/
theorem select_eq_none_iff (h : s.WF) : s.select.2 = none ↔ ¬ s.Accepting := by
  constructor
  · rintro hnone ⟨hrun, idx, w, hw, hactive, hroom⟩
    have hmem := List.mem_of_getElem? hw
    have hspace := select_none hrun hnone w hmem
    rw [(hasSpace_iff (h w hmem)).mpr ⟨hactive, hroom⟩] at hspace
    cases hspace
  · intro hnot
    cases hsel : s.select.2 with
    | none => rfl
    | some target =>
        obtain ⟨hrun, i, hi, hcyc, helig, -⟩ := (select_eq_some_iff h).mp hsel
        exact absurd ⟨hrun, target, helig⟩ hnot

/-- The state after the search: only the counter has moved, if the search was reached. -/
theorem select_fst (s : Scheduler T) :
    s.select.1 = { s with
      submitCounter := s.submitCounter + if s.running && !s.workers.isEmpty then 1 else 0 } := by
  obtain ⟨workers, numWorkers, nextTaskId, queueCapacity, submitCounter, running⟩ := s
  cases running <;> cases hempty : workers.isEmpty <;> simp [select, hempty]

/-! ## The call as an equation -/

/-- A submission that nothing can take: no deque and no id is touched. -/
theorem submit_of_not_accepting (h : s.WF) (hnot : ¬ s.Accepting) (task : T) :
    s.submit task = ({ s with
      submitCounter := s.submitCounter + if s.running && !s.workers.isEmpty then 1 else 0 },
      none) := by
  have hnone := (select_eq_none_iff h).mpr hnot
  rw [submit, ← Prod.eta s.select, hnone, select_fst]

theorem pushTo_of_room {target : Nat} {w : WorkerState T} (hw : s.workers[target]? = some w)
    (hroom : w.deque.deque.length < w.deque.capacity.toNat) (task : T) :
    s.pushTo target task = ({ s with
      workers := s.workers.set target
        { w with deque := ⟨w.deque.deque ++ [task], w.deque.len + 1, w.deque.capacity⟩ }
      nextTaskId := s.nextTaskId + 1 }, some s.nextTaskId) := by
  have hpush : w.deque.push task
      = (⟨w.deque.deque ++ [task], w.deque.len + 1, w.deque.capacity⟩, .ok ()) :=
    if_neg (Nat.not_le.mpr hroom)
  rw [pushTo, access_of_getElem? hw, hpush]

/-- A submission that is taken: the task goes to the back of the target's deque and gets the next
id. -/
theorem submit_of_firstFrom (h : s.WF) (hrun : s.running = true) {target : Nat}
    (ht : s.FirstFrom (s.submitCounter.toNat % s.workers.length) target) {w : WorkerState T}
    (hw : s.workers[target]? = some w) (task : T) :
    s.submit task = ({ s with
      workers := s.workers.set target
        { w with deque := ⟨w.deque.deque ++ [task], w.deque.len + 1, w.deque.capacity⟩ }
      submitCounter := s.submitCounter + 1
      nextTaskId := s.nextTaskId + 1 }, some s.nextTaskId) := by
  obtain ⟨-, -, -, ⟨w', hw', -, hroom⟩, -⟩ := id ht
  rw [hw, Option.some_inj] at hw'
  subst hw'
  have hsome := (select_eq_some_iff h).mpr ⟨hrun, ht⟩
  have hne : s.workers.isEmpty = false := by
    rw [List.isEmpty_eq_false_iff]
    exact List.ne_nil_of_mem (List.mem_of_getElem? hw)
  have hsubmit : s.submit task = s.select.1.pushTo target task := by
    rw [submit, ← Prod.eta s.select, hsome]
  have hw' : s.select.1.workers[target]? = some w := by rw [select_workers, hw]
  rw [hsubmit, pushTo_of_room hw' hroom, select_fst]
  simp [hrun, hne]

/-- Some worker is the first, if any is eligible. -/
theorem exists_firstFrom (h : s.WF) (hacc : s.Accepting) :
    ∃ target w, s.FirstFrom (s.submitCounter.toNat % s.workers.length) target ∧
      s.workers[target]? = some w := by
  cases hsel : s.select.2 with
  | none => exact absurd hacc ((select_eq_none_iff h).mp hsel)
  | some target =>
      obtain ⟨-, hfirst⟩ := (select_eq_some_iff h).mp hsel
      obtain ⟨-, -, -, ⟨w, hw, -⟩, -⟩ := id hfirst
      exact ⟨target, w, hfirst, hw⟩

theorem isSome_submit_iff (h : s.WF) (task : T) :
    (s.submit task).2.isSome = true ↔ s.Accepting := by
  by_cases hacc : s.Accepting
  · obtain ⟨target, w, hfirst, hw⟩ := exists_firstFrom h hacc
    rw [submit_of_firstFrom h hacc.1 hfirst hw]
    exact iff_of_true rfl hacc
  · rw [submit_of_not_accepting h hacc]
    exact iff_of_false (by simp) hacc

/-! ## The counters over a run -/

/-- The call is a submission that gets as far as the search. -/
def reachesSelection (s : Scheduler T) : Call T → Bool
  | .submit _ => s.running && !s.workers.isEmpty
  | _ => false

theorem stealLoop_frame (thiefIdx : Nat) (offsets : List Nat) : ∀ s : Scheduler T,
    (stealLoop thiefIdx s offsets).1.submitCounter = s.submitCounter ∧
    (stealLoop thiefIdx s offsets).1.nextTaskId = s.nextTaskId := by
  induction offsets with
  | nil => intro s; exact ⟨rfl, rfl⟩
  | cons o offsets ih =>
      intro s
      obtain ⟨-, hcounter, hid, -⟩ := access_frame (s := s) (o := none)
        (i := (thiefIdx + o) % s.workers.length) (f := WorkStealingDeque.steal)
      rw [stealLoop]
      split
      · split
        · next s' task heq =>
            rw [heq] at hcounter hid
            exact ⟨hcounter, hid⟩
        · next s' heq =>
            rw [heq] at hcounter hid
            exact ⟨(ih s').1.trans hcounter, (ih s').2.trans hid⟩
      · exact ih s

/-- Only a submission moves the counters. -/
theorem call_frame (s : Scheduler T) {c : Call T} (hc : ∀ task, c ≠ .submit task) :
    (s.call c).1.submitCounter = s.submitCounter ∧ (s.call c).1.nextTaskId = s.nextTaskId := by
  cases c with
  | submit task => exact absurd rfl (hc task)
  | pop worker =>
      simp only [call, pop]
      split_ifs
      · exact ⟨rfl, rfl⟩
      · exact ⟨access_frame.2.1, access_frame.2.2.1⟩
  | steal thief =>
      simp only [call, steal]
      split_ifs
      · exact ⟨rfl, rfl⟩
      · exact stealLoop_frame _ _ s
  | stealBatch thief =>
      simp only [call, stealBatch]
      split_ifs
      · exact ⟨rfl, rfl⟩
      · split
        · exact ⟨access_frame.2.1, access_frame.2.2.1⟩
        · exact ⟨rfl, rfl⟩
  | addWorker => exact ⟨rfl, rfl⟩
  | deactivateWorker worker =>
      simp only [call, deactivateWorker]
      split <;> exact ⟨rfl, rfl⟩
  | stop => exact ⟨rfl, rfl⟩

end Scheduler

/-- The task id a reply gives out. -/
def Reply.acceptedId : Reply T → Option UInt64
  | .submitted _ id => id
  | _ => none

/-- The task ids given out in a history, in order. -/
def acceptedIds (tr : List (Call T × Reply T)) : List UInt64 :=
  tr.filterMap fun e => e.2.acceptedId

namespace Scheduler

variable {s : Scheduler T}

/-- **One call and the counters.** -/
theorem call_counters (h : s.WF) (c : Call T) :
    (s.call c).1.submitCounter = s.submitCounter + (if s.reachesSelection c then 1 else 0) ∧
    ((s.call c).2.acceptedId = none ∧ (s.call c).1.nextTaskId = s.nextTaskId ∨
      (s.call c).2.acceptedId = some s.nextTaskId ∧
        (s.call c).1.nextTaskId = s.nextTaskId + 1) := by
  by_cases hc : ∃ task, c = .submit task
  · obtain ⟨task, rfl⟩ := hc
    by_cases hacc : s.Accepting
    · obtain ⟨target, w, hfirst, hw⟩ := exists_firstFrom h hacc
      have hne : s.workers ≠ [] := List.ne_nil_of_mem (List.mem_of_getElem? hw)
      simp [call, submit_of_firstFrom h hacc.1 hfirst hw, reachesSelection, Reply.acceptedId,
        hacc.1, hne]
    · simp [call, submit_of_not_accepting h hacc, reachesSelection, Reply.acceptedId]
  · push Not at hc
    obtain ⟨hcounter, hid⟩ := s.call_frame hc
    rw [hcounter, hid]
    cases c with
    | submit task => exact absurd rfl (hc task)
    | pop worker => simp [call, reachesSelection, Reply.acceptedId]
    | steal thief => simp [call, reachesSelection, Reply.acceptedId]
    | stealBatch thief => simp [call, reachesSelection, Reply.acceptedId]
    | addWorker => simp [call, reachesSelection, Reply.acceptedId]
    | deactivateWorker worker => simp [call, reachesSelection, Reply.acceptedId]
    | stop => simp [call, reachesSelection, Reply.acceptedId]

end Scheduler

section Runs

variable (numWorkers queueCapacity : UInt64)

/-- The round-robin counter shows how many submissions have reached the search. -/
theorem submitCounter_run (calls : List (Call T)) :
    ((schedulerMachine T numWorkers queueCapacity).run calls).submitCounter = UInt64.ofNat
      ((schedulerMachine T numWorkers queueCapacity).count Scheduler.reachesSelection calls) := by
  induction calls using List.reverseRecOn with
  | nil => rfl
  | append_singleton calls c ih =>
      have hwf := sequential_wf numWorkers queueCapacity calls
      rw [Machine.run_snoc, Machine.count_snoc]
      refine (Scheduler.call_counters hwf c).1.trans ?_
      rw [ih, UInt64.ofNat_add]
      split_ifs <;> rfl

/-- The ids given out are 0, 1, 2, … in the order of acceptance, and the next one is next. -/
theorem acceptedIds_run (calls : List (Call T)) :
    let ids := acceptedIds ((schedulerMachine T numWorkers queueCapacity).trace calls)
    ids = (List.range ids.length).map UInt64.ofNat ∧
      ((schedulerMachine T numWorkers queueCapacity).run calls).nextTaskId
        = UInt64.ofNat ids.length := by
  induction calls using List.reverseRecOn with
  | nil => exact ⟨rfl, rfl⟩
  | append_singleton calls c ih =>
      obtain ⟨hids, hnext⟩ := ih
      have hwf := sequential_wf numWorkers queueCapacity calls
      rw [Machine.run_snoc, Machine.trace_snoc]
      simp only [acceptedIds, List.filterMap_append] at hids hnext ⊢
      -- the reply carries no id, or the next one
      rcases (Scheduler.call_counters hwf c).2 with ⟨hnone, hsame⟩ | ⟨hsome, hstep⟩
      · rw [List.filterMap_cons_none (by exact hnone), List.filterMap_nil, List.append_nil]
        exact ⟨hids, hsame.trans hnext⟩
      · rw [List.filterMap_cons_some (by exact hsome), List.filterMap_nil, List.length_append,
          List.length_singleton, List.range_succ, List.map_append, ← hids, hnext]
        refine ⟨rfl, hstep.trans ?_⟩
        rw [hnext, UInt64.ofNat_add]
        rfl

/-- Fewer than 2^64 + 1 ids are distinct. -/
theorem nodup_map_ofNat_range {k : Nat} (h : k ≤ 2 ^ 64) :
    ((List.range k).map UInt64.ofNat).Nodup := by
  refine List.Nodup.map_on ?_ List.nodup_range
  intro i hi j hj heq
  rw [List.mem_range] at hi hj
  have hnat := congrArg UInt64.toNat heq
  rwa [UInt64.toNat_ofNat_of_lt' (show i < 2 ^ 64 by omega),
    UInt64.toNat_ofNat_of_lt' (show j < 2 ^ 64 by omega)] at hnat

/-- **What a submission does, in every state a run reaches.** It is accepted exactly when the
scheduler runs and a worker is eligible. Then its task goes to the back of one deque, that of the
first eligible worker in cyclic order from a start that the number of earlier submissions
determines, and it gets the next id; otherwise no deque and no id is touched. The ids of a run
are 0, 1, 2, … in the order of acceptance. -/
theorem submit_exact (calls : List (Call T)) (task : T) :
    let M := schedulerMachine T numWorkers queueCapacity
    let s := M.run calls
    let earlier := M.count Scheduler.reachesSelection calls
    let ids := acceptedIds (M.trace calls)
    ((s.submit task).2.isSome = true ↔ s.running = true ∧ ∃ idx, s.Eligible idx) ∧
    (∀ id, (s.submit task).2 = some id →
      id = UInt64.ofNat ids.length ∧
      ∃ target w w', s.FirstFrom (earlier % 2 ^ 64 % s.workers.length) target ∧
        s.workers[target]? = some w ∧ (s.submit task).1.workers = s.workers.set target w' ∧
        w'.active = w.active ∧ w'.deque.deque = w.deque.deque ++ [task]) ∧
    ((s.submit task).2 = none →
      (s.submit task).1.workers = s.workers ∧ (s.submit task).1.nextTaskId = s.nextTaskId) ∧
    ids = (List.range ids.length).map UInt64.ofNat ∧ (ids.length ≤ 2 ^ 64 → ids.Nodup) := by
  intro M s earlier ids
  have hwf : s.WF := sequential_wf numWorkers queueCapacity calls
  obtain ⟨hids, hnext⟩ : ids = _ ∧ s.nextTaskId = _ :=
    acceptedIds_run numWorkers queueCapacity calls
  have hcounter : s.submitCounter.toNat = earlier % 2 ^ 64 := by
    rw [submitCounter_run, UInt64.toNat_ofNat']
  refine ⟨Scheduler.isSome_submit_iff hwf task, ?_, ?_, hids, ?_⟩
  · intro id hid
    have hacc : s.Accepting := by
      rw [← Scheduler.isSome_submit_iff hwf task, hid]
      rfl
    obtain ⟨target, w, hfirst, hw⟩ := Scheduler.exists_firstFrom hwf hacc
    rw [Scheduler.submit_of_firstFrom hwf hacc.1 hfirst hw] at hid ⊢
    rw [hcounter] at hfirst
    exact ⟨(Option.some_inj.mp hid).symm.trans hnext,
      target, w, _, hfirst, hw, rfl, rfl, rfl⟩
  · intro hnone
    have hnot : ¬ s.Accepting := by
      rw [← Scheduler.isSome_submit_iff hwf task, hnone]
      simp
    rw [Scheduler.submit_of_not_accepting hwf hnot]
    exact ⟨rfl, rfl⟩
  · intro hle
    have hnodup := nodup_map_ofNat_range hle
    rwa [← hids] at hnodup

end Runs

/-! ## The wrap of the counter -/

/-- Three workers with one task each, no room left, and the counter at `x`. -/
def fullScheduler (x : UInt64) : Scheduler Nat where
  workers := List.replicate 3 ⟨⟨[0], 1, 1⟩, true⟩
  numWorkers := 3
  nextTaskId := 3
  queueCapacity := 1
  submitCounter := x
  running := true

theorem submit_fullScheduler (x : UInt64) :
    (fullScheduler x).submit 0 = (fullScheduler (x + 1), none) := by
  have hwf : (fullScheduler x).WF := by
    intro w hw
    rw [List.eq_of_mem_replicate hw]
    exact ⟨rfl, le_rfl⟩
  have hnot : ¬ (fullScheduler x).Accepting := by
    rintro ⟨-, idx, w, hw, -, hroom⟩
    rw [List.eq_of_mem_replicate (List.mem_of_getElem? hw)] at hroom
    exact absurd hroom (by decide)
  rw [Scheduler.submit_of_not_accepting hwf hnot]
  rfl

/-- A full scheduler refuses any number of submissions, and counts them. -/
theorem run_refusals (k : Nat) :
    (schedulerMachine Nat 3 1).run (List.replicate (3 + k) (.submit 0))
        = fullScheduler (UInt64.ofNat (3 + k)) ∧
      (schedulerMachine Nat 3 1).count Scheduler.reachesSelection
        (List.replicate (3 + k) (.submit 0)) = 3 + k := by
  induction k with
  | zero => exact ⟨by decide, by decide⟩
  | succ k ih =>
      obtain ⟨hrun, hcount⟩ := ih
      rw [← Nat.add_assoc, List.replicate_succ', Machine.run_snoc, Machine.count_snoc, hrun,
        hcount]
      refine ⟨?_, rfl⟩
      show ((fullScheduler _).submit 0).1 = _
      rw [submit_fullScheduler, UInt64.ofNat_add (3 + k)]
      rfl

/-- With 2^64 submissions behind it, and three workers, the next search starts at worker 0, as
the first one did, although 2^64 leaves the remainder 1. -/
theorem counter_wraps :
    let M := schedulerMachine Nat 3 1
    let calls := List.replicate (3 + (2 ^ 64 - 3)) (Call.submit 0) ++ [.pop 0, .pop 1, .pop 2]
    let s := M.run calls
    let earlier := M.count Scheduler.reachesSelection calls
    earlier = 2 ^ 64 ∧ (s.submit 7).2 = some 3 ∧
    (s.submit 7).1.workers.map (fun w => w.deque.deque) = [[7], [], []] ∧
    ¬ s.FirstFrom (earlier % s.workers.length) 0 := by
  intro M calls s earlier
  obtain ⟨hrun, hcount⟩ := run_refusals (2 ^ 64 - 3)
  have hcounter : UInt64.ofNat (3 + (2 ^ 64 - 3)) = 0 := by decide
  have hs : s = M.runFrom (fullScheduler 0) [.pop 0, .pop 1, .pop 2] := by
    show M.run (List.replicate (3 + (2 ^ 64 - 3)) (Call.submit 0) ++ _) = _
    rw [Machine.run_append, hrun, hcounter]
  have hearlier : earlier = 2 ^ 64 := by
    show M.count Scheduler.reachesSelection
      (List.replicate (3 + (2 ^ 64 - 3)) (Call.submit 0) ++ _) = _
    rw [Machine.count_append, hrun, hcount, hcounter]
    decide
  rw [hearlier]
  clear_value s earlier
  subst hs
  refine ⟨rfl, by decide, by decide, ?_⟩
  -- worker 1 is eligible and comes first
  have hlen : (M.runFrom (fullScheduler 0) [.pop 0, .pop 1, .pop 2]).workers.length = 3 := by
    decide
  have hone : (M.runFrom (fullScheduler 0) [.pop 0, .pop 1, .pop 2]).Eligible 1 :=
    ⟨⟨⟨[], 0, 1⟩, true⟩, by decide, rfl, by decide⟩
  rintro ⟨i, hi, hcyc, -, hfirst⟩
  rw [hlen] at hi hcyc hfirst
  exact hfirst 0 (by omega) hone

end Pepita.Sched
