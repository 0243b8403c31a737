import Pepita.Scheduler.Lock

set_option autoImplicit false

/-! # Atomic operations in a row

A call whose atomic operations are not interrupted does what the sequential function does
(`uninterrupted_call`): the searches of `submit` and `steal_batch`, which read one flag and one
counter after the other, see one state of the scheduler then.
-/

namespace Pepita.Sched

variable {T : Type}

/-- The steps under the lock, as calls of their own. -/
def lockedCode (T : Type) : Code Unit (Scheduler T) (Locked T) (Locked T) (Reply T) where
  entry p := p
  exec _ s p := s.lockedStep p

namespace Scheduler

variable {s : Scheduler T}

/-! ## Submit -/

/-- What `submit` does with the worker that it has found. -/
def place (s : Scheduler T) (task : T) : Option Nat → Scheduler T × Reply T
  | none => (s, .submitted task none)
  | some target => ((s.pushTo target task).1, .submitted task (s.pushTo target task).2)

theorem push_ends (s : Scheduler T) (task : T) (target : Nat) :
    (lockedCode T).Ends () (s, .pushing task target) (s.place task (some target)) := by
  rw [place, pushTo]
  cases hpush : s.access target (fun q => q.push task) (.error .ublkQueueFull) with
  | mk s' result =>
      cases result with
      | ok u =>
          refine .goto s' (.numbering task) ?_ (.ret rfl)
          show s.lockedStep (.pushing task target) = _
          rw [lockedStep, hpush]
      | error e =>
          refine .ret ?_
          show s.lockedStep (.pushing task target) = _
          rw [lockedStep, hpush]

/-- The search from the worker `i` places from the start on. The induction is on the workers that
are left. -/
theorem scan_ends (s : Scheduler T) (task : T) (start k : Nat) :
    ∀ i, i + k = s.workers.length →
    (lockedCode T).Ends () (s, .scanning task start i)
      (s.place task (((List.range' i k).map fun i => (start + i) % s.workers.length).find?
        fun idx => s.workers[idx]?.any WorkerState.hasSpace)) := by
  induction k with
  | zero =>
      intro i hi
      refine .ret ?_
      show s.lockedStep (.scanning task start i) = _
      rw [lockedStep, if_neg (by omega)]
  | succ k ih =>
      intro i hi
      have hrest := ih (i + 1) (by omega)
      have hlt : i < s.workers.length := by omega
      obtain ⟨w, hw⟩ : ∃ w, s.workers[(start + i) % s.workers.length]? = some w :=
        ⟨_, List.getElem?_eq_getElem (Nat.mod_lt _ (by omega))⟩
      rw [List.range'_succ, List.map_cons, List.find?_cons]
      cases hact : w.active with
      | false =>
          have hspace : s.workers[(start + i) % s.workers.length]?.any WorkerState.hasSpace
              = false := by
            simp [hw, WorkerState.hasSpace, hact]
          rw [hspace]
          refine .goto s (.scanning task start (i + 1)) ?_ hrest
          show s.lockedStep (.scanning task start i) = _
          simp [lockedStep, hlt, isActive, hw, hact]
      | true =>
          refine .goto s (.sizing task start i) ?_ ?_
          · show s.lockedStep (.scanning task start i) = _
            simp [lockedStep, hlt, isActive, hw, hact]
          by_cases hroom : w.deque.len < w.deque.capacity
          · have hspace : s.workers[(start + i) % s.workers.length]?.any WorkerState.hasSpace
                = true := by
              simp [hw, WorkerState.hasSpace, hact, hroom]
            rw [hspace]
            refine .goto s (.pushing task ((start + i) % s.workers.length)) ?_
              (push_ends s task _)
            show s.lockedStep (.sizing task start i) = _
            simp [lockedStep, hw, hroom]
          · have hspace : s.workers[(start + i) % s.workers.length]?.any WorkerState.hasSpace
                = false := by
              simp [hw, WorkerState.hasSpace, hact, hroom]
            rw [hspace]
            refine .goto s (.scanning task start (i + 1)) ?_ hrest
            show s.lockedStep (.sizing task start i) = _
            simp [lockedStep, hw, hroom]

theorem submit_ends (hrun : s.running = true) (task : T) :
    (lockedCode T).Ends () (s, .drawing task) (s.call (.submit task)) := by
  by_cases hempty : s.workers.isEmpty = true
  · refine .ret ?_
    show s.lockedStep (.drawing task) = _
    simp [lockedStep, submit, select, hrun, hempty]
  · have hcall : s.call (.submit task)
        = place { s with submitCounter := s.submitCounter + 1 } task s.select.2 := by
      rw [call, submit, select, if_neg (by simp [hrun]), if_neg hempty]
      dsimp only
      cases List.find? _ _ <;> rfl
    refine .goto { s with submitCounter := s.submitCounter + 1 }
      (.scanning task (s.submitCounter.toNat % s.workers.length) 0) ?_ ?_
    · show s.lockedStep (.drawing task) = _
      rw [lockedStep, if_neg hempty]
    · have hscan := scan_ends { s with submitCounter := s.submitCounter + 1 } task
        (s.submitCounter.toNat % s.workers.length) s.workers.length 0 (Nat.zero_add _)
      rw [hcall, select, if_neg (by simp [hrun]), if_neg hempty, List.range_eq_range']
      exact hscan

/-! ## Steal and steal_batch -/

/-- The loop of `steal`, from any offset on. -/
theorem steal_loop_ends (thiefIdx k : Nat) :
    ∀ (s : Scheduler T) (offset : Nat), offset + k = s.workers.length →
    (lockedCode T).Ends () (s, .probing thiefIdx offset)
      ((stealLoop thiefIdx s (List.range' offset k)).1,
        .stolen (stealLoop thiefIdx s (List.range' offset k)).2) := by
  induction k with
  | zero =>
      intro s offset hk
      refine .ret ?_
      show s.lockedStep (.probing thiefIdx offset) = _
      rw [lockedStep, if_neg (by omega), List.range'_zero, stealLoop]
  | succ k ih =>
      intro s offset hk
      have hlt : offset < s.workers.length := by omega
      rw [List.range'_succ, stealLoop]
      by_cases hact : s.isActive ((thiefIdx + offset) % s.workers.length) = true
      · rw [if_pos hact]
        refine .goto s (.taking thiefIdx offset) ?_ ?_
        · show s.lockedStep (.probing thiefIdx offset) = _
          rw [lockedStep, if_pos hlt, if_pos hact]
        have hframe := access_frame (s := s) (i := (thiefIdx + offset) % s.workers.length)
          (f := WorkStealingDeque.steal) (o := none)
        cases hacc : s.access ((thiefIdx + offset) % s.workers.length) WorkStealingDeque.steal
            none with
        | mk s' result =>
            rw [hacc] at hframe
            cases result with
            | some task =>
                refine .ret ?_
                show s.lockedStep (.taking thiefIdx offset) = _
                rw [lockedStep, hacc]
            | none =>
                refine .goto s' (.probing thiefIdx (offset + 1)) ?_
                  (ih s' (offset + 1) (by rw [hframe.1]; omega))
                show s.lockedStep (.taking thiefIdx offset) = _
                rw [lockedStep, hacc]
      · rw [if_neg hact]
        refine .goto s (.probing thiefIdx (offset + 1)) ?_ (ih s (offset + 1) (by omega))
        show s.lockedStep (.probing thiefIdx offset) = _
        rw [lockedStep, if_pos hlt, if_neg hact]

theorem steal_ends (s : Scheduler T) (thief : UInt32) :
    (lockedCode T).Ends () (s, .stealing thief) (s.call (.steal thief)) := by
  rw [call, steal]
  split_ifs with hn
  · refine .ret ?_
    show s.lockedStep (.stealing thief) = _
    rw [lockedStep, if_pos hn]
  · refine .goto s (.probing thief.toNat 1) ?_ (steal_loop_ends thief.toNat _ s 1 (by omega))
    show s.lockedStep (.stealing thief) = _
    rw [lockedStep, if_neg hn]

/-- One worker in the search of `steal_batch`. -/
theorem look_leads (s : Scheduler T) (thiefIdx : Nat) {idx : Nat} (acc : Option Nat × UInt64)
    {w : WorkerState T} (hw : s.workers[idx]? = some w) :
    (lockedCode T).Leads () (s, .looking thiefIdx idx acc)
      (s, .looking thiefIdx (idx + 1) (scanWorker thiefIdx acc idx w)) := by
  have hlt := (List.getElem?_eq_some_iff.mp hw).1
  have hflag : s.isActive idx = w.active := by simp [isActive, hw]
  unfold scanWorker
  by_cases hlook : idx ≠ thiefIdx ∧ w.active = true
  · have hstep : (lockedCode T).exec () s (.looking thiefIdx idx acc)
        = (s, .goto (.measuring thiefIdx idx acc)) := by
      show s.lockedStep (.looking thiefIdx idx acc) = _
      rw [lockedStep, if_pos hlt, hflag, if_pos hlook]
    refine (Code.leads_step hstep).trans (Code.leads_step ?_)
    show s.lockedStep (.measuring thiefIdx idx acc) = _
    rw [lockedStep, if_pos hlook]
    simp only [hw]
    split_ifs <;> rfl
  · refine Code.leads_step ?_
    show s.lockedStep (.looking thiefIdx idx acc) = _
    rw [lockedStep, if_pos hlt, hflag, if_neg hlook, if_neg hlook]

/-- The search from worker `idx` on. The induction is on the workers that are left. -/
theorem look_loop_leads (s : Scheduler T) (thiefIdx k : Nat) :
    ∀ (idx : Nat) (acc : Option Nat × UInt64), idx + k = s.workers.length →
    (lockedCode T).Leads () (s, .looking thiefIdx idx acc)
      (s, .looking thiefIdx s.workers.length ((s.workers.zipIdx.drop idx).foldl
        (fun acc p => scanWorker thiefIdx acc p.2 p.1) acc)) := by
  induction k with
  | zero =>
      intro idx acc hk
      rw [List.drop_of_length_le (by rw [List.length_zipIdx]; omega), List.foldl_nil, ← hk]
      exact .refl
  | succ k ih =>
      intro idx acc hk
      have hlt : idx < s.workers.length := by omega
      rw [List.drop_eq_getElem_cons (by rw [List.length_zipIdx]; exact hlt), List.foldl_cons,
        List.getElem_zipIdx, Nat.zero_add]
      exact (look_leads s thiefIdx acc (List.getElem?_eq_getElem hlt)).trans
        (ih (idx + 1) _ (by omega))

theorem stealBatch_ends (s : Scheduler T) (thief : UInt32) :
    (lockedCode T).Ends () (s, .batching thief) (s.call (.stealBatch thief)) := by
  rw [call, stealBatch]
  split_ifs with hn
  · refine .ret ?_
    show s.lockedStep (.batching thief) = _
    rw [lockedStep, if_pos hn]
  · refine .goto s (.looking thief.toNat 0 (none, 0)) ?_ ?_
    · show s.lockedStep (.batching thief) = _
      rw [lockedStep, if_neg hn]
    refine (look_loop_leads s thief.toNat _ 0 _ (Nat.zero_add _)).ends ?_
    rw [List.drop_zero]
    generalize s.workers.zipIdx.foldl _ _ = found
    obtain ⟨victim, len⟩ := found
    cases victim with
    | none =>
        refine .ret ?_
        show s.lockedStep (.looking thief.toNat s.workers.length (none, len)) = _
        rw [lockedStep, if_neg (Nat.lt_irrefl _)]
    | some victimIdx =>
        refine .goto s (.halving victimIdx) ?_ (.ret rfl)
        show s.lockedStep (.looking thief.toNat s.workers.length (some victimIdx, len)) = _
        rw [lockedStep, if_neg (Nat.lt_irrefl _)]

end Scheduler

/-! ## Whole calls -/

/-- A call that has the read lock goes on like the steps under the lock and then releases it. -/
theorem SharedScheduler.locked_ends {sched sched' : Scheduler T} {p : Locked T} {reply : Reply T}
    (h : (lockedCode T).Ends () (sched, p) (sched', reply)) (lock : RwLock) :
    (schedulerCode T).Ends () (⟨sched, lock⟩, .locked p) (⟨sched', lock.unlockRead⟩, reply) := by
  obtain ⟨fuel, hfuel⟩ := h
  induction fuel generalizing sched p with
  | zero => cases hfuel
  | succ fuel ih =>
      rw [Code.alone] at hfuel
      split at hfuel
      · next s₁ r₁ hexec =>
          cases hfuel
          refine .goto ⟨sched', lock⟩ (.unlocking reply) ?_ (.ret rfl)
          show SharedScheduler.exec _ (.locked p) = _
          rw [exec, show sched.lockedStep p = _ from hexec]
      · next s₁ p₁ hexec =>
          refine .goto ⟨s₁, lock⟩ (.locked p₁) ?_ (ih hfuel)
          show SharedScheduler.exec _ (.locked p) = _
          rw [exec, show sched.lockedStep p = _ from hexec]

/-- A call that finds the lock free. -/
theorem SharedScheduler.locking_ends {sched sched' : Scheduler T} {p : Locked T} {reply : Reply T}
    (h : (lockedCode T).Ends () (sched, p) (sched', reply)) :
    (schedulerCode T).Ends () (⟨sched, .free⟩, .locking p) (⟨sched', .free⟩, reply) :=
  .goto ⟨sched, RwLock.free.lockRead⟩ (.locked p) rfl (locked_ends h RwLock.free.lockRead)

/-- **The calls, on a scheduler whose lock is free.** -/
theorem SharedScheduler.call_ends (s : Scheduler T) (call : Call T) :
    (schedulerCode T).Ends () (⟨s, .free⟩, (schedulerCode T).entry call)
      (⟨(s.call call).1, .free⟩, (s.call call).2) := by
  cases call with
  | submit task =>
      by_cases hrun : s.running = true
      · refine .goto ⟨s, .free⟩ (.locking (.drawing task)) ?_
          (locking_ends (Scheduler.submit_ends hrun task))
        show SharedScheduler.exec _ (.checking task) = _
        rw [exec, if_neg (by simp [hrun])]
      · rw [Bool.not_eq_true] at hrun
        refine .ret ?_
        show SharedScheduler.exec _ (.checking task) = _
        rw [exec, if_pos (by simp [hrun])]
        simp [Scheduler.call, Scheduler.submit, Scheduler.select, hrun]
  | pop worker => exact locking_ends (.ret rfl)
  | steal thief => exact locking_ends (Scheduler.steal_ends s thief)
  | stealBatch thief => exact locking_ends (Scheduler.stealBatch_ends s thief)
  | addWorker =>
      exact .goto _ _ rfl (.goto _ _ rfl (.goto _ _ rfl (.ret rfl)))
  | deactivateWorker worker => exact locking_ends (.ret rfl)
  | stop => exact .ret rfl

/-- **A call that is not interrupted is the sequential call.** From every state that is reached in
which no client holds the lock, a client in no call that takes all the atomic operations of a call
in a row leaves the scheduler as the sequential function does, and gets the same reply. -/
theorem uninterrupted_call (numWorkers queueCapacity : UInt64) (clients : Nat)
    (is : List (Unit × Move (Call T))) (c : Nat) (call : Call T) :
    let M := sharedSchedulerMachine T numWorkers queueCapacity clients
    let s := M.run is
    let r := s.shared.sched.call call
    s.clients[c]? = some none → (∀ p, some p ∈ s.clients → p.hold = .nothing) →
      ∃ k, M.run (is ++ ((), .invoke c call) :: List.replicate k ((), .advance c))
          = ⟨{ s.shared with sched := r.1 }, s.clients⟩ ∧
        Code.replies (M.traceFrom s (((), .invoke c call) :: List.replicate k ((), .advance c)))
          = [r.2] := by
  intro M s r hidle hfree
  have hsound : Sound s := sound_run numWorkers queueCapacity clients is
  have hlock : s.shared.lock = .free := by
    refine hsound.lock.eq_free fun p hp => hfree p hp
  have hshared : s.shared = ⟨s.shared.sched, .free⟩ := by
    rw [← hlock]
  have hends := SharedScheduler.call_ends s.shared.sched call
  rw [← hshared] at hends
  obtain ⟨k, hrun, htrace⟩ := Code.run_alone_replies
    ⟨.withCapacity numWorkers queueCapacity, .free⟩ clients hidle hends
  refine ⟨k, ?_, htrace⟩
  rw [M.run_append]
  refine hrun.trans ?_
  rw [hshared]

/-- Another `submit` has found the scheduler running and waits for its turn. -/
theorem uninterrupted_call_submit :
    let M := sharedSchedulerMachine Nat 1 1 2
    let is : List (Unit × Move (Call Nat)) := [((), .invoke 1 (.submit 5))]
    (M.run is).clients = [none, some (.locking (.drawing 5))] ∧
    ∃ k, Code.replies (M.traceFrom (M.run is)
      (((), .invoke 0 (.submit 7)) :: List.replicate k ((), .advance 0)))
        = [.submitted 7 (some 0)] := by
  intro M is
  have hclients : (M.run is).clients = [none, some (.locking (.drawing 5))] := by decide +kernel
  have hreply : ((M.run is).shared.sched.call (.submit 7)).2 = .submitted 7 (some 0) := by
    decide +kernel
  have hcall : ∀ is : List (Unit × Move (Call Nat)),
      (M.run is).clients = [none, some (.locking (.drawing 5))] →
      ∃ k, Code.replies (M.traceFrom (M.run is)
        (((), .invoke 0 (.submit 7)) :: List.replicate k ((), .advance 0)))
          = [((M.run is).shared.sched.call (.submit 7)).2] := by
    intro is hclients
    obtain ⟨k, -, hk⟩ := uninterrupted_call 1 1 2 is 0 (.submit 7) (by rw [hclients]; rfl) (by
      intro p hp
      rw [hclients] at hp
      rcases List.mem_pair.mp hp with hp | hp <;> cases hp
      rfl)
    exact ⟨k, hk⟩
  obtain ⟨k, hk⟩ := hcall is hclients
  exact ⟨hclients, k, hk.trans (congrArg (fun reply => [reply]) hreply)⟩

end Pepita.Sched
