import Pepita.Scheduler.Model

set_option autoImplicit false

/-! # What stealing reaches

`steal` looks at every other worker in cyclic order but skips the inactive ones, although
`deactivate_worker` promises that the tasks of a deactivated worker can still be stolen.
`steal_eq_none_iff` says exactly when a thief comes back empty-handed, and `steal_finds_work`
when that means that there was nothing to take.
-/

namespace Pepita.Sched

variable {T : Type}

namespace Scheduler

variable {s : Scheduler T}

/-! ## The cyclic scan -/

/-- The offsets `1, …, n - 1` reach exactly the workers other than the thief. -/
theorem exists_offset_iff {n thief j : Nat} (ht : thief < n) :
    (∃ o ∈ List.range' 1 (n - 1), (thief + o) % n = j) ↔ j < n ∧ j ≠ thief := by
  simp only [List.mem_range'_1]
  constructor
  · rintro ⟨o, ⟨hlo, hhi⟩, rfl⟩
    refine ⟨Nat.mod_lt _ (by omega), ?_⟩
    rcases Nat.lt_or_ge (thief + o) n with hlt | hge
    · rw [Nat.mod_eq_of_lt hlt]; omega
    · rw [Nat.mod_eq_sub_mod hge, Nat.mod_eq_of_lt (by omega)]; omega
  · rintro ⟨hj, hne⟩
    rcases Nat.lt_or_ge thief j with hlt | hge
    · exact ⟨j - thief, by omega, by rw [Nat.mod_eq_of_lt (by omega)]; omega⟩
    · refine ⟨n - thief + j, by omega, ?_⟩
      rw [show thief + (n - thief + j) = j + n by omega, Nat.add_mod_right, Nat.mod_eq_of_lt hj]

/-- The loop returns nothing exactly when every active victim on its list is empty. -/
theorem stealLoop_eq_none_iff (thiefIdx : Nat) (offsets : List Nat) :
    (stealLoop thiefIdx s offsets).2 = none ↔
      ∀ o ∈ offsets, ∀ w, s.workers[(thiefIdx + o) % s.workers.length]? = some w →
        w.active = true → w.deque.deque = [] := by
  induction offsets with
  | nil => simp [stealLoop]
  | cons o offsets ih =>
      rw [List.forall_mem_cons, ← ih, stealLoop]
      cases hw : s.workers[(thiefIdx + o) % s.workers.length]? with
      | none => simp [isActive, hw]
      | some w =>
          cases hact : w.active with
          -- an inactive victim is skipped, whatever it holds
          | false => simp [isActive, hw, hact]
          | true =>
              have hon : s.isActive ((thiefIdx + o) % s.workers.length) = true := by
                simp [isActive, hw, hact]
              simp only [hon, if_true]
              cases hd : w.deque.deque with
              | nil =>
                  rw [access_of_eq hw (WorkStealingDeque.steal_nil hd)]
                  simp [hact, hd]
              | cons task rest =>
                  rw [access_of_getElem? hw]
                  simp [WorkStealingDeque.steal, hd, hact]

/-- **When a thief comes back empty-handed**: exactly when every other active worker is empty. -/
theorem steal_eq_none_iff {thief : UInt32} (h2 : 2 ≤ s.workers.length)
    (ht : thief.toNat < s.workers.length) :
    (s.steal thief).2 = none ↔
      ∀ j w, j ≠ thief.toNat → s.workers[j]? = some w → w.active = true →
        w.deque.deque = [] := by
  unfold steal
  rw [if_neg (by omega), stealLoop_eq_none_iff]
  constructor
  · intro h j w hne hw
    have hj : j < s.workers.length := (List.getElem?_eq_some_iff.mp hw).1
    obtain ⟨o, ho, rfl⟩ := (exists_offset_iff ht).mpr ⟨hj, hne⟩
    exact h o ho w hw
  · intro h o ho w hw
    exact h _ w ((exists_offset_iff ht).mp ⟨o, ho, rfl⟩).2 hw

/-! ## Stranded tasks -/

/-- `steal(thief)` returns `None` only if the deques of all other workers, active or not, are
empty. -/
def StealFindsWork (s : Scheduler T) (thief : UInt32) : Prop :=
  (s.steal thief).2 = none →
    ∀ j w, j ≠ thief.toNat → s.workers[j]? = some w → w.deque.deque = []

/-- Some other active worker has a task, or no other inactive worker has one. -/
def WorkInReach (s : Scheduler T) (thief : UInt32) : Prop :=
  (∃ j w, j ≠ thief.toNat ∧ s.workers[j]? = some w ∧ w.active = true ∧ w.deque.deque ≠ []) ∨
  (∀ j w, j ≠ thief.toNat → s.workers[j]? = some w → w.active = false → w.deque.deque = [])

theorem stealFindsWork_iff {thief : UInt32} (h2 : 2 ≤ s.workers.length)
    (ht : thief.toNat < s.workers.length) : s.StealFindsWork thief ↔ s.WorkInReach thief := by
  unfold StealFindsWork WorkInReach
  rw [steal_eq_none_iff h2 ht]
  constructor
  · intro h
    by_cases hact : ∀ j w, j ≠ thief.toNat → s.workers[j]? = some w → w.active = true →
        w.deque.deque = []
    · exact Or.inr fun j w hne hw _ => h hact j w hne hw
    · push Not at hact
      exact Or.inl hact
  · rintro (⟨j, w, hne, hw, hact, hd⟩ | hinact) hempty j' w' hne' hw'
    · exact absurd (hempty j w hne hw hact) hd
    · cases hact : w'.active with
      | true => exact hempty j' w' hne' hw' hact
      | false => exact hinact j' w' hne' hw' hact

/-- Inactive workers hold no tasks. -/
def InactiveEmpty (s : Scheduler T) : Prop :=
  ∀ w ∈ s.workers, w.active = false → w.deque.deque = []

theorem InactiveEmpty.workInReach (h : s.InactiveEmpty) (thief : UInt32) :
    s.WorkInReach thief :=
  Or.inr fun _ w _ hw hact => h w (List.mem_of_getElem? hw) hact

theorem InactiveEmpty.access (h : s.InactiveEmpty) {α : Type} {i : Nat} {o : α}
    {f : WorkStealingDeque T → WorkStealingDeque T × α}
    (hf : ∀ w, s.workers[i]? = some w → w.active = false → (f w.deque).1.deque = []) :
    (s.access i f o).1.InactiveEmpty := by
  cases hw : s.workers[i]? with
  | none => rw [access_of_none hw]; exact h
  | some w =>
      rw [access_of_getElem? hw]
      intro w' hw' hact
      rcases List.mem_or_eq_of_mem_set hw' with hmem | rfl
      · exact h w' hmem hact
      · exact hf w hw hact

/-- An operation that leaves an empty deque empty cannot give a task to an inactive worker. -/
theorem InactiveEmpty.access_of_nil (h : s.InactiveEmpty) {α : Type} {i : Nat} {o : α}
    {f : WorkStealingDeque T → WorkStealingDeque T × α}
    (hf : ∀ q : WorkStealingDeque T, q.deque = [] → (f q).1.deque = []) :
    (s.access i f o).1.InactiveEmpty :=
  h.access fun w hw hact => hf _ (h w (List.mem_of_getElem? hw) hact)

theorem InactiveEmpty.stealLoop (thiefIdx : Nat) (offsets : List Nat) :
    ∀ s : Scheduler T, s.InactiveEmpty → (stealLoop thiefIdx s offsets).1.InactiveEmpty := by
  induction offsets with
  | nil => intro s h; exact h
  | cons o offsets ih =>
      intro s h
      have hacc := h.access_of_nil (i := (thiefIdx + o) % s.workers.length) (o := none)
        (f := WorkStealingDeque.steal) fun q hq => by rw [WorkStealingDeque.steal_nil hq]; exact hq
      rw [Scheduler.stealLoop]
      split
      · split
        · next s' task heq => rw [heq] at hacc; exact hacc
        · next s' heq => rw [heq] at hacc; exact ih s' hacc
      · exact ih s h

theorem InactiveEmpty.submit (h : s.InactiveEmpty) (task : T) :
    (s.submit task).1.InactiveEmpty := by
  have hworkers := select_workers s
  have hsel : s.select.1.InactiveEmpty := by
    unfold InactiveEmpty; rw [hworkers]; exact h
  unfold Scheduler.submit
  split
  · next s' heq => rw [heq] at hsel; exact hsel
  · next s' target heq =>
      -- the search only chooses active workers, so no inactive one gets the task
      obtain ⟨-, w, hw, hspace⟩ := select_some (s := s) (t := target) (by rw [heq])
      rw [heq] at hsel hworkers
      have hact : w.active = true := by
        unfold WorkerState.hasSpace at hspace
        exact (Bool.and_eq_true_iff.mp hspace).1
      have hacc : (s'.access target (fun q => q.push task)
          (.error .ublkQueueFull)).1.InactiveEmpty := by
        refine hsel.access fun w' hw' hinact => ?_
        rw [hworkers, hw] at hw'
        rw [← Option.some_inj.mp hw', hact] at hinact
        cases hinact
      unfold Scheduler.pushTo
      split
      · next s'' heq' => rw [heq'] at hacc; exact hacc
      · next s'' e heq' => rw [heq'] at hacc; exact hacc

/-- A call deactivates at most a worker whose deque is empty. -/
def DeactivatesEmpty (s : Scheduler T) : Call T → Prop
  | .deactivateWorker worker => ∀ w, s.workers[worker.toNat]? = some w → w.deque.deque = []
  | _ => True

/-- **One call keeps inactive workers empty**, if it deactivates only an empty one. -/
theorem InactiveEmpty.call (h : s.InactiveEmpty) (c : Call T) (hc : s.DeactivatesEmpty c) :
    (s.call c).1.InactiveEmpty := by
  cases c with
  | submit task => exact h.submit task
  | pop worker =>
      simp only [Scheduler.call, Scheduler.pop]
      split_ifs
      · exact h
      · exact h.access_of_nil fun q hq => by rw [WorkStealingDeque.pop_nil hq]; exact hq
  | steal thief =>
      simp only [Scheduler.call, Scheduler.steal]
      split_ifs
      · exact h
      · exact InactiveEmpty.stealLoop _ _ s h
  | stealBatch thief =>
      simp only [Scheduler.call, Scheduler.stealBatch]
      split_ifs
      · exact h
      · split
        · exact h.access_of_nil fun q hq => by simp [WorkStealingDeque.stealHalf, hq]
        · exact h
  | addWorker =>
      intro w hw hact
      rcases List.mem_append.mp hw with hw | hw
      · exact h w hw hact
      · rw [List.mem_singleton.mp hw]; rfl
  | deactivateWorker worker =>
      simp only [Scheduler.call, Scheduler.deactivateWorker]
      split
      · exact h
      · next w hw =>
          intro w' hw' hact
          rcases List.mem_or_eq_of_mem_set hw' with hmem | rfl
          · exact h w' hmem hact
          · exact hc w hw
  | stop => exact h

end Scheduler

/-- **When a failed steal means that there is no work.** In every reachable state and for every
valid thief: exactly when another active worker has a task or no other inactive worker has one.
Throughout every run that deactivates only workers with an empty deque this is always so. -/
theorem steal_finds_work (numWorkers queueCapacity : UInt64) (calls : List (Call T)) :
    let M := schedulerMachine T numWorkers queueCapacity
    (∀ thief : UInt32, 2 ≤ (M.run calls).workers.length →
      thief.toNat < (M.run calls).workers.length →
      ((M.run calls).StealFindsWork thief ↔ (M.run calls).WorkInReach thief)) ∧
    (M.EachStep Scheduler.DeactivatesEmpty calls →
      M.Always (fun s => ∀ thief : UInt32, 2 ≤ s.workers.length → thief.toNat < s.workers.length →
        s.StealFindsWork thief) calls) := by
  intro M
  refine ⟨fun thief h2 ht => Scheduler.stealFindsWork_iff h2 ht, fun hsteps => ?_⟩
  have hinit : M.init.InactiveEmpty := by
    intro w hw _
    rw [List.eq_of_mem_replicate hw]
    rfl
  have halways : M.Always Scheduler.InactiveEmpty calls :=
    M.always_of_eachStep hinit (fun s c h hc => h.call c hc) calls hsteps
  intro js hjs thief h2 ht
  exact (Scheduler.stealFindsWork_iff h2 ht).mpr ((halways js hjs).workInReach thief)

/-- Two workers; the task goes to worker 0, which is then deactivated. Worker 1 steals nothing. -/
theorem steal_strands_task :
    let s := (schedulerMachine Nat 2 4).run [.submit 42, .deactivateWorker 0]
    (s.steal 1).2 = none ∧ s.pendingTasks = 1 ∧ ¬ s.StealFindsWork 1 := by
  intro s
  have hnone : (s.steal 1).2 = none := by decide +kernel
  refine ⟨hnone, by decide +kernel, fun h => ?_⟩
  have h0 := h hnone 0 ⟨⟨[42], 1, 4⟩, false⟩ (by decide) (by decide +kernel)
  cases h0

end Pepita.Sched
