import Pepita.Scheduler.Model

set_option autoImplicit false

/-! # What a scheduler has room for

A scheduler that is only submitted to keeps all its workers active and of one capacity. Then a
submission is accepted exactly while fewer tasks are pending than all the queues together hold, no
matter how the round-robin counter has spread them.
-/

namespace Pepita.Sched

variable {T : Type}

/-- If no number of a list exceeds `c`, the list adds up to less than `c` for each of them exactly
when one of them is less. -/
theorem sum_lt_length_mul_iff {c : Nat} (l : List Nat) (h : ∀ x ∈ l, x ≤ c) :
    l.sum < l.length * c ↔ ∃ x ∈ l, x < c := by
  have hle : ∀ l : List Nat, (∀ x ∈ l, x ≤ c) → l.sum ≤ l.length * c := by
    intro l hl
    simpa using List.sum_le_card_nsmul l c hl
  induction l with
  | nil => simp
  | cons a l ih =>
      have hl : ∀ x ∈ l, x ≤ c := fun x hx => h x (List.mem_cons_of_mem a hx)
      have ha : a ≤ c := h a List.mem_cons_self
      have hsum := hle l hl
      rw [List.sum_cons, List.length_cons, Nat.succ_mul, List.exists_mem_cons_iff]
      constructor
      · intro hlt
        rcases Nat.lt_or_ge a c with hac | hac
        · exact .inl hac
        · exact .inr ((ih hl).mp (by omega))
      · rintro (hlt | hlt)
        · omega
        · have := (ih hl).mpr hlt
          omega

theorem WorkStealingDeque.WF.push {q : WorkStealingDeque T} (h : q.WF) (item : T) :
    (q.push item).1.WF := by
  rcases Nat.lt_or_ge q.deque.length q.capacity.toNat with hroom | hfull
  · obtain ⟨q', hpush, -, -, hwf⟩ := WorkStealingDeque.push_room h hroom item
    rw [hpush]
    exact hwf
  · rw [WorkStealingDeque.push_full hfull]
    exact h

theorem WorkStealingDeque.push_capacity (item : T) (q : WorkStealingDeque T) :
    (q.push item).1.capacity = q.capacity := by
  unfold WorkStealingDeque.push
  split <;> rfl

/-- A running scheduler with `n` workers, all active, with queues of `capacity` each. -/
structure Scheduler.Uniform (s : Scheduler T) (n : Nat) (capacity : UInt64) : Prop where
  wf : s.WF
  running : s.running = true
  length_eq : s.workers.length = n
  worker : ∀ w ∈ s.workers, w.active = true ∧ w.deque.capacity = capacity

namespace Scheduler.Uniform

variable {s : Scheduler T} {n : Nat} {capacity : UInt64}

theorem withCapacity (numWorkers capacity : UInt64) :
    (Scheduler.withCapacity numWorkers capacity : Scheduler T).Uniform numWorkers.toNat
      capacity := by
  refine ⟨.withCapacity _ _, rfl, List.length_replicate, ?_⟩
  intro w hw
  rw [List.eq_of_mem_replicate hw]
  exact ⟨rfl, rfl⟩

/-- There is a worker to submit to exactly while the pending tasks do not fill all queues. -/
theorem exists_hasSpace_iff (h : s.Uniform n capacity) :
    (∃ w ∈ s.workers, w.hasSpace = true) ↔ s.tasks.card < n * capacity.toNat := by
  have hspace : ∀ w ∈ s.workers,
      (w.hasSpace = true ↔ w.deque.len.toNat < capacity.toNat) := by
    intro w hw
    obtain ⟨hactive, hcap⟩ := h.worker w hw
    rw [Scheduler.hasSpace_iff (h.wf w hw), (h.wf w hw).len_eq, hactive, hcap]
    simp
  have hle : ∀ x ∈ s.workers.map fun w => w.deque.len.toNat, x ≤ capacity.toNat := by
    intro x hx
    obtain ⟨w, hw, rfl⟩ := List.mem_map.mp hx
    rw [(h.wf w hw).len_eq, ← (h.worker w hw).2]
    exact (h.wf w hw).le_capacity
  have hlen : (s.workers.map fun w => w.deque.len.toNat).length = n :=
    List.length_map _ |>.trans h.length_eq
  rw [h.wf.card_tasks, ← hlen, sum_lt_length_mul_iff _ hle]
  constructor
  · rintro ⟨w, hw, hroom⟩
    exact ⟨_, List.mem_map_of_mem hw, (hspace w hw).mp hroom⟩
  · rintro ⟨x, hx, hlt⟩
    obtain ⟨w, hw, rfl⟩ := List.mem_map.mp hx
    exact ⟨w, hw, (hspace w hw).mpr hlt⟩

theorem select (h : s.Uniform n capacity) : s.select.1.Uniform n capacity := by
  have hworkers := s.select_workers
  refine ⟨?_, ?_, ?_, ?_⟩
  · rw [Scheduler.WF, hworkers]
    exact h.wf
  · unfold Scheduler.select
    split_ifs <;> exact h.running
  · rw [hworkers]
    exact h.length_eq
  · rw [hworkers]
    exact h.worker

/-- An access that keeps the capacity of the deque. -/
theorem access (h : s.Uniform n capacity) {α : Type} {i : Nat} {o : α}
    {f : WorkStealingDeque T → WorkStealingDeque T × α}
    (hwf : ∀ q : WorkStealingDeque T, q.WF → (f q).1.WF)
    (hcap : ∀ q : WorkStealingDeque T, (f q).1.capacity = q.capacity) :
    (s.access i f o).1.Uniform n capacity := by
  obtain ⟨hlen, -, -, hrun⟩ := Scheduler.access_frame (s := s) (i := i) (f := f) (o := o)
  refine ⟨h.wf.access hwf, hrun.trans h.running, hlen.trans h.length_eq, ?_⟩
  cases hw : s.workers[i]? with
  | none =>
      rw [Scheduler.access_of_none hw]
      exact h.worker
  | some w =>
      rw [Scheduler.access_of_getElem? hw]
      intro w' hw'
      rcases List.mem_or_eq_of_mem_set hw' with hmem | rfl
      · exact h.worker w' hmem
      · obtain ⟨hactive, hwcap⟩ := h.worker w (List.mem_of_getElem? hw)
        exact ⟨hactive, (hcap w.deque).trans hwcap⟩

theorem pushTo (h : s.Uniform n capacity) (target : Nat) (task : T) :
    (s.pushTo target task).1.Uniform n capacity := by
  have hpush := h.access (i := target) (f := fun q => q.push task)
    (o := Except.error KernelError.ublkQueueFull) (fun q hq => hq.push task)
    (WorkStealingDeque.push_capacity task)
  unfold Scheduler.pushTo
  generalize s.access target (fun q => q.push task) (.error KernelError.ublkQueueFull) = r at hpush
  obtain ⟨s', r⟩ := r
  cases r with
  | ok _ => exact ⟨hpush.wf, hpush.running, hpush.length_eq, hpush.worker⟩
  | error _ => exact hpush

theorem submit (h : s.Uniform n capacity) (task : T) :
    (s.submit task).1.Uniform n capacity := by
  have hsel := h.select
  unfold Scheduler.submit
  generalize s.select = r at hsel
  obtain ⟨s', target⟩ := r
  cases target with
  | none => exact hsel
  | some target => exact hsel.pushTo target task

/-- While the queues are not all full, a submission gets an id and its task is pending. -/
theorem submit_room (h : s.Uniform n capacity) (hroom : s.tasks.card < n * capacity.toNat)
    (task : T) :
    (s.submit task).2.isSome = true ∧ (s.submit task).1.tasks.card = s.tasks.card + 1 := by
  obtain ⟨w, hw, hspace⟩ := h.exists_hasSpace_iff.mpr hroom
  cases hsel : s.select.2 with
  | none =>
      -- the search passes every worker, so it cannot miss `w`
      rw [Scheduler.select_none h.running hsel w hw] at hspace
      cases hspace
  | some target =>
      obtain ⟨-, w', hw', hspace'⟩ := Scheduler.select_some hsel
      have hlen := ((Scheduler.hasSpace_iff (h.wf w' (List.mem_of_getElem? hw'))).mp hspace').2
      obtain ⟨-, htasks, hsome⟩ := Scheduler.pushTo_effect h.select.wf target task
      have hid : (s.select.1.pushTo target task).2.isSome = true := by
        rw [hsome, s.select_workers]
        exact ⟨w', hw', hlen⟩
      have hsubmit : s.submit task = s.select.1.pushTo target task := by
        rw [Scheduler.submit, ← Prod.eta s.select, hsel]
      rw [hid, if_pos rfl] at htasks
      rw [hsubmit]
      refine ⟨hid, ?_⟩
      rw [htasks]
      simp [Scheduler.tasks, s.select_workers]

/-- Once the queues are all full, a submission is refused and nothing is pending that was not. -/
theorem submit_full (h : s.Uniform n capacity) (hfull : n * capacity.toNat ≤ s.tasks.card)
    (task : T) :
    (s.submit task).2 = none ∧ (s.submit task).1.tasks.card = s.tasks.card := by
  cases hsel : s.select.2 with
  | none =>
      have hsubmit : s.submit task = (s.select.1, none) := by
        rw [Scheduler.submit, ← Prod.eta s.select, hsel]
      rw [hsubmit]
      refine ⟨rfl, ?_⟩
      rw [Scheduler.tasks, s.select_workers]
      rfl
  | some target =>
      obtain ⟨-, w, hw, hspace⟩ := Scheduler.select_some hsel
      have hroom := h.exists_hasSpace_iff.mp ⟨w, List.mem_of_getElem? hw, hspace⟩
      omega

end Scheduler.Uniform

end Pepita.Sched
