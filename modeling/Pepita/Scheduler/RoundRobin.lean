import Pepita.Scheduler.Capacity
import Pepita.Scheduler.Submit

set_option autoImplicit false

/-! # Dealing tasks out in turn

A new scheduler that is only submitted to deals the tasks out like cards: worker `i` of `n` gets
the tasks number `i`, `i + n`, `i + 2n`, …, and the fallback of the search is not used before all
queues are full at once (`round_robin_balanced`). That is so as long as the round-robin counter
does not wrap in the middle of a round: for 2^64 submissions, or without end if `n` divides 2^64.
`round_robin_unbalanced` is the first submission after that.
-/

namespace Pepita.Sched

variable {T : Type}

/-! ## Hands -/

/-- The hand of worker `i` when task number `k` goes to worker `place k`, in the order dealt. -/
def dealt (place : Nat → Nat) (i : Nat) (tasks : List T) : List T :=
  (tasks.zipIdx.filter fun p => place p.2 = i).map Prod.fst

theorem dealt_snoc (place : Nat → Nat) (i : Nat) (tasks : List T) (task : T) :
    dealt place i (tasks ++ [task])
      = if place tasks.length = i then dealt place i tasks ++ [task] else dealt place i tasks := by
  unfold dealt
  rw [List.zipIdx_append, List.filter_append, List.map_append]
  split_ifs with h <;> simp [h]

/-- A hand depends on where its own tasks went only. -/
theorem dealt_congr {place place' : Nat → Nat} {tasks : List T}
    (h : ∀ k < tasks.length, place k = place' k) (i : Nat) :
    dealt place i tasks = dealt place' i tasks := by
  unfold dealt
  congr 1
  refine List.filter_congr fun p hp => ?_
  rw [h p.2 (List.snd_lt_of_mem_zipIdx hp)]

theorem length_dealt_mod {n i : Nat} (hi : i < n) (tasks : List T) :
    (dealt (· % n) i tasks).length = (tasks.length + n - 1 - i) / n := by
  induction tasks using List.reverseRecOn with
  | nil =>
      rw [List.length_nil, Nat.zero_add, Nat.div_eq_of_lt (by omega)]
      rfl
  | append_singleton tasks task ih =>
      -- one more card makes a hand longer exactly when it is its turn
      have hturn : n ∣ tasks.length + n - 1 - i + 1 ↔ tasks.length % n = i := by
        rw [show tasks.length + n - 1 - i + 1 = tasks.length + (n - i) by omega,
          Nat.dvd_iff_mod_eq_zero, Nat.add_mod]
        have hlt := Nat.mod_lt tasks.length (by omega : 0 < n)
        rcases Nat.eq_zero_or_pos i with rfl | hpos
        · rw [Nat.sub_zero, Nat.mod_self, Nat.add_zero, Nat.mod_mod]
        · rw [Nat.mod_eq_of_lt (show n - i < n by omega)]
          constructor
          · intro h0
            by_contra hne
            rcases Nat.lt_or_ge (tasks.length % n + (n - i)) n with hsum | hsum
            · rw [Nat.mod_eq_of_lt hsum] at h0
              omega
            · rw [Nat.mod_eq_sub_mod hsum, Nat.mod_eq_of_lt (by omega)] at h0
              omega
          · intro heq
            rw [heq, show i + (n - i) = n by omega, Nat.mod_self]
      rw [dealt_snoc, List.length_append, List.length_singleton,
        show tasks.length + 1 + n - 1 - i = (tasks.length + n - 1 - i) + 1 by omega,
        Nat.succ_div]
      split_ifs with hturn' hdvd hdvd
      · rw [List.length_append, ih, List.length_singleton]
      · exact absurd (hturn.mpr hturn') hdvd
      · exact absurd (hturn.mp hdvd) hturn'
      · rw [ih, Nat.add_zero]

/-! ## One submission -/

/-- The deques hold the hands of `tasks`, dealt as `place` says. -/
def Scheduler.Holds (s : Scheduler T) (place : Nat → Nat) (tasks : List T) : Prop :=
  ∀ i w, s.workers[i]? = some w → w.deque.deque = dealt place i tasks

namespace Scheduler.Holds

variable {s : Scheduler T} {place : Nat → Nat} {tasks : List T}

/-- A submission that is accepted is the next card of the hand it goes to. -/
theorem submit (h : s.Holds place tasks) (hwf : s.WF) (hrun : s.running = true) {target : Nat}
    (ht : s.FirstFrom (s.submitCounter.toNat % s.workers.length) target) (task : T)
    (hplace : place tasks.length = target) :
    (s.submit task).1.Holds place (tasks ++ [task]) := by
  obtain ⟨-, -, -, ⟨w, hw, -⟩, -⟩ := id ht
  rw [Scheduler.submit_of_firstFrom hwf hrun ht hw]
  intro i w' hw'
  rw [dealt_snoc, hplace]
  by_cases hi : target = i
  · subst hi
    rw [List.getElem?_set_self (List.getElem?_eq_some_iff.mp hw).1, Option.some_inj] at hw'
    rw [if_pos rfl, ← hw', ← h target w hw]
  · rw [List.getElem?_set_ne hi] at hw'
    rw [if_neg hi, h i w' hw']

theorem congr {place' : Nat → Nat} (h : s.Holds place tasks)
    (hplace : ∀ k < tasks.length, place k = place' k) : s.Holds place' tasks := by
  intro i w hw
  rw [h i w hw, dealt_congr hplace]

end Scheduler.Holds

/-- Before all queues are full, the worker whose turn it is has room. -/
theorem Scheduler.Uniform.firstFrom_turn {s : Scheduler T} {n : Nat} {capacity : UInt64}
    {tasks : List T} (h : s.Uniform n capacity) (hholds : s.Holds (· % n) tasks)
    (hlt : tasks.length < n * capacity.toNat) :
    s.FirstFrom (tasks.length % n) (tasks.length % n) := by
  have hn : 0 < n := Nat.pos_of_mul_pos_right (Nat.zero_lt_of_lt hlt)
  have hturn := Nat.mod_lt tasks.length hn
  have hidx : tasks.length % n < s.workers.length := h.length_eq ▸ hturn
  have hw := List.getElem?_eq_getElem hidx
  obtain ⟨hactive, hcap⟩ := h.worker _ (List.mem_of_getElem? hw)
  refine ⟨0, by rw [h.length_eq]; exact hn, ?_, ⟨_, hw, hactive, ?_⟩, ?_⟩
  · rw [h.length_eq, Nat.add_zero, Nat.mod_mod]
  · rw [hholds _ _ hw, length_dealt_mod hturn, hcap]
    have hdiv : tasks.length / n < capacity.toNat := Nat.div_lt_of_lt_mul hlt
    have hsplit := Nat.div_add_mod tasks.length n
    rw [show tasks.length + n - 1 - tasks.length % n
        = (n - 1) + n * (tasks.length / n) by omega, Nat.add_mul_div_left _ _ hn,
      Nat.div_eq_of_lt (by omega), Nat.zero_add]
    exact hdiv
  · intro j hj
    exact absurd hj (Nat.not_lt_zero j)

/-! ## A run of submissions -/

/-- `k` submissions do not take the round-robin counter past a wrap, or a wrap is the end of a
round of `n`. -/
def Aligned (n k : Nat) : Prop := k ≤ 2 ^ 64 ∨ n ∣ 2 ^ 64

theorem Aligned.mod_eq {n k : Nat} (h : Aligned n (k + 1)) : k % 2 ^ 64 % n = k % n := by
  rcases h with hle | hdvd
  · rw [Nat.mod_eq_of_lt hle]
  · exact Nat.mod_mod_of_dvd k hdvd

/-- What submissions of `tasks` that all fit leave: the queues hold the hands of some dealing, in
turn while the counter is aligned. -/
structure Served (n : Nat) (capacity : UInt64) (tasks : List T) (s : Scheduler T) : Prop where
  uniform : s.Uniform n capacity
  pending : s.tasks.card = tasks.length
  counter : s.submitCounter = UInt64.ofNat tasks.length
  dealt : ∃ place, s.Holds place tasks ∧
    (Aligned n tasks.length → ∀ k < tasks.length, place k = k % n)

namespace Served

variable {n : Nat} {capacity : UInt64} {tasks : List T} {s : Scheduler T}

theorem holds_mod (h : Served n capacity tasks s) (halign : Aligned n tasks.length) :
    s.Holds (· % n) tasks := by
  obtain ⟨place, hholds, hplace⟩ := h.dealt
  exact hholds.congr (hplace halign)

/-- The search finds the worker whose turn it is. -/
theorem eq_turn (h : Served n capacity tasks s) (hlt : tasks.length < n * capacity.toNat)
    (halign : Aligned n (tasks.length + 1)) {target : Nat}
    (ht : s.FirstFrom (s.submitCounter.toNat % s.workers.length) target) :
    target = tasks.length % n := by
  have hholds : s.Holds (· % n) tasks := by
    refine h.holds_mod ?_
    rcases halign with hle | hdvd
    · exact .inl (by omega)
    · exact .inr hdvd
  have hturn := h.uniform.firstFrom_turn hholds hlt
  have hstart : s.submitCounter.toNat % s.workers.length = tasks.length % n := by
    rw [h.counter, UInt64.toNat_ofNat', h.uniform.length_eq, halign.mod_eq]
  rw [← hstart] at hturn
  have hsel := (Scheduler.select_eq_some_iff h.uniform.wf).mpr ⟨h.uniform.running, ht⟩
  rw [(Scheduler.select_eq_some_iff h.uniform.wf).mpr ⟨h.uniform.running, hturn⟩] at hsel
  rw [← Option.some_inj.mp hsel, hstart]

/-- **One more submission.** -/
theorem submit (h : Served n capacity tasks s) (hlt : tasks.length < n * capacity.toNat)
    (task : T) :
    Served n capacity (tasks ++ [task]) (s.submit task).1 ∧
      (s.submit task).2.isSome = true := by
  have hwf := h.uniform.wf
  obtain ⟨hsome, hpending⟩ := h.uniform.submit_room (by rw [h.pending]; exact hlt) task
  obtain ⟨target, w, ht, hw⟩ :=
    Scheduler.exists_firstFrom hwf ((Scheduler.isSome_submit_iff hwf task).mp hsome)
  refine ⟨⟨h.uniform.submit task, ?_, ?_, ?_⟩, hsome⟩
  · rw [hpending, h.pending, List.length_append, List.length_singleton]
  · rw [Scheduler.submit_of_firstFrom hwf h.uniform.running ht hw]
    show s.submitCounter + 1 = _
    rw [h.counter, List.length_append, List.length_singleton, UInt64.ofNat_add]
    rfl
  · obtain ⟨place, hholds, hplace⟩ := h.dealt
    -- the dealing goes on where the search went
    refine ⟨Function.update place tasks.length target, ?_, ?_⟩
    · refine (hholds.congr fun k hk => ?_).submit hwf h.uniform.running ht task
        (Function.update_self _ _ _)
      rw [Function.update_of_ne (by omega)]
    · rw [List.length_append, List.length_singleton]
      intro halign k hk
      rcases Nat.lt_succ_iff_lt_or_eq.mp hk with hk | rfl
      · rw [Function.update_of_ne (by omega)]
        refine hplace ?_ k hk
        rcases halign with hle | hdvd
        · exact .inl (by omega)
        · exact .inr hdvd
      · rw [Function.update_self]
        exact h.eq_turn hlt halign ht

theorem withCapacity (numWorkers capacity : UInt64) :
    Served numWorkers.toNat capacity [] (Scheduler.withCapacity numWorkers capacity : Scheduler T)
    where
  uniform := .withCapacity numWorkers capacity
  pending := by
    rw [Scheduler.tasks_withCapacity]
    rfl
  counter := rfl
  dealt := by
    refine ⟨fun k => k, ?_, fun _ k hk => absurd hk (Nat.not_lt_zero k)⟩
    intro i w hw
    rw [List.eq_of_mem_replicate (List.mem_of_getElem? hw)]
    rfl

/-- The loads, when the tasks were dealt in turn. -/
theorem workerLoads_eq (h : Served n capacity tasks s) (halign : Aligned n tasks.length) :
    s.workerLoads.map UInt64.toNat
      = (List.range n).map fun i => (tasks.length + n - 1 - i) / n := by
  have hlen : s.workers.length = n := h.uniform.length_eq
  apply List.ext_getElem
  · simp [Scheduler.workerLoads, hlen]
  · intro i hi hi'
    have hin : i < n := by simpa using hi'
    have hw : s.workers[i]? = some (s.workers.get ⟨i, by omega⟩) := List.getElem?_eq_getElem _
    simp only [Scheduler.workerLoads, List.getElem_map, List.getElem_range]
    rw [(h.uniform.wf _ (List.getElem_mem _)).len_eq, ← length_dealt_mod hin,
      ← h.holds_mod halign i _ hw]
    rfl

end Served

section Runs

variable (numWorkers capacity : UInt64)

theorem run_submit_snoc (tasks : List T) (task : T) :
    (schedulerMachine T numWorkers capacity).run ((tasks ++ [task]).map Call.submit)
      = (((schedulerMachine T numWorkers capacity).run (tasks.map Call.submit)).submit task).1 := by
  rw [List.map_append, List.map_singleton, Machine.run_snoc]
  rfl

theorem run_served (tasks : List T) (h : tasks.length ≤ numWorkers.toNat * capacity.toNat) :
    Served numWorkers.toNat capacity tasks
        ((schedulerMachine T numWorkers capacity).run (tasks.map Call.submit)) ∧
      ∀ e ∈ (schedulerMachine T numWorkers capacity).trace (tasks.map Call.submit),
        e.2.acceptedId.isSome = true := by
  induction tasks using List.reverseRecOn with
  | nil => exact ⟨.withCapacity numWorkers capacity, fun e he => by cases he⟩
  | append_singleton tasks task ih =>
      rw [List.length_append, List.length_singleton] at h
      obtain ⟨hserved, haccepted⟩ := ih (by omega)
      obtain ⟨hnext, hsome⟩ := hserved.submit (by omega) task
      rw [List.map_append, List.map_singleton, Machine.run_snoc, Machine.trace_snoc]
      refine ⟨hnext, fun e he => ?_⟩
      rcases List.mem_append.mp he with he | he
      · exact haccepted e he
      · rw [List.mem_singleton.mp he]
        exact hsome

/-- The loads of workers that were dealt to in turn differ by at most one. -/
theorem turn_le_turn_succ {k n i j : Nat} (hi : i < n) (hj : j < n) :
    (k + n - 1 - i) / n ≤ (k + n - 1 - j) / n + 1 := by
  have hn : 0 < n := by omega
  rw [← Nat.add_div_right _ hn]
  exact Nat.div_le_div_right (by omega)

/-- **Round-robin submission is balanced up to the last slot.** Submissions to a new scheduler that
fit into its queues are all accepted, and the next one after the last slot is refused; each deque
holds the tasks that went to it in the order of submission. While the round-robin counter is
aligned, worker `i` has the tasks number `i`, `i + n`, `i + 2n`, …, and the loads differ by at most
one. -/
theorem round_robin_balanced (tasks : List T)
    (h : tasks.length ≤ numWorkers.toNat * capacity.toNat) :
    let M := schedulerMachine T numWorkers capacity
    let n := numWorkers.toNat
    let s := M.run (tasks.map Call.submit)
    (∀ e ∈ M.trace (tasks.map Call.submit), e.2.acceptedId.isSome = true) ∧
    (∃ place, s.Holds place tasks) ∧
    (tasks.length = n * capacity.toNat → ∀ task, (s.submit task).2 = none) ∧
    (tasks.length ≤ 2 ^ 64 ∨ n ∣ 2 ^ 64 →
      s.Holds (· % n) tasks ∧
      s.workerLoads.map UInt64.toNat
        = (List.range n).map (fun i => (tasks.length + n - 1 - i) / n) ∧
      ∀ x ∈ s.workerLoads, ∀ y ∈ s.workerLoads, x.toNat ≤ y.toNat + 1) := by
  intro M n s
  obtain ⟨hserved, haccepted⟩ := run_served numWorkers capacity tasks h
  obtain ⟨place, hholds, -⟩ := hserved.dealt
  refine ⟨haccepted, ⟨place, hholds⟩, ?_, ?_⟩
  · intro hfull task
    exact (hserved.uniform.submit_full (by rw [hserved.pending, hfull]) task).1
  · intro halign
    have hloads := hserved.workerLoads_eq halign
    refine ⟨hserved.holds_mod halign, hloads, fun x hx y hy => ?_⟩
    have hturn : ∀ z ∈ s.workerLoads, ∃ i < n, (tasks.length + n - 1 - i) / n = z.toNat := by
      intro z hz
      have hmem := List.mem_map_of_mem (f := UInt64.toNat) hz
      rw [hloads, List.mem_map] at hmem
      obtain ⟨i, hi, heq⟩ := hmem
      exact ⟨i, List.mem_range.mp hi, heq⟩
    obtain ⟨i, hi, hx⟩ := hturn x hx
    obtain ⟨j, hj, hy⟩ := hturn y hy
    rw [← hx, ← hy]
    exact turn_le_turn_succ hi hj

end Runs

/-- Five tasks for three workers with two places each. -/
theorem round_robin_balanced_five :
    ((schedulerMachine Nat 3 2).run ([0, 1, 2, 3, 4].map Call.submit)).workerLoads.map UInt64.toNat
      = [2, 2, 1] := by
  exact (((round_robin_balanced 3 2 [0, 1, 2, 3, 4] (by decide)).2.2.2) (.inl (by decide))).2.1

/-! ## Past the wrap -/

/-- Three workers have been dealt 2^64 tasks in turn, the last of them to worker 0. Now the counter
is 0 again, and worker 0 gets the next one as well. -/
theorem Served.submit_after_wrap {capacity : UInt64} {tasks : List T} {s : Scheduler T}
    (h : Served 3 capacity tasks s) (hlen : tasks.length = 2 ^ 64)
    (hroom : (2 ^ 64 + 2) / 3 < capacity.toNat) (task : T) :
    (s.submit task).1.workerLoads[0]?.map UInt64.toNat = some ((2 ^ 64 + 2) / 3 + 1) := by
  have hthree : s.workers.length = 3 := h.uniform.length_eq
  have hw : s.workers[0]? = some (s.workers.get ⟨0, by omega⟩) := List.getElem?_eq_getElem _
  generalize s.workers.get ⟨0, by omega⟩ = w at hw
  have hload : w.deque.deque.length = (2 ^ 64 + 2) / 3 := by
    rw [h.holds_mod (.inl hlen.le) 0 w hw, length_dealt_mod (by decide), hlen]
    omega
  have hfirst : s.FirstFrom (s.submitCounter.toNat % s.workers.length) 0 := by
    have hzero : s.submitCounter.toNat = 0 := by
      rw [h.counter, hlen, UInt64.toNat_ofNat', Nat.mod_self]
    obtain ⟨hactive, hcap⟩ := h.uniform.worker w (List.mem_of_getElem? hw)
    rw [Scheduler.FirstFrom, hzero, hthree]
    refine ⟨0, by omega, by omega, ⟨w, hw, hactive, ?_⟩, fun j hj => absurd hj (by omega)⟩
    rw [hload, hcap]
    exact hroom
  have hwf := (h.uniform.submit task).wf
  rw [Scheduler.submit_of_firstFrom h.uniform.wf h.uniform.running hfirst hw] at hwf ⊢
  have hset := List.getElem?_set_self (l := s.workers) (i := 0)
    (a := { w with deque := ⟨w.deque.deque ++ [task], w.deque.len + 1, w.deque.capacity⟩ })
    (by omega)
  have hnew := (hwf _ (List.mem_of_getElem? hset)).len_eq
  rw [Scheduler.workerLoads, List.getElem?_map, hset, Option.map_some, Option.map_some, hnew,
    List.length_append, hload, List.length_singleton]

/-- So the loads are not those of the formula. -/
theorem round_robin_unbalanced :
    let capacity := UInt64.ofNat (2 ^ 63)
    let tasks := List.replicate (2 ^ 64) () ++ [()]
    let s := (schedulerMachine Unit 3 capacity).run (tasks.map Call.submit)
    tasks.length ≤ (3 : UInt64).toNat * capacity.toNat ∧
    s.workerLoads.map UInt64.toNat
      ≠ (List.range 3).map fun i => (tasks.length + 3 - 1 - i) / 3 := by
  have hcap : (UInt64.ofNat (2 ^ 63)).toNat = 2 ^ 63 :=
    UInt64.toNat_ofNat_of_lt' (show 2 ^ 63 < 2 ^ 64 by omega)
  have hthree : (3 : UInt64).toNat = 3 := rfl
  have hlen := List.length_replicate (n := 2 ^ 64) (a := ())
  generalize List.replicate (2 ^ 64) () = first at hlen ⊢
  generalize UInt64.ofNat (2 ^ 63) = capacity at hcap ⊢
  intro _ tasks s
  have htasks : tasks.length = 2 ^ 64 + 1 := by
    rw [List.length_append, hlen, List.length_singleton]
  obtain ⟨hserved, -⟩ := run_served 3 capacity first (by rw [hlen, hcap, hthree]; omega)
  have hload := hserved.submit_after_wrap hlen (by rw [hcap]; omega) ()
  rw [← run_submit_snoc] at hload
  refine ⟨by rw [htasks, hcap, hthree]; omega, fun heq => ?_⟩
  have hhead := congrArg (fun l => l[0]?) heq
  rw [htasks] at hhead
  simp only [List.getElem?_map, List.getElem?_range (show 0 < 3 by omega), Option.map_some]
    at hhead
  rw [hload, Option.some_inj] at hhead
  omega

end Pepita.Sched
