import Pepita.Scheduler.Sequential
import Pepita.Scheduler.Stealing

set_option autoImplicit false

/-! # Stealing half of a queue

`steal_batch` looks for the busiest worker other than the thief among the active ones, the first of
several, and takes the older half of its tasks (`stealBatch_exact`). Half is rounded down, so a
batch is empty although there is work when no other active worker has two tasks, while `steal`
takes a single task (`stealing_agrees_iff`).
-/

namespace Pepita.Sched

variable {T : Type}

/-! ## The search -/

/-- Worker `j` is `w`, active and not the thief. -/
def IsVictim (thief : Nat) (workers : List (WorkerState T)) (j : Nat) (w : WorkerState T) : Prop :=
  workers[j]? = some w ∧ j ≠ thief ∧ w.active = true

theorem isVictim_snoc {thief j : Nat} {workers : List (WorkerState T)} {w w' : WorkerState T} :
    IsVictim thief (workers ++ [w]) j w' ↔
      IsVictim thief workers j w' ∨
        j = workers.length ∧ w' = w ∧ j ≠ thief ∧ w.active = true := by
  unfold IsVictim
  rcases Nat.lt_trichotomy j workers.length with hlt | heq | hgt
  · rw [List.getElem?_append_left hlt]
    simp [Nat.ne_of_lt hlt]
  · subst heq
    rw [List.getElem?_append_right le_rfl, Nat.sub_self, List.getElem?_eq_none le_rfl]
    simp only [List.getElem?_cons_zero, Option.some_inj, reduceCtorEq, false_and, false_or,
      true_and]
    constructor
    · rintro ⟨rfl, h⟩
      exact ⟨rfl, h⟩
    · rintro ⟨rfl, h⟩
      exact ⟨rfl, h⟩
  · rw [List.getElem?_eq_none (by rw [List.length_append, List.length_singleton]; omega),
      List.getElem?_eq_none (by omega)]
    simp [Nat.ne_of_gt hgt]

/-- What the search has found in `workers`: no victim is busier than its maximum, and the worker it
holds is the first victim with that many tasks, at least one. -/
structure Scanned (thief : Nat) (workers : List (WorkerState T)) (acc : Option Nat × UInt64) :
    Prop where
  bound : ∀ j w, IsVictim thief workers j w → w.deque.len.toNat ≤ acc.2.toNat
  nothing : acc.1 = none → acc.2.toNat = 0
  found : ∀ v, acc.1 = some v → 0 < acc.2.toNat ∧
    (∃ w, IsVictim thief workers v w ∧ w.deque.len.toNat = acc.2.toNat) ∧
    ∀ j w, j < v → IsVictim thief workers j w → w.deque.len.toNat < acc.2.toNat

theorem IsVictim.lt {thief j : Nat} {workers : List (WorkerState T)} {w : WorkerState T}
    (h : IsVictim thief workers j w) : j < workers.length :=
  (List.getElem?_eq_some_iff.mp h.1).1

/-- Past a worker that is no victim, or no busier than the maximum, the search holds what it
held. -/
theorem Scanned.skip {thief : Nat} {workers : List (WorkerState T)}
    {acc : Option Nat × UInt64} (h : Scanned thief workers acc) {w : WorkerState T}
    (hw : workers.length ≠ thief ∧ w.active = true → w.deque.len.toNat ≤ acc.2.toNat) :
    Scanned thief (workers ++ [w]) acc := by
  refine ⟨?_, h.nothing, ?_⟩
  · intro j w' hv
    rcases isVictim_snoc.mp hv with hold | ⟨rfl, rfl, hcand⟩
    · exact h.bound j w' hold
    · exact hw hcand
  · intro v hv
    obtain ⟨hpos, ⟨w₀, hvictim, hlen⟩, hfirst⟩ := h.found v hv
    refine ⟨hpos, ⟨w₀, isVictim_snoc.mpr (.inl hvictim), hlen⟩, ?_⟩
    intro j w' hj hv'
    have hlt := hvictim.lt
    rcases isVictim_snoc.mp hv' with hold | ⟨rfl, -⟩
    · exact hfirst j w' hj hold
    · omega

/-- **One pass of the search.** -/
theorem Scanned.scanWorker {thief : Nat} {workers : List (WorkerState T)}
    {acc : Option Nat × UInt64} (h : Scanned thief workers acc) (w : WorkerState T) :
    Scanned thief (workers ++ [w]) (Scheduler.scanWorker thief acc workers.length w) := by
  unfold Scheduler.scanWorker
  split_ifs with hcand hgt
  · -- a new maximum
    have hgt' : acc.2.toNat < w.deque.len.toNat := UInt64.lt_iff_toNat_lt.mp hgt
    refine ⟨?_, fun hnone => (by cases hnone), ?_⟩
    · intro j w' hv
      rcases isVictim_snoc.mp hv with hold | ⟨-, rfl, -⟩
      · exact (h.bound j w' hold).trans hgt'.le
      · exact le_rfl
    · intro v hv
      obtain rfl : workers.length = v := Option.some_inj.mp hv
      refine ⟨Nat.zero_lt_of_lt hgt', ⟨w, isVictim_snoc.mpr (.inr ⟨rfl, rfl, hcand⟩), rfl⟩, ?_⟩
      intro j w' hj hv
      rcases isVictim_snoc.mp hv with hold | ⟨rfl, -⟩
      · exact (h.bound j w' hold).trans_lt hgt'
      · omega
  · exact h.skip fun _ => Nat.not_lt.mp (mt UInt64.lt_iff_toNat_lt.mpr hgt)
  · exact h.skip fun hcand' => absurd hcand' hcand

theorem scanned_foldl (thief : Nat) (workers : List (WorkerState T)) :
    Scanned thief workers (workers.zipIdx.foldl
      (fun acc p => Scheduler.scanWorker thief acc p.2 p.1) (none, 0)) := by
  induction workers using List.reverseRecOn with
  | nil =>
      refine ⟨?_, fun _ => rfl, fun v hv => by cases hv⟩
      rintro j w ⟨hw, -⟩
      cases hw
  | append_singleton workers w ih =>
      rw [List.zipIdx_append, List.foldl_append, List.zipIdx_singleton, Nat.zero_add]
      exact ih.scanWorker w

/-! ## The call -/

namespace Scheduler

variable {s : Scheduler T}

/-- The lengths of the deques of the active workers other than the thief. -/
def victimLoads (s : Scheduler T) (thief : Nat) : Set Nat :=
  {l | ∃ j w, IsVictim thief s.workers j w ∧ w.deque.deque.length = l}

/-- The active workers other than the thief whose deque has length `m`. -/
def victimsWithLoad (s : Scheduler T) (thief m : Nat) : Set Nat :=
  {j | ∃ w, IsVictim thief s.workers j w ∧ w.deque.deque.length = m}

theorem stealBatch_of_invalid {thief : UInt32}
    (h : s.workers.length ≤ 1 ∨ s.workers.length ≤ thief.toNat) :
    s.stealBatch thief = (s, []) := if_pos h

/-- Without a victim nothing is taken. -/
theorem stealBatch_of_no_victim {thief : UInt32}
    (h : ∀ j w, ¬ IsVictim thief.toNat s.workers j w) : s.stealBatch thief = (s, []) := by
  unfold stealBatch
  split_ifs
  · rfl
  · have hscan := scanned_foldl thief.toNat s.workers
    generalize s.workers.zipIdx.foldl _ _ = acc at hscan
    split
    · next v hv =>
        obtain ⟨-, ⟨w, hvictim, -⟩, -⟩ := hscan.found v hv
        exact absurd hvictim (h v w)
    · rfl

/-- The access `steal_batch` makes to the busiest worker. -/
theorem access_stealHalf (h : s.WF) {v : Nat} {w : WorkerState T}
    (hw : s.workers[v]? = some w) :
    ∃ q', s.access v WorkStealingDeque.stealHalf []
        = ({ s with workers := s.workers.set v { w with deque := q' } },
            w.deque.deque.take (w.deque.deque.length / 2)) ∧
      q'.deque = w.deque.deque.drop (w.deque.deque.length / 2) := by
  obtain ⟨q', hhalf, hrest, -, -⟩ :=
    WorkStealingDeque.stealHalf_eq (h w (List.mem_of_getElem? hw))
  refine ⟨q', ?_, hrest⟩
  rw [access_of_getElem? hw, hhalf]

theorem victim_len_eq (h : s.WF) {thief j : Nat} {w : WorkerState T}
    (hv : IsVictim thief s.workers j w) : w.deque.len.toNat = w.deque.deque.length :=
  (h w (List.mem_of_getElem? hv.1)).len_eq

/-- If the search holds nobody, all victims are idle, and any of them has the greatest load. -/
theorem first_idle (h : s.WF) {thief : Nat} {load : UInt64}
    (hscan : Scanned thief s.workers (none, load)) (hex : ∃ j w, IsVictim thief s.workers j w) :
    ∃ v w, IsVictim thief s.workers v w ∧
      IsGreatest (s.victimLoads thief) 0 ∧ IsLeast (s.victimsWithLoad thief 0) v := by
  have hidle : ∀ j w, IsVictim thief s.workers j w → w.deque.deque.length = 0 := by
    intro j w hv
    have hle := hscan.bound j w hv
    rw [hscan.nothing rfl, victim_len_eq h hv] at hle
    omega
  obtain ⟨j, w, hv⟩ := hex
  have hmem : ∃ v, v ∈ s.victimsWithLoad thief 0 := ⟨j, w, hv, hidle j w hv⟩
  classical
  obtain ⟨w₀, hv₀, -⟩ := Nat.find_spec hmem
  refine ⟨Nat.find hmem, w₀, hv₀, ⟨⟨j, w, hv, hidle j w hv⟩, ?_⟩,
    Nat.find_spec hmem, fun k hk => Nat.find_min' hmem hk⟩
  rintro l ⟨k, w', hv', rfl⟩
  exact (hidle k w' hv').le

/-- The worker the search holds is the first victim with the greatest load. -/
theorem first_busiest (h : s.WF) {thief v : Nat} {load : UInt64}
    (hscan : Scanned thief s.workers (some v, load)) :
    ∃ w, IsVictim thief s.workers v w ∧
      IsGreatest (s.victimLoads thief) w.deque.deque.length ∧
      IsLeast (s.victimsWithLoad thief w.deque.deque.length) v := by
  obtain ⟨hpos, ⟨w, hvictim, hload⟩, hfirst⟩ := hscan.found v rfl
  rw [victim_len_eq h hvictim] at hload
  refine ⟨w, hvictim, ⟨⟨v, w, hvictim, rfl⟩, ?_⟩, ⟨w, hvictim, rfl⟩, ?_⟩
  · rintro l ⟨k, w', hv', rfl⟩
    have hle := hscan.bound k w' hv'
    rw [victim_len_eq h hv'] at hle
    exact hle.trans hload.ge
  · rintro k ⟨w', hv', hl⟩
    by_contra hlt
    have hless := hfirst k w' (by omega) hv'
    rw [victim_len_eq h hv', hl] at hless
    exact absurd hload (Nat.ne_of_lt hless)

/-- With a victim, half of the tasks of the first busiest one are taken. -/
theorem stealBatch_of_victim (h : s.WF) {thief : UInt32} (h2 : 2 ≤ s.workers.length)
    (ht : thief.toNat < s.workers.length) (hex : ∃ j w, IsVictim thief.toNat s.workers j w) :
    ∃ m v w q', IsGreatest (s.victimLoads thief.toNat) m ∧
      IsLeast (s.victimsWithLoad thief.toNat m) v ∧ s.workers[v]? = some w ∧
      s.stealBatch thief = ({ s with workers := s.workers.set v { w with deque := q' } },
        w.deque.deque.take (m / 2)) ∧
      q'.deque = w.deque.deque.drop (m / 2) := by
  have hscan := scanned_foldl thief.toNat s.workers
  rw [stealBatch, if_neg (by omega)]
  generalize s.workers.zipIdx.foldl _ _ = acc at hscan
  obtain ⟨victim, load⟩ := acc
  cases victim with
  | none =>
      -- half of nothing is taken from the first
      obtain ⟨v, w, hv, hgreatest, hleast⟩ := first_idle h hscan hex
      refine ⟨0, v, w, w.deque, hgreatest, hleast, hv.1, ?_, rfl⟩
      obtain ⟨hlt, hget⟩ := List.getElem?_eq_some_iff.mp hv.1
      rw [← hget, List.set_getElem_self]
      rfl
  | some v =>
      obtain ⟨w, hvictim, hgreatest, hleast⟩ := first_busiest h hscan
      obtain ⟨q', hacc, hrest⟩ := access_stealHalf h hvictim.1
      exact ⟨w.deque.deque.length, v, w, q', hgreatest, hleast, hvictim.1, hacc, hrest⟩

end Scheduler

/-- **What `steal_batch` takes**, in every state a run reaches. An invalid thief and a single worker
get nothing. Otherwise `m` is the greatest load of the active workers other than the thief, and the
older half of `m` tasks is taken from the first of them with that load; nothing else changes. -/
theorem stealBatch_exact (numWorkers queueCapacity : UInt64) (calls : List (Call T))
    (thief : UInt32) :
    let s := (schedulerMachine T numWorkers queueCapacity).run calls
    (s.workers.length ≤ 1 ∨ s.workers.length ≤ thief.toNat → s.stealBatch thief = (s, [])) ∧
    (2 ≤ s.workers.length → thief.toNat < s.workers.length →
      ((∀ j w, ¬ IsVictim thief.toNat s.workers j w) → s.stealBatch thief = (s, [])) ∧
      ((∃ j w, IsVictim thief.toNat s.workers j w) →
        ∃ m v w q', IsGreatest (s.victimLoads thief.toNat) m ∧
          IsLeast (s.victimsWithLoad thief.toNat m) v ∧ s.workers[v]? = some w ∧
          s.stealBatch thief = ({ s with workers := s.workers.set v { w with deque := q' } },
            w.deque.deque.take (m / 2)) ∧
          q'.deque = w.deque.deque.drop (m / 2))) := by
  intro s
  have hwf : s.WF := sequential_wf numWorkers queueCapacity calls
  refine ⟨Scheduler.stealBatch_of_invalid, fun h2 ht => ⟨Scheduler.stealBatch_of_no_victim, ?_⟩⟩
  exact Scheduler.stealBatch_of_victim hwf h2 ht

-- workers 0 and 1 have two tasks each: the thief takes the older one of worker 0
example : (((schedulerMachine Nat 3 4).run
    [.submit 0, .submit 1, .submit 2, .submit 3, .submit 4]).stealBatch 2).2 = [0] := by decide

/-! ## One task or half of them -/

namespace Scheduler

variable {s : Scheduler T}

/-- A batch has tasks exactly when some other active worker has two. -/
theorem stealBatch_ne_nil_iff (h : s.WF) (thief : UInt32) :
    (s.stealBatch thief).2 ≠ [] ↔ thief.toNat < s.workers.length ∧
      ∃ j w, IsVictim thief.toNat s.workers j w ∧ 2 ≤ w.deque.deque.length := by
  constructor
  · intro hne
    have hvalid : ¬ (s.workers.length ≤ 1 ∨ s.workers.length ≤ thief.toNat) := by
      intro hinvalid
      rw [stealBatch_of_invalid hinvalid] at hne
      exact hne rfl
    have hex : ∃ j w, IsVictim thief.toNat s.workers j w := by
      by_contra hnone
      push Not at hnone
      rw [stealBatch_of_no_victim hnone] at hne
      exact hne rfl
    obtain ⟨m, v, w, q', -, ⟨⟨w', hvictim, hload⟩, -⟩, hw, hbatch, -⟩ :=
      stealBatch_of_victim h (by omega) (by omega) hex
    obtain rfl : w = w' := Option.some_inj.mp (hw.symm.trans hvictim.1)
    refine ⟨by omega, v, w, hvictim, ?_⟩
    rw [hbatch] at hne
    by_contra hlt
    refine hne ?_
    show w.deque.deque.take (m / 2) = []
    rw [← hload, show w.deque.deque.length / 2 = 0 by omega, List.take_zero]
  · rintro ⟨ht, j, w, hvictim, htwo⟩
    have hj := hvictim.lt
    have hne := hvictim.2.1
    obtain ⟨m, v, w', q', ⟨-, hgreatest⟩, ⟨⟨w₀, hv₀, hload⟩, -⟩, hw', hbatch, -⟩ :=
      stealBatch_of_victim h (by omega) ht ⟨j, w, hvictim⟩
    obtain rfl : w' = w₀ := Option.some_inj.mp (hw'.symm.trans hv₀.1)
    -- the busiest victim has at least two tasks as well
    have hm : w.deque.deque.length ≤ m := hgreatest ⟨j, w, hvictim, rfl⟩
    rw [hbatch]
    intro hnil
    have hlen := congrArg List.length hnil
    rw [List.length_take, hload, List.length_nil] at hlen
    omega

/-- A single task is found exactly when some other active worker has one. -/
theorem isSome_steal_iff (thief : UInt32) :
    (s.steal thief).2.isSome = true ↔ thief.toNat < s.workers.length ∧
      ∃ j w, IsVictim thief.toNat s.workers j w ∧ 1 ≤ w.deque.deque.length := by
  by_cases hvalid : 2 ≤ s.workers.length ∧ thief.toNat < s.workers.length
  · rw [← Option.ne_none_iff_isSome, Ne, steal_eq_none_iff hvalid.1 hvalid.2]
    push Not
    constructor
    · rintro ⟨j, w, hne, hw, hactive, htask⟩
      exact ⟨hvalid.2, j, w, ⟨hw, hne, hactive⟩, List.length_pos_of_ne_nil htask⟩
    · rintro ⟨-, j, w, ⟨hw, hne, hactive⟩, hpos⟩
      exact ⟨j, w, hne, hw, hactive, List.ne_nil_of_length_pos hpos⟩
  · have hnothing : s.steal thief = (s, none) := if_pos (by omega)
    rw [hnothing]
    refine iff_of_false (by simp) ?_
    rintro ⟨ht, j, w, hvictim, -⟩
    have hj := hvictim.lt
    have hne := hvictim.2.1
    omega

end Scheduler

/-- **When the two ways of stealing agree that there is work**, in every state a run reaches and for
every thief. A batch is non-empty exactly when another active worker has two tasks, a single steal
succeeds exactly when one has a task; so a thief that finds a batch finds a task, and the two differ
exactly when there is a task to take, but no other active worker has two. -/
theorem stealing_agrees_iff (numWorkers queueCapacity : UInt64) (calls : List (Call T))
    (thief : UInt32) :
    let s := (schedulerMachine T numWorkers queueCapacity).run calls
    let holds := fun k => thief.toNat < s.workers.length ∧
      ∃ j w, IsVictim thief.toNat s.workers j w ∧ k ≤ w.deque.deque.length
    ((s.stealBatch thief).2 ≠ [] ↔ holds 2) ∧ ((s.steal thief).2.isSome = true ↔ holds 1) ∧
    ((s.stealBatch thief).2 ≠ [] → (s.steal thief).2.isSome = true) ∧
    (((s.stealBatch thief).2 ≠ [] ↔ (s.steal thief).2.isSome = true) ↔ (holds 1 → holds 2)) := by
  intro s holds
  have hwf : s.WF := sequential_wf numWorkers queueCapacity calls
  have hbatch : (s.stealBatch thief).2 ≠ [] ↔ holds 2 := Scheduler.stealBatch_ne_nil_iff hwf thief
  have hsteal : (s.steal thief).2.isSome = true ↔ holds 1 := Scheduler.isSome_steal_iff thief
  have hmono : holds 2 → holds 1 := by
    rintro ⟨ht, j, w, hvictim, htwo⟩
    exact ⟨ht, j, w, hvictim, by omega⟩
  rw [hbatch, hsteal]
  exact ⟨Iff.rfl, Iff.rfl, hmono, fun h => h.mpr, fun h => ⟨hmono, h⟩⟩

/-- A single task, with worker 0: worker 1 can steal it, but gets no batch. -/
theorem single_task_no_batch :
    let s := (schedulerMachine Nat 2 4).run [.submit 42]
    (s.steal 1).2 = some 42 ∧ (s.stealBatch 1).2 = [] ∧
    ¬ ((s.stealBatch 1).2 ≠ [] ↔ (s.steal 1).2.isSome = true) := by
  intro s
  have hsteal : (s.steal 1).2 = some 42 := by decide
  have hbatch : (s.stealBatch 1).2 = [] := by decide
  refine ⟨hsteal, hbatch, ?_⟩
  rw [hsteal, hbatch]
  simp

end Pepita.Sched
