import Pepita.Scheduler.Atomic

set_option autoImplicit false

/-! # The lock on the list of workers

Every call of the scheduler but `stop` takes the lock on the list of workers: `add_worker` to write,
the others to read. The lock gives no order to those who wait for it.

* `scheduler_never_stuck`: the lock excludes readers while one writes, and the calls under way can
  always be finished.
* `returns_under_lock`: a call that has the read lock returns after a bounded number of its own
  steps, whatever the other clients do.
-/

namespace Pepita.Sched

variable {T : Type}

/-! ## Who holds the lock -/

/-- What a call holds of the lock. -/
def Point.hold : Point T → Hold
  | .locked _ => .reading
  | .unlocking _ => .reading
  | .extending => .writing
  | .enlisting _ => .writing
  | .releasing _ => .writing
  | _ => .nothing

/-- **The code takes the lock when it is free, and gives back what it holds.** -/
theorem schedulerCode_guarded (T : Type) :
    (schedulerCode T).Guarded SharedScheduler.lock Point.hold := by
  refine ⟨fun call => by cases call <;> rfl, fun _ s p => ?_⟩
  show s.lock.Step p.hold (holdOf Point.hold (s.exec p).2.point) (s.exec p).1.lock
  cases p with
  | checking task =>
      rw [SharedScheduler.exec]
      split_ifs <;> exact .keep _
  | locking p =>
      rw [SharedScheduler.exec]
      split_ifs with hbars
      · exact .keep _
      · exact .lockRead (Bool.eq_false_iff.mpr hbars)
  | locked p =>
      obtain ⟨hstate, hnext⟩ := s.exec_locked p
      rw [hstate, hnext]
      cases (s.sched.lockedStep p).2 <;> exact .keep _
  | unlocking reply => exact .unlockRead
  | adding =>
      rw [SharedScheduler.exec]
      split_ifs with hbars
      · exact .keep _
      · exact .lockWrite (Bool.eq_false_iff.mpr hbars)
  | extending => exact .keep _
  | enlisting id => exact .keep _
  | releasing id => exact .unlockWrite
  | stopping => exact .keep _

/-! ## Workers in range -/

/-- The worker that the call is about to look at exists, when there are `n`. -/
def Locked.InRange (n : Nat) : Locked T → Prop
  | .sizing _ _ i => i < n
  | .taking _ offset => offset < n
  | .measuring _ idx _ => idx < n
  | _ => True

theorem Locked.InRange.mono {p : Locked T} {n m : Nat} (h : p.InRange n) (hnm : n ≤ m) :
    p.InRange m := by
  cases p with
  | sizing task start i => exact Nat.lt_of_lt_of_le h hnm
  | taking thiefIdx offset => exact Nat.lt_of_lt_of_le h hnm
  | measuring thiefIdx idx acc => exact Nat.lt_of_lt_of_le h hnm
  | _ => trivial

/-- The same of a call that has the lock or waits for it. -/
def Point.InRange (n : Nat) : Point T → Prop
  | .locking p => p.InRange n
  | .locked p => p.InRange n
  | _ => True

theorem Point.InRange.mono {p : Point T} {n m : Nat} (h : p.InRange n) (hnm : n ≤ m) :
    p.InRange m := by
  cases p with
  | locking p => exact Locked.InRange.mono h hnm
  | locked p => exact Locked.InRange.mono h hnm
  | _ => trivial

theorem Scheduler.lockedStep_inRange {s : Scheduler T} {p p' : Locked T}
    (h : (s.lockedStep p).2 = .goto p') : p'.InRange s.workers.length := by
  cases p with
  | drawing task | stealing thief | batching thief =>
      rw [lockedStep] at h
      split_ifs at h
      cases h
      trivial
  | scanning task start i | probing thiefIdx offset =>
      rw [lockedStep] at h
      split_ifs at h with hlt hact <;> cases h
      · exact hlt
      · trivial
  | sizing task start i | measuring thiefIdx idx acc =>
      rw [lockedStep] at h
      split at h
      · cases h
        trivial
      · split_ifs at h <;> cases h <;> trivial
  | pushing task target | taking thiefIdx offset =>
      rw [lockedStep] at h
      split at h <;> cases h
      trivial
  | looking thiefIdx idx acc =>
      rw [lockedStep] at h
      split_ifs at h with hlt hact
      · cases h
        exact hlt
      · cases h
        trivial
      · split at h <;> cases h
        trivial
  | numbering task => cases h
  | popping worker => cases h
  | halving victimIdx => cases h
  | deactivating worker => cases h

namespace SharedScheduler

variable {s : SharedScheduler T}

/-- The list of workers changes only under the write lock, and grows. -/
theorem exec_length (s : SharedScheduler T) (p : Point T) :
    (s.exec p).1.sched.workers.length = s.sched.workers.length ∨
      (p = .extending ∧ (s.exec p).1.sched.workers.length = s.sched.workers.length + 1) := by
  cases p with
  | checking task | locking p | adding =>
      rw [exec]
      split_ifs <;> exact .inl rfl
  | locked p =>
      rw [(s.exec_locked p).1]
      exact .inl (s.sched.lockedStep_frame p).length_eq
  | extending =>
      refine .inr ⟨rfl, ?_⟩
      exact List.length_append
  | unlocking reply => exact .inl rfl
  | enlisting id => exact .inl rfl
  | releasing id => exact .inl rfl
  | stopping => exact .inl rfl

theorem exec_inRange {p q : Point T} (hp : p.InRange s.sched.workers.length)
    (h : (s.exec p).2 = .goto q) : q.InRange s.sched.workers.length := by
  cases p with
  | checking task | adding =>
      rw [exec] at h
      split_ifs at h <;> cases h <;> trivial
  | locking p =>
      rw [exec] at h
      split_ifs at h <;> cases h <;> exact hp
  | locked p =>
      rw [(s.exec_locked p).2] at h
      cases hstep : (s.sched.lockedStep p).2 with
      | goto p' =>
          rw [hstep] at h
          cases h
          exact Scheduler.lockedStep_inRange hstep
      | ret reply =>
          rw [hstep] at h
          cases h
          trivial
  | extending =>
      cases h
      trivial
  | enlisting id =>
      cases h
      trivial
  | unlocking reply => cases h
  | releasing id => cases h
  | stopping => cases h

end SharedScheduler

theorem entry_inRange (call : Call T) (n : Nat) : ((schedulerCode T).entry call).InRange n := by
  cases call <;> trivial

/-- The lock is in order, and no call looks at a worker that does not exist. -/
structure Sound (s : Clients (SharedScheduler T) (Point T)) : Prop where
  lock : LockInv SharedScheduler.lock Point.hold s
  inRange : ∀ (c : Nat) (p : Point T), s.clients[c]? = some (some p) →
    p.InRange s.shared.sched.workers.length

theorem Sound.take {s : Clients (SharedScheduler T) (Point T)} (h : Sound s) {c : Nat} {p : Point T}
    (hp : (schedulerCode T).At s c p) : Sound ((schedulerCode T).take () s c p) := by
  refine ⟨(schedulerCode_guarded T).take h.lock () hp, fun c' q hq => ?_⟩
  have hlen : s.shared.sched.workers.length ≤ (s.shared.exec p).1.sched.workers.length := by
    rcases s.shared.exec_length p with heq | ⟨-, heq⟩ <;> omega
  have hat : p.InRange s.shared.sched.workers.length := by
    rcases hp with hp | ⟨-, call, rfl⟩
    · exact h.inRange c p hp
    · exact entry_inRange call _
  refine Point.InRange.mono ?_ hlen
  rcases (schedulerCode T).client_take hq with ⟨-, hnext⟩ | ⟨-, hold⟩
  · exact SharedScheduler.exec_inRange hat hnext
  · exact h.inRange c' q hold

theorem sound_run (numWorkers queueCapacity : UInt64) (clients : Nat)
    (is : List (Unit × Move (Call T))) :
    Sound ((sharedSchedulerMachine T numWorkers queueCapacity clients).run is) := by
  have hlock := (schedulerCode_guarded T).run
    ⟨.withCapacity numWorkers queueCapacity, .free⟩ clients rfl []
  refine (schedulerCode T).run_invariant (I := Sound)
    ⟨.withCapacity numWorkers queueCapacity, .free⟩ clients ⟨hlock, fun c p hp => ?_⟩
    (fun _ s c p h hp => h.take hp) is
  cases List.eq_of_mem_replicate (List.mem_of_getElem? hp)

/-! ## How far a call is from its end -/

/-- How many steps a call takes at most from a point under the lock, the release included, when
there are `n` workers. -/
def Locked.stepsLeft (n : Nat) : Locked T → Nat
  | .drawing _ => 2 * n + 4
  | .scanning _ _ i => 2 * (n - i) + 3
  | .sizing _ _ i => 2 * (n - i) + 2
  | .pushing _ _ => 3
  | .numbering _ => 2
  | .popping _ => 2
  | .stealing _ => 2 * n + 3
  | .probing _ offset => 2 * (n - offset) + 2
  | .taking _ offset => 2 * (n - offset) + 1
  | .batching _ => 2 * n + 4
  | .looking _ idx _ => 2 * (n - idx) + 3
  | .measuring _ idx _ => 2 * (n - idx) + 2
  | .halving _ => 2
  | .deactivating _ => 2

/-- The same at any point, when there are at most `n` workers and the lock is free. -/
def Point.stepsLeft (n : Nat) : Point T → Nat
  | .checking _ => 2 * n + 6
  | .locking p => p.stepsLeft n + 1
  | .locked p => p.stepsLeft n
  | .unlocking _ => 1
  | .adding => 4
  | .extending => 3
  | .enlisting _ => 2
  | .releasing _ => 1
  | .stopping => 1

/-- The steps left of a client, none of which is left to one in no call. -/
def stepsLeft (n : Nat) (client : Option (Point T)) : Nat := client.elim 0 (Point.stepsLeft n)

theorem Locked.stepsLeft_pos (p : Locked T) (n : Nat) : 0 < p.stepsLeft n := by
  cases p <;> simp only [stepsLeft] <;> omega

theorem stepsLeft_eq_zero_iff (n : Nat) (client : Option (Point T)) :
    stepsLeft n client = 0 ↔ client = none := by
  cases client with
  | none => exact ⟨fun _ => rfl, fun _ => rfl⟩
  | some p =>
      refine ⟨fun h => ?_, fun h => by cases h⟩
      cases p with
      | locked p => exact absurd h (p.stepsLeft_pos n).ne'
      | _ => simp [stepsLeft, Point.stepsLeft] at h

theorem Scheduler.stepsLeft_lockedStep {s : Scheduler T} {n : Nat} (hn : s.workers.length ≤ n)
    {p : Locked T} (hp : p.InRange s.workers.length) :
    (s.lockedStep p).2.worth (Locked.stepsLeft n) (fun _ => 1) < p.stepsLeft n := by
  have htwo : ∀ i, i < s.workers.length → 2 * (n - (i + 1)) + 2 = 2 * (n - i) := by
    intro i hi
    omega
  cases p with
  | drawing task | stealing thief | batching thief =>
      rw [lockedStep]
      split_ifs <;> simp only [Progress.worth, Locked.stepsLeft] <;> omega
  | scanning task start i | probing thiefIdx i =>
      rw [lockedStep]
      split_ifs <;> simp only [Progress.worth, Locked.stepsLeft] <;> omega
  | sizing task start i | measuring thiefIdx i acc =>
      have hi := htwo i hp
      rw [lockedStep]
      split
      · simp only [Progress.worth, Locked.stepsLeft]
        omega
      · split_ifs <;> simp only [Progress.worth, Locked.stepsLeft] <;> omega
  | taking thiefIdx i =>
      have hi := htwo i hp
      rw [lockedStep]
      split <;> simp only [Progress.worth, Locked.stepsLeft] <;> omega
  | pushing task target =>
      rw [lockedStep]
      split <;> simp [Progress.worth, Locked.stepsLeft]
  | looking thiefIdx i acc =>
      rw [lockedStep]
      split_ifs
      · simp only [Progress.worth, Locked.stepsLeft]
        omega
      · simp only [Progress.worth, Locked.stepsLeft]
        omega
      · split <;> simp only [Progress.worth, Locked.stepsLeft] <;> omega
  | numbering task => exact Nat.one_lt_two
  | popping worker => exact Nat.one_lt_two
  | halving victimIdx => exact Nat.one_lt_two
  | deactivating worker => exact Nat.one_lt_two

/-- The call waits for the lock. -/
def Point.blocked (s : SharedScheduler T) : Point T → Bool
  | .locking _ => s.lock.barsReaders
  | .adding => s.lock.barsWriters
  | _ => false

/-- **A step of a call that does not wait brings it nearer to its end.** -/
theorem SharedScheduler.stepsLeft_exec {s : SharedScheduler T} {n : Nat}
    (hn : s.sched.workers.length ≤ n) {p : Point T} (hp : p.InRange s.sched.workers.length)
    (hgo : p.blocked s = false) : stepsLeft n (s.exec p).2.point < p.stepsLeft n := by
  cases p with
  | checking task =>
      rw [exec]
      split_ifs <;> simp [stepsLeft, Progress.point, Point.stepsLeft, Locked.stepsLeft]
  | locking p =>
      rw [exec, if_neg (by simpa [Point.blocked] using hgo)]
      exact Nat.lt_succ_self _
  | locked p =>
      have hlt := Scheduler.stepsLeft_lockedStep hn hp
      rw [(s.exec_locked p).2]
      cases hstep : (s.sched.lockedStep p).2 with
      | goto p' =>
          rw [hstep] at hlt
          exact hlt
      | ret reply =>
          rw [hstep] at hlt
          exact hlt
  | unlocking reply => exact Nat.one_pos
  | adding =>
      rw [exec, if_neg (by simpa [Point.blocked] using hgo)]
      exact Nat.lt_succ_self 3
  | extending => exact Nat.lt_succ_self 2
  | enlisting id => exact Nat.lt_succ_self 1
  | releasing id => exact Nat.one_pos
  | stopping => exact Nat.one_pos

/-! ## Calls can be finished -/

/-- The call will add a worker. -/
def Point.grows : Point T → Bool
  | .adding => true
  | .extending => true
  | _ => false

/-- How many workers the calls under way will add. -/
def growing (clients : List (Option (Point T))) : Nat :=
  (clients.map fun client => (client.any Point.grows).toNat).sum

theorem SharedScheduler.exec_grows (s : SharedScheduler T) (p : Point T) :
    (s.exec p).1.sched.workers.length + ((s.exec p).2.point.any Point.grows).toNat
      = s.sched.workers.length + p.grows.toNat := by
  cases p with
  | checking task | locking p | adding =>
      rw [exec]
      split_ifs <;> rfl
  | locked p =>
      have hlen := (s.sched.lockedStep_frame p).length_eq
      obtain ⟨hstate, hnext⟩ := s.exec_locked p
      rw [hstate, hnext]
      cases (s.sched.lockedStep p).2 <;> exact congrArg (· + 0) hlen
  | extending =>
      show (s.sched.workers ++ [_]).length + 0 = s.sched.workers.length + 1
      rw [List.length_append]
      rfl
  | unlocking reply => rfl
  | enlisting id => rfl
  | releasing id => rfl
  | stopping => rfl

/-- At most `n` workers, even when all calls under way are over. -/
structure Bounded (n : Nat) (s : Clients (SharedScheduler T) (Point T)) : Prop where
  sound : Sound s
  length_le : s.shared.sched.workers.length + growing s.clients ≤ n

namespace Bounded

variable {n : Nat} {s : Clients (SharedScheduler T) (Point T)}

theorem take (h : Bounded n s) {c : Nat} {p : Point T} (hp : s.clients[c]? = some (some p)) :
    Bounded n ((schedulerCode T).take () s c p) := by
  refine ⟨h.sound.take (.inl hp), ?_⟩
  have hmove := (schedulerCode T).sum_set (fun client => (client.any Point.grows).toNat) () p hp
  have hexec := s.shared.exec_grows p
  have hle := h.length_le
  change growing _ + p.grows.toNat = growing _ + ((s.shared.exec p).2.point.any Point.grows).toNat
    at hmove
  change (s.shared.exec p).1.sched.workers.length + _ ≤ n
  omega

/-- Who holds the lock does not wait. -/
theorem not_blocked {p : Point T} (h : p.hold ≠ .nothing) : p.blocked s.shared = false := by
  cases p with
  | locking p => exact absurd rfl h
  | adding => exact absurd rfl h
  | _ => rfl

/-- While some client is in a call, some client in a call does not wait. -/
theorem exists_unblocked (h : Sound s) {c : Nat} {p : Point T}
    (hp : s.clients[c]? = some (some p)) :
    ∃ (c' : Nat) (p' : Point T), s.clients[c']? = some (some p') ∧ p'.blocked s.shared = false := by
  by_cases hblocked : p.blocked s.shared = true
  · have hbars : s.shared.lock.barsWriters = true := by
      cases p with
      | locking p => exact RwLock.barsWriters_of_barsReaders hblocked
      | adding => exact hblocked
      | _ => cases hblocked
    obtain ⟨c', p', hp', hholds⟩ := h.lock.exists_holder hbars
    exact ⟨c', p', hp', not_blocked hholds⟩
  · exact ⟨c, p, hp, Bool.eq_false_iff.mpr hblocked⟩

theorem gets_on (h : Bounded n s) {c : Nat} {p : Point T} (hp : s.clients[c]? = some (some p)) :
    ∃ (c' : Nat) (p' : Point T), s.clients[c']? = some (some p') ∧
      stepsLeft n (s.shared.exec p').2.point < stepsLeft n (some p') := by
  obtain ⟨c', p', hp', hgo⟩ := exists_unblocked h.sound hp
  have hle := h.length_le
  exact ⟨c', p', hp', SharedScheduler.stepsLeft_exec (by omega) (h.sound.inRange c' p' hp') hgo⟩

end Bounded

/-- **The lock excludes and does not block.** At every moment of every interleaving, a client inside
the critical section of `add_worker` is the only one that holds the lock on the list of workers; and
whatever has happened, the calls under way can all be finished. -/
theorem scheduler_never_stuck (numWorkers queueCapacity : UInt64) (clients : Nat)
    (is : List (Unit × Move (Call T))) :
    let M := sharedSchedulerMachine T numWorkers queueCapacity clients
    (∀ (c c' : Nat) (p p' : Point T), (M.run is).clients[c]? = some (some p) → p.hold = .writing →
      (M.run is).clients[c']? = some (some p') → c' ≠ c → p'.hold = .nothing) ∧
    ∃ cs : List Nat, ∀ x ∈ (M.run (is ++ cs.map fun c => ((), .advance c))).clients, x = none := by
  intro M
  have hsound : Sound (M.run is) := sound_run numWorkers queueCapacity clients is
  constructor
  · intro c c' p p' hp hw hp' hne
    exact hsound.lock.alone hp hw hp' hne
  · obtain ⟨cs, hcs⟩ := (schedulerCode T).exists_finish
      (I := Bounded ((M.run is).shared.sched.workers.length + growing (M.run is).clients)) ()
      (fun s c p h hp => h.take hp) (fun s c p h hp => h.gets_on hp)
      ⟨.withCapacity numWorkers queueCapacity, .free⟩ clients _ (M.run is) (Nat.le_refl _)
      ⟨hsound, Nat.le_refl _⟩
    refine ⟨cs, ?_⟩
    rw [M.run_append]
    exact hcs

/-! ## Calls under the lock return -/

/-- A call keeps the read lock until it returns. -/
theorem SharedScheduler.exec_reading {s : SharedScheduler T} {p q : Point T}
    (hp : p.hold = .reading) (h : (s.exec p).2 = .goto q) : q.hold = .reading := by
  cases p with
  | locked p =>
      rw [(s.exec_locked p).2] at h
      cases hstep : (s.sched.lockedStep p).2 with
      | goto p' =>
          rw [hstep] at h
          cases h
          rfl
      | ret reply =>
          rw [hstep] at h
          cases h
          rfl
  | unlocking reply => cases h
  | _ => cases hp

/-- Client `c` is in no call, or it has the read lock, and there are `n` workers. -/
structure Reading (c n : Nat) (s : Clients (SharedScheduler T) (Point T)) : Prop where
  sound : Sound s
  client : ∀ p, s.clients[c]? = some (some p) →
    p.hold = .reading ∧ s.shared.sched.workers.length = n

theorem Reading.take {c n : Nat} {s : Clients (SharedScheduler T) (Point T)} (h : Reading c n s)
    {c' : Nat} {p : Point T} (hp : (schedulerCode T).At s c' p)
    (hown : c' = c → s.clients[c]? = some (some p)) :
    Reading c n ((schedulerCode T).take () s c' p) := by
  refine ⟨h.sound.take hp, fun q hq => ?_⟩
  rcases (schedulerCode T).client_take hq with ⟨rfl, hnext⟩ | ⟨-, hold⟩
  · obtain ⟨hreads, hlen⟩ := h.client p (hown rfl)
    refine ⟨SharedScheduler.exec_reading hreads hnext, ?_⟩
    rcases s.shared.exec_length p with heq | ⟨rfl, -⟩
    · exact heq.trans hlen
    · cases hreads
  · obtain ⟨hreads, hlen⟩ := h.client q hold
    refine ⟨hreads, ?_⟩
    rcases s.shared.exec_length p with heq | ⟨rfl, -⟩
    · exact heq.trans hlen
    · -- nobody writes while the client reads
      rcases hp with hp | ⟨-, call, hcall⟩
      · have hzero := h.sound.lock.exclusive (h.sound.lock.writer_eq_true hp rfl)
        have hpos := h.sound.lock.readers_pos hold hreads
        omega
      · cases call <;> cases hcall

theorem Point.stepsLeft_le {n : Nat} {p : Point T} (h : p.hold = .reading) :
    p.stepsLeft n ≤ 2 * n + 4 := by
  cases p with
  | locked p => cases p <;> simp only [stepsLeft, Locked.stepsLeft] <;> omega
  | unlocking reply =>
      show 1 ≤ 2 * n + 4
      omega
  | _ => cases h

/-- **A call that has the read lock returns.** However the other clients go on, and whoever waits for
the lock: with `n` workers, `2n + 4` further steps of its own are enough. -/
theorem returns_under_lock (numWorkers queueCapacity : UInt64) (clients : Nat)
    (is js : List (Unit × Move (Call T))) (c : Nat) (p : Point T) :
    let M := sharedSchedulerMachine T numWorkers queueCapacity clients
    let n := (M.run is).shared.sched.workers.length
    (M.run is).clients[c]? = some (some p) → p.hold = .reading →
      (∀ j ∈ js, ∀ call, j.2 ≠ .invoke c call) →
      2 * n + 4 ≤ js.countP (fun j => j.2.advances c) →
      (M.run (is ++ js)).clients[c]? = some none := by
  intro M n hp hreads hno hle
  have hreading : Reading c n (M.run is) := by
    refine ⟨sound_run numWorkers queueCapacity clients is, fun q hq => ?_⟩
    rw [hp] at hq
    cases hq
    exact ⟨hreads, rfl⟩
  rw [M.run_append]
  refine (schedulerCode T).returns_within (I := Reading c n) (μ := stepsLeft n)
    (stepsLeft_eq_zero_iff n) (fun _ s c' q h hq hown => h.take hq hown) ?_
    ⟨.withCapacity numWorkers queueCapacity, .free⟩ clients js (M.run is) (some p) hreading hp hno
    ((Point.stepsLeft_le hreads).trans hle)
  intro _ s q h hq
  obtain ⟨hr, hlen⟩ := h.client q hq
  exact SharedScheduler.stepsLeft_exec hlen.le (h.sound.inRange c q hq)
    (Bounded.not_blocked (by rw [hr]; simp))

/-- While a `submit` is under the lock, an `add_worker` waits. -/
theorem returns_under_lock_submit :
    let M := sharedSchedulerMachine Nat 1 1 2
    let is : List (Unit × Move (Call Nat)) := [((), .invoke 0 (.submit 7)), ((), .advance 0)]
    let js : List (Unit × Move (Call Nat)) :=
      [((), .invoke 1 .addWorker), ((), .advance 1)] ++ List.replicate 6 ((), .advance 0)
    (M.run is).clients[0]? = some (some (.locked (.drawing 7))) ∧
    (M.run (is ++ js)).clients[0]? = some none := by
  intro M is js
  have hp : (M.run is).clients[0]? = some (some (.locked (.drawing 7))) := by decide +kernel
  have hno : ∀ j ∈ js, ∀ call, j.2 ≠ .invoke 0 call := by
    intro j hj call
    rcases List.mem_append.mp hj with hj | hj
    · rcases List.mem_pair.mp hj with rfl | rfl <;> simp
    · rw [List.eq_of_mem_replicate hj]
      simp
  have hreturns : ∀ is js : List (Unit × Move (Call Nat)),
      (M.run is).clients[0]? = some (some (.locked (.drawing 7))) →
      (∀ j ∈ js, ∀ call, j.2 ≠ .invoke 0 call) →
      2 * (M.run is).shared.sched.workers.length + 4 ≤ js.countP (fun j => j.2.advances 0) →
      (M.run (is ++ js)).clients[0]? = some none :=
    fun is js hp hno hle => returns_under_lock 1 1 2 is js 0 _ hp rfl hno hle
  exact ⟨hp, hreturns is js hp hno (by decide +kernel)⟩

end Pepita.Sched
