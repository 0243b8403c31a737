import Pepita.Lib.History
import Pepita.Lib.Machine

set_option autoImplicit false

/-! # The failure detector

`FailureDetector` of `fault.rs`. A worker is registered and sends heartbeats; `update_all_statuses`
looks at every record and suspects a worker whose last heartbeat lies too far back, or whose tasks
have failed too often in a row. A heartbeat or a registration clears the suspicion, and nothing
else does.

So `is_available` can be read off the history of the calls (`availability_justified`), as long as
`consecutive_failures` does not wrap. But the time of the registration is not recorded: a worker
that dies before its first heartbeat is not detected by the timeout (`detected_iff`).
-/

namespace Pepita.Fault

/-! ## The model

Instants and durations are nanoseconds; `elapsed()` of an instant in the future is zero. The
counters wrap, as in a release build. -/

/-- `WorkerId`. -/
abbrev WorkerId := UInt32

/-- `HealthStatus`. -/
inductive HealthStatus where
  | healthy
  | suspected
  | failed
  | unknown
  deriving DecidableEq, Repr

/-- `HealthStatus::is_available`. -/
def HealthStatus.isAvailable : HealthStatus → Bool
  | .healthy => true
  | .unknown => true
  | _ => false

/-- `WorkerHealth`. -/
structure WorkerHealth where
  workerId : WorkerId
  status : HealthStatus
  lastHeartbeat : Option Nat
  consecutiveFailures : UInt32
  tasksCompleted : UInt64
  tasksFailed : UInt64
  deriving DecidableEq, Repr

namespace WorkerHealth

/-- `WorkerHealth::new`. -/
def new (workerId : WorkerId) : WorkerHealth := ⟨workerId, .unknown, none, 0, 0, 0⟩

/-- `WorkerHealth::record_heartbeat`. -/
def recordHeartbeat (w : WorkerHealth) (now : Nat) : WorkerHealth :=
  { w with lastHeartbeat := some now, status := .healthy, consecutiveFailures := 0 }

/-- `WorkerHealth::record_task_completion`. -/
def recordTaskCompletion (w : WorkerHealth) (success : Bool) : WorkerHealth :=
  if success then { w with tasksCompleted := w.tasksCompleted + 1, consecutiveFailures := 0 }
  else
    { w with
      tasksFailed := w.tasksFailed + 1
      consecutiveFailures := w.consecutiveFailures + 1 }

/-- `WorkerHealth::update_status`: first the heartbeat, then the failures. -/
def updateStatus (w : WorkerHealth) (now heartbeatTimeout : Nat) (failureThreshold : UInt32) :
    WorkerHealth :=
  let w :=
    match w.lastHeartbeat with
    | some last =>
        if now - last > heartbeatTimeout * 3 then { w with status := .failed }
        else if now - last > heartbeatTimeout then { w with status := .suspected }
        else w
    | none => w
  if failureThreshold ≤ w.consecutiveFailures then { w with status := .failed } else w

end WorkerHealth

/-- What a detector is configured with. `heartbeat_timeout * 3` has to be a `Duration`, of less than
`2 ^ 64` seconds. -/
structure DetectorConfig where
  heartbeatTimeout : Nat
  failureThreshold : UInt32
  representable : heartbeatTimeout * 3 < 2 ^ 64 * 10 ^ 9

/-- `FailureDetector`, with its records by worker. -/
structure FailureDetector where
  workers : WorkerId → Option WorkerHealth
  config : DetectorConfig

namespace FailureDetector

/-- `FailureDetector::with_config`. -/
def withConfig (config : DetectorConfig) : FailureDetector := ⟨fun _ => none, config⟩

/-- `register_worker`. -/
def registerWorker (d : FailureDetector) (workerId : WorkerId) : FailureDetector :=
  { d with workers := Function.update d.workers workerId (some (.new workerId)) }

/-- `deregister_worker`. -/
def deregisterWorker (d : FailureDetector) (workerId : WorkerId) : FailureDetector :=
  { d with workers := Function.update d.workers workerId none }

/-- `record_heartbeat`. A worker without a record gets one. -/
def recordHeartbeat (d : FailureDetector) (now : Nat) (workerId : WorkerId) : FailureDetector :=
  { d with
    workers := Function.update d.workers workerId
      (some (((d.workers workerId).getD (.new workerId)).recordHeartbeat now)) }

/-- `record_task_result`. -/
def recordTaskResult (d : FailureDetector) (workerId : WorkerId) (success : Bool) :
    FailureDetector :=
  { d with
    workers := Function.update d.workers workerId
      ((d.workers workerId).map fun health => health.recordTaskCompletion success) }

/-- `get_status`. -/
def getStatus (d : FailureDetector) (workerId : WorkerId) : HealthStatus :=
  ((d.workers workerId).map WorkerHealth.status).getD .unknown

/-- `update_all_statuses`. -/
def updateAllStatuses (d : FailureDetector) (now : Nat) : FailureDetector :=
  { d with
    workers := fun workerId => (d.workers workerId).map fun health =>
      health.updateStatus now d.config.heartbeatTimeout d.config.failureThreshold }

/-- `is_available`. -/
def isAvailable (d : FailureDetector) (workerId : WorkerId) : Bool :=
  (d.getStatus workerId).isAvailable

/-- The calls that change a detector. -/
inductive Call where
  | registerWorker (workerId : WorkerId)
  | deregisterWorker (workerId : WorkerId)
  | recordHeartbeat (workerId : WorkerId)
  | recordTaskResult (workerId : WorkerId) (success : Bool)
  | updateAllStatuses
  deriving DecidableEq, Repr

/-- One call at the time `now`. -/
def call (d : FailureDetector) (now : Nat) : Call → FailureDetector
  | .registerWorker w => d.registerWorker w
  | .deregisterWorker w => d.deregisterWorker w
  | .recordHeartbeat w => d.recordHeartbeat now w
  | .recordTaskResult w success => d.recordTaskResult w success
  | .updateAllStatuses => d.updateAllStatuses now

/-- A fresh detector in use. The inputs are calls with the time they are made at. -/
def machine (config : DetectorConfig) : Machine FailureDetector (Nat × Call) Unit where
  init := .withConfig config
  step d := fun (now, c) => (d.call now c, ())

/-! ## The history of a worker -/

/-- A call of the history with its time. -/
abbrev Event := Nat × Call

section History

variable (w : WorkerId)

/-- A registration or a heartbeat of `w`. -/
def isSign (e : Event) : Bool := e.2 == .registerWorker w || e.2 == .recordHeartbeat w

/-- A call that decides whether `w` is registered. -/
def isMembership (e : Event) : Bool := isSign w e || e.2 == .deregisterWorker w

/-- A call that ends a row of failures of `w`. -/
def endsFailures (e : Event) : Bool := isSign w e || e.2 == .recordTaskResult w true

/-- `w` is registered after the history `h`: it has been, or has sent a heartbeat, and has not been
deregistered since. -/
def Registered (h : List Event) : Prop :=
  ∃ e, History.last (isMembership w) h = some e ∧ isSign w e = true

/-- The failures of `w` up to now that no success, heartbeat or registration has interrupted. -/
def failureRun (h : List Event) : Nat :=
  (History.since (endsFailures w) h).countP fun e => e.2 == .recordTaskResult w false

/-- A heartbeat of `w` since its registration is overdue at the time `now`. -/
def Overdue (timeout : Nat) (h : List Event) (now : Nat) : Prop :=
  ∃ last, History.last (isSign w) h = some (last, .recordHeartbeat w) ∧ timeout < now - last

/-- An update at the time `now` had a reason to suspect `w`. -/
def Suspicious (config : DetectorConfig) (h : List Event) (now : Nat) : Prop :=
  Overdue w config.heartbeatTimeout h now ∨ config.failureThreshold.toNat ≤ failureRun w h

/-- An update since the last registration or heartbeat of `w` had a reason to suspect it. -/
def SuspectedSince (config : DetectorConfig) (h : List Event) : Prop :=
  ∃ pre now post, h = pre ++ (now, .updateAllStatuses) :: post ∧
    (∀ e ∈ post, isSign w e = false) ∧ Suspicious w config pre now

/-- That `w` is not available is justified by the history. -/
def Justified (config : DetectorConfig) (h : List Event) : Prop :=
  Registered w h ∧ SuspectedSince w config h

/-! ### One more call -/

theorem registered_snoc (h : List Event) (e : Event) :
    Registered w (h ++ [e]) ↔
      if isMembership w e then isSign w e = true else Registered w h := by
  unfold Registered
  rw [History.last_snoc]
  split_ifs
  · simp
  · rfl

theorem failureRun_snoc (h : List Event) (e : Event) :
    failureRun w (h ++ [e])
      = if endsFailures w e then 0
        else failureRun w h + (e.2 == Call.recordTaskResult w false).toNat := by
  unfold failureRun
  rw [History.since_snoc]
  split_ifs
  · rfl
  · rw [List.countP_append, List.countP_singleton]
    cases e.2 == Call.recordTaskResult w false <;> rfl

theorem suspectedSince_snoc (config : DetectorConfig) (h : List Event) (e : Event) :
    SuspectedSince w config (h ++ [e]) ↔
      (isSign w e = false ∧ SuspectedSince w config h) ∨
      (e.2 = .updateAllStatuses ∧ Suspicious w config h e.1) := by
  constructor
  · rintro ⟨pre, now, post, heq, hpost, hsus⟩
    rcases List.eq_nil_or_concat post with rfl | ⟨post', e', rfl⟩
    · -- the update is the last call
      obtain ⟨rfl, rfl⟩ := List.append_inj' heq rfl |>.imp_right fun h => List.singleton_inj.mp h
      exact Or.inr ⟨rfl, hsus⟩
    · rw [List.concat_eq_append] at heq hpost
      have hsplit : h ++ [e] = (pre ++ (now, .updateAllStatuses) :: post') ++ [e'] := by
        rw [heq]
        simp
      obtain ⟨rfl, hlast⟩ := List.append_inj' hsplit rfl
      have he : e = e' := List.singleton_inj.mp hlast
      refine Or.inl ⟨?_, pre, now, post', rfl, fun x hx => ?_, hsus⟩
      · rw [he]
        exact hpost e' (by simp)
      · exact hpost x (by simp [hx])
  · rintro (⟨hsign, pre, now, post, rfl, hpost, hsus⟩ | ⟨hupd, hsus⟩)
    · refine ⟨pre, now, post ++ [e], by simp, fun x hx => ?_, hsus⟩
      rcases List.mem_append.mp hx with hx | hx
      · exact hpost x hx
      · rw [List.mem_singleton.mp hx]
        exact hsign
    · refine ⟨h, e.1, [], ?_, by simp, hsus⟩
      rw [← hupd]

end History

/-! ## One call -/

/-- What an update does to the availability of a worker. -/
theorem updateStatus_isAvailable (r : WorkerHealth) (now timeout : Nat) (threshold : UInt32) :
    (r.updateStatus now timeout threshold).status.isAvailable = false ↔
      r.status.isAvailable = false ∨
      (∃ last, r.lastHeartbeat = some last ∧ timeout < now - last) ∨
      threshold ≤ r.consecutiveFailures := by
  unfold WorkerHealth.updateStatus
  cases hlast : r.lastHeartbeat with
  | none =>
      simp only
      split_ifs with hf
      · simp [HealthStatus.isAvailable, hf]
      · simp [hf]
  | some last =>
      have hmul : timeout ≤ timeout * 3 := Nat.le_mul_of_pos_right _ (by decide)
      by_cases h1 : timeout < now - last
      · -- overdue: failed or at least suspected, whatever the failures say
        refine iff_of_true ?_ (Or.inr (Or.inl ⟨last, rfl, h1⟩))
        simp only [gt_iff_lt, h1, if_true]
        split_ifs <;> rfl
      · have h3 : ¬ timeout * 3 < now - last := fun h => h1 (Nat.lt_of_le_of_lt hmul h)
        simp only [gt_iff_lt, h1, h3, if_false]
        split_ifs with hf
        · simp [HealthStatus.isAvailable, hf]
        · simp [hf, h1]

theorem updateStatus_frame (r : WorkerHealth) (now timeout : Nat) (threshold : UInt32) :
    (r.updateStatus now timeout threshold).lastHeartbeat = r.lastHeartbeat ∧
    (r.updateStatus now timeout threshold).consecutiveFailures = r.consecutiveFailures := by
  unfold WorkerHealth.updateStatus
  simp only
  split
  · split_ifs <;> exact ⟨rfl, rfl⟩
  · split_ifs <;> exact ⟨rfl, rfl⟩

theorem registerWorker_self (d : FailureDetector) (w : WorkerId) :
    (d.registerWorker w).workers w = some (.new w) := Function.update_self _ _ _

theorem deregisterWorker_self (d : FailureDetector) (w : WorkerId) :
    (d.deregisterWorker w).workers w = none := Function.update_self _ _ _

theorem recordHeartbeat_self (d : FailureDetector) (now : Nat) (w : WorkerId) :
    (d.recordHeartbeat now w).workers w
      = some (((d.workers w).getD (.new w)).recordHeartbeat now) := Function.update_self _ _ _

theorem recordTaskResult_self (d : FailureDetector) (w : WorkerId) (success : Bool) :
    (d.recordTaskResult w success).workers w
      = (d.workers w).map fun r => r.recordTaskCompletion success := Function.update_self _ _ _

/-- The call is about another worker. -/
def Unrelated (w : WorkerId) (c : Call) : Prop :=
  c ≠ .registerWorker w ∧ c ≠ .deregisterWorker w ∧ c ≠ .recordHeartbeat w ∧
  (∀ success, c ≠ .recordTaskResult w success) ∧ c ≠ .updateAllStatuses

theorem call_of_unrelated (d : FailureDetector) (now : Nat) {w : WorkerId} {c : Call}
    (h : Unrelated w c) : (d.call now c).workers w = d.workers w := by
  obtain ⟨h1, h2, h3, h4, h5⟩ := h
  cases c with
  | registerWorker v => exact Function.update_of_ne (fun heq => h1 (by rw [heq])) _ _
  | deregisterWorker v => exact Function.update_of_ne (fun heq => h2 (by rw [heq])) _ _
  | recordHeartbeat v => exact Function.update_of_ne (fun heq => h3 (by rw [heq])) _ _
  | recordTaskResult v success =>
      exact Function.update_of_ne (fun heq => h4 success (by rw [heq])) _ _
  | updateAllStatuses => exact absurd rfl h5

theorem events_of_unrelated {w : WorkerId} {e : Event} (h : Unrelated w e.2) :
    isSign w e = false ∧ isMembership w e = false ∧ endsFailures w e = false ∧
    (e.2 == Call.recordTaskResult w false) = false := by
  obtain ⟨h1, h2, h3, h4, -⟩ := h
  have hsign : isSign w e = false := by simp [isSign, h1, h3]
  exact ⟨hsign, by simp [isMembership, hsign, h2], by simp [endsFailures, hsign, h4 true],
    by simp [h4 false]⟩

/-- The calls that concern a worker, and the others. -/
theorem call_cases (w : WorkerId) (c : Call) :
    c = .registerWorker w ∨ c = .deregisterWorker w ∨ c = .recordHeartbeat w ∨
    (∃ success, c = .recordTaskResult w success) ∨ c = .updateAllStatuses ∨ Unrelated w c := by
  cases c with
  | registerWorker v => by_cases hv : v = w <;> simp [hv, Unrelated]
  | deregisterWorker v => by_cases hv : v = w <;> simp [hv, Unrelated]
  | recordHeartbeat v => by_cases hv : v = w <;> simp [hv, Unrelated]
  | recordTaskResult v success => by_cases hv : v = w <;> simp [hv, Unrelated]
  | updateAllStatuses => simp

/-- How the record of a worker reflects the history. -/
structure Tracks (config : DetectorConfig) (w : WorkerId) (h : List Event)
    (record : Option WorkerHealth) : Prop where
  registered : record.isSome = true ↔ Registered w h
  heartbeat : ∀ r ∈ record, ∀ t,
    r.lastHeartbeat = some t ↔ History.last (isSign w) h = some (t, .recordHeartbeat w)
  failures : ∀ r ∈ record, r.consecutiveFailures.toNat = failureRun w h
  suspected : ∀ r ∈ record, r.status.isAvailable = false ↔ SuspectedSince w config h

section Step

variable {config : DetectorConfig} {w : WorkerId} {h : List Event} {record : Option WorkerHealth}

/-- A registration or a heartbeat starts the record over: nothing before it counts. -/
theorem Tracks.sign (config : DetectorConfig) (h : List Event) {e : Event} (he : isSign w e = true)
    {r : WorkerHealth} (hbeat : ∀ t, r.lastHeartbeat = some t ↔ e = (t, .recordHeartbeat w))
    (hfailures : r.consecutiveFailures = 0) (hup : r.status.isAvailable = true) :
    Tracks config w (h ++ [e]) (some r) := by
  refine ⟨?_, ?_, ?_, ?_⟩
  · rw [registered_snoc, if_pos (by simp [isMembership, he])]
    simp [he]
  · rintro _ ⟨⟩ t
    rw [History.last_snoc, if_pos he, Option.some_inj]
    exact hbeat t
  · rintro _ ⟨⟩
    rw [failureRun_snoc, if_pos (by simp [endsFailures, he]), hfailures]
    rfl
  · rintro _ ⟨⟩
    have hupd : e.2 ≠ .updateAllStatuses := by
      intro heq
      simp [isSign, heq] at he
    rw [suspectedSince_snoc, he, hup]
    simp [hupd]

theorem Tracks.register (config : DetectorConfig) (w : WorkerId) (h : List Event) (now : Nat) :
    Tracks config w (h ++ [(now, .registerWorker w)]) (some (.new w)) := by
  apply Tracks.sign
  · simp [isSign]
  · simp [WorkerHealth.new]
  · rfl
  · rfl

theorem Tracks.beat (config : DetectorConfig) (w : WorkerId) (h : List Event) (now : Nat)
    (r₀ : WorkerHealth) :
    Tracks config w (h ++ [(now, .recordHeartbeat w)]) (some (r₀.recordHeartbeat now)) := by
  apply Tracks.sign
  · simp [isSign]
  · simp [WorkerHealth.recordHeartbeat]
  · rfl
  · rfl

theorem Tracks.deregister (config : DetectorConfig) (w : WorkerId) (h : List Event) (now : Nat) :
    Tracks config w (h ++ [(now, .deregisterWorker w)]) none := by
  refine ⟨?_, ?_, ?_, ?_⟩
  · rw [registered_snoc, if_pos (by simp [isMembership])]
    simp [isSign]
  · rintro r ⟨⟩
  · rintro r ⟨⟩
  · rintro r ⟨⟩

theorem Tracks.update (hr : Tracks config w h record) (now : Nat) :
    Tracks config w (h ++ [(now, .updateAllStatuses)])
      (record.map fun r => r.updateStatus now config.heartbeatTimeout config.failureThreshold) := by
  have hsign : isSign w (now, .updateAllStatuses) = false := by simp [isSign]
  refine ⟨?_, ?_, ?_, ?_⟩
  · rw [registered_snoc, if_neg (by simp [isMembership, hsign]), Option.isSome_map]
    exact hr.registered
  · intro r' hr' t
    obtain ⟨r, hmem, rfl⟩ := Option.mem_map.mp hr'
    rw [History.last_snoc, if_neg (by simp [hsign]), (updateStatus_frame r _ _ _).1]
    exact hr.heartbeat r hmem t
  · intro r' hr'
    obtain ⟨r, hmem, rfl⟩ := Option.mem_map.mp hr'
    rw [failureRun_snoc, if_neg (by simp [endsFailures, hsign]), (updateStatus_frame r _ _ _).2]
    exact hr.failures r hmem
  · intro r' hr'
    obtain ⟨r, hmem, rfl⟩ := Option.mem_map.mp hr'
    rw [updateStatus_isAvailable, suspectedSince_snoc, hr.suspected r hmem, hsign, Suspicious,
      Overdue, UInt32.le_iff_toNat_le, hr.failures r hmem]
    simp only [hr.heartbeat r hmem, true_and]

theorem Tracks.task (hr : Tracks config w h record) (now : Nat) (success : Bool)
    (hwrap : success = false → ∀ r ∈ record, r.consecutiveFailures.toNat + 1 < 2 ^ 32) :
    Tracks config w (h ++ [(now, .recordTaskResult w success)])
      (record.map fun r => r.recordTaskCompletion success) := by
  have hsign : isSign w (now, .recordTaskResult w success) = false := by simp [isSign]
  refine ⟨?_, ?_, ?_, ?_⟩
  · rw [registered_snoc, if_neg (by simp [isMembership, hsign]), Option.isSome_map]
    exact hr.registered
  · intro r' hr' t
    obtain ⟨r, hmem, rfl⟩ := Option.mem_map.mp hr'
    rw [History.last_snoc, if_neg (by simp [hsign]), ← hr.heartbeat r hmem t]
    cases success <;> rfl
  · intro r' hr'
    obtain ⟨r, hmem, rfl⟩ := Option.mem_map.mp hr'
    rw [failureRun_snoc]
    cases success with
    | true =>
        rw [if_pos (by simp [endsFailures])]
        rfl
    | false =>
        have hlt := hwrap rfl r hmem
        have hone : (1 : UInt32).toNat = 1 := rfl
        rw [if_neg (by simp [endsFailures, isSign]), ← hr.failures r hmem]
        show (r.consecutiveFailures + 1).toNat = _
        rw [UInt32.toNat_add, hone, Nat.mod_eq_of_lt hlt]
        simp
  · intro r' hr'
    obtain ⟨r, hmem, rfl⟩ := Option.mem_map.mp hr'
    rw [suspectedSince_snoc, hsign, ← hr.suspected r hmem]
    cases success <;> simp [WorkerHealth.recordTaskCompletion]

theorem Tracks.unrelated (hr : Tracks config w h record) {e : Event} (he : Unrelated w e.2) :
    Tracks config w (h ++ [e]) record := by
  obtain ⟨hsign, hmember, hends, hfail⟩ := events_of_unrelated he
  refine ⟨?_, ?_, ?_, ?_⟩
  · rw [registered_snoc, if_neg (by simp [hmember])]
    exact hr.registered
  · intro r hmem t
    rw [History.last_snoc, if_neg (by simp [hsign])]
    exact hr.heartbeat r hmem t
  · intro r hmem
    rw [failureRun_snoc, if_neg (by simp [hends]), hfail]
    exact hr.failures r hmem
  · intro r hmem
    rw [suspectedSince_snoc, hsign, hr.suspected r hmem]
    simp [he.2.2.2.2]

end Step

/-! ## Availability -/

/-- The call does not wrap a counter of failures in a row. -/
def NoWrap (d : FailureDetector) (i : Nat × Call) : Prop :=
  ∀ w, i.2 = .recordTaskResult w false → ∀ r ∈ d.workers w, r.consecutiveFailures.toNat + 1 < 2 ^ 32

/-- **One call** keeps every record true to the history. -/
theorem tracks_call {config : DetectorConfig} {h : List Event} {d : FailureDetector}
    (hconf : d.config = config) (hd : ∀ w, Tracks config w h (d.workers w)) (i : Nat × Call)
    (hi : d.NoWrap i) (w : WorkerId) : Tracks config w (h ++ [i]) ((d.call i.1 i.2).workers w) := by
  obtain ⟨now, c⟩ := i
  rcases call_cases w c with rfl | rfl | rfl | ⟨success, rfl⟩ | rfl | hother
  · show Tracks config w _ ((d.registerWorker w).workers w)
    rw [registerWorker_self]
    exact .register config w h now
  · show Tracks config w _ ((d.deregisterWorker w).workers w)
    rw [deregisterWorker_self]
    exact .deregister config w h now
  · show Tracks config w _ ((d.recordHeartbeat now w).workers w)
    rw [recordHeartbeat_self]
    exact .beat config w h now _
  · show Tracks config w _ ((d.recordTaskResult w success).workers w)
    rw [recordTaskResult_self]
    exact (hd w).task now success fun hs => hi w (by rw [hs])
  · show Tracks config w _ ((d.workers w).map fun r =>
      r.updateStatus now d.config.heartbeatTimeout d.config.failureThreshold)
    rw [hconf]
    exact (hd w).update now
  · rw [call_of_unrelated d now hother]
    exact (hd w).unrelated hother

theorem isAvailable_iff {config : DetectorConfig} {w : WorkerId} {h : List Event}
    {d : FailureDetector} (hd : Tracks config w h (d.workers w)) :
    d.isAvailable w = false ↔ Justified w config h := by
  unfold isAvailable getStatus Justified
  rw [← hd.registered]
  cases hrec : d.workers w with
  | none => simp [HealthStatus.isAvailable]
  | some r =>
      rw [← hd.suspected r (by rw [hrec]; rfl)]
      simp

/-- Without a registration, heartbeat or deregistration a justified suspicion remains. -/
theorem Justified.append {config : DetectorConfig} {w : WorkerId} {h : List Event}
    (hj : Justified w config h) (ks : List Event) :
    (∀ e ∈ ks, isMembership w e = false) → Justified w config (h ++ ks) := by
  induction ks using List.reverseRecOn with
  | nil =>
      intro _
      rw [List.append_nil]
      exact hj
  | append_singleton ks e ih =>
      intro hks
      obtain ⟨hreg, hsus⟩ := ih fun x hx => hks x (by simp [hx])
      have he := hks e (by simp)
      have hsign : isSign w e = false := by
        unfold isMembership at he
        exact (Bool.or_eq_false_iff.mp he).1
      rw [← List.append_assoc]
      refine ⟨?_, (suspectedSince_snoc w config _ e).mpr (Or.inl ⟨hsign, hsus⟩)⟩
      rw [registered_snoc, if_neg (by simp [he])]
      exact hreg

theorem config_call (d : FailureDetector) (now : Nat) (c : Call) :
    (d.call now c).config = d.config := by
  cases c <;> rfl

theorem config_run (config : DetectorConfig) (calls : List (Nat × Call)) :
    ((machine config).run calls).config = config :=
  (machine config).run_invariant (I := fun d => d.config = config) rfl
    (fun d i h => (config_call d i.1 i.2).trans h) calls

theorem tracks_run (config : DetectorConfig) (calls : List (Nat × Call))
    (h : (machine config).EachStep NoWrap calls) (w : WorkerId) :
    Tracks config w calls (((machine config).run calls).workers w) := by
  have hinit : ∀ w, Tracks config w [] none := by
    intro w
    refine ⟨?_, ?_, ?_, ?_⟩
    · simp [Registered]
    · rintro r ⟨⟩
    · rintro r ⟨⟩
    · rintro r ⟨⟩
  refine ((machine config).run_inputs_of_eachStep
    (I := fun h d => d.config = config ∧ ∀ w, Tracks config w h (d.workers w))
    ⟨rfl, hinit⟩ ?_ calls h).2 w
  rintro is d i ⟨hconf, hd⟩ hi
  exact ⟨(config_call d i.1 i.2).trans hconf, tracks_call hconf hd i hi⟩

/-- **Availability is justified by the history.** In every run in which no counter of failures wraps,
and after each of its calls: a worker is unavailable exactly if it is registered and some update
since its last registration or heartbeat found that heartbeat overdue or the row of its failures
long enough. It stays so until it registers, sends a heartbeat or is deregistered. -/
theorem availability_justified (config : DetectorConfig) (calls : List (Nat × Call))
    (h : (machine config).EachStep NoWrap calls) (js : List (Nat × Call)) (hjs : js <+: calls)
    (w : WorkerId) :
    (((machine config).run js).isAvailable w = false ↔ Justified w config js) ∧
    ∀ ks, js ++ ks <+: calls → (∀ e ∈ ks, isMembership w e = false) →
      ((machine config).run js).isAvailable w = false →
      ((machine config).run (js ++ ks)).isAvailable w = false := by
  have hrun : ∀ is, is <+: calls →
      (((machine config).run is).isAvailable w = false ↔ Justified w config is) := fun is his =>
    isAvailable_iff (tracks_run config is (h.of_prefix _ his) w)
  refine ⟨hrun js hjs, fun ks hks hother hdown => ?_⟩
  rw [hrun (js ++ ks) hks]
  exact ((hrun js hjs).mp hdown).append ks hother

/-- A heartbeat, and a later update. -/
theorem availability_justified_overdue :
    let config : DetectorConfig := ⟨5, 3, by decide⟩
    let calls : List (Nat × Call) := [(0, .recordHeartbeat 7), (6, .updateAllStatuses)]
    (((machine config).run calls).isAvailable 7 = false ↔ Justified 7 config calls) := by
  intro config calls
  refine (availability_justified config calls ?_ calls List.prefix_rfl 7).1
  intro js i hpre w htask
  -- no task is reported
  have hmem : i ∈ calls := hpre.subset (by simp)
  simp only [calls, List.mem_cons, List.not_mem_nil, or_false] at hmem
  rcases hmem with rfl | rfl
  · cases htask
  · cases htask

/-! ### The counter wraps -/

/-- A registration and `n` failures. -/
def failedTasks (w : WorkerId) (n : Nat) : List (Nat × Call) :=
  (0, .registerWorker w) :: List.replicate n (0, .recordTaskResult w false)

theorem failedTasks_succ (w : WorkerId) (n : Nat) :
    failedTasks w (n + 1) = failedTasks w n ++ [(0, .recordTaskResult w false)] := by
  unfold failedTasks
  rw [List.replicate_succ', List.cons_append]

theorem run_failedTasks (config : DetectorConfig) (w : WorkerId) (n : Nat) :
    ((machine config).run (failedTasks w n)).workers w
      = some { WorkerHealth.new w with
          consecutiveFailures := UInt32.ofNat n
          tasksFailed := UInt64.ofNat n } := by
  induction n with
  | zero =>
      show Function.update _ w _ w = _
      rw [Function.update_self]
      rfl
  | succ n ih =>
      rw [failedTasks_succ, Machine.run_snoc]
      show (FailureDetector.recordTaskResult _ w false).workers w = _
      rw [recordTaskResult_self, ih, Option.map_some, UInt32.ofNat_add, UInt64.ofNat_add]
      rfl

/-- A worker without heartbeats whose counter is below the threshold is available. -/
theorem isAvailable_failedTasks {config : DetectorConfig} {n : Nat}
    (hlt : ¬ config.failureThreshold ≤ UInt32.ofNat n) (w : WorkerId) (now : Nat) :
    ((machine config).run (failedTasks w n ++ [(now, .updateAllStatuses)])).isAvailable w
      = true := by
  rw [Machine.run_snoc, ← Bool.not_eq_false]
  intro hdown
  change (updateAllStatuses ((machine config).run (failedTasks w n)) now).isAvailable w
    = false at hdown
  simp only [isAvailable, getStatus, updateAllStatuses, run_failedTasks, config_run, Option.map_some,
    Option.getD_some] at hdown
  rcases (updateStatus_isAvailable _ _ _ _).mp hdown with hnew | ⟨last, hlast, -⟩ | hfail
  · cases hnew
  · cases hlast
  · exact hlt hfail

theorem registered_failedTasks (w : WorkerId) (n : Nat) : Registered w (failedTasks w n) := by
  induction n with
  | zero =>
      show Registered w ([] ++ [(0, .registerWorker w)])
      rw [registered_snoc, if_pos (by simp [isMembership, isSign])]
      simp [isSign]
  | succ n ih =>
      rw [failedTasks_succ, registered_snoc, if_neg (by simp [isMembership, isSign])]
      exact ih

theorem failureRun_failedTasks (w : WorkerId) (n : Nat) : failureRun w (failedTasks w n) = n := by
  induction n with
  | zero =>
      show failureRun w ([] ++ [(0, .registerWorker w)]) = 0
      rw [failureRun_snoc, if_pos (by simp [endsFailures, isSign])]
  | succ n ih =>
      rw [failedTasks_succ, failureRun_snoc, if_neg (by simp [endsFailures, isSign]), ih]
      simp

/-- After `2 ^ 32` failures in a row the counter is back at zero, and an update sees none. -/
theorem wrapped_failures_unseen :
    let config : DetectorConfig := ⟨5, 1, by decide⟩
    let calls := failedTasks 7 (2 ^ 32) ++ [(0, .updateAllStatuses)]
    ((machine config).run calls).isAvailable 7 = true ∧ Justified 7 config calls ∧
      ¬ (((machine config).run calls).isAvailable 7 = false ↔ Justified 7 config calls) := by
  intro config calls
  have hup : ((machine config).run calls).isAvailable 7 = true :=
    isAvailable_failedTasks (by decide) 7 0
  have hjust : Justified 7 config calls := by
    refine ⟨?_, failedTasks 7 (2 ^ 32), 0, [], rfl, by simp, Or.inr ?_⟩
    · rw [registered_snoc, if_neg (by simp [isMembership, isSign])]
      exact registered_failedTasks 7 (2 ^ 32)
    · rw [failureRun_failedTasks]
      decide
  exact ⟨hup, hjust, fun hiff => by rw [hiff.mpr hjust] at hup; cases hup⟩

/-! ## Completeness -/

/-- The last heartbeat of a record was sent. -/
theorem lastHeartbeat_mem (config : DetectorConfig) (w : WorkerId) (calls : List (Nat × Call)) :
    ∀ r ∈ ((machine config).run calls).workers w, ∀ t, r.lastHeartbeat = some t →
      (t, Call.recordHeartbeat w) ∈ calls := by
  induction calls using List.reverseRecOn with
  | nil => rintro r ⟨⟩
  | append_singleton calls i ih =>
      obtain ⟨now, c⟩ := i
      rw [Machine.run_snoc]
      show ∀ r ∈ (((machine config).run calls).call now c).workers w, _
      generalize (machine config).run calls = d at ih ⊢
      intro r hr t ht
      rw [List.mem_append]
      rcases call_cases w c with rfl | rfl | rfl | ⟨success, rfl⟩ | rfl | hother
      · rw [call, registerWorker_self] at hr
        cases hr
        cases ht
      · rw [call, deregisterWorker_self] at hr
        cases hr
      · rw [call, recordHeartbeat_self] at hr
        cases hr
        cases ht
        exact Or.inr (by simp)
      · rw [call, recordTaskResult_self] at hr
        obtain ⟨r', hr', rfl⟩ := Option.mem_map.mp hr
        refine Or.inl (ih r' hr' t ?_)
        cases success <;> exact ht
      · obtain ⟨r', hr', rfl⟩ := Option.mem_map.mp hr
        rw [(updateStatus_frame r' _ _ _).1] at ht
        exact Or.inl (ih r' hr' t ht)
      · rw [call_of_unrelated d now hother] at hr
        exact Or.inl (ih r hr t ht)

theorem updateStatus_eq_failed {r : WorkerHealth} {now timeout : Nat} {threshold : UInt32}
    (h : ∀ last, r.lastHeartbeat = some last → timeout * 3 < now - last) :
    (r.updateStatus now timeout threshold).status = .failed ↔
      r.lastHeartbeat.isSome = true ∨ threshold ≤ r.consecutiveFailures ∨ r.status = .failed := by
  unfold WorkerHealth.updateStatus
  cases hlast : r.lastHeartbeat with
  | none =>
      simp only
      split_ifs with hf
      · simp [hf]
      · simp [hf]
  | some last =>
      have h3 := h last hlast
      simp only [gt_iff_lt, h3, if_true]
      split_ifs <;> simp

/-- **When a silent worker is detected.** After a worker has been silent, since all its registrations
and heartbeats, for more than three timeouts, an update marks it failed exactly if it has sent a
heartbeat since it was registered, or its tasks have failed often enough, or it was marked before. -/
theorem detected_iff (config : DetectorConfig) (calls : List (Nat × Call)) (now : Nat)
    (w : WorkerId) (r : WorkerHealth) (hr : ((machine config).run calls).workers w = some r)
    (hsilent : ∀ e ∈ calls, isSign w e = true → config.heartbeatTimeout * 3 < now - e.1) :
    let d := (machine config).run (calls ++ [(now, .updateAllStatuses)])
    (d.getStatus w = .failed ∧ d.isAvailable w = false) ↔
      r.lastHeartbeat.isSome = true ∨ config.failureThreshold ≤ r.consecutiveFailures ∨
      r.status = .failed := by
  intro d
  have hstatus : d.getStatus w
      = (r.updateStatus now config.heartbeatTimeout config.failureThreshold).status := by
    have hd : d = updateAllStatuses ((machine config).run calls) now := Machine.run_snoc _ _ _
    rw [hd]
    simp only [getStatus, updateAllStatuses, hr, config_run, Option.map_some, Option.getD_some]
  have hlast : ∀ last, r.lastHeartbeat = some last → config.heartbeatTimeout * 3 < now - last :=
    fun last hl => hsilent _ (lastHeartbeat_mem config w calls r hr last hl) (by simp [isSign])
  rw [← updateStatus_eq_failed hlast, ← hstatus]
  unfold isAvailable
  constructor
  · rintro ⟨hfailed, -⟩
    exact hfailed
  · intro hfailed
    rw [hfailed]
    exact ⟨rfl, rfl⟩

/-- A worker that registers, sends one heartbeat and dies. -/
theorem detected_after_heartbeat :
    let d := (machine ⟨5, 3, by decide⟩).run
      ([(0, .registerWorker 7), (1, .recordHeartbeat 7)] ++ [(100, .updateAllStatuses)])
    d.getStatus 7 = .failed ∧ d.isAvailable 7 = false := by
  refine (detected_iff ⟨5, 3, by decide⟩ [(0, .registerWorker 7), (1, .recordHeartbeat 7)] 100 7
    ((WorkerHealth.new 7).recordHeartbeat 1) rfl ?_).mpr (Or.inl rfl)
  decide

/-- A worker that registers and dies at once stays available. -/
theorem silent_worker_undetected :
    let config : DetectorConfig := ⟨5, 3, by decide⟩
    let calls : List (Nat × Call) := [(0, .registerWorker 7)]
    let d := (machine config).run (calls ++ [(100, .updateAllStatuses)])
    ((machine config).run calls).workers 7 = some (.new 7) ∧
      (∀ e ∈ calls, isSign 7 e = true → config.heartbeatTimeout * 3 < 100 - e.1) ∧
      d.getStatus 7 = .unknown ∧ d.isAvailable 7 = true := by
  decide

end FailureDetector

end Pepita.Fault
