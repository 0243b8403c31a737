import Pepita.Lib.History
import Pepita.Lib.Machine

set_option autoImplicit false

/-! # The circuit breaker

`CircuitBreaker` of `fault.rs`. It lets calls through while it is closed, refuses them for
`reset_timeout` once enough failures in a row have opened it, and then lets them through on trial
until enough successes close it or a failure opens it again.

Each call of this file runs alone; `Fault/BreakerRace.lean` takes the calls apart. Then the breaker
obeys the protocol of its documentation, said over the history of its calls
(`breaker_obeys_protocol`).
-/

namespace Pepita.Fault

/-! ## The model

Instants and durations are nanoseconds. `opened.elapsed()` of an instant that lies in the future is
zero, like the difference of natural numbers. -/

/-- `CircuitState`. -/
inductive CircuitState where
  | closed
  | open
  | halfOpen
  deriving DecidableEq, Repr

/-- `CircuitBreaker`. -/
structure CircuitBreaker where
  state : CircuitState
  failureCount : UInt64
  successCount : UInt64
  failureThreshold : UInt64
  successThreshold : UInt64
  resetTimeout : Nat
  openedAt : Option Nat
  deriving DecidableEq, Repr

namespace CircuitBreaker

/-- `CircuitBreaker::new`. -/
def new (failureThreshold successThreshold : UInt64) (resetTimeout : Nat) : CircuitBreaker where
  state := .closed
  failureCount := 0
  successCount := 0
  failureThreshold := failureThreshold
  successThreshold := successThreshold
  resetTimeout := resetTimeout
  openedAt := none

/-- `transition_to_open`. -/
def transitionToOpen (b : CircuitBreaker) (now : Nat) : CircuitBreaker :=
  { b with state := .open, openedAt := some now, successCount := 0 }

/-- `transition_to_half_open`. -/
def transitionToHalfOpen (b : CircuitBreaker) : CircuitBreaker :=
  { b with state := .halfOpen, successCount := 0, failureCount := 0 }

/-- `transition_to_closed`. -/
def transitionToClosed (b : CircuitBreaker) : CircuitBreaker :=
  { b with state := .closed, openedAt := none, failureCount := 0, successCount := 0 }

/-- `opened_at` lies at least `reset_timeout` back. -/
def elapsed (b : CircuitBreaker) (now : Nat) : Bool :=
  match b.openedAt with
  | some opened => b.resetTimeout ≤ now - opened
  | none => false

/-- `allows_execution`. -/
def allowsExecution (b : CircuitBreaker) (now : Nat) : CircuitBreaker × Bool :=
  match b.state with
  | .closed => (b, true)
  | .halfOpen => (b, true)
  | .open => if b.elapsed now then (b.transitionToHalfOpen, true) else (b, false)

/-- `record_success`. -/
def recordSuccess (b : CircuitBreaker) : CircuitBreaker :=
  match b.state with
  | .closed => { b with failureCount := 0 }
  | .halfOpen =>
      let count := b.successCount + 1
      let b := { b with successCount := count }
      if b.successThreshold ≤ count then b.transitionToClosed else b
  | .open => b

/-- `record_failure`. -/
def recordFailure (b : CircuitBreaker) (now : Nat) : CircuitBreaker :=
  match b.state with
  | .closed =>
      let count := b.failureCount + 1
      let b := { b with failureCount := count }
      if b.failureThreshold ≤ count then b.transitionToOpen now else b
  | .halfOpen => b.transitionToOpen now
  | .open => b

/-- `reset`. -/
def reset (b : CircuitBreaker) : CircuitBreaker := b.transitionToClosed

/-- The calls on a breaker. -/
inductive Call where
  | allowsExecution
  | recordSuccess
  | recordFailure
  | reset
  deriving DecidableEq, Repr

/-- One call at the time `now`, with the answer of `allows_execution`. -/
def call (b : CircuitBreaker) (now : Nat) : Call → CircuitBreaker × Option Bool
  | .allowsExecution => ((b.allowsExecution now).1, some (b.allowsExecution now).2)
  | .recordSuccess => (b.recordSuccess, none)
  | .recordFailure => (b.recordFailure now, none)
  | .reset => (b.reset, none)

/-- What can be seen of a call: its answer, and `state()` before and after it. -/
structure Observed where
  allowed : Option Bool
  before : CircuitState
  after : CircuitState
  deriving DecidableEq, Repr

/-- A fresh breaker in use. The inputs are calls with the time they are made at. -/
def machine (failureThreshold successThreshold : UInt64) (resetTimeout : Nat) :
    Machine CircuitBreaker (Nat × Call) Observed where
  init := .new failureThreshold successThreshold resetTimeout
  step b := fun (now, c) => ((b.call now c).1, ⟨(b.call now c).2, b.state, (b.call now c).1.state⟩)

/-! ## The protocol -/

/-- A call of the history with what was seen of it. -/
abbrev Event := (Nat × Call) × Observed

namespace Event

def time (e : Event) : Nat := e.1.1

def call (e : Event) : Call := e.1.2

/-- The event opened the breaker. -/
def opens (e : Event) : Bool := e.2.before != .open && e.2.after == .open

/-- The event closed the breaker. A `reset` does so also when it was closed before. -/
def closes (e : Event) : Bool :=
  e.call == .reset || (e.2.before != .closed && e.2.after == .closed)

/-- A row of failures starts over after the event: the breaker was closed, or it recorded a success
while it was. -/
def startsOver (e : Event) : Bool :=
  e.closes || (e.call == .recordSuccess && e.2.before == .closed)

end Event

/-- The outcomes recorded by some events. -/
def outcomes (h : List Event) : List Call :=
  (h.map Event.call).filter fun c => c == .recordSuccess || c == .recordFailure

/-- When the breaker was last opened. -/
def lastOpening (h : List Event) : Option Nat := (History.last Event.opens h).map Event.time

/-- The history `h` ends with a half-open period that has the events `period`: an `allows_execution`
at least `timeout` after the last opening began it, and the breaker has been half-open since. -/
def HalfOpenPeriod (timeout : Nat) (h period : List Event) : Prop :=
  ∃ pre e opened, h = pre ++ e :: period ∧
    e.call = .allowsExecution ∧ e.2.before = .open ∧ e.2.after = .halfOpen ∧
    lastOpening pre = some opened ∧ timeout ≤ e.time - opened ∧
    ∀ x ∈ period, x.2.before = .halfOpen ∧ x.2.after = .halfOpen

/-- The protocol, for the event `e` after the history `h`, which takes the breaker from `b` to
`b'`. -/
structure ObeysProtocol (failureThreshold successThreshold : UInt64) (timeout : Nat)
    (h : List Event) (e : Event) (b b' : CircuitBreaker) : Prop where
  /-- Execution is refused exactly within the timeout after the last opening. -/
  refuses_iff : e.call = .allowsExecution →
    (e.2.allowed = some false ↔
      e.2.before = .open ∧ ∃ opened, lastOpening h = some opened ∧ e.time - opened < timeout)
  /-- A closed breaker opens exactly at the end of a full row of failures. -/
  opens_iff : (e.2.before = .closed ∧ e.2.after = .open) ↔
    e.2.before = .closed ∧ outcomes (History.since Event.startsOver (h ++ [e]))
      = List.replicate (max 1 failureThreshold.toNat) .recordFailure
  /-- Without a reset it is closed only at the end of a half-open period with enough successes and
  nothing else recorded. -/
  closes_only : e.2.before ≠ .closed → e.2.after = .closed → e.call ≠ .reset →
    ∃ period, HalfOpenPeriod timeout h period ∧ outcomes (period ++ [e])
      = List.replicate (max 1 successThreshold.toNat) .recordSuccess
  /-- A failure in a half-open period opens the breaker anew. -/
  reopens : e.2.before = .halfOpen → e.call = .recordFailure →
    e.2.after = .open ∧ b'.openedAt = some e.time ∧ lastOpening (h ++ [e]) = some e.time
  /-- Outcomes recorded while the breaker is open change nothing. -/
  ignores : e.2.before = .open → e.call = .recordSuccess ∨ e.call = .recordFailure → b' = b

/-! ## What a call does in each state -/

section Calls

variable {b : CircuitBreaker} (now : Nat)

theorem allows_of_not_open (hs : b.state = .closed ∨ b.state = .halfOpen) :
    b.call now .allowsExecution = (b, some true) := by
  rcases hs with hs | hs
  · simp only [call, allowsExecution, hs]
  · simp only [call, allowsExecution, hs]

theorem allows_of_elapsed (hs : b.state = .open) (h : b.elapsed now = true) :
    b.call now .allowsExecution = (b.transitionToHalfOpen, some true) := by
  simp only [call, allowsExecution, hs, if_pos h]

theorem allows_of_not_elapsed (hs : b.state = .open) (h : b.elapsed now = false) :
    b.call now .allowsExecution = (b, some false) := by
  simp only [call, allowsExecution, hs, h, Bool.false_eq_true, if_false]

theorem success_of_closed (hs : b.state = .closed) :
    b.call now .recordSuccess = ({ b with failureCount := 0 }, none) := by
  simp only [call, recordSuccess, hs]

theorem success_of_halfOpen (hs : b.state = .halfOpen) :
    b.call now .recordSuccess
      = (if b.successThreshold ≤ b.successCount + 1
          then transitionToClosed { b with successCount := b.successCount + 1 }
          else { b with successCount := b.successCount + 1 }, none) := by
  simp only [call, recordSuccess, hs]

theorem failure_of_closed (hs : b.state = .closed) :
    b.call now .recordFailure
      = (if b.failureThreshold ≤ b.failureCount + 1
          then transitionToOpen { b with failureCount := b.failureCount + 1 } now
          else { b with failureCount := b.failureCount + 1 }, none) := by
  simp only [call, recordFailure, hs]

theorem failure_of_halfOpen (hs : b.state = .halfOpen) :
    b.call now .recordFailure = (b.transitionToOpen now, none) := by
  simp only [call, recordFailure, hs]

theorem outcome_of_open (hs : b.state = .open) {c : Call}
    (hc : c = .recordSuccess ∨ c = .recordFailure) : b.call now c = (b, none) := by
  rcases hc with rfl | rfl
  · simp only [call, recordSuccess, hs]
  · simp only [call, recordFailure, hs]

end Calls

/-! ## The history so far -/

theorem outcomes_snoc_of_not {h : List Event} {e : Event}
    (he : e.call = .allowsExecution ∨ e.call = .reset) : outcomes (h ++ [e]) = outcomes h := by
  unfold outcomes
  rw [List.map_append, List.filter_append]
  rcases he with he | he
  · simp [he]
  · simp [he]

theorem outcomes_snoc {c : Call} (hc : c = .recordSuccess ∨ c = .recordFailure) (h : List Event)
    (now : Nat) (o : Observed) : outcomes (h ++ [((now, c), o)]) = outcomes h ++ [c] := by
  unfold outcomes
  rw [List.map_append, List.filter_append]
  rcases hc with rfl | rfl
  · rfl
  · rfl

theorem lastOpening_snoc_of_opens {h : List Event} {e : Event} (he : e.opens = true) :
    lastOpening (h ++ [e]) = some e.time := by
  unfold lastOpening
  rw [History.last_snoc, if_pos he, Option.map_some]

theorem lastOpening_snoc_of_not {h : List Event} {e : Event} (he : e.opens = false) :
    lastOpening (h ++ [e]) = lastOpening h := by
  unfold lastOpening
  rw [History.last_snoc, if_neg (by simp [he])]

theorem HalfOpenPeriod.snoc {timeout : Nat} {h period : List Event} {e : Event}
    (hp : HalfOpenPeriod timeout h period) (hb : e.2.before = .halfOpen)
    (ha : e.2.after = .halfOpen) : HalfOpenPeriod timeout (h ++ [e]) (period ++ [e]) := by
  obtain ⟨pre, x, opened, rfl, hcall, hxb, hxa, hlast, hle, hall⟩ := hp
  refine ⟨pre, x, opened, by simp, hcall, hxb, hxa, hlast, hle, ?_⟩
  intro y hy
  rcases List.mem_append.mp hy with hy | hy
  · exact hall y hy
  · rw [List.mem_singleton.mp hy]
    exact ⟨hb, ha⟩

/-- How the fields of the breaker reflect its history. Each counter is right in the state that
reads it; what it holds in the others does not matter, since every way into that state resets it. -/
structure Tracks (failureThreshold successThreshold : UInt64) (timeout : Nat) (h : List Event)
    (b : CircuitBreaker) : Prop where
  failureThreshold_eq : b.failureThreshold = failureThreshold
  successThreshold_eq : b.successThreshold = successThreshold
  resetTimeout_eq : b.resetTimeout = timeout
  closed : b.state = .closed →
    outcomes (History.since Event.startsOver h) = List.replicate b.failureCount.toNat .recordFailure ∧
    b.failureCount.toNat < max 1 failureThreshold.toNat
  opened : b.state = .open → ∃ t, b.openedAt = some t ∧ lastOpening h = some t
  halfOpen : b.state = .halfOpen → ∃ period, HalfOpenPeriod timeout h period ∧
    outcomes period = List.replicate b.successCount.toNat .recordSuccess ∧
    b.successCount.toNat < max 1 successThreshold.toNat

/-- A counter below its threshold goes up by one, and reaches it when the row is full. -/
theorem count_succ {count threshold : UInt64} (h : count.toNat < max 1 threshold.toNat) :
    (count + 1).toNat = count.toNat + 1 ∧
    (threshold ≤ count + 1 ↔ count.toNat + 1 = max 1 threshold.toNat) := by
  have hthr := threshold.toNat_lt
  have hone : (1 : UInt64).toNat = 1 := rfl
  have hsucc : (count + 1).toNat = count.toNat + 1 := by
    rw [UInt64.toNat_add, hone]
    omega
  refine ⟨hsucc, ?_⟩
  rw [UInt64.le_iff_toNat_le, hsucc]
  omega

section Step

variable {ft st : UInt64} {timeout : Nat} {h : List Event} {b : CircuitBreaker}

/-- The event of a call. -/
def event (b : CircuitBreaker) (now : Nat) (c : Call) : Event :=
  ((now, c), ⟨(b.call now c).2, b.state, (b.call now c).1.state⟩)

theorem Tracks.new (ft st : UInt64) (timeout : Nat) :
    Tracks ft st timeout [] (new ft st timeout) := by
  refine ⟨rfl, rfl, rfl, fun _ => ⟨rfl, ?_⟩, fun h => ?_, fun h => ?_⟩
  · show 0 < max 1 ft.toNat
    omega
  · cases h
  · cases h

/-- `allows_execution` of an open breaker. -/
theorem Tracks.elapsed_iff (hb : Tracks ft st timeout h b) (hopen : b.state = .open) (now : Nat) :
    b.elapsed now = false ↔ ∃ opened, lastOpening h = some opened ∧ now - opened < timeout := by
  obtain ⟨t, hat, hlast⟩ := hb.opened hopen
  simp only [CircuitBreaker.elapsed, hat, hb.resetTimeout_eq, hlast, Option.some_inj,
    decide_eq_false_iff_not, Nat.not_le, exists_eq_left']

/-! ### The three states -/

/-- No call changes the thresholds and the timeout. -/
def SameConfig (b' b : CircuitBreaker) : Prop :=
  b'.failureThreshold = b.failureThreshold ∧ b'.successThreshold = b.successThreshold ∧
  b'.resetTimeout = b.resetTimeout

theorem Tracks.of_closed {b' : CircuitBreaker} {h' : List Event} (hb : Tracks ft st timeout h b)
    (hconf : b'.SameConfig b) (hstate : b'.state = .closed)
    (hrow : outcomes (History.since Event.startsOver h')
      = List.replicate b'.failureCount.toNat .recordFailure)
    (hlt : b'.failureCount.toNat < max 1 ft.toNat) : Tracks ft st timeout h' b' := by
  refine ⟨hconf.1.trans hb.failureThreshold_eq, hconf.2.1.trans hb.successThreshold_eq,
    hconf.2.2.trans hb.resetTimeout_eq, fun _ => ⟨hrow, hlt⟩, fun hs => ?_, fun hs => ?_⟩
  · rw [hstate] at hs
    cases hs
  · rw [hstate] at hs
    cases hs

theorem Tracks.of_open {b' : CircuitBreaker} {h' : List Event} (hb : Tracks ft st timeout h b)
    (hconf : b'.SameConfig b) (hstate : b'.state = .open)
    (hlast : ∃ t, b'.openedAt = some t ∧ lastOpening h' = some t) : Tracks ft st timeout h' b' := by
  refine ⟨hconf.1.trans hb.failureThreshold_eq, hconf.2.1.trans hb.successThreshold_eq,
    hconf.2.2.trans hb.resetTimeout_eq, fun hs => ?_, fun _ => hlast, fun hs => ?_⟩
  · rw [hstate] at hs
    cases hs
  · rw [hstate] at hs
    cases hs

theorem Tracks.of_halfOpen {b' : CircuitBreaker} {h' : List Event} (hb : Tracks ft st timeout h b)
    (hconf : b'.SameConfig b) (hstate : b'.state = .halfOpen)
    (hperiod : ∃ period, HalfOpenPeriod timeout h' period ∧
      outcomes period = List.replicate b'.successCount.toNat .recordSuccess)
    (hlt : b'.successCount.toNat < max 1 st.toNat) : Tracks ft st timeout h' b' := by
  obtain ⟨period, hp, hrow⟩ := hperiod
  refine ⟨hconf.1.trans hb.failureThreshold_eq, hconf.2.1.trans hb.successThreshold_eq,
    hconf.2.2.trans hb.resetTimeout_eq, fun hs => ?_, fun hs => ?_, fun _ => ⟨period, hp, hrow, hlt⟩⟩
  · rw [hstate] at hs
    cases hs
  · rw [hstate] at hs
    cases hs

/-- Into the closed state from anywhere: the row of failures is empty. -/
theorem Tracks.toClosed (hb : Tracks ft st timeout h b) (b₀ : CircuitBreaker)
    (hconf : b₀.SameConfig b) {e : Event} (he : e.startsOver = true) :
    Tracks ft st timeout (h ++ [e]) b₀.transitionToClosed := by
  refine hb.of_closed hconf rfl ?_ ?_
  · rw [History.since_snoc, if_pos he]
    rfl
  · show 0 < max 1 ft.toNat
    omega

/-- Into the open state from anywhere: the event is the last opening. -/
theorem Tracks.toOpen (hb : Tracks ft st timeout h b) (b₀ : CircuitBreaker)
    (hconf : b₀.SameConfig b) {e : Event} (he : e.opens = true) :
    Tracks ft st timeout (h ++ [e]) (b₀.transitionToOpen e.time) :=
  hb.of_open hconf rfl ⟨e.time, rfl, lastOpening_snoc_of_opens he⟩

theorem Tracks.step_closed (hb : Tracks ft st timeout h b) (hs : b.state = .closed) (now : Nat)
    (c : Call) : Tracks ft st timeout (h ++ [b.event now c]) (b.call now c).1 := by
  obtain ⟨hrow, hlt⟩ := hb.closed hs
  cases c with
  | allowsExecution =>
      rw [event, allows_of_not_open now (Or.inl hs)]
      refine hb.of_closed ⟨rfl, rfl, rfl⟩ hs ?_ hlt
      rw [History.since_snoc, if_neg (by simp [Event.startsOver, Event.closes, Event.call, hs]),
        outcomes_snoc_of_not (Or.inl rfl), hrow]
  | recordSuccess =>
      rw [event, success_of_closed now hs]
      refine hb.of_closed ⟨rfl, rfl, rfl⟩ hs ?_ (show 0 < max 1 ft.toNat by omega)
      rw [History.since_snoc, if_pos (by simp [Event.startsOver, Event.call, hs])]
      rfl
  | recordFailure =>
      obtain ⟨hsucc, hfull⟩ := count_succ hlt
      rw [event, failure_of_closed now hs]
      by_cases hopen : b.failureThreshold ≤ b.failureCount + 1
      · rw [if_pos hopen]
        refine hb.toOpen { b with failureCount := b.failureCount + 1 } ⟨rfl, rfl, rfl⟩ ?_
        simp [Event.opens, hs, transitionToOpen]
      · rw [if_neg hopen]
        rw [hb.failureThreshold_eq] at hopen
        refine hb.of_closed ⟨rfl, rfl, rfl⟩ hs ?_ ?_
        · rw [History.since_snoc, if_neg (by simp [Event.startsOver, Event.closes, Event.call, hs]),
            outcomes_snoc (Or.inr rfl), hrow, hsucc, List.replicate_succ']
        · show (b.failureCount + 1).toNat < _
          rw [hfull] at hopen
          omega
  | reset => exact hb.toClosed b ⟨rfl, rfl, rfl⟩ rfl

theorem Tracks.step_open (hb : Tracks ft st timeout h b) (hs : b.state = .open) (now : Nat)
    (c : Call) : Tracks ft st timeout (h ++ [b.event now c]) (b.call now c).1 := by
  obtain ⟨t, hat, hlast⟩ := hb.opened hs
  -- a call that changes nothing is not an opening
  have hstay : ∀ r, Tracks ft st timeout (h ++ [((now, c), ⟨r, b.state, b.state⟩)]) b := by
    intro r
    refine hb.of_open ⟨rfl, rfl, rfl⟩ hs ⟨t, hat, ?_⟩
    rw [lastOpening_snoc_of_not (by simp [Event.opens, hs]), hlast]
  cases c with
  | allowsExecution =>
      cases helapsed : b.elapsed now with
      | true =>
        have hle : timeout ≤ now - t := by
          simpa [elapsed, hat, hb.resetTimeout_eq] using helapsed
        rw [event, allows_of_elapsed now hs helapsed]
        refine hb.of_halfOpen ⟨rfl, rfl, rfl⟩ rfl ⟨[], ?_, rfl⟩ (show 0 < max 1 st.toNat by omega)
        exact ⟨h, _, t, rfl, rfl, hs, rfl, hlast, hle, by simp⟩
      | false =>
        rw [event, allows_of_not_elapsed now hs helapsed]
        exact hstay _
  | recordSuccess =>
      rw [event, outcome_of_open now hs (Or.inl rfl)]
      exact hstay _
  | recordFailure =>
      rw [event, outcome_of_open now hs (Or.inr rfl)]
      exact hstay _
  | reset => exact hb.toClosed b ⟨rfl, rfl, rfl⟩ rfl

theorem Tracks.step_halfOpen (hb : Tracks ft st timeout h b) (hs : b.state = .halfOpen) (now : Nat)
    (c : Call) : Tracks ft st timeout (h ++ [b.event now c]) (b.call now c).1 := by
  obtain ⟨period, hperiod, hrow, hlt⟩ := hb.halfOpen hs
  cases c with
  | allowsExecution =>
      rw [event, allows_of_not_open now (Or.inr hs)]
      refine hb.of_halfOpen ⟨rfl, rfl, rfl⟩ hs ⟨_, hperiod.snoc hs hs, ?_⟩ hlt
      rw [outcomes_snoc_of_not (Or.inl rfl), hrow]
  | recordSuccess =>
      obtain ⟨hsucc, hfull⟩ := count_succ hlt
      rw [event, success_of_halfOpen now hs]
      by_cases hclose : b.successThreshold ≤ b.successCount + 1
      · rw [if_pos hclose]
        refine hb.toClosed { b with successCount := b.successCount + 1 } ⟨rfl, rfl, rfl⟩ ?_
        simp [Event.startsOver, Event.closes, hs, transitionToClosed]
      · rw [if_neg hclose]
        rw [hb.successThreshold_eq, hfull] at hclose
        refine hb.of_halfOpen ⟨rfl, rfl, rfl⟩ hs ⟨_, hperiod.snoc hs hs, ?_⟩ ?_
        · rw [outcomes_snoc (Or.inl rfl), hrow, hsucc, List.replicate_succ']
        · show (b.successCount + 1).toNat < _
          omega
  | recordFailure =>
      rw [event, failure_of_halfOpen now hs]
      refine hb.toOpen b ⟨rfl, rfl, rfl⟩ ?_
      simp [Event.opens, hs, transitionToOpen]
  | reset => exact hb.toClosed b ⟨rfl, rfl, rfl⟩ rfl

/-- **One call** keeps the fields true to the history. -/
theorem Tracks.step (hb : Tracks ft st timeout h b) (now : Nat) (c : Call) :
    Tracks ft st timeout (h ++ [b.event now c]) (b.call now c).1 := by
  cases hs : b.state with
  | closed => exact hb.step_closed hs now c
  | «open» => exact hb.step_open hs now c
  | halfOpen => exact hb.step_halfOpen hs now c

/-! ### The rules of the protocol -/

theorem Tracks.refuses_iff (hb : Tracks ft st timeout h b) (now : Nat) :
    (b.call now .allowsExecution).2 = some false ↔
      b.state = .open ∧ ∃ opened, lastOpening h = some opened ∧ now - opened < timeout := by
  cases hs : b.state with
  | closed => simp [allows_of_not_open now (Or.inl hs)]
  | halfOpen => simp [allows_of_not_open now (Or.inr hs)]
  | «open» =>
      rw [← hb.elapsed_iff hs now]
      cases helapsed : b.elapsed now with
      | true => simp [allows_of_elapsed now hs helapsed]
      | false => simp [allows_of_not_elapsed now hs helapsed]

theorem Tracks.opens_iff (hb : Tracks ft st timeout h b) (now : Nat) (c : Call)
    (hs : b.state = .closed) :
    (b.call now c).1.state = .open ↔
      outcomes (History.since Event.startsOver (h ++ [b.event now c]))
        = List.replicate (max 1 ft.toNat) .recordFailure := by
  obtain ⟨hrow, hlt⟩ := hb.closed hs
  have hone : 1 ≤ max 1 ft.toNat := Nat.le_max_left _ _
  -- a row that is full is not empty, and not the row so far
  have hempty : List.replicate (max 1 ft.toNat) Call.recordFailure ≠ [] := by
    rw [Ne, List.replicate_eq_nil_iff]
    omega
  have hless : List.replicate b.failureCount.toNat Call.recordFailure
      ≠ List.replicate (max 1 ft.toNat) .recordFailure := by
    rw [Ne, List.replicate_left_inj]
    omega
  rw [History.since_snoc]
  cases c with
  | allowsExecution =>
      have hnot : Event.startsOver (b.event now .allowsExecution) = false := by
        simp [event, Event.startsOver, Event.closes, Event.call, hs]
      rw [if_neg (by simp [hnot]), outcomes_snoc_of_not (Or.inl rfl), hrow,
        allows_of_not_open now (Or.inl hs), hs]
      exact iff_of_false (by simp) hless
  | recordSuccess =>
      have hover : Event.startsOver (b.event now .recordSuccess) = true := by
        simp [event, Event.startsOver, Event.call, hs]
      rw [if_pos hover, success_of_closed now hs]
      show b.state = .open ↔ [] = _
      rw [hs]
      exact iff_of_false (by simp) hempty.symm
  | recordFailure =>
      obtain ⟨hsucc, hfull⟩ := count_succ hlt
      have hnot : Event.startsOver (b.event now .recordFailure) = false := by
        rw [event, failure_of_closed now hs]
        split_ifs
        · simp [Event.startsOver, Event.closes, Event.call, hs]
        · simp [Event.startsOver, Event.closes, Event.call, hs]
      have hstate : (b.call now .recordFailure).1.state = .open ↔ ft ≤ b.failureCount + 1 := by
        rw [failure_of_closed now hs, hb.failureThreshold_eq]
        split_ifs with hopen
        · exact ⟨fun _ => hopen, fun _ => rfl⟩
        · show b.state = .open ↔ _
          rw [hs]
          exact iff_of_false (by simp) hopen
      rw [if_neg (by simp [hnot]), event, outcomes_snoc (Or.inr rfl), hrow, ← List.replicate_succ',
        hstate, hfull, List.replicate_left_inj]
  | reset =>
      rw [if_pos (show Event.startsOver (b.event now .reset) = true from rfl)]
      exact iff_of_false (by simp [call, reset, transitionToClosed]) hempty.symm

theorem Tracks.closes_only (hb : Tracks ft st timeout h b) (now : Nat) (c : Call)
    (hs : b.state ≠ .closed) (hclosed : (b.call now c).1.state = .closed) (hc : c ≠ .reset) :
    ∃ period, HalfOpenPeriod timeout h period ∧ outcomes (period ++ [b.event now c])
      = List.replicate (max 1 st.toNat) .recordSuccess := by
  cases hstate : b.state with
  | closed => exact absurd hstate hs
  | «open» =>
      exfalso
      cases c with
      | allowsExecution =>
          cases helapsed : b.elapsed now with
          | true =>
              rw [allows_of_elapsed now hstate helapsed] at hclosed
              cases hclosed
          | false =>
              rw [allows_of_not_elapsed now hstate helapsed] at hclosed
              exact hs hclosed
      | recordSuccess =>
          rw [outcome_of_open now hstate (Or.inl rfl)] at hclosed
          exact hs hclosed
      | recordFailure =>
          rw [outcome_of_open now hstate (Or.inr rfl)] at hclosed
          exact hs hclosed
      | reset => exact hc rfl
  | halfOpen =>
      obtain ⟨period, hperiod, hrow, hlt⟩ := hb.halfOpen hstate
      cases c with
      | allowsExecution =>
          rw [allows_of_not_open now (Or.inr hstate)] at hclosed
          exact absurd hclosed hs
      | recordFailure =>
          rw [failure_of_halfOpen now hstate] at hclosed
          cases hclosed
      | reset => exact absurd rfl hc
      | recordSuccess =>
          obtain ⟨-, hfull⟩ := count_succ hlt
          rw [success_of_halfOpen now hstate, hb.successThreshold_eq] at hclosed
          split_ifs at hclosed with hle
          · refine ⟨period, hperiod, ?_⟩
            rw [event, outcomes_snoc (Or.inl rfl), hrow, ← List.replicate_succ', hfull.mp hle]
          · exact absurd hclosed hs

end Step

/-- **The circuit breaker obeys its protocol** in every step of every run. -/
theorem breaker_obeys_protocol (failureThreshold successThreshold : UInt64) (resetTimeout : Nat)
    (calls : List (Nat × Call)) (now : Nat) (c : Call) :
    let M := machine failureThreshold successThreshold resetTimeout
    let b := M.run calls
    ObeysProtocol failureThreshold successThreshold resetTimeout (M.trace calls)
      ((now, c), (M.step b (now, c)).2) b (M.step b (now, c)).1 := by
  intro M b
  have hb : Tracks failureThreshold successThreshold resetTimeout (M.trace calls) b :=
    M.run_history (Tracks.new _ _ _) (fun h b i hb => hb.step i.1 i.2) calls
  show ObeysProtocol _ _ _ _ (b.event now c) b (b.call now c).1
  refine ⟨?_, ?_, ?_, ?_, ?_⟩
  · rintro (rfl : c = .allowsExecution)
    exact hb.refuses_iff now
  · exact and_congr_right fun hs => hb.opens_iff now c hs
  · exact hb.closes_only now c
  · rintro (hs : b.state = .halfOpen) (rfl : c = .recordFailure)
    have hopens : (b.event now .recordFailure).opens = true := by
      rw [event, failure_of_halfOpen now hs]
      simp [Event.opens, hs, transitionToOpen]
    rw [lastOpening_snoc_of_opens hopens, event, failure_of_halfOpen now hs]
    exact ⟨rfl, rfl, rfl⟩
  · intro (hs : b.state = .open) (hc : c = .recordSuccess ∨ c = .recordFailure)
    rw [outcome_of_open now hs hc]

end CircuitBreaker

end Pepita.Fault
