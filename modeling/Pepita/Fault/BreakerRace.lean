import Pepita.Fault.Breaker
import Pepita.Lib.Interleave

set_option autoImplicit false

/-! # The circuit breaker under interleaving

Every call of the breaker reads `state` under its lock, releases the lock, and decides on what it
has read; the transition it decides on takes the lock again and does not look at the state. Between
the two any other client may have moved the breaker on. So a client can make a breaker half-open
that has been closed, or opened anew, in the meantime, and it can close one that has been opened.
These are the only illegal changes: a run is legal exactly if no transition to half-open or closed
comes too late (`legalRun_iff`).

`opened_at` has a lock of its own, so `allows_execution` also reads it in a separate step. A call
that is not interrupted does what `Fault/Breaker.lean` says (`alone_eq_call`).
-/

namespace Pepita.Fault.CircuitBreaker

/-! ## The model -/

/-- The calls clients make. -/
inductive Use where
  | allowsExecution
  | recordSuccess
  | recordFailure
  deriving DecidableEq, Repr

/-- The call of the sequential model. -/
def Use.toCall : Use → Call
  | .allowsExecution => .allowsExecution
  | .recordSuccess => .recordSuccess
  | .recordFailure => .recordFailure

/-- The next atomic step of a client inside a call. -/
inductive Point where
  /-- read `state` -/
  | checking (u : Use)
  /-- in `allows_execution`, read `opened_at` and the clock -/
  | timing
  /-- `transition_to_half_open` -/
  | halfOpening
  /-- in `record_success`, clear `failure_count` -/
  | clearing
  /-- in `record_success`, increment `success_count` -/
  | countingSuccess
  /-- `transition_to_closed` -/
  | closing
  /-- in `record_failure`, increment `failure_count` -/
  | countingFailure
  /-- `transition_to_open` -/
  | opening
  deriving DecidableEq, Repr

/-- One atomic step, at the time `now`. -/
def exec (now : Nat) (b : CircuitBreaker) : Point → CircuitBreaker × Progress Point (Option Bool)
  | .checking .allowsExecution =>
      (b, match b.state with
        | .closed => .ret (some true)
        | .halfOpen => .ret (some true)
        | .open => .goto .timing)
  | .timing => (b, if b.elapsed now then .goto .halfOpening else .ret (some false))
  | .halfOpening => (b.transitionToHalfOpen, .ret (some true))
  | .checking .recordSuccess =>
      (b, match b.state with
        | .closed => .goto .clearing
        | .halfOpen => .goto .countingSuccess
        | .open => .ret none)
  | .clearing => ({ b with failureCount := 0 }, .ret none)
  | .countingSuccess =>
      ({ b with successCount := b.successCount + 1 },
        if b.successThreshold ≤ b.successCount + 1 then .goto .closing else .ret none)
  | .closing => (b.transitionToClosed, .ret none)
  | .checking .recordFailure =>
      (b, match b.state with
        | .closed => .goto .countingFailure
        | .halfOpen => .goto .opening
        | .open => .ret none)
  | .countingFailure =>
      ({ b with failureCount := b.failureCount + 1 },
        if b.failureThreshold ≤ b.failureCount + 1 then .goto .opening else .ret none)
  | .opening => (b.transitionToOpen now, .ret none)

/-- The calls as atomic steps. -/
def code : Code Nat CircuitBreaker Use Point (Option Bool) := ⟨.checking, exec⟩

/-- `n` clients on a fresh breaker. -/
def raceMachine (n : Nat) (failureThreshold successThreshold : UInt64) (resetTimeout : Nat) :
    Machine (Clients CircuitBreaker Point) (Nat × Move Use)
      (Option (Point × Progress Point (Option Bool))) :=
  code.machine (.new failureThreshold successThreshold resetTimeout) n

/-- **A call that is not interrupted** is a call of the sequential model. -/
theorem alone_eq_call (now : Nat) (b : CircuitBreaker) (u : Use) :
    code.alone now 3 b (code.entry u) = some (b.call now u.toCall) := by
  cases u with
  | allowsExecution =>
      cases hs : b.state with
      | closed => simp [Code.alone, code, exec, hs, Use.toCall, allows_of_not_open]
      | halfOpen => simp [Code.alone, code, exec, hs, Use.toCall, allows_of_not_open]
      | «open» =>
          cases he : b.elapsed now with
          | true => simp [Code.alone, code, exec, hs, he, Use.toCall, allows_of_elapsed]
          | false => simp [Code.alone, code, exec, hs, he, Use.toCall, allows_of_not_elapsed]
  | recordSuccess =>
      cases hs : b.state with
      | closed => simp [Code.alone, code, exec, hs, Use.toCall, success_of_closed]
      | «open» => simp [Code.alone, code, exec, hs, Use.toCall, outcome_of_open]
      | halfOpen =>
          by_cases hle : b.successThreshold ≤ b.successCount + 1
          · simp [Code.alone, code, exec, hs, hle, Use.toCall, success_of_halfOpen]
          · simp [Code.alone, code, exec, hs, hle, Use.toCall, success_of_halfOpen]
  | recordFailure =>
      cases hs : b.state with
      | closed =>
          by_cases hle : b.failureThreshold ≤ b.failureCount + 1
          · simp [Code.alone, code, exec, hs, hle, Use.toCall, failure_of_closed]
          · simp [Code.alone, code, exec, hs, hle, Use.toCall, failure_of_closed]
      | «open» => simp [Code.alone, code, exec, hs, Use.toCall, outcome_of_open]
      | halfOpen => simp [Code.alone, code, exec, hs, Use.toCall, failure_of_halfOpen]

/-- So every sequence of calls, each made when no other is under way, is one of the interleavings. -/
theorem call_is_interleaving {n c : Nat} {ft st : UInt64} {timeout : Nat}
    {s : Clients CircuitBreaker Point} (hidle : s.clients[c]? = some none) (now : Nat) (u : Use) :
    ∃ k, (raceMachine n ft st timeout).runFrom s
        ((now, .invoke c u) :: List.replicate k (now, .advance c))
      = ⟨(s.shared.call now u.toCall).1, s.clients⟩ :=
  Code.run_alone hidle (alone_eq_call now s.shared u)

/-! ## Legal transitions -/

/-- A step of the history: when which client moved, the point it left and how the step ended. -/
abbrev RaceEvent := (Nat × Move Use) × Option (Point × Progress Point (Option Bool))

/-- The step was a `transition_to_open`. -/
def RaceEvent.opens (e : RaceEvent) : Bool := e.2.any fun step => step.1 == .opening

/-- When the breaker was last opened. -/
def latestOpening (h : List RaceEvent) : Option Nat :=
  (History.last RaceEvent.opens h).map fun e => e.1.1

/-- A step at the time `now`, after the history `h`, may change the state from `before` to
`after`. -/
def Legal (timeout : Nat) (h : List RaceEvent) (now : Nat) (before after : CircuitState) : Prop :=
  before = after ∨
  (before = .closed ∧ after = .open) ∨
  (before = .open ∧ after = .halfOpen ∧
    ∃ opened, latestOpening h = some opened ∧ timeout ≤ now - opened) ∨
  (before = .halfOpen ∧ after = .closed) ∨
  (before = .halfOpen ∧ after = .open)

/-- Every step of the interleaving `is` changes the state legally. -/
def LegalRun (n : Nat) (failureThreshold successThreshold : UInt64) (resetTimeout : Nat)
    (is : List (Nat × Move Use)) : Prop :=
  let M := raceMachine n failureThreshold successThreshold resetTimeout
  ∀ js i, js ++ [i] <+: is →
    Legal resetTimeout (M.trace js) i.1 (M.run js).shared.state (M.run (js ++ [i])).shared.state

/-- The step does not come too late: a `transition_to_half_open` finds the breaker half-open, or
open with the timeout over, and a `transition_to_closed` does not find it open. -/
def InTime (s : Clients CircuitBreaker Point) (i : Nat × Move Use) : Prop :=
  ∀ c,
    (code.turn s i.2 = some (c, .halfOpening) →
      s.shared.state = .halfOpen ∨ (s.shared.state = .open ∧ s.shared.elapsed i.1 = true)) ∧
    (code.turn s i.2 = some (c, .closing) → s.shared.state ≠ .open)

/-! ## One step -/

section Step

variable {timeout : Nat} {h : List RaceEvent} {b : CircuitBreaker}

/-- How the breaker reflects the history: `opened_at` is right while it is open. -/
structure OpenedAt (timeout : Nat) (h : List RaceEvent) (b : CircuitBreaker) : Prop where
  resetTimeout_eq : b.resetTimeout = timeout
  opened : b.state = .open → ∃ t, b.openedAt = some t ∧ latestOpening h = some t

theorem OpenedAt.elapsed_iff (hb : OpenedAt timeout h b) (hs : b.state = .open) (now : Nat) :
    b.elapsed now = true ↔ ∃ opened, latestOpening h = some opened ∧ timeout ≤ now - opened := by
  obtain ⟨t, hat, hlast⟩ := hb.opened hs
  simp only [elapsed, hat, hb.resetTimeout_eq, hlast, Option.some_inj, decide_eq_true_eq,
    exists_eq_left']

/-- Only the three transitions touch `state` and `opened_at`. -/
theorem exec_frame (now : Nat) (b : CircuitBreaker) {p : Point} (h1 : p ≠ .halfOpening)
    (h2 : p ≠ .closing) (h3 : p ≠ .opening) :
    (exec now b p).1.state = b.state ∧ (exec now b p).1.openedAt = b.openedAt := by
  cases p with
  | checking u => cases u <;> exact ⟨rfl, rfl⟩
  | timing => exact ⟨rfl, rfl⟩
  | clearing => exact ⟨rfl, rfl⟩
  | countingSuccess => exact ⟨rfl, rfl⟩
  | countingFailure => exact ⟨rfl, rfl⟩
  | halfOpening => exact absurd rfl h1
  | closing => exact absurd rfl h2
  | opening => exact absurd rfl h3

theorem exec_resetTimeout (now : Nat) (b : CircuitBreaker) (p : Point) :
    (exec now b p).1.resetTimeout = b.resetTimeout := by
  cases p with
  | checking u => cases u <;> rfl
  | _ => rfl

theorem latestOpening_snoc (h : List RaceEvent) (e : RaceEvent) :
    latestOpening (h ++ [e]) = if e.opens then some e.1.1 else latestOpening h := by
  unfold latestOpening
  rw [History.last_snoc]
  split_ifs
  · rfl
  · rfl

theorem OpenedAt.exec (hb : OpenedAt timeout h b) (i : Nat × Move Use) (p : Point)
    (r : Progress Point (Option Bool)) :
    OpenedAt timeout (h ++ [(i, some (p, r))]) (exec i.1 b p).1 := by
  refine ⟨(exec_resetTimeout i.1 b p).trans hb.resetTimeout_eq, fun hs => ?_⟩
  rw [latestOpening_snoc]
  by_cases h3 : p = .opening
  · subst h3
    exact ⟨i.1, rfl, if_pos rfl⟩
  · rw [if_neg (by simp [RaceEvent.opens, h3])]
    by_cases h1 : p = .halfOpening
    · subst h1
      cases hs
    · by_cases h2 : p = .closing
      · subst h2
        cases hs
      · obtain ⟨hstate, hat⟩ := exec_frame i.1 b h1 h2 h3
        rw [hstate] at hs
        rw [hat]
        exact hb.opened hs

/-- **One step** is legal exactly when it does not come too late. -/
theorem OpenedAt.legal_iff (hb : OpenedAt timeout h b) (now : Nat) (p : Point) :
    Legal timeout h now b.state (CircuitBreaker.exec now b p).1.state ↔
      (p = .halfOpening → b.state = .halfOpen ∨ (b.state = .open ∧ b.elapsed now = true)) ∧
      (p = .closing → b.state ≠ .open) := by
  by_cases h1 : p = .halfOpening
  · subst h1
    show Legal timeout h now b.state .halfOpen ↔ _
    cases hs : b.state with
    | closed => simp [Legal]
    | halfOpen => simp [Legal]
    | «open» => simp [Legal, hb.elapsed_iff hs now]
  · by_cases h2 : p = .closing
    · subst h2
      show Legal timeout h now b.state .closed ↔ _
      cases hs : b.state with
      | closed => simp [Legal]
      | halfOpen => simp [Legal]
      | «open» => simp [Legal]
    · refine iff_of_true ?_ ⟨fun heq => absurd heq h1, fun heq => absurd heq h2⟩
      by_cases h3 : p = .opening
      · subst h3
        show Legal timeout h now b.state .open
        cases hs : b.state with
        | closed => simp [Legal]
        | halfOpen => simp [Legal]
        | «open» => simp [Legal]
      · rw [(exec_frame now b h1 h2 h3).1]
        exact Or.inl rfl

end Step

/-! ## Whole interleavings -/

section Runs

variable (n : Nat) (ft st : UInt64) (timeout : Nat)

theorem openedAt_run (is : List (Nat × Move Use)) :
    OpenedAt timeout ((raceMachine n ft st timeout).trace is)
      ((raceMachine n ft st timeout).run is).shared := by
  refine code.run_history (.new ft st timeout) n
    (I := fun h s => OpenedAt timeout h s.shared) ⟨rfl, fun hs => by cases hs⟩ ?_ ?_ is
  · intro h s i hs
    refine ⟨hs.resetTimeout_eq, fun hopen => ?_⟩
    rw [latestOpening_snoc, if_neg (by simp [RaceEvent.opens])]
    exact hs.opened hopen
  · intro h s i c p hs _
    exact hs.exec i p _

theorem legal_step_iff (js : List (Nat × Move Use)) (i : Nat × Move Use) :
    Legal timeout ((raceMachine n ft st timeout).trace js) i.1
        ((raceMachine n ft st timeout).run js).shared.state
        ((raceMachine n ft st timeout).run (js ++ [i])).shared.state ↔
      InTime ((raceMachine n ft st timeout).run js) i := by
  have hb := openedAt_run n ft st timeout js
  rw [Machine.run_snoc]
  generalize (raceMachine n ft st timeout).run js = s at hb ⊢
  show Legal timeout _ i.1 s.shared.state (code.step s i).1.shared.state ↔ InTime s i
  unfold InTime
  rcases code.step_cases s i with ⟨hturn, heq⟩ | ⟨c, p, hturn, -, heq⟩
  · rw [heq, hturn]
    exact iff_of_true (Or.inl rfl) fun c => ⟨by simp, by simp⟩
  · rw [heq, hturn]
    refine (hb.legal_iff i.1 p).trans ⟨fun hp c' => ⟨fun h => ?_, fun h => ?_⟩, fun hall => ?_⟩
    · exact hp.1 (Prod.mk.inj (Option.some_inj.mp h)).2
    · exact hp.2 (Prod.mk.inj (Option.some_inj.mp h)).2
    · exact ⟨fun h => (hall c).1 (by rw [h]), fun h => (hall c).2 (by rw [h])⟩

/-- **When concurrent use keeps the breaker on its legal transitions.** An interleaving of any
number of clients does so exactly if none of its steps comes too late: no client performs the
transition to half-open when the breaker is closed or has been opened less than the timeout ago,
and none performs the transition to closed when it is open. -/
theorem legalRun_iff (is : List (Nat × Move Use)) :
    LegalRun n ft st timeout is ↔ (raceMachine n ft st timeout).EachStep InTime is := by
  constructor
  · intro h js i hpre
    exact (legal_step_iff n ft st timeout js i).mp (h js i hpre)
  · intro h js i hpre
    exact (legal_step_iff n ft st timeout js i).mpr (h js i hpre)

end Runs

theorem not_legal_of_closed {timeout now : Nat} {h : List RaceEvent} {before after : CircuitState}
    (hb : before = .closed) (ha : after = .halfOpen) : ¬ Legal timeout h now before after := by
  subst hb ha
  simp [Legal]

/-- Two clients find an open breaker with its timeout over. The second makes it half-open and
closes it with a success; then the first one makes the closed breaker half-open. -/
def staleProbe : List (Nat × Move Use) :=
  [(0, .invoke 1 .recordFailure), (0, .advance 1), (0, .advance 1),
    (10, .invoke 0 .allowsExecution), (10, .advance 0),
    (10, .invoke 1 .allowsExecution), (10, .advance 1), (10, .advance 1),
    (10, .invoke 1 .recordSuccess), (10, .advance 1), (10, .advance 1)]

theorem staleProbe_states :
    ((raceMachine 2 1 1 10).run staleProbe).shared.state = .closed ∧
    ((raceMachine 2 1 1 10).run (staleProbe ++ [(10, .advance 0)])).shared.state = .halfOpen := by
  decide

theorem staleProbe_illegal : ¬ LegalRun 2 1 1 10 (staleProbe ++ [(10, .advance 0)]) := by
  intro h
  unfold LegalRun at h
  have hlegal := h staleProbe (10, .advance 0) List.prefix_rfl
  exact not_legal_of_closed staleProbe_states.1 staleProbe_states.2 hlegal

end Pepita.Fault.CircuitBreaker
