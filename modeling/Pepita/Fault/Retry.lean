import Mathlib.Tactic
import Pepita.Basic.Definitions

set_option autoImplicit false

/-! # Retries

`RetryPolicy` and `RetryState` of `fault.rs`, and which errors are worth a retry (`error.rs`). The
state counts the attempts that failed; the policy says how many may, and how long to wait before the
next one. The time and the text of the last failure are left out: nothing that retries reads them.
-/

namespace Pepita

/-- `is_retriable`. -/
def KernelError.isRetriable : KernelError → Bool
  | .wouldBlock => true
  | .ublkQueueFull => true
  | .ioUringSubmitFull => true
  | .noTagsAvailable => true
  | .ublkDeviceBusy => true
  | _ => false

namespace Fault

/-- `RetryPolicy`. Durations are nanoseconds. -/
structure RetryPolicy where
  maxRetries : UInt32
  initialDelay : Nat
  maxDelay : Nat
  backoffFactor : UInt32
  deriving DecidableEq, Repr

/-- `RetryState`. -/
structure RetryState where
  attempts : UInt32
  deriving DecidableEq, Repr

/-- `as_millis() as u64`. -/
def asMillis (duration : Nat) : UInt64 := UInt64.ofNat (duration / 1000000)

/-- `u64::saturating_mul`. -/
def saturatingMul (a b : UInt64) : UInt64 := UInt64.ofNat (min (a.toNat * b.toNat) (2 ^ 64 - 1))

namespace RetryPolicy

/-- `RetryPolicy::default`. -/
def default : RetryPolicy := ⟨3, 100000000, 30000000000, 2⟩

/-- `delay_for_attempt`, as a release build computes it: the power wraps. -/
def delayForAttempt (policy : RetryPolicy) (attempt : UInt32) : Nat :=
  if attempt = 0 then 0
  else
    let baseDelay := asMillis policy.initialDelay
    -- `attempt.saturating_sub(1)`: the attempt is not 0 here
    let factor := (policy.backoffFactor ^ (attempt.toNat - 1)).toUInt64
    let delayMs := saturatingMul baseDelay factor
    let cappedMs := min delayMs (asMillis policy.maxDelay)
    cappedMs.toNat * 1000000

/-- `u32::pow` where overflow is checked: a panic, here `none`, when the power does not fit. -/
def checkedPow (base : UInt32) (exp : Nat) : Option UInt32 :=
  if base.toNat ^ exp < 2 ^ 32 then some (base ^ exp) else none

/-- `delay_for_attempt`, as a build with overflow checks computes it; `none` is the panic. -/
def delayForAttemptChecked (policy : RetryPolicy) (attempt : UInt32) : Option Nat :=
  if attempt = 0 then some 0
  else do
    let baseDelay := asMillis policy.initialDelay
    let factor ← checkedPow policy.backoffFactor (attempt.toNat - 1)
    let delayMs := saturatingMul baseDelay factor.toUInt64
    let cappedMs := min delayMs (asMillis policy.maxDelay)
    some (cappedMs.toNat * 1000000)

/-- `should_retry`. -/
def shouldRetry (policy : RetryPolicy) (currentAttempts : UInt32) : Bool :=
  currentAttempts < policy.maxRetries

end RetryPolicy

namespace RetryState

/-- `RetryState::new`. -/
def new : RetryState := ⟨0⟩

/-- `record_failure`. -/
def recordFailure (s : RetryState) : RetryState := ⟨s.attempts + 1⟩

/-- `should_retry`. -/
def shouldRetry (s : RetryState) (policy : RetryPolicy) : Bool := policy.shouldRetry s.attempts

/-- `next_delay`. -/
def nextDelay (s : RetryState) (policy : RetryPolicy) : Nat := policy.delayForAttempt s.attempts

/-- While a retry is allowed, the attempt that failed is counted without wrapping. -/
theorem attempts_recordFailure {s : RetryState} {policy : RetryPolicy}
    (h : s.shouldRetry policy = true) :
    s.recordFailure.attempts.toNat = s.attempts.toNat + 1 ∧
    s.recordFailure.attempts.toNat ≤ policy.maxRetries.toNat := by
  have hlt : s.attempts.toNat < policy.maxRetries.toNat := by
    simpa [shouldRetry, RetryPolicy.shouldRetry, UInt32.lt_iff_toNat_lt] using h
  have hmax := policy.maxRetries.toNat_lt
  have hsucc : s.recordFailure.attempts.toNat = s.attempts.toNat + 1 := by
    rw [recordFailure, UInt32.toNat_add, UInt32.toNat_one]
    exact Nat.mod_eq_of_lt (by omega)
  exact ⟨hsucc, by omega⟩

end RetryState

/-! ## The back-off -/

/-- The capped exponential, over the integers. -/
def RetryPolicy.cappedExponential (policy : RetryPolicy) (attempt : UInt32) : Nat :=
  if attempt = 0 then 0
  else
    min (policy.initialDelay / 1000000 * policy.backoffFactor.toNat ^ (attempt.toNat - 1))
      (policy.maxDelay / 1000000) * 1000000

/-- What `delay_for_attempt` is for: neither build overflows, the delay is the capped exponential,
it is never above the cap, and it does not shrink from one attempt to a later one. -/
structure RetryPolicy.ExactBackoff (policy : RetryPolicy) (attempt : UInt32) : Prop where
  no_overflow : policy.delayForAttemptChecked attempt = some (policy.delayForAttempt attempt)
  exponential : policy.delayForAttempt attempt = policy.cappedExponential attempt
  capped : policy.delayForAttempt attempt ≤ policy.maxDelay
  monotone : 1 ≤ policy.backoffFactor → ∀ earlier : UInt32, 1 ≤ earlier → earlier ≤ attempt →
    policy.delayForAttempt earlier ≤ policy.delayForAttempt attempt

theorem toNat_asMillis {duration : Nat} (h : duration / 1000000 < 2 ^ 64) :
    (asMillis duration).toNat = duration / 1000000 := UInt64.toNat_ofNat_of_lt' h

theorem toNat_saturatingMul (a b : UInt64) :
    (saturatingMul a b).toNat = min (a.toNat * b.toNat) (2 ^ 64 - 1) :=
  UInt64.toNat_ofNat_of_lt' (Nat.lt_of_le_of_lt (Nat.min_le_right _ _) (by decide))

namespace RetryPolicy

variable {policy : RetryPolicy} {attempt : UInt32}

theorem toNat_pow (base : UInt32) (exp : Nat) :
    (base ^ exp).toNat = base.toNat ^ exp % 2 ^ 32 := by
  induction exp with
  | zero => rfl
  | succ exp ih => rw [UInt32.pow_succ, UInt32.toNat_mul, ih, Nat.mod_mul_mod, ← Nat.pow_succ]

/-- Where the power fits, the saturation is below the cap and has no effect. -/
theorem delayForAttempt_eq (hinit : policy.initialDelay / 1000000 < 2 ^ 64)
    (hmax : policy.maxDelay / 1000000 < 2 ^ 64)
    (hpow : attempt = 0 ∨ policy.backoffFactor.toNat ^ (attempt.toNat - 1) < 2 ^ 32) :
    policy.delayForAttempt attempt = policy.cappedExponential attempt := by
  rw [delayForAttempt, cappedExponential]
  by_cases h0 : attempt = 0
  · rw [if_pos h0, if_pos h0]
  rw [if_neg h0, if_neg h0]
  have hpow := hpow.resolve_left h0
  dsimp only
  -- the saturation point is not below the cap, so the cap decides
  rw [UInt64.toNat_min, toNat_saturatingMul, toNat_asMillis hinit, toNat_asMillis hmax,
    UInt32.toNat_toUInt64, toNat_pow, Nat.mod_eq_of_lt hpow]
  omega

theorem cappedExponential_le : policy.cappedExponential attempt ≤ policy.maxDelay := by
  rw [cappedExponential]
  split_ifs
  · exact Nat.zero_le _
  · calc min _ (policy.maxDelay / 1000000) * 1000000
        ≤ policy.maxDelay / 1000000 * 1000000 := Nat.mul_le_mul_right _ (Nat.min_le_right _ _)
      _ ≤ policy.maxDelay := Nat.div_mul_le_self _ _

theorem cappedExponential_mono (hfactor : 1 ≤ policy.backoffFactor) {earlier : UInt32}
    (hpos : 1 ≤ earlier) (hle : earlier ≤ attempt) :
    policy.cappedExponential earlier ≤ policy.cappedExponential attempt := by
  rw [UInt32.le_iff_toNat_le, UInt32.toNat_one] at hfactor hpos
  rw [UInt32.le_iff_toNat_le] at hle
  have hne : ∀ a : UInt32, 1 ≤ a.toNat → a ≠ 0 := by
    rintro a ha rfl
    exact absurd ha (by decide)
  rw [cappedExponential, cappedExponential, if_neg (hne _ hpos), if_neg (hne _ (by omega))]
  apply Nat.mul_le_mul_right
  apply min_le_min_right
  apply Nat.mul_le_mul_left
  exact Nat.pow_le_pow_right hfactor (by omega)

theorem delayForAttemptChecked_eq_some_iff :
    policy.delayForAttemptChecked attempt = some (policy.delayForAttempt attempt) ↔
      attempt = 0 ∨ policy.backoffFactor.toNat ^ (attempt.toNat - 1) < 2 ^ 32 := by
  rw [delayForAttemptChecked, delayForAttempt]
  by_cases h0 : attempt = 0
  · rw [if_pos h0, if_pos h0]
    exact iff_of_true rfl (.inl h0)
  rw [if_neg h0, if_neg h0, checkedPow]
  by_cases hpow : policy.backoffFactor.toNat ^ (attempt.toNat - 1) < 2 ^ 32
  · rw [if_pos hpow]
    exact iff_of_true rfl (.inr hpow)
  · rw [if_neg hpow]
    exact iff_of_false (fun h => by cases h) (by rintro (h | h); exacts [h0 h, hpow h])

end RetryPolicy

/-- **The back-off is the exact capped exponential as long as the power fits in 32 bits.** The cap
comes after the power, and does not help it. -/
theorem exactBackoff_iff (policy : RetryPolicy) (attempt : UInt32)
    (hinit : policy.initialDelay / 1000000 < 2 ^ 64) (hmax : policy.maxDelay / 1000000 < 2 ^ 64) :
    policy.ExactBackoff attempt ↔
      attempt = 0 ∨ policy.backoffFactor.toNat ^ (attempt.toNat - 1) < 2 ^ 32 := by
  constructor
  · intro h
    exact RetryPolicy.delayForAttemptChecked_eq_some_iff.mp h.no_overflow
  · intro hpow
    have hexact := RetryPolicy.delayForAttempt_eq hinit hmax hpow
    constructor
    · exact RetryPolicy.delayForAttemptChecked_eq_some_iff.mpr hpow
    · exact hexact
    · rw [hexact]
      exact RetryPolicy.cappedExponential_le
    · intro hfactor earlier hpos hle
      have hle' := UInt32.le_iff_toNat_le.mp hle
      have hfactor' := UInt32.le_iff_toNat_le.mp hfactor
      -- the power of an earlier attempt is no larger, so it fits as well
      have hpow' : earlier = 0 ∨ policy.backoffFactor.toNat ^ (earlier.toNat - 1) < 2 ^ 32 := by
        rcases hpow with rfl | hpow
        · left
          exact UInt32.toNat_inj.mp (Nat.le_zero.mp hle')
        · right
          exact Nat.lt_of_le_of_lt (Nat.pow_le_pow_right hfactor' (by omega)) hpow
      rw [hexact, RetryPolicy.delayForAttempt_eq hinit hmax hpow']
      exact RetryPolicy.cappedExponential_mono hfactor hpos hle

theorem exactBackoff_default :
    RetryPolicy.default.ExactBackoff 4 ∧ RetryPolicy.default.delayForAttempt 4 = 800000000 :=
  ⟨(exactBackoff_iff .default 4 (by decide) (by decide)).mpr (.inr (by decide)), by decide⟩

/-- At attempt 33 the power of two is 2 ^ 32: without checks it wraps to 0, and there is no delay;
with checks it panics. -/
theorem backoff_wraps :
    RetryPolicy.default.delayForAttempt 33 = 0 ∧
    RetryPolicy.default.delayForAttemptChecked 33 = none ∧
    RetryPolicy.default.cappedExponential 33 = 30000000000 ∧
    ¬ RetryPolicy.default.ExactBackoff 33 := by
  have hrelease : RetryPolicy.default.delayForAttempt 33 = 0 := by decide
  have hexact : RetryPolicy.default.cappedExponential 33 = 30000000000 := by decide
  refine ⟨hrelease, by decide, hexact, fun h => ?_⟩
  have heq := h.exponential
  rw [hrelease, hexact] at heq
  cases heq

end Fault

end Pepita
