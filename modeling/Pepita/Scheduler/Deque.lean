import Mathlib.Data.List.Basic
import Mathlib.Tactic
import Pepita.Basic.Definitions

set_option autoImplicit false

/-! # The work-stealing deque

`WorkStealingDeque` of `scheduler.rs`: a double-ended queue behind a mutex, with its length in a
separate atomic counter that is read without the lock. Each method below is one critical section:
it changes the queue and the counter together.

The owner pushes and pops at the back; thieves take from the front. The front is the head of the
list.
-/

namespace Pepita.Sched

/-- `WorkStealingDeque`. -/
structure WorkStealingDeque (T : Type) where
  deque : List T
  len : UInt64
  capacity : UInt64
  deriving DecidableEq, Repr

namespace WorkStealingDeque

variable {T : Type}

/-! ## The model -/

/-- `WorkStealingDeque::new`. -/
def new (capacity : UInt64) : WorkStealingDeque T := ⟨[], 0, capacity⟩

/-- `push`. -/
def push (q : WorkStealingDeque T) (item : T) : WorkStealingDeque T × Except KernelError Unit :=
  if q.deque.length ≥ q.capacity.toNat then (q, .error .ublkQueueFull)
  else ({ q with deque := q.deque ++ [item], len := q.len + 1 }, .ok ())

/-- `pop`, at the back. -/
def pop (q : WorkStealingDeque T) : WorkStealingDeque T × Option T :=
  match q.deque.getLast? with
  | none => (q, none)
  | some item => ({ q with deque := q.deque.dropLast, len := q.len - 1 }, some item)

/-- `steal`, at the front. -/
def steal (q : WorkStealingDeque T) : WorkStealingDeque T × Option T :=
  match q.deque with
  | [] => (q, none)
  | item :: rest => ({ q with deque := rest, len := q.len - 1 }, some item)

/-- The loop of `steal_half`: `n` times, move the front item of the queue to the end of
`stolen`, if there is one. -/
def popFronts : Nat → List T → List T → List T × List T
  | 0, deque, stolen => (deque, stolen)
  | n + 1, [], stolen => popFronts n [] stolen
  | n + 1, item :: deque, stolen => popFronts n deque (stolen ++ [item])

/-- `steal_half`. -/
def stealHalf (q : WorkStealingDeque T) : WorkStealingDeque T × List T :=
  let stealCount := q.deque.length / 2
  if stealCount = 0 then (q, [])
  else
    let r := popFronts stealCount q.deque []
    ({ q with deque := r.1, len := q.len - UInt64.ofNat r.2.length }, r.2)

/-! ## The counter and the bound -/

/-- The counter shows the number of items, and the items fit. -/
structure WF (q : WorkStealingDeque T) : Prop where
  len_eq : q.len.toNat = q.deque.length
  le_capacity : q.deque.length ≤ q.capacity.toNat

theorem WF.new (capacity : UInt64) : (new capacity : WorkStealingDeque T).WF :=
  ⟨rfl, Nat.zero_le _⟩

theorem WF.length_lt {q : WorkStealingDeque T} (h : q.WF) : q.deque.length < 2 ^ 64 :=
  Nat.lt_of_le_of_lt h.le_capacity q.capacity.toNat_lt

/-- The unlocked test of `submit` is the locked test of `push`. -/
theorem WF.len_lt_iff {q : WorkStealingDeque T} (h : q.WF) :
    q.len < q.capacity ↔ q.deque.length < q.capacity.toNat := by
  rw [UInt64.lt_iff_toNat_lt, h.len_eq]

/-- Taking `k` items off the queue and `k` off the counter. -/
theorem WF.sub {q : WorkStealingDeque T} (h : q.WF) {rest : List T} {k : Nat}
    (hk : rest.length + k = q.deque.length) :
    (WorkStealingDeque.mk rest (q.len - UInt64.ofNat k) q.capacity).WF := by
  have hlt := h.length_lt
  have hle := h.le_capacity
  have hnat : (UInt64.ofNat k).toNat = k :=
    UInt64.toNat_ofNat_of_lt' (show k < 2 ^ 64 by omega)
  have hsub : UInt64.ofNat k ≤ q.len := by
    rw [UInt64.le_iff_toNat_le, h.len_eq, hnat]
    omega
  refine ⟨?_, by simp only; omega⟩
  rw [UInt64.toNat_sub_of_le _ _ hsub, h.len_eq, hnat]
  simp only
  omega

/-! ## What each operation does

One lemma per operation, for a well-formed queue: the items, what is handed out, and that the
result is well formed. -/

theorem popFronts_eq (n : Nat) : ∀ deque stolen : List T,
    popFronts n deque stolen = (deque.drop n, stolen ++ deque.take n) := by
  induction n with
  | zero => intro deque stolen; simp [popFronts]
  | succ n ih =>
      intro deque stolen
      cases deque with
      | nil => rw [popFronts, ih]; simp
      | cons item deque => rw [popFronts, ih]; simp

theorem push_full {q : WorkStealingDeque T} (h : q.capacity.toNat ≤ q.deque.length) (item : T) :
    q.push item = (q, .error .ublkQueueFull) := if_pos h

theorem push_room {q : WorkStealingDeque T} (hq : q.WF) (h : q.deque.length < q.capacity.toNat)
    (item : T) :
    ∃ q', q.push item = (q', .ok ()) ∧ q'.deque = q.deque ++ [item] ∧
      q'.capacity = q.capacity ∧ q'.WF := by
  refine ⟨_, if_neg (Nat.not_le.mpr h), rfl, rfl, ?_, ?_⟩
  · -- the counter cannot wrap: it is below a capacity that is a word itself
    have hlt := q.capacity.toNat_lt
    have h1 : (1 : UInt64).toNat = 1 := rfl
    simp only [UInt64.toNat_add, hq.len_eq, List.length_append, List.length_singleton, h1]
    omega
  · simp only [List.length_append, List.length_singleton]
    omega

theorem pop_nil {q : WorkStealingDeque T} (h : q.deque = []) : q.pop = (q, none) := by
  simp [pop, h]

theorem pop_snoc {q : WorkStealingDeque T} (hq : q.WF) {rest : List T} {item : T}
    (h : q.deque = rest ++ [item]) :
    ∃ q', q.pop = (q', some item) ∧ q'.deque = rest ∧ q'.capacity = q.capacity ∧ q'.WF := by
  refine ⟨⟨rest, q.len - 1, q.capacity⟩, ?_, rfl, rfl, hq.sub (k := 1) (by simp [h])⟩
  simp [pop, h]

theorem steal_nil {q : WorkStealingDeque T} (h : q.deque = []) : q.steal = (q, none) := by
  simp [steal, h]

theorem steal_cons {q : WorkStealingDeque T} (hq : q.WF) {rest : List T} {item : T}
    (h : q.deque = item :: rest) :
    ∃ q', q.steal = (q', some item) ∧ q'.deque = rest ∧ q'.capacity = q.capacity ∧ q'.WF := by
  refine ⟨⟨rest, q.len - 1, q.capacity⟩, ?_, rfl, rfl, hq.sub (k := 1) (by simp [h])⟩
  simp [steal, h]

/-- `steal_half` hands out the first half, rounded down, in order. -/
theorem stealHalf_eq {q : WorkStealingDeque T} (hq : q.WF) :
    ∃ q', q.stealHalf = (q', q.deque.take (q.deque.length / 2)) ∧
      q'.deque = q.deque.drop (q.deque.length / 2) ∧ q'.capacity = q.capacity ∧ q'.WF := by
  unfold stealHalf
  by_cases h0 : q.deque.length / 2 = 0
  · simp only [h0, if_true, List.take_zero, List.drop_zero]
    exact ⟨q, rfl, rfl, rfl, hq⟩
  · simp only [h0, if_false, popFronts_eq, List.nil_append]
    refine ⟨_, rfl, rfl, rfl, hq.sub ?_⟩
    rw [List.length_drop, List.length_take]
    omega

/-! ## Operations that take tasks -/

/-- `f` keeps a deque well formed and takes exactly the tasks `given` shows in its result. -/
def Takes {α : Type} (f : WorkStealingDeque T → WorkStealingDeque T × α) (given : α → List T) :
    Prop :=
  ∀ q : WorkStealingDeque T, q.WF →
    (f q).1.WF ∧ ((f q).1.deque ++ given (f q).2).Perm q.deque

theorem pop_takes : Takes (T := T) pop Option.toList := by
  intro q hq
  rcases List.eq_nil_or_concat q.deque with h | ⟨rest, item, h⟩
  · rw [pop_nil h]
    exact ⟨hq, by simp⟩
  · rw [List.concat_eq_append] at h
    obtain ⟨q', hpop, hrest, -, hwf⟩ := pop_snoc hq h
    rw [hpop, hrest, h]
    exact ⟨hwf, List.Perm.refl _⟩

theorem steal_takes : Takes (T := T) steal Option.toList := by
  intro q hq
  cases h : q.deque with
  | nil =>
      rw [steal_nil h, h]
      exact ⟨hq, List.Perm.refl _⟩
  | cons item rest =>
      obtain ⟨q', hsteal, hrest, -, hwf⟩ := steal_cons hq h
      rw [hsteal, hrest]
      exact ⟨hwf, List.perm_append_singleton item rest⟩

theorem stealHalf_takes : Takes (T := T) stealHalf id := by
  intro q hq
  obtain ⟨q', hhalf, hrest, -, hwf⟩ := stealHalf_eq hq
  rw [hhalf, hrest]
  refine ⟨hwf, List.perm_append_comm.trans ?_⟩
  rw [id, List.take_append_drop]

end WorkStealingDeque

end Pepita.Sched
