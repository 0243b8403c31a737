import Mathlib.Tactic

set_option autoImplicit false

/-! # Outcomes, slices and loops

What the sequential code of a systems language can do: return a value or an error, panic, or
not return. Indexing and slicing are partial (`none` is the panic), machine words wrap, and a
`while` loop runs on fuel and reports when the fuel is used up, so that termination is a
statement to be proved (`whileLoop_total`).
-/

/-- How a call ends: with a value, with an error value, by a panic, or not at all. -/
inductive Outcome (ε α : Type) where
  | ok (a : α)
  | err (e : ε)
  | panic
  | diverge
  deriving DecidableEq, Repr

namespace Outcome

variable {ε α β : Type}

def bind : Outcome ε α → (α → Outcome ε β) → Outcome ε β
  | .ok a, f => f a
  | .err e, _ => .err e
  | .panic, _ => .panic
  | .diverge, _ => .diverge

instance : Monad (Outcome ε) where
  pure := .ok
  bind := bind

@[simp] theorem ok_bind (a : α) (f : α → Outcome ε β) : (Outcome.ok a >>= f) = f a := rfl

/-- A partial operation that panics where it is undefined. -/
def orPanic : Option α → Outcome ε α
  | some a => .ok a
  | none => .panic

/-- A partial operation that gives the error `e` where it is undefined. -/
def okOr (e : ε) : Option α → Outcome ε α
  | some a => .ok a
  | none => .err e

@[simp] theorem orPanic_some (a : α) : (orPanic (some a) : Outcome ε α) = .ok a := rfl

@[simp] theorem okOr_some (e : ε) (a : α) : okOr e (some a) = .ok a := rfl

@[simp] theorem okOr_none (e : ε) : (okOr e none : Outcome ε α) = .err e := rfl

theorem bind_eq_ok {x : Outcome ε α} {f : α → Outcome ε β} {b : β} (h : (x >>= f) = .ok b) :
    ∃ a, x = .ok a ∧ f a = .ok b := by
  cases x with
  | ok a => exact ⟨a, rfl, h⟩
  | err e => cases h
  | panic => cases h
  | diverge => cases h

/-- What is done to the value afterwards does not change the error. -/
theorem bind_ok_eq_err {x : Outcome ε α} {f : α → β} {e : ε} :
    (x >>= fun a => .ok (f a)) = .err e ↔ x = .err e := by
  cases x <;> simp [Bind.bind, Outcome.bind]

theorem exists_okOr_eq_err {e : ε} {x : Option α} : (∃ e', okOr e x = .err e') ↔ x = none := by
  cases x <;> simp

/-- The call comes back to its caller, with a value or an error. -/
def Returns : Outcome ε α → Prop
  | .ok _ => True
  | .err _ => True
  | .panic => False
  | .diverge => False

/-- What is done to the value afterwards does not change whether a call comes back. -/
theorem returns_bind_ok (x : Outcome ε α) (f : α → β) :
    (x >>= fun a => .ok (f a)).Returns ↔ x.Returns := by
  cases x <;> exact Iff.rfl

theorem returns_okOr (e : ε) (x : Option α) : (okOr e x).Returns := by
  cases x <;> trivial

end Outcome

/-! ## Slices -/

section Slices

variable {α : Type*}

/-- `b[lo..hi]`; `none` when the range is not inside `b`. -/
def slice (b : List α) (lo hi : Nat) : Option (List α) :=
  if lo ≤ hi ∧ hi ≤ b.length then some ((b.drop lo).take (hi - lo)) else none

/-- `b[lo..hi].copy_from_slice(src)`; `none` when the range is not inside `b` or `src` has
another length. -/
def copyInto (b : List α) (lo hi : Nat) (src : List α) : Option (List α) :=
  if lo ≤ hi ∧ hi ≤ b.length ∧ src.length = hi - lo then some (b.take lo ++ src ++ b.drop hi)
  else none

theorem slice_of_le {b : List α} {lo hi : Nat} (h : lo ≤ hi) (hb : hi ≤ b.length) :
    slice b lo hi = some ((b.drop lo).take (hi - lo)) := if_pos ⟨h, hb⟩

theorem slice_eq_none {b : List α} {lo hi : Nat} (h : ¬ (lo ≤ hi ∧ hi ≤ b.length)) :
    slice b lo hi = none := if_neg h

theorem copyInto_of_le {b : List α} {lo hi : Nat} {src : List α} (h : lo ≤ hi)
    (hb : hi ≤ b.length) (hs : src.length = hi - lo) :
    copyInto b lo hi src = some (b.take lo ++ src ++ b.drop hi) := if_pos ⟨h, hb, hs⟩

theorem length_of_copyInto {b c : List α} {lo hi : Nat} {src : List α}
    (h : copyInto b lo hi src = some c) : c.length = b.length := by
  unfold copyInto at h
  split at h
  · next hc =>
      obtain ⟨h1, h2, h3⟩ := hc
      rw [← Option.some_inj.mp h]
      simp only [List.length_append, List.length_take, List.length_drop]
      omega
  · cases h

/-- Writing a whole leading part leaves the rest. -/
theorem copyInto_zero {b src : List α} (h : src.length ≤ b.length) :
    copyInto b 0 src.length src = some (src ++ b.drop src.length) := by
  rw [copyInto_of_le (Nat.zero_le _) h (by simp)]
  simp

/-- Byte `i` after a write: the written byte inside the range, the old one outside. -/
theorem getElem?_overwrite {b src : List α} {lo i : Nat} (h : lo + src.length ≤ b.length) :
    (b.take lo ++ src ++ b.drop (lo + src.length))[i]?
      = if lo ≤ i ∧ i < lo + src.length then src[i - lo]? else b[i]? := by
  have hlo : (b.take lo).length = lo := by rw [List.length_take]; omega
  rw [List.append_assoc]
  by_cases h1 : i < lo
  · rw [List.getElem?_append_left (by omega), List.getElem?_take_of_lt h1, if_neg (by omega)]
  · rw [List.getElem?_append_right (by omega), hlo]
    by_cases h2 : i < lo + src.length
    · rw [List.getElem?_append_left (by omega), if_pos ⟨by omega, h2⟩]
    · rw [List.getElem?_append_right (by omega), List.getElem?_drop, if_neg (by omega)]
      congr 1
      omega

/-- The element at a position, and what follows it. -/
theorem getElem?_of_drop {b rest : List α} {i : Nat} {a : α} (h : b.drop i = a :: rest) :
    b[i]? = some a ∧ b.drop (i + 1) = rest := by
  constructor
  · rw [← List.head?_drop, h, List.head?_cons]
  · rw [← List.tail_drop, h, List.tail_cons]

/-- What follows a stretch that has been read. -/
theorem drop_of_drop_append {b x rest : List α} {i : Nat} (h : b.drop i = x ++ rest) :
    b.drop (i + x.length) = rest := by
  rw [← List.drop_drop, h, List.drop_left]

end Slices

/-! ## Machine words -/

/-- Addition of 64-bit words, as a release build performs it. -/
def wadd (a b : Nat) : Nat := (a + b) % 2 ^ 64

/-- Multiplication of 64-bit words, as a release build performs it. -/
def wmul (a b : Nat) : Nat := (a * b) % 2 ^ 64

theorem wadd_of_lt {a b : Nat} (h : a + b < 2 ^ 64) : wadd a b = a + b := Nat.mod_eq_of_lt h

theorem wmul_of_lt {a b : Nat} (h : a * b < 2 ^ 64) : wmul a b = a * b := Nat.mod_eq_of_lt h

theorem wadd_lt (a b : Nat) : wadd a b < 2 ^ 64 := Nat.mod_lt _ (by decide)

/-- A sum of words that is not below its first part has not wrapped. -/
theorem wadd_of_le {a b : Nat} (ha : a < 2 ^ 64) (hb : b < 2 ^ 64) (h : a ≤ wadd a b) :
    wadd a b = a + b := by
  unfold wadd at h ⊢
  omega

/-! ## Loops -/

section Loops

variable {σ ρ : Type*}

/-- How one pass through a loop body ends: go on, `break`, or return from the function. -/
inductive Pass (σ ρ : Type*) where
  | next (s : σ)
  | stop (s : σ)
  | ret (r : ρ)

/-- How a loop ends: after its last pass, by returning from the function, or out of fuel. -/
inductive Exit (σ ρ : Type*) where
  | done (s : σ)
  | ret (r : ρ)
  | timeout

/-- `while cond(s) { body }` with at most `fuel` passes. -/
def whileLoop (cond : σ → Bool) (body : σ → Pass σ ρ) : Nat → σ → Exit σ ρ
  | 0, s => if cond s then .timeout else .done s
  | fuel + 1, s =>
      if cond s then
        match body s with
        | .next s' => whileLoop cond body fuel s'
        | .stop s' => .done s'
        | .ret r => .ret r
      else .done s

variable {cond : σ → Bool} {body : σ → Pass σ ρ}

theorem whileLoop_done {s : σ} (h : cond s = false) (fuel : Nat) :
    whileLoop cond body fuel s = .done s := by
  cases fuel <;> simp [whileLoop, h]

theorem whileLoop_next {s s' : σ} (h : cond s = true) (hb : body s = .next s') (fuel : Nat) :
    whileLoop cond body (fuel + 1) s = whileLoop cond body fuel s' := by
  simp [whileLoop, h, hb]

theorem whileLoop_stop {s s' : σ} (h : cond s = true) (hb : body s = .stop s') (fuel : Nat) :
    whileLoop cond body (fuel + 1) s = .done s' := by
  simp [whileLoop, h, hb]

theorem whileLoop_ret {s : σ} {r : ρ} (h : cond s = true) (hb : body s = .ret r) (fuel : Nat) :
    whileLoop cond body (fuel + 1) s = .ret r := by
  simp [whileLoop, h, hb]

/-- A loop returns only what one of its passes returns. -/
theorem exists_pass_of_whileLoop_ret {r : ρ} : ∀ (fuel : Nat) (s : σ),
    whileLoop cond body fuel s = .ret r → ∃ t, body t = .ret r := by
  intro fuel
  induction fuel with
  | zero =>
      intro s h
      rw [whileLoop] at h
      split_ifs at h
  | succ fuel ih =>
      intro s h
      cases hc : cond s with
      | false =>
          rw [whileLoop_done hc] at h
          cases h
      | true =>
          cases hb : body s with
          | next t =>
              rw [whileLoop_next hc hb] at h
              exact ih t h
          | stop t =>
              rw [whileLoop_stop hc hb] at h
              cases h
          | ret r' =>
              rw [whileLoop_ret hc hb] at h
              exact ⟨s, hb.trans (congrArg _ (Exit.ret.inj h))⟩

/-- **Total correctness of a loop.** With an invariant `I` and a variant `μ` that every pass
decreases, `μ s` passes are enough and the loop ends as `Q` says. -/
theorem whileLoop_total {I : σ → Prop} {μ : σ → Nat} {Q : Exit σ ρ → Prop}
    (hdone : ∀ s, I s → cond s = false → Q (.done s))
    (hnext : ∀ s s', I s → cond s = true → body s = .next s' → I s' ∧ μ s' < μ s)
    (hstop : ∀ s s', I s → cond s = true → body s = .stop s' → Q (.done s'))
    (hret : ∀ s r, I s → cond s = true → body s = .ret r → Q (.ret r)) :
    ∀ (fuel : Nat) (s : σ), I s → μ s < fuel → Q (whileLoop cond body fuel s) := by
  intro fuel
  induction fuel with
  | zero => intro s _ h; omega
  | succ fuel ih =>
      intro s hI hfuel
      cases hc : cond s with
      | false => rw [whileLoop_done hc]; exact hdone s hI hc
      | true =>
          cases hb : body s with
          | next s' =>
              obtain ⟨hI', hlt⟩ := hnext s s' hI hc hb
              rw [whileLoop_next hc hb]
              exact ih s' hI' (by omega)
          | stop s' => rw [whileLoop_stop hc hb]; exact hstop s s' hI hc hb
          | ret r => rw [whileLoop_ret hc hb]; exact hret s r hI hc hb

/-- The case of a body that always goes on: the loop ends normally, with the invariant. -/
theorem whileLoop_total_next {I : σ → Prop} {μ : σ → Nat}
    (hpass : ∀ s, I s → cond s = true → ∃ s', body s = .next s' ∧ I s' ∧ μ s' < μ s)
    {fuel : Nat} {s : σ} (hs : I s) (hfuel : μ s < fuel) :
    ∃ s', whileLoop cond body fuel s = .done s' ∧ I s' := by
  refine whileLoop_total (I := I) (μ := μ) (Q := fun e => ∃ s', e = .done s' ∧ I s')
    (fun s hI _ => ⟨s, rfl, hI⟩) ?_ ?_ ?_ fuel s hs hfuel
  · intro s s' hI hc hb
    obtain ⟨s'', heq, hI', hlt⟩ := hpass s hI hc
    rw [heq] at hb
    cases hb
    exact ⟨hI', hlt⟩
  · intro s s' hI hc hb
    obtain ⟨s'', heq, -⟩ := hpass s hI hc
    rw [heq] at hb
    cases hb
  · intro s r hI hc hb
    obtain ⟨s'', heq, -⟩ := hpass s hI hc
    rw [heq] at hb
    cases hb

/-! ### The states of a loop -/

/-- The states a loop from `s` passes through. -/
inductive Reaches (cond : σ → Bool) (body : σ → Pass σ ρ) (s : σ) : σ → Prop where
  | refl : Reaches cond body s s
  | next {t u : σ} (h : Reaches cond body s t) (hc : cond t = true) (hb : body t = .next u) :
      Reaches cond body s u

theorem Reaches.head {s t u : σ} (hc : cond s = true) (hb : body s = .next t)
    (h : Reaches cond body t u) : Reaches cond body s u := by
  induction h with
  | refl => exact .next .refl hc hb
  | next _ hc' hb' ih => exact .next ih hc' hb'

/-- A loop that never breaks ends in a state it passes through, when the condition fails. -/
theorem reaches_of_whileLoop_done (hstop : ∀ s t, body s ≠ .stop t) {t : σ} (fuel : Nat) :
    ∀ s, whileLoop cond body fuel s = .done t → Reaches cond body s t ∧ cond t = false := by
  induction fuel with
  | zero =>
      intro s h
      rw [whileLoop] at h
      split_ifs at h with hc
      cases h
      exact ⟨.refl, by simpa using hc⟩
  | succ fuel ih =>
      intro s h
      cases hc : cond s with
      | false =>
          rw [whileLoop_done hc] at h
          cases h
          exact ⟨.refl, hc⟩
      | true =>
          cases hb : body s with
          | next s' =>
              rw [whileLoop_next hc hb] at h
              obtain ⟨hreach, hend⟩ := ih s' h
              exact ⟨.head hc hb hreach, hend⟩
          | stop s' => exact absurd hb (hstop s s')
          | ret r =>
              rw [whileLoop_ret hc hb] at h
              cases h

/-- From every state a loop passes through it gets to the same end. -/
theorem whileLoop_of_reaches {s t u : σ} (h : Reaches cond body s t) :
    (∃ fuel, whileLoop cond body fuel s = .done u) →
      ∃ fuel, whileLoop cond body fuel t = .done u := by
  intro hs
  induction h with
  | refl => exact hs
  | next _ hc hb ih =>
      obtain ⟨fuel, hfuel⟩ := ih
      cases fuel with
      | zero =>
          rw [whileLoop, if_pos hc] at hfuel
          cases hfuel
      | succ fuel =>
          rw [whileLoop_next hc hb] at hfuel
          exact ⟨fuel, hfuel⟩

/-! ### Two loops side by side -/

section Relation

variable {τ π : Type*}

/-- Two passes end the same way, in related states or with related results. -/
inductive Pass.Rel (R : σ → τ → Prop) (S : ρ → π → Prop) : Pass σ ρ → Pass τ π → Prop where
  | next {s : σ} {t : τ} (h : R s t) : Pass.Rel R S (.next s) (.next t)
  | stop {s : σ} {t : τ} (h : R s t) : Pass.Rel R S (.stop s) (.stop t)
  | ret {r : ρ} {q : π} (h : S r q) : Pass.Rel R S (.ret r) (.ret q)

/-- Two loops end the same way. -/
inductive Exit.Rel (R : σ → τ → Prop) (S : ρ → π → Prop) : Exit σ ρ → Exit τ π → Prop where
  | done {s : σ} {t : τ} (h : R s t) : Exit.Rel R S (.done s) (.done t)
  | ret {r : ρ} {q : π} (h : S r q) : Exit.Rel R S (.ret r) (.ret q)
  | timeout : Exit.Rel R S .timeout .timeout

/-- **Two loops in step.** If related states agree on the condition and their passes end the same
way, so do the loops. -/
theorem whileLoop_rel {R : σ → τ → Prop} {S : ρ → π → Prop} {cond' : τ → Bool}
    {body' : τ → Pass τ π} (hcond : ∀ s t, R s t → cond s = cond' t)
    (hbody : ∀ s t, R s t → Pass.Rel R S (body s) (body' t)) (fuel : Nat) :
    ∀ s t, R s t →
      Exit.Rel R S (whileLoop cond body fuel s) (whileLoop cond' body' fuel t) := by
  induction fuel with
  | zero =>
      intro s t h
      rw [whileLoop, whileLoop, hcond s t h]
      split_ifs
      · exact .timeout
      · exact .done h
  | succ fuel ih =>
      intro s t h
      rw [whileLoop, whileLoop, hcond s t h]
      split_ifs
      · have hpass := hbody s t h
        generalize body s = p, body' t = q at hpass
        cases hpass with
        | next h' => exact ih _ _ h'
        | stop h' => exact .done h'
        | ret h' => exact .ret h'
      · exact .done h

end Relation

end Loops
