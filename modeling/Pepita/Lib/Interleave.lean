import Pepita.Lib.Machine

set_option autoImplicit false

/-! # Interleavings of clients on one object

An object that several clients call at once: a call is a series of atomic steps, and between two
steps of one client any steps of the others may happen. `Code` says what each step does to the
object and where the call goes on; `Code.machine` is the system of the object and its clients. Its
inputs say which client is next, so that a list of inputs is one interleaving. A step also reads
something from outside, such as a clock.

* `Code.step_cases`: what one action can do.
* `Code.run_invariant`, `Code.run_history`: what the steps of the code preserve, every interleaving
  preserves.
* `countP_take`, `sum_take`: how an action moves clients between the points of the code.
* `sum_replies_take`: what is in the hands of the calls and what they have given back.
* `Code.exists_finish`: calls that are never all blocked can be finished.
* `Code.returns_within`: calls that each step brings nearer to their end return, whatever the other
  clients do.
* `Code.run_solo`: a call whose steps are not interrupted has the effect of a function.
* `Code.Leads`, `Code.Ends`: such a call gets from one point to another, or to its end.
-/

/-- Replacing one element exchanges its share of a sum. -/
theorem sum_map_set {α G : Type*} [AddCommMonoid G] (f : α → G) {l : List α} {i : Nat} {a : α}
    (h : l[i]? = some a) (b : α) : ((l.set i b).map f).sum + f a = (l.map f).sum + f b := by
  obtain ⟨hi, rfl⟩ := List.getElem?_eq_some_iff.mp h
  have hsplit := List.sum_take_add_sum_drop (l.map f) i
  rw [← List.map_drop, List.drop_eq_getElem_cons hi, List.map_cons, List.sum_cons] at hsplit
  rw [List.map_set, List.sum_set, if_pos (by rw [List.length_map]; exact hi), ← hsplit,
    ← List.map_drop]
  abel

/-- How a step ends: the call goes on at a point, or returns. -/
inductive Progress (π ρ : Type*) where
  | goto (p : π)
  | ret (r : ρ)
  deriving DecidableEq, Repr

/-- Where the client is after the step; `none` when it is not in a call. -/
def Progress.point {π ρ : Type*} : Progress π ρ → Option π
  | .goto p => some p
  | .ret _ => none

/-- What the call gives back, if it returns. -/
def Progress.reply {π ρ : Type*} : Progress π ρ → Option ρ
  | .goto _ => none
  | .ret r => some r

/-- The worth of a step: that of the point or of the reply it ends with. -/
def Progress.worth {π ρ G : Type*} (f : π → G) (g : ρ → G) : Progress π ρ → G
  | .goto p => f p
  | .ret r => g r

/-- The calls `κ` of an object with the state `σ`, as atomic steps: the point a call starts at, and
the step from each point. A step reads `ω` from outside. -/
structure Code (ω σ κ π ρ : Type*) where
  entry : κ → π
  exec : ω → σ → π → σ × Progress π ρ

/-- The object and where each client is. -/
structure Clients (σ π : Type*) where
  shared : σ
  clients : List (Option π)

/-- An action of client `c`: take the first step of a call, or the next step of its call. -/
inductive Move (κ : Type*) where
  | invoke (c : Nat) (call : κ)
  | advance (c : Nat)
  deriving DecidableEq, Repr

/-- The action lets client `c` go on. -/
def Move.advances {κ : Type*} (c : Nat) : Move κ → Bool
  | .advance c' => c' = c
  | .invoke _ _ => false

namespace Code

variable {ω σ κ π ρ : Type*} (code : Code ω σ κ π ρ)

/-- The client and the point of the step an action takes. There is none when a client that is in a
call is to start another, or one that is in no call is to go on. -/
def turn (s : Clients σ π) : Move κ → Option (Nat × π)
  | .invoke c call =>
      match s.clients[c]? with
      | some none => some (c, code.entry call)
      | _ => none
  | .advance c =>
      match s.clients[c]? with
      | some (some p) => some (c, p)
      | _ => none

/-- Client `c` takes the step from the point `p`. -/
def take (w : ω) (s : Clients σ π) (c : Nat) (p : π) : Clients σ π :=
  ⟨(code.exec w s.shared p).1, s.clients.set c (code.exec w s.shared p).2.point⟩

/-- One action, with the point that was left and how the step ended. -/
def step (s : Clients σ π) (i : ω × Move κ) : Clients σ π × Option (π × Progress π ρ) :=
  match code.turn s i.2 with
  | some (c, p) => (code.take i.1 s c p, some (p, (code.exec i.1 s.shared p).2))
  | none => (s, none)

/-- `n` clients on an object that starts in the state `init`. -/
def machine (init : σ) (n : Nat) :
    Machine (Clients σ π) (ω × Move κ) (Option (π × Progress π ρ)) where
  init := ⟨init, List.replicate n none⟩
  step := code.step

/-! ## One action -/

section Step

variable {s : Clients σ π}

/-- Client `c` is about to take the step from `p`: it is there, or it is in no call and `p` starts
one. -/
def At (s : Clients σ π) (c : Nat) (p : π) : Prop :=
  s.clients[c]? = some (some p) ∨ (s.clients[c]? = some none ∧ ∃ call, p = code.entry call)

/-- Which client takes a step, and from where. -/
theorem turn_cases {a : Move κ} {c : Nat} {p : π} (h : code.turn s a = some (c, p)) :
    (a = .advance c ∧ s.clients[c]? = some (some p)) ∨
    ∃ call, a = .invoke c call ∧ s.clients[c]? = some none ∧ p = code.entry call := by
  cases a with
  | invoke c' call =>
      simp only [turn] at h
      split at h
      · next hidle =>
          cases h
          exact Or.inr ⟨call, rfl, hidle, rfl⟩
      · cases h
  | advance c' =>
      simp only [turn] at h
      split at h
      · next q hq =>
          cases h
          exact Or.inl ⟨rfl, hq⟩
      · cases h

theorem at_of_turn {a : Move κ} {c : Nat} {p : π} (h : code.turn s a = some (c, p)) :
    code.At s c p := by
  rcases code.turn_cases h with ⟨-, hp⟩ | ⟨call, -, hidle, hp⟩
  · exact Or.inl hp
  · exact Or.inr ⟨hidle, call, hp⟩

/-- **What an action can do**: nothing, or one step of one client. -/
theorem step_cases (s : Clients σ π) (i : ω × Move κ) :
    (code.turn s i.2 = none ∧ code.step s i = (s, none)) ∨
    ∃ c p, code.turn s i.2 = some (c, p) ∧ code.At s c p ∧
      code.step s i = (code.take i.1 s c p, some (p, (code.exec i.1 s.shared p).2)) := by
  unfold step
  cases h : code.turn s i.2 with
  | none => exact Or.inl ⟨rfl, rfl⟩
  | some cp => exact Or.inr ⟨cp.1, cp.2, rfl, code.at_of_turn h, rfl⟩

theorem length_clients (w : ω) (c : Nat) (p : π) :
    (code.take w s c p).clients.length = s.clients.length := List.length_set

/-- Where a client is after a step: where it was, or where the step has brought it. -/
theorem client_take {w : ω} {c c' : Nat} {p q : π}
    (h : (code.take w s c p).clients[c']? = some (some q)) :
    (c' = c ∧ (code.exec w s.shared p).2 = .goto q) ∨
    (c' ≠ c ∧ s.clients[c']? = some (some q)) := by
  change (s.clients.set c _)[c']? = _ at h
  by_cases hc : c = c'
  · subst hc
    have hlt := (List.getElem?_eq_some_iff.mp h).1
    rw [List.length_set] at hlt
    rw [List.getElem?_set_self hlt, Option.some_inj] at h
    cases hnext : (code.exec w s.shared p).2 with
    | goto q' =>
        rw [hnext] at h
        exact Or.inl ⟨rfl, congrArg Progress.goto (Option.some_inj.mp h)⟩
    | ret r =>
        rw [hnext] at h
        cases h
  · rw [List.getElem?_set_ne hc] at h
    exact Or.inr ⟨Ne.symm hc, h⟩

/-- A step moves one client: it leaves the point `p` and goes where the step ends. A client that
starts a call was at no point, which counts as the entry of the call. -/
theorem countP_take {q : Option π → Bool} (hentry : ∀ call, q (some (code.entry call)) = q none)
    {c : Nat} {p : π} (w : ω) (h : code.At s c p) :
    (code.take w s c p).clients.countP q + (q (some p)).toNat
      = s.clients.countP q + (q (code.exec w s.shared p).2.point).toNat := by
  obtain ⟨old, hget, hold⟩ : ∃ old, s.clients[c]? = some old ∧ q (some p) = q old := by
    rcases h with h | ⟨h, call, rfl⟩
    · exact ⟨_, h, rfl⟩
    · exact ⟨_, h, hentry call⟩
  obtain ⟨hc, rfl⟩ := List.getElem?_eq_some_iff.mp hget
  have hpos : (q s.clients[c]).toNat ≤ s.clients.countP q := by
    cases hq : q s.clients[c] with
    | false => exact Nat.zero_le _
    | true => exact List.countP_pos_iff.mpr ⟨_, List.getElem_mem hc, hq⟩
  unfold take
  rw [List.countP_set hc, hold]
  cases hq : q s.clients[c] <;> cases hq' : q (code.exec w s.shared p).2.point <;> simp_all

/-- The sum of a measure of the points changes by the measure of the point that client `c` leaves
and of the one it comes to. -/
theorem sum_set {G : Type*} [AddCommMonoid G] (f : Option π → G) {c : Nat} {old : Option π} (w : ω)
    (p : π) (hget : s.clients[c]? = some old) :
    ((code.take w s c p).clients.map f).sum + f old
      = (s.clients.map f).sum + f (code.exec w s.shared p).2.point :=
  sum_map_set f hget _

/-- The same for a measure that takes a client in no call for one at the entry of any. -/
theorem sum_take {G : Type*} [AddCommMonoid G] {f : Option π → G}
    (hentry : ∀ call, f (some (code.entry call)) = f none) {c : Nat} {p : π} (w : ω)
    (h : code.At s c p) :
    ((code.take w s c p).clients.map f).sum + f (some p)
      = (s.clients.map f).sum + f (code.exec w s.shared p).2.point := by
  rcases h with h | ⟨h, call, rfl⟩
  · exact code.sum_set f w p h
  · rw [hentry call]
    exact code.sum_set f w (code.entry call) h

end Step

/-! ## Invariants -/

section Invariants

variable (init : σ) (n : Nat)

/-- What every step of a client preserves holds after every interleaving. -/
theorem run_invariant {I : Clients σ π → Prop} (h0 : I (code.machine init n).init)
    (htake : ∀ w s c p, I s → code.At s c p → I (code.take w s c p)) (is : List (ω × Move κ)) :
    I ((code.machine init n).run is) := by
  refine (code.machine init n).run_invariant h0 ?_ is
  intro s i hs
  show I (code.step s i).1
  rcases code.step_cases s i with ⟨-, heq⟩ | ⟨c, p, -, hp, heq⟩
  · rw [heq]
    exact hs
  · rw [heq]
    exact htake i.1 s c p hs hp

/-- The same for a relation between the history since a state and the state. An action that is not
possible is part of the history and changes nothing. -/
theorem runFrom_turns
    {I : List ((ω × Move κ) × Option (π × Progress π ρ)) → Clients σ π → Prop} (s₀ : Clients σ π)
    (h0 : I [] s₀) (hskip : ∀ h s i, I h s → I (h ++ [(i, none)]) s)
    (htake : ∀ h s i c p, I h s → code.turn s i.2 = some (c, p) →
      I (h ++ [(i, some (p, (code.exec i.1 s.shared p).2))]) (code.take i.1 s c p))
    (is : List (ω × Move κ)) :
    I ((code.machine init n).traceFrom s₀ is) ((code.machine init n).runFrom s₀ is) := by
  induction is using List.reverseRecOn with
  | nil => exact h0
  | append_singleton is i ih =>
      rw [Machine.traceFrom_append, Machine.runFrom_append]
      show I (_ ++ [(i, (code.step _ i).2)]) (code.step _ i).1
      rcases code.step_cases ((code.machine init n).runFrom s₀ is) i with
        ⟨-, heq⟩ | ⟨c, p, hturn, -, heq⟩
      · rw [heq]
        exact hskip _ _ i ih
      · rw [heq]
        exact htake _ _ i c p ih hturn

/-- The same where it does not matter which action has led to the step. -/
theorem runFrom_history
    {I : List ((ω × Move κ) × Option (π × Progress π ρ)) → Clients σ π → Prop} (s₀ : Clients σ π)
    (h0 : I [] s₀) (hskip : ∀ h s i, I h s → I (h ++ [(i, none)]) s)
    (htake : ∀ h s i c p, I h s → code.At s c p →
      I (h ++ [(i, some (p, (code.exec i.1 s.shared p).2))]) (code.take i.1 s c p))
    (is : List (ω × Move κ)) :
    I ((code.machine init n).traceFrom s₀ is) ((code.machine init n).runFrom s₀ is) :=
  code.runFrom_turns init n s₀ h0 hskip
    (fun h s i c p hI hturn => htake h s i c p hI (code.at_of_turn hturn)) is

/-- The case of a whole run. -/
theorem run_history {I : List ((ω × Move κ) × Option (π × Progress π ρ)) → Clients σ π → Prop}
    (h0 : I [] (code.machine init n).init) (hskip : ∀ h s i, I h s → I (h ++ [(i, none)]) s)
    (htake : ∀ h s i c p, I h s → code.At s c p →
      I (h ++ [(i, some (p, (code.exec i.1 s.shared p).2))]) (code.take i.1 s c p))
    (is : List (ω × Move κ)) :
    I ((code.machine init n).trace is) ((code.machine init n).run is) :=
  code.runFrom_history init n _ h0 hskip htake is

end Invariants

/-! ## What the calls give back -/

section Replies

/-- The replies of a history, in the order of the returns. -/
def replies (h : List ((ω × Move κ) × Option (π × Progress π ρ))) : List ρ :=
  h.filterMap fun e => e.2.bind fun step => step.2.reply

theorem replies_skip (h : List ((ω × Move κ) × Option (π × Progress π ρ))) (i : ω × Move κ) :
    replies (h ++ [(i, none)]) = replies h := by
  simp [replies]

theorem replies_take (h : List ((ω × Move κ) × Option (π × Progress π ρ))) (i : ω × Move κ) (p : π)
    (next : Progress π ρ) :
    replies (h ++ [(i, some (p, next))]) = replies h ++ next.reply.toList := by
  cases next <;> simp [replies, Progress.reply]

/-- A step exchanges the worth of the point it leaves for its own, in the sum of what the clients
have in hand and what was given back. -/
theorem sum_replies_take {G : Type*} [AddCommMonoid G] {f : π → G} {g : ρ → G}
    (hentry : ∀ call, f (code.entry call) = 0) {s : Clients σ π} {c : Nat} {p : π}
    (h : List ((ω × Move κ) × Option (π × Progress π ρ))) (i : ω × Move κ) (hp : code.At s c p) :
    ((replies (h ++ [(i, some (p, (code.exec i.1 s.shared p).2))])).map g).sum
        + ((code.take i.1 s c p).clients.map fun client => client.elim 0 f).sum + f p
      = ((replies h).map g).sum + (s.clients.map fun client => client.elim 0 f).sum
        + (code.exec i.1 s.shared p).2.worth f g := by
  have hmove := code.sum_take (f := fun client => client.elim 0 f) hentry i.1 hp
  rw [replies_take, List.map_append, List.sum_append, add_assoc]
  change _ + f p = _ at hmove
  rw [hmove]
  cases (code.exec i.1 s.shared p).2 with
  | goto q => simp [Progress.reply, Progress.point, Progress.worth, add_assoc]
  | ret r =>
      simp only [Progress.reply, Progress.point, Progress.worth, Option.toList_some, List.map_cons,
        List.map_nil, List.sum_cons, List.sum_nil, Option.elim_none, add_zero]
      exact add_right_comm _ _ _

end Replies

/-! ## Calls that can finish -/

/-- **No deadlock.** If in every state with `I` in which some client is in a call some client in a
call can take a step that lowers its measure, then from every state with `I` the calls under way can
all be finished. The induction is on the sum of the measures. -/
theorem exists_finish {I : Clients σ π → Prop} {measure : Option π → Nat} (w : ω)
    (htake : ∀ (s : Clients σ π) (c : Nat) (p : π), I s → s.clients[c]? = some (some p) →
      I (code.take w s c p))
    (hgo : ∀ (s : Clients σ π) (c : Nat) (p : π), I s → s.clients[c]? = some (some p) →
      ∃ (c' : Nat) (p' : π), s.clients[c']? = some (some p') ∧
        measure (code.exec w s.shared p').2.point < measure (some p'))
    (init : σ) (n : Nat) :
    ∀ (k : Nat) (s : Clients σ π), (s.clients.map measure).sum ≤ k → I s →
      ∃ cs : List Nat, ∀ x ∈ ((code.machine init n).runFrom s
        (cs.map fun c => (w, .advance c))).clients, x = none := by
  intro k
  induction k with
  | zero =>
      intro s hk hs
      refine ⟨[], fun x hx => ?_⟩
      cases x with
      | none => rfl
      | some p =>
          -- a client in a call could lower its measure below zero
          obtain ⟨c, hc⟩ := List.mem_iff_getElem?.mp hx
          obtain ⟨c', p', hc', hlt⟩ := hgo s c p hs hc
          have hsum := code.sum_set measure w p' hc'
          omega
  | succ k ih =>
      intro s hk hs
      by_cases hall : ∀ x ∈ s.clients, x = none
      · exact ⟨[], hall⟩
      · simp only [not_forall] at hall
        obtain ⟨x, hx, hne⟩ := hall
        obtain ⟨p, rfl⟩ := Option.ne_none_iff_exists'.mp hne
        obtain ⟨c, hc⟩ := List.mem_iff_getElem?.mp hx
        obtain ⟨c', p', hc', hlt⟩ := hgo s c p hs hc
        have hsum := code.sum_set measure w p' hc'
        obtain ⟨cs, hcs⟩ := ih (code.take w s c' p') (by omega) (htake s c' p' hs hc')
        refine ⟨c' :: cs, ?_⟩
        rw [List.map_cons]
        show ∀ x ∈ ((code.machine init n).runFrom (code.step s (w, .advance c')).1 _).clients, _
        have hstep : (code.step s (w, .advance c')).1 = code.take w s c' p' := by
          simp only [step, turn, hc']
        rw [hstep]
        exact hcs

/-! ## Calls that return by themselves -/

/-- **Bounded calls.** If every step keeps `I`, and while it holds each step of client `c` lowers a
measure, the call that `c` is in returns once `c` has taken as many steps as the measure says. The
other clients may do anything in between. The induction is on the actions. -/
theorem returns_within {c : Nat} {I : Clients σ π → Prop} {μ : Option π → Nat}
    (hpos : ∀ x, μ x = 0 ↔ x = none)
    (hkeep : ∀ w s c' p, I s → code.At s c' p → (c' = c → s.clients[c]? = some (some p)) →
      I (code.take w s c' p))
    (hlower : ∀ w s p, I s → s.clients[c]? = some (some p) →
      μ (code.exec w s.shared p).2.point < μ (some p))
    (init : σ) (n : Nat) (is : List (ω × Move κ)) :
    ∀ (s : Clients σ π) (x : Option π), I s → s.clients[c]? = some x →
      (∀ i ∈ is, ∀ call, i.2 ≠ .invoke c call) →
      μ x ≤ is.countP (fun i => i.2.advances c) →
      ((code.machine init n).runFrom s is).clients[c]? = some none := by
  induction is with
  | nil =>
      intro s x hI hx _ hle
      rw [(hpos x).mp (Nat.le_zero.mp hle)] at hx
      exact hx
  | cons i is ih =>
      intro s x hI hx hno hle
      have hno' : ∀ j ∈ is, ∀ call, j.2 ≠ .invoke c call :=
        fun j hj => hno j (List.mem_cons_of_mem i hj)
      rw [List.countP_cons] at hle
      show ((code.machine init n).runFrom (code.step s i).1 is).clients[c]? = some none
      rcases code.step_cases s i with ⟨hturn, heq⟩ | ⟨c', p, hturn, hat, heq⟩
      · rw [heq]
        refine ih s x hI hx hno' ?_
        split_ifs at hle with hadv
        · -- the client was to go on and could not, so it is in no call
          have hnone : x = none := by
            obtain ⟨w, a⟩ := i
            cases a with
            | invoke c' call => cases hadv
            | advance c' =>
                have hc : c' = c := by simpa [Move.advances] using hadv
                subst hc
                cases x with
                | none => rfl
                | some p =>
                    simp only [turn, hx] at hturn
                    cases hturn
          rw [hnone, (hpos none).mpr rfl]
          exact Nat.zero_le _
        · exact hle
      · rw [heq]
        by_cases hc : c' = c
        · subst hc
          rcases code.turn_cases hturn with ⟨-, hp⟩ | ⟨call, hcall, -, -⟩
          · -- it is the client's own step, from the point it was at
            obtain rfl : x = some p := Option.some_inj.mp (hx.symm.trans hp)
            have hI' := hkeep i.1 s c' p hI hat fun _ => hp
            have hlt := hlower i.1 s p hI hp
            refine ih (code.take i.1 s c' p) (code.exec i.1 s.shared p).2.point hI' ?_ hno' ?_
            · exact List.getElem?_set_self (List.getElem?_eq_some_iff.mp hx).1
            · split_ifs at hle <;> omega
          · exact absurd hcall (hno i List.mem_cons_self call)
        · have hI' := hkeep i.1 s c' p hI hat fun h => absurd h hc
          have hadv : i.2.advances c = false := by
            rcases code.turn_cases hturn with ⟨ha, -⟩ | ⟨call, ha, -, -⟩
            · rw [ha]
              simpa [Move.advances] using hc
            · rw [ha]
              rfl
          rw [hadv] at hle
          refine ih (code.take i.1 s c' p) x hI' ?_ hno' hle
          show (s.clients.set c' _)[c]? = some x
          rw [List.getElem?_set_ne hc]
          exact hx

/-! ## Calls that are not interrupted -/

/-- The call from the point `p` without other clients, in at most `fuel` steps: the object it
leaves, and what it returns. -/
def alone (w : ω) : Nat → σ → π → Option (σ × ρ)
  | 0, _, _ => none
  | fuel + 1, s, p =>
      match code.exec w s p with
      | (s', .ret r) => some (s', r)
      | (s', .goto p') => alone w fuel s' p'

variable {code}

/-- Without other clients the call from the point `a.2` ends, and leaves and returns `x`. -/
def Ends (code : Code ω σ κ π ρ) (w : ω) (a : σ × π) (x : σ × ρ) : Prop :=
  ∃ fuel, code.alone w fuel a.1 a.2 = some x

theorem Ends.ret {w : ω} {s s' : σ} {p : π} {r : ρ} (h : code.exec w s p = (s', .ret r)) :
    code.Ends w (s, p) (s', r) := by
  refine ⟨1, ?_⟩
  rw [alone, h]

theorem Ends.goto {w : ω} {s : σ} {p : π} {x : σ × ρ} (s' : σ) (p' : π)
    (h : code.exec w s p = (s', .goto p')) (hrest : code.Ends w (s', p') x) :
    code.Ends w (s, p) x := by
  obtain ⟨fuel, hfuel⟩ := hrest
  refine ⟨fuel + 1, ?_⟩
  rw [alone, h]
  exact hfuel

theorem replies_cons_goto (i : ω × Move κ) (p q : π)
    (h : List ((ω × Move κ) × Option (π × Progress π ρ))) :
    replies ((i, some (p, .goto q)) :: h) = replies h := rfl

/-! ### With an outside that changes

The outside may be another one at every step. A clock beside the object makes it a part of the
state. -/

/-- The object with a clock that counts the steps; each reads what `ws` has for its time. -/
def clocked (code : Code ω σ κ π ρ) (ws : Nat → ω) : Code Unit (Nat × σ) κ π ρ where
  entry := code.entry
  exec := fun _ s p => ((s.1 + 1, (code.exec (ws s.1) s.2 p).1), (code.exec (ws s.1) s.2 p).2)

/-- The first step of a call of client `c` and `k` more, without steps of others between. -/
def solo (ws : Nat → ω) (c : Nat) (call : κ) (k : Nat) : List (ω × Move κ) :=
  (ws 0, .invoke c call) :: (List.range' 1 k).map fun t => (ws t, .advance c)

theorem solo_const (w : ω) (c : Nat) (call : κ) (k : Nat) :
    solo (fun _ => w) c call k = (w, .invoke c call) :: List.replicate k (w, .advance c) := by
  rw [solo, List.map_const', List.length_range']

/-- A call for which the outside stays the same. -/
theorem Ends.clocked {w : ω} {s s' : σ} {p : π} {r : ρ} (h : code.Ends w (s, p) (s', r)) (t : Nat) :
    ∃ t', (code.clocked fun _ => w).Ends () ((t, s), p) ((t', s'), r) := by
  obtain ⟨fuel, hfuel⟩ := h
  induction fuel generalizing s p t with
  | zero => cases hfuel
  | succ fuel ih =>
      rw [alone] at hfuel
      split at hfuel
      · next s₁ r₁ hexec =>
          cases hfuel
          refine ⟨t + 1, .ret ?_⟩
          simp only [Code.clocked, hexec]
      · next s₁ p₁ hexec =>
          obtain ⟨t', hends⟩ := ih (t + 1) hfuel
          refine ⟨t', .goto (t + 1, s₁) p₁ ?_ hends⟩
          simp only [Code.clocked, hexec]

/-- The turn `m` of client `c`, and its steps after that until its call returns. The induction is on
these steps. -/
theorem run_turn {ws : Nat → ω} {t' : Nat} {s' : σ} {r : ρ} {c : Nat} (init : σ) (n fuel : Nat) :
    ∀ {t : Nat} {s : Clients σ π} {m : Move κ} {p : π}, code.turn s m = some (c, p) →
    c < s.clients.length →
    (code.clocked ws).alone () fuel (t, s.shared) p = some ((t', s'), r) →
    ∃ k, let acts := (ws t, m) :: (List.range' (t + 1) k).map fun i => (ws i, .advance c)
      (code.machine init n).runFrom s acts = ⟨s', s.clients.set c none⟩ ∧
      replies ((code.machine init n).traceFrom s acts) = [r] := by
  induction fuel with
  | zero =>
      intro t s m p _ _ h
      cases h
  | succ fuel ih =>
      intro t s m p hturn hc h
      have hstep : (code.machine init n).step s (ws t, m)
          = (code.take (ws t) s c p, some (p, (code.exec (ws t) s.shared p).2)) := by
        show code.step s (ws t, m) = _
        simp only [step, hturn]
      rw [alone] at h
      simp only [clocked] at h
      cases hexec : code.exec (ws t) s.shared p with
      | mk s₁ next =>
          rw [hexec] at h hstep
          have htake : code.take (ws t) s c p = ⟨s₁, s.clients.set c next.point⟩ := by
            rw [take, hexec]
          rw [htake] at hstep
          cases next with
          | ret r₁ =>
              cases h
              refine ⟨0, ?_, ?_⟩
              · show ((code.machine init n).step s (ws t, m)).1 = _
                rw [hstep]
                rfl
              · show replies [((ws t, m), ((code.machine init n).step s _).2)] = _
                rw [hstep]
                rfl
          | goto p₁ =>
              have hturn₁ :
                  code.turn ⟨s₁, s.clients.set c (some p₁)⟩ (.advance c) = some (c, p₁) := by
                simp only [turn, List.getElem?_set_self hc]
              have hc₁ : c < (s.clients.set c (some p₁)).length := by
                rw [List.length_set]
                exact hc
              obtain ⟨k, hrun, htrace⟩ := ih hturn₁ hc₁ h
              refine ⟨k + 1, ?_, ?_⟩
              · rw [List.range'_succ, List.map_cons]
                show (code.machine init n).runFrom ((code.machine init n).step s _).1 _ = _
                rw [hstep]
                exact hrun.trans (by rw [List.set_set])
              · rw [List.range'_succ, List.map_cons, Machine.traceFrom, hstep, replies_cons_goto]
                exact htrace

/-- **A call that is not interrupted** has the effect of `alone` and returns what that returns, and
its client is free again. -/
theorem run_solo {ws : Nat → ω} {t' : Nat} {s' : σ} {r : ρ} {c : Nat} {s : Clients σ π} {call : κ}
    (init : σ) (n : Nat) (hidle : s.clients[c]? = some none)
    (h : (code.clocked ws).Ends () ((0, s.shared), code.entry call) ((t', s'), r)) :
    ∃ k, (code.machine init n).runFrom s (solo ws c call k) = ⟨s', s.clients⟩ ∧
      replies ((code.machine init n).traceFrom s (solo ws c call k)) = [r] := by
  obtain ⟨hc, hget⟩ := List.getElem?_eq_some_iff.mp hidle
  have hback : s.clients.set c none = s.clients := by
    rw [← hget]
    exact List.set_getElem_self hc
  have hturn : code.turn s (.invoke c call) = some (c, code.entry call) := by
    simp only [turn, hidle]
  obtain ⟨fuel, h⟩ := h
  obtain ⟨k, hrun, htrace⟩ := run_turn init n fuel hturn hc h
  exact ⟨k, hrun.trans (by rw [hback]), htrace⟩

/-- The case of an outside that stays the same. -/
theorem run_alone_replies {w : ω} {s' : σ} {r : ρ} {c : Nat} {s : Clients σ π} {call : κ}
    (init : σ) (n : Nat) (hidle : s.clients[c]? = some none)
    (h : code.Ends w (s.shared, code.entry call) (s', r)) :
    ∃ k, (code.machine init n).runFrom s ((w, .invoke c call) :: List.replicate k (w, .advance c))
        = ⟨s', s.clients⟩ ∧
      replies ((code.machine init n).traceFrom s
        ((w, .invoke c call) :: List.replicate k (w, .advance c))) = [r] := by
  obtain ⟨t', hends⟩ := h.clocked 0
  obtain ⟨k, hk⟩ := run_solo init n hidle hends
  rw [solo_const] at hk
  exact ⟨k, hk⟩

theorem run_alone {w : ω} {init s' : σ} {r : ρ} {n c fuel : Nat} {s : Clients σ π} {call : κ}
    (hidle : s.clients[c]? = some none)
    (h : code.alone w fuel s.shared (code.entry call) = some (s', r)) :
    ∃ k, (code.machine init n).runFrom s ((w, .invoke c call) :: List.replicate k (w, .advance c))
      = ⟨s', s.clients⟩ := by
  obtain ⟨k, hk, -⟩ := run_alone_replies init n hidle ⟨fuel, h⟩
  exact ⟨k, hk⟩

/-- Without other clients a call gets from the point `a.2` to `b.2`, and the object from `a.1` to
`b.1`. -/
def Leads (code : Code ω σ κ π ρ) (w : ω) : σ × π → σ × π → Prop :=
  Relation.ReflTransGen fun a b => code.exec w a.1 a.2 = (b.1, .goto b.2)

theorem leads_step {w : ω} {s s' : σ} {p p' : π} (h : code.exec w s p = (s', .goto p')) :
    code.Leads w (s, p) (s', p') := .single h

/-- One step at the time `t`. -/
theorem leads_tick {ws : Nat → ω} {t : Nat} {s s' : σ} {p p' : π}
    (h : code.exec (ws t) s p = (s', .goto p')) :
    (code.clocked ws).Leads () ((t, s), p) ((t + 1, s'), p') :=
  leads_step (by simp only [clocked, h])

theorem ends_tick {ws : Nat → ω} {t : Nat} {s s' : σ} {p : π} {r : ρ}
    (h : code.exec (ws t) s p = (s', .ret r)) :
    (code.clocked ws).Ends () ((t, s), p) ((t + 1, s'), r) :=
  .ret (by simp only [clocked, h])

/-- A call that gets to a point ends as from there. The induction is on the steps before it. -/
theorem Leads.ends {w : ω} {a b : σ × π} {x : σ × ρ} (h : code.Leads w a b)
    (hend : code.Ends w b x) : code.Ends w a x := by
  induction h using Relation.ReflTransGen.head_induction_on with
  | refl => exact hend
  | head hstep _ ih => exact .goto _ _ hstep ih

/-- A client that goes on alone from a point to another. -/
theorem Leads.run {w : ω} {a b : σ × π} {c : Nat} (init : σ) (n : Nat) (h : code.Leads w a b)
    {clients : List (Option π)} (hc : clients[c]? = some (some a.2)) :
    ∃ k, (code.machine init n).runFrom ⟨a.1, clients⟩ (List.replicate k (w, .advance c))
      = ⟨b.1, clients.set c (some b.2)⟩ := by
  have hlt := (List.getElem?_eq_some_iff.mp hc).1
  induction h with
  | refl =>
      refine ⟨0, ?_⟩
      rw [← (List.getElem?_eq_some_iff.mp hc).2, List.set_getElem_self]
      rfl
  | @tail b d _ hstep ih =>
      obtain ⟨k, hk⟩ := ih
      refine ⟨k + 1, ?_⟩
      rw [List.replicate_succ', Machine.runFrom_append, hk]
      show (code.step _ (w, .advance c)).1 = _
      have hget : (clients.set c (some b.2))[c]? = some (some b.2) := List.getElem?_set_self hlt
      simp only [step, turn, hget, take, hstep, Progress.point, List.set_set]

end Code
