import Pepita.Lib.Interleave

set_option autoImplicit false

/-! # Linearization

A sequential machine explains the interleavings of a code if every call performs its operations on
it at definite steps: `ops` says which operations take effect at a step. `Code.logged` is the system
of `Code.machine` with a record of them. The machine is run beside the object, one log holds the
operations of all clients in the order of the steps, and a session for each client its calls, with
the operations and the reply of each.

`Linearizes` is what has to be shown of single steps. It gives, for every interleaving, that

* the log is a history of the sequential machine (`LogInv.legal`),
* it contains the operations of each client, call by call (`LogInv.client`),
* the operations of a call explain its reply (`LogInv.explained`), and
* it only grows (`Code.log_prefix`). So a call that has returned comes before a call that starts
  later.

`Linearizes.within` tells that nothing else is in the record: its calls are calls that were made.
-/

/-- The calls of one client: those that have returned, each with its operations and its reply, and
the call it is in, with its operations so far. -/
structure Session (κ ι ο ρ : Type*) where
  done : List (κ × List (ι × ο) × ρ)
  call : Option (κ × List (ι × ο))

namespace Session

variable {κ π ι ο ρ : Type*}

/-- The operations of a client, in order. -/
def operations (s : Session κ ι ο ρ) : List (ι × ο) :=
  s.done.flatMap (fun d => d.2.1) ++ s.call.elim [] fun d => d.2

/-- The call that an action belongs to. -/
def current (s : Session κ ι ο ρ) : Move κ → Option (κ × List (ι × ο))
  | .invoke _ call => some (call, [])
  | .advance _ => s.call

/-- A step of the call `call`, in which the operations `es` took effect. -/
def record (s : Session κ ι ο ρ) (call : κ × List (ι × ο)) (es : List (ι × ο)) :
    Progress π ρ → Session κ ι ο ρ
  | .goto _ => ⟨s.done, some (call.1, call.2 ++ es)⟩
  | .ret r => ⟨s.done ++ [(call.1, call.2 ++ es, r)], none⟩

theorem operations_record (s : Session κ ι ο ρ) (call : κ × List (ι × ο)) (es : List (ι × ο))
    (r : Progress π ρ) :
    (s.record call es r).operations = s.done.flatMap (fun d => d.2.1) ++ (call.2 ++ es) := by
  cases r with
  | goto p => rfl
  | ret r => simp [record, operations, List.flatMap_append]

end Session

/-- The system of an object and its clients, the sequential machine beside it, and the record of the
operations. -/
structure Logged (σ π κ ρ τ ι ο : Type*) where
  sys : Clients σ π
  abs : τ
  log : List (Nat × ι × ο)
  sessions : Nat → Session κ ι ο ρ

namespace Logged

variable {σ π κ ρ τ ι ο : Type*}

/-- The operations that took effect so far. -/
def ops (g : Logged σ π κ ρ τ ι ο) : List ι := g.log.map fun e => e.2.1

/-- The log without the clients. -/
def events (g : Logged σ π κ ρ τ ι ο) : List (ι × ο) := g.log.map fun e => e.2

/-- The operations of client `c` in the log. -/
def eventsOf (g : Logged σ π κ ρ τ ι ο) (c : Nat) : List (ι × ο) :=
  (g.log.filter fun e => e.1 = c).map fun e => e.2

end Logged

namespace Code

variable {ω σ κ π ρ τ ι ο : Type*}

section Logging

variable (code : Code ω σ κ π ρ) (A : Machine τ ι ο) (ops : σ → π → List ι)

/-- Client `c` takes the step from the point `p` in its call `call`. -/
def logTake (g : Logged σ π κ ρ τ ι ο) (w : ω) (c : Nat) (p : π) (call : κ × List (ι × ο)) :
    Logged σ π κ ρ τ ι ο where
  sys := code.take w g.sys c p
  abs := A.runFrom g.abs (ops g.sys.shared p)
  log := g.log ++ (A.traceFrom g.abs (ops g.sys.shared p)).map fun e => (c, e)
  sessions := Function.update g.sessions c ((g.sessions c).record call
    (A.traceFrom g.abs (ops g.sys.shared p)) (code.exec w g.sys.shared p).2)

/-- One action. -/
def logStep (g : Logged σ π κ ρ τ ι ο) (i : ω × Move κ) : Logged σ π κ ρ τ ι ο :=
  match code.turn g.sys i.2 with
  | some (c, p) =>
      match (g.sessions c).current i.2 with
      | some call => code.logTake A ops g i.1 c p call
      | none => { g with sys := code.take i.1 g.sys c p }
  | none => g

/-- `n` clients on an object that starts in the state `init`, with the record of their calls. -/
def logged (init : σ) (n : Nat) : Machine (Logged σ π κ ρ τ ι ο) (ω × Move κ) Unit where
  init := ⟨⟨init, List.replicate n none⟩, A.init, [], fun _ => ⟨[], none⟩⟩
  step := fun g i => (code.logStep A ops g i, ())

theorem logStep_sys (g : Logged σ π κ ρ τ ι ο) (i : ω × Move κ) :
    (code.logStep A ops g i).sys = (code.step g.sys i).1 := by
  unfold logStep step
  cases code.turn g.sys i.2 with
  | none => rfl
  | some cp =>
      dsimp only
      split
      · rfl
      · rfl

/-- The record does not change what happens. -/
theorem logged_sys (init : σ) (n : Nat) (is : List (ω × Move κ)) :
    ((code.logged A ops init n).run is).sys = (code.machine init n).run is := by
  induction is using List.reverseRecOn with
  | nil => rfl
  | append_singleton is i ih =>
      rw [Machine.run_snoc, Machine.run_snoc, ← ih]
      exact code.logStep_sys A ops _ i

theorem log_prefix_step (g : Logged σ π κ ρ τ ι ο) (i : ω × Move κ) :
    g.log <+: (code.logStep A ops g i).log := by
  unfold logStep
  cases code.turn g.sys i.2 with
  | none => exact List.prefix_rfl
  | some cp =>
      dsimp only
      split
      · exact List.prefix_append _ _
      · exact List.prefix_rfl

/-- **The log only grows.** -/
theorem log_prefix (init : σ) (n : Nat) {js is : List (ω × Move κ)} (h : js <+: is) :
    ((code.logged A ops init n).run js).log <+: ((code.logged A ops init n).run is).log := by
  obtain ⟨ks, rfl⟩ := h
  induction ks using List.reverseRecOn with
  | nil =>
      rw [List.append_nil]
  | append_singleton ks i ih =>
      rw [← List.append_assoc, Machine.run_snoc]
      exact ih.trans (code.log_prefix_step A ops _ i)

end Logging

/-! ## What single steps owe -/

/-- A call `k` with the operations `l` behind it goes on at a point that knows them, or returns a
reply that they explain. -/
def Continues (Done : κ → π → List (ι × ο) → Prop) (Explains : κ → List (ι × ο) → ρ → Prop)
    (k : κ) (l : List (ι × ο)) : Progress π ρ → Prop
  | .goto p => Done k p l
  | .ret r => Explains k l r

variable (code : Code ω σ κ π ρ) (A : Machine τ ι ο) (ops : σ → π → List ι)

/-- **The obligation of a linearization.** `R` relates the system and the sequential machine;
`Done k p l` says that a call `k` at the point `p` has performed the operations `l`; `Explains k l r`
that a call `k` may return `r` after the operations `l`. -/
structure Linearizes (R : Clients σ π → τ → Prop) (Done : κ → π → List (ι × ο) → Prop)
    (Explains : κ → List (ι × ο) → ρ → Prop) : Prop where
  entry : ∀ k, Done k (code.entry k) []
  take : ∀ w s t c p k l, R s t → code.At s c p → Done k p l →
    R (code.take w s c p) (A.runFrom t (ops s.shared p))
  next : ∀ w s t c p k l, R s t → code.At s c p → Done k p l →
    Continues Done Explains k (l ++ A.traceFrom t (ops s.shared p)) (code.exec w s.shared p).2

/-- What the record says about the system. -/
structure LogInv (R : Clients σ π → τ → Prop) (Done : κ → π → List (ι × ο) → Prop)
    (Explains : κ → List (ι × ο) → ρ → Prop) (g : Logged σ π κ ρ τ ι ο) : Prop where
  rel : R g.sys g.abs
  abs_eq : g.abs = A.run g.ops
  legal : g.events = A.trace g.ops
  client : ∀ c, g.eventsOf c = (g.sessions c).operations
  idle : ∀ c, g.sys.clients[c]? = some none → (g.sessions c).call = none
  inside : ∀ c p, g.sys.clients[c]? = some (some p) →
    ∃ k l, (g.sessions c).call = some (k, l) ∧ Done k p l
  explained : ∀ c k l r, (k, l, r) ∈ (g.sessions c).done → Explains k l r

section Invariant

variable {code A ops} {R : Clients σ π → τ → Prop} {Done : κ → π → List (ι × ο) → Prop}
  {Explains : κ → List (ι × ο) → ρ → Prop} {g : Logged σ π κ ρ τ ι ο}

/-- The call of an action: the one that starts, or the one the client is in. -/
theorem LogInv.current (hl : Linearizes code A ops R Done Explains)
    (h : LogInv A R Done Explains g) {m : Move κ} {c : Nat} {p : π}
    (hturn : code.turn g.sys m = some (c, p)) :
    ∃ k l, (g.sessions c).current m = some (k, l) ∧ Done k p l ∧
      (g.sessions c).done.flatMap (fun d => d.2.1) ++ l = (g.sessions c).operations := by
  cases m with
  | invoke c' call =>
      simp only [turn] at hturn
      split at hturn
      · next hidle =>
          cases hturn
          refine ⟨call, [], rfl, hl.entry call, ?_⟩
          rw [Session.operations, h.idle c hidle]
          rfl
      · cases hturn
  | advance c' =>
      simp only [turn] at hturn
      split at hturn
      · next q hq =>
          cases hturn
          obtain ⟨k, l, hcall, hdone⟩ := h.inside c p hq
          refine ⟨k, l, hcall, hdone, ?_⟩
          rw [Session.operations, hcall]
          rfl
      · cases hturn

theorem eventsOf_logTake (g : Logged σ π κ ρ τ ι ο) (w : ω) (c c' : Nat) (p : π)
    (call : κ × List (ι × ο)) :
    (code.logTake A ops g w c p call).eventsOf c'
      = g.eventsOf c' ++ if c = c' then A.traceFrom g.abs (ops g.sys.shared p) else [] := by
  unfold Logged.eventsOf logTake
  rw [List.filter_append, List.map_append, List.filter_map]
  congr 1
  split_ifs with hc
  · rw [List.filter_eq_self.mpr (fun e _ => by simp [hc]), List.map_map]
    exact List.map_id _
  · rw [List.filter_eq_nil_iff.mpr (fun e _ => by simp [hc])]
    rfl

theorem ops_logTake (g : Logged σ π κ ρ τ ι ο) (w : ω) (c : Nat) (p : π)
    (call : κ × List (ι × ο)) :
    (code.logTake A ops g w c p call).ops = g.ops ++ ops g.sys.shared p := by
  unfold Logged.ops Code.logTake
  rw [List.map_append, List.map_map]
  exact congrArg (g.log.map _ ++ ·) (A.traceFrom_inputs _ _)

/-- **One step keeps the record right.** -/
theorem LogInv.logTake (hl : Linearizes code A ops R Done Explains)
    (h : LogInv A R Done Explains g) {w : ω} {c : Nat} {p : π} {k : κ} {l : List (ι × ο)}
    (hp : code.At g.sys c p) (hdone : Done k p l)
    (hops : (g.sessions c).done.flatMap (fun d => d.2.1) ++ l = (g.sessions c).operations) :
    LogInv A R Done Explains (code.logTake A ops g w c p (k, l)) := by
  have hnext := hl.next w g.sys g.abs c p k l h.rel hp hdone
  have hgops : (code.logTake A ops g w c p (k, l)).ops = g.ops ++ ops g.sys.shared p :=
    ops_logTake g w c p (k, l)
  have hgevents : (code.logTake A ops g w c p (k, l)).events
      = g.events ++ A.traceFrom g.abs (ops g.sys.shared p) := by
    unfold Logged.events Code.logTake
    rw [List.map_append, List.map_map]
    exact congrArg (g.log.map _ ++ ·) (List.map_id _)
  have hclients : ∀ c', c' ≠ c →
      (code.take w g.sys c p).clients[c']? = g.sys.clients[c']? := fun c' hc =>
    List.getElem?_set_ne (Ne.symm hc)
  have hself : ∀ x, (code.take w g.sys c p).clients[c]? = some x →
      x = (code.exec w g.sys.shared p).2.point := by
    intro x hx
    have hlt : c < g.sys.clients.length := by
      rw [← code.length_clients w c p]
      exact (List.getElem?_eq_some_iff.mp hx).1
    rw [take, List.getElem?_set_self hlt, Option.some_inj] at hx
    exact hx.symm
  refine ⟨hl.take w g.sys g.abs c p k l h.rel hp hdone, ?_, ?_, fun c' => ?_, fun c' hc' => ?_,
    fun c' p' hc' => ?_, fun c' k' l' r' hmem => ?_⟩
  · rw [hgops, Machine.run_append, ← h.abs_eq]
    rfl
  · rw [hgops, hgevents, Machine.trace_append, ← h.abs_eq, h.legal]
  · rw [eventsOf_logTake, h.client c']
    by_cases hc : c = c'
    · subst hc
      rw [if_pos rfl, ← hops]
      simp only [Code.logTake, Function.update_self, Session.operations_record, List.append_assoc]
    · rw [if_neg hc, List.append_nil]
      simp only [Code.logTake, Function.update_of_ne (Ne.symm hc)]
  · by_cases hc : c' = c
    · subst hc
      simp only [Code.logTake, Function.update_self]
      have hpoint := hself none hc'
      cases hexec : (code.exec w g.sys.shared p).2 with
      | goto q =>
          rw [hexec] at hpoint
          cases hpoint
      | ret r => rfl
    · simp only [Code.logTake, Function.update_of_ne hc]
      exact h.idle c' ((hclients c' hc).symm.trans hc')
  · by_cases hc : c' = c
    · subst hc
      simp only [Code.logTake, Function.update_self]
      have hpoint := hself (some p') hc'
      cases hexec : (code.exec w g.sys.shared p).2 with
      | goto q =>
          rw [hexec] at hpoint hnext
          cases hpoint
          exact ⟨k, _, rfl, hnext⟩
      | ret r =>
          rw [hexec] at hpoint
          cases hpoint
    · simp only [Code.logTake, Function.update_of_ne hc]
      exact h.inside c' p' ((hclients c' hc).symm.trans hc')
  · by_cases hc : c' = c
    · subst hc
      simp only [Code.logTake, Function.update_self] at hmem
      cases hexec : (code.exec w g.sys.shared p).2 with
      | goto q =>
          rw [hexec] at hmem
          exact h.explained c' k' l' r' hmem
      | ret r =>
          rw [hexec] at hmem hnext
          rcases List.mem_append.mp hmem with hmem | hmem
          · exact h.explained c' k' l' r' hmem
          · cases List.mem_singleton.mp hmem
            exact hnext
    · simp only [Code.logTake, Function.update_of_ne hc] at hmem
      exact h.explained c' k' l' r' hmem

theorem LogInv.logStep (hl : Linearizes code A ops R Done Explains)
    (h : LogInv A R Done Explains g) (i : ω × Move κ) :
    LogInv A R Done Explains (code.logStep A ops g i) := by
  unfold Code.logStep
  cases hturn : code.turn g.sys i.2 with
  | none => exact h
  | some cp =>
      obtain ⟨k, l, hcur, hdone, hops⟩ := h.current hl hturn
      simp only [hcur]
      exact h.logTake hl (code.at_of_turn hturn) hdone hops

/-- **Every interleaving is explained** by the operations of the sequential machine. -/
theorem Linearizes.run (hl : Linearizes code A ops R Done Explains) {init : σ} {n : Nat}
    (h0 : R ⟨init, List.replicate n none⟩ A.init) (is : List (ω × Move κ)) :
    LogInv A R Done Explains ((code.logged A ops init n).run is) := by
  refine Machine.run_invariant _ ?_ (fun g i h => h.logStep hl i) is
  refine ⟨h0, rfl, rfl, fun c => rfl, fun c _ => rfl, fun c p hc => ?_, fun c k l r hmem => ?_⟩
  · have hget : (List.replicate n (none : Option π))[c]? = some (some p) := hc
    rw [List.getElem?_replicate] at hget
    split_ifs at hget
    cases hget
  · cases hmem

/-- The calls in the record satisfy `P`, and the operations `Q`. -/
structure Within (P : κ → Prop) (Q : ι → Prop) (g : Logged σ π κ ρ τ ι ο) : Prop where
  done : ∀ c k l r, (k, l, r) ∈ (g.sessions c).done → P k
  call : ∀ c k l, (g.sessions c).call = some (k, l) → P k
  ops : ∀ a ∈ g.ops, Q a

theorem Within.logTake {P : κ → Prop} {Q : ι → Prop} (h : Within P Q g) {w : ω} {c : Nat} {p : π}
    {k : κ} {l : List (ι × ο)} (hk : P k) (hops : ∀ a ∈ ops g.sys.shared p, Q a) :
    Within P Q (code.logTake A ops g w c p (k, l)) := by
  refine ⟨fun c' k' l' r hmem => ?_, fun c' k' l' hcall => ?_, fun a ha => ?_⟩
  · by_cases hc : c' = c
    · subst hc
      simp only [Code.logTake, Function.update_self] at hmem
      cases hexec : (code.exec w g.sys.shared p).2 with
      | goto q =>
          rw [hexec] at hmem
          exact h.done c' k' l' r hmem
      | ret r' =>
          rw [hexec] at hmem
          rcases List.mem_append.mp hmem with hmem | hmem
          · exact h.done c' k' l' r hmem
          · cases List.mem_singleton.mp hmem
            exact hk
    · simp only [Code.logTake, Function.update_of_ne hc] at hmem
      exact h.done c' k' l' r hmem
  · by_cases hc : c' = c
    · subst hc
      simp only [Code.logTake, Function.update_self] at hcall
      cases hexec : (code.exec w g.sys.shared p).2 with
      | goto q =>
          rw [hexec] at hcall
          cases hcall
          exact hk
      | ret r' =>
          rw [hexec] at hcall
          cases hcall
    · simp only [Code.logTake, Function.update_of_ne hc] at hcall
      exact h.call c' k' l' hcall
  · rw [ops_logTake] at ha
    rcases List.mem_append.mp ha with ha | ha
    · exact h.ops a ha
    · exact hops a ha

/-- **Only what was called is in the record.** If the calls that are made satisfy `P`, and their
operations then satisfy `Q`, so do the calls and the operations of the record. -/
theorem Linearizes.within {P : κ → Prop} {Q : ι → Prop}
    (hl : Linearizes code A ops R Done Explains)
    (hops : ∀ s p k l, P k → Done k p l → ∀ a ∈ ops s p, Q a) {init : σ} {n : Nat}
    (h0 : R ⟨init, List.replicate n none⟩ A.init) (is : List (ω × Move κ))
    (hP : ∀ i ∈ is, ∀ c k, i.2 = .invoke c k → P k) :
    Within P Q ((code.logged A ops init n).run is) := by
  induction is using List.reverseRecOn with
  | nil => exact ⟨fun c k l r hmem => (by cases hmem), fun c k l h => (by cases h),
      fun a ha => (by cases ha)⟩
  | append_singleton is i ih =>
      have hg := hl.run h0 is
      have hw := ih fun j hj => hP j (List.mem_append_left _ hj)
      rw [Machine.run_snoc]
      show Within P Q (code.logStep A ops ((code.logged A ops init n).run is) i)
      unfold Code.logStep
      cases hturn : code.turn ((code.logged A ops init n).run is).sys i.2 with
      | none => exact hw
      | some cp =>
          obtain ⟨k, l, hcur, hdone, -⟩ := hg.current hl hturn
          have hk : P k := by
            cases hi : i.2 with
            | invoke c' call =>
                rw [hi] at hcur
                cases hcur
                exact hP i (List.mem_append_right _ List.mem_cons_self) c' k hi
            | advance c' =>
                rw [hi] at hcur
                exact hw.call cp.1 k l hcur
          simp only [hcur]
          exact hw.logTake hk (hops _ _ k l hk hdone)

end Invariant

end Code
