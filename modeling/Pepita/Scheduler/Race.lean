import Pepita.Scheduler.Concurrent

set_option autoImplicit false

/-! # The race between selection and push

`submit` looks for a worker with space before it takes that worker's lock, and it does not look
again when the push then finds the deque full. Its documentation says `None` if all queues are
full. Here is when a run keeps that promise: exactly when no push comes too late
(`none_only_if_full_iff`).
-/

namespace Pepita.Sched

variable {T : Type}

/-! ## What `submit` promises -/

/-- No active worker's deque has fewer elements than its capacity. -/
def Scheduler.AllFull (s : Scheduler T) : Prop :=
  ∀ w ∈ s.workers, w.active = true → w.deque.capacity.toNat ≤ w.deque.deque.length

/-- In the run over `acts`, a `submit` whose selection step is taken in the state `s` returns
`None`: at once, or at its push step, the next step of the same client. -/
inductive SubmitReturnsNone (M : Machine (Sys T) (Action T) (Option (Reply T)))
    (acts : List (Action T)) : Sys T → Prop where
  | atSelection {pre : List (Action T)} {c : Nat} {task : T}
      (hpre : pre ++ [.invoke c (.submit task)] <+: acts)
      (hreply : (M.step (M.run pre) (.invoke c (.submit task))).2
        = some (.submitted task none)) :
      SubmitReturnsNone M acts (M.run pre)
  | atPush {pre mid : List (Action T)} {c : Nat} {task : T}
      (hpre : pre ++ .invoke c (.submit task) :: mid ++ [.advance c] <+: acts)
      (hidle : (M.run pre).clients[c]? = some .idle)
      (hchosen : (M.step (M.run pre) (.invoke c (.submit task))).2 = none)
      (hmid : .advance c ∉ mid)
      (hreply : (M.step (M.run (pre ++ .invoke c (.submit task) :: mid)) (.advance c)).2
        = some (.submitted task none)) :
      SubmitReturnsNone M acts (M.run pre)

/-- The promise of `submit` over a whole run: `None` only if all queues were full when it looked,
as long as the scheduler was running then. -/
def NoneOnlyIfFull (M : Machine (Sys T) (Action T) (Option (Reply T)))
    (acts : List (Action T)) : Prop :=
  ∀ s, SubmitReturnsNone M acts s → s.sched.running = true → s.sched.AllFull

/-- A push step finds room in the deque it goes to. -/
def Sys.PushFindsRoom (s : Sys T) : Action T → Prop
  | .invoke _ _ => True
  | .advance c => ∀ task target, s.clients[c]? = some (.pushing task target) →
      ∃ w, s.sched.workers[target]? = some w ∧ w.deque.deque.length < w.deque.capacity.toNat

/-! ## One step -/

/-- A call in its first step moves at most its own client, and to a push only from `submit`. -/
theorem Sys.invoke_clients (s : Sys T) (c : Nat) (call : Call T) :
    (s.invoke c call).1.clients = s.clients ∨
    ∃ l, (s.invoke c call).1.clients = s.clients.set c l ∧
      ∀ task target, l = .pushing task target →
        call = .submit task ∧ s.sched.select.2 = some target := by
  cases call with
  | submit task =>
      rw [Sys.invoke]
      split
      · exact Or.inl rfl
      · next sched target heq =>
          refine Or.inr ⟨_, rfl, fun task' target' hl => ?_⟩
          cases hl
          exact ⟨rfl, by rw [heq]⟩
  | pop worker => exact Or.inl rfl
  | steal thief =>
      rw [Sys.invoke]
      split_ifs
      · exact Or.inl rfl
      · exact Or.inr ⟨_, rfl, fun _ _ hl => by cases hl⟩
  | stealBatch thief =>
      rw [Sys.invoke]
      split_ifs
      · exact Or.inl rfl
      · exact Or.inr ⟨_, rfl, fun _ _ hl => by cases hl⟩
  | addWorker =>
      rw [Sys.invoke]
      split_ifs
      · exact Or.inl rfl
      · exact Or.inl rfl
  | deactivateWorker worker => exact Or.inl rfl
  | stop => exact Or.inl rfl

/-- A later step of a call moves its own client, and never to a push. -/
theorem Sys.advance_clients (s : Sys T) {c : Nat} {l : Client T} (h : s.clients[c]? = some l) :
    ∃ l', (s.advance c l).1.clients = s.clients.set c l' ∧
      ∀ task target, l' ≠ .pushing task target := by
  cases l with
  | idle =>
      obtain ⟨hc, hl⟩ := List.getElem?_eq_some_iff.mp h
      refine ⟨.idle, ?_, fun _ _ hl' => by cases hl'⟩
      show s.clients = s.clients.set c .idle
      rw [← hl, List.set_getElem_self]
  | pushing task target => exact ⟨.idle, rfl, fun _ _ hl => by cases hl⟩
  | probing thiefIdx offset =>
      rw [Sys.advance]
      split_ifs
      · exact ⟨_, rfl, fun _ _ hl => by cases hl⟩
      · exact ⟨_, rfl, fun _ _ hl => by cases hl⟩
      · exact ⟨_, rfl, fun _ _ hl => by cases hl⟩
  | taking thiefIdx offset =>
      rw [Sys.advance]
      split
      · exact ⟨_, rfl, fun _ _ hl => by cases hl⟩
      · exact ⟨_, rfl, fun _ _ hl => by cases hl⟩
  | scanning thiefIdx idx acc =>
      rw [Sys.advance]
      split
      · exact ⟨_, rfl, fun _ _ hl => by cases hl⟩
      · split
        · exact ⟨_, rfl, fun _ _ hl => by cases hl⟩
        · exact ⟨_, rfl, fun _ _ hl => by cases hl⟩
  | halving victimIdx => exact ⟨.idle, rfl, fun _ _ hl => by cases hl⟩

/-- **Where a pending push comes from**: it was pending before, and the action is not its own, or
the action is the selection step that chose its target. -/
theorem Sys.pushing_of_step {s : Sys T} {a : Action T} {c : Nat} {task : T} {t : Nat}
    (h : (s.step a).1.clients[c]? = some (.pushing task t)) :
    (s.clients[c]? = some (.pushing task t) ∧ a ≠ .advance c) ∨
    (a = .invoke c (.submit task) ∧ s.clients[c]? = some .idle ∧ s.sched.select.2 = some t) := by
  cases a with
  | invoke c' call =>
      rw [Sys.step] at h
      split at h
      · next hidle =>
          rcases Sys.invoke_clients s c' call with heq | ⟨l, heq, hl⟩
          · rw [heq] at h
            exact Or.inl ⟨h, by simp⟩
          · rw [heq, List.getElem?_set] at h
            split_ifs at h with hc
            · obtain ⟨rfl, hsel⟩ := hl task t (Option.some_inj.mp h)
              exact Or.inr ⟨by rw [hc], hc ▸ hidle, hsel⟩
            · exact Or.inl ⟨h, by simp⟩
      · exact Or.inl ⟨h, by simp⟩
  | advance c' =>
      rw [Sys.step] at h
      split at h
      · next l hl =>
          obtain ⟨l', heq, hne⟩ := Sys.advance_clients s hl
          rw [heq, List.getElem?_set] at h
          split_ifs at h with hc
          · exact absurd (Option.some_inj.mp h) (hne task t)
          · exact Or.inl ⟨h, fun ha => hc (Action.advance.inj ha)⟩
      · next hnone =>
          refine Or.inl ⟨h, fun ha => ?_⟩
          rw [Action.advance.inj ha, h] at hnone
          cases hnone

/-- Only a push step answers a `submit` after its selection, and with what the push returned. -/
theorem Sys.submitted_of_advance {s : Sys T} {c : Nat} {task : T} {r : Option UInt64}
    (h : (s.step (.advance c)).2 = some (.submitted task r)) :
    ∃ t, s.clients[c]? = some (.pushing task t) ∧ (s.sched.pushTo t task).2 = r := by
  rw [Sys.step] at h
  split at h
  · next l hl =>
      cases l with
      | pushing task' target =>
          obtain ⟨rfl, hr⟩ := Reply.submitted.inj (Option.some_inj.mp h)
          exact ⟨target, hl, hr⟩
      | idle => cases h
      | probing thiefIdx offset =>
          rw [Sys.advance] at h
          split_ifs at h
          cases h
      | taking thiefIdx offset =>
          rw [Sys.advance] at h
          split at h <;> cases h
      | scanning thiefIdx idx acc =>
          rw [Sys.advance] at h
          split at h
          · cases h
          · split at h <;> cases h
      | halving victimIdx => cases h
  · cases h

/-- A `submit` that is answered by its selection step found no target. -/
theorem Sys.select_of_submitted {s : Sys T} {c : Nat} {task : T} {r : Option UInt64}
    (h : (s.step (.invoke c (.submit task))).2 = some (.submitted task r)) :
    s.sched.select.2 = none := by
  rw [Sys.step] at h
  split at h
  · rw [Sys.invoke] at h
    split at h
    · next heq => rw [heq]
    · cases h
  · cases h

theorem Sys.step_submit_some {s : Sys T} {c : Nat} {task : T} {t : Nat}
    (hidle : s.clients[c]? = some .idle) (h : s.sched.select.2 = some t) :
    (s.step (.invoke c (.submit task))).2 = none := by
  simp only [Sys.step, hidle, Sys.invoke]
  split
  · next heq => rw [heq] at h; cases h
  · rfl

theorem Sys.step_push {s : Sys T} {c : Nat} {task : T} {t : Nat}
    (h : s.clients[c]? = some (.pushing task t)) :
    (s.step (.advance c)).2 = some (.submitted task (s.sched.pushTo t task).2) := by
  simp only [Sys.step, h, Sys.advance]

/-! ## Whole runs -/

section Runs

variable (numWorkers queueCapacity : UInt64) (clients : Nat)

/-- A pending push was chosen by a selection step of the run, since when its client did nothing. -/
theorem pushing_history (acts : List (Action T)) :
    let M := systemMachine T numWorkers queueCapacity clients
    ∀ c task target, (M.run acts).clients[c]? = some (.pushing task target) →
      ∃ pre mid, acts = pre ++ .invoke c (.submit task) :: mid ∧ .advance c ∉ mid ∧
        (M.run pre).clients[c]? = some .idle ∧ (M.run pre).sched.select.2 = some target := by
  intro M
  induction acts using List.reverseRecOn with
  | nil =>
      intro c task target h
      have hidle := List.eq_of_mem_replicate (List.mem_of_getElem? h)
      cases hidle
  | append_singleton acts a ih =>
      intro c task target h
      rw [M.run_snoc] at h
      rcases Sys.pushing_of_step h with ⟨hbefore, hne⟩ | ⟨rfl, hidle, hsel⟩
      · -- pending before: the action is someone else's and joins the steps in between
        obtain ⟨pre, mid, rfl, hmid, hidle, hsel⟩ := ih c task target hbefore
        refine ⟨pre, mid ++ [a], by simp, ?_, hidle, hsel⟩
        simp only [List.mem_append, List.mem_singleton, not_or]
        exact ⟨hmid, fun ha => hne ha.symm⟩
      · exact ⟨acts, [], rfl, List.not_mem_nil, hidle, hsel⟩

theorem run_wf (acts : List (Action T)) :
    ((systemMachine T numWorkers queueCapacity clients).run acts).sched.WF :=
  (conserved_run numWorkers queueCapacity clients acts).1

/-- **When the race is harmless.** Under any interleaving, `submit` returns `None` only if all
queues were full when it looked, exactly if each push step of the run finds room in the deque it
goes to. -/
theorem none_only_if_full_iff (acts : List (Action T)) :
    let M := systemMachine T numWorkers queueCapacity clients
    NoneOnlyIfFull M acts ↔ M.EachStep Sys.PushFindsRoom acts := by
  intro M
  constructor
  · intro h js a hjs
    cases a with
    | invoke c call => trivial
    | advance c =>
        intro task target hpush
        obtain ⟨pre, mid, rfl, hmid, hidle, hsel⟩ :=
          pushing_history numWorkers queueCapacity clients js c task target hpush
        by_contra hroom
        -- the push fails, so the selection step must have seen only full queues
        have hwf := run_wf numWorkers queueCapacity clients (pre ++ .invoke c (.submit task) :: mid)
        have hlost := (not_congr (Scheduler.pushTo_effect hwf target task).2.2).mpr hroom
        rw [Option.not_isSome_iff_eq_none] at hlost
        obtain ⟨hrun, w, hw, hspace⟩ := Scheduler.select_some hsel
        have hmem := List.mem_of_getElem? hw
        have hspace' := (Scheduler.hasSpace_iff (run_wf _ _ _ pre w hmem)).mp hspace
        have hreply := Sys.step_push hpush
        rw [hlost] at hreply
        have hfull := h _ (.atPush hjs hidle (Sys.step_submit_some hidle hsel) hmid hreply) hrun
          w hmem hspace'.1
        omega
  · intro hroom s hs hrun
    cases hs with
    | atSelection hpre hreply =>
        -- the search saw every worker, through counters that are right
        intro w hw hact
        have hnone := Scheduler.select_none hrun (Sys.select_of_submitted hreply) w hw
        have hnot := mt (Scheduler.hasSpace_iff (run_wf _ _ _ _ w hw)).mpr (by simp [hnone])
        exact Nat.not_lt.mp fun hlt => hnot ⟨hact, hlt⟩
    -- a push that finds room does not return `None`
    | @atPush pre mid c task hpre _ _ _ hreply =>
        obtain ⟨target, hpush, hlost⟩ := Sys.submitted_of_advance hreply
        have hsome := (Scheduler.pushTo_effect (run_wf _ _ _ _) target task).2.2.mpr
          (hroom _ _ hpre task target hpush)
        rw [hlost] at hsome
        cases hsome

end Runs

/-- Three workers of capacity 1 and two clients. Worker 0 is full, the others are empty again, and the
search starts at worker 0. Both clients choose worker 1, and the second push is lost although worker
2 is empty all the time. -/
theorem submit_dropped :
    let M := systemMachine Nat 3 1 2
    let before : List (Action Nat) := [.invoke 0 (.submit 1), .advance 0, .invoke 0 (.submit 2),
      .advance 0, .invoke 0 (.pop 1), .invoke 0 (.submit 3), .advance 0, .invoke 0 (.pop 2),
      .invoke 0 (.submit 4)]
    let acts := before ++ .invoke 1 (.submit 5) :: [.advance 0] ++ [.advance 1]
    (M.trace acts).getLast? = some (.advance 1, some (.submitted 5 none)) ∧
    (M.run before).sched.workers[2]? = some ⟨⟨[], 0, 1⟩, true⟩ ∧
    (M.run acts).sched.workers[2]? = some ⟨⟨[], 0, 1⟩, true⟩ ∧
    ¬ NoneOnlyIfFull M acts := by
  intro M before acts
  have hempty : (M.run before).sched.workers[2]? = some ⟨⟨[], 0, 1⟩, true⟩ := by decide +kernel
  refine ⟨by decide +kernel, hempty, by decide +kernel, fun h => ?_⟩
  have hnone : SubmitReturnsNone M acts (M.run before) := by
    refine @SubmitReturnsNone.atPush _ _ acts before [.advance 0] 1 5 List.prefix_rfl ?_ ?_ ?_ ?_
    · decide +kernel
    · decide +kernel
    · decide
    · decide +kernel
  have hfull := h _ hnone (by decide +kernel)
  have h2 := hfull ⟨⟨[], 0, 1⟩, true⟩ (List.mem_of_getElem? hempty) rfl
  exact absurd h2 (by decide)

end Pepita.Sched
