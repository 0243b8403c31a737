import Pepita.Scheduler.Concurrent

set_option autoImplicit false

/-! # Calls that are not interrupted

The two semantics of the scheduler agree: a call whose client takes all its atomic steps in a row
does what the sequential function does (`invoke_alone`), so every sequential use of a scheduler is
one of its interleavings, with the same replies (`sequential_is_interleaving`).
-/

namespace Pepita.Sched

variable {T : Type}

/-- From `s`, client `c` ends its call by steps of its own, in `s'`, with `reply`. -/
inductive Finishes (c : Nat) : Sys T → Sys T → Reply T → Prop where
  | last {s s' : Sys T} {reply : Reply T} :
      s.step (.advance c) = (s', some reply) → Finishes c s s' reply
  | step {s t s' : Sys T} {reply : Reply T} :
      s.step (.advance c) = (t, none) → Finishes c t s' reply → Finishes c s s' reply

section Alone

variable {clients : List (Client T)} {c : Nat}

/-- The step of a client in a call, read off its own state. -/
theorem step_busy (hc : c < clients.length) (sched : Scheduler T) (l : Client T) :
    Sys.step ⟨sched, clients.set c l⟩ (.advance c)
      = Sys.advance ⟨sched, clients.set c l⟩ c l := by
  simp only [Sys.step, List.getElem?_set_self hc]

theorem move_busy (sched : Scheduler T) (l l' : Client T) :
    Sys.move ⟨sched, clients.set c l⟩ c l' = ⟨sched, clients.set c l'⟩ := by
  rw [Sys.move, List.set_set]

theorem move_idle (h : clients[c]? = some .idle) (sched : Scheduler T) (l : Client T) :
    Sys.move ⟨sched, clients.set c l⟩ c .idle = ⟨sched, clients⟩ := by
  obtain ⟨hc, hl⟩ := List.getElem?_eq_some_iff.mp h
  rw [move_busy, ← hl, List.set_getElem_self]

/-- The loop of `steal`, from any offset on. -/
theorem steal_alone (h : clients[c]? = some .idle) (thiefIdx k : Nat) :
    ∀ (offset : Nat) (sched : Scheduler T), offset + k = sched.workers.length →
    Finishes c ⟨sched, clients.set c (.probing thiefIdx offset)⟩
      ⟨(Scheduler.stealLoop thiefIdx sched (List.range' offset k)).1, clients⟩
      (.stolen (Scheduler.stealLoop thiefIdx sched (List.range' offset k)).2) := by
  have hc := (List.getElem?_eq_some_iff.mp h).1
  induction k with
  | zero =>
      intro offset sched hk
      refine .last ?_
      rw [step_busy hc, Sys.advance, if_neg (by simp only; omega), move_idle h]
      rfl
  | succ k ih =>
      intro offset sched hk
      rw [List.range'_succ, Scheduler.stealLoop]
      by_cases hact : sched.isActive ((thiefIdx + offset) % sched.workers.length) = true
      · rw [if_pos hact]
        refine .step (t := ⟨sched, clients.set c (.taking thiefIdx offset)⟩) ?_ ?_
        · rw [step_busy hc, Sys.advance, if_pos (by simp only; omega), if_pos hact, move_busy]
        · have hframe := Scheduler.access_frame (s := sched)
            (i := (thiefIdx + offset) % sched.workers.length) (f := WorkStealingDeque.steal)
            (o := none)
          cases hacc : sched.access ((thiefIdx + offset) % sched.workers.length)
              WorkStealingDeque.steal none with
          | mk sched' result =>
              rw [hacc] at hframe
              cases result with
              | some task =>
                  refine .last ?_
                  rw [step_busy hc, Sys.advance]
                  simp only [hacc]
                  rw [move_idle h]
              | none =>
                  refine .step (t := ⟨sched', clients.set c (.probing thiefIdx (offset + 1))⟩) ?_
                    (ih (offset + 1) sched' (by rw [hframe.1]; omega))
                  rw [step_busy hc, Sys.advance]
                  simp only [hacc]
                  rw [move_busy]
      · rw [if_neg hact]
        refine .step (t := ⟨sched, clients.set c (.probing thiefIdx (offset + 1))⟩) ?_
          (ih (offset + 1) sched (by omega))
        rw [step_busy hc, Sys.advance, if_pos (by simp only; omega), if_neg hact, move_busy]

/-- The search of `steal_batch` from worker `idx` on, up to the point where all workers are
seen. -/
theorem scan_alone (hc : c < clients.length) (sched : Scheduler T) (thiefIdx k : Nat)
    {s' : Sys T} {reply : Reply T} :
    ∀ (idx : Nat) (acc : Option Nat × UInt64), idx + k = sched.workers.length →
    Finishes c ⟨sched, clients.set c (.scanning thiefIdx sched.workers.length
        ((sched.workers.zipIdx.drop idx).foldl
          (fun acc p => Scheduler.scanWorker thiefIdx acc p.2 p.1) acc))⟩ s' reply →
    Finishes c ⟨sched, clients.set c (.scanning thiefIdx idx acc)⟩ s' reply := by
  induction k with
  | zero =>
      intro idx acc hk hend
      rw [List.drop_of_length_le (by rw [List.length_zipIdx]; omega), List.foldl_nil] at hend
      rw [show idx = sched.workers.length from hk]
      exact hend
  | succ k ih =>
      intro idx acc hk hend
      have hlt : idx < sched.workers.length := by omega
      rw [List.drop_eq_getElem_cons (by rw [List.length_zipIdx]; exact hlt), List.foldl_cons,
        List.getElem_zipIdx, Nat.zero_add] at hend
      refine .step ?_ (ih (idx + 1) _ (by omega) hend)
      rw [step_busy hc, Sys.advance]
      simp only [List.getElem?_eq_getElem hlt]
      rw [move_busy]

theorem stealBatch_alone (h : clients[c]? = some .idle) (sched : Scheduler T) (thief : UInt32)
    (hn : ¬ (sched.workers.length ≤ 1 ∨ thief.toNat ≥ sched.workers.length)) :
    Finishes c ⟨sched, clients.set c (.scanning thief.toNat 0 (none, 0))⟩
      ⟨(sched.stealBatch thief).1, clients⟩ (.batch (sched.stealBatch thief).2) := by
  have hc := (List.getElem?_eq_some_iff.mp h).1
  refine scan_alone hc sched thief.toNat sched.workers.length 0 _ (Nat.zero_add _) ?_
  rw [Scheduler.stealBatch, if_neg hn, List.drop_zero]
  generalize sched.workers.zipIdx.foldl _ _ = found
  obtain ⟨victim, len⟩ := found
  have hend : sched.workers[sched.workers.length]? = none := List.getElem?_eq_none le_rfl
  cases victim with
  | none =>
      refine .last ?_
      rw [step_busy hc, Sys.advance]
      simp only [hend]
      rw [move_idle h]
  | some victimIdx =>
      refine .step (t := ⟨sched, clients.set c (.halving victimIdx)⟩) ?_ (.last ?_)
      · rw [step_busy hc, Sys.advance]
        simp only [hend]
        rw [move_busy]
      · rw [step_busy hc, Sys.advance]
        dsimp only
        rw [move_idle h]

/-- **A call that is not interrupted is the sequential call.** -/
theorem invoke_alone (h : clients[c]? = some .idle) (sched : Scheduler T)
    (hquiet : Sys.quiet ⟨sched, clients⟩ = true) (call : Call T) :
    Sys.step ⟨sched, clients⟩ (.invoke c call)
        = (⟨(sched.call call).1, clients⟩, some (sched.call call).2) ∨
      ∃ t, Sys.step ⟨sched, clients⟩ (.invoke c call) = (t, none) ∧
        Finishes c t ⟨(sched.call call).1, clients⟩ (sched.call call).2 := by
  have hc := (List.getElem?_eq_some_iff.mp h).1
  have hstep : Sys.step ⟨sched, clients⟩ (.invoke c call) = Sys.invoke ⟨sched, clients⟩ c call := by
    simp only [Sys.step, h]
  rw [hstep]
  cases call with
  | submit task =>
      rw [Sys.invoke, Scheduler.call, Scheduler.submit]
      dsimp only
      generalize sched.select = found
      obtain ⟨sched', target⟩ := found
      cases target with
      | none => exact .inl rfl
      | some target =>
          refine .inr ⟨_, rfl, .last ?_⟩
          rw [Sys.move, step_busy hc, Sys.advance]
          dsimp only
          rw [move_idle h]
  | pop worker => exact .inl rfl
  | steal thief =>
      rw [Sys.invoke, Scheduler.call, Scheduler.steal]
      split_ifs with hn
      · exact .inl rfl
      · refine .inr ⟨_, rfl, steal_alone h thief.toNat _ 1 sched ?_⟩
        dsimp only at hn
        omega
  | stealBatch thief =>
      rw [Sys.invoke]
      split_ifs with hn
      · rw [Scheduler.call, Scheduler.stealBatch, if_pos hn]
        exact .inl rfl
      · exact .inr ⟨_, rfl, stealBatch_alone h sched thief hn⟩
  | addWorker =>
      rw [Sys.invoke, if_pos hquiet]
      exact .inl rfl
  | deactivateWorker worker => exact .inl rfl
  | stop => exact .inl rfl

end Alone

/-! ## Sequential runs -/

/-- The replies of a history, in order. -/
def replies (tr : List (Action T × Option (Reply T))) : List (Reply T) := tr.filterMap Prod.snd

theorem replies_append (tr tr' : List (Action T × Option (Reply T))) :
    replies (tr ++ tr') = replies tr ++ replies tr' := List.filterMap_append

variable {M : Machine (Sys T) (Action T) (Option (Reply T))}

/-- Some actions lead from `s` to `s'`, and one call ends by them, with `reply`. -/
def Answers (M : Machine (Sys T) (Action T) (Option (Reply T))) (s s' : Sys T)
    (reply : Reply T) : Prop :=
  ∃ acts, M.runFrom s acts = s' ∧ replies (M.traceFrom s acts) = [reply]

theorem Answers.last {s s' : Sys T} {a : Action T} {reply : Reply T}
    (h : M.step s a = (s', some reply)) : Answers M s s' reply := by
  refine ⟨[a], ?_, ?_⟩
  · show (M.step s a).1 = s'
    rw [h]
  · show replies [(a, (M.step s a).2)] = [reply]
    rw [h]
    rfl

theorem Answers.step {s t s' : Sys T} {a : Action T} {reply : Reply T}
    (h : M.step s a = (t, none)) (hrest : Answers M t s' reply) : Answers M s s' reply := by
  obtain ⟨acts, hrun, htrace⟩ := hrest
  refine ⟨a :: acts, ?_, ?_⟩
  · show M.runFrom (M.step s a).1 acts = s'
    rw [h]
    exact hrun
  · rw [Machine.traceFrom, h]
    exact htrace

theorem Finishes.answers (hM : M.step = Sys.step) {c : Nat} {s s' : Sys T} {reply : Reply T}
    (h : Finishes c s s' reply) : Answers M s s' reply := by
  induction h with
  | last hstep => exact .last (by rw [hM]; exact hstep)
  | step hstep _ ih => exact .step (by rw [hM]; exact hstep) ih

theorem call_answers (hM : M.step = Sys.step) {clients : List (Client T)} {c : Nat}
    (h : clients[c]? = some .idle) (sched : Scheduler T)
    (hquiet : Sys.quiet ⟨sched, clients⟩ = true) (call : Call T) :
    Answers M ⟨sched, clients⟩ ⟨(sched.call call).1, clients⟩ (sched.call call).2 := by
  rcases invoke_alone h sched hquiet call with hstep | ⟨t, hstep, hfin⟩
  · exact .last (by rw [hM]; exact hstep)
  · exact .step (by rw [hM]; exact hstep) (hfin.answers hM)

/-- **Every sequential use of a scheduler is one of its interleavings**, with the same scheduler
at the end and the same replies. -/
theorem sequential_is_interleaving (numWorkers queueCapacity : UInt64) (clients : Nat)
    (calls : List (Call T)) :
    ∃ acts,
      (systemMachine T numWorkers queueCapacity (clients + 1)).run acts
        = ⟨(schedulerMachine T numWorkers queueCapacity).run calls,
            List.replicate (clients + 1) .idle⟩ ∧
      replies ((systemMachine T numWorkers queueCapacity (clients + 1)).trace acts)
        = ((schedulerMachine T numWorkers queueCapacity).trace calls).map Prod.snd := by
  induction calls using List.reverseRecOn with
  | nil => exact ⟨[], rfl, rfl⟩
  | append_singleton calls call ih =>
      obtain ⟨acts, hrun, htrace⟩ := ih
      have hidle : (List.replicate (clients + 1) (Client.idle : Client T))[0]? = some .idle := rfl
      obtain ⟨acts', hrun', htrace'⟩ := call_answers
        (M := systemMachine T numWorkers queueCapacity (clients + 1)) rfl hidle
        ((schedulerMachine T numWorkers queueCapacity).run calls) (by simp [Sys.quiet]) call
      refine ⟨acts ++ acts', ?_, ?_⟩
      · rw [Machine.run_append, hrun, hrun', Machine.run_snoc]
        rfl
      · rw [Machine.trace_append, replies_append, htrace, hrun, htrace', Machine.trace_snoc,
          List.map_append]
        rfl

/-- So what holds in all interleavings holds of sequential use. -/
theorem sequential_wf (numWorkers queueCapacity : UInt64) (calls : List (Call T)) :
    ((schedulerMachine T numWorkers queueCapacity).run calls).WF := by
  obtain ⟨acts, hrun, -⟩ := sequential_is_interleaving numWorkers queueCapacity 0 calls
  have hwf := (conserved_run numWorkers queueCapacity 1 acts).1
  rw [hrun] at hwf
  exact hwf

end Pepita.Sched
