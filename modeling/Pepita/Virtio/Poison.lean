import Pepita.Virtio.Concurrent

set_option autoImplicit false

/-! # The lock of the block device

* `panic_poisons`: the lock is poisoned exactly when a write has panicked, and from then on no
  request is served again. The only requests that panic are those of `oneSector_wraps`, which wrap
  around the 64-bit address space. This is about builds in which words wrap and a panic unwinds,
  such as a release build of a program that uses the crate; with the profiles of the package, where
  a panic aborts, the process ends with the write.
* `block_never_stuck`: the lock excludes readers while one writes, and it is given back also by the
  calls that fail or panic, so that the calls under way can always be finished.
-/

namespace Pepita.Virtio

/-! ## Poison -/

/-- A client that has no access to the storage: it is outside of the lock, or it was refused. -/
def BlockPoint.Shut : BlockPoint → Prop
  | .readUnlocking reply => ∃ buffer, reply = .read (.err .resourceBusy) buffer
  | .writeUnlocking reply => reply = .write (.err .resourceBusy)
  | p => p.hold = .nothing

/-- A request that was not served. -/
def BlockReturn.Refused : BlockReturn → Prop
  | .read result _ => result = .err .deviceNotReady ∨ result = .err .resourceBusy
  | .write result =>
      result = .err .deviceNotReady ∨ result = .err .notSupported ∨ result = .err .resourceBusy
  | _ => True

/-- A call that gives the lock back has not panicked as a write. -/
def BlockPoint.Sane : BlockPoint → Prop
  | .readUnlocking reply => reply ≠ .write .panic
  | .writeUnlocking reply => reply ≠ .write .panic
  | _ => True

theorem BlockPoint.shut_of_nothing {p : BlockPoint} (h : p.hold = .nothing) : p.Shut := by
  cases p with
  | readUnlocking reply => cases h
  | writeUnlocking reply => cases h
  | _ => exact h

/-- What a step means for the poison. -/
theorem exec_sane (s : SharedBlock) {p : BlockPoint} (h : p.Sane) :
    ((s.exec p).1.poisoned = true ↔ s.poisoned = true ∨ (s.exec p).2.reply = some (.write .panic)) ∧
    (∀ q, (s.exec p).2 = .goto q → q.Sane) ∧
    ((s.exec p).2.reply = some (.write .panic) → p.hold = .writing) := by
  cases p with
  | readChecking sector buffer | writeChecking sector data | readLocking sector buffer
  | writeLocking sector data | copying sector buffer copied | storing sector data k =>
      rw [SharedBlock.exec]
      split_ifs <;> simp [Progress.reply, BlockPoint.Sane]
  | readBounding sector buffer | writeBounding sector data =>
      rw [SharedBlock.exec]
      split <;> simp [Progress.reply, BlockPoint.Sane]
  | readUnlocking reply =>
      have hne : reply ≠ .write .panic := h
      simp [SharedBlock.exec, Progress.reply, hne]
  | writeUnlocking reply =>
      have hne : reply ≠ .write .panic := h
      simp [SharedBlock.exec, Progress.reply, hne]
  | _ => simp [SharedBlock.exec, SharedBlock.setReady, SharedBlock.setQueueReady, Progress.reply,
      BlockPoint.Sane, BlockPoint.hold]

/-- **One step on a poisoned device.** -/
theorem exec_shut {s : SharedBlock} (hs : s.poisoned = true) {p : BlockPoint} (h : p.Shut) :
    (s.exec p).1.poisoned = true ∧ (s.exec p).1.device.storage = s.device.storage ∧
    (∀ q, (s.exec p).2 = .goto q → q.Shut) ∧
    (∀ r, (s.exec p).2 = .ret r → r.Refused) := by
  cases p with
  | readChecking sector buffer | writeChecking sector data | readLocking sector buffer
  | writeLocking sector data =>
      simp only [SharedBlock.exec, hs, if_true]
      split_ifs <;> simp [hs, BlockPoint.Shut, BlockPoint.hold, BlockReturn.Refused]
  | readBounding sector buffer | writeBounding sector data | copying sector buffer copied
  | storing sector data k | countingRead sector buffer copied | countingWrite sector data
  | unwinding sector data => cases h
  | readUnlocking reply =>
      obtain ⟨buffer, rfl⟩ := h
      simp [SharedBlock.exec, hs, BlockReturn.Refused]
  | writeUnlocking reply =>
      cases h
      simp [SharedBlock.exec, hs, BlockReturn.Refused]
  | _ => simp [SharedBlock.exec, SharedBlock.setReady, SharedBlock.setQueueReady, hs,
      BlockPoint.Shut, BlockPoint.hold, BlockReturn.Refused]

/-- The lock is poisoned exactly when a write has panicked, and then no client has access. -/
structure Poisoning (h : List ((Unit × Move BlockCall) ×
    Option (BlockPoint × Progress BlockPoint BlockReturn))) (s : Clients SharedBlock BlockPoint) :
    Prop where
  lock : LockInv SharedBlock.lock BlockPoint.hold s
  sane : ∀ (c : Nat) (p : BlockPoint), s.clients[c]? = some (some p) → p.Sane
  poisoned : s.shared.poisoned = true ↔ .write .panic ∈ Code.replies h
  shut : s.shared.poisoned = true →
    ∀ (c : Nat) (p : BlockPoint), s.clients[c]? = some (some p) → p.Shut

theorem Poisoning.take {h : List ((Unit × Move BlockCall) ×
    Option (BlockPoint × Progress BlockPoint BlockReturn))} {s : Clients SharedBlock BlockPoint}
    (hs : Poisoning h s) (i : Unit × Move BlockCall) {c : Nat} {p : BlockPoint}
    (hp : blockCode.At s c p) :
    Poisoning (h ++ [(i, some (p, (blockCode.exec i.1 s.shared p).2))])
      (blockCode.take i.1 s c p) := by
  have hsane : p.Sane := by
    rcases hp with hp | ⟨-, call, rfl⟩
    · exact hs.sane c p hp
    · cases call <;> trivial
  have hshut : s.shared.poisoned = true → p.Shut := by
    intro hpoisoned
    rcases hp with hp | ⟨-, call, rfl⟩
    · exact hs.shut hpoisoned c p hp
    · exact BlockPoint.shut_of_nothing (blockCode_guarded.entry call)
  obtain ⟨hiff, hgoto, hwriting⟩ := exec_sane s.shared hsane
  refine ⟨blockCode_guarded.take hs.lock i.1 hp, fun c' q hq => ?_, ?_, fun hpoisoned c' q hq => ?_⟩
  · rcases blockCode.client_take hq with ⟨-, hnext⟩ | ⟨-, hq⟩
    · exact hgoto q hnext
    · exact hs.sane c' q hq
  · rw [Code.replies_take, List.mem_append, ← hs.poisoned, Option.mem_toList]
    exact hiff
  · rcases hiff.mp hpoisoned with hbefore | hreply
    · rcases blockCode.client_take hq with ⟨-, hnext⟩ | ⟨-, hq⟩
      · exact (exec_shut hbefore (hshut hbefore)).2.2.1 q hnext
      · exact hs.shut hbefore c' q hq
    · -- the write that panics is alone under the lock
      rcases blockCode.client_take hq with ⟨-, hnext⟩ | ⟨hc, hq⟩
      · have hnext' : (s.shared.exec p).2 = .goto q := hnext
        rw [hnext'] at hreply
        cases hreply
      · apply BlockPoint.shut_of_nothing
        rcases hp with hp | ⟨-, call, rfl⟩
        · exact hs.lock.alone hp (hwriting hreply) hq hc
        · cases (hwriting hreply).symm.trans (blockCode_guarded.entry call)

theorem poisoning_run (d : VirtioBlock) (n : Nat) (is : List (Unit × Move BlockCall)) :
    Poisoning ((sharedBlockMachine d n).trace is) ((sharedBlockMachine d n).run is) := by
  refine blockCode.run_history _ n ?_ (fun h s i hs => ?_) (fun h s i c p hs hp => hs.take i hp) is
  · have hnone : ∀ (c : Nat) (p : BlockPoint),
        (List.replicate n none)[c]? = some (some p) → False := by
      intro c p hp
      rw [List.getElem?_replicate] at hp
      split_ifs at hp
      cases hp
    exact ⟨blockCode_guarded.run ⟨d, .free, false⟩ n rfl [],
      fun c p hp => (hnone c p hp).elim, ⟨nofun, nofun⟩, fun _ c p hp => (hnone c p hp).elim⟩
  · refine ⟨hs.lock, hs.sane, ?_, hs.shut⟩
    rw [Code.replies_skip]
    exact hs.poisoned

/-- **One write that panics closes the device for ever**, where panics unwind and words wrap. In
every interleaving of any number of clients the lock is poisoned exactly when a write has panicked;
and once it has, no read and no write is served again, whatever the clients do, and the storage
stays as it is. -/
theorem panic_poisons (d : VirtioBlock) (n : Nat) (is js : List (Unit × Move BlockCall)) :
    let M := sharedBlockMachine d n
    ((M.run is).shared.poisoned = true ↔ .write .panic ∈ Code.replies (M.trace is)) ∧
    (.write .panic ∈ Code.replies (M.trace is) →
      (∀ r ∈ Code.replies (M.traceFrom (M.run is) js), r.Refused) ∧
      (M.run (is ++ js)).shared.device.storage = (M.run is).shared.device.storage) := by
  intro M
  have hinv := poisoning_run d n is
  refine ⟨hinv.poisoned, fun hpanic => ?_⟩
  have hpoisoned := hinv.poisoned.mpr hpanic
  have hrun := blockCode.runFrom_history
    (I := fun h s => (s.shared.poisoned = true ∧
        ∀ (c : Nat) (p : BlockPoint), s.clients[c]? = some (some p) → p.Shut) ∧
      (∀ r ∈ Code.replies h, r.Refused) ∧
      s.shared.device.storage = (M.run is).shared.device.storage)
    ⟨d, .free, false⟩ n (M.run is) ⟨⟨hpoisoned, hinv.shut hpoisoned⟩, nofun, rfl⟩
    (fun h s i hs => by rw [Code.replies_skip]; exact hs) ?_ js
  · rw [Machine.run_append]
    exact hrun.2
  · rintro h s i c p ⟨⟨hs, hshut⟩, hrefused, hstorage⟩ hp
    have hpshut : p.Shut := by
      rcases hp with hp | ⟨-, call, rfl⟩
      · exact hshut c p hp
      · exact BlockPoint.shut_of_nothing (blockCode_guarded.entry call)
    obtain ⟨hs', hsame, hgoto, hret⟩ := exec_shut hs hpshut
    refine ⟨⟨hs', fun c' q hq => ?_⟩, fun r hr => ?_, hsame.trans hstorage⟩
    · rcases blockCode.client_take hq with ⟨-, hnext⟩ | ⟨-, hq⟩
      · exact hgoto q hnext
      · exact hshut c' q hq
    · rw [Code.replies_take] at hr
      rcases List.mem_append.mp hr with hr | hr
      · exact hrefused r hr
      · rw [Option.mem_toList] at hr
        cases hnext : (blockCode.exec i.1 s.shared p).2 with
        | goto q =>
            rw [hnext] at hr
            cases hr
        | ret r' =>
            rw [hnext] at hr
            cases hr
            exact hret _ hnext

/-- A write of two sectors that ends where the address space does. -/
def wrapMoves : List (Unit × Move BlockCall) :=
  [((), .invoke 0 (.write (.ofNat (2 ^ 55 - 1)) (List.replicate 1024 0))), ((), .advance 0),
    ((), .advance 0), ((), .advance 0)]

theorem panic_poisons_wrap :
    .write .panic ∈ Code.replies ((sharedBlockMachine oneSector 2).trace wrapMoves) ∧
    ∀ js, ∀ r ∈ Code.replies ((sharedBlockMachine oneSector 2).traceFrom
      ((sharedBlockMachine oneSector 2).run wrapMoves) js), r.Refused := by
  have hpanic : .write .panic ∈ Code.replies ((sharedBlockMachine oneSector 2).trace wrapMoves) := by
    decide +kernel
  exact ⟨hpanic, fun js => ((panic_poisons oneSector 2 wrapMoves js).2 hpanic).1⟩

/-! ## No call is stuck -/

/-- How many steps a client has to take at most, when it is not made to wait. -/
def stepsLeft : Option BlockPoint → Nat
  | none => 0
  | some .activatingQueue => 2
  | some .activating => 1
  | some .deactivating => 2
  | some .deactivatingQueue => 1
  | some .flushing => 1
  | some (.readChecking _ buffer) => buffer.length + 6
  | some (.readLocking _ buffer) => buffer.length + 5
  | some (.readBounding _ buffer) => buffer.length + 4
  | some (.copying _ buffer copied) => buffer.length - copied.length + 3
  | some (.countingRead _ _ _) => 2
  | some (.readUnlocking _) => 1
  | some (.writeChecking _ data) => data.length + 6
  | some (.writeLocking _ data) => data.length + 5
  | some (.writeBounding _ data) => data.length + 4
  | some (.storing _ data k) => data.length - k + 3
  | some (.countingWrite _ _) => 2
  | some (.unwinding _ _) => 1
  | some (.writeUnlocking _) => 1

/-- The client waits for the lock. -/
def waiting (s : SharedBlock) : BlockPoint → Bool
  | .readLocking _ _ => s.lock.barsReaders
  | .writeLocking _ _ => s.lock.barsWriters
  | _ => false

/-- A client that does not wait gets on. -/
theorem stepsLeft_exec {s : SharedBlock} {p : BlockPoint} (h : waiting s p = false) :
    stepsLeft (s.exec p).2.point < stepsLeft (some p) := by
  cases p with
  | readChecking sector buffer | writeChecking sector data =>
      rw [SharedBlock.exec]
      split_ifs <;> simp [stepsLeft, Progress.point]
  | readLocking sector buffer =>
      have hbars : s.lock.barsReaders = false := h
      rw [SharedBlock.exec, hbars]
      cases s.poisoned <;> simp [stepsLeft, Progress.point]
  | writeLocking sector data =>
      have hbars : s.lock.barsWriters = false := h
      rw [SharedBlock.exec, hbars]
      cases s.poisoned <;> simp [stepsLeft, Progress.point]
  | readBounding sector buffer | writeBounding sector data =>
      rw [SharedBlock.exec]
      split <;> simp [stepsLeft, Progress.point]
  | copying sector buffer copied =>
      rw [SharedBlock.exec]
      split_ifs with hlt
      · simp only [stepsLeft, Progress.point, List.length_append, List.length_singleton]
        omega
      · simp [stepsLeft, Progress.point]
  | storing sector data k =>
      rw [SharedBlock.exec]
      split_ifs with hlt
      · simp only [stepsLeft, Progress.point]
        omega
      · simp [stepsLeft, Progress.point]
  | _ => simp [SharedBlock.exec, stepsLeft, Progress.point]

/-- If a client is in a call, some client in a call gets on: this one, or one that has the lock it
waits for. -/
theorem gets_on {s : Clients SharedBlock BlockPoint} (h : LockInv SharedBlock.lock BlockPoint.hold s)
    {c : Nat} {p : BlockPoint} (hp : s.clients[c]? = some (some p)) :
    ∃ (c' : Nat) (p' : BlockPoint), s.clients[c']? = some (some p') ∧
      stepsLeft (s.shared.exec p').2.point < stepsLeft (some p') := by
  cases hw : waiting s.shared p with
  | false => exact ⟨c, p, hp, stepsLeft_exec hw⟩
  | true =>
      have hbars : s.shared.lock.barsWriters = true := by
        cases p with
        | readLocking sector buffer => exact RwLock.barsWriters_of_barsReaders hw
        | writeLocking sector data => exact hw
        | _ => cases hw
      obtain ⟨c', p', hp', hheld⟩ := h.exists_holder hbars
      refine ⟨c', p', hp', stepsLeft_exec ?_⟩
      -- who waits holds nothing
      cases p' with
      | readLocking sector buffer => exact absurd rfl hheld
      | writeLocking sector data => exact absurd rfl hheld
      | _ => rfl

/-- **The lock excludes and no call is stuck.** In every interleaving of any number of clients, a
client that has the lock to write is the only one that has it; and whatever has happened, panics
included, the calls under way can all be finished, and then the lock is free. -/
theorem block_never_stuck (d : VirtioBlock) (n : Nat) (is : List (Unit × Move BlockCall)) :
    let M := sharedBlockMachine d n
    (∀ (c c' : Nat) (p p' : BlockPoint), (M.run is).clients[c]? = some (some p) →
      p.hold = .writing → (M.run is).clients[c']? = some (some p') → c' ≠ c →
      p'.hold = .nothing) ∧
    ∃ cs : List Nat,
      (∀ x ∈ (M.run (is ++ cs.map fun c => ((), .advance c))).clients, x = none) ∧
      (M.run (is ++ cs.map fun c => ((), .advance c))).shared.lock = .free := by
  intro M
  have hlock : ∀ js, LockInv SharedBlock.lock BlockPoint.hold (M.run js) :=
    blockCode_guarded.run ⟨d, .free, false⟩ n rfl
  refine ⟨fun c c' p p' hp hw hp' hc => (hlock is).alone hp hw hp' hc, ?_⟩
  obtain ⟨cs, hcs⟩ := blockCode.exists_finish (I := LockInv SharedBlock.lock BlockPoint.hold) ()
    (fun s c p h hp => blockCode_guarded.take h () (Or.inl hp)) (fun s c p h hp => gets_on h hp)
    ⟨d, .free, false⟩ n _ (M.run is) (Nat.le_refl _) (hlock is)
  have hidle : ∀ x ∈ (M.run (is ++ cs.map fun c => ((), .advance c))).clients, x = none := by
    rw [Machine.run_append]
    exact hcs
  refine ⟨cs, hidle, (hlock _).eq_free fun p hp => ?_⟩
  cases hidle _ hp

end Pepita.Virtio
