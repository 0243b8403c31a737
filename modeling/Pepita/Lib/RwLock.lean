import Pepita.Lib.Interleave

set_option autoImplicit false

/-! # Read-write locks

A lock that many clients may hold to read, or one to write. It is a counter of readers and a flag;
that these are right is not part of it but a fact about the code that uses it: `Code.Guarded` says of
single steps that the lock is taken when it is free and given back by who holds it. Then in every
interleaving

* the counter is the number of clients that read and the flag tells whether one writes
  (`Code.Guarded.run`),
* a client that writes is alone (`LockInv.alone`), and
* whoever waits for the lock waits for a client that holds it (`LockInv.exists_holder`).
-/

/-- What a client holds of a lock. -/
inductive Hold where
  | nothing
  | reading
  | writing
  deriving DecidableEq, Repr

/-- How many read, and whether one writes. -/
structure RwLock where
  readers : Nat
  writer : Bool
  deriving DecidableEq, Repr

namespace RwLock

/-- Nobody holds the lock. -/
def free : RwLock := ⟨0, false⟩

/-- A client that wants to read has to wait. -/
def barsReaders (l : RwLock) : Bool := l.writer

/-- A client that wants to write has to wait. -/
def barsWriters (l : RwLock) : Bool := l.writer || l.readers > 0

def lockRead (l : RwLock) : RwLock := { l with readers := l.readers + 1 }

def unlockRead (l : RwLock) : RwLock := { l with readers := l.readers - 1 }

def lockWrite (l : RwLock) : RwLock := { l with writer := true }

def unlockWrite (l : RwLock) : RwLock := { l with writer := false }

/-- What a step may do to the lock, by what its client holds before and after it. -/
inductive Step (l : RwLock) : Hold → Hold → RwLock → Prop where
  | keep (h : Hold) : Step l h h l
  | lockRead : l.barsReaders = false → Step l .nothing .reading l.lockRead
  | unlockRead : Step l .reading .nothing l.unlockRead
  | lockWrite : l.barsWriters = false → Step l .nothing .writing l.lockWrite
  | unlockWrite : Step l .writing .nothing l.unlockWrite

end RwLock

section Lock

variable {ω σ κ π ρ : Type*}

/-- What a client holds; nothing outside of a call. -/
def holdOf (hold : π → Hold) (client : Option π) : Hold := client.elim .nothing hold

/-- The number of clients that hold `h`. -/
def holders (hold : π → Hold) (h : Hold) (clients : List (Option π)) : Nat :=
  clients.countP fun client => holdOf hold client == h

/-- The code takes the lock when it is free, and gives back what it holds. -/
structure Code.Guarded (code : Code ω σ κ π ρ) (lock : σ → RwLock) (hold : π → Hold) : Prop where
  entry : ∀ call, hold (code.entry call) = .nothing
  exec : ∀ w s p, (lock s).Step (hold p) (holdOf hold (code.exec w s p).2.point)
    (lock (code.exec w s p).1)

/-- The lock knows who holds it, and who writes excludes all others. -/
structure LockInv (lock : σ → RwLock) (hold : π → Hold) (s : Clients σ π) : Prop where
  readers : (lock s.shared).readers = holders hold .reading s.clients
  writer : (lock s.shared).writer.toNat = holders hold .writing s.clients
  exclusive : (lock s.shared).writer = true → (lock s.shared).readers = 0

namespace LockInv

variable {lock : σ → RwLock} {hold : π → Hold} {s : Clients σ π}

theorem holders_pos {clients : List (Option π)} {c : Nat} {p : π} {h : Hold}
    (hp : clients[c]? = some (some p)) (hh : hold p = h) : 0 < holders hold h clients := by
  refine List.countP_pos_iff.mpr ⟨_, List.mem_of_getElem? hp, ?_⟩
  rw [beq_iff_eq]
  exact hh

theorem readers_pos (h : LockInv lock hold s) {c : Nat} {p : π}
    (hp : s.clients[c]? = some (some p)) (hr : hold p = .reading) :
    0 < (lock s.shared).readers := by
  rw [h.readers]
  exact holders_pos hp hr

theorem writer_eq_true (h : LockInv lock hold s) {c : Nat} {p : π}
    (hp : s.clients[c]? = some (some p)) (hw : hold p = .writing) :
    (lock s.shared).writer = true := by
  have hpos := holders_pos hp hw
  rw [← h.writer] at hpos
  cases hwriter : (lock s.shared).writer with
  | true => rfl
  | false =>
      rw [hwriter] at hpos
      cases hpos

theorem holders_writing_le_one (h : LockInv lock hold s) :
    holders hold .writing s.clients ≤ 1 := by
  rw [← h.writer]
  exact Bool.toNat_le _

/-- **A client that writes is alone**: no client reads, and no other writes. -/
theorem alone (h : LockInv lock hold s) {c c' : Nat} {p p' : π}
    (hp : s.clients[c]? = some (some p)) (hw : hold p = .writing)
    (hp' : s.clients[c']? = some (some p')) (hne : c' ≠ c) : hold p' = .nothing := by
  cases hh : hold p' with
  | nothing => rfl
  | reading =>
      have hzero := h.exclusive (h.writer_eq_true hp hw)
      have hpos := h.readers_pos hp' hh
      omega
  | writing =>
      -- without client `c` there is still one that writes
      have hrest : (s.clients.set c none)[c']? = some (some p') := by
        rw [List.getElem?_set_ne (Ne.symm hne)]
        exact hp'
      have hpos : 0 < holders hold .writing (s.clients.set c none) := holders_pos hrest hh
      have hone := h.holders_writing_le_one
      obtain ⟨hc, hget⟩ := List.getElem?_eq_some_iff.mp hp
      unfold holders at hpos hone
      rw [List.countP_set hc, hget] at hpos
      simp only [holdOf, Option.elim_some, Option.elim_none, hw, beq_self_eq_true, if_true,
        show (Hold.nothing == Hold.writing) = false from rfl, Bool.false_eq_true, if_false] at hpos
      change 0 < s.clients.countP (fun client => holdOf hold client == .writing) - 1 + 0 at hpos
      omega

/-- **Who waits for the lock waits for a client that holds it.** -/
theorem exists_holder (h : LockInv lock hold s) (hbars : (lock s.shared).barsWriters = true) :
    ∃ (c : Nat) (p : π), s.clients[c]? = some (some p) ∧ hold p ≠ .nothing := by
  have hheld : 0 < holders hold .writing s.clients ∨ 0 < holders hold .reading s.clients := by
    rw [← h.writer, ← h.readers]
    cases hwriter : (lock s.shared).writer with
    | true => exact .inl Nat.one_pos
    | false => simpa [RwLock.barsWriters, hwriter] using hbars
  have hfind : ∀ hh : Hold, hh ≠ .nothing → 0 < holders hold hh s.clients →
      ∃ (c : Nat) (p : π), s.clients[c]? = some (some p) ∧ hold p ≠ .nothing := by
    intro hh hne hpos
    obtain ⟨client, hmem, heq⟩ := List.countP_pos_iff.mp hpos
    obtain ⟨c, hc⟩ := List.mem_iff_getElem?.mp hmem
    rw [beq_iff_eq] at heq
    subst heq
    cases client with
    | none => exact absurd rfl hne
    | some p => exact ⟨c, p, hc, hne⟩
  rcases hheld with hpos | hpos
  · exact hfind .writing (by simp) hpos
  · exact hfind .reading (by simp) hpos

/-- If no client holds the lock it is free. -/
theorem eq_free (h : LockInv lock hold s) (hnone : ∀ p, some p ∈ s.clients → hold p = .nothing) :
    lock s.shared = .free := by
  have hzero : ∀ hh : Hold, hh ≠ .nothing → holders hold hh s.clients = 0 := by
    intro hh hne
    refine List.countP_eq_zero.mpr fun client hmem => ?_
    rw [beq_iff_eq]
    cases client with
    | none => exact hne.symm
    | some p => exact fun heq => hne (heq.symm.trans (hnone p hmem))
  have hreaders := h.readers.trans (hzero .reading (by simp))
  have hwriter := h.writer.trans (hzero .writing (by simp))
  rw [RwLock.free, ← hreaders, ← Bool.toNat_eq_zero.mp hwriter]

end LockInv

/-- When no one writes after a step, no one did before, or the step has stopped writing. -/
theorem RwLock.Step.writer_eq_false {l l' : RwLock} {before after : Hold}
    (h : l.Step before after l') (hw : l'.writer = false) :
    l.writer = false ∨ (before = .writing ∧ after = .nothing) := by
  cases h with
  | keep | lockRead | unlockRead => exact .inl hw
  | lockWrite => cases hw
  | unlockWrite => exact .inr ⟨rfl, rfl⟩

theorem RwLock.barsWriters_of_barsReaders {l : RwLock} (h : l.barsReaders = true) :
    l.barsWriters = true := by
  simp only [RwLock.barsReaders] at h
  simp [RwLock.barsWriters, h]

namespace Code.Guarded

variable {code : Code ω σ κ π ρ} {lock : σ → RwLock} {hold : π → Hold} {s : Clients σ π}

/-- A step exchanges what its client holds. -/
theorem holders_take (hg : code.Guarded lock hold) (w : ω) {c : Nat} {p : π}
    (hp : code.At s c p) (h : Hold) :
    holders hold h (code.take w s c p).clients + (hold p == h).toNat
      = holders hold h s.clients + (holdOf hold (code.exec w s.shared p).2.point == h).toNat := by
  refine code.countP_take (q := fun client => holdOf hold client == h) ?_ w hp
  intro call
  show (hold (code.entry call) == h) = (Hold.nothing == h)
  rw [hg.entry]

/-- **One step of one client.** -/
theorem take (hg : code.Guarded lock hold) (h : LockInv lock hold s) (w : ω) {c : Nat} {p : π}
    (hp : code.At s c p) : LockInv lock hold (code.take w s c p) := by
  have hread := hg.holders_take w hp .reading
  have hwrite := hg.holders_take w hp .writing
  have hstep := hg.exec w s.shared p
  have hreaders := h.readers
  have hwriter := h.writer
  have hexclusive := h.exclusive
  -- a client that holds something is inside a call
  have hreading : hold p = .reading → 0 < (lock s.shared).readers := by
    intro hr
    rcases hp with hp | ⟨-, call, rfl⟩
    · exact h.readers_pos hp hr
    · rw [hg.entry] at hr
      cases hr
  have hwriting : hold p = .writing → (lock s.shared).writer = true := by
    intro hw
    rcases hp with hp | ⟨-, call, rfl⟩
    · exact h.writer_eq_true hp hw
    · rw [hg.entry] at hw
      cases hw
  suffices hl : (lock (code.exec w s.shared p).1).readers
        = holders hold .reading (code.take w s c p).clients ∧
      (lock (code.exec w s.shared p).1).writer.toNat
        = holders hold .writing (code.take w s c p).clients ∧
      ((lock (code.exec w s.shared p).1).writer = true →
        (lock (code.exec w s.shared p).1).readers = 0) from ⟨hl.1, hl.2.1, hl.2.2⟩
  generalize hold p = before at hread hwrite hstep hreading hwriting
  generalize holdOf hold (code.exec w s.shared p).2.point = after at hread hwrite hstep
  generalize lock (code.exec w s.shared p).1 = l at hstep ⊢
  cases hstep with
  | keep hh => exact ⟨by omega, by omega, hexclusive⟩
  | lockRead hfree =>
      change _ + 0 = _ + 1 at hread
      change _ + 0 = _ + 0 at hwrite
      refine ⟨?_, ?_, fun hw => ?_⟩
      · show (lock s.shared).readers + 1 = _
        omega
      · show (lock s.shared).writer.toNat = _
        omega
      · exact absurd hw (by simpa [RwLock.barsReaders, RwLock.lockRead] using hfree)
  | unlockRead =>
      change _ + 1 = _ + 0 at hread
      change _ + 0 = _ + 0 at hwrite
      have hpos := hreading rfl
      refine ⟨?_, ?_, fun hw => ?_⟩
      · show (lock s.shared).readers - 1 = _
        omega
      · show (lock s.shared).writer.toNat = _
        omega
      · have hzero := hexclusive hw
        omega
  | lockWrite hfree =>
      change _ + 0 = _ + 0 at hread
      change _ + 0 = _ + 1 at hwrite
      simp only [RwLock.barsWriters, Bool.or_eq_false_iff, decide_eq_false_iff_not] at hfree
      rw [hfree.1, Bool.toNat_false] at hwriter
      refine ⟨?_, ?_, fun _ => ?_⟩
      · show (lock s.shared).readers = _
        omega
      · show 1 = _
        omega
      · show (lock s.shared).readers = 0
        omega
  | unlockWrite =>
      change _ + 0 = _ + 0 at hread
      change _ + 1 = _ + 0 at hwrite
      rw [hwriting rfl, Bool.toNat_true] at hwriter
      refine ⟨?_, ?_, fun hw => by cases hw⟩
      · show (lock s.shared).readers = _
        omega
      · show 0 = _
        omega

/-- **In every interleaving** the lock knows who holds it. -/
theorem run (hg : code.Guarded lock hold) (init : σ) (n : Nat) (h0 : lock init = .free)
    (is : List (ω × Move κ)) : LockInv lock hold ((code.machine init n).run is) := by
  refine code.run_invariant (I := LockInv lock hold) init n ?_
    (fun w _ _ _ h hp => hg.take h w hp) is
  have hnone : ∀ h : Hold, h ≠ .nothing → holders hold h (List.replicate n none) = 0 := by
    intro h hne
    unfold holders
    rw [List.countP_replicate, show (holdOf hold none == h) = false from beq_false_of_ne hne.symm]
    rfl
  show LockInv lock hold ⟨init, List.replicate n none⟩
  refine ⟨?_, ?_, fun _ => ?_⟩
  · rw [h0, hnone .reading (by simp)]
    rfl
  · rw [h0, hnone .writing (by simp)]
    rfl
  · rw [h0]
    rfl

end Code.Guarded

end Lock
