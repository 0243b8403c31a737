import Pepita.Basic.Definitions
import Pepita.Lib.Interleave

set_option autoImplicit false

/-! # The microVM under interleaving

`MicroVm` of `vmm.rs`. `run` sets the state to `Running` in one critical section, lets the first
vCPU execute without holding the lock, and sets it to `Stopped` in another. In between, other
clients may pause, resume and stop the VM, and try to run it.

Once the VM is stopped it stays so, and `exit_count` counts the runs that returned
(`stopped_is_final`). While a run is in progress a second one is kept out, except by a detour: a VM
is paused only while it is being run, and `can_start` takes a paused VM for one that may be started
(`one_run_iff`).
-/

namespace Pepita.Vmm

/-! ## The model -/

/-- `VmState`. -/
inductive VmState where
  | created
  | running
  | paused
  | stopped
  | error
  deriving DecidableEq, Repr

/-- `VmState::can_start`. -/
def VmState.canStart : VmState → Bool
  | .created => true
  | .paused => true
  | _ => false

/-- `ExitReason`. -/
inductive ExitReason where
  | unknown
  | exception
  | externalInterrupt
  | tripleFault
  | init
  | sipi
  | io
  | halt
  | cpuid
  | hlt
  | mmio
  | hypercall
  | internalError
  | shutdown
  | systemEvent
  deriving DecidableEq, Repr

/-- `MAX_VCPUS`. -/
def maxVcpus : UInt32 := 254

/-- `VmConfig`. -/
structure VmConfig where
  vcpus : UInt32
  memoryMb : UInt64
  deriving DecidableEq, Repr

/-- `VmConfig::validate`. -/
def VmConfig.validate (c : VmConfig) : Except KernelError Unit :=
  if c.vcpus = 0 ∨ c.vcpus > maxVcpus then .error .invalidArgument
  else if c.memoryMb = 0 then .error .invalidArgument
  else .ok ()

/-- `VmConfig::memory_bytes`. -/
def VmConfig.memoryBytes (c : VmConfig) : UInt64 := c.memoryMb * 1024 * 1024

/-- `Vcpu`. -/
structure Vcpu where
  id : UInt32
  running : Bool
  deriving DecidableEq, Repr

/-- `Vcpu::new`. -/
def Vcpu.new (id : UInt32) : Vcpu := ⟨id, false⟩

/-- `MicroVm`. -/
structure MicroVm where
  config : VmConfig
  state : VmState
  vcpus : List Vcpu
  memorySize : UInt64
  exitCount : UInt64
  deriving DecidableEq, Repr

namespace MicroVm

/-- The VM that `create` builds. -/
def fresh (config : VmConfig) : MicroVm where
  config := config
  state := .created
  vcpus := (List.range config.vcpus.toNat).map fun i => .new (UInt32.ofNat i)
  memorySize := config.memoryBytes
  exitCount := 0

/-- `MicroVm::create`. -/
def create (config : VmConfig) : Except KernelError MicroVm := do
  config.validate
  return fresh config

/-- The flag of the first vCPU, which `Vcpu::run` sets and clears. -/
def setRunning (vm : MicroVm) (running : Bool) : MicroVm :=
  { vm with vcpus := vm.vcpus.modifyHead fun v => { v with running := running } }

/-- The calls on a VM. -/
inductive Call where
  | run
  | pause
  | resume
  | stop
  deriving DecidableEq, Repr

/-- What a call returns. -/
inductive Reply where
  | ran (result : Except KernelError ExitReason)
  | done (result : Except KernelError Unit)
  deriving DecidableEq, Repr

/-- The next atomic step of a client inside a call. -/
inductive Point where
  /-- the start section of `run` -/
  | starting
  /-- in `run`, enter the first vCPU -/
  | entering
  /-- in `run`, leave the vCPU -/
  | leaving
  /-- in `run`, increment `exit_count` -/
  | counting (exit : ExitReason)
  /-- the finish section of `run` -/
  | finishing (exit : ExitReason)
  | pausing
  | resuming
  | stopping
  deriving DecidableEq, Repr

/-- One atomic step. -/
def exec (vm : MicroVm) : Point → MicroVm × Progress Point Reply
  | .starting =>
      if vm.state.canStart then ({ vm with state := .running }, .goto .entering)
      else (vm, .ret (.ran (.error .invalidRequest)))
  | .entering =>
      if vm.vcpus.isEmpty then (vm, .goto (.counting .halt))
      else (vm.setRunning true, .goto .leaving)
  | .leaving => (vm.setRunning false, .goto (.counting .halt))
  | .counting exit => ({ vm with exitCount := vm.exitCount + 1 }, .goto (.finishing exit))
  | .finishing exit => ({ vm with state := .stopped }, .ret (.ran (.ok exit)))
  | .pausing =>
      if vm.state ≠ .running then (vm, .ret (.done (.error .invalidRequest)))
      else ({ vm with state := .paused }, .ret (.done (.ok ())))
  | .resuming =>
      if vm.state ≠ .paused then (vm, .ret (.done (.error .invalidRequest)))
      else ({ vm with state := .running }, .ret (.done (.ok ())))
  | .stopping => ({ vm with state := .stopped }, .ret (.done (.ok ())))

/-- Where a call starts. -/
def entry : Call → Point
  | .run => .starting
  | .pause => .pausing
  | .resume => .resuming
  | .stop => .stopping

/-- The calls as atomic steps. They read nothing from outside. -/
def code : Code Unit MicroVm Call Point Reply := ⟨entry, fun _ => exec⟩

/-- `n` clients on a new VM. -/
def machine (config : VmConfig) (n : Nat) :
    Machine (Clients MicroVm Point) (Unit × Move Call) (Option (Point × Progress Point Reply)) :=
  code.machine (fresh config) n

/-- The client is in a `run` call, between its start section and its finish section. -/
def inRun : Option Point → Bool
  | some .entering => true
  | some .leaving => true
  | some (.counting _) => true
  | some (.finishing _) => true
  | _ => false

/-- The number of runs in progress. -/
def runs (s : Clients MicroVm Point) : Nat := s.clients.countP inRun

/-! ## One step -/

section Step

variable {s : Clients MicroVm Point} {c : Nat}

/-- A step moves its client into a run, on in it, or out of it. -/
theorem runs_take {p : Point} (h : code.At s c p) :
    runs (code.take () s c p) + (inRun (some p)).toNat
      = runs s + (inRun (exec s.shared p).2.point).toNat := by
  refine code.countP_take (fun call => ?_) () h
  cases call <;> rfl

theorem runs_starting (h : code.At s c .starting) (hs : s.shared.state.canStart = true) :
    runs (code.take () s c .starting) = runs s + 1 := by
  have hruns := runs_take h
  rw [exec, if_pos hs] at hruns
  exact hruns

theorem runs_finishing {exit : ExitReason} (h : code.At s c (.finishing exit)) :
    runs (code.take () s c (.finishing exit)) + 1 = runs s := runs_take h

/-- No other step changes the number of runs in progress. -/
theorem runs_of_other {p : Point} (h : code.At s c p)
    (hstart : p = .starting → s.shared.state.canStart = false)
    (hfinish : ∀ exit, p ≠ .finishing exit) : runs (code.take () s c p) = runs s := by
  have hruns := runs_take h
  cases p with
  | starting =>
      rw [exec, if_neg (by simp [hstart rfl])] at hruns
      exact hruns
  | entering =>
      rw [exec] at hruns
      split_ifs at hruns
      · exact Nat.add_right_cancel hruns
      · exact Nat.add_right_cancel hruns
  | leaving => exact Nat.add_right_cancel hruns
  | counting exit => exact Nat.add_right_cancel hruns
  | finishing exit => exact absurd rfl (hfinish exit)
  | pausing | resuming =>
      rw [exec] at hruns
      split_ifs at hruns
      · exact hruns
      · exact hruns
  | stopping => exact hruns

/-- What the state says about the runs in progress: a new VM has none, and one that is running or
paused has some. -/
structure Inv (s : Clients MicroVm Point) : Prop where
  created : s.shared.state = .created → runs s = 0
  active : s.shared.state = .running ∨ s.shared.state = .paused → 0 < runs s

theorem Inv.of_same {s' : Clients MicroVm Point} (h : Inv s)
    (hstate : s'.shared.state = s.shared.state) (hruns : runs s' = runs s) : Inv s' := by
  refine ⟨fun hs => ?_, fun hs => ?_⟩
  · rw [hruns]
    exact h.created (hstate ▸ hs)
  · rw [hruns]
    exact h.active (hstate ▸ hs)

theorem Inv.of_stopped {s' : Clients MicroVm Point} (hstate : s'.shared.state = .stopped) :
    Inv s' := by
  refine ⟨fun hs => ?_, fun hs => ?_⟩
  · rw [hstate] at hs
    cases hs
  · rw [hstate] at hs
    rcases hs with hs | hs
    · cases hs
    · cases hs

/-- A VM that goes between running and paused was active before. -/
theorem Inv.of_active {s' : Clients MicroVm Point} (hs' : s'.shared.state ≠ .created)
    (hruns : 0 < runs s') : Inv s' := ⟨fun hs => absurd hs hs', fun _ => hruns⟩

theorem Inv.take {p : Point} (h : Inv s) (hp : code.At s c p) : Inv (code.take () s c p) := by
  cases p with
  | starting =>
      cases hs : s.shared.state.canStart with
      | true =>
          have hstate : (code.take () s c .starting).shared.state = .running := by
            simp [Code.take, code, exec, hs]
          refine .of_active (by simp [hstate]) ?_
          rw [runs_starting hp hs]
          exact Nat.succ_pos _
      | false =>
          have hstate : (code.take () s c .starting).shared.state = s.shared.state := by
            simp [Code.take, code, exec, hs]
          exact h.of_same hstate (runs_of_other hp (fun _ => hs) (by simp))
  | entering =>
      have hstate : (code.take () s c .entering).shared.state = s.shared.state := by
        simp only [Code.take, code, exec]
        split_ifs
        · rfl
        · rfl
      exact h.of_same hstate (runs_of_other hp (by simp) (by simp))
  | leaving => exact h.of_same rfl (runs_of_other hp (by simp) (by simp))
  | counting exit => exact h.of_same rfl (runs_of_other hp (by simp) (by simp))
  | finishing exit => exact .of_stopped rfl
  | pausing =>
      have hruns := runs_of_other hp (by simp) (by simp)
      by_cases hs : s.shared.state = .running
      · have hstate : (code.take () s c .pausing).shared.state = .paused := by
          simp [Code.take, code, exec, hs]
        exact .of_active (by simp [hstate]) (hruns ▸ h.active (Or.inl hs))
      · have hstate : (code.take () s c .pausing).shared.state = s.shared.state := by
          simp [Code.take, code, exec, hs]
        exact h.of_same hstate hruns
  | resuming =>
      have hruns := runs_of_other hp (by simp) (by simp)
      by_cases hs : s.shared.state = .paused
      · have hstate : (code.take () s c .resuming).shared.state = .running := by
          simp [Code.take, code, exec, hs]
        exact .of_active (by simp [hstate]) (hruns ▸ h.active (Or.inr hs))
      · have hstate : (code.take () s c .resuming).shared.state = s.shared.state := by
          simp [Code.take, code, exec, hs]
        exact h.of_same hstate hruns
  | stopping => exact .of_stopped rfl

end Step

theorem runs_init (config : VmConfig) (n : Nat) : runs (machine config n).init = 0 := by
  show (List.replicate n none).countP inRun = 0
  rw [List.countP_replicate]
  rfl

theorem inv_run (config : VmConfig) (n : Nat) (is : List (Unit × Move Call)) :
    Inv ((machine config n).run is) := by
  have hinit : Inv (machine config n).init := by
    refine ⟨fun _ => runs_init config n, fun h => ?_⟩
    rcases h with h | h
    · cases h
    · cases h
  exact code.run_invariant (fresh config) n hinit (fun _ _ _ _ h hp => h.take hp) is

/-! ## One run at a time -/

/-- At most one `run` call is between its start section and its finish section. -/
def AtMostOneRun (s : Clients MicroVm Point) : Prop := runs s ≤ 1

/-- The step is not the start section of a `run` on a paused VM. -/
def NotStartedPaused (s : Clients MicroVm Point) (i : Unit × Move Call) : Prop :=
  ∀ c, code.turn s i.2 = some (c, .starting) → s.shared.state ≠ .paused

theorem atMostOneRun_take {s : Clients MicroVm Point} {c : Nat} {p : Point} (h : Inv s)
    (hone : AtMostOneRun s) (hp : code.At s c p) :
    AtMostOneRun (code.take () s c p) ↔ (p = .starting → s.shared.state ≠ .paused) := by
  unfold AtMostOneRun at hone ⊢
  by_cases hstart : p = .starting ∧ s.shared.state.canStart = true
  · obtain ⟨rfl, hs⟩ := hstart
    rw [runs_starting hp hs]
    cases hstate : s.shared.state with
    | created => simp [h.created hstate]
    | paused =>
        -- the run that was paused is still in progress
        have hpos := h.active (Or.inr hstate)
        exact iff_of_false (by omega) (by simp)
    | running => simp [hstate, VmState.canStart] at hs
    | stopped => simp [hstate, VmState.canStart] at hs
    | error => simp [hstate, VmState.canStart] at hs
  · have hle : runs (code.take () s c p) ≤ runs s := by
      by_cases hfinish : ∃ exit, p = .finishing exit
      · obtain ⟨exit, rfl⟩ := hfinish
        have hruns := runs_finishing hp
        omega
      · refine Nat.le_of_eq (runs_of_other hp (fun heq => ?_) fun exit heq => hfinish ⟨exit, heq⟩)
        exact Bool.eq_false_iff.mpr fun hs => hstart ⟨heq, hs⟩
    refine iff_of_true (hle.trans hone) fun heq hpaused => hstart ⟨heq, ?_⟩
    rw [hpaused]
    rfl

/-- **When a VM is run by one caller at a time.** In an interleaving of any number of clients this
holds at every moment exactly if no `run` call finds the VM paused. -/
theorem one_run_iff (config : VmConfig) (n : Nat) (is : List (Unit × Move Call)) :
    (machine config n).Always AtMostOneRun is ↔ (machine config n).EachStep NotStartedPaused is := by
  refine (machine config n).always_iff_eachStep (I := Inv) ?_ (inv_run config n) ?_ is
  · show runs (machine config n).init ≤ 1
    rw [runs_init]
    exact Nat.zero_le 1
  · intro s i h hone
    show AtMostOneRun (code.step s i).1 ↔ NotStartedPaused s i
    unfold NotStartedPaused
    rcases code.step_cases s i with ⟨hturn, heq⟩ | ⟨c, p, hturn, hp, heq⟩
    · rw [heq, hturn]
      exact iff_of_true hone fun c' => by simp
    · rw [heq, hturn]
      refine (atMostOneRun_take h hone hp).trans ⟨fun hall c' hc => ?_, fun hall hc => ?_⟩
      · exact hall (Prod.mk.inj (Option.some_inj.mp hc)).2
      · exact hall c (by rw [hc])

/-- One client runs the VM, a second pauses it, and a third runs it again. -/
theorem paused_run_twice :
    let is := [((), Move.invoke 0 Call.run), ((), .invoke 1 .pause), ((), .invoke 2 .run)]
    runs ((machine ⟨1, 128⟩ 3).run is) = 2 ∧ ¬ (machine ⟨1, 128⟩ 3).Always AtMostOneRun is := by
  intro is
  have htwo : runs ((machine ⟨1, 128⟩ 3).run is) = 2 := by decide
  refine ⟨htwo, fun h => ?_⟩
  have hone : runs ((machine ⟨1, 128⟩ 3).run is) ≤ 1 := h.run
  omega

/-! ## Stopped is final -/

/-- The error of a call whose guard fails. -/
def refusal : Call → Reply
  | .run => .ran (.error .invalidRequest)
  | _ => .done (.error .invalidRequest)

/-- The step ended a `run` call that returns `Ok`. -/
def isOkRun : Option (Point × Progress Point Reply) → Bool
  | some (_, .ret (.ran (.ok _))) => true
  | _ => false

/-- The number of `run` calls that have returned `Ok`. -/
def okRuns (h : List ((Unit × Move Call) × Option (Point × Progress Point Reply))) : Nat :=
  h.countP fun e => isOkRun e.2

/-- The client has counted its run and has not finished it. -/
def atFinish : Option Point → Bool
  | some (.finishing _) => true
  | _ => false

/-- No step leaves the stopped state, in particular not the finish section of a delayed run. -/
theorem exec_stopped {vm : MicroVm} (h : vm.state = .stopped) (p : Point) :
    (exec vm p).1.state = .stopped := by
  cases p with
  | starting => simp [exec, h, VmState.canStart]
  | entering =>
      simp only [exec]
      split_ifs
      · exact h
      · exact h
  | leaving => exact h
  | counting exit => exact h
  | finishing exit => rfl
  | pausing => simp [exec, h]
  | resuming => simp [exec, h]
  | stopping => rfl

theorem step_stopped {s : Clients MicroVm Point} (h : s.shared.state = .stopped)
    (i : Unit × Move Call) : (code.step s i).1.shared.state = .stopped := by
  rcases code.step_cases s i with ⟨-, heq⟩ | ⟨c, p, -, -, heq⟩
  · rw [heq]
    exact h
  · rw [heq]
    exact exec_stopped h p

/-- A guard that is evaluated on a stopped VM fails. -/
theorem invoke_stopped {s : Clients MicroVm Point} {c : Nat} (h : s.shared.state = .stopped)
    (hidle : s.clients[c]? = some none) {call : Call} (hcall : call ≠ .stop) :
    code.step s ((), .invoke c call) = (s, some (entry call, .ret (refusal call))) := by
  have hexec : exec s.shared (entry call) = (s.shared, .ret (refusal call)) := by
    cases call with
    | run => simp [exec, entry, h, VmState.canStart, refusal]
    | pause => simp [exec, entry, h, refusal]
    | resume => simp [exec, entry, h, refusal]
    | stop => exact absurd rfl hcall
  have hclients : s.clients.set c none = s.clients := by
    obtain ⟨hc, hnone⟩ := List.getElem?_eq_some_iff.mp hidle
    rw [← hnone]
    exact List.set_getElem_self hc
  simp only [Code.step, Code.turn, hidle, Code.take]
  show (Clients.mk (exec s.shared (entry call)).1
    (s.clients.set c (exec s.shared (entry call)).2.point),
    some (entry call, (exec s.shared (entry call)).2)) = _
  rw [hexec]
  show (Clients.mk s.shared (s.clients.set c none), _) = _
  rw [hclients]

/-- How `exit_count` reflects the history: it is ahead by the runs that are about to finish. No run
has returned before the VM is stopped, and then no run starts, so no client has two. -/
structure Counted (n : Nat) (h : List ((Unit × Move Call) × Option (Point × Progress Point Reply)))
    (s : Clients MicroVm Point) : Prop where
  exitCount_eq : s.shared.exitCount = UInt64.ofNat (okRuns h + s.clients.countP atFinish)
  okRuns_add_le : okRuns h + runs s ≤ n
  okRuns_eq : s.shared.state ≠ .stopped → okRuns h = 0

section Counted

variable {n : Nat} {h : List ((Unit × Move Call) × Option (Point × Progress Point Reply))}
  {s : Clients MicroVm Point} {c : Nat} {p : Point}

theorem okRuns_snoc (i : Unit × Move Call) (o : Option (Point × Progress Point Reply)) :
    okRuns (h ++ [(i, o)]) = okRuns h + (isOkRun o).toNat := by
  unfold okRuns
  rw [List.countP_append, List.countP_singleton]
  cases isOkRun o <;> rfl

theorem atFinish_take (hp : code.At s c p) :
    (code.take () s c p).clients.countP atFinish + (atFinish (some p)).toNat
      = s.clients.countP atFinish + (atFinish (exec s.shared p).2.point).toNat := by
  refine code.countP_take (fun call => ?_) () hp
  cases call <;> rfl

/-- No step but the last two of a `run` counts or returns `Ok`. -/
theorem exec_other (vm : MicroVm) (hcount : ∀ exit, p ≠ .counting exit)
    (hfinish : ∀ exit, p ≠ .finishing exit) :
    (exec vm p).1.exitCount = vm.exitCount ∧ atFinish (exec vm p).2.point = false ∧
    isOkRun (some (p, (exec vm p).2)) = false := by
  cases p with
  | counting exit => exact absurd rfl (hcount exit)
  | finishing exit => exact absurd rfl (hfinish exit)
  | starting | entering | pausing | resuming =>
      simp only [exec]
      split_ifs
      · exact ⟨rfl, rfl, rfl⟩
      · exact ⟨rfl, rfl, rfl⟩
  | leaving | stopping => exact ⟨rfl, rfl, rfl⟩

theorem Counted.finishing (hc : Counted n h s) (i : Unit × Move Call) {exit : ExitReason}
    (hp : code.At s c (.finishing exit)) :
    Counted n (h ++ [(i, some (.finishing exit, (exec s.shared (.finishing exit)).2))])
      (code.take () s c (.finishing exit)) := by
  have hok : okRuns (h ++ [(i, some (.finishing exit, (exec s.shared (.finishing exit)).2))])
      = okRuns h + 1 := okRuns_snoc i _
  have hfinish : (code.take () s c (.finishing exit)).clients.countP atFinish + 1
      = s.clients.countP atFinish := atFinish_take hp
  have hruns := runs_finishing hp
  have hle := hc.okRuns_add_le
  refine ⟨?_, by omega, fun hs => absurd rfl hs⟩
  rw [hok, Nat.add_right_comm, Nat.add_assoc, hfinish]
  exact hc.exitCount_eq

theorem Counted.counting (hc : Counted n h s) (i : Unit × Move Call) {exit : ExitReason}
    (hp : code.At s c (.counting exit)) :
    Counted n (h ++ [(i, some (.counting exit, (exec s.shared (.counting exit)).2))])
      (code.take () s c (.counting exit)) := by
  have hok : okRuns (h ++ [(i, some (.counting exit, (exec s.shared (.counting exit)).2))])
      = okRuns h := okRuns_snoc i _
  have hfinish : (code.take () s c (.counting exit)).clients.countP atFinish
      = s.clients.countP atFinish + 1 := atFinish_take hp
  have hruns := runs_of_other hp (by simp) (by simp)
  refine ⟨?_, ?_, ?_⟩
  · rw [hok, hfinish, ← Nat.add_assoc, UInt64.ofNat_add, ← hc.exitCount_eq]
    rfl
  · rw [hok, hruns]
    exact hc.okRuns_add_le
  · rw [hok]
    exact hc.okRuns_eq

theorem Counted.other (hc : Counted n h s) (hlen : s.clients.length = n) (i : Unit × Move Call)
    (hp : code.At s c p) (hcount : ∀ exit, p ≠ .counting exit)
    (hfinish : ∀ exit, p ≠ .finishing exit) :
    Counted n (h ++ [(i, some (p, (exec s.shared p).2))]) (code.take () s c p) := by
  obtain ⟨hexit, hnot, hnoOk⟩ := exec_other s.shared hcount hfinish
  have hok : okRuns (h ++ [(i, some (p, (exec s.shared p).2))]) = okRuns h := by
    rw [okRuns_snoc, hnoOk]
    rfl
  have hpoint : atFinish (some p) = false := by
    cases p with
    | finishing exit => exact absurd rfl (hfinish exit)
    | _ => rfl
  have hsame : (code.take () s c p).clients.countP atFinish = s.clients.countP atFinish := by
    have htake := atFinish_take hp
    rw [hnot, hpoint] at htake
    exact htake
  refine ⟨?_, ?_, fun hs => ?_⟩
  · show (exec s.shared p).1.exitCount = _
    rw [hok, hsame, hexit]
    exact hc.exitCount_eq
  · rw [hok]
    by_cases hstart : p = .starting ∧ s.shared.state.canStart = true
    · -- a run can start, so none has returned
      have hzero : okRuns h = 0 := by
        refine hc.okRuns_eq fun hs => ?_
        rw [hs] at hstart
        cases hstart.2
      have hall : runs (code.take () s c p) ≤ (code.take () s c p).clients.length :=
        List.countP_le_length
      rw [code.length_clients, hlen] at hall
      omega
    · rw [runs_of_other hp (fun heq => Bool.eq_false_iff.mpr fun h => hstart ⟨heq, h⟩) hfinish]
      exact hc.okRuns_add_le
  · rw [hok]
    exact hc.okRuns_eq fun hstopped => hs (exec_stopped hstopped p)

end Counted

theorem counted_run (config : VmConfig) (n : Nat) (is : List (Unit × Move Call)) :
    Counted n ((machine config n).trace is) ((machine config n).run is) := by
  have hinit : Counted n [] (machine config n).init := by
    refine ⟨?_, by rw [runs_init]; exact Nat.zero_le n, fun _ => rfl⟩
    show 0 = UInt64.ofNat (0 + (List.replicate n none).countP atFinish)
    rw [List.countP_replicate]
    rfl
  refine (code.run_history (fresh config) n
    (I := fun h s => Counted n h s ∧ s.clients.length = n) ⟨hinit, List.length_replicate⟩
    ?_ ?_ is).1
  · rintro h s i ⟨hc, hlen⟩
    have hok : okRuns (h ++ [(i, none)]) = okRuns h := okRuns_snoc i none
    refine ⟨⟨?_, ?_, ?_⟩, hlen⟩
    · rw [hok]
      exact hc.exitCount_eq
    · rw [hok]
      exact hc.okRuns_add_le
    · rw [hok]
      exact hc.okRuns_eq
  · rintro h s i c p ⟨hc, hlen⟩ hp
    refine ⟨?_, (code.length_clients i.1 c p).trans hlen⟩
    cases p with
    | counting exit => exact hc.counting i hp
    | finishing exit => exact hc.finishing i hp
    | _ => exact hc.other hlen i hp (by simp) (by simp)

/-- **Stopped is final.** After any interleaving that has stopped the VM: every further step leaves
it stopped; a `run`, `pause` or `resume` whose guard is then evaluated fails with `InvalidRequest`
and changes nothing. And after any interleaving with no run in progress, `exit_count` is the number
of `run` calls that returned `Ok`, of which there are no more than clients. -/
theorem stopped_is_final (config : VmConfig) (n : Nat) (is : List (Unit × Move Call)) :
    let M := machine config n
    ((M.run is).shared.state = .stopped →
      (∀ js, (M.run (is ++ js)).shared.state = .stopped) ∧
      ∀ c call, (M.run is).clients[c]? = some none → call ≠ .stop →
        M.step (M.run is) ((), .invoke c call)
          = (M.run is, some (entry call, .ret (refusal call)))) ∧
    (runs (M.run is) = 0 →
      (M.run is).shared.exitCount = UInt64.ofNat (okRuns (M.trace is)) ∧
      okRuns (M.trace is) ≤ n) := by
  intro M
  refine ⟨fun hs => ⟨fun js => ?_, fun c call hidle hcall => invoke_stopped hs hidle hcall⟩,
    fun hnone => ?_⟩
  · induction js using List.reverseRecOn with
    | nil =>
        rw [List.append_nil]
        exact hs
    | append_singleton js i ih =>
        rw [← List.append_assoc, Machine.run_snoc]
        exact step_stopped ih i
  · obtain ⟨hexit, hle, -⟩ := counted_run config n is
    have hfinish : (M.run is).clients.countP atFinish = 0 := by
      -- a client that is about to finish is in a run
      have hmono : (M.run is).clients.countP atFinish ≤ runs (M.run is) := by
        refine List.countP_mono_left fun l _ hl => ?_
        cases l with
        | none => cases hl
        | some p => cases p <;> first | rfl | cases hl
      omega
    rw [hfinish, Nat.add_zero] at hexit
    exact ⟨hexit, Nat.le_of_add_right_le hle⟩

end MicroVm

end Pepita.Vmm
