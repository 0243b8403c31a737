import Pepita.Exec.Executor

set_option autoImplicit false

/-! # The registry of executors

`ExecutorRegistry` of `executor.rs` hands a task to the first executor that says it can execute it.
The GPU and the remote executor are stubs: they answer `NotSupported` to everything, although a
connected remote executor says it can execute binaries. So a task that a CPU executor could execute
is refused if such an executor was registered first (`cpuFallback_iff`).
-/

namespace Pepita.Exec

/-! ## The registry -/

/-- `GpuExecutor`. -/
structure GpuExecutor where
  numDevices : UInt64
  running : Bool
  deriving DecidableEq, Repr

/-- `RemoteExecutor`. -/
structure RemoteExecutor where
  workers : List String
  connected : Bool
  deriving DecidableEq, Repr

namespace GpuExecutor

/-- `can_execute`. -/
def canExecute (g : GpuExecutor) (task : Task TaskSpec) : Bool :=
  (match task.spec.kind with
    | .shader => true
    | .binary _ => false
    | .pipeline _ => false) &&
  (task.spec.backend = .gpu || task.spec.backend = .any) && g.running && g.numDevices > 0

/-- `execute_sync`, a stub. -/
def executeSync (_ : GpuExecutor) (_ : Task TaskSpec) : Except KernelError ExecutionResult :=
  .error .notSupported

end GpuExecutor

namespace RemoteExecutor

/-- `can_execute`. -/
def canExecute (r : RemoteExecutor) (task : Task TaskSpec) : Bool :=
  (match task.spec.kind with
    | .binary _ => true
    | .shader => false
    | .pipeline _ => false) &&
  (task.spec.backend = .remote || task.spec.backend = .any) && r.connected && !r.workers.isEmpty

/-- `execute_sync`, a stub. -/
def executeSync (_ : RemoteExecutor) (_ : Task TaskSpec) : Except KernelError ExecutionResult :=
  .error .notSupported

end RemoteExecutor

/-- The executors there are. -/
inductive Executor where
  | cpu (e : CpuExecutor)
  | gpu (e : GpuExecutor)
  | remote (e : RemoteExecutor)
  deriving DecidableEq, Repr

/-- The world of a call: the process behind each command, and the time the call takes. -/
structure World where
  os : Nat → BinaryTask → Process
  elapsed : Nat

namespace Executor

/-- `can_execute`. -/
def canExecute : Executor → Task TaskSpec → Bool
  | .cpu e, task => e.canExecute task
  | .gpu e, task => e.canExecute task
  | .remote e, task => e.canExecute task

/-- `execute_sync`. -/
def executeSync (world : World) (task : Task TaskSpec) :
    Executor → Executor × Except KernelError ExecutionResult
  | .cpu e =>
      let r := e.executeSync (e.processes world.os) world.elapsed task
      (.cpu r.1.executor, r.2)
  | .gpu e => (.gpu e, e.executeSync task)
  | .remote e => (.remote e, e.executeSync task)

end Executor

/-- `ExecutorRegistry`, the executors in the order of registration. -/
structure ExecutorRegistry where
  executors : List Executor
  deriving DecidableEq, Repr

namespace ExecutorRegistry

/-- `find_executor`. The shared pointer it returns is a place in the registry. -/
def findExecutor (r : ExecutorRegistry) (task : Task TaskSpec) : Option Nat :=
  r.executors.findIdx? fun e => e.canExecute task

/-- `execute`. -/
def execute (r : ExecutorRegistry) (world : World) (task : Task TaskSpec) :
    ExecutorRegistry × Except KernelError ExecutionResult :=
  match (r.findExecutor task).bind fun i => r.executors[i]?.map fun e => (i, e) with
  | none => (r, .error .notSupported)
  | some (i, e) =>
      let x := e.executeSync world task
      (⟨r.executors.set i x.1⟩, x.2)

end ExecutorRegistry

/-! ## Dispatch -/

/-- The errors of a process are other ones. -/
theorem Process.runBinaryInternal_ne_notSupported (p : Process) (limit : Option Nat) :
    p.runBinaryInternal limit ≠ .error .notSupported := by
  unfold runBinaryInternal
  cases p.spawn with
  | some reason => cases reason <;> simp
  | none =>
      cases limit with
      | none =>
          dsimp only
          split <;> simp
      | some deadline =>
          dsimp only
          split
          · split <;> simp
          · simp
          · simp

theorem CpuExecutor.executeSync_ne_notSupported {e : CpuExecutor} {task : Task TaskSpec}
    (hcan : e.canExecute task = true) (os : Nat → BinaryTask → Process) (elapsed : Nat) :
    (e.executeSync (e.processes os) elapsed task).2 ≠ .error .notSupported := by
  have hrun : e.running = true := by
    simp only [canExecute, Bool.and_eq_true] at hcan
    exact hcan.2
  cases hkind : task.spec.kind with
  | binary binaryTask =>
      rw [executeSync, if_neg (by simp [hrun]), hkind]
      dsimp only
      rw [CpuCall.executeBinary_eq]
      exact Process.runBinaryInternal_ne_notSupported _ _
  | shader => simp [canExecute, hkind] at hcan
  | pipeline p =>
      rw [executeSync_of_pipeline hrun hkind]
      obtain ⟨-, done, -, hends⟩ :=
        CpuCall.pipelineLoop_ends (e.processes os) task.spec.timeout elapsed e p
      rcases hends with ⟨-, -, hr⟩ | ⟨stage, -, -, ⟨err, herr, hr⟩ | ⟨result, -, -, hr⟩⟩
      · rw [hr]
        simp
      · rw [hr, ← herr]
        exact Process.runBinaryInternal_ne_notSupported _ _
      · rw [hr]
        simp

namespace ExecutorRegistry

variable {r : ExecutorRegistry} {task : Task TaskSpec}

/-- If any executor can execute the task, the first one does. -/
theorem exists_first (world : World) (h : ∃ e ∈ r.executors, e.canExecute task = true) :
    ∃ (i : Nat) (e : Executor), r.executors[i]? = some e ∧ e.canExecute task = true ∧
      (∀ (j : Nat) (e' : Executor), j < i → r.executors[j]? = some e' →
        e'.canExecute task = false) ∧
      (r.execute world task).2 = (e.executeSync world task).2 := by
  cases hfind : r.findExecutor task with
  | none =>
      obtain ⟨e, he, hcan⟩ := h
      rw [List.findIdx?_eq_none_iff.mp hfind e he] at hcan
      cases hcan
  | some i =>
      obtain ⟨hi, hcan, hfirst⟩ := List.findIdx?_eq_some_iff_getElem.mp hfind
      refine ⟨i, r.executors[i], List.getElem?_eq_getElem hi, hcan, ?_, ?_⟩
      · intro j e' hj he'
        obtain ⟨hj', rfl⟩ := List.getElem?_eq_some_iff.mp he'
        simpa using hfirst j hj
      · simp [execute, hfind, List.getElem?_eq_getElem hi]

/-- A running CPU executor can execute the task. -/
def HasCpu (r : ExecutorRegistry) (task : Task TaskSpec) : Prop :=
  ∃ e, .cpu e ∈ r.executors ∧ e.running = true ∧ e.canExecute task = true

/-- If a running CPU executor can execute the task, it is not answered `NotSupported`. -/
def CpuFallback (r : ExecutorRegistry) (world : World) (task : Task TaskSpec) : Prop :=
  r.HasCpu task → (r.execute world task).2 ≠ .error .notSupported

/-- Every remote executor that says it can execute the task comes after a CPU executor that
can. -/
def CpuBeforeRemote (r : ExecutorRegistry) (task : Task TaskSpec) : Prop :=
  ∀ (i : Nat) (e : RemoteExecutor), r.executors[i]? = some (.remote e) →
    e.canExecute task = true →
    ∃ (j : Nat) (c : CpuExecutor), j < i ∧ r.executors[j]? = some (.cpu c) ∧
      c.canExecute task = true

/-- What a CPU executor can execute, no GPU can. -/
theorem gpu_canExecute_of_cpu {c : CpuExecutor} (hc : c.canExecute task = true)
    (g : GpuExecutor) : g.canExecute task = false := by
  unfold CpuExecutor.canExecute at hc
  unfold GpuExecutor.canExecute
  cases hkind : task.spec.kind <;> simp_all

/-- **When dispatch falls back to the CPU.** -/
theorem cpuFallback_iff (r : ExecutorRegistry) (world : World) (task : Task TaskSpec) :
    r.CpuFallback world task ↔ ¬ r.HasCpu task ∨ r.CpuBeforeRemote task := by
  by_cases hcpu : r.HasCpu task
  swap
  · exact iff_of_true (fun h => absurd h hcpu) (.inl hcpu)
  obtain ⟨c, hc, -, hcan⟩ := id hcpu
  obtain ⟨i, e, he, hecan, hfirst, hexec⟩ := exists_first world ⟨.cpu c, hc, hcan⟩
  have hfallback : r.CpuFallback world task ↔
      (e.executeSync world task).2 ≠ .error .notSupported := by
    rw [CpuFallback, hexec]
    exact ⟨fun h => h hcpu, fun h _ => h⟩
  rw [hfallback]
  simp only [hcpu, not_true_eq_false, false_or]
  cases e with
  | cpu e =>
      refine iff_of_true (CpuExecutor.executeSync_ne_notSupported hecan _ _) ?_
      intro k remote hremote hrcan
      refine ⟨i, e, ?_, he, hecan⟩
      -- the first executor is no remote one, so every such one comes later
      rcases Nat.lt_trichotomy i k with hlt | rfl | hgt
      · exact hlt
      · rw [he] at hremote
        cases hremote
      · have hno : remote.canExecute task = false := hfirst k _ hgt hremote
        rw [hno] at hrcan
        cases hrcan
  | gpu e =>
      have hno : (Executor.gpu e).canExecute task = false := gpu_canExecute_of_cpu hcan e
      rw [hno] at hecan
      cases hecan
  | remote e =>
      refine iff_of_false (fun h => h rfl) fun h => ?_
      obtain ⟨j, c', hj, hc', hcan'⟩ := h i e he hecan
      have hno : c'.canExecute task = false := hfirst j _ hj hc'
      rw [hno] at hcan'
      cases hcan'

/-- A connected remote executor before a running CPU executor, and a binary task for any backend:
the task is refused. With the two registered the other way round it is executed. -/
theorem remote_shadows_cpu :
    let cpu := Executor.cpu ⟨none, 0, true⟩
    let remote := Executor.remote ⟨["10.0.0.1:9000"], true⟩
    let task : Task TaskSpec := ⟨⟨.binary ⟨"./worker", [], [], none, none⟩, .any, none⟩, 3, 0⟩
    let world : World :=
      ⟨fun _ _ => ⟨none, fun _ => .exited (some 0), fun _ => 0, some ⟨some 0, [], []⟩, 0,
        fun _ => ⟨0, .inl (by decide)⟩⟩, 0⟩
    (ExecutorRegistry.execute ⟨[remote, cpu]⟩ world task).2 = .error .notSupported ∧
    ¬ (ExecutorRegistry.mk [remote, cpu]).CpuFallback world task ∧
    (ExecutorRegistry.execute ⟨[cpu, remote]⟩ world task).2
      = .ok ⟨0, some 0, [], [], [], 0, .completed, none⟩ := by
  intro cpu remote task world
  have hrefused : (ExecutorRegistry.execute ⟨[remote, cpu]⟩ world task).2
      = .error .notSupported := by decide
  refine ⟨hrefused, fun h => ?_, by decide⟩
  exact h ⟨⟨none, 0, true⟩, by decide, rfl, by decide⟩ hrefused

end ExecutorRegistry

end Pepita.Exec
