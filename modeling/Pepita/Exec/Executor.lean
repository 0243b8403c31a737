import Mathlib.Data.Nat.Find
import Mathlib.Tactic
import Pepita.Exec.Task

set_option autoImplicit false

/-! # The CPU executor

`CpuExecutor` of `executor.rs`, which runs the binaries of a task as processes: one, or the stages
of a pipeline one after the other.

The processes are outside. `run_binary_internal` is modelled over what the operating system shows
of one process (`Process`); the executor above it over any answers to the commands of a call
(`Processes`). Times are in nanoseconds.
-/

namespace Pepita.Exec

/-! ## Tasks -/

/-- `BinaryTask`. -/
structure BinaryTask where
  path : String
  args : List String
  env : List (String × String)
  workingDir : Option String
  stdin : Option (List UInt8)
  deriving DecidableEq, Repr

/-- `PipelineTask`. -/
structure PipelineTask where
  stages : List BinaryTask
  pipeOutput : Bool
  deriving DecidableEq, Repr

/-- `TaskKind`. No executor looks into a shader. -/
inductive TaskKind where
  | binary (task : BinaryTask)
  | shader
  | pipeline (task : PipelineTask)
  deriving DecidableEq, Repr

/-- The fields of a `Task` that the executors read. -/
structure TaskSpec where
  kind : TaskKind
  backend : Backend
  timeout : Option Nat
  deriving DecidableEq, Repr

/-! ## One process -/

/-- The kinds of `io::Error` that `spawn` is asked for. -/
inductive SpawnError where
  | notFound
  | other
  deriving DecidableEq, Repr

/-- The answers of `try_wait`: an exit status with its code, still running, or an error. -/
inductive TryWait where
  | exited (code : Option Int32)
  | running
  | failed
  deriving DecidableEq, Repr

/-- `std::process::Output`, with the code of its exit status. -/
structure Output where
  code : Option Int32
  stdout : List UInt8
  stderr : List UInt8
  deriving DecidableEq, Repr

/-- What the operating system shows of one command: whether it can be spawned, the answer to each
poll and the time since the start when it is read, what `wait_with_output` gives in the end, and
how long it all took. Time goes on: no deadline lies ahead of all polls.

It is the process of a command that ends. The write of the standard input and `wait_with_output` can
block for ever, and the sum of a start and a timeout can overflow and panic; a call with such a
command does not come back. -/
structure Process where
  spawn : Option SpawnError
  tryWait : Nat → TryWait
  now : Nat → Nat
  output : Option Output
  elapsed : Nat
  passes : ∀ deadline, ∃ n, tryWait n ≠ .running ∨ deadline < now n

/-- `ExitStatus::success`. -/
def success (code : Option Int32) : Bool := code = some 0

/-- `{exit_code:?}`. -/
def debugCode : Option Int32 → String
  | none => "None"
  | some code => s!"Some({code})"

/-- `build_result`. -/
def buildResult (taskId : UInt64) (exitCode : Option Int32) (stdout stderr : List UInt8)
    (duration : Nat) (success : Bool) : ExecutionResult where
  taskId := taskId
  exitCode := exitCode
  stdout := stdout
  stderr := stderr
  outputBuffers := []
  duration := duration
  state := if success then .completed else .failed
  error := if success then none else some s!"Exit code: {debugCode exitCode}"

namespace Process

/-- The poll that ends the loop of `run_binary_internal`: the first that finds the process not
running, or the deadline passed. -/
def lastPoll (p : Process) (deadline : Nat) : Nat := Nat.find (p.passes deadline)

/-- `run_binary_internal`, where `limit` is `timeout.or(self.max_cpu_time)`. -/
def runBinaryInternal (p : Process) (limit : Option Nat) : Except KernelError ExecutionResult :=
  match p.spawn with
  | some .notFound => .error .ublkDeviceNotFound
  | some .other => .error .invalidRequest
  | none =>
      match limit with
      | some deadline =>
          match p.tryWait (p.lastPoll deadline) with
          | .exited code =>
              match p.output with
              | none => .error .ioTimeout
              | some out => .ok (buildResult 0 code out.stdout out.stderr p.elapsed (success code))
          | .running => .ok ⟨0, none, [], [], [], p.elapsed, .timedOut, some "Task timed out"⟩
          | .failed => .error .ioTimeout
      | none =>
          match p.output with
          | none => .error .ioTimeout
          | some out =>
              .ok (buildResult 0 out.code out.stdout out.stderr p.elapsed (success out.code))

end Process

/-! ## The CPU executor -/

/-- `CpuExecutor`, without the fields that nothing reads. -/
structure CpuExecutor where
  maxCpuTime : Option Nat
  runningTasks : UInt64
  running : Bool
  deriving DecidableEq, Repr

/-- What comes of the commands of one call: of the `n`-th, given the command with its standard
input and the task's timeout. -/
abbrev Processes : Type := Nat → BinaryTask → Option Nat → Except KernelError ExecutionResult

/-- A call on an executor: the executor, and the commands the call has run so far. -/
structure CpuCall where
  executor : CpuExecutor
  started : List BinaryTask

namespace CpuCall

/-- `running_tasks.fetch_add(1)`. -/
def enter (c : CpuCall) : CpuCall :=
  { c with executor := { c.executor with runningTasks := c.executor.runningTasks + 1 } }

/-- `running_tasks.fetch_sub(1)`. -/
def leave (c : CpuCall) : CpuCall :=
  { c with executor := { c.executor with runningTasks := c.executor.runningTasks - 1 } }

/-- `execute_binary`. -/
def executeBinary (run : Processes) (c : CpuCall) (task : BinaryTask) (timeout : Option Nat) :
    CpuCall × Except KernelError ExecutionResult :=
  let c := c.enter
  let result := run c.started.length task timeout
  (leave { c with started := c.started ++ [task] }, result)

/-- The loop over the stages of a pipeline, from stage `idx` on. `lastOutput` need not be emptied
when it is taken: it is set before it is read again. -/
def pipelineLoop (run : Processes) (pipeOutput : Bool) (timeout : Option Nat) (elapsed : Nat) :
    Nat → List BinaryTask → Option (List UInt8) → CpuCall →
      CpuCall × Except KernelError ExecutionResult
  | _, [], lastOutput, c =>
      (c, .ok ⟨0, some 0, lastOutput.getD [], [], [], elapsed, .completed, none⟩)
  | idx, stage :: stages, lastOutput, c =>
      let stageTask := if pipeOutput && idx > 0 then { stage with stdin := lastOutput } else stage
      match c.executeBinary run stageTask timeout with
      | (c', .error e) => (c', .error e)
      | (c', .ok result) =>
          if !result.isSuccess then
            (c', .ok ⟨0, result.exitCode, result.stdout, result.stderr, [], elapsed, .failed,
              some s!"Pipeline stage {idx} failed"⟩)
          else pipelineLoop run pipeOutput timeout elapsed (idx + 1) stages (some result.stdout) c'

end CpuCall

namespace CpuExecutor

/-- `can_execute`. -/
def canExecute (e : CpuExecutor) (task : Task TaskSpec) : Bool :=
  (match task.spec.kind with
    | .binary _ => true
    | .pipeline _ => true
    | .shader => false) &&
  (task.spec.backend = .cpu || task.spec.backend = .any) && e.running

/-- `execute_sync`. `elapsed` is the time a pipeline took. -/
def executeSync (run : Processes) (elapsed : Nat) (e : CpuExecutor) (task : Task TaskSpec) :
    CpuCall × Except KernelError ExecutionResult :=
  if !e.running then (⟨e, []⟩, .error .deviceNotReady)
  else
    match task.spec.kind with
    | .binary binaryTask => CpuCall.executeBinary run ⟨e, []⟩ binaryTask task.spec.timeout
    | .pipeline pipelineTask =>
        CpuCall.pipelineLoop run pipelineTask.pipeOutput task.spec.timeout elapsed 0
          pipelineTask.stages none ⟨e, []⟩
    | .shader => (⟨e, []⟩, .error .notSupported)

/-- The commands of a call on the operating system `os`, which shows a process for each. -/
def processes (e : CpuExecutor) (os : Nat → BinaryTask → Process) : Processes :=
  fun n task timeout => (os n task).runBinaryInternal (timeout <|> e.maxCpuTime)

end CpuExecutor

/-! ## Pipelines

The stages of a pipeline are run one after the other until one does not complete. `done` are the
results of the stages that did. -/

/-- The command of stage `i` after stages with the results `done`: fed with the output of the stage
before it, if the pipeline pipes, and else as it was configured. -/
def PipelineTask.command (p : PipelineTask) (done : List ExecutionResult) (i : Nat)
    (stage : BinaryTask) : BinaryTask :=
  if p.pipeOutput = true ∧ 0 < i then
    { stage with stdin := done[i - 1]?.map fun result => result.stdout }
  else stage

/-- The first stages of the pipeline have completed with the results `done`. -/
structure PipelineTask.Completed (p : PipelineTask) (run : Processes) (timeout : Option Nat)
    (done : List ExecutionResult) : Prop where
  length_le : done.length ≤ p.stages.length
  stage : ∀ i stage result, p.stages[i]? = some stage → done[i]? = some result →
    run i (p.command done i stage) timeout = .ok result ∧ result.isSuccess = true

/-- How a pipeline ends, once the stages with the results `done` have completed: after its last
stage, or at the next one. -/
def PipelineTask.EndsAfter (p : PipelineTask) (run : Processes) (timeout : Option Nat)
    (elapsed : Nat) (done : List ExecutionResult)
    (started : List BinaryTask) (r : Except KernelError ExecutionResult) : Prop :=
  (done.length = p.stages.length ∧ started = p.stages.mapIdx (p.command done) ∧
    r = .ok ⟨0, some 0, (done.getLast?.map fun result => result.stdout).getD [], [], [], elapsed,
      .completed, none⟩) ∨
  (∃ stage, p.stages[done.length]? = some stage ∧
    started = (p.stages.take (done.length + 1)).mapIdx (p.command done) ∧
    ((∃ e, run done.length (p.command done done.length stage) timeout = .error e ∧
        r = .error e) ∨
      ∃ result, run done.length (p.command done done.length stage) timeout = .ok result ∧
        result.isSuccess = false ∧
        r = .ok ⟨0, result.exitCode, result.stdout, result.stderr, [], elapsed, .failed,
          some s!"Pipeline stage {done.length} failed"⟩))

/-- A command depends on the result of the stage before it only. -/
theorem PipelineTask.command_append (p : PipelineTask) (done more : List ExecutionResult) {i : Nat}
    (hi : i ≤ done.length) (stage : BinaryTask) :
    p.command (done ++ more) i stage = p.command done i stage := by
  unfold command
  split_ifs with h
  · rw [List.getElem?_append_left (by omega)]
  · rfl

theorem PipelineTask.mapIdx_command_append (p : PipelineTask) (done more : List ExecutionResult)
    {stages : List BinaryTask} (hlen : stages.length ≤ done.length + 1) :
    stages.mapIdx (p.command (done ++ more)) = stages.mapIdx (p.command done) := by
  apply List.ext_getElem
  · simp
  · intro i h1 h2
    rw [List.length_mapIdx] at h1
    rw [List.getElem_mapIdx, List.getElem_mapIdx, p.command_append done more (by omega)]

/-- One more stage completes. -/
theorem PipelineTask.Completed.snoc {p : PipelineTask} {run : Processes} {timeout : Option Nat}
    {done : List ExecutionResult} (h : p.Completed run timeout done) {stage : BinaryTask}
    {result : ExecutionResult} (hstage : p.stages[done.length]? = some stage)
    (hrun : run done.length (p.command done done.length stage) timeout = .ok result)
    (hsuccess : result.isSuccess = true) : p.Completed run timeout (done ++ [result]) := by
  have hlt := (List.getElem?_eq_some_iff.mp hstage).1
  refine ⟨by rw [List.length_append, List.length_singleton]; omega, ?_⟩
  intro i stage' result' hs hr
  have hi : i < done.length + 1 := by
    simpa using (List.getElem?_eq_some_iff.mp hr).1
  rw [p.command_append done [result] (by omega)]
  rcases Nat.lt_succ_iff_lt_or_eq.mp hi with hi | rfl
  · rw [List.getElem?_append_left hi] at hr
    exact h.stage i stage' result' hs hr
  · rw [List.getElem?_concat_length, Option.some_inj] at hr
    rw [hstage, Option.some_inj] at hs
    subst hr hs
    exact ⟨hrun, hsuccess⟩

namespace CpuCall

theorem executeBinary_eq (run : Processes) (c : CpuCall) (task : BinaryTask)
    (timeout : Option Nat) :
    c.executeBinary run task timeout
      = (⟨c.executor, c.started ++ [task]⟩, run c.started.length task timeout) := by
  simp [executeBinary, enter, leave]

/-- The loop has run the stages `front`, which completed with `done`, and goes on with `rest`. -/
theorem pipelineLoop_spec {p : PipelineTask} (run : Processes) (timeout : Option Nat)
    (elapsed : Nat) (executor : CpuExecutor) (rest : List BinaryTask) :
    ∀ (front : List BinaryTask) (done : List ExecutionResult), p.stages = front ++ rest →
      done.length = front.length → p.Completed run timeout done →
      let r := pipelineLoop run p.pipeOutput timeout elapsed done.length rest
        (done.getLast?.map fun result => result.stdout)
        ⟨executor, front.mapIdx (p.command done)⟩
      r.1.executor = executor ∧
        ∃ done', p.Completed run timeout done' ∧
          p.EndsAfter run timeout elapsed done' r.1.started r.2 := by
  induction rest with
  | nil =>
      intro front done hstages hlen hdone
      rw [List.append_nil] at hstages
      exact ⟨rfl, done, hdone, .inl ⟨by rw [hlen, hstages], by rw [hstages]; rfl, rfl⟩⟩
  | cons stage rest ih =>
      intro front done hstages hlen hdone
      have hget : p.stages[done.length]? = some stage := by
        rw [hstages, hlen, List.getElem?_append_right le_rfl, Nat.sub_self,
          List.getElem?_cons_zero]
      have hcommand : (if p.pipeOutput && decide (done.length > 0) then
            { stage with stdin := done.getLast?.map fun result => result.stdout }
          else stage) = p.command done done.length stage := by
        simp [PipelineTask.command, List.getLast?_eq_getElem?]
      have hstarted : front.mapIdx (p.command done) ++ [p.command done done.length stage]
          = (front ++ [stage]).mapIdx (p.command done) := by
        rw [List.mapIdx_concat, hlen]
      have htake : p.stages.take (done.length + 1) = front ++ [stage] := by
        rw [hstages, hlen, List.append_cons, List.take_left' (by simp)]
      rw [pipelineLoop]
      simp only [hcommand, executeBinary_eq, List.length_mapIdx, ← hlen, hstarted]
      cases hrun : run done.length (p.command done done.length stage) timeout with
      | error e =>
          exact ⟨rfl, done, hdone, .inr ⟨stage, hget, by rw [htake], .inl ⟨e, hrun, rfl⟩⟩⟩
      | ok result =>
          cases hsuccess : result.isSuccess with
          | false =>
              simp only [hsuccess, Bool.not_false, if_true, true_and]
              exact ⟨done, hdone,
                .inr ⟨stage, hget, by rw [htake], .inr ⟨result, hrun, hsuccess, rfl⟩⟩⟩
          | true =>
              simp only [hsuccess, Bool.not_true, Bool.false_eq_true, if_false]
              have hih := ih (front ++ [stage]) (done ++ [result])
                (by rw [hstages, List.append_cons]) (by simp [hlen])
                (hdone.snoc hget hrun hsuccess)
              rw [p.mapIdx_command_append done [result] (by simp [hlen]),
                List.length_append, List.length_singleton, List.getLast?_concat,
                Option.map_some] at hih
              exact hih

end CpuCall

/-- The loop from its start. -/
theorem CpuCall.pipelineLoop_ends (run : Processes) (timeout : Option Nat) (elapsed : Nat)
    (executor : CpuExecutor) (p : PipelineTask) :
    let r := pipelineLoop run p.pipeOutput timeout elapsed 0 p.stages none ⟨executor, []⟩
    r.1.executor = executor ∧
      ∃ done, p.Completed run timeout done ∧
        p.EndsAfter run timeout elapsed done r.1.started r.2 := by
  refine pipelineLoop_spec run timeout elapsed executor p.stages [] [] rfl rfl ?_
  exact ⟨Nat.zero_le _, fun i stage result _ hr => by cases hr⟩

theorem CpuExecutor.executeSync_of_pipeline {e : CpuExecutor} (hrun : e.running = true)
    {task : Task TaskSpec} {p : PipelineTask} (hkind : task.spec.kind = .pipeline p)
    (run : Processes) (elapsed : Nat) :
    e.executeSync run elapsed task = CpuCall.pipelineLoop run p.pipeOutput task.spec.timeout
      elapsed 0 p.stages none ⟨e, []⟩ := by
  rw [executeSync, if_neg (by simp [hrun]), hkind]

/-- **A pipeline is a left fold with early exit.** On a running executor the stages are run in
order, each fed with the output of the one before it if the pipeline pipes, up to the first that
errs or does not complete. Its error is returned, or a failed result with its exit code, its output
and its number; if all complete, a completed result with the output of the last. On every path the
executor is left as it was, the count of running tasks included. -/
theorem executeSync_pipeline (run : Processes) (elapsed : Nat) (e : CpuExecutor)
    (hrun : e.running = true) (task : Task TaskSpec) (p : PipelineTask)
    (hkind : task.spec.kind = .pipeline p) :
    let r := e.executeSync run elapsed task
    r.1.executor = e ∧
      ∃ done, p.Completed run task.spec.timeout done ∧
        p.EndsAfter run task.spec.timeout elapsed done r.1.started r.2 := by
  rw [CpuExecutor.executeSync_of_pipeline hrun hkind]
  exact CpuCall.pipelineLoop_ends run task.spec.timeout elapsed e p

/-- Two stages, the second of which fails on what the first has written. -/
theorem executeSync_pipeline_two :
    let e : CpuExecutor := ⟨none, 7, true⟩
    let stage := fun path => (⟨path, [], [], none, none⟩ : BinaryTask)
    let task : Task TaskSpec := ⟨⟨.pipeline ⟨[stage "a", stage "b"], true⟩, .any, none⟩, 3, 0⟩
    let run : Processes := fun n command _ =>
      if n = 0 then .ok ⟨0, some 0, [42], [], [], 1, .completed, none⟩
      else .ok ⟨0, some 1, command.stdin.getD [], [13], [], 1, .failed, some "Exit code: Some(1)"⟩
    (e.executeSync run 5 task).1.executor.runningTasks = 7 ∧
    (e.executeSync run 5 task).1.started = [stage "a", { stage "b" with stdin := some [42] }] ∧
    (e.executeSync run 5 task).2
      = .ok ⟨0, some 1, [42], [13], [], 5, .failed, some "Pipeline stage 1 failed"⟩ := by
  intro e stage task run
  have hexec := (executeSync_pipeline run 5 e rfl task _ rfl).1
  refine ⟨?_, by decide, by decide⟩
  rw [hexec]

end Pepita.Exec
