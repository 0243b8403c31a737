import Mathlib.Tactic

set_option autoImplicit false

/-! # Machines, runs and histories

A machine is an initial state and a total step: given a state and an input it moves to a next
state and gives an output. A sequential component is a machine whose inputs are its calls. A
concurrent one is a machine whose inputs name the client that takes the next atomic step, so
that a list of inputs is one interleaving.

The file gives the two ways facts about a machine are proved here.

* `run_invariant`, `run_history`: what one step preserves, every run preserves. The second
  form relates the state to the list of inputs and outputs so far.
* `Simulation`: two machines whose states are related step by step give the same outputs
  (`Simulation.trace_eq`).
-/

/-- A state machine with inputs `ι` and outputs `ο`. -/
structure Machine (σ ι ο : Type*) where
  init : σ
  step : σ → ι → σ × ο

namespace Machine

variable {σ τ ι ο : Type*} (M : Machine σ ι ο)

/-- The state after the inputs `is`, from `s`. -/
def runFrom (s : σ) (is : List ι) : σ := is.foldl (fun s i => (M.step s i).1) s

/-- The state after the inputs `is`. -/
def run (is : List ι) : σ := M.runFrom M.init is

/-- The history of a run from `s`: each input with the output it was answered by. -/
def traceFrom (s : σ) : List ι → List (ι × ο)
  | [] => []
  | i :: is => (i, (M.step s i).2) :: traceFrom (M.step s i).1 is

/-- The history of a run. -/
def trace (is : List ι) : List (ι × ο) := M.traceFrom M.init is

theorem runFrom_append (s : σ) (is js : List ι) :
    M.runFrom s (is ++ js) = M.runFrom (M.runFrom s is) js := List.foldl_append

theorem traceFrom_append (is js : List ι) : ∀ s : σ,
    M.traceFrom s (is ++ js) = M.traceFrom s is ++ M.traceFrom (M.runFrom s is) js := by
  induction is with
  | nil => intro s; rfl
  | cons i is ih =>
      intro s
      rw [List.cons_append, traceFrom, ih, traceFrom, List.cons_append]
      rfl

theorem run_append (is js : List ι) : M.run (is ++ js) = M.runFrom (M.run is) js :=
  M.runFrom_append M.init is js

theorem trace_append (is js : List ι) :
    M.trace (is ++ js) = M.trace is ++ M.traceFrom (M.run is) js :=
  M.traceFrom_append is js M.init

theorem run_snoc (is : List ι) (i : ι) : M.run (is ++ [i]) = (M.step (M.run is) i).1 :=
  M.run_append is [i]

theorem trace_snoc (is : List ι) (i : ι) :
    M.trace (is ++ [i]) = M.trace is ++ [(i, (M.step (M.run is) i).2)] :=
  M.trace_append is [i]

theorem traceFrom_inputs (is : List ι) : ∀ s : σ, (M.traceFrom s is).map Prod.fst = is := by
  induction is with
  | nil =>
      intro s
      rfl
  | cons i is ih =>
      intro s
      rw [traceFrom, List.map_cons, ih]

/-- An entry of a history is the answer in the state that the inputs before it lead to. -/
theorem traceFrom_split {e : ι × ο} {post : List (ι × ο)} (pre : List (ι × ο)) :
    ∀ (s : σ) (is : List ι), M.traceFrom s is = pre ++ e :: post →
      ∃ js ks, is = js ++ e.1 :: ks ∧ pre = M.traceFrom s js ∧
        e.2 = (M.step (M.runFrom s js) e.1).2 := by
  induction pre with
  | nil =>
      intro s is h
      cases is with
      | nil => cases h
      | cons i is =>
          obtain ⟨rfl, -⟩ := List.cons.inj h
          exact ⟨[], is, rfl, rfl, rfl⟩
  | cons e' pre ih =>
      intro s is h
      cases is with
      | nil => cases h
      | cons i is =>
          obtain ⟨rfl, htail⟩ := List.cons.inj h
          obtain ⟨js, ks, rfl, hpre, hout⟩ := ih _ _ htail
          exact ⟨i :: js, ks, rfl, congrArg _ hpre, hout⟩

/-! ## Invariants -/

/-- What every step preserves holds of every state reached. -/
theorem run_invariant {I : σ → Prop} (h0 : I M.init)
    (hstep : ∀ s i, I s → I (M.step s i).1) (is : List ι) : I (M.run is) := by
  induction is using List.reverseRecOn with
  | nil => exact h0
  | append_singleton is i ih => rw [run_snoc]; exact hstep _ i ih

/-- A relation between the history and the state that every step with an input in `A` preserves
holds throughout every run over such inputs. -/
theorem run_history_on {A : ι → Prop} {I : List (ι × ο) → σ → Prop} (h0 : I [] M.init)
    (hstep : ∀ tr s i, A i → I tr s → I (tr ++ [(i, (M.step s i).2)]) (M.step s i).1)
    (is : List ι) (hA : ∀ i ∈ is, A i) : I (M.trace is) (M.run is) := by
  induction is using List.reverseRecOn with
  | nil => exact h0
  | append_singleton is i ih =>
      rw [run_snoc, trace_snoc]
      exact hstep _ _ i (hA i (by simp)) (ih fun j hj => hA j (by simp [hj]))

/-- The case of all inputs. -/
theorem run_history {I : List (ι × ο) → σ → Prop} (h0 : I [] M.init)
    (hstep : ∀ tr s i, I tr s → I (tr ++ [(i, (M.step s i).2)]) (M.step s i).1) (is : List ι) :
    I (M.trace is) (M.run is) :=
  M.run_history_on (A := fun _ => True) h0 (fun tr s i _ => hstep tr s i) is fun _ _ => trivial

/-! ## Properties of every state of a run -/

/-- `P` holds in every state the run over `is` passes through, the first and the last included. -/
def Always (P : σ → Prop) (is : List ι) : Prop := ∀ js, js <+: is → P (M.run js)

/-- Every step of the run over `is` is taken in a state and with an input that satisfy `C`. -/
def EachStep (C : σ → ι → Prop) (is : List ι) : Prop :=
  ∀ js i, js ++ [i] <+: is → C (M.run js) i

theorem Always.run {P : σ → Prop} {is : List ι} (h : M.Always P is) : P (M.run is) :=
  h is List.prefix_rfl

theorem EachStep.of_prefix {C : σ → ι → Prop} {is js : List ι} (h : M.EachStep C is)
    (hpre : js <+: is) : M.EachStep C js := fun ks i hks => h ks i (hks.trans hpre)

theorem eachStep_nil (C : σ → ι → Prop) : M.EachStep C [] := by
  intro js i h
  simp at h

theorem eachStep_snoc (C : σ → ι → Prop) (is : List ι) (i : ι) :
    M.EachStep C (is ++ [i]) ↔ M.EachStep C is ∧ C (M.run is) i := by
  constructor
  · intro h
    exact ⟨fun js j hj => h js j (hj.trans (List.prefix_append _ _)), h is i List.prefix_rfl⟩
  · rintro ⟨h, hi⟩ js j hj
    rcases List.prefix_concat_iff.mp hj with heq | hlt
    · obtain ⟨rfl, hji⟩ := List.append_inj' heq rfl
      have : j = i := by simpa using hji
      exact this ▸ hi
    · exact h js j hlt

theorem always_snoc (P : σ → Prop) (is : List ι) (i : ι) :
    M.Always P (is ++ [i]) ↔ M.Always P is ∧ P (M.run (is ++ [i])) := by
  constructor
  · intro h
    exact ⟨fun js hj => h js (hj.trans (List.prefix_append _ _)), h _ List.prefix_rfl⟩
  · rintro ⟨h, hi⟩ js hj
    rcases List.prefix_concat_iff.mp hj with rfl | hlt
    · exact hi
    · exact h js hlt

/-- A relation between the inputs so far and the state that steps which meet `C` preserve holds
after every run whose steps all meet `C`. -/
theorem run_inputs_of_eachStep {I : List ι → σ → Prop} {C : σ → ι → Prop} (h0 : I [] M.init)
    (hstep : ∀ is s i, I is s → C s i → I (is ++ [i]) (M.step s i).1) (is : List ι)
    (h : M.EachStep C is) : I is (M.run is) := by
  induction is using List.reverseRecOn with
  | nil => exact h0
  | append_singleton is i ih =>
      obtain ⟨hpre, hi⟩ := (M.eachStep_snoc C is i).mp h
      rw [run_snoc]
      exact hstep is _ i (ih hpre) hi

/-- What steps that meet `C` preserve holds throughout a run whose steps all meet `C`. -/
theorem always_of_eachStep {P : σ → Prop} {C : σ → ι → Prop} (h0 : P M.init)
    (hstep : ∀ s i, P s → C s i → P (M.step s i).1) (is : List ι) (h : M.EachStep C is) :
    M.Always P is := fun js hjs =>
  M.run_inputs_of_eachStep (I := fun _ s => P s) h0 (fun _ s i => hstep s i) js (h.of_prefix M hjs)

/-- **Exact conditions for a property of all states.** If `P` holds initially and a step from a
state with `P` keeps `P` exactly when it meets `C`, then `P` holds throughout a run exactly
when each of its steps meets `C`. `I` is an invariant the equivalence may use. -/
theorem always_iff_eachStep {P I : σ → Prop} {C : σ → ι → Prop} (h0 : P M.init)
    (hI : ∀ is, I (M.run is)) (hstep : ∀ s i, I s → P s → (P (M.step s i).1 ↔ C s i))
    (is : List ι) : M.Always P is ↔ M.EachStep C is := by
  induction is using List.reverseRecOn with
  | nil =>
      refine ⟨fun _ => M.eachStep_nil C, fun _ js hj => ?_⟩
      rw [List.prefix_nil.mp hj]
      exact h0
  | append_singleton is i ih =>
      rw [always_snoc, eachStep_snoc, ← ih, run_snoc]
      exact and_congr_right fun h => hstep _ i (hI is) (h.run M)

/-! ## Counting steps -/

/-- How many steps of the run over `is` from `s` are taken in a state and with an input that
satisfy `c`. -/
def countFrom (c : σ → ι → Bool) (s : σ) : List ι → Nat
  | [] => 0
  | i :: is => (if c s i then 1 else 0) + countFrom c (M.step s i).1 is

/-- How many steps of the run over `is` satisfy `c`. -/
def count (c : σ → ι → Bool) (is : List ι) : Nat := M.countFrom c M.init is

theorem countFrom_append (c : σ → ι → Bool) (is js : List ι) : ∀ s : σ,
    M.countFrom c s (is ++ js) = M.countFrom c s is + M.countFrom c (M.runFrom s is) js := by
  induction is with
  | nil => intro s; exact (Nat.zero_add _).symm
  | cons i is ih =>
      intro s
      rw [List.cons_append, countFrom, ih, countFrom, ← Nat.add_assoc]
      rfl

theorem count_append (c : σ → ι → Bool) (is js : List ι) :
    M.count c (is ++ js) = M.count c is + M.countFrom c (M.run is) js :=
  M.countFrom_append c is js M.init

theorem count_snoc (c : σ → ι → Bool) (is : List ι) (i : ι) :
    M.count c (is ++ [i]) = M.count c is + if c (M.run is) i then 1 else 0 :=
  M.count_append c is [i]

/-! ## Maps between machines -/

section Map

variable {κ π : Type*} {M} {N : Machine τ κ π} {f : σ → τ} {g : ι → κ} {h : ο → π}

/-- If `N` does to the images of states and inputs what `M` does to these, its runs are the images
of the runs of `M`. -/
theorem run_map (hinit : N.init = f M.init)
    (hstep : ∀ s i, N.step (f s) (g i) = (f (M.step s i).1, h (M.step s i).2)) (is : List ι) :
    N.run (is.map g) = f (M.run is) ∧
      N.trace (is.map g) = (M.trace is).map (Prod.map g h) := by
  induction is using List.reverseRecOn with
  | nil => exact ⟨hinit, rfl⟩
  | append_singleton is i ih =>
      rw [List.map_append, List.map_singleton, run_snoc, trace_snoc, run_snoc, trace_snoc, ih.1,
        ih.2, hstep, List.map_append]
      exact ⟨rfl, rfl⟩

end Map

/-! ## Simulation -/

/-- A step-by-step correspondence of two machines over the same inputs and outputs. -/
structure Simulation (M : Machine σ ι ο) (A : Machine τ ι ο) (R : σ → τ → Prop) : Prop where
  init : R M.init A.init
  step : ∀ s t i, R s t → R (M.step s i).1 (A.step t i).1 ∧ (M.step s i).2 = (A.step t i).2

variable {M} {A : Machine τ ι ο} {R : σ → τ → Prop}

theorem Simulation.run_rel (h : Simulation M A R) (is : List ι) : R (M.run is) (A.run is) := by
  induction is using List.reverseRecOn with
  | nil => exact h.init
  | append_singleton is i ih =>
      rw [run_snoc, run_snoc]
      exact (h.step _ _ i ih).1

/-- Simulated machines have the same histories. -/
theorem Simulation.trace_eq (h : Simulation M A R) (is : List ι) : M.trace is = A.trace is := by
  induction is using List.reverseRecOn with
  | nil => rfl
  | append_singleton is i ih =>
      rw [trace_snoc, trace_snoc, ih, (h.step _ _ i (h.run_rel is)).2]

end Machine
