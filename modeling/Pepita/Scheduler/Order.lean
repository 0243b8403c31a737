import Pepita.Lib.Machine
import Pepita.Scheduler.Capacity

set_option autoImplicit false

/-! # The order of a deque

A deque is used from both ends: its owner takes the newest item, thieves take the oldest. One
invariant carries both orders over any mixture of calls: what has been stolen so far, followed by
what is still in the deque, is a subsequence of what has been pushed (`InOrder`).

Items may be equal, so *pushed before* is not a relation of items. It is one of items that carry
the number of the call that pushed them. The deque does not look at its items: a run on stamped
items is the run on the bare ones, stamps aside (`run_stamped`).
-/

namespace Pepita.Sched

variable {T U : Type}

/-! ## Calls on a deque -/

/-- The calls on a deque. -/
inductive DequeCall (T : Type) where
  | push (item : T)
  | pop
  | steal
  | stealHalf
  deriving DecidableEq, Repr

/-- What the calls give back. A reply to `push` repeats the item. -/
inductive DequeReply (T : Type) where
  | pushed (item : T) (result : Except KernelError Unit)
  | popped (result : Option T)
  | stolen (result : Option T)
  | half (result : List T)

/-- One call. -/
def WorkStealingDeque.call (q : WorkStealingDeque T) :
    DequeCall T → WorkStealingDeque T × DequeReply T
  | .push item => ((q.push item).1, .pushed item (q.push item).2)
  | .pop => (q.pop.1, .popped q.pop.2)
  | .steal => (q.steal.1, .stolen q.steal.2)
  | .stealHalf => (q.stealHalf.1, .half q.stealHalf.2)

/-- A deque from its construction on. -/
def dequeMachine (T : Type) (capacity : UInt64) :
    Machine (WorkStealingDeque T) (DequeCall T) (DequeReply T) where
  init := .new capacity
  step := WorkStealingDeque.call

/-- The item a call has pushed, if it was accepted. -/
def DequeReply.pushedItems : DequeReply T → List T
  | .pushed item (.ok ()) => [item]
  | _ => []

/-- The items a thief has been given. -/
def DequeReply.stolenItems : DequeReply T → List T
  | .stolen result => result.toList
  | .half result => result
  | _ => []

/-- The items pushed successfully, in order. -/
def pushed (tr : List (DequeCall T × DequeReply T)) : List T :=
  tr.flatMap fun e => e.2.pushedItems

/-- The items handed out by `steal` and `steal_half`, in order. -/
def stolen (tr : List (DequeCall T × DequeReply T)) : List T :=
  tr.flatMap fun e => e.2.stolenItems

theorem pushed_snoc (tr : List (DequeCall T × DequeReply T)) (e : DequeCall T × DequeReply T) :
    pushed (tr ++ [e]) = pushed tr ++ e.2.pushedItems := by
  simp [pushed]

theorem stolen_snoc (tr : List (DequeCall T × DequeReply T)) (e : DequeCall T × DequeReply T) :
    stolen (tr ++ [e]) = stolen tr ++ e.2.stolenItems := by
  simp [stolen]

/-- A call pushes its own item, or nothing. -/
theorem pushedItems_call (q : WorkStealingDeque T) (c : DequeCall T) :
    (q.call c).2.pushedItems = [] ∨
      ∃ item, c = .push item ∧ (q.call c).2.pushedItems = [item] := by
  cases c with
  | push item =>
      simp only [WorkStealingDeque.call]
      cases (q.push item).2 with
      | ok result => exact .inr ⟨item, rfl, rfl⟩
      | error e => exact .inl rfl
  | pop => exact .inl rfl
  | steal => exact .inl rfl
  | stealHalf => exact .inl rfl

/-! ## The invariant -/

/-- The deque is well formed, and what was stolen and what is left are in the order of the
pushes. -/
def InOrder (tr : List (DequeCall T × DequeReply T)) (q : WorkStealingDeque T) : Prop :=
  q.WF ∧ (stolen tr ++ q.deque).Sublist (pushed tr)

/-- **One call.** A push is the newest on both sides; a pop only shortens the left side; what a
thief takes moves from the deque to the stolen items, which stand right before it. -/
theorem InOrder.call {tr : List (DequeCall T × DequeReply T)} {q : WorkStealingDeque T}
    (h : InOrder tr q) (c : DequeCall T) :
    InOrder (tr ++ [(c, (q.call c).2)]) (q.call c).1 := by
  obtain ⟨hwf, hsub⟩ := h
  unfold InOrder
  rw [pushed_snoc, stolen_snoc]
  cases c with
  | push item =>
      refine ⟨hwf.push item, ?_⟩
      rcases Nat.lt_or_ge q.deque.length q.capacity.toNat with hroom | hfull
      · obtain ⟨q', hpush, hdeque, -, -⟩ := WorkStealingDeque.push_room hwf hroom item
        simp only [WorkStealingDeque.call, hpush, hdeque, DequeReply.pushedItems,
          DequeReply.stolenItems, List.append_nil]
        rw [← List.append_assoc]
        exact hsub.append (List.Sublist.refl [item])
      · simpa only [WorkStealingDeque.call, WorkStealingDeque.push_full hfull,
          DequeReply.pushedItems, DequeReply.stolenItems, List.append_nil] using hsub
  | pop =>
      rcases List.eq_nil_or_concat q.deque with hnil | ⟨rest, item, hsnoc⟩
      · simpa [WorkStealingDeque.call, WorkStealingDeque.pop_nil hnil, DequeReply.pushedItems,
          DequeReply.stolenItems] using And.intro hwf hsub
      · rw [List.concat_eq_append] at hsnoc
        obtain ⟨q', hpop, hrest, -, hwf'⟩ := WorkStealingDeque.pop_snoc hwf hsnoc
        simp only [WorkStealingDeque.call, hpop, hrest, DequeReply.pushedItems,
          DequeReply.stolenItems, List.append_nil]
        refine ⟨hwf', List.Sublist.trans ?_ hsub⟩
        rw [hsnoc, ← List.append_assoc]
        exact List.sublist_append_left _ _
  | steal =>
      cases hdeque : q.deque with
      | nil =>
          simpa [WorkStealingDeque.call, WorkStealingDeque.steal_nil hdeque,
            DequeReply.pushedItems, DequeReply.stolenItems] using And.intro hwf hsub
      | cons item rest =>
          obtain ⟨q', hsteal, hrest, -, hwf'⟩ := WorkStealingDeque.steal_cons hwf hdeque
          rw [hdeque] at hsub
          simp only [WorkStealingDeque.call, hsteal, hrest, DequeReply.pushedItems,
            DequeReply.stolenItems, Option.toList_some, List.append_nil, List.append_assoc,
            List.singleton_append]
          exact ⟨hwf', hsub⟩
  | stealHalf =>
      obtain ⟨q', hhalf, hrest, -, hwf'⟩ := WorkStealingDeque.stealHalf_eq hwf
      simp only [WorkStealingDeque.call, hhalf, hrest, DequeReply.pushedItems,
        DequeReply.stolenItems, List.append_nil, List.append_assoc, List.take_append_drop]
      exact ⟨hwf', hsub⟩

theorem inOrder_run (capacity : UInt64) (calls : List (DequeCall T)) :
    InOrder ((dequeMachine T capacity).trace calls) ((dequeMachine T capacity).run calls) :=
  (dequeMachine T capacity).run_history ⟨.new capacity, List.Sublist.refl []⟩
    (fun _ _ c h => h.call c) calls

/-! ## The deque does not look at its items -/

section Map

variable (f : T → U)

/-- The deque with every item replaced. -/
def WorkStealingDeque.map (q : WorkStealingDeque T) : WorkStealingDeque U :=
  ⟨q.deque.map f, q.len, q.capacity⟩

/-- The call with its item replaced. -/
def DequeCall.map : DequeCall T → DequeCall U
  | .push item => .push (f item)
  | .pop => .pop
  | .steal => .steal
  | .stealHalf => .stealHalf

/-- The reply with every item replaced. -/
def DequeReply.map : DequeReply T → DequeReply U
  | .pushed item result => .pushed (f item) result
  | .popped result => .popped (result.map f)
  | .stolen result => .stolen (result.map f)
  | .half result => .half (result.map f)

theorem WorkStealingDeque.call_map (q : WorkStealingDeque T) (c : DequeCall T) :
    (q.map f).call (c.map f) = ((q.call c).1.map f, (q.call c).2.map f) := by
  cases c with
  | push item =>
      simp only [call, DequeCall.map, push, map, List.length_map]
      split_ifs <;> simp [DequeReply.map]
  | pop =>
      simp only [call, DequeCall.map, pop, map, List.getLast?_map]
      cases q.deque.getLast? <;> simp [DequeReply.map]
  | steal =>
      simp only [call, DequeCall.map, steal, map]
      cases hdeque : q.deque <;> simp [DequeReply.map, hdeque]
  | stealHalf =>
      simp only [call, DequeCall.map, stealHalf, map, List.length_map, popFronts_eq]
      split_ifs <;> simp [DequeReply.map, List.map_take, List.map_drop]

theorem pushedItems_map (r : DequeReply T) : (r.map f).pushedItems = r.pushedItems.map f := by
  cases r with
  | pushed item result => cases result <;> rfl
  | popped result => rfl
  | stolen result => rfl
  | half result => rfl

theorem stolenItems_map (r : DequeReply T) : (r.map f).stolenItems = r.stolenItems.map f := by
  cases r with
  | pushed item result => rfl
  | popped result => rfl
  | stolen result => cases result <;> rfl
  | half result => rfl

end Map

/-! ## Stamps -/

/-- The calls with every pushed item stamped with the number of its call. -/
def stamped (calls : List (DequeCall T)) : List (DequeCall (Nat × T)) :=
  calls.zipIdx.map fun p => p.1.map (Prod.mk p.2)

theorem stamped_snoc (calls : List (DequeCall T)) (c : DequeCall T) :
    stamped (calls ++ [c]) = stamped calls ++ [c.map (Prod.mk calls.length)] := by
  simp [stamped, List.zipIdx_append]

theorem map_snd_stamped (calls : List (DequeCall T)) :
    (stamped calls).map (DequeCall.map Prod.snd) = calls := by
  induction calls using List.reverseRecOn with
  | nil => rfl
  | append_singleton calls c ih =>
      rw [stamped_snoc, List.map_append, ih]
      cases c <;> rfl

/-- The run on the bare items is the run on the stamped ones, stamps aside. -/
theorem run_stamped (capacity : UInt64) (calls : List (DequeCall T)) :
    (dequeMachine T capacity).run calls
        = ((dequeMachine (Nat × T) capacity).run (stamped calls)).map Prod.snd ∧
      (dequeMachine T capacity).trace calls
        = ((dequeMachine (Nat × T) capacity).trace (stamped calls)).map
            (Prod.map (DequeCall.map Prod.snd) (DequeReply.map Prod.snd)) := by
  have h := Machine.run_map (M := dequeMachine (Nat × T) capacity) (N := dequeMachine T capacity)
    (f := WorkStealingDeque.map Prod.snd) (g := DequeCall.map Prod.snd)
    (h := DequeReply.map Prod.snd) rfl (WorkStealingDeque.call_map Prod.snd) (stamped calls)
  rwa [map_snd_stamped] at h

/-- One more call adds its own item to what was pushed, or nothing. -/
theorem pushed_trace_snoc (capacity : UInt64) (calls : List (DequeCall T)) (c : DequeCall T) :
    pushed ((dequeMachine T capacity).trace (calls ++ [c]))
        = pushed ((dequeMachine T capacity).trace calls) ∨
      ∃ item, c = .push item ∧ pushed ((dequeMachine T capacity).trace (calls ++ [c]))
        = pushed ((dequeMachine T capacity).trace calls) ++ [item] := by
  rw [Machine.trace_snoc, pushed_snoc]
  rcases pushedItems_call ((dequeMachine T capacity).run calls) c with hnone | ⟨item, hc, hone⟩
  · exact .inl ((congrArg _ hnone).trans (List.append_nil _))
  · exact .inr ⟨item, hc, congrArg _ hone⟩

/-- The stamps of a run grow from push to push, and all are of earlier calls. -/
theorem pushed_stamped (capacity : UInt64) (calls : List (DequeCall T)) :
    (pushed ((dequeMachine (Nat × T) capacity).trace (stamped calls))).Pairwise
        (fun x y => x.1 < y.1) ∧
      ∀ x ∈ pushed ((dequeMachine (Nat × T) capacity).trace (stamped calls)),
        x.1 < calls.length := by
  induction calls using List.reverseRecOn with
  | nil => exact ⟨List.Pairwise.nil, fun x hx => by cases hx⟩
  | append_singleton calls c ih =>
      obtain ⟨hpair, hlt⟩ := ih
      rw [stamped_snoc, List.length_append, List.length_singleton]
      rcases pushed_trace_snoc capacity (stamped calls) (c.map (Prod.mk calls.length)) with
        hsame | ⟨item, hc, hnew⟩
      · rw [hsame]
        exact ⟨hpair, fun x hx => Nat.lt_succ_of_lt (hlt x hx)⟩
      · have hstamp : item.1 = calls.length := by
          cases c with
          | push bare => rw [← (DequeCall.push.inj hc)]
          | pop => cases hc
          | steal => cases hc
          | stealHalf => cases hc
        rw [hnew]
        refine ⟨List.pairwise_append.mpr ⟨hpair, List.pairwise_singleton _ _, ?_⟩, ?_⟩
        · intro x hx y hy
          rw [List.mem_singleton.mp hy, hstamp]
          exact hlt x hx
        · intro x hx
          rcases List.mem_append.mp hx with hx | hx
          · exact Nat.lt_succ_of_lt (hlt x hx)
          · rw [List.mem_singleton.mp hx, hstamp]
            exact Nat.lt_succ_self _

theorem pushed_map {f : T → U} (tr : List (DequeCall T × DequeReply T)) :
    pushed (tr.map (Prod.map (DequeCall.map f) (DequeReply.map f))) = (pushed tr).map f := by
  simp [pushed, List.flatMap_map, List.map_flatMap, pushedItems_map]

theorem stolen_map {f : T → U} (tr : List (DequeCall T × DequeReply T)) :
    stolen (tr.map (Prod.map (DequeCall.map f) (DequeReply.map f))) = (stolen tr).map f := by
  simp [stolen, List.flatMap_map, List.map_flatMap, stolenItems_map]

/-- **The order of a deque, over every run.** What thieves were given is a subsequence of what was
pushed, and was pushed before everything still in the deque; what the owner pops is the newest item
of the deque; and `steal_half` takes the older half, rounded down, oldest first. -/
theorem deque_order (capacity : UInt64) (calls : List (DequeCall T)) :
    let M := dequeMachine T capacity
    let S := dequeMachine (Nat × T) capacity
    let tr := S.trace (stamped calls)
    let q := S.run (stamped calls)
    -- the stamps are labels: without them this is the run over `calls`
    (M.trace calls = tr.map (Prod.map (DequeCall.map Prod.snd) (DequeReply.map Prod.snd)) ∧
      (M.run calls).deque = q.deque.map Prod.snd) ∧
    (stolen (M.trace calls)).Sublist (pushed (M.trace calls)) ∧
    (stolen tr).Sublist (pushed tr) ∧ (pushed tr).Pairwise (fun x y => x.1 < y.1) ∧
    (∀ x ∈ stolen tr, ∀ y ∈ q.deque, x.1 < y.1) ∧
    (∀ x, q.pop.2 = some x →
      q.deque = q.pop.1.deque ++ [x] ∧ ∀ y ∈ q.pop.1.deque, y.1 < x.1) ∧
    (q.stealHalf.2.length = q.deque.length / 2 ∧
      q.stealHalf.2 ++ q.stealHalf.1.deque = q.deque ∧
      q.deque.Pairwise (fun x y => x.1 < y.1)) := by
  intro M S tr q
  obtain ⟨hrun, htrace⟩ := run_stamped capacity calls
  obtain ⟨hwf, hsub⟩ : InOrder tr q := inOrder_run capacity (stamped calls)
  have hstamps := (pushed_stamped capacity calls).1
  have hsorted : (stolen tr ++ q.deque).Pairwise (fun x y => x.1 < y.1) := hstamps.sublist hsub
  obtain ⟨-, hdeque, hbefore⟩ := List.pairwise_append.mp hsorted
  have hstolen : (stolen tr).Sublist (pushed tr) :=
    (List.sublist_append_left _ _).trans hsub
  refine ⟨⟨htrace, congrArg WorkStealingDeque.deque hrun⟩, ?_, hstolen, hstamps, hbefore, ?_, ?_⟩
  · rw [htrace, stolen_map, pushed_map]
    exact hstolen.map Prod.snd
  · intro x hx
    rcases List.eq_nil_or_concat q.deque with hnil | ⟨rest, item, hsnoc⟩
    · rw [WorkStealingDeque.pop_nil hnil] at hx
      cases hx
    · rw [List.concat_eq_append] at hsnoc
      obtain ⟨q', hpop, hrest, -, -⟩ := WorkStealingDeque.pop_snoc hwf hsnoc
      rw [hpop] at hx ⊢
      rw [← Option.some_inj.mp hx, hrest]
      rw [hsnoc] at hdeque
      refine ⟨hsnoc, fun y hy => ?_⟩
      exact (List.pairwise_append.mp hdeque).2.2 y hy item (List.mem_singleton_self item)
  · obtain ⟨q', hhalf, hrest, -, -⟩ := WorkStealingDeque.stealHalf_eq hwf
    rw [hhalf]
    refine ⟨?_, ?_, hdeque⟩
    · rw [List.length_take]
      omega
    · rw [hrest]
      exact List.take_append_drop _ _

end Pepita.Sched
