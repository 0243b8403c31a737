import Pepita.Lib.Outcome

set_option autoImplicit false

/-! # Loops over ranges

A `for` loop goes through a list of indices that is fixed when it starts. Two rules:

* `forEach_range`: an invariant indexed by the position, for one loop.
* `forEach_flatMap`: a nest of loops is one pass over the flattened list of its innermost steps.
  What the pass does to one cell of an array is then what the steps that hit this cell do, in order
  (`getElem?_foldl_modify`); they are looked for where they can be (`filter_flatMap_unique`).

A range cut into tiles of a fixed size, the last of which may be shorter, is the range again
(`flatMap_tile`), and every index is in one tile (`mem_tile_iff_start`).
-/

section ForEach

variable {ε σ ι τ : Type}

/-- `for x in xs { body }`. -/
def forEach (xs : List ι) (body : ι → σ → Outcome ε σ) (s : σ) : Outcome ε σ :=
  match xs with
  | [] => .ok s
  | x :: xs => body x s >>= forEach xs body

theorem forEach_cons (x : ι) (xs : List ι) (body : ι → σ → Outcome ε σ) (s : σ) :
    forEach (x :: xs) body s = body x s >>= forEach xs body := rfl

/-- **A loop over a range**, with an invariant that says how far it has come. -/
theorem forEach_range {body : Nat → σ → Outcome ε σ} {I : Nat → σ → Prop} (n : Nat) :
    ∀ (lo : Nat) (s : σ),
      (∀ i s, lo ≤ i → i < lo + n → I i s → ∃ s', body i s = .ok s' ∧ I (i + 1) s') →
      I lo s → ∃ s', forEach (List.range' lo n) body s = .ok s' ∧ I (lo + n) s' := by
  induction n with
  | zero => intro lo s _ hs; exact ⟨s, rfl, hs⟩
  | succ n ih =>
      intro lo s hbody hs
      obtain ⟨s₁, hb, hs₁⟩ := hbody lo s le_rfl (by omega) hs
      obtain ⟨s', hrest, hs'⟩ := ih (lo + 1) s₁
        (fun i s hlo hhi => hbody i s (by omega) (by omega)) hs₁
      refine ⟨s', ?_, by rwa [Nat.add_right_comm, Nat.add_assoc] at hs'⟩
      rw [List.range'_succ, forEach_cons, hb, Outcome.ok_bind]
      exact hrest

/-- **A nest of loops.** If the body for `x` makes the steps `T x`, the loop makes them all, one
after the other. `I` is an invariant of the steps that the body may use. -/
theorem forEach_flatMap {body : ι → σ → Outcome ε σ} {T : ι → List τ} {step : σ → τ → σ}
    {I : σ → Prop} (hstep : ∀ s t, I s → I (step s t)) (xs : List ι)
    (hbody : ∀ x ∈ xs, ∀ s, I s → body x s = .ok ((T x).foldl step s)) :
    ∀ s, I s → forEach xs body s = .ok ((xs.flatMap T).foldl step s) := by
  have hfold : ∀ (ts : List τ) (s : σ), I s → I (ts.foldl step s) := fun ts s hs =>
    List.foldlRecOn ts step hs fun s hs t _ => hstep s t hs
  induction xs with
  | nil => intro s _; rfl
  | cons x xs ih =>
      intro s hs
      rw [forEach_cons, hbody x List.mem_cons_self s hs, Outcome.ok_bind,
        ih (fun y hy => hbody y (List.mem_cons_of_mem x hy)) _ (hfold _ s hs),
        List.flatMap_cons, List.foldl_append]

/-- A partial fold in which every step is defined. -/
theorem foldlM_eq_some {f : σ → τ → Option σ} {g : σ → τ → σ} (ts : List τ)
    (hstep : ∀ t ∈ ts, ∀ s, f s t = some (g s t)) :
    ∀ s, ts.foldlM f s = some (ts.foldl g s) := by
  induction ts with
  | nil => intro s; rfl
  | cons t ts ih =>
      intro s
      rw [List.foldlM_cons, hstep t List.mem_cons_self, List.foldl_cons]
      exact ih (fun u hu => hstep u (List.mem_cons_of_mem t hu)) _

end ForEach

/-! ## Steps that each change one cell -/

section Cells

variable {α τ : Type*}

/-- `xs[i] = v`; `none` when `i` is not an index of `xs`. -/
def setAt (xs : List α) (i : Nat) (v : α) : Option (List α) :=
  if i < xs.length then some (xs.set i v) else none

theorem setAt_of_lt {xs : List α} {i : Nat} (h : i < xs.length) (v : α) :
    setAt xs i v = some (xs.set i v) := if_pos h

/-- `xs[i] = f(xs[i])`. -/
theorem setAt_eq_modify {xs : List α} {i : Nat} {v : α} (hv : xs[i]? = some v) (f : α → α) :
    setAt xs i (f v) = some (xs.modify i f) := by
  obtain ⟨hi, rfl⟩ := List.getElem?_eq_some_iff.mp hv
  rw [setAt_of_lt hi, List.modify_eq_take_cons_drop hi, List.set_eq_take_append_cons_drop,
    if_pos hi]

/-- A store of one element is a write of a range. -/
theorem setAt_eq_copyInto (xs : List α) (i : Nat) (v : α) :
    setAt xs i v = copyInto xs i (i + 1) [v] := by
  by_cases h : i < xs.length
  · rw [setAt_of_lt h, copyInto_of_le (Nat.le_add_right _ _) h (by simp),
      List.set_eq_take_append_cons_drop, if_pos h, List.append_assoc, List.singleton_append]
  · rw [setAt, if_neg h, copyInto, if_neg (by omega)]

/-- **What a pass does to one cell**: what the steps that hit it do, in order. -/
theorem getElem?_foldl_modify (cell : τ → Nat) (f : τ → α → α) (p : Nat) (ts : List τ) :
    ∀ xs : List α, (ts.foldl (fun xs t => xs.modify (cell t) (f t)) xs)[p]?
      = xs[p]?.map fun v => (ts.filter fun t => cell t = p).foldl (fun v t => f t v) v := by
  induction ts with
  | nil => intro xs; simp
  | cons t ts ih =>
      intro xs
      rw [List.foldl_cons, ih, List.getElem?_modify, List.filter_cons]
      by_cases h : cell t = p
      · simp [h, Option.map_map, Function.comp_def]
      · simp [h]

/-- If the steps that satisfy `P` are all made for one element of a loop, they are found there. -/
theorem filter_flatMap_unique {ι : Type*} {xs : List ι} (hnodup : xs.Nodup) {F : ι → List τ}
    {P : τ → Bool} {y : ι} (hy : y ∈ xs) (hunique : ∀ x ∈ xs, ∀ t ∈ F x, P t = true → x = y) :
    (xs.flatMap F).filter P = (F y).filter P := by
  have hnone : ∀ zs : List ι, (∀ z ∈ zs, z ∈ xs ∧ z ≠ y) → (zs.flatMap F).filter P = [] := by
    intro zs hzs
    rw [List.filter_eq_nil_iff]
    intro t ht hP
    obtain ⟨z, hz, htz⟩ := List.mem_flatMap.mp ht
    exact (hzs z hz).2 (hunique z (hzs z hz).1 t htz hP)
  obtain ⟨front, rest, rfl⟩ := List.append_of_mem hy
  have hnodup' := List.nodup_middle.mp hnodup
  rw [List.nodup_cons, List.mem_append, not_or] at hnodup'
  rw [List.flatMap_append, List.flatMap_cons, List.filter_append, List.filter_append,
    hnone front, hnone rest, List.nil_append, List.append_nil]
  · intro z hz
    exact ⟨by simp [hz], fun h => hnodup'.1.2 (h ▸ hz)⟩
  · intro z hz
    exact ⟨by simp [hz], fun h => hnodup'.1.1 (h ▸ hz)⟩

end Cells

/-! ## Tiles -/

/-- `(0..n).step_by(size)`. -/
def stepBy (n size : Nat) : List Nat := (List.range ((n + size - 1) / size)).map (· * size)

/-- The tile of `0..n` that starts at `start`. -/
def tile (n size start : Nat) : List Nat := List.range' start (min (start + size) n - start)

theorem mem_tile {n size start i : Nat} :
    i ∈ tile n size start ↔ start ≤ i ∧ i < start + size ∧ i < n := by
  rw [tile, List.mem_range'_1]
  omega

theorem mem_stepBy {n size i : Nat} (hsize : 0 < size) : i ∈ stepBy n size ↔ size ∣ i ∧ i < n := by
  unfold stepBy
  rw [List.mem_map]
  constructor
  · rintro ⟨q, hq, rfl⟩
    refine ⟨Nat.dvd_mul_left size q, ?_⟩
    have hle : (q + 1) * size ≤ n + size - 1 :=
      (Nat.le_div_iff_mul_le hsize).mp (List.mem_range.mp hq)
    rw [Nat.succ_mul] at hle
    omega
  · rintro ⟨⟨q, rfl⟩, hlt⟩
    refine ⟨q, List.mem_range.mpr ?_, Nat.mul_comm q size⟩
    refine (Nat.le_div_iff_mul_le hsize).mpr ?_
    rw [Nat.succ_mul, Nat.mul_comm q size]
    omega

theorem nodup_tile (n size start : Nat) : (tile n size start).Nodup := List.nodup_range'

theorem nodup_stepBy {n size : Nat} (hsize : 0 < size) : (stepBy n size).Nodup :=
  List.nodup_range.map fun _ _ h => Nat.eq_of_mul_eq_mul_right hsize h

/-- The start of the tile that an index is in. -/
theorem mem_tile_iff_start {n size start i : Nat} (hsize : 0 < size) (hi : i < n)
    (hstart : size ∣ start) : i ∈ tile n size start ↔ start = i / size * size := by
  obtain ⟨q, rfl⟩ := hstart
  rw [mem_tile, Nat.mul_comm size q, Nat.mul_left_inj hsize.ne', ← Nat.succ_mul]
  constructor
  · rintro ⟨hlo, hhi, -⟩
    exact (Nat.div_eq_of_lt_le hlo hhi).symm
  · rintro rfl
    exact ⟨Nat.div_mul_le_self i size, Nat.lt_mul_of_div_lt (Nat.lt_succ_self _) hsize, hi⟩

/-- Every index has a tile. -/
theorem start_mem_stepBy {n size i : Nat} (hsize : 0 < size) (hi : i < n) :
    i / size * size ∈ stepBy n size :=
  (mem_stepBy hsize).mpr ⟨Nat.dvd_mul_left _ _, (Nat.div_mul_le_self i size).trans_lt hi⟩

theorem mem_tile_start {n size i : Nat} (hsize : 0 < size) (hi : i < n) :
    i ∈ tile n size (i / size * size) :=
  (mem_tile_iff_start hsize hi (Nat.dvd_mul_left _ _)).mpr rfl

theorem start_of_mem_tile {n size start i : Nat} (hsize : 0 < size)
    (hstart : start ∈ stepBy n size) (hi : i ∈ tile n size start) : start = i / size * size :=
  (mem_tile_iff_start hsize (mem_tile.mp hi).2.2 ((mem_stepBy hsize).mp hstart).1).mp hi

/-- The first `q` tiles of a range. -/
theorem flatMap_tile_range (n size q : Nat) :
    (List.range q).flatMap (fun p => tile n size (p * size)) = List.range (min (q * size) n) := by
  induction q with
  | zero => simp
  | succ q ih =>
      rw [List.range_succ, List.flatMap_append, ih, List.flatMap_singleton, tile, Nat.succ_mul]
      by_cases hq : q * size ≤ n
      · rw [Nat.min_eq_left hq, List.range_eq_range', List.range_eq_range']
        have happend := List.range'_append_1 (s := 0) (m := q * size)
          (n := min (q * size + size) n - q * size)
        rw [Nat.zero_add] at happend
        rw [happend]
        congr 1
        omega
      · rw [Nat.min_eq_right (by omega), Nat.min_eq_right (by omega),
          Nat.sub_eq_zero_of_le (by omega), List.range'_zero, List.append_nil]

/-- **The tiles of a range, one after the other, are the range.** -/
theorem flatMap_tile {n size : Nat} (hsize : 0 < size) :
    (stepBy n size).flatMap (tile n size) = List.range n := by
  rw [stepBy, List.flatMap_map, flatMap_tile_range]
  congr 1
  have hdiv := Nat.lt_div_mul_add (a := n + size - 1) hsize
  omega
