import Mathlib.Tactic

set_option autoImplicit false

/-! # Compression by back references

A block is a list of sequences, each some literals and then a match that copies from what has
been produced so far, and some last literals. `Block.expand` is the text it stands for. A match
may be longer than its distance; then it reads elements it has just written.

An encoder that has compared a match with its source extends the text by a stretch of the input
(`Seq.expand_take`); how the block is written as bytes is the business of a concrete format.
-/

namespace Lz77

variable {α : Type*}

/-- Some literals, then `matchLen` elements copied from `offset` back. -/
structure Seq (α : Type*) where
  literals : List α
  offset : Nat
  matchLen : Nat

/-- Append `n` elements, one at a time, each a copy of the element `d` back. -/
def copyBack (d : Nat) : Nat → List α → List α
  | 0, out => out
  | n + 1, out => copyBack d n (out ++ out[out.length - d]?.toList)

/-- The text after a sequence. -/
def Seq.expand (out : List α) (q : Seq α) : List α :=
  copyBack q.offset q.matchLen (out ++ q.literals)

/-- The match of the sequence points into the text it is added to. -/
def Seq.Fits (out : List α) (q : Seq α) : Prop :=
  0 < q.offset ∧ q.offset ≤ out.length + q.literals.length

/-- Every sequence fits the text before it. -/
def Chain : List α → List (Seq α) → Prop
  | _, [] => True
  | out, q :: qs => q.Fits out ∧ Chain (q.expand out) qs

/-- Sequences and last literals. -/
structure Block (α : Type*) where
  seqs : List (Seq α)
  last : List α

/-- The text a block stands for. -/
def Block.expand (b : Block α) : List α := b.seqs.foldl Seq.expand [] ++ b.last

/-! ## Copying -/

theorem getElem?_back {out : List α} {d : Nat} (hd : 0 < d) (hle : d ≤ out.length) :
    ∃ a, out[out.length - d]? = some a :=
  ⟨out[out.length - d], List.getElem?_eq_getElem (by omega)⟩

theorem length_copyBack {d : Nat} (hd : 0 < d) (n : Nat) : ∀ out : List α, d ≤ out.length →
    (copyBack d n out).length = out.length + n := by
  induction n with
  | zero => intro out _; rfl
  | succ n ih =>
      intro out hle
      obtain ⟨a, ha⟩ := getElem?_back hd hle
      rw [copyBack, ha, ih _ (by simp; omega)]
      simp
      omega

/-- A copy only adds to the text. -/
theorem prefix_copyBack (d n : Nat) : ∀ out : List α, out <+: copyBack d n out := by
  induction n with
  | zero => intro out; exact List.prefix_rfl
  | succ n ih => intro out; exact (List.prefix_append _ _).trans (ih _)

/-- Every element of a copy was in the text before. -/
theorem mem_of_mem_copyBack (d n : Nat) : ∀ {out : List α} {a : α}, a ∈ copyBack d n out →
    a ∈ out := by
  induction n with
  | zero => intro out a h; exact h
  | succ n ih =>
      intro out a h
      rcases List.mem_append.mp (ih h) with hmem | hmem
      · exact hmem
      · exact List.mem_of_getElem? (Option.mem_toList.mp hmem)

/-- Text that agrees with itself at distance `d` is reproduced by a match. -/
theorem copyBack_take {x : List α} {d : Nat} (hd : 0 < d) (n : Nat) : ∀ pos, d ≤ pos →
    pos + n ≤ x.length → (∀ i < n, x[pos - d + i]? = x[pos + i]?) →
    copyBack d n (x.take pos) = x.take (pos + n) := by
  induction n with
  | zero => intro pos _ _ _; rfl
  | succ n ih =>
      intro pos hle hlen hagree
      have hpos : (x.take pos).length = pos := by rw [List.length_take]; omega
      have hback : (x.take pos)[pos - d]? = x[pos]? := by
        rw [List.getElem?_take_of_lt (by omega)]
        exact hagree 0 (by omega)
      have hnext : x.take pos ++ x[pos]?.toList = x.take (pos + 1) := List.take_add_one.symm
      rw [copyBack, hpos, hback, hnext, ih (pos + 1) (by omega) (by omega)]
      · rw [show pos + 1 + n = pos + (n + 1) by omega]
      · intro i hi
        have h := hagree (i + 1) (by omega)
        rw [show pos + 1 - d + i = pos - d + (i + 1) by omega, h]
        congr 1
        omega

theorem Seq.Fits.length_expand {out : List α} {q : Seq α} (h : q.Fits out) :
    (q.expand out).length = out.length + q.literals.length + q.matchLen := by
  unfold Seq.expand
  rw [length_copyBack h.1 _ _ (by rw [List.length_append]; exact h.2), List.length_append]

/-- **An encoder step.** A sequence whose literals are the input from `anchor` to `pos` and whose
match has been compared extends the text from the first `anchor` elements of the input to the
first `pos + matchLen`. -/
theorem Seq.expand_take {x : List α} {anchor pos : Nat} {q : Seq α} (hap : anchor ≤ pos)
    (hlit : q.literals = (x.drop anchor).take (pos - anchor)) (hd : 0 < q.offset)
    (hle : q.offset ≤ pos) (hlen : pos + q.matchLen ≤ x.length)
    (hagree : ∀ i < q.matchLen, x[pos - q.offset + i]? = x[pos + i]?) :
    q.expand (x.take anchor) = x.take (pos + q.matchLen) := by
  have hcat : x.take anchor ++ q.literals = x.take pos := by
    rw [hlit, ← List.take_add, show anchor + (pos - anchor) = pos by omega]
  calc q.expand (x.take anchor)
      = copyBack q.offset q.matchLen (x.take pos) := by rw [Seq.expand, hcat]
    _ = x.take (pos + q.matchLen) := copyBack_take hd _ pos hle hlen hagree

/-- Text that begins with itself shifted by `p` consists of its first `p` elements. -/
theorem mem_take_of_shift {x : List α} {p n : Nat} (hp : 0 < p)
    (h : x.take n = (x.drop p).take n) (i : Nat) (hi : i < p + n) {a : α} (ha : x[i]? = some a) :
    a ∈ x.take p := by
  induction i using Nat.strong_induction_on with
  | _ i ih =>
      rcases Nat.lt_or_ge i p with hlt | hge
      · have htake : (x.take p)[i]? = some a := by rw [List.getElem?_take_of_lt hlt, ha]
        exact List.mem_of_getElem? htake
      · -- element `i` equals the one `p` before it
        have hget := congrArg (fun l : List α => l[i - p]?) h
        simp only [List.getElem?_take_of_lt (show i - p < n by omega), List.getElem?_drop,
          Nat.add_sub_cancel' hge] at hget
        exact ih (i - p) (by omega) (by omega) (by rw [hget, ha])

/-! ## Chains -/

theorem chain_snoc (q : Seq α) (qs : List (Seq α)) : ∀ out : List α,
    Chain out (qs ++ [q]) ↔ Chain out qs ∧ q.Fits (qs.foldl Seq.expand out) := by
  induction qs with
  | nil => intro out; simp [Chain]
  | cons p qs ih =>
      intro out
      rw [List.cons_append, Chain, Chain, ih, List.foldl_cons, and_assoc]

theorem Chain.length_le {qs : List (Seq α)} : ∀ {out : List α}, Chain out qs →
    out.length ≤ (qs.foldl Seq.expand out).length := by
  induction qs with
  | nil => intro out _; exact Nat.le_refl _
  | cons q qs ih =>
      intro out h
      have hexp := h.1.length_expand
      have hrest := ih h.2
      rw [List.foldl_cons]
      omega

end Lz77
