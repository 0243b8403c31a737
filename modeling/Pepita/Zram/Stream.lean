import Pepita.Zram.Decoder

set_option autoImplicit false

/-! # Compression streams

`CompressionStream` of `zram.rs`. With LZ4, `compress` has three ways out: the input itself when
it is short, the block, and the input itself when the block is not shorter; `decompress` takes
whatever it is given for a block. So a stream reads back what it wrote when it wrote a block, and
raw input only if that happens to be a block of itself (`roundTrips_iff`), which short input never
is (`longHeader_of_selfBlock`).
-/

namespace Pepita.Zram

open Lz77

/-! ## The model -/

/-- `ZramCompressor`. -/
inductive ZramCompressor where
  | lz4
  | none
  deriving DecidableEq, Repr

/-- `CompressionStream`. -/
structure CompressionStream where
  compressor : ZramCompressor
  deriving DecidableEq, Repr

namespace CompressionStream

/-- `compress`. -/
def compress (st : CompressionStream) (input : List UInt8) : Outcome KernelError (List UInt8) :=
  match st.compressor with
  | .lz4 => compressLz4 input
  | .none => .ok input

/-- `decompress`. -/
def decompress (st : CompressionStream) (input output : List UInt8) : Decoded :=
  match st.compressor with
  | .lz4 => decompressLz4 input output
  | .none =>
      let len := min input.length output.length
      match (slice input 0 len).bind (copyInto output 0 len) with
      | some output' => (.ok len, output')
      | none => (.panic, output)

end CompressionStream

/-! ## Which inputs are stored as a block -/

/-- The block of `x` is what `compress_lz4` returns: `x` is long enough to be tried and the block
is shorter. -/
def StoredAsBlock (x : List UInt8) : Prop :=
  16 ≤ x.length ∧ ∃ y, lz4Block x = .ok y ∧ y.length < x.length

theorem compressLz4_of_lz4Block {x y : List UInt8} (hlen : 16 ≤ x.length)
    (hy : lz4Block x = .ok y) (hlt : y.length < x.length) : compressLz4 x = .ok y := by
  have hne : x.isEmpty = false := by
    cases x with
    | nil => simp at hlen
    | cons a x => rfl
  unfold compressLz4
  rw [hne, if_neg (by simp), if_neg (by omega), hy, Outcome.ok_bind, if_neg (by omega)]

theorem compressLz4_of_storedAsBlock {x : List UInt8} (h : StoredAsBlock x) :
    ∃ b : Block UInt8, compressLz4 x = .ok (emitBlock b) ∧ WellFormed b ∧ b.expand = x ∧
      (emitBlock b).length < x.length := by
  obtain ⟨hlen, y, hy, hlt⟩ := h
  obtain ⟨b, hb, hwf, hexp⟩ := lz4Block_eq x
  have heq : y = emitBlock b := Outcome.ok.inj (hy.symm.trans hb)
  subst heq
  exact ⟨b, compressLz4_of_lz4Block hlen hy hlt, hwf, hexp, hlt⟩

/-- Every other input comes back as it is. -/
theorem compressLz4_of_not_storedAsBlock {x : List UInt8} (h : ¬ StoredAsBlock x) :
    compressLz4 x = .ok x := by
  obtain ⟨b, hb, -, -⟩ := lz4Block_eq x
  unfold compressLz4
  split_ifs with hempty hshort
  · rw [List.isEmpty_iff.mp hempty]
  · rfl
  · have hle : x.length ≤ (emitBlock b).length := by
      by_contra hgt
      exact h ⟨by omega, _, hb, by omega⟩
    rw [hb, Outcome.ok_bind, if_pos hle]

/-- `compress` always succeeds. -/
theorem CompressionStream.exists_compress (st : CompressionStream) (x : List UInt8) :
    ∃ y, st.compress x = .ok y := by
  obtain ⟨compressor⟩ := st
  cases compressor with
  | none => exact ⟨x, rfl⟩
  | lz4 =>
      by_cases h : StoredAsBlock x
      · obtain ⟨b, hb, -⟩ := compressLz4_of_storedAsBlock h
        exact ⟨emitBlock b, hb⟩
      · exact ⟨x, compressLz4_of_not_storedAsBlock h⟩

theorem storedAsBlock_of_compressLz4 {x y : List UInt8} (h : compressLz4 x = .ok y)
    (hlt : y.length < x.length) : StoredAsBlock x := by
  by_contra hraw
  have heq : y = x := Outcome.ok.inj (h.symm.trans (compressLz4_of_not_storedAsBlock hraw))
  rw [heq] at hlt
  exact Nat.lt_irrefl _ hlt

/-- What `compress_lz4` made shorter, `decompress_lz4` reads back. -/
theorem decompressLz4_of_compressLz4 {x y b : List UInt8} (h : compressLz4 x = .ok y)
    (hlt : y.length < x.length) (hb : b.length < 2 ^ 64) (hroom : x.length ≤ b.length) :
    decompressLz4 y b = (.ok x.length, x ++ b.drop x.length) := by
  obtain ⟨block, hy, hwf, hexp, -⟩ :=
    compressLz4_of_storedAsBlock (storedAsBlock_of_compressLz4 h hlt)
  have heq : y = emitBlock block := Outcome.ok.inj (h.symm.trans hy)
  have hreads := reads_emitBlock hwf (by rw [hexp]; omega)
  rw [← heq, hexp] at hreads
  exact (decompressLz4_eq_ok_iff (by omega) hb).mpr ⟨x, hreads, hroom, rfl, rfl⟩

/-! ## Bytes that are a block of themselves -/

/-- `x`, read as a block, stands for `x`. -/
def SelfBlock (x : List UInt8) : Prop := Reads x [] x

/-- `x` starts, if it is read as a block, with a literal length of more than two bytes, and has
room for that many literals. Such a run of literals can overlap its own header. -/
def LongHeader (x : List UInt8) : Prop :=
  270 < x.length ∧ ∃ t, x[0]? = some t ∧ 0xF0 ≤ t.toNat ∧ x[1]? = some 255

/-- The header of a block that starts with literals and goes on after them. -/
theorem header_cases {t : UInt8} {field lits rest : List UInt8}
    (hsmall : (t :: (field ++ (lits ++ rest))).length < 2 ^ 55) (hrest : rest ≠ [])
    (hfield : LengthField (t.toNat / 16) field (lits ++ rest))
    (hlits : lits.length = lengthOf (t.toNat / 16) field)
    (hlong : ¬ LongHeader (t :: (field ++ (lits ++ rest)))) :
    (field = [] ∧ lits.length = t.toNat / 16) ∨
    (∃ e, field = [e] ∧ 240 ≤ t.toNat ∧ lits.length = 15 + e.toNat) := by
  have ht := t.toNat_lt
  simp only [List.length_cons, List.length_append] at hsmall
  rw [lengthOf_of_short (by omega) (by omega)] at hlits
  unfold LengthField at hfield
  split_ifs at hfield with h15
  · generalize hr : lits ++ rest = r at hfield
    cases hfield with
    | cut => exact absurd (List.append_eq_nil_iff.mp hr).2 hrest
    | @last e _ _ =>
        rw [h15, List.map_cons, List.map_nil, List.sum_singleton] at hlits
        exact Or.inr ⟨e, rfl, by omega, hlits⟩
    | @more field _ _ =>
        -- more than one length byte: at least 270 literals, which only a long header has room for
        have h255 : (255 : UInt8).toNat = 255 := rfl
        rw [h15, List.map_cons, List.sum_cons, h255] at hlits
        refine absurd ⟨?_, t, rfl, by omega, rfl⟩ hlong
        simp only [List.length_cons, List.length_append]
        omega
  · rw [hfield, List.map_nil, List.sum_nil, Nat.add_zero] at hlits
    exact Or.inl ⟨hfield, hlits⟩

/-- A first sequence that reproduces the bytes it is made of would need an offset that is larger
than its literals: the two bytes of the offset are bytes of the header. -/
theorem offset_gt_of_self {t lo hi : UInt8} {field lits rest : List UInt8} {m : Nat}
    (hhead : (field = [] ∧ lits.length = t.toNat / 16) ∨
      (∃ e, field = [e] ∧ 240 ≤ t.toNat ∧ lits.length = 15 + e.toNat))
    (hm : 4 ≤ m) (hd : 0 < lo.toNat + 256 * hi.toNat)
    (hself : copyBack (lo.toNat + 256 * hi.toNat) m lits
      <+: t :: (field ++ (lits ++ lo :: hi :: rest))) :
    lits.length < lo.toNat + 256 * hi.toNat := by
  by_contra hle
  have hlen := length_copyBack hd m lits (Nat.not_lt.mp hle)
  have hfield : field.length ≤ 1 := by
    rcases hhead with ⟨rfl, -⟩ | ⟨e, rfl, -⟩
    · exact Nat.zero_le _
    · exact Nat.le_refl 1
  set x := t :: (field ++ (lits ++ lo :: hi :: rest)) with hx
  have htake : x.take (field.length + 1) = t :: field := by
    rw [hx, List.take_succ_cons, List.take_left]
  have hdrop : x.drop (field.length + 1) = lits ++ lo :: hi :: rest := by
    rw [hx, List.drop_succ_cons, List.drop_left]
  -- the literals are the beginning of `x`, so they are made of its header bytes
  have hshift : x.take lits.length = (x.drop (field.length + 1)).take lits.length := by
    have hpre := (prefix_copyBack _ _ _).trans hself
    rw [hdrop, List.take_left, ← List.prefix_iff_eq_take.mp hpre]
  have hlits : ∀ a ∈ lits, a ∈ t :: field := by
    intro a ha
    obtain ⟨j, hj⟩ := List.mem_iff_getElem?.mp ha
    have hlt := (List.getElem?_eq_some_iff.mp hj).1
    rw [← htake]
    refine mem_take_of_shift (Nat.succ_pos _) hshift (field.length + 1 + j) (by omega) ?_
    rw [← List.getElem?_drop, hdrop, List.getElem?_append_left hlt, hj]
  have hheader : ∀ i a, i < 2 → (lo :: hi :: rest)[i]? = some a → a ∈ t :: field := by
    intro i a hi' ha
    refine hlits a (mem_of_mem_copyBack (lo.toNat + 256 * hi.toNat) m ?_)
    have hpos : field.length + 1 + (lits.length + i)
        < (copyBack (lo.toNat + 256 * hi.toNat) m lits).length := by omega
    refine List.mem_of_getElem? (i := field.length + 1 + (lits.length + i)) ?_
    rw [List.getElem?_eq_getElem hpos, ← List.prefix_iff_getElem?.mp hself _ hpos,
      ← List.getElem?_drop, hdrop, List.getElem?_append_right (by omega), Nat.add_sub_cancel_left,
      ha]
  have hlo := hheader 0 lo (by omega) rfl
  have hhi := hheader 1 hi (by omega) rfl
  rcases hhead with ⟨rfl, hn⟩ | ⟨e, rfl, ht, hn⟩
  · -- the header is the token, so both offset bytes are, and the offset is 257 times it
    rw [List.mem_singleton] at hlo hhi
    rw [hlo, hhi] at hd hle
    omega
  · -- both offset bytes are `t` or `e` and one of them is not 0: each choice exceeds `15 + e`
    have he := e.toNat_lt
    rw [List.mem_pair] at hlo hhi
    rcases hlo with rfl | rfl
    · rcases hhi with rfl | rfl
      · omega
      · omega
    · rcases hhi with rfl | rfl
      · omega
      · omega

theorem longHeader_of_reads {x text : List UInt8} (h : Reads x [] text) (hself : text = x)
    (hne : x ≠ []) (hsmall : x.length < 2 ^ 55) : LongHeader x := by
  by_contra hlong
  cases h with
  | nil => exact hne rfl
  | last hfield hlits =>
      -- literals only: they are at least one token shorter than the input
      have hlen := congrArg List.length hself
      simp only [List.nil_append, List.length_cons, List.length_append] at hlen
      omega
  | @seq token lo hi field lits field' rest _ _ hfield hlits hfield' hfits hrest =>
      have hpre := hrest.grows
      rw [hself] at hpre
      have hm : 4 ≤ lengthOf (token.toNat % 16 + 4) field' := by
        simp only [List.length_cons, List.length_append] at hsmall
        rw [lengthOf_of_short (by omega) (by omega)]
        omega
      have hhead := header_cases hsmall (by simp) hfield hlits hlong
      have hgt := offset_gt_of_self hhead hm hfits.1 hpre
      have hle : lo.toNat + 256 * hi.toNat ≤ 0 + lits.length := hfits.2
      omega

/-- **Bytes that are a block of themselves** start with a long header, or there are very many. -/
theorem longHeader_of_selfBlock {x : List UInt8} (h : SelfBlock x) (hne : x ≠ []) :
    LongHeader x ∨ 2 ^ 55 ≤ x.length := by
  by_cases hsmall : x.length < 2 ^ 55
  · exact Or.inl (longHeader_of_reads h rfl hne hsmall)
  · exact Or.inr (Nat.not_lt.mp hsmall)

/-! ## The round trip -/

/-- The round trip of a stream on `x`: into every buffer that is long enough, `x` is read back
from what it was written as. -/
def CompressionStream.RoundTrips (st : CompressionStream) (x : ByteSlice) : Prop :=
  ∀ buf : ByteSlice, x.1.length ≤ buf.1.length → ∃ y out, st.compress x.1 = .ok y ∧
    st.decompress y buf.1 = (.ok x.1.length, out) ∧ out.take x.1.length = x.1

theorem roundTrips_none (x : ByteSlice) : CompressionStream.RoundTrips ⟨.none⟩ x := by
  intro buf hlen
  refine ⟨x.1, x.1 ++ buf.1.drop x.1.length, rfl, ?_, List.take_left⟩
  simp only [CompressionStream.decompress, Nat.min_eq_left hlen]
  rw [slice_of_le (Nat.zero_le _) (Nat.le_refl _), List.drop_zero, Nat.sub_zero, List.take_length,
    Option.bind_some, copyInto_zero hlen]

theorem roundTrips_of_storedAsBlock {x : ByteSlice} (h : StoredAsBlock x.1) :
    CompressionStream.RoundTrips ⟨.lz4⟩ x := by
  intro buf hlen
  obtain ⟨b, hy, -, -, hlt⟩ := compressLz4_of_storedAsBlock h
  have hbuf := buf.2
  exact ⟨emitBlock b, x.1 ++ buf.1.drop x.1.length, hy,
    decompressLz4_of_compressLz4 hy hlt (by omega) hlen, List.take_left⟩

/-- Raw input is read back exactly when it is a block of itself. -/
theorem roundTrips_of_raw {x : ByteSlice} (h : ¬ StoredAsBlock x.1) :
    CompressionStream.RoundTrips ⟨.lz4⟩ x ↔ SelfBlock x.1 := by
  have hx := x.2
  have hraw : CompressionStream.compress ⟨.lz4⟩ x.1 = .ok x.1 := compressLz4_of_not_storedAsBlock h
  constructor
  · intro hrt
    obtain ⟨y, out, hy, hdec, hself⟩ := hrt x (Nat.le_refl _)
    have heq : y = x.1 := Outcome.ok.inj (hy.symm.trans hraw)
    rw [heq] at hdec
    obtain ⟨text, hreads, -, hlen, hout⟩ :=
      (decompressLz4_eq_ok_iff (by omega) (by omega)).mp hdec
    have htext : text = x.1 := by rw [← hself, hout, hlen, List.take_left]
    unfold SelfBlock
    rw [htext] at hreads
    exact hreads
  · intro hself buf hlen
    have hbuf := buf.2
    exact ⟨x.1, x.1 ++ buf.1.drop x.1.length, hraw,
      (decompressLz4_eq_ok_iff (by omega) (by omega)).mpr ⟨x.1, hself, hlen, rfl, rfl⟩,
      List.take_left⟩

/-- **When a stream reads back what it wrote.** Exactly if it does not compress, or the input is
stored as a block, or the input is a block of itself. Of these last there are the empty one and,
below `2 ^ 55` bytes, only some that start with a long header. -/
theorem roundTrips_iff (st : CompressionStream) (x : ByteSlice) :
    (st.RoundTrips x ↔ st.compressor = .none ∨ StoredAsBlock x.1 ∨ SelfBlock x.1) ∧
    (SelfBlock x.1 → x.1 = [] ∨ LongHeader x.1 ∨ 2 ^ 55 ≤ x.1.length) := by
  refine ⟨?_, fun hself => ?_⟩
  · obtain ⟨compressor⟩ := st
    cases compressor with
    | none => exact ⟨fun _ => Or.inl rfl, fun _ => roundTrips_none x⟩
    | lz4 =>
        by_cases hstored : StoredAsBlock x.1
        · exact ⟨fun _ => Or.inr (Or.inl hstored), fun _ => roundTrips_of_storedAsBlock hstored⟩
        · rw [roundTrips_of_raw hstored]
          simp [hstored]
  · by_cases hne : x.1 = []
    · exact Or.inl hne
    · exact Or.inr (longHeader_of_selfBlock hself hne)

/-- The four bytes of `tiny` come back raw, are read as a token for seven literals, and fail. -/
theorem tiny_not_roundTrips :
    CompressionStream.compress ⟨.lz4⟩ [116, 105, 110, 121] = .ok [116, 105, 110, 121] ∧
    CompressionStream.decompress ⟨.lz4⟩ [116, 105, 110, 121] [0, 0, 0, 0]
      = (.err .invalidArgument, [0, 0, 0, 0]) ∧
    ¬ CompressionStream.RoundTrips ⟨.lz4⟩ (.ofList [116, 105, 110, 121] (by decide)) := by
  have hraw : CompressionStream.compress ⟨.lz4⟩ [116, 105, 110, 121] = .ok [116, 105, 110, 121] :=
    rfl
  have herr : CompressionStream.decompress ⟨.lz4⟩ [116, 105, 110, 121] [0, 0, 0, 0]
      = (.err .invalidArgument, [0, 0, 0, 0]) := by decide +kernel
  refine ⟨hraw, herr, fun h => ?_⟩
  obtain ⟨y, out, hy, hdec, -⟩ := h (.ofList [0, 0, 0, 0] (by decide)) (Nat.le_refl 4)
  have heq : y = [116, 105, 110, 121] := Outcome.ok.inj (hy.symm.trans hraw)
  rw [heq] at hdec
  cases herr.symm.trans hdec

end Pepita.Zram
