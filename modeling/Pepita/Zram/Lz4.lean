import Pepita.Lib.Outcome
import Pepita.Basic.Definitions

set_option autoImplicit false

/-! # The LZ4 encoder and decoder

`compress_lz4` and `decompress_lz4` of `zram.rs`, with the block format

    [token][literal_len?][literals][offset][match_len?]

where the token holds the literal length in its high four bits and the match length less 4 in its
low four; 15 in either place means that further bytes follow.

The inner loops are recursive functions; the two main loops are `whileLoop`s on the state they
keep between passes. Additions of the decoder wrap as in a release build; positions of the encoder
never exceed the length of its input. Out-of-range indexing panics.
-/

namespace Pepita.Zram

/-! ## The encoder -/

/-- The bytes after a nibble of 15: `remaining` in base 255 steps. The loop is written out in
`lz4_emit_sequence` for both lengths and in `lz4_emit_literals_only`. -/
def extendedLength (remaining : Nat) : List UInt8 :=
  if h : 255 ≤ remaining then 255 :: extendedLength (remaining - 255)
  else [UInt8.ofNat remaining]
termination_by remaining

/-- The nibble that stands for a length. -/
def nibble (len : Nat) : UInt8 := if 15 ≤ len then 15 else UInt8.ofNat len

/-- The length bytes that follow the token. -/
def lengthBytes (len : Nat) : List UInt8 := if 15 ≤ len then extendedLength (len - 15) else []

/-- `lz4_emit_sequence`: the bytes it appends. -/
def lz4EmitSequence (literals : List UInt8) (offset matchLen : Nat) : List UInt8 :=
  (nibble literals.length <<< 4 ||| nibble (matchLen - 4)) :: lengthBytes literals.length ++
    literals ++ [UInt8.ofNat (offset &&& 0xFF), UInt8.ofNat (offset >>> 8 &&& 0xFF)] ++
    lengthBytes (matchLen - 4)

/-- `lz4_emit_literals_only`: the bytes it appends. -/
def lz4EmitLiteralsOnly (literals : List UInt8) : List UInt8 :=
  (nibble literals.length <<< 4) :: lengthBytes literals.length ++ literals

/-- `lz4_hash`. -/
def lz4Hash : List UInt8 → UInt32
  | d0 :: d1 :: d2 :: d3 :: _ =>
      let v := d0.toUInt32 ||| d1.toUInt32 <<< 8 ||| d2.toUInt32 <<< 16 ||| d3.toUInt32 <<< 24
      (v * 2654435761) >>> 20
  | _ => 0

/-- The loop that extends a match at `ip` with the reference `refPos`. -/
def extendMatch (input : List UInt8) (ip refPos matchLen : Nat) : Nat :=
  if h : ip + matchLen < input.length ∧ refPos + matchLen < input.length ∧
      input[ip + matchLen]? = input[refPos + matchLen]? then
    extendMatch input ip refPos (matchLen + 1)
  else matchLen
termination_by input.length - (ip + matchLen)

/-- What `compress_lz4` keeps between passes: the input position, the start of the pending
literals, the hash table and the output. -/
structure Encoder where
  ip : Nat
  anchor : Nat
  hashTable : Fin 4096 → UInt32
  output : List UInt8

/-- The entry of the hash table for the position `ip`. -/
def hashIndex (input : List UInt8) (ip : Nat) : Fin 4096 :=
  Fin.ofNat 4096 (lz4Hash (input.drop ip)).toNat

/-- The test that `refPos` is the start of a match for `ip`. The bounds stand before the
comparison of the two slices, so these exist. -/
def isMatch (input : List UInt8) (ip refPos : Nat) : Bool :=
  refPos > 0 && ip > refPos && ip - refPos < 65535 && ip + 4 ≤ input.length &&
    refPos + 4 ≤ input.length && slice input refPos (refPos + 4) == slice input ip (ip + 4)

/-- One pass of the match loop. -/
def encodePass (input : List UInt8) (s : Encoder) :
    Pass Encoder (Outcome KernelError (List UInt8)) :=
  let hash := hashIndex input s.ip
  let refPos := (s.hashTable hash).toNat
  let hashTable := Function.update s.hashTable hash (UInt32.ofNat s.ip)
  -- the old entry is only a candidate: the table may hold a stale or colliding position
  if isMatch input s.ip refPos then
    let matchLen := extendMatch input s.ip refPos 4
    match slice input s.anchor s.ip with
    | none => .ret .panic
    | some literals =>
        .next {
          ip := s.ip + matchLen
          anchor := s.ip + matchLen
          hashTable := hashTable
          output := s.output ++ lz4EmitSequence literals (s.ip - refPos) matchLen }
  else .next { s with ip := s.ip + 1, hashTable := hashTable }

/-- The state before the match loop. -/
def Encoder.start : Encoder := ⟨0, 0, fun _ => 0, []⟩

/-- The condition of the match loop. It keeps clear of the last five bytes. -/
def Encoder.more (input : List UInt8) (s : Encoder) : Bool := s.ip < input.length - 5

/-- The output vector of `compress_lz4` after the match loop and the final literals, before the
comparison with the length of the input. -/
def lz4Block (input : List UInt8) : Outcome KernelError (List UInt8) :=
  match whileLoop (Encoder.more input) (encodePass input) (input.length + 1) .start with
  | .done s =>
      if s.anchor < input.length then .ok (s.output ++ lz4EmitLiteralsOnly (input.drop s.anchor))
      else .ok s.output
  | .ret r => r
  | .timeout => .diverge

/-- `compress_lz4`. -/
def compressLz4 (input : List UInt8) : Outcome KernelError (List UInt8) :=
  if input.isEmpty then .ok []
  else if input.length < 16 then .ok input
  else do
    let output ← lz4Block input
    if input.length ≤ output.length then .ok input else .ok output

/-! ## The decoder -/

/-- What `decompress_lz4` keeps between passes: the two positions and the output buffer. -/
structure Decoder where
  ip : Nat
  op : Nat
  output : List UInt8
  deriving DecidableEq, Repr

/-- What `decompress_lz4` returns, with the buffer as it leaves it. -/
abbrev Decoded := Outcome KernelError Nat × List UInt8

/-- The loop that adds the bytes after a nibble of 15 to a length. It stops after a byte other
than 255, or at the end of the input. Gives the new position and the length. -/
def readLength (input : List UInt8) (ip len : Nat) : Nat × Nat :=
  if h : ip < input.length then
    if input[ip] = 255 then readLength input (ip + 1) (wadd len input[ip].toNat)
    else (ip + 1, wadd len input[ip].toNat)
  else (ip, len)
termination_by input.length - ip

/-- A length of the token at `ip`, whose nibble gave `len` (with the 4 of a match already added):
read on only if the nibble is 15. -/
def readNibble (input : List UInt8) (ip : Nat) (nib : UInt8) (len : Nat) : Nat × Nat :=
  if nib = 15 then readLength input ip len else (ip, len)

/-- The literal copy. -/
def copyLiterals (input : List UInt8) (s : Decoder) (literalLen : Nat) : Except Decoded Decoder :=
  if literalLen > 0 then
    if wadd s.ip literalLen > input.length ∨ wadd s.op literalLen > s.output.length then
      .error (.err .invalidArgument, s.output)
    else
      match slice input s.ip (wadd s.ip literalLen) with
      | none => .error (.panic, s.output)
      | some literals =>
          match copyInto s.output s.op (wadd s.op literalLen) literals with
          | none => .error (.panic, s.output)
          | some output => .ok ⟨wadd s.ip literalLen, wadd s.op literalLen, output⟩
  else .ok s

/-- The overlapping copy: `n` bytes, one at a time, from `matchPos` to `op`. -/
def copyOverlapping (op matchPos : Nat) : Nat → List UInt8 → Option (List UInt8)
  | 0, output => some output
  | n + 1, output =>
      match output[matchPos]? with
      | none => none
      | some byte =>
          if op < output.length then
            copyOverlapping (op + 1) (matchPos + 1) n (output.set op byte)
          else none

/-- The offset and the match. -/
def copyMatch (input : List UInt8) (token : UInt8) (s : Decoder) : Except Decoded Decoder :=
  match input[s.ip]?, input[s.ip + 1]? with
  | some lo, some hi =>
      let offset := lo.toNat ||| hi.toNat <<< 8
      if offset = 0 ∨ offset > s.op then .error (.err .invalidArgument, s.output)
      else
        let r := readNibble input (s.ip + 2) (token &&& 0x0F) ((token &&& 0x0F).toNat + 4)
        if wadd s.op r.2 > s.output.length then .error (.err .invalidArgument, s.output)
        else
          match copyOverlapping s.op (s.op - offset) r.2 s.output with
          | none => .error (.panic, s.output)
          | some output => .ok ⟨r.1, wadd s.op r.2, output⟩
  -- `ip + 2 > input.len()`
  | _, _ => .error (.err .invalidArgument, s.output)

/-- One pass of the main loop: a sequence. -/
def decodePass (input : List UInt8) (s : Decoder) : Pass Decoder Decoded :=
  match input[s.ip]? with
  | none => .ret (.panic, s.output)
  | some token =>
      let nib := (token >>> 4) &&& 0x0F
      let r := readNibble input (s.ip + 1) nib nib.toNat
      match copyLiterals input { s with ip := r.1 } r.2 with
      | .error ret => .ret ret
      | .ok s =>
          -- a block ends after literals without an offset
          if input.length ≤ s.ip then .stop s
          else
            match copyMatch input token s with
            | .error ret => .ret ret
            | .ok s => .next s

/-- The condition of the main loop. -/
def Decoder.more (input : List UInt8) (s : Decoder) : Bool := s.ip < input.length

/-- `decompress_lz4`. -/
def decompressLz4 (input output : List UInt8) : Decoded :=
  if input.isEmpty then (.ok 0, output)
  else
    match whileLoop (Decoder.more input) (decodePass input) (input.length + 1) ⟨0, 0, output⟩ with
    | .done s => (.ok s.op, s.output)
    | .ret r => r
    | .timeout => (.diverge, output)

end Pepita.Zram
