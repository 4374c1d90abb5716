import Aug.Lib.Call
import Mathlib.Data.UInt

/-!
# Base64

The encoder and the decoder of `base64.c`. Both put characters into a buffer that is flushed to a
callback, which records what it is given and succeeds. Between the calls they save the characters of
a group that is not complete, the decoder as values of six bits.
-/

namespace Aug.Net

open Aug.Lib

/-- The fields of `struct aug_base64_`, and the strings that the callback has been given. The buffer is
the part of `buf_` below `pos_`. -/
structure Base64 where
  output : List (List UInt8)
  buf : List UInt8
  save : Fin 3 → UInt8
  saved : ℕ

/-- The errors of the decoder. -/
inductive Base64Error where
  | invalid (ch : UInt8)
  | misaligned

/-- A call on an encoder or a decoder. -/
abbrev Base64Call := Call Base64 Base64Error

/-- An entry of the table of the decoder. -/
inductive Decoded where
  | value (out : UInt8)
  | inv
  | end_
  deriving DecidableEq

namespace Base64

/-- `AUG_MAXLINE`, the size of the buffer. -/
def maxline : ℕ := 1024

/-- `encoder_`. -/
def encoder : List Char :=
  ['A', 'B', 'C', 'D', 'E', 'F', 'G', 'H',
   'I', 'J', 'K', 'L', 'M', 'N', 'O', 'P',
   'Q', 'R', 'S', 'T', 'U', 'V', 'W', 'X',
   'Y', 'Z', 'a', 'b', 'c', 'd', 'e', 'f',
   'g', 'h', 'i', 'j', 'k', 'l', 'm', 'n',
   'o', 'p', 'q', 'r', 's', 't', 'u', 'v',
   'w', 'x', 'y', 'z', '0', '1', '2', '3',
   '4', '5', '6', '7', '8', '9', '+', '/']

/-- `ENCODE_`. -/
def encode (x : UInt8) : UInt8 := (encoder.getD x.toNat 'A').toNat.toUInt8

/-- `ENCODE0_`. -/
def encode0 (x : UInt8) : UInt8 := encode ((x &&& 0xFC) >>> 2)

/-- `ENCODE1_`. -/
def encode1 (x y : UInt8) : UInt8 := encode (((x &&& 0x03) <<< 4) ||| ((y &&& 0xF0) >>> 4))

/-- `ENCODE2_`. -/
def encode2 (x y : UInt8) : UInt8 := encode (((x &&& 0x0F) <<< 2) ||| ((y &&& 0xC0) >>> 6))

/-- `ENCODE3_`. -/
def encode3 (x : UInt8) : UInt8 := encode (x &&& 0x3F)

/-- The first half of `decoder_`, with `INV_` as -1 and `END_` as -2. -/
def decoder : List ℤ :=
  [-2, -1, -1, -1, -1, -1, -1, -1,
   -1, -1, -1, -1, -1, -1, -1, -1,
   -1, -1, -1, -1, -1, -1, -1, -1,
   -1, -1, -1, -1, -1, -1, -1, -1,
   -1, -1, -1, -1, -1, -1, -1, -1,
   -1, -1, -1, 62, -1, -1, -1, 63,
   52, 53, 54, 55, 56, 57, 58, 59,
   60, 61, -1, -1, -1, -2, -1, -1,
   -1,  0,  1,  2,  3,  4,  5,  6,
    7,  8,  9, 10, 11, 12, 13, 14,
   15, 16, 17, 18, 19, 20, 21, 22,
   23, 24, 25, -1, -1, -1, -1, -1,
   -1, 26, 27, 28, 29, 30, 31, 32,
   33, 34, 35, 36, 37, 38, 39, 40,
   41, 42, 43, 44, 45, 46, 47, 48,
   49, 50, 51, -1, -1, -1, -1, -1]

/-- What an entry of the table stands for. -/
def decoded (entry : ℤ) : Decoded :=
  if entry = -2 then .end_ else if entry = -1 then .inv else .value entry.toNat.toUInt8

/-- `DECODE_`. The index is a signed character, so the table is left above 127. -/
def decode (ch : UInt8) : Option Decoded := decoder[ch.toNat]?.map decoded

/-- `DECODE0_`. -/
def decode0 (x y : UInt8) : UInt8 := (x <<< 2) ||| ((y &&& 0x30) >>> 4)

/-- `DECODE1_`. -/
def decode1 (x y : UInt8) : UInt8 := ((x &&& 0x0F) <<< 4) ||| ((y &&& 0x3C) >>> 2)

/-- `DECODE2_`. -/
def decode2 (x y : UInt8) : UInt8 := ((x &&& 0x03) <<< 6) ||| (y &&& 0x3F)

/-- `aug_createbase64`. -/
def create : Base64 := ⟨[], [], fun _ => 0, 0⟩

/-- `flush_`. -/
def flush : Base64Call Unit :=
  Call.modify fun base64 => { base64 with output := base64.output ++ [base64.buf], buf := [] }

/-- Put characters into the buffer, which is flushed first if they have no space. -/
def put (full : ℕ → Bool) (chars : List UInt8) : Base64Call Unit := do
  let base64 ← Call.read
  if full base64.buf.length then flush
  Call.modify fun base64 => { base64 with buf := base64.buf ++ chars }

/-- `putch_`. -/
def putch (ch : UInt8) : Base64Call Unit := put (fun pos => decide (maxline - 1 ≤ pos + 1)) [ch]

/-- `putchunk_`. -/
def putchunk (c0 c1 c2 c3 : UInt8) : Base64Call Unit := put (fun pos => decide (maxline ≤ pos + 4)) [c0, c1, c2, c3]

/-- Assign `saved_`. -/
def setsaved (saved : ℕ) : Base64Call Unit := Call.modify fun base64 => { base64 with saved }

/-- Assign an entry of `save_`. -/
def setsave (i : Fin 3) (value : UInt8) : Base64Call Unit :=
  Call.modify fun base64 => { base64 with save := Function.update base64.save i value }

/-- The last case of `decodealign_`: three values are saved. No result stands for `AUG_EXNONE`. -/
def decodealign3 (align : ℕ) (c0 c1 c2 : UInt8) : List UInt8 → Base64Call (Option ℕ)
  | [] => pure none
  | ch :: _ => do
    match ← Call.access (decode ch) with
    | .end_ =>
      putch (decode0 c0 c1)
      putch (decode1 c1 c2)
      setsaved 0
      pure none
    | .inv => Call.fail (.invalid ch)
    | .value c3 =>
      putch (decode0 c0 c1)
      putch (decode1 c1 c2)
      putch (decode2 c2 c3)
      setsaved 0
      pure (some align)

/-- The case of `decodealign_` with two values. -/
def decodealign2 (align : ℕ) (c0 c1 : UInt8) : List UInt8 → Base64Call (Option ℕ)
  | [] => pure none
  | ch :: src => do
    match ← Call.access (decode ch) with
    | .end_ =>
      putch (decode0 c0 c1)
      setsaved 0
      pure none
    | .inv => Call.fail (.invalid ch)
    | .value c2 =>
      setsave 2 c2
      setsaved 3
      decodealign3 align c0 c1 c2 src

/-- The case of `decodealign_` with one value. -/
def decodealign1 (align : ℕ) (c0 : UInt8) : List UInt8 → Base64Call (Option ℕ)
  | [] => pure none
  | ch :: src => do
    match ← Call.access (decode ch) with
    | .end_ => Call.fail .misaligned
    | .inv => Call.fail (.invalid ch)
    | .value c1 =>
      setsave 1 c1
      setsaved 2
      decodealign2 align c0 c1 src

/-- `decodealign_`: complete the group that was saved, and return the number of characters used. -/
def decodealign (src : List UInt8) : Base64Call (Option ℕ) := do
  let base64 ← Call.read
  let align := 4 - base64.saved
  match base64.saved with
  | 1 => decodealign1 align (base64.save 0) src
  | 2 => decodealign2 align (base64.save 0) (base64.save 1) src
  | 3 => decodealign3 align (base64.save 0) (base64.save 1) (base64.save 2) src
  | _ => pure (some 0)

mutual

/-- The loop of `decodeappend_`, at the first character of a group. -/
def decodegroups : List UInt8 → Base64Call Unit
  | [] => pure ()
  | ch :: src => do
    match ← Call.access (decode ch) with
    | .end_ => Call.fail .misaligned
    | .inv => Call.fail (.invalid ch)
    | .value c0 => decodegroups1 c0 src

/-- The loop of `decodeappend_`, at the second character. -/
def decodegroups1 (c0 : UInt8) : List UInt8 → Base64Call Unit
  | [] => do
    setsaved 1
    setsave 0 c0
  | ch :: src => do
    match ← Call.access (decode ch) with
    | .end_ => Call.fail .misaligned
    | .inv => Call.fail (.invalid ch)
    | .value c1 => decodegroups2 c0 c1 src

/-- The loop of `decodeappend_`, at the third character. -/
def decodegroups2 (c0 c1 : UInt8) : List UInt8 → Base64Call Unit
  | [] => do
    setsaved 2
    setsave 1 c1
    setsave 0 c0
  | ch :: src => do
    match ← Call.access (decode ch) with
    | .end_ => putch (decode0 c0 c1)
    | .inv => Call.fail (.invalid ch)
    | .value c2 => decodegroups3 c0 c1 c2 src

/-- The loop of `decodeappend_`, at the last character. -/
def decodegroups3 (c0 c1 c2 : UInt8) : List UInt8 → Base64Call Unit
  | [] => do
    setsaved 3
    setsave 2 c2
    setsave 1 c1
    setsave 0 c0
  | ch :: src => do
    match ← Call.access (decode ch) with
    | .end_ =>
      putch (decode0 c0 c1)
      putch (decode1 c1 c2)
    | .inv => Call.fail (.invalid ch)
    | .value c3 =>
      putch (decode0 c0 c1)
      putch (decode1 c1 c2)
      putch (decode2 c2 c3)
      decodegroups src

end

/-- `decodeappend_`. -/
def decodeappend (src : List UInt8) : Base64Call Unit := do
  match ← decodealign src with
  | none => pure ()
  | some align => decodegroups (src.drop align)

/-- Flush the buffer unless it is empty. -/
def flushrest : Base64Call Unit := do
  let base64 ← Call.read
  if base64.buf.length ≠ 0 then flush

/-- `decodefinish_`. -/
def decodefinish : Base64Call Unit := flushrest

/-- `encodealign_`. No result stands for `AUG_EXNONE`. -/
def encodealign (src : List UInt8) : Base64Call (Option ℕ) := do
  let base64 ← Call.read
  let save := base64.save
  match base64.saved, src with
  | 2, [] => pure none
  | 2, src0 :: _ =>
    setsaved 0
    putchunk (encode0 (save 0)) (encode1 (save 0) (save 1)) (encode2 (save 1) src0) (encode3 src0)
    pure (some 1)
  | 1, [] => pure none
  | 1, [src0] =>
    setsave 1 src0
    setsaved 2
    pure none
  | 1, src0 :: src1 :: _ =>
    setsaved 0
    putchunk (encode0 (save 0)) (encode1 (save 0) src0) (encode2 src0 src1) (encode3 src1)
    pure (some 2)
  | _, _ => pure (some 0)

/-- The loop of `encodeappend_` over the whole chunks, and the part after them. -/
def encodechunks : List UInt8 → Base64Call Unit
  | src0 :: src1 :: src2 :: src => do
    putchunk (encode0 src0) (encode1 src0 src1) (encode2 src1 src2) (encode3 src2)
    encodechunks src
  | [src0, src1] => do
    setsave 1 src1
    setsave 0 src0
    setsaved 2
  | [src0] => do
    setsave 0 src0
    setsaved 1
  | [] => pure ()

/-- `encodeappend_`. -/
def encodeappend (src : List UInt8) : Base64Call Unit := do
  match ← encodealign src with
  | none => pure ()
  | some align => encodechunks (src.drop align)

/-- The padding character. -/
def pad : UInt8 := 61

/-- `encodefinish_`. -/
def encodefinish : Base64Call Unit := do
  let base64 ← Call.read
  let save := base64.save
  match base64.saved with
  | 2 =>
    setsaved 0
    putchunk (encode0 (save 0)) (encode1 (save 0) (save 1)) (encode2 (save 1) 0) pad
  | 1 =>
    setsaved 0
    putchunk (encode0 (save 0)) (encode1 (save 0) 0) pad pad
  | _ => pure ()
  flushrest

/-- Calls of `aug_appendbase64` with the parts of a string. -/
def appends (append : List UInt8 → Base64Call Unit) : List (List UInt8) → Base64Call Unit
  | [] => pure ()
  | part :: parts => do
    append part
    appends append parts

/-- Encode the parts of a string, and finish. -/
def encodes (parts : List (List UInt8)) : Base64Call Unit := do
  appends encodeappend parts
  encodefinish

/-- Decode the parts of a string, and finish. -/
def decodes (parts : List (List UInt8)) : Base64Call Unit := do
  appends decodeappend parts
  decodefinish

/-- The values that are saved. -/
def Saves (base64 : Base64) : List UInt8 → Prop
  | [] => base64.saved = 0
  | [c0] => base64.saved = 1 ∧ base64.save 0 = c0
  | [c0, c1] => base64.saved = 2 ∧ base64.save 0 = c0 ∧ base64.save 1 = c1
  | [c0, c1, c2] => base64.saved = 3 ∧ base64.save 0 = c0 ∧ base64.save 1 = c1 ∧ base64.save 2 = c2
  | _ => False

end Base64

end Aug.Net
