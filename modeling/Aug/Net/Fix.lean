import Aug.Lib.Transition
import Aug.Util.Conv
import Aug.Util.Xstr

/-!
# Streams of FIX messages

The reader of `fix.c`. What is read is appended to a growing string, and the messages in front of it
are passed to a callback. The length of a message is found in its header and kept between the reads.
Next to the fields of the stream are the messages that the callback was given, and the bytes of the
buffer that were examined, each with the number of bytes that were buffered at the time.
-/

namespace Aug.Net

open Aug.Lib Aug.Util

/-- The fields of `struct aug_fixstream_`. -/
structure FixStream where
  xstr : ℕ
  mlen : ℕ

/-- A stream in its memory, with what it has done. -/
structure Fix where
  memory : XMemory
  stream : FixStream
  messages : List (List UInt8)
  examined : List (ℕ × ℕ)

/-- The errors of a read. -/
inductive FixError where
  | read
  | eof
  | digits (digits : ℕ)
  | nondigit (ch : UInt8)
  | notempty (size : ℕ)

/-- A call on a stream. -/
abbrev FixCall := Call Fix FixError

namespace Fix

/-- The separator of the fields. -/
def soh : UInt8 := 1

/-- `HEAD_SIZE_`, the length of `8=FIX.x.y`, the separator and `9=`. -/
def headSize : ℕ := 12

/-- `TAIL_SIZE_`, the length of `10=nnn` and the separator. -/
def tailSize : ℕ := 7

/-- `MAX_DIGITS_`. -/
def maxDigits : ℕ := 10

/-- `AUG_BUFSIZE`. -/
def bufsize : ℕ := 4096

/-- Run a call of the string library. -/
def lift {α : Type} (call : XCall α) : FixCall α :=
  (call.mapError fun _ => FixError.read).zoom Fix.memory fun memory fix => { fix with memory }

/-- Examine a byte of the buffer. -/
def examine (buf i : ℕ) : FixCall UInt8 := do
  let fix ← Call.read
  let str ← lift (Xstr.fields fix.stream.xstr)
  let bytes ← lift (Xstr.load buf i 1)
  Call.modify fun fix => { fix with examined := fix.examined ++ [(i, str.len)] }
  Call.access bytes.head?

/-- The search of `fixtoui_` for a delimiter in `size` bytes. -/
def find (buf : ℕ) (delim : UInt8) (it : ℕ) : ℕ → FixCall (Option ℕ)
  | 0 => pure none
  | size + 1 => do
    let ch ← examine buf it
    if ch = delim then pure (some it) else find buf delim (it + 1) size

/-- The loop of `fixtoui_` over the digits, from the last one to the first. -/
def convert (buf start : ℕ) : ℕ → ℕ → ℕ → FixCall ℕ
  | 0, _, value => pure value
  | digits + 1, fact, value => do
    let ch ← examine buf (start + digits)
    if isdigit ch then convert buf start digits (u32 (fact * 10)) (u32 (value + (ch.toNat - 48 : ℕ) * fact))
    else Call.fail (.nondigit ch)

/-- `fixtoui_`: the number of digits, and the value if the delimiter was found. -/
def fixtoui (buf start dst size : ℕ) (delim : UInt8) : FixCall (ℕ × ℕ) := do
  match ← find buf delim start size with
  | none => pure (0, dst)
  | some it =>
    let digits := u32 (it - start : ℕ)
    if maxDigits < digits then Call.fail (.digits digits)
    else
      let value ← convert buf start (it - start) 1 0
      pure (digits, value)

/-- `getsize_`: the size of the message, or zero. The size of the character constant is that of an `int`. -/
def getsize (buf size : ℕ) : FixCall ℕ :=
  if size < headSize + 4 + 1 then pure 0
  else do
    let (rsize, value) ← fixtoui buf headSize 0 size soh
    pure (headSize + rsize + 1 + value + tailSize)

/-- Assign `mlen_`. -/
def setmlen (mlen : ℕ) : FixCall Unit := Call.modify fun fix => { fix with stream := { fix.stream with mlen } }

/-- The callback. -/
def callback (message : List UInt8) : FixCall Unit :=
  Call.modify fun fix => { fix with messages := fix.messages ++ [message] }

mutual

/-- The loop of `aug_readfix_BI`, at the head of a message. -/
def head (size buf blen : ℕ) : FixCall Unit := do
  let mlen ← getsize buf size
  if mlen = 0 then pure ()
  else
    setmlen mlen
    body size buf blen mlen
termination_by 2 * blen + 1

/-- The loop of `aug_readfix_BI`, at the body. The length is known here, so it is not zero. A copy inside
of the string asks for no memory, and its result is not looked at. -/
def body (size buf blen mlen : ℕ) : FixCall Unit :=
  if _h : mlen = 0 ∨ blen < mlen then pure ()
  else do
    let message ← lift (Xstr.load buf 0 mlen)
    callback message
    setmlen 0
    let fix ← Call.read
    if blen - mlen = 0 then lift (Xstr.clearxstr fix.stream.xstr)
    else
      (lift (Xstr.xstrcpysn fix.stream.xstr (.block buf fix.stream.mlen) (blen - mlen) none)).ignore
      let buf ← lift (Xstr.xstr fix.stream.xstr)
      head size buf (blen - mlen)
termination_by 2 * blen

end

/-- `aug_readfix_BI`, with what the stream reads and the answer of the pool if the string is to grow. -/
def readfix (size : ℕ) (result : Option (List UInt8)) (alloc : Alloc) : FixCall ℕ := do
  let fix ← Call.read
  lift (Xstr.xstrread fix.stream.xstr size result alloc)
  let rsize := (result.getD []).length
  if rsize = 0 then Call.fail .eof
  else
    let str ← lift (Xstr.fields fix.stream.xstr)
    let buf ← lift (Xstr.xstr fix.stream.xstr)
    if fix.stream.mlen ≠ 0 then body size buf str.len fix.stream.mlen
    else head size buf str.len
    pure rsize

/-- `aug_finishfix`. -/
def finishfix : FixCall Unit := do
  let fix ← Call.read
  let str ← lift (Xstr.fields fix.stream.xstr)
  if str.len ≠ 0 then
    lift (Xstr.clearxstr fix.stream.xstr)
    setmlen 0
    Call.fail (.notempty str.len)
  else setmlen 0

/-- `aug_createfixstream`. -/
def createfixstream (size x : ℕ) (cells : ℕ → UInt8) : XCall FixStream := do
  Xstr.createxstr (if size = 0 then bufsize else size) x cells
  pure { xstr := x, mlen := 0 }

end Fix

/-- A read: the number of bytes asked for, how many the source gives unless it fails, and the answer of
the pool. -/
structure FixRead where
  size : ℕ
  taken : Option ℕ
  alloc : Alloc

/-- The stream, unless its behaviour has been undefined, and the bytes that are left in the source. -/
structure FixReader where
  fix : Option Fix
  source : List UInt8

namespace FixReader

/-- A new stream whose string is an object of less than `2 ^ 63` bytes. -/
def create (size x : ℕ) (cells : ℕ → UInt8) (source : List UInt8) : Option FixReader :=
  match Fix.createfixstream size x cells ⟨fun _ => none, fun _ => none⟩ with
  | some (.ok stream, memory) =>
    if size < 2 ^ 64 ∧ u64 (40 + (max 64 size : ℕ)) < 2 ^ 63 then some ⟨some ⟨memory, stream, [], []⟩, source⟩ else none
  | _ => none

/-- What the source gives to a read. -/
def taken (reader : FixReader) (read : FixRead) : Option (List UInt8) := read.taken.map reader.source.take

/-- The string has the space for a read. -/
def spacious (fix : Fix) (size : ℕ) : Bool :=
  (fix.memory.xstrs fix.stream.xstr).any fun str => decide (u64 (str.len + size) ≤ u64 (str.size - str.len))

/-- The source gives no more than it is asked for and has, and nothing if the pool is exhausted before. -/
def allowed (reader : FixReader) (fix : Fix) (read : FixRead) : Bool :=
  read.taken.all (fun n => decide (n ≤ read.size ∧ n ≤ reader.source.length)) && decide (read.size < 2 ^ 64) &&
    (spacious fix read.size || read.alloc.isSome || read.taken.isNone)

/-- One read. -/
def step (reader : FixReader) (read : FixRead) : Option FixReader :=
  reader.fix.bind fun fix =>
    if reader.allowed fix read then
      some ⟨(Fix.readfix read.size (reader.taken read) read.alloc fix).map Prod.snd,
        reader.source.drop (read.taken.getD 0)⟩
    else none

end FixReader

end Aug.Net
