import Aug.Mar.Archive

/-!
# Stream buffers over archives

The stream buffer of `augmarpp/streambuf.hpp` for characters of one byte, with the members of its base class that
call it. One block holds the put area, the room for put-back and the get area. Pointers are indices of the block, and
those of an area that has been taken away are equal. What cannot be done by the archive is reported in the result.
-/

namespace Aug.Marpp

open Lib Mar

/-- `state::which`. -/
inductive Which where
  | neutral
  | get
  | put
  deriving DecidableEq

/-- The pointers to the start of an area, to its next character and behind its end. -/
structure Area where
  start : ℕ
  next : ℕ
  stop : ℕ
  deriving DecidableEq

/-- No area. -/
def Area.null : Area := ⟨0, 0, 0⟩

/-- The number of characters from the next one on. -/
def Area.rest (area : Area) : ℕ := area.stop - area.next

/-- `pbacksize`. -/
def pbacksize : ℕ := 4

/-- `basic_marstreambuf`, with the block of its `buffer`. -/
structure StreamBuf (σ : Type) where
  mar : Archive σ
  openin : Bool
  openout : Bool
  size : ℕ
  chars : List UInt8
  state : Which
  gsaved : Area
  get : Area
  put : Area

namespace StreamBuf

variable {σ : Type}

/-- `psize`, which is also `pend` and `gbegin`. -/
def psize (sb : StreamBuf σ) : ℕ := if sb.openout then sb.size else 0

/-- `gsize`. -/
def gsize (sb : StreamBuf σ) : ℕ := if sb.openin then sb.size else 0

/-- `gbase`. -/
def gbase (sb : StreamBuf σ) : ℕ := sb.psize + pbacksize

/-- The constructor. The block is not initialised. -/
def create (mar : Archive σ) (openin openout : Bool) (size : ℕ) (fresh : ℕ → UInt8) : StreamBuf σ :=
  let psize := if openout then size else 0
  let gbase := psize + pbacksize
  { mar, openin, openout, size
    chars := (List.range (psize + if openin then size + pbacksize else 0)).map fresh
    state := .neutral
    gsaved := ⟨gbase, gbase, gbase⟩
    get := .null
    put := .null }

/-- The next characters of the get area, behind which it then continues. -/
def takechars (len : ℕ) : Call (StreamBuf σ) Empty (List UInt8) := do
  let sb ← Call.read
  let bytes ← Call.access (load sb.chars sb.get.next len)
  Call.modify fun sb => { sb with get := { sb.get with next := sb.get.next + len } }
  pure bytes

/-- Put characters into the put area. -/
def putchars (bytes : List UInt8) : Call (StreamBuf σ) Empty Unit := do
  let sb ← Call.read
  let chars ← Call.access (store sb.chars sb.put.next bytes)
  Call.modify fun sb => { sb with chars, put := { sb.put with next := sb.put.next + bytes.length } }

/-- A call of the archive, without a result if it fails. -/
def onMar {α : Type} (x : Call (Archive σ) Failure α) : Call (StreamBuf σ) Empty (Option α) :=
  Call.zoom StreamBuf.mar (fun mar sb => { sb with mar }) x.attempt

variable [SeqImpl σ]

/-- `ioread`: the count and the characters. Both sizes are shorter than those of a stream. -/
def ioread (len : ℕ) : Call (StreamBuf σ) Empty (ℤ × List UInt8) := do
  match ← onMar (Mar.read (u32 len)) with
  | none => pure (-1, [])
  | some bytes => pure (i32 bytes.length, bytes)

/-- `iowrite`. -/
def iowrite (env : SeqImpl.Env σ) (buf : List UInt8) : Call (StreamBuf σ) Empty ℤ := do
  if u32 buf.length = 0 then pure 0
  else
    match ← onMar (Mar.write env (buf.take (u32 buf.length))) with
    | none => pure (-1)
    | some rsize => pure (i32 rsize)

omit [SeqImpl σ] in
/-- `savepback`. -/
def savepback : Call (StreamBuf σ) Empty ℕ := do
  let sb ← Call.read
  let len := min (sb.get.next - sb.get.start) pbacksize
  let chars ← Call.access (move sb.chars (sb.gbase - len) (sb.get.next - len) len)
  Call.modify fun sb => { sb with chars }
  pure (sb.gbase - len)

/-- `syncout`. -/
def syncout (env : SeqImpl.Env σ) : Call (StreamBuf σ) Empty ℤ := do
  let sb ← Call.read
  if sb.state = .put then do
    let len := sb.put.next - sb.put.start
    let bytes ← Call.access (load sb.chars sb.put.start len)
    let num ← iowrite env bytes
    if num = -1 then pure (-1)
    else do
      Call.modify fun sb => { sb with put := { sb.put with next := sb.put.next - len } }
      pure (if num = len then 0 else -1)
  else pure 0

/-- `setout`. The get area is saved. -/
def setout : Call (StreamBuf σ) Empty Bool := do
  let sb ← Call.read
  if sb.state = .put then pure true
  else if sb.openout then do
    Call.modify fun sb => { sb with
      state := .put
      gsaved := if sb.state = .get then sb.get else sb.gsaved
      get := .null
      put := ⟨0, 0, sb.psize⟩ }
    pure true
  else pure false

/-- `setin`. The get area is the one that has been saved. -/
def setin (env : SeqImpl.Env σ) : Call (StreamBuf σ) Empty Bool := do
  let sb ← Call.read
  if sb.state = .get then pure true
  else if sb.openin then do
    let ret ← if sb.openout then syncout env else pure 0
    if ret = -1 then pure false
    else do
      Call.modify fun sb => { sb with state := .get, put := .null, get := sb.gsaved }
      pure true
  else pure false

/-- The second half of `underflow`: the get area is filled, and the characters in front of it are kept. -/
def refill : Call (StreamBuf σ) Empty (Option UInt8) := do
  let pback ← savepback
  let sb ← Call.read
  let (len, bytes) ← ioread sb.gsize
  let chars ← Call.access (store sb.chars sb.gbase bytes)
  Call.modify fun sb => { sb with chars }
  if len = -1 ∨ len = 0 then pure none
  else do
    Call.modify fun sb => { sb with get := ⟨pback, sb.gbase, (sb.gbase + len).toNat⟩ }
    let c ← Call.access chars[sb.gbase]?
    pure (some c)

/-- `underflow`. -/
def underflow (env : SeqImpl.Env σ) : Call (StreamBuf σ) Empty (Option UInt8) := do
  if ← setin env then do
    let sb ← Call.read
    if sb.get.next < sb.get.stop then do
      let c ← Call.access sb.chars[sb.get.next]?
      pure (some c)
    else refill
  else pure none

/-- `overflow`. It ends in another `sputc`, which without a put area does not end. -/
def overflow (env : SeqImpl.Env σ) (c : Option UInt8) : Call (StreamBuf σ) Empty (Option UInt8) := do
  if ← setout then do
    let ret ← syncout env
    if ret = -1 then pure none
    else
      match c with
      | none => pure (some 0)
      | some c => do
        let sb ← Call.read
        if sb.put.next < sb.put.stop then do
          putchars [c]
          pure (some c)
        else Call.access none
  else pure none

/-- `seekoff`, with the origin of the archive. -/
def seekoff (off : ℤ) (whence : ℤ) : Call (StreamBuf σ) Empty ℤ := do
  match ← onMar (Mar.seek off whence) with
  | none => pure (-1)
  | some pos => pure pos

/-- `sync`. -/
def sync (env : SeqImpl.Env σ) : Call (StreamBuf σ) Empty ℤ := do
  let sb ← Call.read
  if sb.openout then syncout env else pure 0

/-! ## The base class -/

/-- `uflow`. -/
def uflow (env : SeqImpl.Env σ) : Call (StreamBuf σ) Empty (Option UInt8) := do
  match ← underflow env with
  | none => pure none
  | some _ => do
    let bytes ← takechars 1
    pure bytes.head?

/-- `sgetc`. -/
def sgetc (env : SeqImpl.Env σ) : Call (StreamBuf σ) Empty (Option UInt8) := do
  let sb ← Call.read
  if sb.get.next < sb.get.stop then do
    let c ← Call.access sb.chars[sb.get.next]?
    pure (some c)
  else underflow env

/-- `sbumpc`. -/
def sbumpc (env : SeqImpl.Env σ) : Call (StreamBuf σ) Empty (Option UInt8) := do
  let sb ← Call.read
  if sb.get.next < sb.get.stop then do
    let bytes ← takechars 1
    pure bytes.head?
  else uflow env

/-- `sputc`. -/
def sputc (env : SeqImpl.Env σ) (c : UInt8) : Call (StreamBuf σ) Empty (Option UInt8) := do
  let sb ← Call.read
  if sb.put.next < sb.put.stop then do
    putchars [c]
    pure (some c)
  else overflow env (some c)

omit [SeqImpl σ] in
/-- `sungetc`. There is no `pbackfail` but the one of the base class. -/
def sungetc : Call (StreamBuf σ) Empty (Option UInt8) := do
  let sb ← Call.read
  if sb.get.start < sb.get.next then do
    let c ← Call.access sb.chars[sb.get.next - 1]?
    Call.modify fun sb => { sb with get := { sb.get with next := sb.get.next - 1 } }
    pure (some c)
  else pure none

omit [SeqImpl σ] in
/-- `sputbackc`. -/
def sputbackc (c : UInt8) : Call (StreamBuf σ) Empty (Option UInt8) := do
  let sb ← Call.read
  if sb.get.start < sb.get.next then do
    let last ← Call.access sb.chars[sb.get.next - 1]?
    if last = c then sungetc else pure none
  else pure none

/-! ## Blocks -/

/-- `xsgetn` behind the characters of the get area. -/
def getmore (env : SeqImpl.Env σ) (front : List UInt8) (n : ℕ) : Call (StreamBuf σ) Empty (List UInt8) := do
  let sb ← Call.read
  if sb.gsize ≤ n then do
    let (len, bytes) ← ioread n
    pure (if len = -1 then front else (front ++ bytes).take (front.length + len).toNat)
  else
    match ← uflow env with
    | none => pure front
    | some c => do
      let sb ← Call.read
      let bytes ← takechars (min (n - 1) sb.get.rest)
      pure (front ++ c :: bytes)

/-- `xsgetn`. -/
def xsgetn (env : SeqImpl.Env σ) (n : ℕ) : Call (StreamBuf σ) Empty (List UInt8) := do
  if n = 0 then pure []
  else if ← setin env then do
    let sb ← Call.read
    let len := min n sb.get.rest
    let front ← takechars len
    if n - len = 0 then pure front else getmore env front (n - len)
  else pure []

/-- `xsputn` behind what has room in the put area. -/
def putmore (env : SeqImpl.Env σ) (tot : ℤ) (bytes : List UInt8) : Call (StreamBuf σ) Empty ℤ := do
  let ret ← syncout env
  if ret = -1 then pure tot
  else do
    let sb ← Call.read
    if sb.psize ≤ bytes.length then do
      let len ← iowrite env bytes
      pure (if len = -1 then tot else tot + len)
    else do
      putchars bytes
      pure (tot + bytes.length)

/-- `xsputn`. -/
def xsputn (env : SeqImpl.Env σ) (bytes : List UInt8) : Call (StreamBuf σ) Empty ℤ := do
  if bytes = [] then pure 0
  else if ← setout then do
    let sb ← Call.read
    let len := min bytes.length sb.put.rest
    putchars (bytes.take len)
    if bytes.drop len = [] then pure len else putmore env len (bytes.drop len)
  else pure 0

end StreamBuf

/-- The origin of a seek, as an origin of the archive. -/
inductive Seekdir where
  | fromBeg
  | fromCur
  | fromEnd
  deriving DecidableEq

/-- The `switch` of `seekoff`. -/
def Seekdir.whence : Seekdir → ℤ
  | .fromBeg => 0
  | .fromCur => 1
  | .fromEnd => 2

/-- `off_type`. -/
abbrev Offset := { off : ℤ // -2 ^ 63 ≤ off ∧ off < 2 ^ 63 }

/-- A call of a public member of a stream buffer. -/
inductive StreamOp where
  | sgetc
  | sbumpc
  | sgetn (n : ℕ)
  | sputc (c : UInt8)
  | sputn (bytes : List UInt8)
  | sungetc
  | sputbackc (c : UInt8)
  | pubsync
  | pubseekoff (off : Offset) (way : Seekdir)
  | pubseekpos (pos : Offset)
  deriving DecidableEq

/-- Make one call, with the characters that are read. -/
def StreamOp.call {σ : Type} [SeqImpl σ] (env : SeqImpl.Env σ) : StreamOp → Call (StreamBuf σ) Empty (List UInt8)
  | .sgetc => do return (← StreamBuf.sgetc env).toList
  | .sbumpc => do return (← StreamBuf.sbumpc env).toList
  | .sgetn n => StreamBuf.xsgetn env n
  | .sputc c => do
    let _ ← StreamBuf.sputc env c
    return []
  | .sputn bytes => do
    let _ ← StreamBuf.xsputn env bytes
    return []
  | .sungetc => do return (← StreamBuf.sungetc).toList
  | .sputbackc c => do return (← StreamBuf.sputbackc c).toList
  | .pubsync => do
    let _ ← StreamBuf.sync env
    return []
  | .pubseekoff off way => do
    let _ ← StreamBuf.seekoff off.1 way.whence
    return []
  | .pubseekpos pos => do
    let _ ← StreamBuf.seekoff pos.1 0
    return []

end Aug.Marpp
