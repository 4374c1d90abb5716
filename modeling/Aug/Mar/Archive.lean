import Aug.Mar.Body
import Aug.Mar.Header

/-!
# Archives

The operations of `mar.c` and the leader functions of `info_.c` it uses. Each operation checks
the access mode of the archive and then calls the header or body function.
-/

namespace Aug.Mar

open Aug.Lib

variable {σ : Type} [SeqImpl σ]

/-- `aug_info_`: read the leader. -/
def info : Call (Seq σ) Failure Info := do
  setregion 0 leadersize
  let addr ← seqaddr
  let mem ← memory
  let found ← Call.access (load mem (addr + magicoff) magic.length)
  if found ≠ magic then Call.fail (.einval "invalid mar header")
  else do
    let proto ← Call.access (decodeBE 2 mem (addr + protooff))
    let fields ← Call.access (decodeBE 2 mem (addr + fieldsoff))
    let hsize ← Call.access (decodeBE 4 mem (addr + hsizeoff))
    let bsize ← Call.access (decodeBE 4 mem (addr + bsizeoff))
    pure { proto, fields, hsize, bsize }

/-- The leader stores of `init_BIN_` and `aug_setinfo_`. -/
def pokeinfo (addr : ℕ) (info : Info) : Call (Seq σ) Failure Unit := do
  poke (addr + magicoff) magic
  poke (addr + protooff) (encodeBE 2 info.proto)
  poke (addr + fieldsoff) (encodeBE 2 info.fields)
  poke (addr + hsizeoff) (encodeBE 4 info.hsize)
  poke (addr + bsizeoff) (encodeBE 4 info.bsize)

/-- The protocol number `PROTO`. -/
def proto : ℕ := 3

/-- `init_BIN_`: read an existing leader or write a new one. -/
def init (env : SeqImpl.Env σ) : Call (Seq σ) Failure Info := do
  let seq ← Call.read
  let size := SeqImpl.size seq.impl
  if leadersize ≤ size then do
    let found ← info
    if found.proto ≠ proto then
      Call.fail (.einval ("invalid protocol number [" ++ toString found.proto ++ "]"))
    else pure found
  else do
    setregion 0 size
    let ptr ← resizeseq env leadersize
    let info : Info := { proto, fields := 0, hsize := 0, bsize := 0 }
    pokeinfo ptr info
    pure info

/-- `aug_createmar_BIN`: an archive in memory. -/
def createmar (mpool : MPool) : Option (Except Failure (Archive MemSeq)) :=
  (init mpool createseq).map fun (result, seq) => result.map fun info =>
    { seq, info, flags := { access := .rdwr, append := false }, offset := 0 }

/-- The check that opens every operation that changes the archive. -/
def writable {α : Type} (x : Call (Archive σ) Failure α) : Call (Archive σ) Failure α := do
  let mar ← Call.read
  if mar.flags.writable then x else Call.fail (.einval "invalid archive handle")

/-- The check that opens every operation that reads the archive. -/
def readable {α : Type} (x : Call (Archive σ) Failure α) : Call (Archive σ) Failure α := do
  let mar ← Call.read
  if mar.flags.readable then x else Call.fail (.einval "invalid archive handle")

/-- The end of `seek_`: the result is the full position, the archive keeps it as an `unsigned`. -/
def settle (pos : ℤ) : Call (Archive σ) Failure ℤ :=
  if pos < 0 then
    Call.fail (.erange ("negative file position [" ++ toString (i32 pos) ++ "]"))
  else do
    Call.modify fun mar => { mar with offset := u32 pos }
    pure pos

/-- `seek_`, with the origins of `SEEK_SET`, `SEEK_CUR` and `SEEK_END`. -/
def seek (offset whence : ℤ) : Call (Archive σ) Failure ℤ := do
  let mar ← Call.read
  if whence = 0 then settle offset
  else if whence = 1 then settle (i64 (mar.offset + offset))
  else if whence = 2 then settle (i64 (mar.info.bsize + offset))
  else Call.fail (.einval ("invalid whence value [" ++ toString whence ++ "]"))

/-- `write_BIN_`. -/
def write (env : SeqImpl.Env σ) (buf : List UInt8) : Call (Archive σ) Failure ℤ := writable do
  let mar ← Call.read
  if mar.flags.append then do
    let _ ← seek 0 2
    pure ()
  else pure ()
  let mar ← Call.read
  let rsize ← writebody env mar.offset buf
  Call.modify fun mar => { mar with offset := u32 (mar.offset + rsize) }
  pure rsize

/-- `read_`. -/
def read (len : ℕ) : Call (Archive σ) Failure (List UInt8) := readable do
  let mar ← Call.read
  let bytes ← readbody mar.offset len
  Call.modify fun mar => { mar with offset := u32 (mar.offset + bytes.length) }
  pure bytes

/-! ## Calls of a client -/

/-- One call through the archive's table of operations. -/
inductive Op
  | clear
  | deln (n : ℕ)
  | delp (name : CStr)
  | getn (n : ℕ)
  | getp (name : CStr)
  | get (n : ℕ)
  | putn (n : ℕ) (value : List UInt8)
  | putp (name : Option CStr) (value : List UInt8)
  | put (name : Option CStr) (value : List UInt8)
  | ntop (n : ℕ)
  | pton (name : CStr)
  | seek (offset whence : ℤ)
  | setcontent (data : List UInt8)
  | truncate (size : ℕ)
  | write (buf : List UInt8)
  | read (len : ℕ)
deriving DecidableEq

/-- What a client sees of a call: results with the bytes behind the pointers they hold. -/
inductive Result
  | int (n : ℤ)
  | value (value : Option (List UInt8)) (size : ℤ)
  | field (name : Option (List UInt8)) (value : Option (List UInt8)) (size : ℕ)
  | name (name : List UInt8)
  | bytes (bytes : List UInt8)
deriving DecidableEq, Repr

/-- Read the bytes behind a pointer, as the client may once the call has returned. -/
def deref (ptr : Option ℕ) (size : ℕ) : Call (Archive σ) Failure (Option (List UInt8)) := do
  match ptr with
  | none => pure none
  | some ptr => do
    let mem ← Archive.onSeq memory
    let bytes ← Call.access (load mem ptr size)
    pure (some bytes)

/-- The characters of the C string in a memory, up to its terminator. -/
def cstr : List UInt8 → Option (List UInt8)
  | [] => none
  | c :: rest => if c = 0 then some [] else (cstr rest).map (c :: ·)

/-- Read the C string behind a pointer. -/
def derefstr (ptr : ℕ) : Call (Archive σ) Failure (List UInt8) := do
  let mem ← Archive.onSeq memory
  Call.access (cstr (mem.drop ptr))

/-- Make one call and look at its result. -/
def Op.call (env : SeqImpl.Env σ) : Op → Call (Archive σ) Failure Result
  | clear => do
    let n ← writable (clearfields env)
    pure (.int n)
  | deln n => do
    writable (delfieldn env n)
    pure (.int 0)
  | delp name => do
    let n ← writable (delfieldp env name)
    pure (.int n)
  | getn n => do
    let (ptr, size) ← readable (getfieldn n)
    let value ← deref ptr size.toNat
    pure (.value value size)
  | getp name => do
    let (ptr, size) ← readable (getfieldp name)
    let value ← deref ptr size.toNat
    pure (.value value size)
  | get n => do
    let field ← readable (getfield n)
    let value ← deref field.value field.size
    match field.name with
    | none => pure (.field none value field.size)
    | some ptr => do
      let name ← derefstr ptr
      pure (.field (some name) value field.size)
  | putn n value => do
    writable (putfieldn env n value)
    pure (.int 0)
  | putp name value | put name value => do
    let n ← writable (putfieldp env name value)
    pure (.int n)
  | ntop n => do
    let ptr ← readable (fieldntop n)
    let name ← derefstr ptr
    pure (.name name)
  | pton name => do
    let n ← readable (fieldpton name)
    pure (.int n)
  | seek offset whence => do
    let pos ← Mar.seek offset whence
    pure (.int pos)
  | setcontent data => do
    writable (Mar.setcontent env data)
    pure (.int 0)
  | truncate size => do
    writable (Mar.truncate env size)
    pure (.int 0)
  | write buf => do
    let n ← Mar.write env buf
    pure (.int n)
  | read len => do
    let bytes ← Mar.read len
    pure (.bytes bytes)

end Aug.Mar
