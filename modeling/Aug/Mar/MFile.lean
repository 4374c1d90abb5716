import Aug.Lib.ZeroFill
import Aug.Mar.Seq

/-!
# Mapped files

The file back end of a sequence keeps a logical size, a reserved length and a mapping of the
file. The operating system is modelled by the bytes of the file: `ftruncate` sets its length,
and mapping its first `len` bytes succeeds exactly when there are that many and at least one.
-/

namespace Aug.Mar

open Aug.Lib

/-- A mapping (`struct impl_` of `mmap.c`): its length and the file size it was checked against. -/
structure MMap where
  len : ℕ
  size : ℕ
deriving DecidableEq, Repr

/-- A mapped file (`struct aug_mfile_`); `file` holds the bytes behind the descriptor. -/
structure MFile where
  writable : Bool
  resvd : ℕ
  size : ℕ
  mmap : Option MMap
  file : List UInt8
deriving DecidableEq, Repr

/-- `reserve_`: round up to the page size, in `unsigned` arithmetic. -/
def reserve (pagesize size : ℕ) : ℕ :=
  u32 (((size / pagesize + if size % pagesize = 0 then 0 else 1 : ℕ) : ℤ) * pagesize)

/-- `verify_` for a mapping from the start of the file. -/
def verify (size len : ℕ) : Except Failure Unit :=
  if size = 0 ∨ size < len then
    .error (.einval ("invalid file map size [" ++ toString (i32 size) ++ "]"))
  else .ok ()

/-- `createmmap_B_`: the system call fails for an empty range or one behind the end of the file. -/
def createmmapB (fsize size len : ℕ) : Except Failure MMap :=
  let len := if len = 0 then size else len
  if 0 < len ∧ len ≤ fsize then .ok { len, size } else .error .system

/-- `aug_createmmap_BIN`. -/
def createmmap (fsize len : ℕ) : Except Failure MMap := do
  verify fsize len
  createmmapB fsize fsize len

/-- `aug_remmap_BIN`: the file size is read again only where the known one is too small. -/
def remmap (fsize : ℕ) (mm : MMap) (len : ℕ) : Except Failure MMap := do
  let size := if mm.size < len then fsize else mm.size
  verify size len
  createmmapB fsize size len

/-- The memory behind the mapping that lies in the file. -/
def MFile.addr (mfile : MFile) : Option (List UInt8) :=
  mfile.mmap.map fun mm => mfile.file.take mm.len

/-- Change the memory behind the mapping, and with it the file. -/
def MFile.update (f : List UInt8 → Option (List UInt8)) (mfile : MFile) : Option MFile := do
  let mm ← mfile.mmap
  let mem ← f (mfile.file.take mm.len)
  pure { mfile with file := mem ++ mfile.file.drop mm.len }

/-- The second half of `aug_mapmfile_BIN_`: map again, or for the first time. -/
def mapsize (size : ℕ) : Call MFile Failure Unit := do
  let mfile ← Call.read
  match mfile.mmap with
  | some mm =>
    match remmap mfile.file.length mm size with
    | .ok mm => Call.modify fun mfile => { mfile with mmap := some mm }
    | .error e => do
      Call.modify fun mfile => { mfile with mmap := none }
      Call.fail e
  | none =>
    match createmmap mfile.file.length size with
    | .ok mm => Call.modify fun mfile => { mfile with mmap := some mm }
    | .error e => Call.fail e

/-- The first half: extend the file where the reserved length is too small. -/
def extend (pagesize size : ℕ) : Call MFile Failure Unit := do
  let mfile ← Call.read
  if mfile.resvd < size then
    if mfile.writable then
      let resvd := reserve pagesize size
      Call.modify fun mfile =>
        { mfile with resvd, file := resizeTo 0 mfile.file (u32 (resvd - mfile.size)) }
    else Call.fail (.eperm "file is not writable")
  else pure ()

/-- `aug_mapmfile_BIN_`. -/
def mapmfile (pagesize size : ℕ) : Call MFile Failure Unit := do
  let mfile ← Call.read
  if ∃ mm ∈ mfile.mmap, size ≤ mm.len then pure ()
  else do
    extend pagesize size
    mapsize size
  Call.modify fun mfile => { mfile with size := max mfile.size size }

/-- `aug_truncatemfile_`. -/
def truncatemfile (size : ℕ) : Call MFile Failure Unit := do
  let mfile ← Call.read
  if mfile.writable then Call.modify fun mfile => { mfile with size }
  else Call.fail (.eperm "file is not writable")

/-- Move the tail of the sequence in the mapped memory. -/
def movetail (size len tail : ℕ) : Call MFile Failure Unit := do
  let mfile ← Call.read
  let moved ← Call.access (mfile.update fun mem =>
    move mem (u32 ((size : ℤ) - tail)) (u32 ((len : ℤ) - tail)) tail)
  Call.modify fun _ => moved

/-- `resizemfile_BIN_`. -/
def resizemfile (pagesize size tail : ℕ) : Call MFile Failure Unit := do
  let mfile ← Call.read
  let len := mfile.size
  if len < size then do
    mapmfile pagesize size
    movetail size len tail
  else do
    if size < len then do
      movetail size len tail
      truncatemfile size
    else pure ()
    if mfile.mmap = none then Call.fail .system else pure ()

/-- The file back end; the environment of a resize is the system's page size. -/
instance : SeqImpl MFile where
  Env := ℕ
  resize := resizemfile
  addr := MFile.addr
  poke ptr bytes := MFile.update (store · ptr bytes)
  size := MFile.size

/-- `aug_openmfile_IN_` on a file with the given bytes. -/
def openmfile (writable : Bool) (file : List UInt8) : MFile :=
  { writable, resvd := u32 file.length, size := u32 file.length, mmap := none, file }

/-- `aug_openseq_IN_`. -/
def openseq (pagesize : ℕ) (writable : Bool) (file : List UInt8) :
    Option (Except Failure (Seq MFile)) :=
  let mfile := openmfile writable file
  if mfile.resvd = 0 then some (.ok { impl := mfile, offset := 0, len := 0 })
  else (mapmfile pagesize mfile.resvd mfile).map fun (result, impl) =>
    result.map fun _ => { impl, offset := 0, len := 0 }

end Aug.Mar
