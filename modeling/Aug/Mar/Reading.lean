import Aug.Mar.Archive
import Aug.Mar.MFile

/-!
# Reading an archive from a file

`aug_openmar_BIN` takes the leader of a file as it is, and the reading calls follow the numbers in it. What a
call examines is told by running it on the archive whose memory ends earlier: a call that is defined there
examines no byte behind the end.
-/

namespace Aug.Mar

open Aug.Lib

/-- `aug_openmar_BIN` on a file with the given bytes, without `AUG_TRUNC`. -/
def openmar (pagesize : ℕ) (flags : Flags) (file : List UInt8) : Option (Except Failure (Archive MFile)) :=
  match openseq pagesize flags.writable file with
  | none => none
  | some (.error e) => some (.error e)
  | some (.ok seq) => (init pagesize seq).map fun (result, seq) =>
    result.map fun info => { seq, info, flags, offset := 0 }

/-- `"Content-Type"`. -/
def contenttype : CStr := ⟨[67, 111, 110, 116, 101, 110, 116, 45, 84, 121, 112, 101], by decide⟩

/-- `"application/octet-stream"`. -/
def octetstream : List UInt8 :=
  [97, 112, 112, 108, 105, 99, 97, 116, 105, 111, 110, 47, 111, 99, 116, 101, 116, 45, 115, 116, 114, 101, 97, 109]

section Blob

variable {σ : Type} [SeqImpl σ]

/-- `gettype_`: the value and its size, unless it is the default. -/
def gettype : Call (Archive σ) Failure (Option (ℕ × ℕ)) := fun mar =>
  (getfieldp contenttype mar).map fun (result, mar) =>
    match result with
    | .ok (some ptr, size) => (.ok (if size < 0 then none else some (ptr, size.toNat)), mar)
    | .ok (none, _) => (.ok none, mar)
    | .error _ => (.ok none, mar)

/-- `getdata_`: the body and its size. -/
def getdata : Call (Archive σ) Failure (ℕ × ℕ) := readable do
  let mar ← Call.read
  let addr ← getcontent
  pure (addr, mar.info.bsize)

/-- `getsize_`. -/
def getsize : Call (Archive σ) Failure ℕ := do
  let mar ← Call.read
  pure mar.info.bsize

end Blob

/-- The calls that read an archive, those of its blob included. -/
inductive Reading
  | getn (n : ℕ)
  | getp (name : CStr)
  | get (n : ℕ)
  | ntop (n : ℕ)
  | pton (name : CStr)
  | seek (offset whence : ℤ)
  | read (len : ℕ)
  | gettype
  | getdata
  | getsize
deriving DecidableEq

namespace Reading

/-- The calls that work on the header. -/
def ofHeader : Reading → Bool
  | getn _ | getp _ | get _ | ntop _ | pton _ | gettype => true
  | seek _ _ | read _ | getdata | getsize => false

variable {σ : Type} [SeqImpl σ]

/-- Make one call and look at what it returns. -/
def call : Reading → Call (Archive σ) Failure Result
  | getn n => do
    let (ptr, size) ← readable (getfieldn n)
    let value ← deref ptr size.toNat
    pure (.value value size)
  | getp name => do
    let (ptr, size) ← readable (getfieldp name)
    let value ← deref ptr size.toNat
    pure (.value value size)
  | get n => do
    let field ← readable (getfield n)
    let value ← deref field.value field.size
    match field.name with
    | none => pure (.field none value field.size)
    | some ptr => do
      let name ← derefstr ptr
      pure (.field (some name) value field.size)
  | ntop n => do
    let ptr ← readable (fieldntop n)
    let name ← derefstr ptr
    pure (.name name)
  | pton name => do
    let n ← readable (fieldpton name)
    pure (.int n)
  | seek offset whence => do
    let pos ← Mar.seek offset whence
    pure (.int pos)
  | read len => do
    let bytes ← Mar.read len
    pure (.bytes bytes)
  | gettype => do
    match ← Mar.gettype with
    | none => pure (.name octetstream)
    | some (ptr, size) => do
      let value ← deref (some ptr) size
      pure (.value value size)
  | getdata => do
    let (ptr, size) ← Mar.getdata
    let value ← deref (some ptr) size
    pure (.value value size)
  | getsize => do
    let size ← Mar.getsize
    pure (.int size)

/-- The pointers into the archive that a call returns. -/
def pointers : Reading → Call (Archive σ) Failure (List ℕ)
  | getn n => do
    let (ptr, _) ← readable (getfieldn n)
    pure ptr.toList
  | getp name => do
    let (ptr, _) ← readable (getfieldp name)
    pure ptr.toList
  | get n => do
    let field ← readable (getfield n)
    pure (field.name.toList ++ field.value.toList)
  | ntop n => do
    let ptr ← readable (fieldntop n)
    pure [ptr]
  | gettype => do
    let value ← Mar.gettype
    pure (value.map Prod.fst).toList
  | pton _ | seek _ _ | read _ | getdata | getsize => pure []

/-- Make the calls in order, whatever they return. -/
def performs : List Reading → Archive σ → Option (Archive σ)
  | [], mar => some mar
  | reading :: readings, mar => (reading.call mar).bind fun (_, mar) => performs readings mar

end Reading

/-- The archive whose memory ends at a limit, while its sizes are as they were. -/
def Archive.cut (limit : ℕ) (mar : Archive MFile) : Archive MemSeq :=
  { seq := { impl := { addr := mar.seq.impl.addr.map (List.take limit), len := mar.seq.impl.size }
             offset := mar.seq.offset
             len := mar.seq.len }
    info := mar.info
    flags := mar.flags
    offset := mar.offset }

/-- A call is safe: it is defined, so that it fails or examines bytes of the file only; if it is one on the header,
it examines and returns no byte behind the header region, and points to none in front of it. -/
structure Reading.SafeIn (reading : Reading) (mar : Archive MFile) : Prop where
  file : ¬reading.call.Undefined mar
  header : reading.ofHeader = true → ¬reading.call.Undefined (mar.cut (leadersize + mar.info.hsize))
  behind : ∀ ptrs after, reading.pointers.Returns mar ptrs after → ∀ ptr ∈ ptrs, leadersize ≤ ptr

/-- The walk over the fields does not pass the end of the header region. -/
def Archive.Walking (mar : Archive MFile) : Prop :=
  ∀ start mem after, openheader.Returns mar (start, mem) after →
    ∀ n < mar.info.fields, ∀ ptr ∈ walkn mem start n, ptr ≤ start + mar.info.hsize

/-- Reading is safe: after any calls so is every other, and the walk stays in the header. -/
def Archive.Safe (mar : Archive MFile) : Prop :=
  ∀ readings after, Reading.performs readings mar = some after →
    after.Walking ∧ ∀ reading : Reading, reading.SafeIn after

/-! ## What a file may say -/

/-- The bytes of a file that are mapped. -/
def mapped (file : List UInt8) : List UInt8 := file.take (u32 file.length)

/-- The numbers in the leader of a file. -/
def leader (file : List UInt8) : Info where
  proto := (decodeBE 2 file protooff).getD 0
  fields := (decodeBE 2 file fieldsoff).getD 0
  hsize := (decodeBE 4 file hsizeoff).getD 0
  bsize := (decodeBE 4 file bsizeoff).getD 0

/-- The file has a leader, which is that of an archive. -/
def HasLeader (file : List UInt8) : Prop :=
  leadersize ≤ (mapped file).length ∧ file.take magic.length = magic ∧ (leader file).proto = proto

/-- A field lies in a memory: its sizes, its name with a terminator, and its value without one. -/
def FieldInside (mem : List UInt8) (ptr : ℕ) : Prop :=
  ∃ nsize vsize, nsizeAt mem ptr = some nsize ∧ vsizeAt mem ptr = some vsize ∧ 0 < vsize ∧
    ptr + valueoff nsize + (vsize - 1) ≤ mem.length ∧ 0 ∈ mem.drop (ptr + nameoff)

/-- The header region is not one of the file, or every field that the walk comes to lies in both. -/
def HeaderInside (mem : List UInt8) (info : Info) : Prop :=
  mem.length < u32 (leadersize + info.hsize) ∨
    ∀ n < info.fields, ∃ ptr ∈ walkn (mem.take (leadersize + info.hsize)) leadersize n,
      FieldInside (mem.take (leadersize + info.hsize)) ptr

/-- The body region, as it is computed, is not one of the file, or it lies there. -/
def BodyInside (mem : List UInt8) (info : Info) : Prop :=
  mem.length < u32 (u32 (bodyoff info.hsize) + info.bsize) ∨ u32 (bodyoff info.hsize) + info.bsize ≤ mem.length

/-- A file whose numbers lead nowhere else. -/
def Contained (file : List UInt8) : Prop :=
  HasLeader file → HeaderInside (mapped file) (leader file) ∧ BodyInside (mapped file) (leader file)

end Aug.Mar
