import Aug.Lib.Machine
import Aug.Lib.Transition

/-!
# The blob writer

The queue of `writer.c` as a system with the stream that it writes to. The stream accepts any number
of the bytes it is offered, or fails. A byte that the stream reads from behind the end of a blob is
recorded as missing.
-/

namespace Aug.Net

open Aug.Lib

/-- What `aug_getblobdata` returns for a blob: its bytes, or null. -/
abbrev Blob := Option (List UInt8)

/-- The writer: the queue, and the offset into its first blob. -/
structure Writer where
  list : List Blob
  part : ℕ
  deriving DecidableEq

/-- An entry of the vector: the bytes from its base to the end of the blob, and `iov_len`. -/
structure IoVec where
  base : List UInt8
  len : ℕ

namespace Writer

/-- `aug_createwriter`. -/
def create : Writer := ⟨[], 0⟩

/-- `size_`, which counts the queue in an `unsigned`. -/
def size (writer : Writer) : ℕ := u32 writer.list.length

/-- The entry for a blob. The length goes through an `int`. -/
def mapped (blob : Blob) : Option IoVec := blob.map fun data => ⟨data, u64 (i32 data.length)⟩

/-- Add the offset to the first entry. -/
def offset (part : ℕ) : List IoVec → List IoVec
  | [] => []
  | iov :: rest => ⟨iov.base.drop part, u64 (iov.len - i32 part)⟩ :: rest

/-- The vector of at most 64 entries, if every blob has data. -/
def vector (writer : Writer) : Option (List IoVec) :=
  ((writer.list.take (min writer.size 64)).mapM mapped).map (offset writer.part)

/-- `aug_iovsum`. -/
def iovsum (iovs : List IoVec) : ℕ := (iovs.map IoVec.len).sum

/-- The first `num` bytes from a base. -/
def slice (base : List UInt8) (num : ℕ) : List (Option UInt8) :=
  (base.take num).map some ++ List.replicate (num - base.length) none

/-- The first `num` bytes that the vector describes. -/
def gather : List IoVec → ℕ → List (Option UInt8)
  | [], _ => []
  | iov :: rest, num => slice iov.base (min num iov.len) ++ gather rest (num - iov.len)

/-- `popbufs_`: pop the blobs that are completed, and store what is left as the offset. -/
def popbufs : List Blob → List IoVec → ℕ → Writer
  | list, [], num => ⟨list, num⟩
  | list, iov :: rest, num =>
    if num ≠ 0 ∧ iov.len ≤ num then popbufs list.tail rest (num - iov.len) else ⟨list, num⟩

/-- `aug_appendwriter`, with the result of the allocation. -/
def append (writer : Writer) (blob : Blob) (allocated : Bool) : Writer :=
  if allocated then { writer with list := writer.list ++ [blob] } else writer

/-- The bytes of a queue. -/
def bytes (list : List Blob) : List UInt8 := list.flatMap fun blob => blob.getD []

/-- The bytes that have still to be written. -/
def pending (writer : Writer) : List UInt8 := (bytes writer.list).drop writer.part

end Writer

/-- A writer, the bytes of all blobs that were appended, and the bytes that the stream has accepted. -/
structure Writing where
  writer : Writer
  appended : List UInt8
  accepted : List (Option UInt8)
  deriving DecidableEq

/-- A call of `aug_appendwriter`, or of `aug_writesome_BI` with the result of `aug_writev_BI`. -/
inductive WriterAction where
  | append (blob : Blob) (allocated : Bool)
  | writesome (rsize : Option ℕ)

namespace Writing

open Writer

/-- Nothing has been appended. -/
def create : Writing := ⟨.create, [], []⟩

/-- `aug_writesome_BI`. The stream accepts no more than it is offered. -/
def writesome (state : Writing) (rsize : Option ℕ) : Option Writing :=
  if min state.writer.size 64 = 0 then some state
  else
    match state.writer.vector, rsize with
    | none, _ => some state
    | some _, none => some state
    | some iovs, some num =>
      if num ≤ iovsum iovs then
        some { state with
          writer := popbufs state.writer.list iovs num
          accepted := state.accepted ++ gather iovs num }
      else none

/-- One call. -/
def step (state : Writing) : WriterAction → Option Writing
  | .append blob allocated =>
    some { state with
      writer := state.writer.append blob allocated
      appended := state.appended ++ if allocated then blob.getD [] else [] }
  | .writesome rsize => state.writesome rsize

/-- The stream has a prefix of what was appended, and the rest is pending. -/
def Intact (state : Writing) : Prop :=
  state.accepted ++ state.writer.pending.map some = state.appended.map some

end Writing

end Aug.Net
