import Aug.Aspp.Conn
import Aug.Net.Writer

/-!
# The output buffer of a connection

The buffer of `buffer.cpp` over the blob writer, and a connection whose write would block. The exception
for a write that blocks is not caught where the write is made, so that it reaches `readychan_`, which then
gives the channel up. The exception is not thrown if the mask leaves it out, but then the buffer takes the
result of the write for its size.
-/

namespace Aug.Aspp

open Aug.Lib Aug.Net

/-- An entry of the writer: the internal blob of the buffer, or another blob. -/
inductive Queued where
  | inner
  | outer (blob : Blob)
  deriving DecidableEq

/-- `buffer`, with the queue and the offset of its writer. -/
structure Buffer where
  list : List Queued
  part : ℕ
  blob : List UInt8
  reuse : Bool
  size : UInt64
  deriving DecidableEq

namespace Buffer

/-- A new buffer. -/
def create : Buffer := ⟨[], 0, [], true, 0⟩

/-- The data of an entry. -/
def data (buffer : Buffer) : Queued → Blob
  | .inner => some buffer.blob
  | .outer blob => blob

/-- The writer. -/
def writer (buffer : Buffer) : Writer := ⟨buffer.list.map buffer.data, buffer.part⟩

/-- `empty`. -/
def empty (buffer : Buffer) : Bool := buffer.list.isEmpty

/-- `append` for bytes. -/
def append (buffer : Buffer) (bytes : List UInt8) (memory : Memory) : Option Exception × Buffer :=
  if buffer.reuse then
    if buffer.empty ∧ memory = .entry then (some .error, buffer)
    else
      let list := if buffer.empty then buffer.list ++ [.inner] else buffer.list
      if memory = .bytes then (some .error, { buffer with list })
      else
        (none, { buffer with list, blob := buffer.blob ++ bytes, size := buffer.size + .ofNat bytes.length })
  else if memory = .enough then
    (none, { buffer with
      list := buffer.list ++ [.outer (some bytes)]
      size := buffer.size + .ofNat bytes.length })
  else (some .error, buffer)

/-- `append` for a blob. -/
def appendblob (buffer : Buffer) (bytes : List UInt8) (memory : Memory) : Option Exception × Buffer :=
  if memory = .enough then
    (none, { buffer with
      list := buffer.list ++ [.outer (some bytes)]
      reuse := false
      size := buffer.size + .ofNat bytes.length })
  else (some .error, buffer)

/-- What the writer has popped is released. The internal blob is reset with its last reference. -/
def pop (buffer : Buffer) (writer : Writer) : Buffer :=
  let num := buffer.list.length - writer.list.length
  { buffer with
    list := buffer.list.drop num
    part := writer.part
    blob := if .inner ∈ buffer.list.take num then [] else buffer.blob }

/-- The end of `writesome_BI`, for the result of the writer. -/
def settle (buffer : Buffer) (size : ℕ) : Buffer :=
  { buffer with
    size := buffer.size - min buffer.size (.ofNat size)
    reuse := buffer.reuse || buffer.empty }

/-- `writesome_BI`, for the result of `aug_writev_BI`. -/
def writesome (mask : UInt32) (buffer : Buffer) (rsize : Except Exception ℕ) : Wrote Buffer :=
  if min buffer.writer.size 64 = 0 then ⟨.ok 0, [], buffer.settle 0⟩
  else
    match buffer.writer.vector with
    | none => ⟨.error .error, [], buffer⟩
    | some iovs =>
      match rsize, verify mask rsize with
      | _, .error except => ⟨.error except, [], buffer⟩
      | .error _, .ok size => ⟨.ok size, [], buffer.settle size⟩
      | .ok _, .ok size =>
        ⟨.ok size, Writer.gather iovs size, (buffer.pop (Writer.popbufs buffer.writer.list iovs size)).settle size⟩

/-- The buffer as the queue of a connection. -/
def queue : WriteQueue Buffer := ⟨empty, fun buffer => buffer.size.toNat, append, appendblob, writesome⟩

/-- A write comes to the stream. -/
def Writable (buffer : Buffer) : Prop := min buffer.writer.size 64 ≠ 0 ∧ buffer.writer.vector.isSome

instance (buffer : Buffer) : Decidable buffer.Writable :=
  inferInstanceAs (Decidable (min buffer.writer.size 64 ≠ 0 ∧ buffer.writer.vector.isSome))

variable {buffer : Buffer} {mask : UInt32}

/-- What can be written is not empty. -/
theorem writable_nonempty (h : buffer.Writable) : buffer.empty = false := by
  cases hlist : buffer.list with
  | nil =>
    exfalso
    apply h.1
    simp [writer, Writer.size, hlist, u32]
  | cons entry rest => simp [empty, hlist]

/-- The result of a failed write is not less than any size. -/
theorem sub_min_max (size : UInt64) : size - min size (.ofNat (u64 (-1))) = 0 := by
  have hle : size ≤ .ofNat (u64 (-1)) := by
    rw [UInt64.le_iff_toNat_le]
    have hlt := size.toNat_lt
    have hmax : (UInt64.ofNat (u64 (-1))).toNat = 2 ^ 64 - 1 := by decide +kernel
    omega
  have hmin : min size (.ofNat (u64 (-1))) = size := if_pos hle
  rw [hmin, UInt64.sub_self]

/-- A buffer that is not empty goes on with the blobs it has. -/
theorem settle_nonempty (h : buffer.empty = false) (size : ℕ) :
    buffer.settle size = { buffer with size := buffer.size - min buffer.size (.ofNat size) } := by
  rw [settle, h, Bool.or_false]

/-- With the exception in the mask, a write that blocks throws. -/
theorem writesome_throws (h : buffer.Writable) (hmask : mask &&& Exception.block.code ≠ 0) :
    buffer.writesome mask (.error .block) = ⟨.error .block, [], buffer⟩ := by
  obtain ⟨iovs, hiovs⟩ := Option.isSome_iff_exists.mp h.2
  have hverify : verify mask (.error .block) = .error .block := by
    rw [verify, throwexcept, if_pos hmask]
    exact fun h => nomatch h
  rw [writesome, if_neg h.1, hiovs]
  simp only [hverify]

/-- Without it, the buffer takes the result for a size. -/
theorem writesome_swallows (h : buffer.Writable) (hmask : mask &&& Exception.block.code = 0) :
    buffer.writesome mask (.error .block) =
      ⟨.ok (u64 (-1)), [], { buffer with size := 0 }⟩ := by
  obtain ⟨iovs, hiovs⟩ := Option.isSome_iff_exists.mp h.2
  have hverify : verify mask (.error .block) = .ok (u64 (-1)) := by
    rw [verify, throwexcept, if_neg (not_not.mpr hmask)]
    exact fun h => nomatch h
  rw [writesome, if_neg h.1, hiovs]
  simp only [hverify, settle_nonempty (writable_nonempty h), sub_min_max]

end Buffer

end Aug.Aspp
