import Aug.Lib.Call
import Aug.Lib.Heap
import Aug.Lib.Machine

/-!
# Growing strings

The strings of `xstr.c` in an explicit heap. The object of a string and its local buffer have the
address of the local buffer. The buffer is the end of the object: with a structure of 40 bytes and
the buffer at offset 32, it has 8 bytes more than `size_` says.
-/

namespace Aug.Util

open Aug.Lib

/-- The fields of `struct aug_xstr_`. The pool is that of the heap. -/
structure Xstr where
  len : ℕ
  size : ℕ
  ptr : ℕ

/-- The live blocks, and the fields of the live strings. -/
structure XMemory where
  heap : Heap UInt8
  xstrs : ℕ → Option Xstr

/-- A call on the memory, which may return an error. -/
abbrev XCall := Call XMemory Unit

/-- The answer of the pool to a request: null, or an address and what the new cells contain. -/
abbrev Alloc := Option (ℕ × (ℕ → UInt8))

/-- What a source pointer leads to: memory of the caller, or a block at an offset. -/
inductive Source where
  | caller (bytes : List UInt8)
  | block (addr offset : ℕ)

namespace Xstr

/-- Read the fields of a string. -/
def fields (x : ℕ) : XCall Xstr := do
  let mem ← Call.read
  Call.access (mem.xstrs x)

/-- Write the fields of a string. -/
def setfields (x : ℕ) (xstr : Xstr) : XCall Unit :=
  Call.modify fun mem => { mem with xstrs := Function.update mem.xstrs x (some xstr) }

/-- Read from a block. -/
def load (a i n : ℕ) : XCall (List UInt8) := do
  let mem ← Call.read
  Call.access (mem.heap.load a i n)

/-- Write to a block. -/
def store (a i : ℕ) (bytes : List UInt8) : XCall Unit := do
  let mem ← Call.read
  let heap ← Call.access (mem.heap.store a i bytes)
  Call.modify fun mem => { mem with heap }

/-- `aug_freemem`. -/
def freemem (a : ℕ) : XCall Unit := do
  let mem ← Call.read
  let heap ← Call.access (mem.heap.free a)
  Call.modify fun mem => { mem with heap }

/-- `aug_allocmem`. -/
def allocmem (alloc : Alloc) (size : ℕ) : XCall ℕ :=
  match alloc with
  | none => Call.fail ()
  | some (a, cells) => do
    Call.modify fun mem => { mem with heap := mem.heap.allocate a ((List.range size).map cells) }
    pure a

/-- `aug_reallocmem`: the block has the new size at the address in the answer, and none at the old one
unless it is the same. -/
def reallocmem (alloc : Alloc) (old size : ℕ) : XCall ℕ :=
  match alloc with
  | none => Call.fail ()
  | some (a, cells) => do
    let mem ← Call.read
    let content ← Call.access (mem.heap old)
    freemem old
    let block := (content ++ (List.range (size - content.length)).map cells).take size
    Call.modify fun mem => { mem with heap := mem.heap.allocate a block }
    pure a

/-- `resize_`. The result of the reallocation is not stored. -/
def resize (x size : ℕ) (alloc : Alloc) : XCall Unit := do
  let xstr ← fields x
  if xstr.ptr = x then
    let ptr ← allocmem alloc (u64 (size + 1))
    let content ← load xstr.ptr 0 size
    store ptr 0 content
    setfields x { xstr with ptr, size }
  else
    let _ ← reallocmem alloc xstr.ptr (u64 (size + 1))
    setfields x { xstr with size }

/-- `reserve_`. -/
def reserve (x size : ℕ) (alloc : Alloc) : XCall Unit := do
  let xstr ← fields x
  if size ≤ u64 (xstr.size - xstr.len) then pure ()
  else resize x (max (u64 (xstr.size * 2)) size) alloc

/-- Read from a source pointer. -/
def fetch (src : Source) (len : ℕ) : XCall (List UInt8) :=
  match src with
  | .caller bytes => Call.access (Lib.load bytes 0 len)
  | .block addr offset => load addr offset len

/-- The body of every append: reserve the space for `len` more bytes, then store what the source has at
the end and grow the length. -/
def append (x len : ℕ) (alloc : Alloc) (source : XCall (List UInt8)) : XCall Unit := do
  let xstr ← fields x
  reserve x (u64 (xstr.len + len)) alloc
  let xstr ← fields x
  let bytes ← source
  store xstr.ptr xstr.len bytes
  setfields x { xstr with len := u64 (xstr.len + bytes.length) }

/-- The content of a string, whose pointer is read when the content is. -/
def content (src len : ℕ) : XCall (List UInt8) := do
  let src ← fields src
  load src.ptr 0 len

/-- `xstrcat_`. -/
def xstrcat_ (x src len : ℕ) (alloc : Alloc) : XCall Unit :=
  if len = 0 then pure () else append x len alloc (content src len)

/-- `aug_createxstr`, with the address of the local buffer in the new object. -/
def createxstr (size x : ℕ) (cells : ℕ → UInt8) : XCall Unit :=
  let size := max 64 size
  let total := u64 (40 + size)
  if total < 40 then Call.access none
  else do
    let _ ← allocmem (some (x, cells)) (total - 32)
    setfields x { len := 0, size, ptr := x }

/-- `aug_destroyxstr`. -/
def destroyxstr (x : ℕ) : XCall Unit := do
  let xstr ← fields x
  if xstr.ptr ≠ x then freemem xstr.ptr
  freemem x
  Call.modify fun mem => { mem with xstrs := Function.update mem.xstrs x none }

/-- `aug_clearxstrn`. -/
def clearxstrn (x len : ℕ) : XCall Unit := do
  let xstr ← fields x
  if len < xstr.len then setfields x { xstr with len }

/-- `aug_clearxstr`. -/
def clearxstr (x : ℕ) : XCall Unit := clearxstrn x 0

/-- `aug_xstrcatsn`. -/
def xstrcatsn (x : ℕ) (src : Source) (len : ℕ) (alloc : Alloc) : XCall Unit :=
  if len = 0 then pure () else append x len alloc (fetch src len)

/-- `strlen`. -/
def strlen (text : List UInt8) : ℕ := (text.takeWhile (· ≠ 0)).length

/-- `aug_xstrcats`. -/
def xstrcats (x : ℕ) (text : Option (List UInt8)) (alloc : Alloc) : XCall Unit :=
  match text with
  | none => xstrcatsn x (.caller []) 0 alloc
  | some text => xstrcatsn x (.caller text) (strlen text) alloc

/-- `aug_xstrcat`. -/
def xstrcat (x src : ℕ) (alloc : Alloc) : XCall Unit := do
  let xstr ← fields src
  xstrcat_ x src xstr.len alloc

/-- `aug_xstrcpysn`. -/
def xstrcpysn (x : ℕ) (src : Source) (len : ℕ) (alloc : Alloc) : XCall Unit := do
  clearxstr x
  xstrcatsn x src len alloc

/-- `aug_xstrcpys`. -/
def xstrcpys (x : ℕ) (text : Option (List UInt8)) (alloc : Alloc) : XCall Unit :=
  match text with
  | none => xstrcpysn x (.caller []) 0 alloc
  | some text => xstrcpysn x (.caller text) (strlen text) alloc

/-- `aug_xstrcpy`. -/
def xstrcpy (x src : ℕ) (alloc : Alloc) : XCall Unit := do
  let xstr ← fields src
  clearxstr x
  xstrcat_ x src xstr.len alloc

/-- `aug_xstrcatcn`. -/
def xstrcatcn (x : ℕ) (ch : UInt8) (num : ℕ) (alloc : Alloc) : XCall Unit :=
  append x num alloc (pure (List.replicate num ch))

/-- `aug_xstrcatc`. -/
def xstrcatc (x : ℕ) (ch : UInt8) (alloc : Alloc) : XCall Unit := xstrcatcn x ch 1 alloc

/-- `aug_xstrcpycn`. -/
def xstrcpycn (x : ℕ) (ch : UInt8) (num : ℕ) (alloc : Alloc) : XCall Unit := do
  clearxstr x
  xstrcatcn x ch num alloc

/-- `aug_xstrcpyc`. -/
def xstrcpyc (x : ℕ) (ch : UInt8) (alloc : Alloc) : XCall Unit := xstrcpycn x ch 1 alloc

/-- `aug_read_BI`: what the stream reads, or its failure. -/
def read (result : Option (List UInt8)) : XCall (List UInt8) :=
  match result with
  | none => Call.fail ()
  | some bytes => pure bytes

/-- `aug_xstrread_BI`. -/
def xstrread (x size : ℕ) (result : Option (List UInt8)) (alloc : Alloc) : XCall Unit :=
  append x size alloc (read result)

/-- `aug_xstr`: the string is terminated, and its pointer returned. -/
def xstr (x : ℕ) : XCall ℕ := do
  let xstr ← fields x
  store xstr.ptr xstr.len [0]
  pure xstr.ptr

end Xstr

end Aug.Util
