import Aug.Lib.Memory
import Aug.Lib.Transition
import Mathlib.Data.Int.Notation
import Mathlib.Data.Nat.Notation
import Mathlib.Tactic.Linarith

/-!
# The buffers of an SSL channel

A buffer is a block with a read and a write pointer, which go back to the start of the block when the first
meets the second. The SSL library stores what it has read at the write pointer and takes what it writes from
the read pointer; the step of a buffer has the results of the library as arguments. An access outside of the
block is undefined.
-/

namespace Aug.Net.Ssl

open Lib

/-- `AUG_BUFSIZE`. -/
def bufsize : ℕ := 4096

/-- `struct buf_`, with the pointers as offsets. -/
structure Buf where
  cells : List UInt8
  rd : ℕ
  wr : ℕ
  deriving DecidableEq

/-- A difference of pointers as a `size_t`. -/
def sizet (n : ℤ) : ℕ := (n % 2 ^ 64).toNat

namespace Buf

/-- `bufempty_`. -/
def bufempty (x : Buf) : Bool := x.rd == x.wr

/-- `buffull_`. -/
def buffull (x : Buf) : Bool := x.wr == x.cells.length

/-- `clearbuf_`. -/
def clearbuf (x : Buf) : Buf := { x with rd := 0, wr := 0 }

/-- Move the read pointer, and clear the buffer if it caught the write pointer. -/
def advance (x : Buf) (n : ℕ) : Buf :=
  let x := { x with rd := x.rd + n }
  if x.bufempty then x.clearbuf else x

/-- `readbuf_`: the result with the bytes that have been copied. -/
def readbuf (x : Buf) (size : ℕ) : Option (ℕ × List UInt8 × Buf) :=
  let ret := min (sizet ((x.wr : ℤ) - x.rd)) size
  if ret = 0 then some (ret, [], x)
  else do
    let bytes ← load x.cells x.rd ret
    return (ret, bytes, x.advance ret)

/-- `writebuf_`: the result with the bytes that have been copied. -/
def writebuf (x : Buf) (buf : List UInt8) : Option (ℕ × List UInt8 × Buf) :=
  let ret := min (sizet ((x.cells.length : ℤ) - x.wr)) buf.length
  if ret = 0 then some (ret, [], x)
  else do
    let cells ← store x.cells x.wr (buf.take ret)
    return (ret, buf.take ret, { x with cells, wr := x.wr + ret })

/-- `readbufv_`, for the lengths of the vector. -/
def readbufv : Buf → List ℕ → Option (ℕ × List UInt8 × Buf)
  | x, [] => some (0, [], x)
  | x, size :: iov => do
    let (n, bytes, x) ← x.readbuf size
    if n < size then return (n, bytes, x)
    let (ret, others, x) ← readbufv x iov
    return (n + ret, bytes ++ others, x)

/-- `writebufv_`, for the entries of the vector. -/
def writebufv : Buf → List (List UInt8) → Option (ℕ × List UInt8 × Buf)
  | x, [] => some (0, [], x)
  | x, buf :: iov => do
    let (n, bytes, x) ← x.writebuf buf
    if n < buf.length then return (n, bytes, x)
    let (ret, others, x) ← writebufv x iov
    return (n + ret, bytes ++ others, x)

/-- `sslread_`, where `SSL_read` stores some bytes and returns `n`. -/
def sslread (x : Buf) (n : ℤ) (stored : List UInt8) : Option (ℤ × List UInt8 × Buf) := do
  let cells ← store x.cells x.wr stored
  if 0 < n then return (n, stored.take n.toNat, { x with cells, wr := x.wr + n.toNat })
  return (n, [], { x with cells })

/-- `sslwriteshake_`, where `SSL_write`, or else the handshake, returns `n`. -/
def sslwriteshake (x : Buf) (n : ℤ) : Option (ℤ × List UInt8 × Buf) :=
  if (x.wr : ℤ) - x.rd ≠ 0 then do
    let offered ← load x.cells x.rd ((x.wr : ℤ) - x.rd).toNat
    if 0 < n then return (n, offered.take n.toNat, x.advance n.toNat)
    return (n, [], x)
  else some (n, [], x)

/-- The buffer lies in its block and holds some bytes between its pointers. -/
structure Holds (x : Buf) (content : List UInt8) : Prop where
  size : x.cells.length = bufsize
  bound : x.wr ≤ bufsize
  order : x.wr = x.rd + content.length
  content : (x.cells.drop x.rd).take content.length = content

/-- The bytes between the pointers. -/
def content (x : Buf) : List UInt8 := (x.cells.drop x.rd).take (x.wr - x.rd)

/-- How much a buffer still takes. -/
def room (x : Buf) : ℕ := bufsize - x.wr

variable {x : Buf} {content bytes : List UInt8}

namespace Holds

theorem wr_sub (h : x.Holds content) : (x.wr : ℤ) - x.rd = content.length := by
  have horder := h.order
  omega

/-- A buffer holds what is between its pointers. -/
theorem content_eq (h : x.Holds content) : x.content = content := by
  rw [Buf.content, show x.wr - x.rd = content.length from by rw [h.order, Nat.add_sub_cancel_left], h.content]

theorem length_le (h : x.Holds content) : content.length ≤ bufsize := by
  have horder := h.order
  have hbound := h.bound
  omega

theorem bufempty_iff (h : x.Holds content) : x.bufempty = true ↔ content = [] := by
  have horder := h.order
  rw [bufempty, beq_iff_eq, ← List.length_eq_zero_iff]
  omega

theorem buffull_iff (h : x.Holds content) : x.buffull = true ↔ x.room = 0 := by
  have hbound := h.bound
  rw [buffull, beq_iff_eq, h.size, room]
  omega

/-- A cleared buffer. -/
theorem clear {cells : List UInt8} (hsize : cells.length = bufsize) : Holds ⟨cells, 0, 0⟩ [] :=
  ⟨hsize, Nat.zero_le _, rfl, rfl⟩

/-- What is read starts at the read pointer. -/
theorem load_take (h : x.Holds content) {n : ℕ} (hn : n ≤ content.length) :
    load x.cells x.rd n = some (content.take n) := by
  have hin : x.rd + n ≤ x.cells.length := by
    have horder := h.order
    have hbound := h.bound
    rw [h.size]
    omega
  have htake : (x.cells.drop x.rd).take n = content.take n := by
    rw [← h.content, List.take_take, min_eq_left hn]
  rw [load, if_pos hin, htake]

/-- The bytes behind the read pointer stay where they are. -/
theorem advance (h : x.Holds content) {n : ℕ} (hn : n ≤ content.length) :
    (x.advance n).Holds (content.drop n) := by
  have hmoved : Holds { x with rd := x.rd + n } (content.drop n) := by
    refine ⟨h.size, h.bound, ?_, ?_⟩
    · have horder := h.order
      simp only [List.length_drop]
      omega
    · have hcontent := congrArg (List.drop n) h.content
      rw [List.drop_take, List.drop_drop] at hcontent
      rw [List.length_drop]
      exact hcontent
  rw [Buf.advance]
  split_ifs with hempty
  · rw [hmoved.bufempty_iff.mp hempty]
    exact clear h.size
  · exact hmoved

/-- Bytes that are stored at the write pointer follow the others. -/
theorem store_append (h : x.Holds content) (hroom : bytes.length ≤ x.room) {n : ℕ} (hn : n ≤ bytes.length) :
    ∃ cells, store x.cells x.wr bytes = some cells ∧
      Holds { x with cells, wr := x.wr + n } (content ++ bytes.take n) := by
  have hbound := h.bound
  have horder := h.order
  rw [room] at hroom
  have hin : x.wr + bytes.length ≤ x.cells.length := by
    rw [h.size]
    omega
  refine ⟨_, if_pos hin, ?_, by dsimp only; omega, ?_, ?_⟩
  · rw [store_length (if_pos hin), h.size]
  · simp only [List.length_append, List.length_take, min_eq_left hn]
    omega
  · have hfront : (x.cells.take x.wr).drop x.rd = content := by
      rw [List.drop_take, show x.wr - x.rd = content.length from by omega, h.content]
    have hrd : x.rd ≤ (x.cells.take x.wr).length := by
      rw [List.length_take, h.size]
      omega
    rw [List.drop_append_of_le_length hrd, hfront, List.length_append, List.take_length_add_append,
      List.length_take, min_eq_left hn, List.take_append_of_le_length hn]

end Holds

/-- A difference of pointers that lies in the block. -/
theorem sizet_natCast {n : ℕ} (h : n ≤ bufsize) : sizet n = n := by
  rw [bufsize] at h
  rw [sizet]
  omega

/-- `readbuf_` takes as much as it can. -/
theorem readbuf_spec (h : x.Holds content) (size : ℕ) :
    ∃ y, x.readbuf size = some (min content.length size, content.take size, y) ∧ y.Holds (content.drop size) := by
  have hret : min (sizet ((x.wr : ℤ) - x.rd)) size = min content.length size := by
    rw [h.wr_sub, sizet_natCast h.length_le]
  have htake : content.take (min content.length size) = content.take size := by
    rw [List.take_eq_take_iff]
    omega
  have hdrop : content.drop (min content.length size) = content.drop size := by
    rcases le_total content.length size with hle | hle
    · rw [min_eq_left hle, List.drop_eq_nil_of_le (le_refl _), List.drop_eq_nil_of_le hle]
    · rw [min_eq_right hle]
  rw [readbuf]
  simp only [hret]
  split_ifs with hzero
  · rw [hzero, List.take_zero] at htake
    rw [hzero, List.drop_zero] at hdrop
    exact ⟨x, by rw [← htake], hdrop ▸ h⟩
  · refine ⟨x.advance (min content.length size), ?_, hdrop ▸ h.advance (min_le_left _ _)⟩
    rw [h.load_take (min_le_left _ _), htake]
    rfl

/-- `writebuf_` puts as much as fits. -/
theorem writebuf_spec (h : x.Holds content) (buf : List UInt8) :
    ∃ y, x.writebuf buf = some (min x.room buf.length, buf.take x.room, y) ∧
      y.Holds (content ++ buf.take x.room) ∧ y.room = x.room - buf.length := by
  have hbound := h.bound
  have hret : min (sizet ((x.cells.length : ℤ) - x.wr)) buf.length = min x.room buf.length := by
    rw [h.size, room, ← Nat.cast_sub hbound, sizet_natCast (Nat.sub_le _ _)]
  have htake : buf.take (min x.room buf.length) = buf.take x.room := by
    rw [List.take_eq_take_iff]
    omega
  rw [writebuf]
  simp only [hret]
  split_ifs with hzero
  · rw [hzero, List.take_zero] at htake
    refine ⟨x, by rw [← htake], ?_, ?_⟩
    · rw [← htake, List.append_nil]
      exact h
    · omega
  · have hlength : (buf.take x.room).length = min x.room buf.length := List.length_take
    obtain ⟨cells, hstore, hnew⟩ :=
      h.store_append (show (buf.take x.room).length ≤ x.room from by omega) (le_refl _)
    rw [List.take_length, hlength] at hnew
    refine ⟨_, ?_, hnew, ?_⟩
    · rw [htake, hstore]
      rfl
    · simp only [room]
      omega

/-- `readbufv_` takes as much as it can for all of its entries. -/
theorem readbufv_spec (h : x.Holds content) (iov : List ℕ) :
    ∃ y, x.readbufv iov = some (min content.length iov.sum, content.take iov.sum, y) ∧
      y.Holds (content.drop iov.sum) := by
  induction iov generalizing x content with
  | nil => exact ⟨x, by simp [readbufv], h⟩
  | cons size iov ih =>
    obtain ⟨y, hy, hholds⟩ := readbuf_spec h size
    rw [List.sum_cons]
    by_cases hshort : min content.length size < size
    · have hlength : content.length < size := by omega
      have htake : content.take size = content.take (size + iov.sum) := by
        rw [List.take_of_length_le hlength.le, List.take_of_length_le (by omega)]
      have hdrop : content.drop size = content.drop (size + iov.sum) := by
        rw [List.drop_eq_nil_of_le hlength.le, List.drop_eq_nil_of_le (by omega)]
      refine ⟨y, ?_, hdrop ▸ hholds⟩
      simp only [readbufv, hy, Option.bind_eq_bind, Option.bind_some, if_pos hshort, htake, Option.pure_def,
        Option.some.injEq, Prod.mk.injEq, and_true]
      omega
    · have hlength : size ≤ content.length := by omega
      obtain ⟨z, hz, hrest⟩ := ih hholds
      refine ⟨z, ?_, by rwa [List.drop_drop] at hrest⟩
      simp only [readbufv, hy, Option.bind_eq_bind, Option.bind_some, if_neg hshort, hz, List.take_add, Option.pure_def,
        Option.some.injEq, Prod.mk.injEq, and_true, List.length_drop]
      omega

/-- `writebufv_` puts as much as fits of all of its entries. -/
theorem writebufv_spec (h : x.Holds content) (iov : List (List UInt8)) :
    ∃ y, x.writebufv iov = some (min x.room iov.flatten.length, iov.flatten.take x.room, y) ∧
      y.Holds (content ++ iov.flatten.take x.room) := by
  induction iov generalizing x content with
  | nil => exact ⟨x, by simp [writebufv], by simpa using h⟩
  | cons buf iov ih =>
    obtain ⟨y, hy, hholds, hroom⟩ := writebuf_spec h buf
    rw [List.flatten_cons, List.length_append, List.take_append]
    by_cases hshort : min x.room buf.length < buf.length
    · have hnone : x.room - buf.length = 0 := by omega
      refine ⟨y, ?_, by simpa [hnone] using hholds⟩
      simp only [writebufv, hy, Option.bind_eq_bind, Option.bind_some, if_pos hshort, hnone, List.take_zero,
        List.append_nil, Option.pure_def, Option.some.injEq, Prod.mk.injEq, and_true]
      omega
    · obtain ⟨z, hz, hrest⟩ := ih hholds
      rw [hroom] at hz hrest
      refine ⟨z, ?_, by rwa [List.append_assoc] at hrest⟩
      simp only [writebufv, hy, Option.bind_eq_bind, Option.bind_some, if_neg hshort, hz, Option.pure_def,
        Option.some.injEq, Prod.mk.injEq, and_true]
      omega

/-- `sslread_` keeps as much as the library says. -/
theorem sslread_spec (h : x.Holds content) {n : ℤ} {stored : List UInt8} (hroom : stored.length ≤ x.room)
    (hn : n.toNat ≤ stored.length) :
    ∃ y, x.sslread n stored = some (n, stored.take n.toNat, y) ∧ y.Holds (content ++ stored.take n.toNat) := by
  obtain ⟨cells, hstore, hholds⟩ := h.store_append hroom hn
  by_cases hpos : 0 < n
  · exact ⟨_, by simp [sslread, hstore, hpos], hholds⟩
  · have hzero : n.toNat = 0 := by omega
    simp only [hzero, Nat.add_zero] at hholds ⊢
    exact ⟨_, by simp [sslread, hstore, hpos], hholds⟩

/-- `sslwriteshake_` drops as much as the library says. -/
theorem sslwriteshake_spec (h : x.Holds content) {n : ℤ} (hn : content = [] ∨ n.toNat ≤ content.length) :
    ∃ y, x.sslwriteshake n = some (n, content.take n.toNat, y) ∧ y.Holds (content.drop n.toNat) := by
  by_cases hempty : content = []
  · subst hempty
    exact ⟨x, by simp [sslwriteshake, h.wr_sub], by simpa using h⟩
  · have hlength : n.toNat ≤ content.length := hn.resolve_left hempty
    have hsub : ¬(content.length : ℤ) = 0 := by
      rw [Nat.cast_eq_zero, List.length_eq_zero_iff]
      exact hempty
    have hload := h.load_take (le_refl content.length)
    rw [List.take_length] at hload
    by_cases hpos : 0 < n
    · refine ⟨x.advance n.toNat, ?_, h.advance hlength⟩
      simp [sslwriteshake, h.wr_sub, hload, hpos, hempty]
    · have hzero : n.toNat = 0 := by omega
      refine ⟨x, ?_, by simpa [hzero] using h⟩
      simp [sslwriteshake, h.wr_sub, hload, hpos, hempty, hzero]

end Buf

end Aug.Net.Ssl
