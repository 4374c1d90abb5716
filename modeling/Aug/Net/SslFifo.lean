import Aug.Lib.Transition
import Aug.Net.SslBuffer

/-!
# The buffers of an SSL channel as queues

A run of steps on one buffer, in any order, with the bytes that have been put in and taken out so far. Every step
puts its bytes behind the ones that the buffer holds and takes its bytes from their front, so that what has been
put in is what has been taken out with what is still held behind it.
-/

namespace Aug.Net.Ssl

open Lib

/-- A step on a buffer, with what the SSL library does there. -/
inductive BufCall where
  | readbuf (size : ℕ)
  | writebuf (buf : List UInt8)
  | readbufv (iov : List ℕ)
  | writebufv (iov : List (List UInt8))
  | sslread (n : ℤ) (stored : List UInt8)
  | sslwriteshake (n : ℤ)

/-- What a step reports, with the bytes that it has put in and taken out. -/
structure Report where
  ret : ℤ
  put : List UInt8
  taken : List UInt8

namespace BufCall

/-- One step of a buffer. -/
def act (x : Buf) : BufCall → Option (Report × Buf)
  | .readbuf size => (x.readbuf size).map fun (ret, bytes, x) => (⟨ret, [], bytes⟩, x)
  | .writebuf buf => (x.writebuf buf).map fun (ret, bytes, x) => (⟨ret, bytes, []⟩, x)
  | .readbufv iov => (x.readbufv iov).map fun (ret, bytes, x) => (⟨ret, [], bytes⟩, x)
  | .writebufv iov => (x.writebufv iov).map fun (ret, bytes, x) => (⟨ret, bytes, []⟩, x)
  | .sslread n stored => (x.sslread n stored).map fun (ret, bytes, x) => (⟨ret, bytes, []⟩, x)
  | .sslwriteshake n => (x.sslwriteshake n).map fun (ret, bytes, x) => (⟨ret, [], bytes⟩, x)

/-- What the library promises: it stores no more than it was offered room for, and what it counts has been stored
or offered. -/
def Kept (x : Buf) : BufCall → Prop
  | .sslread n stored => stored.length ≤ x.cells.length - x.wr ∧ n.toNat ≤ stored.length
  | .sslwriteshake n => x.bufempty = true ∨ n.toNat ≤ x.wr - x.rd
  | _ => True

instance (x : Buf) : DecidablePred (Kept x)
  | .readbuf _ => .isTrue trivial
  | .writebuf _ => .isTrue trivial
  | .readbufv _ => .isTrue trivial
  | .writebufv _ => .isTrue trivial
  | .sslread n stored => inferInstanceAs (Decidable (stored.length ≤ x.cells.length - x.wr ∧ n.toNat ≤ stored.length))
  | .sslwriteshake n => inferInstanceAs (Decidable (x.bufempty = true ∨ n.toNat ≤ x.wr - x.rd))

/-- A step reports how much it has moved. The library counts only what is positive, and a handshake moves nothing. -/
def Counted (x : Buf) (report : Report) : BufCall → Prop
  | .readbuf _ | .readbufv _ => report.put = [] ∧ report.ret = report.taken.length
  | .writebuf _ | .writebufv _ => report.taken = [] ∧ report.ret = report.put.length
  | .sslread n _ => report.taken = [] ∧ report.ret = n ∧ report.put.length = n.toNat
  | .sslwriteshake n =>
    report.put = [] ∧ report.ret = n ∧ report.taken.length = if x.bufempty then 0 else n.toNat

end BufCall

variable {x : Buf} {content : List UInt8}

/-- What a step has done to a buffer that holds some bytes. -/
structure Moved (x : Buf) (content : List UInt8) (call : BufCall) (report : Report) (next : Buf) : Prop where
  act : call.act x = some (report, next)
  kept : ∃ rest, next.Holds rest ∧ content ++ report.put = report.taken ++ rest
  counted : call.Counted x report

/-- Bytes that are taken leave the others. -/
theorem taken_append (content : List UInt8) (n : ℕ) : content ++ [] = content.take n ++ content.drop n := by
  rw [List.append_nil, List.take_append_drop]

/-- Every step moves bytes as a queue does. -/
theorem act_moved (h : x.Holds content) (call : BufCall) (hkept : call.Kept x) :
    ∃ report next, Moved x content call report next := by
  cases call with
  | readbuf size =>
    obtain ⟨y, hy, hholds⟩ := Buf.readbuf_spec h size
    exact ⟨_, y, by rw [BufCall.act, hy]; rfl, ⟨_, hholds, taken_append content size⟩, rfl, by simp [min_comm]⟩
  | writebuf buf =>
    obtain ⟨y, hy, hholds, -⟩ := Buf.writebuf_spec h buf
    exact ⟨_, y, by rw [BufCall.act, hy]; rfl, ⟨_, hholds, rfl⟩, rfl, by simp⟩
  | readbufv iov =>
    obtain ⟨y, hy, hholds⟩ := Buf.readbufv_spec h iov
    exact ⟨_, y, by rw [BufCall.act, hy]; rfl, ⟨_, hholds, taken_append content iov.sum⟩, rfl, by simp [min_comm]⟩
  | writebufv iov =>
    obtain ⟨y, hy, hholds⟩ := Buf.writebufv_spec h iov
    exact ⟨_, y, by rw [BufCall.act, hy]; rfl, ⟨_, hholds, rfl⟩, rfl, by simp⟩
  | sslread n stored =>
    obtain ⟨hroom, hn⟩ := hkept
    rw [h.size] at hroom
    obtain ⟨y, hy, hholds⟩ := Buf.sslread_spec h hroom hn
    exact ⟨_, y, by rw [BufCall.act, hy]; rfl, ⟨_, hholds, rfl⟩, rfl, rfl, by simpa using hn⟩
  | sslwriteshake n =>
    have horder := h.order
    have hn : content = [] ∨ n.toNat ≤ content.length := by
      rcases hkept with hempty | hle
      · exact .inl (h.bufempty_iff.mp hempty)
      · exact .inr (by omega)
    obtain ⟨y, hy, hholds⟩ := Buf.sslwriteshake_spec h hn
    refine ⟨_, y, by rw [BufCall.act, hy]; rfl, ⟨_, hholds, taken_append content n.toNat⟩, rfl, rfl, ?_⟩
    split_ifs with hempty
    · simp [h.bufempty_iff.mp hempty]
    · rw [h.bufempty_iff] at hempty
      simpa using hn.resolve_left hempty

/-- A buffer with the bytes that have been put in and taken out. -/
structure BufHistory where
  buf : Buf
  put : List UInt8
  taken : List UInt8

namespace BufHistory

/-- A buffer that has been cleared. -/
def create (cells : Vector UInt8 bufsize) : BufHistory := ⟨⟨cells.toList, 0, 0⟩, [], []⟩

/-- One step, where the library keeps its promise. -/
def step (s : BufHistory) (call : BufCall) : Option BufHistory :=
  if call.Kept s.buf then
    (call.act s.buf).map fun (report, buf) => ⟨buf, s.put ++ report.put, s.taken ++ report.taken⟩
  else none

/-- What has been put in is what has been taken out with what is held behind it. -/
def Sound (s : BufHistory) : Prop := ∃ content, s.buf.Holds content ∧ s.put = s.taken ++ content

theorem create_sound (cells : Vector UInt8 bufsize) : (create cells).Sound :=
  ⟨[], Buf.Holds.clear (by simp), rfl⟩

theorem step_sound {s next : BufHistory} {call : BufCall} (hs : s.Sound) (h : s.step call = some next) : next.Sound := by
  obtain ⟨content, hholds, hput⟩ := hs
  rw [step] at h
  split_ifs at h with hkept
  obtain ⟨report, buf, hact, ⟨rest, hrest, hmoved⟩, -⟩ := act_moved hholds call hkept
  rw [hact, Option.map_some, Option.some.injEq] at h
  subst h
  exact ⟨rest, hrest, by simp only [hput, List.append_assoc, hmoved]⟩

end BufHistory

/-- The pointers keep their order, the bytes taken out are the first of those put in, and every further step is
defined and reports what it has moved. -/
structure Fifo (s : BufHistory) : Prop where
  order : s.buf.rd ≤ s.buf.wr
  bound : s.buf.wr ≤ s.buf.cells.length
  front : s.taken <+: s.put
  counted : ∀ call, BufCall.Kept s.buf call →
    ∃ report next, call.act s.buf = some (report, next) ∧ call.Counted s.buf report

/-- After any steps on a cleared buffer, with any results of the library, the buffer is a queue. -/
theorem buffer_fifo (cells : Vector UInt8 bufsize) (calls : List BufCall) (s : BufHistory)
    (h : run BufHistory.step (.create cells) calls = some s) : Fifo s := by
  obtain ⟨content, hholds, hput⟩ :=
    run_invariant (fun _ _ _ => BufHistory.step_sound) (BufHistory.create_sound cells) h
  have horder := hholds.order
  constructor
  · omega
  · rw [hholds.size]
    exact hholds.bound
  · exact hput ▸ List.prefix_append s.taken content
  · intro call hkept
    obtain ⟨report, next, hact, -, hcounted⟩ := act_moved hholds call hkept
    exact ⟨report, next, hact, hcounted⟩

/-- A short write of the library, and a vector with more room than there are bytes. -/
theorem buffer_fifo_short : ∃ s, run BufHistory.step (.create (.replicate bufsize 0))
    [.writebuf [1, 2, 3], .sslwriteshake 2, .readbufv [4, 4]] = some s ∧ s.taken = [1, 2, 3] ∧ Fifo s := by
  have hrun : (run BufHistory.step (.create (.replicate bufsize 0))
      [.writebuf [1, 2, 3], .sslwriteshake 2, .readbufv [4, 4]]).map BufHistory.taken = some [1, 2, 3] := by
    decide +kernel
  obtain ⟨s, hs, htaken⟩ := Option.map_eq_some_iff.mp hrun
  exact ⟨s, hs, htaken, buffer_fifo _ _ _ hs⟩

/-- A handshake on an empty buffer reports 1, and no byte has been moved. -/
theorem handshake_moves_nothing : ¬∀ (cells : Vector UInt8 bufsize) (calls : List BufCall) (s : BufHistory),
    run BufHistory.step (.create cells) calls = some s →
      s.buf.rd ≤ s.buf.wr ∧ s.buf.wr ≤ s.buf.cells.length ∧ s.taken <+: s.put ∧
        ∀ call report next, BufCall.Kept s.buf call → call.act s.buf = some (report, next) →
          report.ret = report.put.length + report.taken.length := by
  intro h
  obtain ⟨-, -, -, hcounted⟩ := h (.replicate bufsize 0) [] _ rfl
  exact absurd (hcounted (.sslwriteshake 1) ⟨1, [], []⟩ _ (.inl rfl) rfl) (by decide)

end Aug.Net.Ssl
