import Aug.Aspp.Buffer

/-!
# A write that would block

What `readychan_` does with a connection whose write blocks. The read part of `process_BI` catches the
exception, but the write part does not. Only where the mask leaves the exception out is the channel kept,
and then the size of the buffer is lost.
-/

namespace Aug.Aspp

open Aug.Lib Aug.Sys

namespace Conn

/-- The channel is kept, and the buffer and the wish to write are as they were. -/
def Harmless (before : Conn Buffer) (ready : Bool × Conn Buffer) : Prop :=
  ready.1 = true ∧ ready.2.buffer = before.buffer ∧ ready.2.wantwr = before.wantwr

instance (before : Conn Buffer) (ready : Bool × Conn Buffer) : Decidable (Harmless before ready) :=
  inferInstanceAs (Decidable (_ ∧ _))

/-- The write timer is reset, or there is none. -/
def Reset (outcome : Option Exception) : Prop := outcome = none ∨ outcome = some .none

variable {conn next : Conn Buffer} {mask : UInt32} {outcome : WriteOutcome}

theorem returns_resetrwtimer {Q : Type} {timer : Option Exception} (h : Reset timer) (conn : Conn Q) :
    (resetrwtimer timer).Returns conn () conn := by
  cases h with
  | inl h => rw [h]; rfl
  | inr h => rw [h]; rfl

/-- Any other result of the reset is thrown. -/
theorem fails_resetrwtimer {Q : Type} {timer : Option Exception} (h : ¬Reset timer) (conn : Conn Q) :
    ∃ except, (resetrwtimer timer).Fails conn except conn := by
  match timer with
  | none => exact absurd (Or.inl rfl) h
  | some .none => exact absurd (Or.inr rfl) h
  | some .error => exact ⟨.error, rfl⟩
  | some .intr => exact ⟨.intr, rfl⟩
  | some .block => exact ⟨.block, rfl⟩

/-- The connection after a write that has left the buffer with this state. -/
def wrote (conn : Conn Buffer) (buffer : Buffer) : Conn Buffer :=
  { conn with buffer, events := conn.events ++ [.write []] }

/-- With the exception in the mask, it is thrown out of the write part. -/
theorem processwr_throws (hwritable : conn.buffer.Writable) (hblock : outcome.write = .error .block)
    (hmask : mask &&& Exception.block.code ≠ 0) (now : Timeval) :
    (processwr Buffer.queue mask outcome now).Fails conn .block (conn.wrote conn.buffer) := by
  have hwrote : Buffer.queue.writesome mask conn.buffer outcome.write = ⟨.error .block, [], conn.buffer⟩ := by
    rw [hblock]
    exact Buffer.writesome_throws hwritable hmask
  apply (Call.returns_read conn).bind_fails
  apply (Call.returns_modify _ conn).bind_fails
  rw [hwrote]
  exact Call.fails_fail _ _

/-- Without it, a failure of the timer is still thrown. -/
theorem processwr_timer (hwritable : conn.buffer.Writable) (hblock : outcome.write = .error .block)
    (hmask : mask &&& Exception.block.code = 0) (htimer : ¬Reset outcome.timer) (now : Timeval) :
    ∃ except last, (processwr Buffer.queue mask outcome now).Fails conn except last := by
  have hwrote : Buffer.queue.writesome mask conn.buffer outcome.write =
      ⟨.ok (u64 (-1)), [], { conn.buffer with size := 0 }⟩ := by
    rw [hblock]
    exact Buffer.writesome_swallows hwritable hmask
  obtain ⟨except, hfails⟩ := fails_resetrwtimer htimer (conn.wrote { conn.buffer with size := 0 })
  use except, conn.wrote { conn.buffer with size := 0 }
  apply (Call.returns_read conn).bind_fails
  apply (Call.returns_modify _ conn).bind_fails
  rw [hwrote]
  exact hfails.bind

/-- Otherwise the write part ends as after a partial write, and the buffer has lost its size. -/
theorem processwr_swallows (hwritable : conn.buffer.Writable) (hblock : outcome.write = .error .block)
    (hmask : mask &&& Exception.block.code = 0) (htimer : Reset outcome.timer) (now : Timeval) :
    (processwr Buffer.queue mask outcome now).Returns conn ()
      { conn.wrote { conn.buffer with size := 0 } with since := now } := by
  have hwrote : Buffer.queue.writesome mask conn.buffer outcome.write =
      ⟨.ok (u64 (-1)), [], { conn.buffer with size := 0 }⟩ := by
    rw [hblock]
    exact Buffer.writesome_swallows hwritable hmask
  have hempty : Buffer.queue.empty { conn.buffer with size := 0 } = false := Buffer.writable_nonempty hwritable
  apply (Call.returns_read conn).bind
  apply (Call.returns_modify _ conn).bind
  rw [hwrote]
  apply (returns_resetrwtimer htimer _).bind
  apply (Call.returns_read _).bind
  dsimp only
  rw [hempty]
  rfl

/-- A write that blocks is harmless exactly if the mask leaves the exception out, the buffer has no size that could be
lost, the connection is open, and the timer can be reset. -/
theorem blocked_iff {rd : Bool} {result : Except Exception (List UInt8)} {timer : Option Exception}
    {recv : ℕ → Conn Buffer → Conn Buffer} (hreceive : receive mask rd result timer recv conn = some next)
    (hwritable : next.buffer.Writable) (hblock : outcome.write = .error .block) (now : Timeval) :
    Harmless next (readychan Buffer.queue mask rd true result timer recv outcome now conn) ↔
      mask &&& Exception.block.code = 0 ∧ next.buffer.size = 0 ∧ next.state ≠ .closed ∧ Reset outcome.timer := by
  by_cases hmask : mask &&& Exception.block.code = 0
  · by_cases htimer : Reset outcome.timer
    · have hprocess : process Buffer.queue mask true outcome now next = some (.ok (), _) :=
        processwr_swallows hwritable hblock hmask htimer now
      have hready : readychan Buffer.queue mask rd true result timer recv outcome now conn =
          (decide (next.state ≠ .closed), { next.wrote { next.buffer with size := 0 } with since := now }) := by
        rw [readychan, hreceive]
        simp only [hprocess]
        rfl
      have hbuffer : { next.buffer with size := 0 } = next.buffer ↔ next.buffer.size = 0 :=
        ⟨fun h => by rw [← h], fun h => by rw [← h]⟩
      rw [hready]
      simp [Harmless, wrote, hbuffer, hmask, htimer, and_comm]
    · obtain ⟨except, last, hprocess⟩ := processwr_timer hwritable hblock hmask htimer now
      have hready : readychan Buffer.queue mask rd true result timer recv outcome now conn = (false, last) := by
        have hprocess' : process Buffer.queue mask true outcome now next = some (.error except, last) := hprocess
        rw [readychan, hreceive]
        simp only [hprocess']
        rfl
      rw [hready]
      simp [Harmless, htimer]
  · have hprocess : process Buffer.queue mask true outcome now next = some (.error .block, _) :=
      processwr_throws hwritable hblock hmask now
    have hready : readychan Buffer.queue mask rd true result timer recv outcome now conn =
        (false, next.wrote next.buffer) := by
      rw [readychan, hreceive]
      simp only [hprocess]
      rfl
    rw [hready]
    simp [Harmless, hmask]

/-- A connection with one byte to write, of which the buffer has this size. -/
def waiting (size : UInt64) : Conn Buffer := ⟨⟨[.inner], 0, [104], true, size⟩, .established, ⟨0, 0⟩, true, []⟩

/-- A write that blocks. -/
def blocked : WriteOutcome := ⟨.error .block, none, none, none⟩

/-- Where the size is lost already, another write that blocks changes nothing. -/
theorem blocked_iff_lost : Harmless (waiting 0)
    (readychan Buffer.queue 7 false true (.ok []) none (fun _ conn => conn) blocked ⟨0, 0⟩ (waiting 0)) :=
  (blocked_iff rfl (by decide +kernel) rfl ⟨0, 0⟩).mpr ⟨rfl, rfl, nofun, Or.inl rfl⟩

/-- With the mask for all exceptions, which is the default, the channel is given up. -/
theorem blocked_closes : (waiting 1).buffer.Writable ∧ ¬Harmless (waiting 1)
    (readychan Buffer.queue 15 false true (.ok []) none (fun _ conn => conn) blocked ⟨0, 0⟩ (waiting 1)) := by
  decide +kernel

end Conn

end Aug.Aspp
