import Aug.Lib.Machine
import Aug.Net.Packet
import Aug.Sys.Time
import Mathlib.Logic.Function.Basic

/-!
# Windows

The window of `cluster.cpp`: a ring of slots for the packets of one node, in which a packet waits until
those before it have been consumed. A slot is empty if its time has no seconds.
-/

namespace Aug.Aspp

open Aug.Lib Aug.Net Aug.Sys

/-- A slot of the ring. -/
structure Message where
  pkt : Packet
  tv : Timeval

/-- The static `empty`. -/
def Message.empty (m : Message) : Bool := m.tv.sec == 0

/-- The static `clear`. -/
def Message.clear (m : Message) : Message := { m with tv := { m.tv with sec := 0 } }

/-- The states of a window. -/
inductive State
  | reset
  | sync
  | ready
deriving DecidableEq, Repr

/-- What the insertion into a window may throw. -/
inductive WindowException
  | overflow
  | underflow
deriving DecidableEq, Repr

/-- The class `window`, with a size that is not zero. Of the ring only the slots below the size are used. -/
structure Window where
  size : ℕ
  ring : ℕ → Message
  begin_ : ℕ
  end_ : ℕ
  state : State
  positive : 0 < size

namespace Window

/-- The increment of an `aug_seqno_t`. -/
def succ (seqno : ℕ) : ℕ := if seqno + 1 = 2 ^ 64 then 0 else seqno + 1

/-- The constructor, which leaves the ring as it was allocated. -/
def create (size : ℕ) (hsize : 0 < size) (ring : ℕ → Message) : Window where
  size := size
  ring := ring
  begin_ := 1
  end_ := 1
  state := .reset
  positive := hsize

/-- Clear the slot of a number. -/
def clear (w : Window) (seqno : ℕ) : Window :=
  { w with ring := Function.update w.ring (seqno % w.size) (w.ring (seqno % w.size)).clear }

/-- `ready`. -/
def ready (w : Window) : Bool := w.state == .ready

/-- `empty`. -/
def empty (w : Window) : Bool :=
  w.begin_ == w.end_ || (w.ring (w.begin_ % w.size)).empty || !w.ready

/-- The number of slots between the two ends. -/
def count (w : Window) : ℕ :=
  if w.begin_ ≤ w.end_ then w.end_ - w.begin_ else w.end_ + 2 ^ 64 - w.begin_

/-- `drop`. -/
def drop (w : Window) : Window :=
  if w.begin_ ≠ w.end_ then { w.clear w.begin_ with begin_ := succ w.begin_ } else w

/-- The loop of `flush`, which ends within as many rounds as there are slots. -/
def skip (w : Window) : ℕ → ℕ → ℕ
  | 0, seqno => seqno
  | rounds + 1, seqno =>
    if seqno ≠ w.end_ ∧ (w.ring (seqno % w.size)).empty then w.skip rounds (succ seqno) else seqno

/-- `flush`. -/
def flush (w : Window) : Window := { w with begin_ := w.skip w.count w.begin_, state := .ready }

/-- The loop that makes space on the right by giving up packets on the left. -/
def clearLead (w : Window) : ℕ → Window
  | 0 => w
  | diff + 1 => clearLead { w.clear w.begin_ with begin_ := succ w.begin_ } diff

/-- The loop that clears the gap between the previous and the latest packet. -/
def clearGap (w : Window) (seqno : ℕ) : ℕ → Window
  | 0 => w
  | length + 1 => (w.clear seqno).clearGap (seqno + 1) length

/-- The end of `insert`: extend the window up to the packet and store it. -/
def store (w : Window) (pkt : Packet) (tv : Timeval) : Window :=
  let w :=
    if w.end_ ≤ pkt.seqno then
      { w.clearGap w.end_ (pkt.seqno - w.end_) with end_ := succ pkt.seqno }
    else w
  { w with ring := Function.update w.ring (pkt.seqno % w.size) { pkt, tv } }

/-- The insertion point of a first packet, half way through the window. -/
def seed (w : Window) (seqno : ℕ) : ℕ :=
  let inset := (w.size - 1) / 2
  if seqno ≤ inset then seqno else seqno - inset

/-- `insert`. -/
def insert (w : Window) (pkt : Packet) (tv : Timeval) : Except WindowException Window :=
  match w.state with
  | .reset =>
    .ok ({ w with begin_ := w.seed pkt.seqno, end_ := w.seed pkt.seqno, state := .sync }.store pkt tv)
  | _ =>
    let diff := i64 (pkt.seqno - w.begin_)
    if diff < 0 then .error .underflow
    else
      let diff := diff - (w.size - 1)
      if 0 < diff then
        if w.ready then .error .overflow
        -- one slot is given up for each number beyond the window, so that nothing is left of `diff`
        else .ok ((w.clearLead diff.toNat).store pkt tv)
      else .ok (w.store pkt tv)

/-- `next`. -/
def next (w : Window) : Option (Message × Window) :=
  if w.empty then none
  else
    some (w.ring (w.begin_ % w.size), { w.clear w.begin_ with begin_ := succ w.begin_ })

end Window

end Aug.Aspp
