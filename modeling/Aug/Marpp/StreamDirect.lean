import Aug.Lib.Transition
import Aug.Mar.BodyAccess
import Aug.Marpp.StreamBuf

/-!
# Stream buffers next to direct access

What the calls of a stream buffer are meant to do: each acts on the body at one position. The two are run side by
side, with what decides whether they stay together: whether a seek has passed the get area by, and how many of the
characters in front of its next one are those that were read last.
-/

namespace Aug.Marpp

open Lib Mar

/-- A body with one position. -/
structure Direct where
  body : List UInt8
  pos : ℕ
  deriving DecidableEq

namespace Direct

/-- Read, and move behind what has been read. -/
def read (d : Direct) (n : ℕ) : List UInt8 × Direct :=
  (readFrom d.body d.pos n, { d with pos := d.pos + (readFrom d.body d.pos n).length })

/-- Write, and move behind what has been written. -/
def write (d : Direct) (bytes : List UInt8) : Direct :=
  if bytes = [] then d else ⟨overwrite 0 d.body d.pos bytes, d.pos + bytes.length⟩

/-- The character in front of the position. -/
def last (d : Direct) : Option UInt8 := if 0 < d.pos then d.body[d.pos - 1]? else none

/-- Where a seek is to go. -/
def target (d : Direct) (off whence : ℤ) : Option ℤ := seektarget d.body.length d.pos off whence

/-- A seek to a negative position, or from an unknown origin, is refused. -/
def seek (d : Direct) (off whence : ℤ) : Direct :=
  match d.target off whence with
  | some target => if target < 0 then d else { d with pos := target.toNat }
  | none => d

/-- One call, with the characters that are read. -/
def step (d : Direct) : StreamOp → List UInt8 × Direct
  | .sgetc => (readFrom d.body d.pos 1, d)
  | .sbumpc => d.read 1
  | .sgetn n => d.read n
  | .sputc c => ([], d.write [c])
  | .sputn bytes => ([], d.write bytes)
  | .sungetc => if d.last.isSome then (d.last.toList, { d with pos := d.pos - 1 }) else ([], d)
  | .sputbackc c => if d.last = some c then ([c], { d with pos := d.pos - 1 }) else ([], d)
  | .pubsync => ([], d)
  | .pubseekoff off way => ([], d.seek off.1 way.whence)
  | .pubseekpos pos => ([], d.seek pos.1 0)

end Direct

/-- What the calls so far have left: whether a seek has moved the archive since the get area was filled, and the number
of characters in front of the next one that are the last ones of the body. -/
structure History where
  sought : Bool
  back : ℕ
  deriving DecidableEq

namespace History

/-- Characters are taken from the get area. -/
def take (h : History) (n : ℕ) : History := { h with back := h.back + n }

/-- The get area is filled from what is left of the body. If nothing is left, the characters in front of it have been
copied over what was there. -/
def refill (h : History) (filled left : ℕ) : History :=
  if left = 0 then { h with back := min h.back filled } else ⟨false, min h.back pbacksize⟩

end History

/-- The get area, which is saved while there is none. -/
def StreamBuf.area {σ : Type} (sb : StreamBuf σ) : Area := if sb.state = .get then sb.get else sb.gsaved

/-- A stream buffer and a body with the same calls, and the characters read from both. -/
structure Tracked (σ : Type) where
  sb : StreamBuf σ
  direct : Direct
  history : History
  heard : List UInt8
  wanted : List UInt8

namespace Tracked

variable {σ : Type}

/-- The characters that are left of the body behind those of the get area. -/
def left (t : Tracked σ) : ℕ := t.direct.body.length - (t.direct.pos + t.sb.area.rest)

/-- The history after the get area has been filled. -/
def refilled (t : Tracked σ) : History := t.history.refill (t.sb.area.stop - t.sb.gbase) t.left

/-- A seek that moves the position. -/
def moves (t : Tracked σ) (off whence : ℤ) : Prop :=
  ¬(whence = 1 ∧ off = 0) ∧ ∃ target ∈ t.direct.target off whence, 0 ≤ target

instance (t : Tracked σ) (off whence : ℤ) : Decidable (t.moves off whence) :=
  inferInstanceAs (Decidable (_ ∧ ∃ target ∈ t.direct.target off whence, 0 ≤ target))

/-- The history behind a seek. -/
def passed (t : Tracked σ) (off whence : ℤ) : History := if t.moves off whence then ⟨true, 0⟩ else t.history

/-- The history behind a call. -/
def next (t : Tracked σ) : StreamOp → History
  | .sgetc => if 0 < t.sb.area.rest then t.history else t.refilled
  | .sbumpc =>
    if 0 < t.sb.area.rest then t.history.take 1
    else if t.left = 0 then t.refilled
    else t.refilled.take 1
  | .sgetn n =>
    let h := t.history.take (min n t.sb.area.rest)
    if n ≤ t.sb.area.rest then h
    else if t.sb.size ≤ n - t.sb.area.rest then if t.left = 0 then h else { h with back := 0 }
    else (h.refill (t.sb.area.stop - t.sb.gbase) t.left).take (min (n - t.sb.area.rest) (min t.sb.size t.left))
  | .sputc _ => { t.history with back := 0 }
  | .sputn bytes => if bytes = [] then t.history else { t.history with back := 0 }
  | .sungetc => { t.history with back := t.history.back - 1 }
  | .sputbackc c => if t.direct.last = some c then { t.history with back := t.history.back - 1 } else t.history
  | .pubsync => t.history
  | .pubseekoff off way => t.passed off.1 way.whence
  | .pubseekpos pos => t.passed pos.1 0

/-- One call on both. -/
def step [SeqImpl σ] (env : SeqImpl.Env σ) (t : Tracked σ) (op : StreamOp) : Option (Tracked σ) :=
  (op.call env t.sb).bind fun (result, sb) =>
    match result with
    | .ok bytes => some {
        sb
        direct := (t.direct.step op).2
        history := t.next op
        heard := t.heard ++ bytes
        wanted := t.wanted ++ (t.direct.step op).1 }
    | .error _ => none

/-- The characters that wait in the put area. -/
def waiting (t : Tracked σ) : ℕ := t.sb.put.next - t.sb.put.start

/-- The size of the archive without its body. -/
def overhead [SeqImpl σ] (t : Tracked σ) : ℕ := SeqImpl.size t.sb.mar.seq.impl - t.sb.mar.info.bsize

/-- The get area has characters that a seek has passed by. -/
def Stale (t : Tracked σ) : Prop := t.history.sought = true ∧ 0 < t.sb.area.rest

/-- Characters are written at a position that reading ahead has moved, or the archive grows beyond an `unsigned`. -/
def StraysWriting [SeqImpl σ] (t : Tracked σ) (n : ℕ) : Prop :=
  (t.sb.state = .get ∧ t.history.sought = false ∧ 0 < t.sb.area.rest) ∨
    2 ^ 32 ≤ t.overhead + max t.direct.body.length (t.direct.pos + n)

/-- A seek moves the position away from characters that wait to be written, or moves it by a distance from where reading
ahead has moved it, or to a position that is not an `unsigned`. -/
def StraysSeeking (t : Tracked σ) (off whence : ℤ) : Prop :=
  (0 < t.waiting ∧ t.moves off whence) ∨
    (t.sb.state = .get ∧ t.history.sought = false ∧ 0 < t.sb.area.rest ∧ whence = 1 ∧ off ≠ 0 ∧
      0 ≤ t.direct.pos + t.sb.area.rest + off) ∨
    ∃ target ∈ t.direct.target off whence, (2 : ℤ) ^ 32 ≤ target

/-- The calls at which the stream buffer leaves the position that the calls so far come to. Characters are read that
a seek has passed by, or more at once than the counts of the buffer have room for; characters are put back that are not
there any more; or the call strays writing or seeking. -/
def Strays [SeqImpl σ] (t : Tracked σ) : StreamOp → Prop
  | .sgetc | .sbumpc => t.Stale
  | .sgetn n => n ≠ 0 ∧ (t.Stale ∨ 2 ^ 32 ≤ n - t.sb.area.rest ∨ 2 ^ 31 ≤ min (n - t.sb.area.rest) t.left)
  | .sputc _ => t.StraysWriting 1
  | .sputn bytes => bytes ≠ [] ∧ t.StraysWriting bytes.length
  | .sungetc | .sputbackc _ => t.history.back = 0
  | .pubsync => False
  | .pubseekoff off way => t.StraysSeeking off.1 way.whence
  | .pubseekpos pos => t.StraysSeeking pos.1 0

instance (t : Tracked σ) : Decidable t.Stale := inferInstanceAs (Decidable (_ ∧ _))

instance [SeqImpl σ] (t : Tracked σ) (n : ℕ) : Decidable (t.StraysWriting n) := inferInstanceAs (Decidable (_ ∨ _))

instance (t : Tracked σ) (off whence : ℤ) : Decidable (t.StraysSeeking off whence) :=
  inferInstanceAs (Decidable (_ ∨ _ ∨ ∃ target ∈ t.direct.target off whence, (2 : ℤ) ^ 32 ≤ target))

instance [SeqImpl σ] (t : Tracked σ) : ∀ op, Decidable (t.Strays op)
  | .sgetc | .sbumpc => inferInstanceAs (Decidable t.Stale)
  | .sgetn _ => inferInstanceAs (Decidable (_ ∧ (t.Stale ∨ _)))
  | .sputc _ => inferInstanceAs (Decidable (t.StraysWriting 1))
  | .sputn _ => inferInstanceAs (Decidable (_ ∧ t.StraysWriting _))
  | .sungetc | .sputbackc _ => inferInstanceAs (Decidable (t.history.back = 0))
  | .pubsync => inferInstanceAs (Decidable False)
  | .pubseekoff off way => inferInstanceAs (Decidable (t.StraysSeeking off.1 way.whence))
  | .pubseekpos pos => inferInstanceAs (Decidable (t.StraysSeeking pos.1 0))

end Tracked

end Aug.Marpp
