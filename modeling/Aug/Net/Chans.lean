import Aug.Lib.Machine
import Aug.Lib.Transition
import Mathlib.Logic.Function.Basic

/-!
# Sets of channels

The channel sets of `chans.c`, whose callbacks may call the set again. A state has the calls that wait
for a callback, the last one first, and a step is a call, or the return of the callback that the last
call waits for, up to the next callback. A block that has been freed is never one of a later entry. Next
to the fields of the set are the references that it holds on each channel, and what has happened to the
entries.
-/

namespace Aug.Net

open Aug.Lib

/-- An entry: its block, and its channel unless it is trashed. -/
structure ChanEntry where
  it : ℕ
  ob : Option ℕ
  deriving DecidableEq

/-- What happens to an entry. -/
inductive ChanEvent where
  | insert (it ob : ℕ)
  | process (it ob : ℕ)
  | found (it ob : ℕ)
  | replace (it ob ob' : ℕ)
  | clear (it ob : ℕ)

/-- The fields of `struct aug_chans_`, the next block, the references and the events. -/
structure Chans where
  list : List ChanEntry
  size : ℕ
  locks : ℕ
  fresh : ℕ
  refs : ℕ → ℤ
  events : List ChanEvent

/-- A call that waits: for `aug_processchan`, for `aug_clearchan` after the channel returned null, or for
`aug_clearchan` in `release_`, which was called with the set locked or not. -/
inductive ChanFrame where
  | processing (it ob : ℕ)
  | clearing (it ob : ℕ)
  | releasing (it ob : ℕ) (locked : Bool)
  deriving DecidableEq

/-- The result of `aug_processchan`: a forked channel and whether there is memory for its entry, or the
channel for the entry. -/
inductive Processed where
  | forked (ob : ℕ) (memory : Bool)
  | returned (ob : Option ℕ)
  deriving DecidableEq

namespace Chans

/-- `aug_createchans`. -/
def create : Chans := ⟨[], 0, 0, 0, fun _ => 0, []⟩

/-- `aug_retain`. -/
def retain (chans : Chans) (ob : ℕ) : Chans := { chans with refs := Function.update chans.refs ob (chans.refs ob + 1) }

/-- `aug_release`. -/
def release (chans : Chans) (ob : ℕ) : Chans := { chans with refs := Function.update chans.refs ob (chans.refs ob - 1) }

/-- Record an event. -/
def notice (chans : Chans) (event : ChanEvent) : Chans := { chans with events := chans.events ++ [event] }

/-- The entry of a block, unless it has been freed. -/
def entry (chans : Chans) (it : ℕ) : Option ChanEntry := chans.list.find? fun entry => entry.it = it

/-- Assign the channel of an entry. -/
def assign (chans : Chans) (it : ℕ) (ob : Option ℕ) : Chans :=
  { chans with list := chans.list.map fun entry => if entry.it = it then { entry with ob } else entry }

/-- Take the channel out of an entry, and call `aug_clearchan`. -/
def clear (chans : Chans) (it ob : ℕ) : Chans :=
  ({ chans with size := u32 (chans.size - 1) }.assign it none).notice (.clear it ob)

/-- `trash_`. -/
def trash (chans : Chans) : Chans := { chans with list := chans.list.filter fun entry => entry.ob.isSome }

/-- `aug_insertchan`. -/
def insertchan (chans : Chans) (ob : ℕ) (memory : Bool) : Chans :=
  if memory then
    ({ chans with
      list := ⟨chans.fresh, some ob⟩ :: chans.list
      size := u32 (chans.size + 1)
      fresh := chans.fresh + 1 }.retain ob).notice (.insert chans.fresh ob)
  else chans

/-- The first entry with a channel that has the identifier. -/
def locate (chans : Chans) (chanid : ℕ → ℤ) (id : ℤ) : Option (ℕ × ℕ) :=
  chans.list.findSome? fun entry => entry.ob.bind fun ob => if chanid ob = id then some (entry.it, ob) else none

/-- `aug_removechan`, up to its callback. -/
def removechan (chans : Chans) (chanid : ℕ → ℤ) (id : ℤ) : Chans × List ChanFrame :=
  match chans.locate chanid id with
  | none => (chans, [])
  | some (it, ob) => (chans.clear it ob, [.releasing it ob (decide (0 < chans.locks))])

/-- The end of `release_` and `aug_removechan`. -/
def released (chans : Chans) (it ob : ℕ) (locked : Bool) : Option (Chans × List ChanFrame) :=
  let chans := chans.release ob
  if locked then some (chans, [])
  else (chans.entry it).map fun entry => ({ chans with list := chans.list.erase entry }, [])

/-- `aug_findchan`. The reference belongs to the caller. -/
def findchan (chans : Chans) (chanid : ℕ → ℤ) (id : ℤ) : Chans :=
  match chans.locate chanid id with
  | none => chans
  | some (it, ob) => chans.notice (.found it ob)

/-- Unlock the set. -/
def unlock (chans : Chans) : Chans :=
  let chans := { chans with locks := chans.locks - 1 }
  if chans.locks = 0 then chans.trash else chans

/-- The loop of `aug_processchans_BI` over the entries that are left, up to the next callback. -/
def visit (chans : Chans) : List ChanEntry → Chans × List ChanFrame
  | [] => (chans.unlock, [])
  | ⟨_, none⟩ :: rest => chans.visit rest
  | ⟨it, some ob⟩ :: _ => ((chans.retain ob).notice (.process it ob), [.processing it ob])

/-- The entries behind an entry, unless its block has been freed. -/
def behind (chans : Chans) (it : ℕ) : Option (List ChanEntry) :=
  (chans.list.dropWhile fun entry => entry.it ≠ it).tail?

/-- Go on to the entries behind. -/
def next (chans : Chans) (it : ℕ) : Option (Chans × List ChanFrame) := (chans.behind it).map chans.visit

/-- `aug_processchans_BI`, up to its first callback. The lock count is an `int`. -/
def processchans (chans : Chans) : Option (Chans × List ChanFrame) :=
  if 2 ^ 31 ≤ chans.locks + 1 then none
  else
    let list := if chans.locks + 1 = 1 then chans.list.tail ++ chans.list.head?.toList else chans.list
    some ({ chans with locks := chans.locks + 1, list }.visit list)

/-- The part of `aug_processchans_BI` behind `aug_processchan`, which has retained the channel it returns.
The entry is not null where it is swapped: it has been released there. -/
def processed (chans : Chans) (it : ℕ) (result : Processed) : Option (Chans × List ChanFrame) :=
  (chans.entry it).bind fun entry => entry.ob.bind fun ob =>
    let chans := chans.release ob
    match result with
    | .forked ob' memory => (((chans.retain ob').insertchan ob' memory).release ob').next it
    | .returned none => some (chans.clear it ob, [.clearing it ob])
    | .returned (some ob') =>
      ((((chans.retain ob').assign it (some ob')).notice (.replace it ob ob')).release ob).next it

/-- The part of `aug_processchans_BI` behind `aug_clearchan`. -/
def cleared (chans : Chans) (it ob : ℕ) : Option (Chans × List ChanFrame) := (chans.release ob).next it

end Chans

/-- A call of the set, or the return of a callback. -/
inductive ChanAction where
  | insert (ob : ℕ) (memory : Bool)
  | remove (id : ℤ)
  | find (id : ℤ)
  | process
  | processed (result : Processed)
  | cleared

/-- A set, unless its behaviour has been undefined, and the calls that wait. -/
structure ChanState where
  chans : Option Chans
  frames : List ChanFrame

namespace ChanState

/-- A new set. -/
def create : ChanState := ⟨some .create, []⟩

/-- The state after a call, or a part of one. -/
def resume (outcome : Option (Chans × List ChanFrame)) (frames : List ChanFrame) : ChanState :=
  match outcome with
  | none => ⟨none, frames⟩
  | some (chans, new) => ⟨some chans, new ++ frames⟩

/-- One step. Calls are made from the outside, or from the callback that the last call waits for. -/
def step (chanid : ℕ → ℤ) (state : ChanState) (action : ChanAction) : Option ChanState :=
  state.chans.bind fun chans =>
    match action, state.frames with
    | .insert ob memory, frames => some (resume (some (chans.insertchan ob memory, [])) frames)
    | .remove id, frames => some (resume (some (chans.removechan chanid id)) frames)
    | .find id, frames => some (resume (some (chans.findchan chanid id, [])) frames)
    | .process, frames => some (resume chans.processchans frames)
    | .processed result, .processing it _ :: frames => some (resume (chans.processed it result) frames)
    | .cleared, .clearing it ob :: frames => some (resume (chans.cleared it ob) frames)
    | .cleared, .releasing it ob locked :: frames => some (resume (chans.released it ob locked) frames)
    | _, _ => none

end ChanState

end Aug.Net
