import Aug.Aspp.Sessions
import Aug.Lib.Transition
import Aug.Util.Timer

/-!
# The timers of sessions

The timers that an engine sets for its sessions, next to other timers in one list, and the table in which an
expiring timer finds its session. The table follows the list in steps of its own: a timer is entered after it has
been set, and its entry is erased after it has been cancelled, or after a callback that leaves it no period. While
its callback runs, a timer is in the table and not in the list.
-/

namespace Aug.Aspp

open Lib Sys Util

/-- Whether a timer has been set for a session. -/
inductive TimerOwner where
  | session
  | other
  deriving DecidableEq

/-- `sessiontimer`. -/
structure SessionTimer (σ : Type*) where
  session : σ
  ob : ℕ

/-- The parts of `engineimpl` that the timers of sessions are made of, with the ids of the timers that a call of
`settimer` has left behind when it threw. -/
structure Engine (σ : Type*) where
  timers : Timers TimerOwner
  sessiontimers : OrderedMap ℤ (SessionTimer σ)
  sessions : Sessions σ
  strays : List ℤ

variable {σ : Type*}

namespace Engine

/-- A new engine. -/
def create : Engine σ := ⟨.create, .empty, .create, []⟩

/-- The order of ids. -/
def idLt (a b : ℤ) : Bool := decide (a < b)

/-- `settimer`, without an id if it throws. There may be no memory for the timer or for its entry. -/
def settimer (e : Engine σ) (sname : Topic) (ms ob : ℕ) (reading : Option Reading) (created room : Bool) :
    Engine σ × Option ℤ :=
  let (id, counter) := Timers.nextid e.timers.counter
  let (timers, ret) := { e.timers with counter }.settimer id ms TimerOwner.session reading created
  if ret < 0 then ({ e with timers }, none)
  else
    match e.sessions.getbyname sname with
    | none => ({ e with timers, strays := id :: e.strays }, none)
    | some session =>
      if (e.sessiontimers.find id).isSome then ({ e with timers }, some id)
      else if room then
        ({ e with timers, sessiontimers := e.sessiontimers.put idLt id ⟨session, ob⟩ }, some id)
      else ({ e with timers, strays := id :: e.strays }, none)

/-- `resettimer`. -/
def resettimer (e : Engine σ) (tid : ℤ) (ms : ℕ) (reading : Option Reading) : Engine σ :=
  { e with timers := (e.timers.resettimer tid ms reading).1 }

/-- `canceltimer`, with its result. -/
def canceltimer (e : Engine σ) (tid : ℤ) : Engine σ × Bool :=
  let (timers, ret) := e.timers.canceltimer tid
  if ret < 0 then (e, false) else ({ e with timers, sessiontimers := e.sessiontimers.erase tid }, true)

/-- One round of `cancelinactive`. The result of `aug_canceltimer` is ignored. -/
def cancelentry (e : Engine σ) (tid : ℤ) : Engine σ :=
  { e with timers := (e.timers.canceltimer tid).1, sessiontimers := e.sessiontimers.erase tid }

/-- The keys of the entries whose sessions are not active. -/
def inactive (e : Engine σ) (active : σ → Bool) : List ℤ :=
  (e.sessiontimers.entries.filter fun entry => !active entry.2.session).map Prod.fst

/-- `cancelinactive`. -/
def cancelinactive (e : Engine σ) (active : σ → Bool) : Engine σ := (e.inactive active).foldl cancelentry e

/-- What `timercb` does behind the callback of a session, which may have thrown, and the rest of the round in
`aug_processexpired`. -/
def finish (e : Engine σ) (now : Timeval) (it : Timer TimerOwner) (ms : ℕ) (reading : Option Reading) (threw : Bool) :
    Engine σ :=
  let timers := e.timers.reschedule now it ms reading
  if it.cb = .session ∧ ms = 0 ∧ threw = false then { e with timers, sessiontimers := e.sessiontimers.erase it.id }
  else { e with timers }

end Engine

/-- A call of the engine, or what the timers do. The registry of sessions and the timers of others may change in
between, and other ids are handed out. -/
inductive EngineAction (σ : Type*) where
  | sessions (sessions : Sessions σ)
  | others (list : List (Timer TimerOwner))
  | nextid
  | settimer (sname : Topic) (ms ob : ℕ) (reading : Option Reading) (created room : Bool)
  | resettimer (tid : ℤ) (ms : ℕ) (reading : Option Reading)
  | canceltimer (tid : ℤ)
  | cancelinactive (active : σ → Bool)
  | processexpired (force : Bool) (reading : Option Reading)
  | return' (ms : ℕ) (reading : Option Reading) (threw : Bool)
  | expire

/-- The timer whose callback is running. -/
def running : Process TimerOwner → List (Timer TimerOwner)
  | .callback _ it => [it]
  | _ => []

/-- The id of a timer with its owner. -/
def tag (it : Timer TimerOwner) : ℤ × TimerOwner := (it.id, it.cb)

/-- The timers of sessions in a list. -/
def sessionTimers (list : List (Timer TimerOwner)) : List (Timer TimerOwner) := list.filter (·.cb = .session)

namespace Engine

/-- Whether calls are made: not between two callbacks. -/
def between (e : Engine σ) : Bool :=
  match e.timers.process with
  | .loop _ => false
  | _ => true

/-- The ids of all timers with their owners, the expiring one first. -/
def tags (e : Engine σ) : List (ℤ × TimerOwner) := (running e.timers.process ++ e.timers.list).map tag

/-- The timers of others keep out of the way of the sessions' timers: they leave them as they are, and have ids of
their own. -/
def OthersApart (e : Engine σ) (list : List (Timer TimerOwner)) : Prop :=
  sessionTimers list = sessionTimers e.timers.list ∧ ((running e.timers.process ++ list).map Timer.id).Nodup

instance (e : Engine σ) (list : List (Timer TimerOwner)) : Decidable (e.OthersApart list) :=
  inferInstanceAs (Decidable (_ ∧ _))

/-- One action. -/
def step (e : Engine σ) : EngineAction σ → Option (Engine σ)
  | .sessions sessions => some { e with sessions }
  | .others list => if e.between ∧ e.OthersApart list then some { e with timers := { e.timers with list } } else none
  | .nextid => some { e with timers := { e.timers with counter := (Timers.nextid e.timers.counter).2 } }
  | .settimer sname ms ob reading created room =>
    if e.between then some (e.settimer sname ms ob reading created room).1 else none
  | .resettimer tid ms reading => if e.between then some (e.resettimer tid ms reading) else none
  | .canceltimer tid => if e.between then some (e.canceltimer tid).1 else none
  | .cancelinactive active => if e.between then some (e.cancelinactive active) else none
  | .processexpired force reading =>
    match e.timers.process with
    | .idle => some { e with timers := e.timers.processexpired force reading }
    | _ => none
  | .return' ms reading threw =>
    match e.timers.process with
    | .callback now it => some (e.finish now it ms reading threw)
    | _ => none
  | .expire =>
    match e.timers.process with
    | .loop now => some { e with timers := e.timers.expire now }
    | _ => none

/-- The table has an entry for each timer of a session, and for the expiring one, and no other; no call of `settimer`
has thrown and left a timer behind. -/
structure Matches (e : Engine σ) : Prop where
  table : (∀ now it, e.timers.process ≠ .callback now it) →
    ∀ id, (e.sessiontimers.find id).isSome ↔ (id, TimerOwner.session) ∈ e.timers.list.map tag
  expiring : ∀ now it, e.timers.process = .callback now it → it.cb = .session → (e.sessiontimers.find it.id).isSome
  strays : e.strays = []

/-- The timer of a session has the id. -/
def Live (e : Engine σ) (id : ℤ) : Prop := (id, TimerOwner.session) ∈ e.timers.list.map tag

instance (e : Engine σ) (id : ℤ) : Decidable (e.Live id) :=
  inferInstanceAs (Decidable ((id, TimerOwner.session) ∈ e.timers.list.map tag))

/-- `settimer` throws behind the timer that it has set: the session is not known, or there is no memory for a new
entry. -/
def Throws (e : Engine σ) (id : ℤ) (sname : Topic) (room : Bool) : Prop :=
  e.sessions.getbyname sname = none ∨ e.sessiontimers.find id = none ∧ room = false

/-- The actions that part the table from the timers. A timer is set behind which `settimer` throws, or with the id of
the expiring timer; a timer is lost for the lack of a clock reading or of memory, while it is set, reset or put back;
a callback throws and leaves no period; or the entry of the expiring timer is removed as inactive. -/
def Parts (e : Engine σ) : EngineAction σ → Prop
  | .settimer sname _ _ reading created room =>
    let id := (Timers.nextid e.timers.counter).1
    if reading.isSome ∧ created = true then
      e.Throws id sname room ∨ id ∈ (running e.timers.process).map Timer.id
    else e.Live id
  | .resettimer tid _ reading => reading = none ∧ e.Live tid
  | .cancelinactive active => ∃ it ∈ running e.timers.process, it.cb = .session ∧ it.id ∈ e.inactive active
  | .return' ms reading threw => (∃ it ∈ running e.timers.process, it.cb = .session) ∧
      if ms = 0 then threw = true else reading = none
  | _ => False

instance (e : Engine σ) (id : ℤ) (sname : Topic) (room : Bool) : Decidable (e.Throws id sname room) :=
  inferInstanceAs (Decidable (_ ∨ _ ∧ _))

/-- Whether an action parts the table from the timers can be computed. -/
instance (e : Engine σ) : (action : EngineAction σ) → Decidable (e.Parts action)
  | .settimer sname _ _ reading created room =>
    inferInstanceAs (Decidable (if reading.isSome ∧ created = true then
      e.Throws (Timers.nextid e.timers.counter).1 sname room ∨
        (Timers.nextid e.timers.counter).1 ∈ (running e.timers.process).map Timer.id
      else e.Live (Timers.nextid e.timers.counter).1))
  | .resettimer tid _ reading => inferInstanceAs (Decidable (reading = none ∧ e.Live tid))
  | .cancelinactive active =>
    inferInstanceAs (Decidable (∃ it ∈ running e.timers.process, it.cb = .session ∧ it.id ∈ e.inactive active))
  | .return' ms reading threw =>
    inferInstanceAs (Decidable ((∃ it ∈ running e.timers.process, it.cb = .session) ∧
      if ms = 0 then threw = true else reading = none))
  | .sessions _ | .others _ | .nextid | .canceltimer _ | .processexpired _ _ | .expire =>
    inferInstanceAs (Decidable False)

end Engine

end Aug.Aspp
