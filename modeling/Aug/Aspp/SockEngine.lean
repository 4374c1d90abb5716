import Aug.Aspp.Conn
import Aug.Lib.OrderedMap
import Aug.Util.Timer

/-!
# The sockets of an engine

The part of `engine.cpp` that turns what happens to channels into callbacks of sessions, with the map of `socks.cpp`, the
sockets of `listener.cpp`, `servconn.cpp` and `clntconn.cpp`, and the plain channels of `chan.c`. A step is a call of the
engine, or a part of its own work up to the next callback, and while a callback runs, the session may call the engine.
Channels are processed in any order. The work has no outcome where an assertion fails, or where a function that must not
throw does.
-/

namespace Aug.Aspp

open Lib Sys Util

/-- A listening channel, one that connects, which may have been established when it was made, and a stream, each with
whether it has its descriptor. -/
inductive Channel where
  | server (sd : Bool)
  | client (sd est : Bool)
  | stream (sd : Bool)
  deriving DecidableEq

namespace Channel

def sd : Channel → Bool
  | server sd | client sd _ | stream sd => sd

/-- `aug_closechan`. -/
def close : Channel → Channel
  | server _ => server false
  | client _ _ => client false false
  | stream _ => stream false

/-- A cast finds a stream. -/
def isStream : Channel → Bool
  | stream _ => true
  | _ => false

end Channel

/-- `listener`, and `servconn` or `clntconn`, which differ in whether they begin as accepted. -/
inductive Sock (Q : Type) where
  | listener (state : SockState)
  | conn (conn : Conn Q) (accepted : Bool)

/-- What happens to a socket: it is made by a call, its session is called or answers, or a call closes it at once. -/
inductive SockEvent where
  | listen
  | connect
  | accepted
  | answered (keep : Bool)
  | connected
  | recv (size : ℕ)
  | error
  | teardown
  | shutnow
  | closed
  deriving DecidableEq

/-- A callback that runs, with what is needed when it returns. -/
inductive SockFrame where
  | accepted (id : ℤ)
  | connected (id : ℤ)
  | recv (id : ℤ) (wr : Bool)
  | error (id : ℤ)
  | teardown (id : ℤ)
  | closed (id : ℤ)
  deriving DecidableEq

/-- The parts of `engineimpl` that sockets are made of, with the counter of `aug_nextid`, the callback that runs and what
has happened. The current channel is here only where it is not the one in the set. -/
structure SockEngine (Q : Type) where
  counter : ℤ
  socks : OrderedMap ℤ (Sock Q)
  chans : OrderedMap ℤ Channel
  current : Option (ℤ × Channel)
  stopping : Bool
  frame : Option SockFrame
  log : List (ℤ × SockEvent)

/-- What processing a channel meets: nothing to do, an error, a new connection, the establishment of its own, or events
of a stream. -/
inductive ChannelOutcome where
  | quiet
  | error
  | accept (now : Timeval)
  | established
  | ready (rd wr : Bool) (result : Except Exception (List UInt8)) (timer : Option Exception) (outcome : WriteOutcome)
    (now : Timeval)

/-- A call, the work on a channel, or the return of a callback. Ids are also drawn for other things. -/
inductive SockAction where
  | draw
  | tcpconnect (est : Bool) (now : Timeval)
  | tcplisten
  | send (id : ℤ) (bytes : List UInt8) (memory : Memory) (wantwr : Option Exception) (now : Timeval)
  | sendv (id : ℤ) (bytes : List UInt8) (memory : Memory) (wantwr : Option Exception) (now : Timeval)
  | shutdown (id : ℤ) (now : Bool) (outcome : Option Exception)
  | stop
  | teardown
  | process (id : ℤ) (outcome : ChannelOutcome)
  | answered (keep : Bool)
  | received (outcome : WriteOutcome) (now : Timeval)
  | returned

namespace SockEngine

variable {Q : Type}

/-- A new engine. -/
def create : SockEngine Q := ⟨1, .empty, .empty, none, false, none, []⟩

/-- `greater<mod_id>`. -/
def idGt (a b : ℤ) : Bool := decide (b < a)

/-- Record what happens. -/
def note (e : SockEngine Q) (id : ℤ) (event : SockEvent) : SockEngine Q := { e with log := e.log ++ [(id, event)] }

/-- Call the session. -/
def tell (e : SockEngine Q) (id : ℤ) (event : SockEvent) (frame : SockFrame) : SockEngine Q :=
  { e.note id event with frame := some frame }

/-- `aug_nextid`. -/
def nextid (e : SockEngine Q) : ℤ × SockEngine Q :=
  ((Timers.nextid e.counter).1, { e with counter := (Timers.nextid e.counter).2 })

/-- `socks::insert`, which leaves a socket that is there. -/
def insert (e : SockEngine Q) (id : ℤ) (sock : Sock Q) : SockEngine Q :=
  if (e.socks.find id).isSome then e else { e with socks := e.socks.put idGt id sock }

/-- Assign a socket that is there. -/
def assign (e : SockEngine Q) (id : ℤ) (sock : Sock Q) : SockEngine Q := { e with socks := e.socks.put idGt id sock }

/-- Put a channel into the set. -/
def setchan (e : SockEngine Q) (id : ℤ) (chan : Channel) : SockEngine Q := { e with chans := e.chans.put idGt id chan }

/-- `findchan`, with whether it is the current one. -/
def findchan (e : SockEngine Q) (id : ℤ) : Option (Channel × Bool) :=
  match e.current with
  | some (cid, chan) => if cid = id then some (chan, true) else (e.chans.find id).map (·, false)
  | none => (e.chans.find id).map (·, false)

/-- Close a channel that has been found. -/
def closechan (e : SockEngine Q) (id : ℤ) (chan : Channel × Bool) : SockEngine Q :=
  if chan.2 then { e with current := some (id, chan.1.close) } else e.setchan id chan.1.close

/-- `aug_clearchan`, once the channel has been taken out of the set, up to the callback of `~connimpl` or `~listener`. -/
def clearchan (e : SockEngine Q) (id : ℤ) : SockEngine Q :=
  let sock := e.socks.find id
  let e := { e with chans := e.chans.erase id, socks := e.socks.erase id, frame := none }
  match sock with
  | none | some (.conn _ false) => e
  | some (.listener _) | some (.conn _ true) => e.tell id .closed (.closed id)

/-- `tcpconnect`. -/
def tcpconnect (buffer : Q) (e : SockEngine Q) (est : Bool) (now : Timeval) : SockEngine Q :=
  let (id, e) := e.nextid
  ((e.insert id (.conn (Conn.create buffer now) true)).setchan id (.client true est)).note id .connect

/-- `tcplisten`. -/
def tcplisten (e : SockEngine Q) : SockEngine Q :=
  let (id, e) := e.nextid
  ((e.insert id (.listener .listening)).setchan id (.server true)).note id .listen

/-- `send` and `sendv`, which throw where there is no connection. -/
def sendwith (e : SockEngine Q) (id : ℤ) (call : ConnCall Q Unit) : Option (Option (SockEngine Q)) :=
  match e.socks.find id with
  | some (.conn conn accepted) =>
    match e.findchan id with
    | none => some none
    | some _ => (call conn).map fun result => some (e.assign id (.conn result.2 accepted))
  | _ => some (some e)

/-- `shutdown`, with `MOD_SHUTNOW` or without. -/
def shutdown (queue : WriteQueue Q) (mask : UInt32) (e : SockEngine Q) (id : ℤ) (now : Bool)
    (outcome : Option Exception) : Option (Option (SockEngine Q)) :=
  match e.socks.find id, e.findchan id with
  | none, _ => some (some e)
  | some _, none => some none
  | some (.listener state), some chan =>
    if SockState.shutdown.rank ≤ state.rank then some (some e)
    else some (some (((e.assign id (.listener .closed)).closechan id chan).note id .shutnow))
  | some (.conn conn accepted), some chan =>
    (Conn.shutdown queue mask (chan.1.isStream && !now) outcome conn).map fun result =>
      let e' := e.assign id (.conn result.2 accepted)
      if conn.sendable && (!chan.1.isStream || now) then some ((e'.closechan id chan).note id .shutnow) else some e'

/-- The loop of `socks::teardown` over the sockets that are left, up to the next callback. -/
def teardownFrom : List (ℤ × Sock Q) → SockEngine Q → Option (SockEngine Q)
  | [], e => some { e with frame := none }
  | (id, .listener _) :: rest, e =>
    match e.chans.find id with
    | none => none
    | some chan => teardownFrom rest (e.setchan id chan.close)
  | (id, .conn conn accepted) :: rest, e =>
    if conn.state.rank < SockState.teardown.rank then
      some ((e.assign id (.conn { conn with state := .teardown } accepted)).tell id .teardown (.teardown id))
    else teardownFrom rest e

/-- The sockets behind one. -/
def behind (e : SockEngine Q) (id : ℤ) : List (ℤ × Sock Q) := (e.socks.entries.dropWhile fun entry => entry.1 ≠ id).tail

/-- The write part of `process_BI`, and the end of `readychan_`: a channel that is not kept is cleared. -/
def finish (queue : WriteQueue Q) (mask : UInt32) (e : SockEngine Q) (id : ℤ) (wr : Bool) (outcome : WriteOutcome)
    (now : Timeval) : Option (Option (SockEngine Q)) :=
  match e.socks.find id with
  | some (.conn conn accepted) =>
    (Conn.process queue mask wr outcome now conn).map fun result =>
      let e := { e.assign id (.conn result.2 accepted) with frame := none }
      some (if Conn.ready result then e else e.clearchan id)
  | _ => some none

/-- `readychan_`, up to the callback. -/
def readychan (queue : WriteQueue Q) (mask : UInt32) (e : SockEngine Q) (id : ℤ) (rd wr : Bool)
    (result : Except Exception (List UInt8)) (timer : Option Exception) (outcome : WriteOutcome) (now : Timeval) :
    Option (Option (SockEngine Q)) :=
  match e.socks.find id with
  | some (.conn conn accepted) =>
    if rd then
      (Conn.processrd mask result timer conn).bind fun received =>
        let e := e.assign id (.conn received.2 accepted)
        match received.1 with
        | .ok (.data size) => some (some (e.tell id (.recv size) (.recv id wr)))
        | .ok .blocked => e.finish queue mask id wr outcome now
        | _ => some (some (e.clearchan id))
    else e.finish queue mask id wr outcome now
  | _ => some none

/-- `estabchan_` for a new connection, up to the callback. -/
def accept (buffer : Q) (e : SockEngine Q) (parent : ℤ) (now : Timeval) : Option (SockEngine Q) :=
  let (id, e) := e.nextid
  match e.socks.find parent with
  | none => none
  | some _ =>
    let e := { e.insert id (.conn (Conn.create buffer now) false) with current := some (id, .stream true) }
    some (e.tell id .accepted (.accepted id))

/-- `estabchan_` for a channel that was connecting, up to the callback. The old channel has no descriptor by then. -/
def establish (e : SockEngine Q) (id : ℤ) : Option (SockEngine Q) :=
  match e.socks.find id with
  | some (.conn _ _) =>
    let e := { e.setchan id (.client false false) with current := some (id, .stream true) }
    some (e.tell id .connected (.connected id))
  | _ => none

/-- `errorchan_`, up to the callback. -/
def errorchan (e : SockEngine Q) (id : ℤ) : Option (SockEngine Q) :=
  match e.socks.find id with
  | none => none
  | some _ => some (e.tell id .error (.error id))

/-- `aug_processchan` for a channel of the set, up to the callback. -/
def process (queue : WriteQueue Q) (mask : UInt32) (buffer : Q) (e : SockEngine Q) (id : ℤ) (outcome : ChannelOutcome) :
    Option (Option (SockEngine Q)) :=
  (e.chans.find id).bind fun chan =>
    if !chan.sd then some (some (e.clearchan id))
    else
      match chan, outcome with
      | _, .error => some (e.errorchan id)
      | .server _, .quiet | .client _ false, .quiet | .stream _, .quiet => some (some e)
      | .server _, .accept now => some (accept buffer e id now)
      | .client _ _, .established => some (e.establish id)
      | .stream _, .ready rd wr result timer outcome now => e.readychan queue mask id rd wr result timer outcome now
      | _, _ => none

/-- Take a socket out of the map, without a callback. -/
def remove (e : SockEngine Q) (id : ℤ) : SockEngine Q := { e with socks := e.socks.erase id }

/-- A callback about establishment has returned, and the current channel is let go. -/
def leave (e : SockEngine Q) : SockEngine Q := { e with current := none, frame := none }

/-- The rest of `estabchan_` for a new connection, and the fork. -/
def accepted (e : SockEngine Q) (id : ℤ) (keep : Bool) : Option (SockEngine Q) :=
  match e.socks.find id, e.current with
  | some (.conn conn _), some (_, chan) =>
    let e := if keep then (e.leave.assign id (.conn conn true)).setchan id chan else e.leave.remove id
    some (e.note id (.answered keep))
  | _, _ => none

/-- The rest of `estabclient_`: the stream takes the place of the old channel. -/
def connected (e : SockEngine Q) (id : ℤ) : Option (SockEngine Q) :=
  e.current.map fun current => e.leave.setchan id current.2

/-- One step. The engine works while no callback runs; a call may be made at any time. -/
def step (queue : WriteQueue Q) (mask : UInt32) (buffer : Q) (e : SockEngine Q) (action : SockAction) :
    Option (Option (SockEngine Q)) :=
  match action, e.frame with
  | .draw, _ => some (some e.nextid.2)
  | .tcpconnect est now, _ => some (some (tcpconnect buffer e est now))
  | .tcplisten, _ => some (some e.tcplisten)
  | .send id bytes memory wantwr now, _ => e.sendwith id (Conn.send queue mask bytes memory wantwr now)
  | .sendv id bytes memory wantwr now, _ => e.sendwith id (Conn.sendv queue mask bytes memory wantwr now)
  | .shutdown id now outcome, _ => e.shutdown queue mask id now outcome
  | .stop, none => if e.stopping then some (some e) else some (teardownFrom e.socks.entries { e with stopping := true })
  | .teardown, none => some (teardownFrom e.socks.entries e)
  | .process id outcome, none => e.process queue mask buffer id outcome
  | .answered keep, some (.accepted id) => some (e.accepted id keep)
  | .received outcome now, some (.recv id wr) => e.finish queue mask id wr outcome now
  | .returned, some (.connected id) => some (e.connected id)
  | .returned, some (.error id) => some (some (e.clearchan id))
  | .returned, some (.teardown id) => some (teardownFrom (e.behind id) e)
  | .returned, some (.closed _) => some (some { e with frame := none })
  | _, _ => none

/-- Steps as long as the work has an outcome. -/
def next (queue : WriteQueue Q) (mask : UInt32) (buffer : Q) (state : Option (SockEngine Q)) (action : SockAction) :
    Option (Option (SockEngine Q)) :=
  state.bind fun e => e.step queue mask buffer action

/-- What has happened to one socket. -/
def eventsOf (e : SockEngine Q) (id : ℤ) : List SockEvent := (e.log.filter fun entry => entry.1 = id).map Prod.snd

end SockEngine

end Aug.Aspp
