import Aug.Lib.Call
import Aug.Lib.Transition
import Aug.Sys.Time

/-!
# Connections

The connections of `conn.cpp`, with the functions of `engine.cpp` that lead to them. A call may throw, and
the result of every call to the outside (the stream, the channel, the timers and the pool) is given from
the outside. The queue for the output is a parameter. The step of a connection that processes events ends
at the callback of the session, which may call the engine, and goes on when the callback returns.
-/

namespace Aug.Aspp

open Aug.Lib Aug.Sys

/-- The exceptions of `exception.hpp`. -/
inductive Exception where
  | error
  | none
  | intr
  | block
  deriving DecidableEq

/-- The codes of the exceptions. -/
def Exception.code : Exception → UInt32
  | error => 1
  | none => 2
  | intr => 4
  | block => 8

/-- `throwexcept`: errors are always thrown, and the others if the mask has them. -/
def throwexcept (mask : UInt32) : Exception → Option Exception
  | .error => some .error
  | except => if mask &&& except.code ≠ 0 then some except else none

/-- `verify`, with the result as a `size_t`. -/
def verify (mask : UInt32) : Except Exception ℕ → Except Exception ℕ
  | .ok n => .ok n
  | .error except =>
    match throwexcept mask except with
    | some except => .error except
    | none => .ok (u64 (-1))

/-- `sockstate`. -/
inductive SockState where
  | connecting
  | established
  | listening
  | teardown
  | shutdown
  | closed
  deriving DecidableEq

/-- The order of the states. -/
def SockState.rank : SockState → ℕ
  | connecting => 0
  | established => 1
  | listening => 2
  | teardown => 3
  | shutdown => 4
  | closed => 5

/-- What the pool has: enough, not the entry for a blob, or not the bytes of a blob. -/
inductive Memory where
  | enough
  | entry
  | bytes
  deriving DecidableEq

/-- What a write has come to: the result, what the stream was given, and the queue. -/
structure Wrote (Q : Type) where
  result : Except Exception ℕ
  bytes : List (Option UInt8)
  queue : Q

/-- The operations of a queue for output. An append may throw. A write depends on the exception mask and
on what the stream returns. -/
structure WriteQueue (Q : Type) where
  empty : Q → Bool
  size : Q → ℕ
  append : Q → List UInt8 → Memory → Option Exception × Q
  appendblob : Q → List UInt8 → Memory → Option Exception × Q
  writesome : UInt32 → Q → Except Exception ℕ → Wrote Q

/-- What happens to the bytes of a connection. -/
inductive ConnEvent where
  | accept (bytes : List UInt8)
  | write (bytes : List (Option UInt8))
  | fin
  deriving DecidableEq

/-- The fields of `connimpl`, whether the channel was asked for write events, and the events. -/
structure Conn (Q : Type) where
  buffer : Q
  state : SockState
  since : Timeval
  wantwr : Bool
  events : List ConnEvent
  deriving DecidableEq

/-- A call on a connection. -/
abbrev ConnCall (Q α : Type) := Call (Conn Q) Exception α

/-- What the calls of the write part return: the exception code of each, or none. -/
structure WriteOutcome where
  write : Except Exception ℕ
  timer : Option Exception
  wantwr : Option Exception
  fin : Option Exception

/-- How the read part ends. -/
inductive Received where
  | blocked
  | closed
  | data (size : ℕ)
  deriving DecidableEq

namespace Conn

variable {Q : Type}

/-- `AUG_WRMAXWAIT`. -/
def wrmaxwait : ℕ := 5 * 1000

/-- `AUG_WRMAXTIME`. -/
def wrmaxtime : ℕ := 30 * 1000

/-- `AUG_WRCHECKAT`. -/
def wrcheckat : ℕ := 8 * 1024

/-- A new connection. -/
def create (buffer : Q) (now : Timeval) : Conn Q := ⟨buffer, .established, now, false, []⟩

/-- Verify the result of a call. -/
def check (mask : UInt32) (outcome : Option Exception) : ConnCall Q Unit :=
  match outcome.bind (throwexcept mask) with
  | none => pure ()
  | some except => Call.fail except

/-- `setchanwantwr`. -/
def setchanwantwr (mask : UInt32) (wantwr : Bool) (outcome : Option Exception) : ConnCall Q Unit := do
  check mask outcome
  if outcome = none then Call.modify fun conn => { conn with wantwr }

/-- `aug::shutdown`. -/
def fin (mask : UInt32) (outcome : Option Exception) : ConnCall Q Unit := do
  Call.modify fun conn => { conn with events := conn.events ++ [.fin] }
  check mask outcome

/-- `resetrwtimer`, which catches a `none_exception`. -/
def resetrwtimer (outcome : Option Exception) : ConnCall Q Unit :=
  match outcome with
  | none | some .none => pure ()
  | some except => Call.fail except

/-- `diffms`. -/
def diffms (before after : Timeval) : ℕ := (after.tvsub before).tvtoms

/-- `checkmaxwait`. -/
def checkmaxwait (since now : Timeval) : ConnCall Q Unit :=
  if wrmaxwait < diffms since now then Call.fail .error else pure ()

/-- `checkmaxtime`. -/
def checkmaxtime (n size : ℕ) (since now : Timeval) : ConnCall Q Unit :=
  let ms := diffms since now
  if ms = 0 then pure ()
  else
    let perms := u32 n / ms
    if perms = 0 then pure ()
    else
      let estms := u32 size / perms
      if estms = 0 then pure () else if wrmaxtime < estms then Call.fail .error else pure ()

/-- `connimpl::send` and `connimpl::sendv`, which differ in what they append. -/
def sendwith (queue : WriteQueue Q) (append : Q → Option Exception × Q) (mask : UInt32) (bytes : List UInt8)
    (wantwr : Option Exception) (now : Timeval) : ConnCall Q Unit := do
  let conn ← Call.read
  if queue.empty conn.buffer then
    Call.modify fun conn => { conn with since := now }
    setchanwantwr mask true wantwr
  let conn ← Call.read
  match append conn.buffer with
  | (none, buffer) => Call.modify fun conn => { conn with buffer, events := conn.events ++ [.accept bytes] }
  | (some except, buffer) => do
    Call.modify fun conn => { conn with buffer }
    Call.fail except

/-- `sendable`. -/
def sendable (conn : Conn Q) : Bool := conn.state.rank < SockState.shutdown.rank

/-- `engine::send`. -/
def send (queue : WriteQueue Q) (mask : UInt32) (bytes : List UInt8) (memory : Memory) (wantwr : Option Exception)
    (now : Timeval) : ConnCall Q Unit := do
  let conn ← Call.read
  if conn.sendable then sendwith queue (queue.append · bytes memory) mask bytes wantwr now else Call.fail .error

/-- `engine::sendv`. -/
def sendv (queue : WriteQueue Q) (mask : UInt32) (bytes : List UInt8) (memory : Memory) (wantwr : Option Exception)
    (now : Timeval) : ConnCall Q Unit := do
  let conn ← Call.read
  if conn.sendable then sendwith queue (queue.appendblob · bytes memory) mask bytes wantwr now else Call.fail .error

/-- `connimpl::shutdown` without `MOD_SHUTNOW`. A channel that is not a stream is closed. -/
def shutdown (queue : WriteQueue Q) (mask : UInt32) (stream : Bool) (outcome : Option Exception) : ConnCall Q Unit := do
  let conn ← Call.read
  if SockState.shutdown.rank ≤ conn.state.rank then pure ()
  else if !stream then
    Call.modify fun conn => { conn with state := .closed }
    check mask outcome
  else
    Call.modify fun conn => { conn with state := .shutdown }
    if queue.empty conn.buffer then fin mask outcome

/-- `connimpl::teardown`, up to the callback of the session. -/
def teardown : ConnCall Q Unit :=
  Call.modify fun conn =>
    if conn.state.rank < SockState.teardown.rank then { conn with state := .teardown } else conn

/-- The read part of `connimpl::process_BI`, up to the callback. A `block_exception` is caught. -/
def processrd (mask : UInt32) (result : Except Exception (List UInt8)) (timer : Option Exception) :
    ConnCall Q Received :=
  match verify mask (result.map List.length) with
  | .ok 0 => do
    Call.modify fun conn => { conn with state := .closed }
    pure .closed
  | .ok size =>
    match timer with
    | none | some .none => pure (.data size)
    | some .block => pure .blocked
    | some except => Call.fail except
  | .error .block => pure .blocked
  | .error except => Call.fail except

/-- The write part of `connimpl::process_BI` for a write event. -/
def processwr (queue : WriteQueue Q) (mask : UInt32) (outcome : WriteOutcome) (now : Timeval) : ConnCall Q Unit := do
  let conn ← Call.read
  let wrote := queue.writesome mask conn.buffer outcome.write
  Call.modify fun conn => { conn with buffer := wrote.queue, events := conn.events ++ [.write wrote.bytes] }
  match wrote.result with
  | .error except => Call.fail except
  | .ok n => do
    resetrwtimer outcome.timer
    let conn ← Call.read
    if queue.empty conn.buffer then
      setchanwantwr mask false outcome.wantwr
      if SockState.shutdown.rank ≤ conn.state.rank then fin mask outcome.fin
    else
      if wrcheckat < queue.size conn.buffer then checkmaxtime n (queue.size conn.buffer) conn.since now
      Call.modify fun conn => { conn with since := now }

/-- The write part of `connimpl::process_BI`. -/
def process (queue : WriteQueue Q) (mask : UInt32) (wr : Bool) (outcome : WriteOutcome) (now : Timeval) :
    ConnCall Q Unit :=
  if wr then processwr queue mask outcome now
  else do
    let conn ← Call.read
    if queue.empty conn.buffer then pure () else checkmaxwait conn.since now

/-- The end of `readychan_`: the connection is closed if an exception was thrown. -/
def ready (result : Except Exception Unit × Conn Q) : Bool :=
  match result.1 with
  | .error _ => false
  | .ok () => decide (result.2.state ≠ .closed)

/-- The read part of `readychan_` with a callback, and the connection before the write part. -/
def receive (mask : UInt32) (rd : Bool) (result : Except Exception (List UInt8)) (timer : Option Exception)
    (recv : ℕ → Conn Q → Conn Q) (conn : Conn Q) : Option (Conn Q) :=
  if rd then
    match processrd mask result timer conn with
    | some (.ok (.data size), next) => some (recv size next)
    | some (.ok .blocked, next) => some next
    | _ => none
  else some conn

/-- `readychan_`, with the effect of the callback: whether the channel is kept, and the connection. -/
def readychan (queue : WriteQueue Q) (mask : UInt32) (rd wr : Bool) (result : Except Exception (List UInt8))
    (timer : Option Exception) (recv : ℕ → Conn Q → Conn Q) (outcome : WriteOutcome) (now : Timeval) (conn : Conn Q) :
    Bool × Conn Q :=
  match receive mask rd result timer recv conn with
  | none => (false, conn)
  | some next =>
    match process queue mask wr outcome now next with
    | none => (false, next)
    | some last => (ready last, last.2)

end Conn

/-- A connection that waits for events or for the return of the callback, or that has been removed. -/
inductive Connection (Q : Type) where
  | idle (conn : Conn Q)
  | receiving (conn : Conn Q) (wr : Bool)
  | removed (events : List ConnEvent)

/-- A call of the engine, an event of the channel, or the return of the callback. -/
inductive ConnAction where
  | send (bytes : List UInt8) (memory : Memory) (wantwr : Option Exception) (now : Timeval)
  | sendv (bytes : List UInt8) (memory : Memory) (wantwr : Option Exception) (now : Timeval)
  | shutdown (stream : Bool) (outcome : Option Exception)
  | teardown
  | ready (rd wr : Bool) (result : Except Exception (List UInt8)) (timer : Option Exception) (outcome : WriteOutcome)
    (now : Timeval)
  | received (outcome : WriteOutcome) (now : Timeval)

namespace Connection

variable {Q : Type}

/-- A call of the engine, whose exception is that of the caller. -/
def engine (connection : Connection Q) (call : ConnCall Q Unit) : Option (Connection Q) :=
  match connection with
  | idle conn => (call conn).map fun result => idle result.2
  | receiving conn wr => (call conn).map fun result => receiving result.2 wr
  | removed _ => none

/-- The write part, and the end of `readychan_`. -/
def finish (queue : WriteQueue Q) (mask : UInt32) (wr : Bool) (outcome : WriteOutcome) (now : Timeval) (conn : Conn Q) :
    Option (Connection Q) :=
  (Conn.process queue mask wr outcome now conn).map fun result =>
    if Conn.ready result then idle result.2 else removed result.2.events

/-- One step. -/
def step (queue : WriteQueue Q) (mask : UInt32) (connection : Connection Q) : ConnAction → Option (Connection Q)
  | .send bytes memory wantwr now => connection.engine (Conn.send queue mask bytes memory wantwr now)
  | .sendv bytes memory wantwr now => connection.engine (Conn.sendv queue mask bytes memory wantwr now)
  | .shutdown stream outcome => connection.engine (Conn.shutdown queue mask stream outcome)
  | .teardown => connection.engine Conn.teardown
  | .ready rd wr result timer outcome now =>
    match connection with
    | idle conn =>
      if rd then
        (Conn.processrd mask result timer conn).bind fun received =>
          match received with
          | (.ok (.data _), next) => some (receiving next wr)
          | (.ok .blocked, next) => finish queue mask wr outcome now next
          | (_, next) => some (removed next.events)
      else finish queue mask wr outcome now conn
    | _ => none
  | .received outcome now =>
    match connection with
    | receiving conn wr => finish queue mask wr outcome now conn
    | _ => none

end Connection

end Aug.Aspp
