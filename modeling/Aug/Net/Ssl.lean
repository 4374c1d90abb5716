import Aug.Net.SslFifo
import Aug.Sys.Muxer

/-!
# SSL channels

The channel of `ssl.c` between its user and the SSL library. Each round of the channel has the sticky events that
it finds and the results of the library calls that it may make; the events are left open, so that the masks that
lead to them are not modelled. What the user does while a round calls back follows the round as calls of its own.
The log has the calls of the library and the ends and errors that the channel records.
-/

namespace Aug.Net.Ssl

open Lib Sys

/-- `struct aug_errinfo`, without the place in the source. -/
structure ErrInfo where
  src : String
  num : ℕ
  desc : String
  deriving DecidableEq

/-- `aug_clearerrinfo`. -/
def ErrInfo.clear : ErrInfo := ⟨"", 0, ""⟩

/-- `AUG_EIO`, for a system call error that could not be obtained. -/
def ErrInfo.eio (desc : String) : ErrInfo := ⟨"aug", 11, desc⟩

/-- The result of `SSL_get_error`. -/
inductive SslError where
  | none
  | wantRead
  | wantWrite
  | syscall
  | zeroReturn
  | other (err : ℕ)
  deriving DecidableEq

/-- A call of `SSL_read` with what is asked of the library behind it. `errinfo` is what the system or the library
has for an error. -/
structure ReadAnswer where
  n : ℤ
  stored : List UInt8
  error : SslError
  pending : ℕ
  errinfo : ErrInfo

/-- A call of `SSL_shutdown`. -/
structure ShutdownAnswer where
  ret : ℤ
  errinfo : ErrInfo

/-- A call of `SSL_write` or of `SSL_do_handshake`, with the shutdown that may follow it. -/
structure WriteAnswer where
  n : ℤ
  error : SslError
  errinfo : ErrInfo
  shutdown : ShutdownAnswer

/-- What happens on the way. `endof` comes with the bytes that are still buffered. -/
inductive SslEvent where
  | read
  | write
  | shutdown
  | endof (left : List UInt8)
  | error (errinfo : ErrInfo)
  deriving DecidableEq

namespace State

def neutral : UInt32 := 0x01
def read : UInt32 := 0x02
def write : UInt32 := 0x04
def pendrd : UInt32 := 0x08
def wantrd : UInt32 := 0x10
def wantwr : UInt32 := 0x20
def endof : UInt32 := 0x40
def error : UInt32 := 0x80
def rdpendrd : UInt32 := read ||| pendrd
def rdwantrd : UInt32 := read ||| wantrd
def rdwantwr : UInt32 := read ||| wantwr
def wrwantrd : UInt32 := write ||| wantrd
def wrwantwr : UInt32 := write ||| wantwr
def handshake : UInt32 := write ||| wantwr

end State

/-- `struct impl_`. -/
structure Impl where
  closed : Bool
  wantwr : Bool
  inbuf : Buf
  outbuf : Buf
  state : UInt32
  errinfo : ErrInfo
  shutdown : Bool

namespace Impl

/-- `createssl_`. -/
def create (wantwr : Bool) (incells outcells : Vector UInt8 bufsize) : Impl where
  closed := false
  wantwr := wantwr
  inbuf := ⟨incells.toList, 0, 0⟩
  outbuf := ⟨outcells.toList, 0, 0⟩
  state := State.handshake
  errinfo := .clear
  shutdown := false

/-- `isexcept_`. -/
def isexcept (impl : Impl) (events : UInt16) : Bool :=
  impl.state &&& (State.endof ||| State.error) ≠ 0 || events &&& mdeventex ≠ 0

/-- `isread_`. -/
def isread (impl : Impl) (events : UInt16) : Bool :=
  if impl.state &&& State.write ≠ 0 then false
  else
    State.rdpendrd = impl.state || events &&& mdeventrd ≠ 0 ||
      (events &&& mdeventwr ≠ 0 && State.rdwantwr = impl.state)

/-- `iswrite_`. -/
def iswrite (impl : Impl) (events : UInt16) : Bool :=
  if impl.state &&& State.read ≠ 0 then false
  else events &&& mdeventwr ≠ 0 || (events &&& mdeventrd ≠ 0 && State.wrwantrd = impl.state)

/-- `shutwr_`, with the error of a shutdown that fails. -/
def shutwr (answer : ShutdownAnswer) : Option ErrInfo := if answer.ret < 0 then some answer.errinfo else none

/-- `readyevents_`. -/
def readyevents (impl : Impl) : UInt16 :=
  (if impl.state &&& (State.endof ||| State.error) ≠ 0 || !impl.inbuf.bufempty then mdeventrd else 0) |||
    (if impl.wantwr && !impl.outbuf.buffull then mdeventwr else 0)

/-- Save an error locally. -/
def fail (impl : Impl) (errinfo : ErrInfo) : Impl := { impl with errinfo, state := State.error }

/-- The error of a system call, or one that says so if there is none. -/
def syscallError (errinfo : ErrInfo) (desc : String) : ErrInfo := if errinfo.num = 0 then .eio desc else errinfo

/-- What `readwrite_` makes of the result of a read, and whether it proceeds with a write. -/
def readSwitch (impl : Impl) (answer : ReadAnswer) : Impl × List SslEvent × Bool :=
  match answer.error with
  | .none =>
    if answer.pending ≠ 0 then ({ impl with state := State.rdpendrd }, [.read], false)
    else ({ impl with state := State.neutral }, [.read], true)
  | .wantRead => ({ impl with state := State.rdwantrd }, [.read], false)
  | .wantWrite => ({ impl with state := State.rdwantwr }, [.read], false)
  | .syscall =>
    let errinfo := syscallError answer.errinfo "ssl read syscall error"
    (impl.fail errinfo, [.read, .error errinfo], false)
  | .zeroReturn =>
    ({ impl with state := State.endof },
      [.read] ++ (if impl.shutdown then [] else [.shutdown]) ++ [.endof impl.inbuf.content], false)
  | .other _ => (impl.fail answer.errinfo, [.read, .error answer.errinfo], false)

/-- The read operation of `readwrite_`. -/
def readHalf (impl : Impl) (answer : ReadAnswer) : Option (Impl × List SslEvent × Bool) :=
  (impl.inbuf.sslread answer.n answer.stored).map fun (_, _, inbuf) => { impl with inbuf }.readSwitch answer

/-- What `readwrite_` makes of the result of a write. A deferred shutdown follows the last of the output. -/
def writeSwitch (impl : Impl) (answer : WriteAnswer) : Impl × List SslEvent :=
  match answer.error with
  | .none =>
    if impl.shutdown && impl.outbuf.bufempty then
      match shutwr answer.shutdown with
      | some errinfo =>
        let impl := impl.fail errinfo
        ({ impl with state := State.neutral }, [.write, .shutdown, .error errinfo])
      | none => ({ impl with state := State.neutral }, [.write, .shutdown])
    else ({ impl with state := State.neutral }, [.write])
  | .wantRead => ({ impl with state := State.wrwantrd }, [.write])
  | .wantWrite => ({ impl with state := State.wrwantwr }, [.write])
  | .syscall =>
    let errinfo := syscallError answer.errinfo "ssl write syscall error"
    (impl.fail errinfo, [.write, .error errinfo])
  | _ => (impl.fail answer.errinfo, [.write, .error answer.errinfo])

/-- The write operation of `readwrite_`. -/
def writeHalf (impl : Impl) (answer : WriteAnswer) : Option (Impl × List SslEvent) :=
  (impl.outbuf.sslwriteshake answer.n).map fun (_, _, outbuf) => { impl with outbuf }.writeSwitch answer

end Impl

/-- A round of the channel: the sticky events, a socket error, whether a look at the socket would block, the
answers of the library, and whether the user keeps the channel. -/
structure Round where
  events : UInt16
  sockerr : Option ErrInfo
  peekBlocks : Bool
  read : ReadAnswer
  write : WriteAnswer
  keep : Bool

/-- What a call returns. -/
inductive SslResult where
  | processed (kept : Bool)
  | bytes (bytes : List UInt8)
  | count (n : ℕ)
  | failed (errinfo : ErrInfo)
  | blocks
  | eshutdown
  | done
  deriving DecidableEq

namespace Impl

/-- The second half of `readwrite_`. -/
def writeIf (impl : Impl) (events : UInt16) (answer : WriteAnswer) : Option (Impl × List SslEvent) :=
  if impl.iswrite events then impl.writeHalf answer else some (impl, [])

/-- `readwrite_`. -/
def readwrite (impl : Impl) (events : UInt16) (round : Round) : Option (Impl × List SslEvent) :=
  if impl.isread events && !impl.inbuf.buffull then do
    let (impl, log, proceed) ← impl.readHalf round.read
    if proceed then (impl.writeIf events round.write).map fun (impl, log') => (impl, log ++ log')
    else some (impl, log)
  else impl.writeIf events round.write

/-- `error_`. -/
def socketError (round : Round) : Option ErrInfo :=
  if round.events &&& mdeventex ≠ 0 then round.sockerr else none

/-- The events that `cprocess_BI_` goes on with: in the neutral state a read event is dropped if nothing is there. -/
def peeked (impl : Impl) (round : Round) : UInt16 :=
  if State.neutral = impl.state && round.events &&& mdeventrd ≠ 0 && round.peekBlocks then
    round.events &&& ~~~mdeventrd
  else round.events

/-- `cprocess_BI_`. -/
def cprocess (impl : Impl) (round : Round) : Option (Impl × List SslEvent × SslResult) :=
  if impl.closed then some (impl, [], .processed false)
  else if (socketError round).isSome then some (impl, [], .processed false)
  else do
    let (impl, log) ←
      if impl.peeked round ≠ 0 then impl.readwrite (impl.peeked round) round else some (impl, [])
    return (impl, log, .processed (impl.readyevents = 0 || round.keep))

/-- `cisready_`. -/
def cisready (impl : Impl) (events : UInt16) : Bool :=
  impl.closed || impl.readyevents ≠ 0 || impl.isexcept events || impl.isread events || impl.iswrite events

/-- The body that `sread_` and `sreadv_` share. -/
def sreadWith (impl : Impl) (readbuf : Buf → Option (ℕ × List UInt8 × Buf)) : Option (Impl × SslResult) :=
  if State.error = impl.state then some (impl, .failed impl.errinfo)
  else if State.endof = impl.state ∧ impl.inbuf.bufempty then some (impl, .bytes [])
  else if impl.inbuf.bufempty then some (impl, .blocks)
  else do
    let (_, bytes, inbuf) ← readbuf impl.inbuf
    return ({ impl with inbuf }, .bytes bytes)

/-- `sread_`. -/
def sread (impl : Impl) (size : ℕ) : Option (Impl × SslResult) := impl.sreadWith (·.readbuf size)

/-- `sreadv_`. -/
def sreadv (impl : Impl) (iov : List ℕ) : Option (Impl × SslResult) := impl.sreadWith (·.readbufv iov)

/-- The body that `swrite_` and `swritev_` share. -/
def swriteWith (impl : Impl) (writebuf : Buf → Option (ℕ × List UInt8 × Buf)) : Option (Impl × SslResult) :=
  if impl.outbuf.buffull then some (impl, .blocks)
  else if impl.shutdown then some (impl, .eshutdown)
  else do
    let (ret, _, outbuf) ← writebuf impl.outbuf
    return ({ impl with outbuf }, .count ret)

/-- `swrite_`. -/
def swrite (impl : Impl) (buf : List UInt8) : Option (Impl × SslResult) := impl.swriteWith (·.writebuf buf)

/-- `swritev_`. -/
def swritev (impl : Impl) (iov : List (List UInt8)) : Option (Impl × SslResult) := impl.swriteWith (·.writebufv iov)

/-- `sshutdown_`. The shutdown waits for the output buffer to be written. -/
def sshutdown (impl : Impl) (answer : ShutdownAnswer) : Impl × List SslEvent × SslResult :=
  let impl := { impl with shutdown := true }
  if impl.outbuf.bufempty then
    match shutwr answer with
    | some errinfo => (impl, [.shutdown], .failed errinfo)
    | none => (impl, [.shutdown], .done)
  else (impl, [], .done)

end Impl

end Aug.Net.Ssl
