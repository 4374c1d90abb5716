import Aug.Lib.Dialogue
import Aug.Sys.Muxer

/-!
# Client channels

The connector of `tcpconnect.c` and the client channel of `chan.c`, which tries the addresses of a host one after
the other until a connection is established, and then passes the descriptor to a new channel and everything else
on to it. What the system, the muxer, the handler and the new channel answer is left to an environment.
-/

namespace Aug.Net

open Aug.Lib Aug.Sys

/-- What becomes of `aug_connect_BI`: `EINPROGRESS` and `EWOULDBLOCK` mean that it is pending. -/
inductive Connecting
  | connected
  | pending
  | failed
deriving DecidableEq, Repr

/-- What `aug_established` finds: `AUG_EXNONE` means that the connection is not established. -/
inductive Establishing
  | established
  | none
  | failed
deriving DecidableEq, Repr

/-- A call that a client channel passes on. -/
inductive Forwarded
  | close
  | process
  | setwantwr (wantwr : Bool)
  | release
deriving DecidableEq, Repr

/-- The calls that a client channel makes. A descriptor is none if it is `AUG_BADSD`; the new channel is known by
the descriptor it has been made with. -/
inductive ClientCall (A : Type)
  | allocmem
  | socket (ep : A)
  | ssetnonblock (sd : ℕ)
  | connect (sd : ℕ) (ep : A)
  | established (sd : ℕ)
  | getsockerr (sd : ℕ)
  | sclose (sd : ℕ)
  | endpointntop (ep : A)
  | setmdeventmask (sd : Option ℕ) (mask : UInt16)
  | getmdevents (sd : ℕ)
  | createplain (sd : ℕ) (wantwr : Bool)
  | errorchan
  | estabchan (chan : ℕ)
  | forward (chan : ℕ) (call : Forwarded)
deriving DecidableEq, Repr

variable {A : Type}

/-- What the calls return: a flag tells that there is a result, that there is a pending error, or that the handler
closes the channel while it is told of an error. -/
def ClientReply : ClientCall A → Type
  | .socket _ => Option ℕ
  | .connect _ _ => Connecting
  | .established _ => Establishing
  | .getmdevents _ => UInt16
  | _ => Bool

/-- A part of a client channel. -/
abbrev Client (A α : Type) : Type := Dialogue (ClientReply (A := A)) α

/-- Make a call. -/
abbrev ask (call : ClientCall A) : Client A (ClientReply call) := Dialogue.ask call

/-- `AUG_MDEVENTCONN`. -/
def mdeventconn : UInt16 := mdeventwr ||| mdeventex

/-- A connector (`struct aug_tcpconnect_`): the addresses from the current one on, and the pending descriptor. -/
structure Tcpconnect (A : Type) where
  res : List A
  sd : Option ℕ
deriving DecidableEq, Repr

/-- The descriptor that `aug_tryconnect_BI` returns, with its address and whether it is established. -/
structure Tried (A : Type) where
  sd : ℕ
  ep : A
  est : Bool
deriving DecidableEq, Repr

namespace Tcpconnect

/-- `aug_destroytcpconnect`. -/
def destroy (conn : Tcpconnect A) : Client A Unit :=
  match conn.sd with
  | none => pure ()
  | some sd => do
    let _ ← ask (.sclose sd)

/-- The loop of `aug_tryconnect_BI` over the addresses that are left. -/
def attempts : List A → Client A (Tcpconnect A × Option (Tried A))
  | [] => pure (⟨[], none⟩, none)
  | ep :: rest => do
    let sd : Option ℕ ← ask (.socket ep)
    match sd with
    | none => attempts rest
    | some sd =>
      let nonblock : Bool ← ask (.ssetnonblock sd)
      if nonblock then
        let connecting : Connecting ← ask (.connect sd ep)
        match connecting with
        | .connected => pure (⟨ep :: rest, none⟩, some ⟨sd, ep, true⟩)
        | .pending => pure (⟨ep :: rest, some sd⟩, some ⟨sd, ep, false⟩)
        | .failed =>
          let closed : Bool ← ask (.sclose sd)
          if closed then attempts rest else pure (⟨ep :: rest, none⟩, none)
      else
        let _ ← ask (.sclose sd)
        pure (⟨ep :: rest, none⟩, none)

/-- `aug_tryconnect_BI`. -/
def tryconnect (conn : Tcpconnect A) : Client A (Tcpconnect A × Option (Tried A)) :=
  match conn.res, conn.sd with
  | [], _ => pure (⟨[], none⟩, none)
  | ep :: rest, none => attempts (ep :: rest)
  | ep :: rest, some sd => do
    let establishing : Establishing ← ask (.established sd)
    match establishing, rest with
    | .established, rest => pure (⟨ep :: rest, none⟩, some ⟨sd, ep, true⟩)
    | .none, [] =>
      let _ ← ask (.getsockerr sd)
      let _ ← ask (.sclose sd)
      pure (⟨[], none⟩, none)
    | .none, next :: rest =>
      let closed : Bool ← ask (.sclose sd)
      if closed then attempts (next :: rest) else pure (⟨next :: rest, none⟩, none)
    | .failed, rest =>
      let _ ← ask (.sclose sd)
      pure (⟨ep :: rest, none⟩, none)

end Tcpconnect

/-- A client channel (`struct cimpl_`); `fwd` is the channel that has replaced it. -/
structure Cimpl (A : Type) where
  refs : ℕ
  sd : Option ℕ
  wantwr : Bool
  conn : Tcpconnect A
  est : Bool
  fwd : Option ℕ
deriving DecidableEq, Repr

/-- The channel that `aug_processchan_BI` returns. -/
inductive Returned
  | null
  | self
  | forward (chan : ℕ)
deriving DecidableEq, Repr

namespace Cimpl

/-- `fail1` in `aug_createclient_BI`. -/
def fail1 (conn : Tcpconnect A) : Client A (Option (Cimpl A)) := do
  conn.destroy
  pure none

/-- `fail2`: an established descriptor is the caller's. -/
def fail2 (conn : Tcpconnect A) (sd : ℕ) (est : Bool) : Client A (Option (Cimpl A)) :=
  if est then do
    let _ ← ask (.sclose sd)
    fail1 conn
  else fail1 conn

/-- `fail3`. -/
def fail3 (conn : Tcpconnect A) (sd : ℕ) (est : Bool) : Client A (Option (Cimpl A)) :=
  if est then fail2 conn sd est
  else do
    let _ ← ask (.setmdeventmask (some sd) 0)
    fail2 conn sd est

/-- The part of `aug_createclient_BI` from the allocation of the channel on. -/
def allocate (conn : Tcpconnect A) (sd : ℕ) (est : Bool) : Client A (Option (Cimpl A)) := do
  let allocated : Bool ← ask .allocmem
  if allocated then pure (some { refs := 1, sd := some sd, wantwr := false, conn, est, fwd := none })
  else fail3 conn sd est

/-- `aug_createclient_BI` on the addresses of the host. -/
def createclient (addrs : List A) : Client A (Option (Cimpl A)) := do
  let allocated : Bool ← ask .allocmem
  if allocated then
    let (conn, tried) ← Tcpconnect.tryconnect ⟨addrs, none⟩
    match tried with
    | none => fail1 conn
    | some ⟨sd, ep, est⟩ =>
      let named : Bool ← ask (.endpointntop ep)
      if named then
        if est then allocate conn sd est
        else
          let masked : Bool ← ask (.setmdeventmask (some sd) mdeventconn)
          if masked then allocate conn sd est else fail2 conn sd est
      else fail2 conn sd est
  else pure none

/-- `cclose_`. The flag is set with a descriptor only. -/
def cclose (impl : Cimpl A) : Client A Unit := do
  let _ ← ask (.setmdeventmask impl.sd 0)
  match impl.est, impl.sd with
  | true, some sd =>
    let _ ← ask (.sclose sd)
  | _, _ => pure ()

/-- `cchan_close_`. -/
def close (impl : Cimpl A) : Client A (Cimpl A) :=
  match impl.fwd with
  | some chan => do
    let _ ← ask (.forward chan .close)
    pure impl
  | none => do
    impl.cclose
    pure { impl with sd := none, est := false }

/-- `aug_errorchan`, in which the handler may close the channel. -/
def errorchan (impl : Cimpl A) : Client A (Cimpl A) := do
  let closes : Bool ← ask .errorchan
  if closes then impl.close else pure impl

/-- `estabclient_` on the descriptor of the channel. -/
def estabclient (impl : Cimpl A) (sd : ℕ) : Client A (Cimpl A × Returned) := do
  let impl := { impl with sd := none, est := false }
  let created : Bool ← ask (.createplain sd impl.wantwr)
  if created then
    let impl := { impl with fwd := some sd }
    let accepted : Bool ← ask (.estabchan sd)
    pure (impl, if accepted then .forward sd else .null)
  else
    let impl ← impl.errorchan
    let _ ← ask (.sclose sd)
    pure (impl, .null)

/-- The part of `cchan_process_BI_` for a descriptor that is ready. -/
def connected (impl : Cimpl A) (sd : ℕ) : Client A (Cimpl A × Returned) := do
  let masked : Bool ← ask (.setmdeventmask (some sd) 0)
  if masked then
    let (conn, tried) ← impl.conn.tryconnect
    match tried with
    | none => do
      let impl ← errorchan { impl with sd := none, conn }
      pure (impl, .null)
    | some ⟨sd, ep, est⟩ =>
      let impl := { impl with sd := some sd, conn, est }
      let _ ← ask (.endpointntop ep)
      if est then impl.estabclient sd
      else
        let _ ← ask (.setmdeventmask (some sd) mdeventconn)
        pure ({ impl with refs := impl.refs + 1 }, .self)
  else
    let impl ← impl.errorchan
    pure (impl, .null)

/-- `error_`: whether there is a pending error, of which the handler is told. -/
def error (impl : Cimpl A) (sd : ℕ) (events : UInt16) : Client A (Cimpl A × Bool) :=
  if events &&& mdeventex = 0 then pure (impl, false)
  else do
    let error : Bool ← ask (.getsockerr sd)
    if error then
      let impl ← impl.errorchan
      pure (impl, true)
    else pure (impl, false)

/-- `cchan_process_BI_`. -/
def process (impl : Cimpl A) : Client A (Cimpl A × Returned) :=
  match impl.fwd, impl.sd with
  | some chan, _ => do
    let returned : Bool ← ask (.forward chan .process)
    pure (impl, if returned then .forward chan else .null)
  | none, none => pure (impl, .null)
  | none, some sd =>
    if impl.est then impl.estabclient sd
    else do
      let events : UInt16 ← ask (.getmdevents sd)
      let (impl, error) ← impl.error sd events
      if error then pure (impl, .null)
      else if events &&& mdeventconn = 0 then pure ({ impl with refs := impl.refs + 1 }, .self)
      else impl.connected sd

/-- `cchan_setwantwr_`. -/
def setwantwr (impl : Cimpl A) (wantwr : Bool) : Client A (Cimpl A) :=
  match impl.fwd with
  | some chan => do
    let _ ← ask (.forward chan (.setwantwr wantwr))
    pure impl
  | none => pure { impl with wantwr }

/-- `cretain_`. -/
def retain (impl : Cimpl A) : Cimpl A := { impl with refs := impl.refs + 1 }

/-- `crelease_`: the channel is freed with its last reference. -/
def release (impl : Cimpl A) : Client A (Option (Cimpl A)) :=
  if impl.refs - 1 = 0 then do
    impl.conn.destroy
    (if impl.sd ≠ none then impl.cclose else pure ())
    match impl.fwd with
    | none => pure none
    | some chan =>
      let _ ← ask (.forward chan .release)
      pure none
  else pure (some { impl with refs := impl.refs - 1 })

end Cimpl

/-- The calls of a client channel's users. -/
inductive ClientAction
  | process
  | close
  | setwantwr (wantwr : Bool)
  | retain
  | release
deriving DecidableEq, Repr

namespace Cimpl

/-- One call. -/
def perform (impl : Cimpl A) : ClientAction → Client A (Option (Cimpl A))
  | .process => do
    let (impl, _) ← impl.process
    pure (some impl)
  | .close => some <$> impl.close
  | .setwantwr wantwr => some <$> impl.setwantwr wantwr
  | .retain => pure (some impl.retain)
  | .release => impl.release

/-- The calls up to the one that frees the channel. -/
def performs : Option (Cimpl A) → List ClientAction → Client A (Option (Cimpl A))
  | none, _ => pure none
  | some impl, [] => pure (some impl)
  | some impl, action :: actions => do
    let impl ← impl.perform action
    performs impl actions

/-- A run of a client channel: it is created, and calls are made until it is freed. -/
def client (addrs : List A) (actions : List ClientAction) : Client A (Option (Cimpl A)) := do
  let impl ← createclient addrs
  performs impl actions

end Cimpl

end Aug.Net
