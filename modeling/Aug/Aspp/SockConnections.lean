import Aug.Aspp.ConnShutdown
import Aug.Aspp.SockEngine
import Aug.Lib.Transition

/-!
# The connections of an engine

Among all that an engine does, each of its connections goes through a run of its own: the calls, callbacks and events of
others leave it as it is. So what holds in every run of one connection holds of each connection of an engine.
-/

namespace Aug.Aspp

open Lib Sys Util

variable {Q : Type} {queue : WriteQueue Q} {mask : UInt32} {buffer : Q}

namespace Connection

variable {connection next : Connection Q} {action : ConnAction}

/-- A run of one connection from its beginning. -/
def Reached (queue : WriteQueue Q) (mask : UInt32) (buffer : Q) (connection : Connection Q) : Prop :=
  ∃ now actions, run (step queue mask) (idle (Conn.create buffer now)) actions = some connection

theorem reached_create (now : Timeval) : (idle (Conn.create buffer now)).Reached queue mask buffer := ⟨now, [], rfl⟩

theorem Reached.step (h : connection.Reached queue mask buffer)
    (hstep : connection.step queue mask action = some next) : next.Reached queue mask buffer := by
  obtain ⟨now, actions, hrun⟩ := h
  exact ⟨now, actions ++ [action], run_concat hrun hstep⟩

end Connection

/-- What has to wait has changed nothing. -/
theorem Conn.processrd_blocked (result : Except Exception (List UInt8)) (timer : Option Exception) (conn : Conn Q) :
    (Conn.processrd mask result timer).Ends conn fun received last => received = .ok .blocked → last = conn := by
  rw [Conn.processrd]
  split
  · apply (Call.returns_modify _ conn).bind_ends
    exact Call.ends_of_eq rfl (by simp)
  · split
    · exact Call.ends_of_eq rfl (by simp)
    · exact Call.ends_of_eq rfl (by simp)
    · exact Call.ends_of_eq rfl fun _ => rfl
    · exact Call.ends_of_eq rfl (by simp)
  · exact Call.ends_of_eq rfl fun _ => rfl
  · exact Call.ends_of_eq rfl (by simp)

namespace SockEngine

variable {e e' : SockEngine Q} {id other : ℤ} {conn : Conn Q} {sock : Sock Q} {accepted wr : Bool}

/-- Where a connection of the engine is: its session is receiving, or not. -/
def connection (e : SockEngine Q) (id : ℤ) (conn : Conn Q) : Connection Q :=
  match e.frame with
  | some (.recv rid wr) => if rid = id then .receiving conn wr else .idle conn
  | _ => .idle conn

/-- Each connection is where a run of its own leads, and a session that receives has a socket. -/
structure Separate (queue : WriteQueue Q) (mask : UInt32) (buffer : Q) (e : SockEngine Q) : Prop where
  reached : ∀ id conn accepted, e.socks.find id = some (.conn conn accepted) →
    (e.connection id conn).Reached queue mask buffer
  hosted : ∀ id wr, e.frame = some (.recv id wr) → ∃ sock, e.socks.find id = some sock

theorem connection_congr (h : e'.frame = e.frame) (id : ℤ) (conn : Conn Q) :
    e'.connection id conn = e.connection id conn := by
  rw [connection, connection, h]

theorem connection_recv (h : e.frame = some (.recv id wr)) (conn : Conn Q) :
    e.connection id conn = .receiving conn wr := by
  rw [connection, h]
  exact if_pos rfl

theorem connection_idle (h : ∀ wr, e.frame ≠ some (.recv id wr)) (conn : Conn Q) :
    e.connection id conn = .idle conn := by
  rw [connection]
  split
  · rename_i rid wr hframe
    apply if_neg
    intro hid
    rw [hid] at hframe
    exact h wr hframe
  · rfl

theorem find_assign : (e.assign id sock).socks.find other = if other = id then some sock else e.socks.find other :=
  OrderedMap.find_put idGt id other sock e.socks

/-- Where the sockets and the callback stay as they are. -/
theorem Separate.keep (h : e.Separate queue mask buffer) (hsocks : e'.socks = e.socks) (hframe : e'.frame = e.frame) :
    e'.Separate queue mask buffer where
  reached id conn accepted hsock := by
    rw [connection_congr hframe]
    rw [hsocks] at hsock
    exact h.reached id conn accepted hsock
  hosted id wr hrecv := by
    rw [hsocks]
    rw [hframe] at hrecv
    exact h.hosted id wr hrecv

/-- Where one socket is assigned. -/
theorem Separate.assign (h : e.Separate queue mask buffer)
    (hself : ∀ conn accepted, sock = .conn conn accepted → (e.connection id conn).Reached queue mask buffer) :
    (e.assign id sock).Separate queue mask buffer where
  reached other conn accepted hother := by
    have hsame : (e.assign id sock).connection other conn = e.connection other conn := connection_congr rfl other conn
    rw [hsame]
    rw [find_assign] at hother
    split_ifs at hother with hid
    · rw [Option.some.injEq] at hother
      rw [hid]
      exact hself conn accepted hother
    · exact h.reached other conn accepted hother
  hosted other wr hrecv := by
    rw [find_assign]
    split_ifs
    · exact ⟨sock, rfl⟩
    · exact h.hosted other wr hrecv

/-- Where the session of one socket at most is receiving, before and after. -/
theorem Separate.moves (h : e.Separate queue mask buffer)
    (hframe : ∀ other wr, e.frame = some (.recv other wr) → other = id)
    (hframe' : ∀ other wr, e'.frame = some (.recv other wr) → other = id ∧ ∃ sock, e'.socks.find id = some sock)
    (hothers : ∀ other, other ≠ id → e'.socks.find other = e.socks.find other)
    (hself : ∀ conn accepted, e'.socks.find id = some (.conn conn accepted) →
      (e'.connection id conn).Reached queue mask buffer) : e'.Separate queue mask buffer where
  reached other conn accepted hother := by
    by_cases hid : other = id
    · subst hid
      exact hself conn accepted hother
    · rw [connection_idle fun wr hrecv => hid (hframe' other wr hrecv).1]
      rw [hothers other hid] at hother
      have hreached := h.reached other conn accepted hother
      rwa [connection_idle fun wr hrecv => hid (hframe other wr hrecv)] at hreached
  hosted other wr hrecv := by
    obtain ⟨hid, hsock⟩ := hframe' other wr hrecv
    rw [hid]
    exact hsock

/-- No session is receiving. -/
def Quiet (e : SockEngine Q) : Prop := ∀ id wr, e.frame ≠ some (.recv id wr)

theorem Separate.idle (h : e.Separate queue mask buffer) (hquiet : e.Quiet)
    (hsock : e.socks.find id = some (.conn conn accepted)) : (Connection.idle conn).Reached queue mask buffer := by
  have hreached := h.reached id conn accepted hsock
  rwa [connection_idle (hquiet id)] at hreached

/-- Where no session is receiving, before and after. -/
theorem Separate.quiet (h : e.Separate queue mask buffer) (hquiet : e.Quiet) (hquiet' : e'.Quiet)
    (hothers : ∀ other, other ≠ id → e'.socks.find other = e.socks.find other)
    (hself : ∀ conn accepted, e'.socks.find id = some (.conn conn accepted) →
      (Connection.idle conn).Reached queue mask buffer) : e'.Separate queue mask buffer := by
  apply h.moves
  · intro other wr hrecv
    exact absurd hrecv (hquiet other wr)
  · intro other wr hrecv
    exact absurd hrecv (hquiet' other wr)
  · exact hothers
  · intro conn accepted hsock
    rw [connection_idle (hquiet' id)]
    exact hself conn accepted hsock

/-- Where only the callback changes. -/
theorem Separate.tells (h : e.Separate queue mask buffer) (hquiet : e.Quiet) (hquiet' : e'.Quiet)
    (hsocks : e'.socks = e.socks) : e'.Separate queue mask buffer := by
  have hsame (id : ℤ) : e'.socks.find id = e.socks.find id := by rw [hsocks]
  apply h.quiet hquiet hquiet' (fun other _ => hsame other)
  intro conn accepted hsock
  exact h.idle hquiet ((hsame 0).symm.trans hsock)

/-! ## Calls -/

/-- A call on a connection is a step of that connection. -/
theorem Separate.call (h : e.Separate queue mask buffer) {action : ConnAction} {call : ConnCall Q Unit}
    (hstep : ∀ connection : Connection Q, connection.step queue mask action = connection.engine call)
    (hsock : e.socks.find id = some (.conn conn accepted)) {result : Except Exception Unit × Conn Q}
    (hresult : call conn = some result) : (e.assign id (.conn result.2 accepted)).Separate queue mask buffer := by
  have hreached : (e.connection id result.2).Reached queue mask buffer := by
    have hengine : (e.connection id conn).engine call = some (e.connection id result.2) := by
      unfold connection
      split
      · split_ifs
        · rw [Connection.engine, hresult]
          rfl
        · rw [Connection.engine, hresult]
          rfl
      · rw [Connection.engine, hresult]
        rfl
    exact (h.reached id conn accepted hsock).step ((hstep _).trans hengine)
  apply h.assign
  intro conn accepted heq
  cases heq
  exact hreached

theorem Separate.sendwith (h : e.Separate queue mask buffer) {action : ConnAction} {call : ConnCall Q Unit}
    (hstep : ∀ connection : Connection Q, connection.step queue mask action = connection.engine call)
    (hnext : e.sendwith id call = some (some e')) : e'.Separate queue mask buffer := by
  rw [SockEngine.sendwith] at hnext
  split at hnext
  · rename_i conn accepted hsock
    split at hnext
    · cases hnext
    · obtain ⟨result, hresult, heq⟩ := Option.map_eq_some_iff.mp hnext
      cases heq
      exact h.call hstep hsock hresult
  · cases hnext
    exact h

theorem Separate.closechan (h : e.Separate queue mask buffer) (id : ℤ) (found : Channel × Bool) :
    (e.closechan id found).Separate queue mask buffer := by
  rw [SockEngine.closechan]
  split_ifs
  · exact h.keep rfl rfl
  · exact h.keep rfl rfl

theorem Separate.shutdown (h : e.Separate queue mask buffer) {now : Bool} {outcome : Option Exception}
    (hnext : e.shutdown queue mask id now outcome = some (some e')) : e'.Separate queue mask buffer := by
  rw [SockEngine.shutdown] at hnext
  split at hnext
  · cases hnext
    exact h
  · cases hnext
  · split_ifs at hnext
    · cases hnext
      exact h
    · cases hnext
      have hlistener : (e.assign id (.listener .closed)).Separate queue mask buffer := h.assign nofun
      exact (hlistener.closechan id _).keep rfl rfl
  · rename_i hsock hfound
    obtain ⟨result, hresult, heq⟩ := Option.map_eq_some_iff.mp hnext
    have hcalled := h.call (fun _ => (rfl : Connection.step queue mask _ (.shutdown _ outcome) = _)) hsock hresult
    dsimp only at heq
    split_ifs at heq
    · cases heq
      exact (hcalled.closechan id _).keep rfl rfl
    · cases heq
      exact hcalled

/-- A new socket, unless its id has come round. -/
theorem Separate.insert (h : e.Separate queue mask buffer)
    (hself : ∀ conn accepted, sock = .conn conn accepted → (Connection.idle conn).Reached queue mask buffer) :
    (e.insert id sock).Separate queue mask buffer := by
  rw [SockEngine.insert]
  split_ifs with hfind
  · exact h
  · have hnone : e.socks.find id = none := by simpa using hfind
    apply h.assign
    intro conn accepted heq
    rw [connection_idle]
    · exact hself conn accepted heq
    · intro wr hrecv
      obtain ⟨there, hthere⟩ := h.hosted id wr hrecv
      rw [hnone] at hthere
      cases hthere

theorem Separate.nextid (h : e.Separate queue mask buffer) : e.nextid.2.Separate queue mask buffer := h.keep rfl rfl

theorem Separate.tcpconnect (h : e.Separate queue mask buffer) (est : Bool) (now : Timeval) :
    (tcpconnect buffer e est now).Separate queue mask buffer := by
  have hinsert : (e.nextid.2.insert e.nextid.1 (.conn (Conn.create buffer now) true)).Separate queue mask buffer := by
    apply h.nextid.insert
    intro conn accepted heq
    cases heq
    exact Connection.reached_create now
  exact hinsert.keep rfl rfl

theorem Separate.tcplisten (h : e.Separate queue mask buffer) : e.tcplisten.Separate queue mask buffer := by
  have hinsert : (e.nextid.2.insert e.nextid.1 (.listener .listening)).Separate queue mask buffer :=
    h.nextid.insert nofun
  exact hinsert.keep rfl rfl

/-! ## The work of the engine -/

theorem quiet_none (h : e.frame = none) : e.Quiet := by
  intro id wr hrecv
  rw [h] at hrecv
  cases hrecv

/-- A channel is cleared with its socket. -/
theorem clearchan_socks (e : SockEngine Q) (id : ℤ) : (e.clearchan id).socks = e.socks.erase id := by
  rw [clearchan]
  split
  · rfl
  · rfl
  · rfl
  · rfl

theorem clearchan_quiet (e : SockEngine Q) (id : ℤ) : (e.clearchan id).Quiet := by
  intro other wr hrecv
  rw [clearchan] at hrecv
  split at hrecv
  · cases hrecv
  · cases hrecv
  · cases hrecv
  · cases hrecv

/-- A channel is cleared where the session of its socket is receiving, or none, whatever the socket has become. -/
theorem Separate.clearchan (h : e.Separate queue mask buffer)
    (hframe : ∀ other wr, e.frame = some (.recv other wr) → other = id)
    (hothers : ∀ other, other ≠ id → e'.socks.find other = e.socks.find other) :
    (e'.clearchan id).Separate queue mask buffer := by
  have hfind (other : ℤ) : (e'.clearchan id).socks.find other = if other = id then none else e'.socks.find other := by
    rw [clearchan_socks]
    exact OrderedMap.find_erase id other e'.socks
  apply h.moves hframe
  · intro other wr hrecv
    exact absurd hrecv (clearchan_quiet e' id other wr)
  · intro other hother
    rw [hfind, if_neg hother]
    exact hothers other hother
  · intro conn accepted hsock
    rw [hfind, if_pos rfl] at hsock
    cases hsock

/-- The end of what a channel does. -/
theorem Separate.finish (h : e.Separate queue mask buffer)
    (hframe : ∀ other wr, e.frame = some (.recv other wr) → other = id) {outcome : WriteOutcome} {now : Timeval}
    {action : ConnAction}
    (hstep : ∀ conn accepted, e.socks.find id = some (.conn conn accepted) →
      (e.connection id conn).step queue mask action = Connection.finish queue mask wr outcome now conn)
    (hnext : e.finish queue mask id wr outcome now = some (some e')) : e'.Separate queue mask buffer := by
  rw [SockEngine.finish] at hnext
  split at hnext
  · rename_i conn accepted hsock
    obtain ⟨result, hresult, heq⟩ := Option.map_eq_some_iff.mp hnext
    have hfinish : Connection.finish queue mask wr outcome now conn =
        some (if Conn.ready result then .idle result.2 else .removed result.2.events) := by
      rw [Connection.finish, hresult]
      rfl
    have hreached := (h.reached id conn accepted hsock).step ((hstep conn accepted hsock).trans hfinish)
    dsimp only at heq
    split_ifs at heq hreached with hready
    · cases heq
      apply h.moves hframe
      · exact nofun
      · intro other hother
        exact find_assign.trans (if_neg hother)
      · intro next accepted' hnext
        have hself : (e.assign id (.conn result.2 accepted)).socks.find id = some (.conn result.2 accepted) :=
          find_assign.trans (if_pos rfl)
        cases hself.symm.trans hnext
        rw [connection_idle]
        · exact hreached
        · intro wr hrecv
          cases hrecv
    · cases heq
      apply h.clearchan hframe
      intro other hother
      exact find_assign.trans (if_neg hother)
  · cases hnext

/-- The events of a stream. -/
theorem Separate.readychan (h : e.Separate queue mask buffer) (hframe : e.frame = none) {rd : Bool}
    {result : Except Exception (List UInt8)} {timer : Option Exception} {outcome : WriteOutcome} {now : Timeval}
    (hnext : e.readychan queue mask id rd wr result timer outcome now = some (some e')) :
    e'.Separate queue mask buffer := by
  have hnone (e : SockEngine Q) (hframe : e.frame = none) (other : ℤ) (wr : Bool)
      (hrecv : e.frame = some (.recv other wr)) : other = id := absurd hrecv (quiet_none hframe other wr)
  rw [SockEngine.readychan] at hnext
  split at hnext
  · rename_i conn accepted hsock
    have hidle (conn : Conn Q) : e.connection id conn = .idle conn := connection_idle (quiet_none hframe id) conn
    have hreached := h.reached id conn accepted hsock
    rw [hidle] at hreached
    cases rd with
    | false =>
      apply h.finish (hnone e hframe) _ hnext
      · exact .ready false wr result timer outcome now
      · intro conn accepted _
        rw [hidle]
        rfl
    | true =>
      obtain ⟨⟨received, last⟩, hreceived, hrest⟩ := Option.bind_eq_some_iff.mp hnext
      have hothers (other : ℤ) (hother : other ≠ id) :
          (e.assign id (.conn last accepted)).socks.find other = e.socks.find other :=
        find_assign.trans (if_neg hother)
      match received with
      | .ok (.data size) =>
        cases hrest
        have hstep : (Connection.idle conn).step queue mask (.ready true wr result timer outcome now) =
            some (.receiving last wr) := by
          rw [Connection.step, if_pos rfl, hreceived]
          rfl
        have hself : (e.assign id (.conn last accepted)).socks.find id = some (.conn last accepted) :=
          find_assign.trans (if_pos rfl)
        refine h.moves (hnone e hframe) ?_ hothers ?_
        · intro other wr' hrecv
          cases hrecv
          exact ⟨rfl, _, hself⟩
        · intro next accepted' hnext
          cases hself.symm.trans hnext
          rw [connection_recv rfl]
          exact hreached.step hstep
      | .ok .blocked =>
        rw [(Conn.processrd_blocked result timer conn).holds _ _ hreceived rfl] at hrest
        have hassign : (e.assign id (.conn conn accepted)).Separate queue mask buffer := by
          apply h.assign
          intro next accepted' heq
          cases heq
          rw [hidle]
          exact hreached
        apply hassign.finish (hnone _ hframe) _ hrest
        · exact .ready false wr result timer outcome now
        · intro next accepted' _
          have hsame : (e.assign id (.conn conn accepted)).connection id next = .idle next := hidle next
          rw [hsame]
          rfl
      | .ok .closed =>
        cases hrest
        exact h.clearchan (hnone e hframe) hothers
      | .error except =>
        cases hrest
        exact h.clearchan (hnone e hframe) hothers
  · cases hnext

theorem Separate.errorchan (h : e.Separate queue mask buffer) (hframe : e.frame = none)
    (hnext : e.errorchan id = some e') : e'.Separate queue mask buffer := by
  rw [SockEngine.errorchan] at hnext
  split at hnext
  · cases hnext
  · cases hnext
    exact h.tells (quiet_none hframe) nofun rfl

theorem Separate.establish (h : e.Separate queue mask buffer) (hframe : e.frame = none)
    (hnext : e.establish id = some e') : e'.Separate queue mask buffer := by
  rw [SockEngine.establish] at hnext
  split at hnext
  · cases hnext
    exact h.tells (quiet_none hframe) nofun rfl
  · cases hnext

theorem Separate.accept (h : e.Separate queue mask buffer) (hframe : e.frame = none) {parent : ℤ} {now : Timeval}
    (hnext : SockEngine.accept buffer e parent now = some e') : e'.Separate queue mask buffer := by
  rw [SockEngine.accept] at hnext
  dsimp only at hnext
  split at hnext
  · cases hnext
  · cases hnext
    have hinsert : (e.nextid.2.insert e.nextid.1 (.conn (Conn.create buffer now) false)).Separate queue mask buffer := by
      apply h.nextid.insert
      intro conn accepted heq
      cases heq
      exact Connection.reached_create now
    refine hinsert.tells (quiet_none ?_) nofun rfl
    rw [SockEngine.insert]
    split_ifs
    · exact hframe
    · exact hframe

theorem Separate.process (h : e.Separate queue mask buffer) (hframe : e.frame = none) {outcome : ChannelOutcome}
    (hnext : e.process queue mask buffer id outcome = some (some e')) : e'.Separate queue mask buffer := by
  obtain ⟨chan, hchan, hrest⟩ := Option.bind_eq_some_iff.mp hnext
  split_ifs at hrest
  · cases hrest
    exact h.clearchan (fun other wr hrecv => absurd hrecv (quiet_none hframe other wr)) fun _ _ => rfl
  · split at hrest
    · exact h.errorchan hframe (Option.some_inj.mp hrest)
    · cases hrest
      exact h
    · cases hrest
      exact h
    · cases hrest
      exact h
    · exact h.accept hframe (Option.some_inj.mp hrest)
    · exact h.establish hframe (Option.some_inj.mp hrest)
    · exact h.readychan hframe hrest
    · cases hrest

/-- Establishment has been answered, and the socket is kept or taken out. -/
theorem Separate.answered (h : e.Separate queue mask buffer) (hquiet : e.Quiet) {keep : Bool}
    (hnext : e.accepted id keep = some e') : e'.Separate queue mask buffer := by
  rw [SockEngine.accepted] at hnext
  have hleave : e.leave.Separate queue mask buffer := h.tells hquiet nofun rfl
  split at hnext
  · rename_i conn accepted current chan hsock hcurrent
    cases hnext
    cases keep with
    | true =>
      have hassign : (e.leave.assign id (.conn conn true)).Separate queue mask buffer := by
        apply hleave.assign
        intro next accepted' heq
        cases heq
        rw [connection_idle]
        · exact h.idle hquiet hsock
        · intro wr hrecv
          cases hrecv
      exact hassign.keep rfl rfl
    | false =>
      have hremove : (e.leave.remove id).Separate queue mask buffer := by
        have hfind (other : ℤ) :
            (e.leave.remove id).socks.find other = if other = id then none else e.socks.find other :=
          OrderedMap.find_erase id other e.socks
        apply h.quiet hquiet
        · intro other wr hrecv
          cases hrecv
        · intro other hother
          rw [hfind, if_neg hother]
        · intro next accepted' hnext
          rw [hfind, if_pos rfl] at hnext
          cases hnext
      exact hremove.keep rfl rfl
  · cases hnext

theorem Separate.connected (h : e.Separate queue mask buffer) (hquiet : e.Quiet) (hnext : e.connected id = some e') :
    e'.Separate queue mask buffer := by
  obtain ⟨current, hcurrent, heq⟩ := Option.map_eq_some_iff.mp hnext
  cases heq
  exact h.tells hquiet nofun rfl

/-- Connections that are torn down before the next callback are torn down on their own. -/
theorem Separate.teardownFrom (h : e.Separate queue mask buffer) (hquiet : e.Quiet) {rest : List (ℤ × Sock Q)}
    (hrest : ∀ entry ∈ rest, entry ∈ e.socks.entries) (hnext : SockEngine.teardownFrom rest e = some e') :
    e'.Separate queue mask buffer := by
  induction rest generalizing e with
  | nil =>
    cases hnext
    exact h.tells hquiet nofun rfl
  | cons entry rest ih =>
    obtain ⟨id, sock⟩ := entry
    have hsock : e.socks.find id = some sock := OrderedMap.find_eq_some.mpr (hrest _ List.mem_cons_self)
    have hothers (entry : ℤ × Sock Q) (hentry : entry ∈ rest) : entry ∈ e.socks.entries :=
      hrest entry (List.mem_cons_of_mem _ hentry)
    cases sock with
    | listener state =>
      rw [SockEngine.teardownFrom] at hnext
      split at hnext
      · cases hnext
      · rename_i chan hchan
        exact ih (h.keep rfl rfl : (e.setchan id chan.close).Separate queue mask buffer) hquiet hothers hnext
    | conn conn accepted =>
      rw [SockEngine.teardownFrom] at hnext
      split_ifs at hnext with hrank
      · cases hnext
        have hcall : Conn.teardown conn = some (.ok (), { conn with state := .teardown }) := by
          rw [Conn.teardown, Call.modify, if_pos hrank]
        have hassign := h.call (fun _ => (rfl : Connection.step queue mask _ .teardown = _)) hsock hcall
        exact hassign.tells hquiet nofun rfl
      · exact ih h hquiet hothers hnext

/-! ## Runs -/

/-- A step of the engine leaves each connection where a run of its own leads. -/
theorem Separate.step (h : e.Separate queue mask buffer) {action : SockAction}
    (hstep : e.step queue mask buffer action = some (some e')) : e'.Separate queue mask buffer := by
  unfold SockEngine.step at hstep
  split at hstep
  · cases hstep
    exact h.nextid
  · cases hstep
    exact h.tcpconnect _ _
  · cases hstep
    exact h.tcplisten
  · exact h.sendwith (fun _ => (rfl : Connection.step queue mask _ (.send _ _ _ _) = _)) hstep
  · exact h.sendwith (fun _ => (rfl : Connection.step queue mask _ (.sendv _ _ _ _) = _)) hstep
  · exact h.shutdown hstep
  · rename_i hframe
    split_ifs at hstep
    · cases hstep
      exact h
    · have hstopping : ({ e with stopping := true } : SockEngine Q).Separate queue mask buffer := h.keep rfl rfl
      exact hstopping.teardownFrom (quiet_none hframe) (fun _ hentry => hentry) (Option.some_inj.mp hstep)
  · rename_i hframe
    exact h.teardownFrom (quiet_none hframe) (fun _ hentry => hentry) (Option.some_inj.mp hstep)
  · rename_i hframe
    exact h.process hframe hstep
  · rename_i hframe
    exact h.answered (fun _ _ hrecv => by simp [hframe] at hrecv) (Option.some_inj.mp hstep)
  · rename_i outcome now id wr hframe
    have hreceived (conn : Conn Q) : (e.connection id conn).step queue mask (.received outcome now) =
        Connection.finish queue mask wr outcome now conn := by
      rw [connection_recv hframe]
      rfl
    apply h.finish _ (fun conn _ _ => hreceived conn) hstep
    intro other wr' hrecv
    rw [hframe] at hrecv
    cases hrecv
    rfl
  · rename_i hframe
    exact h.connected (fun _ _ hrecv => by simp [hframe] at hrecv) (Option.some_inj.mp hstep)
  · rename_i hframe
    cases hstep
    exact h.clearchan (fun _ _ hrecv => by simp [hframe] at hrecv) fun _ _ => rfl
  · rename_i id hframe
    apply h.teardownFrom (fun _ _ hrecv => by simp [hframe] at hrecv) _ (Option.some_inj.mp hstep)
    intro entry hentry
    exact (List.dropWhile_sublist _).subset (List.mem_of_mem_tail hentry)
  · rename_i hframe
    cases hstep
    exact h.tells (fun _ _ hrecv => by simp [hframe] at hrecv) nofun rfl
  · cases hstep

theorem separate_create : (create : SockEngine Q).Separate queue mask buffer where
  reached _ _ _ hsock := by cases hsock
  hosted _ _ hrecv := by cases hrecv

theorem Separate.run (h : e.Separate queue mask buffer) {actions : List SockAction}
    (hrun : Lib.run (next queue mask buffer) (some e) actions = some (some e')) : e'.Separate queue mask buffer := by
  induction actions generalizing e with
  | nil =>
    cases hrun
    exact h
  | cons action actions ih =>
    obtain ⟨middle, hstep, hrest⟩ := run_cons_some hrun
    cases middle with
    | some middle => exact ih (h.step hstep) hrest
    | none =>
      cases actions with
      | nil => cases hrest
      | cons action actions => cases hrest

/-- A listener that takes a connection, whose session answers what it receives and shuts it down while it is told, and
another that is made in between. -/
def answerRun : List SockAction :=
  [.tcplisten, .process 1 (.accept ⟨0, 0⟩), .answered true,
    .process 2 (.ready true true (.ok [1, 2]) none ⟨.ok 0, none, none, none⟩ ⟨0, 0⟩),
    .tcpconnect false ⟨0, 0⟩, .send 2 [7, 8] .enough none ⟨0, 0⟩, .send 3 [9] .enough none ⟨0, 0⟩,
    .shutdown 2 false none, .received ⟨.ok 2, none, none, none⟩ ⟨0, 0⟩]

end SockEngine

end Aug.Aspp
