import Aug.Aspp.Conn
import Mathlib.Data.List.Induction

/-!
# Graceful shutdown

A connection with a queue that keeps its bytes in order. The end of the stream is announced from two
places, by the shutdown itself if nothing is left to write, and else by the write that empties the queue.
Either way the bytes that were accepted have been written by then, and a state in which the connection
accepts nothing is never left.
-/

namespace Aug.Aspp

open Aug.Lib Aug.Sys

/-- The queue delivers the bytes that were appended in their order. -/
structure InOrder {Q : Type} (queue : WriteQueue Q) (pending : Q → List UInt8) : Prop where
  empty : ∀ q, queue.empty q = true → pending q = []
  append : ∀ q bytes memory next, queue.append q bytes memory = (none, next) → pending next = pending q ++ bytes
  append_throws : ∀ q bytes memory except next,
    queue.append q bytes memory = (some except, next) → pending next = pending q
  appendblob : ∀ q bytes memory next, queue.appendblob q bytes memory = (none, next) → pending next = pending q ++ bytes
  appendblob_throws : ∀ q bytes memory except next,
    queue.appendblob q bytes memory = (some except, next) → pending next = pending q
  writesome : ∀ mask q result,
    (queue.writesome mask q result).bytes ++ (pending (queue.writesome mask q result).queue).map some =
      (pending q).map some

namespace ConnEvent

/-- The bytes that an event has accepted. -/
def taken : ConnEvent → List UInt8
  | accept bytes => bytes
  | _ => []

/-- The bytes that an event has written. -/
def given : ConnEvent → List (Option UInt8)
  | write bytes => bytes
  | _ => []

/-- The bytes that were accepted. -/
def accepted (events : List ConnEvent) : List UInt8 := events.flatMap taken

/-- The bytes that were written. -/
def written (events : List ConnEvent) : List (Option UInt8) := events.flatMap given

/-- Before each `FIN` all that was accepted is written, and after it nothing is accepted or written. -/
def FinLast (events : List ConnEvent) : Prop :=
  ∀ before after, events = before ++ fin :: after →
    written before = (accepted before).map some ∧ accepted after = [] ∧ written after = []

variable {events : List ConnEvent} {event : ConnEvent}

theorem accepted_concat : accepted (events ++ [event]) = accepted events ++ event.taken := by
  simp [accepted]

theorem written_concat : written (events ++ [event]) = written events ++ event.given := by
  simp [written]

theorem finLast_nil : FinLast [] := by
  intro before after h
  simp at h

/-- One more event, which is a `FIN` only if all is written, and has no bytes after a `FIN`. -/
theorem FinLast.concat (h : FinLast events) (hfin : event = fin → written events = (accepted events).map some)
    (hafter : fin ∈ events → event.taken = [] ∧ event.given = []) : FinLast (events ++ [event]) := by
  intro before after hsplit
  cases after using List.reverseRecOn with
  | nil =>
    obtain ⟨hevents, hevent⟩ := List.append_inj' hsplit rfl
    rw [← hevents]
    exact ⟨hfin (List.singleton_inj.mp hevent), rfl, rfl⟩
  | append_singleton after other _ =>
    rw [← List.cons_append, ← List.append_assoc] at hsplit
    obtain ⟨hevents, hevent⟩ := List.append_inj' hsplit rfl
    obtain ⟨hwritten, htaken, hgiven⟩ := h before after hevents
    have hmem : fin ∈ events := by simp [hevents]
    rw [← List.singleton_inj.mp hevent, accepted_concat, written_concat, htaken, hgiven]
    exact ⟨hwritten, hafter hmem⟩

end ConnEvent

open ConnEvent

namespace Conn

variable {Q : Type} {queue : WriteQueue Q} {pending : Q → List UInt8} {conn : Conn Q} {mask : UInt32}

/-- What was accepted is written or pending, and after a `FIN` nothing is pending or will be accepted. -/
structure Sound (pending : Q → List UInt8) (conn : Conn Q) : Prop where
  balance : (accepted conn.events).map some = written conn.events ++ (pending conn.buffer).map some
  finished : .fin ∈ conn.events → conn.sendable = false ∧ pending conn.buffer = []
  last : FinLast conn.events

/-- In the state for shutdown, an empty buffer means that the `FIN` was sent. -/
def Answered (queue : WriteQueue Q) (conn : Conn Q) : Prop :=
  conn.state = .shutdown → queue.empty conn.buffer = true → .fin ∈ conn.events

/-- The invariant of a connection between two calls. -/
def Ready (queue : WriteQueue Q) (pending : Q → List UInt8) (conn : Conn Q) : Prop :=
  conn.Sound pending ∧ conn.Answered queue

theorem sound_create (buffer : Q) (hbuffer : pending buffer = []) (now : Timeval) :
    (create buffer now).Sound pending where
  balance := by rw [create, hbuffer]; rfl
  finished := fun h => nomatch h
  last := finLast_nil

/-- The time and the wish to write have no part in it. -/
theorem Sound.frame (h : conn.Sound pending) {next : Conn Q} (hbuffer : next.buffer = conn.buffer)
    (hstate : next.state = conn.state) (hevents : next.events = conn.events) : next.Sound pending where
  balance := by rw [hbuffer, hevents]; exact h.balance
  finished := by rw [hbuffer, hevents, sendable, hstate]; exact h.finished
  last := by rw [hevents]; exact h.last

/-- A failed append leaves the bytes that are pending. -/
theorem Sound.keep (h : conn.Sound pending) {buffer : Q} (hbuffer : pending buffer = pending conn.buffer) :
    Sound pending { conn with buffer } where
  balance := by rw [hbuffer]; exact h.balance
  finished := by rw [hbuffer]; exact h.finished
  last := h.last

/-- Bytes are accepted in a state in which the connection can send. -/
theorem Sound.accept (h : conn.Sound pending) (hsendable : conn.sendable = true) {buffer : Q} {bytes : List UInt8}
    (hbuffer : pending buffer = pending conn.buffer ++ bytes) :
    Sound pending { conn with buffer, events := conn.events ++ [.accept bytes] } := by
  have hfin : .fin ∉ conn.events := by
    intro hmem
    simp [(h.finished hmem).1] at hsendable
  constructor
  · have htaken : (ConnEvent.accept bytes).taken = bytes := rfl
    have hgiven : (ConnEvent.accept bytes).given = [] := rfl
    rw [accepted_concat, written_concat, htaken, hgiven, hbuffer, List.map_append, List.map_append, h.balance]
    simp
  · simp [hfin]
  · apply h.last.concat
    · nofun
    · exact fun hmem => absurd hmem hfin

/-- A write takes its bytes from those that are pending. -/
theorem Sound.write (h : conn.Sound pending) {buffer : Q} {bytes : List (Option UInt8)}
    (hbuffer : bytes ++ (pending buffer).map some = (pending conn.buffer).map some) :
    Sound pending { conn with buffer, events := conn.events ++ [.write bytes] } := by
  have hfin : .fin ∈ conn.events → bytes = [] ∧ pending buffer = [] := by
    intro hmem
    rw [(h.finished hmem).2] at hbuffer
    simpa using hbuffer
  constructor
  · have htaken : (ConnEvent.write bytes).taken = [] := rfl
    have hgiven : (ConnEvent.write bytes).given = bytes := rfl
    rw [accepted_concat, written_concat, htaken, hgiven, List.append_nil, List.append_assoc, hbuffer]
    exact h.balance
  · intro hmem
    have hmem' : .fin ∈ conn.events := by simpa using hmem
    exact ⟨(h.finished hmem').1, (hfin hmem').2⟩
  · apply h.last.concat
    · nofun
    · exact fun hmem => ⟨rfl, (hfin hmem).1⟩

/-- The `FIN` is sent with nothing pending. -/
theorem Sound.fin (h : conn.Sound pending) (hpending : pending conn.buffer = []) (hstate : conn.sendable = false) :
    Sound pending { conn with events := conn.events ++ [.fin] } := by
  constructor
  · have htaken : ConnEvent.fin.taken = [] := rfl
    have hgiven : ConnEvent.fin.given = [] := rfl
    rw [accepted_concat, written_concat, htaken, hgiven, List.append_nil, List.append_nil]
    exact h.balance
  · exact fun _ => ⟨hstate, hpending⟩
  · apply h.last.concat
    · intro _
      rw [h.balance, hpending, List.map_nil, List.append_nil]
    · exact fun _ => ⟨rfl, rfl⟩

/-- The state only goes up. -/
theorem Sound.enter (h : conn.Sound pending) {state : SockState} (hstate : conn.state.rank ≤ state.rank) :
    Sound pending { conn with state } where
  balance := h.balance
  finished := by
    intro hmem
    have hsendable := (h.finished hmem).1
    apply And.intro _ (h.finished hmem).2
    simp only [sendable, decide_eq_false_iff_not, not_lt] at hsendable ⊢
    exact le_trans hsendable hstate
  last := h.last

/-- A result that is checked leaves the connection. -/
theorem check_ends (mask : UInt32) (outcome : Option Exception) (conn : Conn Q) :
    (check mask outcome).Ends conn fun _ last => last = conn := by
  rw [check]
  split
  · exact Call.ends_of_eq rfl rfl
  · exact Call.ends_of_eq rfl rfl

/-- Asking for write events changes nothing else. -/
theorem setchanwantwr_ends (wantwr : Bool) (outcome : Option Exception) (conn : Conn Q) :
    (setchanwantwr mask wantwr outcome).Ends conn fun _ last =>
      last.buffer = conn.buffer ∧ last.state = conn.state ∧ last.events = conn.events := by
  apply (check_ends mask outcome conn).bind
  · intro _ last hlast
    rw [hlast]
    exact ⟨rfl, rfl, rfl⟩
  · intro _ last hlast
    rw [hlast]
    split
    · exact Call.ends_of_eq rfl ⟨rfl, rfl, rfl⟩
    · exact Call.ends_of_eq rfl ⟨rfl, rfl, rfl⟩

/-- The `FIN` is sent whatever its result. -/
theorem fin_ends (outcome : Option Exception) (conn : Conn Q) :
    (fin mask outcome).Ends conn fun _ last => last = { conn with events := conn.events ++ [.fin] } := by
  apply (Call.returns_modify _ conn).bind_ends
  exact check_ends mask outcome _

/-- A connection that can send is not yet in the state for shutdown. -/
theorem answered_of_sendable (h : conn.sendable = true) : conn.Answered queue := by
  intro hstate
  simp [sendable, hstate] at h

/-- The last part of `sendwith`, for an append that keeps the order. -/
theorem append_ends {append : Q → Option Exception × Q} {bytes : List UInt8} (h : conn.Sound pending)
    (hsendable : conn.sendable = true)
    (happend : ∀ q next, append q = (none, next) → pending next = pending q ++ bytes)
    (hthrows : ∀ q except next, append q = (some except, next) → pending next = pending q) :
    (do
      let conn ← Call.read
      match append conn.buffer with
      | (none, buffer) => Call.modify fun conn => { conn with buffer, events := conn.events ++ [.accept bytes] }
      | (some except, buffer) => do
        Call.modify fun conn => { conn with buffer }
        Call.fail except : ConnCall Q Unit).Ends conn fun _ last => last.Ready queue pending := by
  apply (Call.returns_read conn).bind_ends
  match hresult : append conn.buffer with
  | (none, buffer) =>
    apply Call.ends_of_eq rfl
    exact ⟨h.accept hsendable (happend _ _ hresult), answered_of_sendable hsendable⟩
  | (some except, buffer) =>
    apply Call.ends_of_eq rfl
    exact ⟨h.keep (hthrows _ _ _ hresult), answered_of_sendable hsendable⟩

/-- `send` and `sendv` of the connection, for an append that keeps the order. -/
theorem sendwith_ends {append : Q → Option Exception × Q} {bytes : List UInt8} (h : conn.Sound pending)
    (hsendable : conn.sendable = true)
    (happend : ∀ q next, append q = (none, next) → pending next = pending q ++ bytes)
    (hthrows : ∀ q except next, append q = (some except, next) → pending next = pending q)
    (wantwr : Option Exception) (now : Timeval) :
    (sendwith queue append mask bytes wantwr now).Ends conn fun _ last => last.Ready queue pending := by
  apply (Call.returns_read conn).bind_ends
  by_cases hempty : queue.empty conn.buffer = true
  · rw [if_pos hempty]
    apply (Call.returns_modify _ conn).bind_ends
    apply (setchanwantwr_ends true wantwr _).bind
    · intro _ last hlast
      exact ⟨h.frame hlast.1 hlast.2.1 hlast.2.2, answered_of_sendable (by rwa [sendable, hlast.2.1])⟩
    · intro _ last hlast
      apply append_ends (h.frame hlast.1 hlast.2.1 hlast.2.2) _ happend hthrows
      rwa [sendable, hlast.2.1]
  · rw [if_neg hempty]
    exact append_ends h hsendable happend hthrows

/-- A call that is refused changes nothing. -/
theorem refused_ends (h : conn.Ready queue pending) :
    (Call.fail .error : ConnCall Q Unit).Ends conn fun _ last => last.Ready queue pending :=
  Call.ends_of_eq rfl h

theorem send_ends (horder : InOrder queue pending) (h : conn.Ready queue pending) (bytes : List UInt8)
    (memory : Memory) (wantwr : Option Exception) (now : Timeval) :
    (send queue mask bytes memory wantwr now).Ends conn fun _ last => last.Ready queue pending := by
  apply (Call.returns_read conn).bind_ends
  by_cases hsendable : conn.sendable = true
  · rw [if_pos hsendable]
    apply sendwith_ends h.1 hsendable
    · exact fun q next => horder.append q bytes memory next
    · exact fun q except next => horder.append_throws q bytes memory except next
  · rw [if_neg hsendable]
    exact refused_ends h

theorem sendv_ends (horder : InOrder queue pending) (h : conn.Ready queue pending) (bytes : List UInt8)
    (memory : Memory) (wantwr : Option Exception) (now : Timeval) :
    (sendv queue mask bytes memory wantwr now).Ends conn fun _ last => last.Ready queue pending := by
  apply (Call.returns_read conn).bind_ends
  by_cases hsendable : conn.sendable = true
  · rw [if_pos hsendable]
    apply sendwith_ends h.1 hsendable
    · exact fun q next => horder.appendblob q bytes memory next
    · exact fun q except next => horder.appendblob_throws q bytes memory except next
  · rw [if_neg hsendable]
    exact refused_ends h

/-- The shutdown sends the `FIN` at once if nothing is pending. -/
theorem shutdown_ends (horder : InOrder queue pending) (h : conn.Ready queue pending) (stream : Bool)
    (outcome : Option Exception) :
    (shutdown queue mask stream outcome).Ends conn fun _ last => last.Ready queue pending := by
  apply (Call.returns_read conn).bind_ends
  by_cases hrank : SockState.shutdown.rank ≤ conn.state.rank
  · rw [if_pos hrank]
    exact Call.ends_of_eq rfl h
  have hle : conn.state.rank ≤ SockState.shutdown.rank := by omega
  rw [if_neg hrank]
  cases stream with
  | false =>
    have hclosed : conn.state.rank ≤ SockState.closed.rank := le_trans hle (by decide)
    apply (Call.returns_modify _ conn).bind_ends
    have hready : Ready queue pending { conn with state := .closed } := ⟨h.1.enter hclosed, nofun⟩
    exact (check_ends mask outcome _).imp fun _ last hlast => hlast ▸ hready
  | true =>
    apply (Call.returns_modify _ conn).bind_ends
    have hsound : Sound pending { conn with state := .shutdown } := h.1.enter hle
    by_cases hempty : queue.empty conn.buffer = true
    · rw [if_pos hempty]
      apply (fin_ends outcome _).imp
      intro _ last hlast
      rw [hlast]
      exact ⟨hsound.fin (horder.empty _ hempty) rfl, fun _ _ => by simp⟩
    · rw [if_neg hempty]
      exact Call.ends_of_eq rfl ⟨hsound, fun _ hempty' => absurd hempty' hempty⟩

theorem teardown_ends (h : conn.Ready queue pending) :
    (teardown : ConnCall Q Unit).Ends conn fun _ last => last.Ready queue pending := by
  apply Call.ends_of_eq rfl
  beta_reduce
  split
  case isTrue hrank => exact ⟨h.1.enter hrank.le, nofun⟩
  case isFalse => exact h

/-- The read part may only close the connection. -/
theorem processrd_ends (h : conn.Ready queue pending) (result : Except Exception (List UInt8))
    (timer : Option Exception) :
    (processrd mask result timer).Ends conn fun _ last => last.Ready queue pending := by
  rw [processrd]
  split
  · have hclosed : conn.state.rank ≤ SockState.closed.rank := by cases conn.state <;> decide
    exact Call.ends_of_eq rfl ⟨h.1.enter hclosed, nofun⟩
  · split <;> exact Call.ends_of_eq rfl h
  · exact Call.ends_of_eq rfl h
  · exact Call.ends_of_eq rfl h

/-- What the write part leaves: the invariant, or a sound connection that is removed for an exception. -/
def Processed (queue : WriteQueue Q) (pending : Q → List UInt8) (result : Except Exception Unit) (last : Conn Q) :
    Prop :=
  last.Sound pending ∧ (result = .ok () → last.Answered queue)

/-- With an empty queue the `FIN` is sent if the connection has been shut down. -/
theorem emptied_ends (horder : InOrder queue pending) (h : conn.Sound pending)
    (hempty : queue.empty conn.buffer = true) (outcome : WriteOutcome) :
    (do
      setchanwantwr mask false outcome.wantwr
      if SockState.shutdown.rank ≤ conn.state.rank then fin mask outcome.fin : ConnCall Q Unit).Ends conn
      (Processed queue pending) := by
  apply (setchanwantwr_ends false outcome.wantwr conn).bind
  · intro _ last hlast
    exact ⟨h.frame hlast.1 hlast.2.1 hlast.2.2, nofun⟩
  · intro _ last hlast
    have hsound := h.frame hlast.1 hlast.2.1 hlast.2.2
    by_cases hrank : SockState.shutdown.rank ≤ conn.state.rank
    · rw [if_pos hrank]
      apply (fin_ends outcome.fin last).imp
      intro _ finished hfinished
      rw [hfinished]
      have hpending : pending last.buffer = [] := by rw [hlast.1]; exact horder.empty _ hempty
      have hstate : last.sendable = false := by rw [sendable, hlast.2.1]; simpa using hrank
      exact ⟨hsound.fin hpending hstate, fun _ _ _ => by simp⟩
    · rw [if_neg hrank]
      apply Call.ends_of_eq rfl
      apply And.intro hsound
      intro _ hstate
      rw [hlast.2.1] at hstate
      exact absurd (by rw [hstate]) hrank

theorem resetrwtimer_ends (outcome : Option Exception) (conn : Conn Q) :
    (resetrwtimer outcome).Ends conn fun _ last => last = conn := by
  unfold resetrwtimer
  split
  · exact Call.ends_of_eq rfl rfl
  · exact Call.ends_of_eq rfl rfl
  · exact Call.ends_of_eq rfl rfl

theorem checkmaxtime_ends (n size : ℕ) (since now : Timeval) (conn : Conn Q) :
    (checkmaxtime n size since now).Ends conn fun _ last => last = conn := by
  simp only [checkmaxtime]
  split_ifs <;> exact Call.ends_of_eq rfl rfl

theorem checkmaxwait_ends (since now : Timeval) (conn : Conn Q) :
    (checkmaxwait since now).Ends conn fun _ last => last = conn := by
  rw [checkmaxwait]
  split_ifs <;> exact Call.ends_of_eq rfl rfl

/-- A queue that is not empty has its time set, if it may take that long. -/
theorem remaining_ends (h : conn.Sound pending) (hempty : queue.empty conn.buffer = false) (n : ℕ) (now : Timeval) :
    (do
      if wrcheckat < queue.size conn.buffer then checkmaxtime n (queue.size conn.buffer) conn.since now
      Call.modify fun conn => { conn with since := now } : ConnCall Q Unit).Ends conn (Processed queue pending) := by
  have hlast : Processed queue pending (.ok ()) { conn with since := now } := by
    have hsound : Sound pending { conn with since := now } := h.frame rfl rfl rfl
    apply And.intro hsound
    intro _ _ hempty'
    simp [hempty] at hempty'
  by_cases hsize : wrcheckat < queue.size conn.buffer
  · rw [if_pos hsize]
    apply (checkmaxtime_ends n _ _ now conn).bind
    · intro _ last hsame
      rw [hsame]
      exact ⟨h, nofun⟩
    · intro _ last hsame
      rw [hsame]
      exact Call.ends_of_eq rfl hlast
  · rw [if_neg hsize]
    exact Call.ends_of_eq rfl hlast

/-- The write part takes bytes from the queue in their order. -/
theorem processwr_ends (horder : InOrder queue pending) (h : conn.Sound pending) (outcome : WriteOutcome)
    (now : Timeval) :
    (processwr queue mask outcome now).Ends conn (Processed queue pending) := by
  have hsound := h.write (horder.writesome mask conn.buffer outcome.write)
  apply (Call.returns_read conn).bind_ends
  apply (Call.returns_modify _ conn).bind_ends
  match hresult : (queue.writesome mask conn.buffer outcome.write).result with
  | .error except => exact Call.ends_of_eq rfl ⟨hsound, nofun⟩
  | .ok n =>
    apply (resetrwtimer_ends outcome.timer _).bind
    · intro _ last hsame
      rw [hsame]
      exact ⟨hsound, nofun⟩
    · intro _ last hsame
      rw [hsame]
      apply (Call.returns_read _).bind_ends
      cases hempty : queue.empty (queue.writesome mask conn.buffer outcome.write).queue with
      | true => exact emptied_ends horder hsound hempty outcome
      | false => exact remaining_ends hsound hempty n now

theorem process_ends (horder : InOrder queue pending) (h : conn.Ready queue pending) (wr : Bool)
    (outcome : WriteOutcome) (now : Timeval) :
    (process queue mask wr outcome now).Ends conn (Processed queue pending) := by
  cases wr with
  | true => exact processwr_ends horder h.1 outcome now
  | false =>
    apply (Call.returns_read conn).bind_ends
    cases hempty : queue.empty conn.buffer with
    | true => exact Call.ends_of_eq rfl ⟨h.1, fun _ => h.2⟩
    | false =>
      apply (checkmaxwait_ends _ now conn).imp
      intro _ last hlast
      rw [hlast]
      exact ⟨h.1, fun _ => h.2⟩

end Conn

namespace Connection

variable {Q : Type} {queue : WriteQueue Q} {pending : Q → List UInt8} {mask : UInt32} {connection next : Connection Q}

/-- The events of a connection. -/
def events : Connection Q → List ConnEvent
  | idle conn => conn.events
  | receiving conn _ => conn.events
  | removed events => events

/-- The connection, as long as it is there. -/
def conn? : Connection Q → Option (Conn Q)
  | idle conn => some conn
  | receiving conn _ => some conn
  | removed _ => none

/-- A `FIN` comes after all that was accepted, nothing comes after it, and it was sent if the connection is shut
down and has nothing to write. -/
def Graceful (queue : WriteQueue Q) (connection : Connection Q) : Prop :=
  FinLast connection.events ∧ ∀ conn ∈ connection.conn?, conn.Answered queue

/-- The invariant of a connection. -/
def Ready (queue : WriteQueue Q) (pending : Q → List UInt8) (connection : Connection Q) : Prop :=
  FinLast connection.events ∧ ∀ conn ∈ connection.conn?, conn.Ready queue pending

theorem Ready.engine (h : connection.Ready queue pending) {call : ConnCall Q Unit}
    (hcall : ∀ conn, conn.Ready queue pending → call.Ends conn fun _ last => last.Ready queue pending)
    (hnext : connection.engine call = some next) : next.Ready queue pending := by
  cases connection with
  | idle conn =>
    obtain ⟨⟨result, last⟩, hresult, rfl⟩ := Option.map_eq_some_iff.mp hnext
    have hlast := (hcall conn (h.2 conn rfl)).holds result last hresult
    exact ⟨hlast.1.last, fun conn hconn => Option.mem_some.mp hconn ▸ hlast⟩
  | receiving conn wr =>
    obtain ⟨⟨result, last⟩, hresult, rfl⟩ := Option.map_eq_some_iff.mp hnext
    have hlast := (hcall conn (h.2 conn rfl)).holds result last hresult
    exact ⟨hlast.1.last, fun conn hconn => Option.mem_some.mp hconn ▸ hlast⟩
  | removed events => nomatch hnext

theorem ready_idle {conn : Conn Q} (h : conn.Ready queue pending) : (idle conn).Ready queue pending :=
  ⟨h.1.last, fun _ hconn => Option.mem_some.mp hconn ▸ h⟩

theorem ready_removed {events : List ConnEvent} (h : FinLast events) :
    (removed events : Connection Q).Ready queue pending :=
  ⟨h, nofun⟩

/-- A connection whose write part has thrown is removed. -/
theorem ready_finish (horder : InOrder queue pending) {conn : Conn Q} (h : conn.Ready queue pending) {wr : Bool}
    {outcome : WriteOutcome} {now : Timeval} (hnext : finish queue mask wr outcome now conn = some next) :
    next.Ready queue pending := by
  obtain ⟨⟨result, last⟩, hresult, rfl⟩ := Option.map_eq_some_iff.mp hnext
  have hlast := (Conn.process_ends horder h wr outcome now).holds result last hresult
  cases result with
  | error except => exact ready_removed hlast.1.last
  | ok =>
    by_cases hready : Conn.ready (.ok (), last) = true
    · rw [if_pos hready]
      exact ready_idle ⟨hlast.1, hlast.2 rfl⟩
    · rw [if_neg hready]
      exact ready_removed hlast.1.last

/-- A step keeps the invariant. -/
theorem Ready.step (horder : InOrder queue pending) (h : connection.Ready queue pending) {action : ConnAction}
    (hnext : connection.step queue mask action = some next) : next.Ready queue pending := by
  cases action with
  | send bytes memory wantwr now =>
    exact h.engine (fun conn hconn => Conn.send_ends horder hconn bytes memory wantwr now) hnext
  | sendv bytes memory wantwr now =>
    exact h.engine (fun conn hconn => Conn.sendv_ends horder hconn bytes memory wantwr now) hnext
  | shutdown stream outcome =>
    exact h.engine (fun conn hconn => Conn.shutdown_ends horder hconn stream outcome) hnext
  | teardown => exact h.engine (fun conn hconn => Conn.teardown_ends hconn) hnext
  | received outcome now =>
    cases connection with
    | receiving conn wr => exact ready_finish horder (h.2 conn rfl) hnext
    | idle conn => nomatch hnext
    | removed events => nomatch hnext
  | ready rd wr result timer outcome now =>
    cases connection with
    | receiving conn wr => nomatch hnext
    | removed events => nomatch hnext
    | idle conn =>
      cases rd with
      | false => exact ready_finish horder (h.2 conn rfl) hnext
      | true =>
        obtain ⟨⟨received, last⟩, hreceived, hrest⟩ := Option.bind_eq_some_iff.mp hnext
        have hlast := (Conn.processrd_ends (h.2 conn rfl) result timer).holds received last hreceived
        match received with
        | .ok (.data size) =>
          rw [Option.some.injEq] at hrest
          rw [← hrest]
          exact ⟨hlast.1.last, fun _ hconn => Option.mem_some.mp hconn ▸ hlast⟩
        | .ok .blocked => exact ready_finish horder hlast hrest
        | .ok .closed =>
          rw [Option.some.injEq] at hrest
          rw [← hrest]
          exact ready_removed hlast.1.last
        | .error except =>
          rw [Option.some.injEq] at hrest
          rw [← hrest]
          exact ready_removed hlast.1.last

/-- With a queue that keeps the order, every run shuts the connection down gracefully. -/
theorem run_graceful (horder : InOrder queue pending) {buffer : Q} (hempty : queue.empty buffer = true)
    {now : Timeval} {actions : List ConnAction} {last : Connection Q}
    (h : run (step queue mask) (idle (Conn.create buffer now)) actions = some last) : last.Graceful queue := by
  have hcreate : (Conn.create buffer now).Ready queue pending := by
    exact ⟨Conn.sound_create buffer (horder.empty buffer hempty) now, nofun⟩
  have hlast : last.Ready queue pending :=
    run_invariant (fun _ _ _ hready hstep => hready.step horder hstep) (ready_idle hcreate) h
  exact ⟨hlast.1, fun conn hconn => (hlast.2 conn hconn).2⟩

/-- A queue of bytes. -/
def fifo : WriteQueue (List UInt8) where
  empty := List.isEmpty
  size := List.length
  append q bytes _ := (none, q ++ bytes)
  appendblob q bytes _ := (none, q ++ bytes)
  writesome mask q result :=
    match result with
    | .ok n => ⟨.ok (min n q.length), (q.take n).map some, q.drop n⟩
    | .error except => ⟨verify mask (.error except), [], q⟩

theorem fifo_inOrder : InOrder fifo id where
  empty q h := List.isEmpty_iff.mp h
  append q bytes memory next h := by cases h; rfl
  append_throws q bytes memory except next h := by cases h
  appendblob q bytes memory next h := by cases h; rfl
  appendblob_throws q bytes memory except next h := by cases h
  writesome mask q result := by
    cases result with
    | error except => rfl
    | ok n =>
      change (q.take n).map some ++ (q.drop n).map some = q.map some
      rw [← List.map_append, List.take_append_drop]

/-- Two bytes that are sent, and written one by one after the shutdown. -/
def shutdownTwo : List ConnAction :=
  [.send [104, 105] .enough none ⟨0, 0⟩, .shutdown true none,
    .ready false true (.ok []) none ⟨.ok 1, none, none, none⟩ ⟨0, 0⟩,
    .ready false true (.ok []) none ⟨.ok 1, none, none, none⟩ ⟨0, 0⟩]

theorem run_graceful_two : ∃ last, run (step fifo 15) (idle (Conn.create [] ⟨0, 0⟩)) shutdownTwo = some last ∧
    last.events = [.accept [104, 105], .write [some 104], .write [some 105], .fin] ∧ last.Graceful fifo := by
  have hrun : run (step fifo 15) (idle (Conn.create [] ⟨0, 0⟩)) shutdownTwo = some (idle ⟨[], .shutdown, ⟨0, 0⟩, false,
      [.accept [104, 105], .write [some 104], .write [some 105], .fin]⟩) := rfl
  exact ⟨_, hrun, rfl, run_graceful fifo_inOrder rfl hrun⟩

end Connection

end Aug.Aspp
