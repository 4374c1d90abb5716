import Aug.Aspp.ConnShutdown

/-!
# The state of a connection

No call on a connection takes its state back, and one that is to close it at once leaves it closed.
-/

namespace Aug.Aspp.Conn

open Lib Sys

variable {Q α β : Type} {queue : WriteQueue Q} {mask : UInt32}

/-- The call does not take the state back. -/
def Grows (x : ConnCall Q α) : Prop := ∀ conn : Conn Q, x.Ends conn fun _ last => conn.state.rank ≤ last.state.rank

theorem grows_pure (a : α) : Grows (pure a : ConnCall Q α) := fun _ => Call.ends_of_eq rfl le_rfl

theorem grows_fail (except : Exception) : Grows (Call.fail except : ConnCall Q α) := fun _ => Call.ends_of_eq rfl le_rfl

theorem grows_read : Grows (Call.read : ConnCall Q (Conn Q)) := fun _ => Call.ends_of_eq rfl le_rfl

theorem grows_modify {f : Conn Q → Conn Q} (h : ∀ conn, conn.state.rank ≤ (f conn).state.rank) :
    Grows (Call.modify f : ConnCall Q Unit) := fun conn => Call.ends_of_eq rfl (h conn)

theorem Grows.bind {x : ConnCall Q α} {f : α → ConnCall Q β} (hx : Grows x) (hf : ∀ a, Grows (f a)) : Grows (x >>= f) := by
  intro conn
  apply (hx conn).bind
  · intro _ last hlast
    exact hlast
  · intro a last hlast
    apply (hf a last).imp
    intro _ next hnext
    exact hlast.trans hnext

theorem grows_modify_bind {f : Conn Q → Conn Q} {x : Unit → ConnCall Q β}
    (h : ∀ conn, conn.state.rank ≤ (f conn).state.rank) (hx : ∀ a, Grows (x a)) : Grows (Call.modify f >>= x) :=
  (grows_modify h).bind hx

theorem Grows.rank_le {x : ConnCall Q α} (h : Grows x) {conn : Conn Q} {result : Except Exception α × Conn Q}
    (hresult : x conn = some result) : conn.state.rank ≤ result.2.state.rank :=
  (h conn).holds _ _ hresult

theorem grows_check (outcome : Option Exception) : Grows (check mask outcome : ConnCall Q Unit) := by
  rw [check]
  split
  · exact grows_pure ()
  · exact grows_fail _

theorem grows_setchanwantwr (wantwr : Bool) (outcome : Option Exception) :
    Grows (setchanwantwr mask wantwr outcome : ConnCall Q Unit) := by
  apply (grows_check outcome).bind
  intro _
  split
  · exact grows_modify fun _ => le_rfl
  · exact grows_pure ()

theorem grows_fin (outcome : Option Exception) : Grows (fin mask outcome : ConnCall Q Unit) := by
  apply grows_modify_bind
  · intro _
    exact le_rfl
  · intro _
    exact grows_check outcome

theorem grows_sendwith (append : Q → Option Exception × Q) (bytes : List UInt8) (wantwr : Option Exception)
    (now : Timeval) : Grows (sendwith queue append mask bytes wantwr now) := by
  apply grows_read.bind
  intro conn
  split
  on_goal 1 => refine grows_modify_bind (fun _ => le_rfl) fun _ => (grows_setchanwantwr true wantwr).bind fun _ => ?_
  all_goals
    apply grows_read.bind
    intro conn
    split
    · exact grows_modify fun _ => le_rfl
    · exact grows_modify_bind (fun _ => le_rfl) fun _ => grows_fail _

theorem grows_send (bytes : List UInt8) (memory : Memory) (wantwr : Option Exception) (now : Timeval) :
    Grows (send queue mask bytes memory wantwr now) := by
  apply grows_read.bind
  intro conn
  split
  · exact grows_sendwith _ _ _ _
  · exact grows_fail _

theorem grows_sendv (bytes : List UInt8) (memory : Memory) (wantwr : Option Exception) (now : Timeval) :
    Grows (sendv queue mask bytes memory wantwr now) := by
  apply grows_read.bind
  intro conn
  split
  · exact grows_sendwith _ _ _ _
  · exact grows_fail _

/-- No state is behind the last one. -/
theorem rank_le_closed (state : SockState) : state.rank ≤ SockState.closed.rank := by
  cases state <;> decide

/-- A shutdown takes a connection that can send into the state for it, or into the last one. -/
theorem shutdown_ends_state (stream : Bool) (outcome : Option Exception) (conn : Conn Q) :
    (shutdown queue mask stream outcome).Ends conn fun _ last =>
      conn.state.rank ≤ last.state.rank ∧ (conn.sendable = true → stream = false → last.state = .closed) := by
  apply (Call.returns_read conn).bind_ends
  split_ifs with hshut hstream
  · apply Call.ends_of_eq rfl
    apply And.intro le_rfl
    intro hsendable
    exact absurd hshut (Nat.not_le_of_lt (of_decide_eq_true hsendable))
  · apply (Call.returns_modify _ conn).bind_ends
    apply (check_ends mask outcome _).imp
    intro _ last hlast
    rw [hlast]
    exact ⟨rank_le_closed conn.state, fun _ _ => rfl⟩
  · apply (Call.returns_modify _ conn).bind_ends
    apply (grows_fin outcome _).imp
    intro _ last hlast
    exact ⟨(Nat.lt_of_not_le hshut).le.trans hlast, fun _ hfalse => absurd (by simp [hfalse]) hstream⟩
  · apply Call.ends_of_eq rfl
    exact ⟨(Nat.lt_of_not_le hshut).le, fun _ hfalse => absurd (by simp [hfalse]) hstream⟩

theorem grows_processrd (result : Except Exception (List UInt8)) (timer : Option Exception) :
    Grows (processrd mask result timer : ConnCall Q Received) := by
  rw [processrd]
  split
  · apply grows_modify_bind
    · intro conn
      exact rank_le_closed conn.state
    · intro _
      exact grows_pure _
  · split
    · exact grows_pure _
    · exact grows_pure _
    · exact grows_pure _
    · exact grows_fail _
  · exact grows_pure _
  · exact grows_fail _

theorem grows_resetrwtimer (outcome : Option Exception) : Grows (resetrwtimer outcome : ConnCall Q Unit) := by
  match outcome with
  | none | some .none => exact grows_pure ()
  | some .error | some .intr | some .block => exact grows_fail _

theorem grows_checkmaxwait (since now : Timeval) : Grows (checkmaxwait since now : ConnCall Q Unit) := by
  rw [checkmaxwait]
  split
  · exact grows_fail _
  · exact grows_pure ()

theorem grows_checkmaxtime (n size : ℕ) (since now : Timeval) :
    Grows (checkmaxtime n size since now : ConnCall Q Unit) := by
  rw [checkmaxtime]
  dsimp only
  split_ifs
  · exact grows_pure ()
  · exact grows_pure ()
  · exact grows_pure ()
  · exact grows_fail _
  · exact grows_pure ()

theorem grows_processwr (outcome : WriteOutcome) (now : Timeval) : Grows (processwr queue mask outcome now) := by
  apply grows_read.bind
  intro conn
  apply grows_modify_bind
  · intro _
    exact le_rfl
  · intro _
    split
    · exact grows_fail _
    · apply (grows_resetrwtimer _).bind
      intro _
      apply grows_read.bind
      intro conn
      split
      · apply (grows_setchanwantwr false _).bind
        intro _
        split
        · exact grows_fin _
        · exact grows_pure ()
      · split
        · apply (grows_checkmaxtime _ _ _ _).bind
          intro _
          exact grows_modify fun _ => le_rfl
        · exact grows_modify fun _ => le_rfl

theorem grows_process (wr : Bool) (outcome : WriteOutcome) (now : Timeval) :
    Grows (process queue mask wr outcome now) := by
  rw [process]
  split
  · exact grows_processwr outcome now
  · apply grows_read.bind
    intro conn
    split
    · exact grows_pure ()
    · exact grows_checkmaxwait _ _

end Aug.Aspp.Conn
