import Aug.Aspp.ConnState
import Aug.Aspp.SockEngine
import Aug.Lib.Transition

/-!
# The lives of sockets

What a session is told about a socket is a life. A listener is made by a call, and so is a connection that is going to
be established; another connection is offered, and taken or refused. A session is told at most once that a connection
has been established and at most once to tear it down, and receives only in between; after an error, or once it has
closed the socket at once, it is told of the end only; and it is told of the end once, and of nothing after it.
-/

namespace Aug.Aspp

open Lib Sys Util

/-- What a socket that has not ended is. -/
inductive SockStage where
  | listener
  | offered
  | connecting
  | established
  deriving DecidableEq

/-- A life: before it, in it, with whether the session has been told to tear down and whether only the end may follow,
and after it. -/
inductive SockLife where
  | unborn
  | alive (stage : SockStage) (torn gone : Bool)
  | refused
  | ended
  deriving DecidableEq

namespace SockLife

def isAlive : SockLife → Bool
  | alive _ _ _ => true
  | _ => false

/-- What may happen in a life. -/
def step (life : SockLife) (event : SockEvent) : Option SockLife :=
  match event, life with
  | .listen, unborn => some (alive .listener false false)
  | .connect, unborn => some (alive .connecting false false)
  | .accepted, unborn => some (alive .offered false false)
  | .answered true, alive .offered torn gone => some (alive .established torn gone)
  | .answered false, alive .offered _ _ => some refused
  | .connected, alive .connecting torn false => some (alive .established torn false)
  | .recv _, alive .established torn false => some (alive .established torn false)
  | .teardown, alive .connecting false false => some (alive .connecting true false)
  | .teardown, alive .established false false => some (alive .established true false)
  | .error, alive .listener torn false => some (alive .listener torn true)
  | .error, alive .connecting torn false => some (alive .connecting torn true)
  | .error, alive .established torn false => some (alive .established torn true)
  | .shutnow, alive stage torn _ => some (alive stage torn true)
  | .closed, alive .listener _ _ | .closed, alive .connecting _ _ | .closed, alive .established _ _ => some ended
  | _, _ => none

end SockLife

/-- What an engine has for an id, and whether the session is being told of an error. -/
structure SockView (Q : Type) where
  sock : Option (Sock Q)
  chan : Option Channel
  current : Option Channel
  failing : Bool

/-- A connection that has been torn down is past it, and one for which only the end may follow is past it and without a
descriptor, unless it is failing. -/
structure Barred (state : SockState) (sd torn gone failing : Bool) : Prop where
  torn : torn = true → SockState.teardown.rank ≤ state.rank
  gone : gone = true → failing = true ∨ sd = false ∧ SockState.teardown.rank ≤ state.rank

/-- What an engine has for an id in each part of a life. -/
inductive Standing {Q : Type} : SockView Q → SockLife → Prop where
  | unborn : Standing ⟨none, none, none, false⟩ .unborn
  | refused : Standing ⟨none, none, none, false⟩ .refused
  | ended : Standing ⟨none, none, none, false⟩ .ended
  | listener {state : SockState} {sd gone failing : Bool} (h : gone = true → failing = true ∨ sd = false) :
      Standing ⟨some (.listener state), some (.server sd), none, failing⟩ (.alive .listener false gone)
  | offered {conn : Conn Q} {sd torn gone : Bool} (h : Barred conn.state sd torn gone false) :
      Standing ⟨some (.conn conn false), none, some (.stream sd), false⟩ (.alive .offered torn gone)
  | connecting {conn : Conn Q} {sd est torn gone failing : Bool} (h : Barred conn.state sd torn gone failing) :
      Standing ⟨some (.conn conn true), some (.client sd est), none, failing⟩ (.alive .connecting torn gone)
  | joining {conn : Conn Q} {sd torn gone : Bool} (h : Barred conn.state sd torn gone false) :
      Standing ⟨some (.conn conn true), some (.client false false), some (.stream sd), false⟩
        (.alive .established torn gone)
  | established {conn : Conn Q} {sd torn gone failing : Bool} (h : Barred conn.state sd torn gone failing) :
      Standing ⟨some (.conn conn true), some (.stream sd), none, failing⟩ (.alive .established torn gone)

theorem Barred.grows {state next : SockState} {sd torn gone failing : Bool} (h : Barred state sd torn gone failing)
    (hrank : state.rank ≤ next.rank) : Barred next sd torn gone failing where
  torn htorn := (h.torn htorn).trans hrank
  gone hgone := (h.gone hgone).imp_right fun hshut => ⟨hshut.1, hshut.2.trans hrank⟩

/-- A connection whose state has not been taken back stands where it stood. -/
theorem Standing.grows {Q : Type} {view : SockView Q} {life : SockLife} {conn next : Conn Q} {accepted : Bool}
    (h : Standing view life) (hsock : view.sock = some (.conn conn accepted))
    (hrank : conn.state.rank ≤ next.state.rank) : Standing { view with sock := some (.conn next accepted) } life := by
  cases h with
  | unborn | refused | ended | listener => cases hsock
  | offered h =>
    cases hsock
    exact .offered (h.grows hrank)
  | connecting h =>
    cases hsock
    exact .connecting (h.grows hrank)
  | joining h =>
    cases hsock
    exact .joining (h.grows hrank)
  | established h =>
    cases hsock
    exact .established (h.grows hrank)

/-- A socket and what it is when it has been closed at once. -/
inductive Shut {Q : Type} : Sock Q → Sock Q → Prop where
  | listener (state : SockState) : Shut (.listener state) (.listener .closed)
  | conn (conn : Conn Q) {next : Conn Q} (accepted : Bool) (h : next.state = .closed) :
      Shut (.conn conn accepted) (.conn next accepted)

/-- Only the end may follow where a connection is closed and has no descriptor. -/
theorem barred_shut {state : SockState} (h : state = .closed) (torn gone failing : Bool) :
    Barred state false torn gone failing where
  torn _ := h ▸ Conn.rank_le_closed _
  gone _ := .inr ⟨rfl, h ▸ Conn.rank_le_closed _⟩

/-- Closing the current channel at once. -/
theorem Standing.shut_current {Q : Type} {view : SockView Q} {life : SockLife} {sock next : Sock Q} {chan : Channel}
    (h : Standing view life) (hsock : view.sock = some sock) (hchan : view.current = some chan) (hshut : Shut sock next) :
    ∃ last, life.step .shutnow = some last ∧ Standing { view with sock := some next, current := some chan.close } last := by
  cases h with
  | unborn | refused | ended | listener | connecting | established => cases hchan
  | offered h =>
    cases hsock
    cases hchan
    cases hshut with
    | conn _ _ hclosed => exact ⟨_, rfl, .offered (barred_shut hclosed ..)⟩
  | joining h =>
    cases hsock
    cases hchan
    cases hshut with
    | conn _ _ hclosed => exact ⟨_, rfl, .joining (barred_shut hclosed ..)⟩

/-- Closing the channel in the set at once. -/
theorem Standing.shut_chan {Q : Type} {view : SockView Q} {life : SockLife} {sock next : Sock Q} {chan : Channel}
    (h : Standing view life) (hsock : view.sock = some sock) (hcurrent : view.current = none)
    (hchan : view.chan = some chan) (hshut : Shut sock next) :
    ∃ last, life.step .shutnow = some last ∧ Standing { view with sock := some next, chan := some chan.close } last := by
  cases h with
  | unborn | refused | ended => cases hsock
  | offered | joining => cases hcurrent
  | listener h =>
    cases hsock
    cases hchan
    cases hshut
    exact ⟨_, rfl, .listener fun _ => .inr rfl⟩
  | connecting h =>
    cases hsock
    cases hchan
    cases hshut with
    | conn _ _ hclosed => exact ⟨_, rfl, .connecting (barred_shut hclosed ..)⟩
  | established h =>
    cases hsock
    cases hchan
    cases hshut with
    | conn _ _ hclosed => exact ⟨_, rfl, .established (barred_shut hclosed ..)⟩

/-- A socket, its channel with a descriptor, and its life, where the session is not being told anything. -/
inductive Live {Q : Type} : Sock Q → Channel → SockLife → Prop where
  | listener (state : SockState) : Live (.listener state) (.server true) (.alive .listener false false)
  | connecting {conn : Conn Q} {est torn : Bool} (h : Barred conn.state true torn false false) :
      Live (.conn conn true) (.client true est) (.alive .connecting torn false)
  | established {conn : Conn Q} {torn : Bool} (h : Barred conn.state true torn false false) :
      Live (.conn conn true) (.stream true) (.alive .established torn false)

/-- What a channel with a descriptor belongs to. -/
theorem Standing.live {Q : Type} {view : SockView Q} {life : SockLife} {chan : Channel} (h : Standing view life)
    (hcurrent : view.current = none) (hchan : view.chan = some chan) (hfailing : view.failing = false)
    (hsd : chan.sd = true) : ∃ sock, view.sock = some sock ∧ Live sock chan life := by
  have hgone {sd torn gone : Bool} {conn : Conn Q} (hbarred : Barred conn.state sd torn gone false) (hsd : sd = true) :
      gone = false := by
    cases gone with
    | false => rfl
    | true => simpa [hsd] using hbarred.gone rfl
  cases h with
  | unborn | refused | ended | offered => cases hchan
  | joining => cases hcurrent
  | @listener state sd gone failing hlisten =>
    cases hchan
    cases hfailing
    have hsd : sd = true := hsd
    subst hsd
    cases gone with
    | false => exact ⟨_, rfl, .listener state⟩
    | true => simpa using hlisten rfl
  | @connecting conn sd est torn gone failing hbarred =>
    cases hchan
    cases hfailing
    have hsd : sd = true := hsd
    have hnot := hgone hbarred hsd
    subst hsd hnot
    exact ⟨_, rfl, .connecting hbarred⟩
  | @established conn sd torn gone failing hbarred =>
    cases hchan
    cases hfailing
    have hsd : sd = true := hsd
    have hnot := hgone hbarred hsd
    subst hsd hnot
    exact ⟨_, rfl, .established hbarred⟩

/-- What stands is alive where there is a socket. -/
theorem Standing.isAlive {Q : Type} {view : SockView Q} {life : SockLife} (h : Standing view life) :
    life.isAlive = view.sock.isSome := by
  cases h <;> rfl

namespace SockEngine

variable {Q : Type}

/-- What the engine has for an id. -/
def view (e : SockEngine Q) (id : ℤ) : SockView Q where
  sock := e.socks.find id
  chan := e.chans.find id
  current := e.current.bind fun current => if current.1 = id then some current.2 else none
  failing := decide (e.frame = some (.error id))

/-- The callback that runs fits the current channel and the sockets. -/
def Framed (e : SockEngine Q) : Prop :=
  match e.frame with
  | some (.accepted id) => ∃ conn chan, e.socks.find id = some (.conn conn false) ∧ e.current = some (id, chan)
  | some (.connected id) => ∃ conn chan, e.socks.find id = some (.conn conn true) ∧ e.current = some (id, chan)
  | some (.recv id _) => e.current = none ∧ ∃ conn, e.socks.find id = some (.conn conn true)
  | _ => e.current = none

/-- Each id stands where its life has got to, and none is known that has not been drawn. -/
structure Lives (e : SockEngine Q) : Prop where
  drawn : ∀ id, e.counter ≤ id → e.eventsOf id = []
  stands : ∀ id, ∃ life, run SockLife.step .unborn (e.eventsOf id) = some life ∧ Standing (e.view id) life
  framed : e.Framed

variable {e e' : SockEngine Q} {id other : ℤ} {sock : Sock Q} {chan : Channel} {event : SockEvent} {frame : SockFrame}

/-! ## What is there for an id -/

theorem eventsOf_note : (e.note id event).eventsOf other =
    if other = id then e.eventsOf other ++ [event] else e.eventsOf other := by
  rw [eventsOf, note, List.filter_append, List.map_append]
  split_ifs with heq
  · rw [heq, List.filter_singleton]
    simp [eventsOf]
  · have hne : ¬id = other := fun h => heq h.symm
    simp [eventsOf, hne]

theorem view_assign : (e.assign id sock).view other =
    if other = id then { e.view other with sock := some sock } else e.view other := by
  have hfind := OrderedMap.find_put idGt id other sock e.socks
  split_ifs at hfind ⊢ with heq
  · rw [view, assign]
    dsimp only
    rw [hfind]
    rfl
  · rw [view, assign]
    dsimp only
    rw [hfind]
    rfl

theorem view_setchan : (e.setchan id chan).view other =
    if other = id then { e.view other with chan := some chan } else e.view other := by
  have hfind := OrderedMap.find_put idGt id other chan e.chans
  split_ifs at hfind ⊢ with heq
  · rw [view, setchan]
    dsimp only
    rw [hfind]
    rfl
  · rw [view, setchan]
    dsimp only
    rw [hfind]
    rfl

theorem insert_eq (h : e.socks.find id = none) (sock : Sock Q) : e.insert id sock = e.assign id sock := by
  rw [insert, h]
  rfl

/-- A channel is found where the view has it. -/
theorem findchan_eq : e.findchan id =
    ((e.view id).current.map (·, true)).or ((e.view id).chan.map (·, false)) := by
  rw [findchan, view]
  cases e.current with
  | none => rfl
  | some current =>
    dsimp only [Option.bind_some]
    split_ifs
    · rfl
    · rfl

/-- A channel that has been found is the current one, or the one in the set. -/
theorem findchan_cases {found : Channel × Bool} (h : e.findchan id = some found) :
    (found.2 = true ∧ e.current = some (id, found.1)) ∨
      (found.2 = false ∧ (e.view id).current = none ∧ (e.view id).chan = some found.1) := by
  have hnone (hcurrent : (e.view id).current = none) : found.2 = false ∧ (e.view id).chan = some found.1 := by
    rw [findchan_eq, hcurrent, Option.map_none, Option.none_or] at h
    obtain ⟨chan, hchan, hfound⟩ := Option.map_eq_some_iff.mp h
    rw [← hfound]
    exact ⟨rfl, hchan⟩
  cases hcurrent : e.current with
  | none =>
    have hview : (e.view id).current = none := by
      rw [view, hcurrent]
      rfl
    exact .inr ⟨(hnone hview).1, hview, (hnone hview).2⟩
  | some current =>
    by_cases hid : current.1 = id
    · have hfound : found = (current.2, true) := by
        rw [findchan, hcurrent] at h
        dsimp only at h
        rw [if_pos hid, Option.some.injEq] at h
        exact h.symm
      rw [hfound, ← hid]
      exact .inl ⟨rfl, rfl⟩
    · have hview : (e.view id).current = none := by
        rw [view, hcurrent]
        exact if_neg hid
      exact .inr ⟨(hnone hview).1, hview, (hnone hview).2⟩

theorem view_closechan {found : Channel × Bool} (h : e.findchan id = some found) :
    (e.closechan id found).view other =
      if other = id then
        if found.2 then { e.view id with current := some found.1.close } else { e.view id with chan := some found.1.close }
      else e.view other := by
  rw [closechan]
  cases findchan_cases h with
  | inl hcurrent =>
    obtain ⟨hfound, hcurrent⟩ := hcurrent
    rw [if_pos hfound, if_pos hfound]
    split_ifs with heq
    · rw [heq, view, view, hcurrent]
      simp
    · have hne : ¬id = other := fun h => heq h.symm
      rw [view, view, hcurrent]
      simp [hne]
  | inr hset =>
    have hfound : ¬found.2 = true := by simp [hset.1]
    rw [if_neg hfound, if_neg hfound, view_setchan]
    split_ifs with heq
    · rw [heq]
    · rfl

/-- Closing a channel leaves all but the channels. -/
theorem closechan_keeps (e : SockEngine Q) (id : ℤ) (found : Channel × Bool) :
    (e.closechan id found).counter = e.counter ∧ (e.closechan id found).log = e.log ∧
      (e.closechan id found).frame = e.frame ∧ (e.closechan id found).socks = e.socks := by
  rw [closechan]
  split_ifs
  · exact ⟨rfl, rfl, rfl, rfl⟩
  · exact ⟨rfl, rfl, rfl, rfl⟩

/-! ## What steps keep -/

/-- Nothing is known of an id that has not been drawn. -/
theorem Lives.view_drawn (h : e.Lives) (hid : e.counter ≤ id) : e.view id = ⟨none, none, none, false⟩ := by
  obtain ⟨life, hrun, hstands⟩ := h.stands id
  rw [h.drawn id hid] at hrun
  cases hrun
  generalize e.view id = view at hstands
  cases hstands
  rfl

theorem Lives.lt_counter (h : e.Lives) (hsock : e.socks.find id = some sock) : id < e.counter := by
  by_contra hid
  have hview := congrArg SockView.sock (h.view_drawn (Int.not_lt.mp hid))
  rw [view, hsock] at hview
  cases hview

/-- A step that adds no event, and leaves each id where its life is. -/
theorem Lives.keep (h : e.Lives) (hcounter : e.counter ≤ e'.counter) (hlog : e'.log = e.log)
    (hstands : ∀ id life, Standing (e.view id) life → Standing (e'.view id) life) (hframed : e'.Framed) : e'.Lives where
  drawn id hid := by
    rw [eventsOf, hlog]
    exact h.drawn id (hcounter.trans hid)
  stands id := by
    obtain ⟨life, hrun, hlife⟩ := h.stands id
    rw [eventsOf, hlog]
    exact ⟨life, hrun, hstands id life hlife⟩
  framed := hframed

/-- A step with one event, which leaves the other ids as they are. -/
theorem Lives.happens (h : e.Lives) (hcounter : e.counter ≤ e'.counter) (hid : id < e'.counter)
    (hlog : e'.log = e.log ++ [(id, event)]) (hothers : ∀ other, other ≠ id → e'.view other = e.view other)
    (hstep : ∀ life, run SockLife.step .unborn (e.eventsOf id) = some life → Standing (e.view id) life →
      ∃ next, life.step event = some next ∧ Standing (e'.view id) next)
    (hframed : e'.Framed) : e'.Lives := by
  have hevents (other : ℤ) : e'.eventsOf other = if other = id then e.eventsOf other ++ [event] else e.eventsOf other := by
    rw [eventsOf, hlog]
    exact eventsOf_note (e := e)
  constructor
  · intro other hother
    have hne : other ≠ id := by
      intro heq
      rw [heq] at hother
      omega
    rw [hevents, if_neg hne]
    exact h.drawn other (hcounter.trans hother)
  · intro other
    obtain ⟨life, hrun, hlife⟩ := h.stands other
    rw [hevents]
    split_ifs with heq
    · rw [heq] at hrun hlife ⊢
      obtain ⟨next, hnext, hstands⟩ := hstep life hrun hlife
      exact ⟨next, run_concat hrun hnext, hstands⟩
    · rw [hothers other heq]
      exact ⟨life, hrun, hlife⟩
  · exact hframed

/-- A call leaves the callback that runs, the id of the current channel, and what sockets are. -/
theorem Framed.call (h : e.Framed) (hframe : e'.frame = e.frame)
    (hcurrent : e'.current.map Prod.fst = e.current.map Prod.fst)
    (hsocks : ∀ id conn accepted, e.socks.find id = some (.conn conn accepted) →
      ∃ next, e'.socks.find id = some (.conn next accepted)) : e'.Framed := by
  have hsome {id : ℤ} {chan : Channel} (hchan : e.current = some (id, chan)) : ∃ chan, e'.current = some (id, chan) := by
    rw [hchan, Option.map_some, Option.map_eq_some_iff] at hcurrent
    obtain ⟨current, hcurrent, hid⟩ := hcurrent
    have hcurrent : e'.current = some (current.1, current.2) := hcurrent
    rw [hid] at hcurrent
    exact ⟨current.2, hcurrent⟩
  have hnone (hchan : e.current = none) : e'.current = none := by
    rwa [hchan, Option.map_none, Option.map_eq_none_iff] at hcurrent
  rw [Framed, hframe]
  rw [Framed] at h
  split at h
  · obtain ⟨conn, chan, hsock, hchan⟩ := h
    obtain ⟨next, hnext⟩ := hsocks _ _ _ hsock
    obtain ⟨other, hother⟩ := hsome hchan
    exact ⟨next, other, hnext, hother⟩
  · obtain ⟨conn, chan, hsock, hchan⟩ := h
    obtain ⟨next, hnext⟩ := hsocks _ _ _ hsock
    obtain ⟨other, hother⟩ := hsome hchan
    exact ⟨next, other, hnext, hother⟩
  · obtain ⟨hchan, conn, hsock⟩ := h
    obtain ⟨next, hnext⟩ := hsocks _ _ _ hsock
    exact ⟨hnone hchan, next, hnext⟩
  · exact hnone h

/-- While no callback runs, or one that is not about establishment, there is no current channel beside the set. -/
theorem Framed.idle (h : e.Framed) (hframe : e.frame = none) : e.current = none := by
  rw [Framed, hframe] at h
  exact h

/-! ## Calls -/

theorem nextid_eq (h : e.counter < 2147483647) : e.nextid = (e.counter, { e with counter := e.counter + 1 }) := by
  have hne : ¬e.counter = 2147483647 := h.ne
  rw [nextid, Timers.nextid, if_neg hne]

theorem Lives.draw (h : e.Lives) (hcounter : e.counter < 2147483647) : e.nextid.2.Lives := by
  rw [nextid_eq hcounter]
  exact h.keep (Int.le_add_one le_rfl) rfl (fun _ _ hstands => hstands) h.framed

/-- A new socket with its channel. -/
theorem Lives.born (h : e.Lives) (hcounter : e.counter < 2147483647) {life : SockLife}
    (hstep : SockLife.unborn.step event = some life)
    (hstands : Standing ⟨some sock, some chan, none, false⟩ life) :
    (((e.nextid.2.insert e.nextid.1 sock).setchan e.nextid.1 chan).note e.nextid.1 event).Lives := by
  rw [nextid_eq hcounter]
  have hview := h.view_drawn le_rfl
  have hsock : ({ e with counter := e.counter + 1 } : SockEngine Q).socks.find e.counter = none :=
    congrArg SockView.sock hview
  dsimp only
  rw [insert_eq hsock]
  have hviews (other : ℤ) : (((({ e with counter := e.counter + 1 } : SockEngine Q).assign e.counter sock).setchan
      e.counter chan).note e.counter event).view other =
        if other = e.counter then ⟨some sock, some chan, none, false⟩ else e.view other := by
    change (((({ e with counter := e.counter + 1 } : SockEngine Q).assign e.counter sock).setchan e.counter chan).view
      other) = _
    rw [view_setchan, view_assign]
    split_ifs with heq
    · rw [heq]
      change { e.view e.counter with sock := some sock, chan := some chan } = (⟨some sock, some chan, none, false⟩ : SockView Q)
      rw [hview]
    · rfl
  have hlog : (((({ e with counter := e.counter + 1 } : SockEngine Q).assign e.counter sock).setchan
      e.counter chan).note e.counter event).log = e.log ++ [(e.counter, event)] := rfl
  apply h.happens (Int.le_add_one le_rfl) (Int.lt_succ e.counter) hlog
  · intro other hother
    rw [hviews, if_neg hother]
  · intro other hrun _
    rw [h.drawn e.counter le_rfl] at hrun
    cases hrun
    rw [hviews, if_pos rfl]
    exact ⟨life, hstep, hstands⟩
  · apply Framed.call h.framed (by rfl) (by rfl)
    intro id conn accepted hfind
    have hne : id ≠ e.counter := by
      intro heq
      rw [heq] at hfind
      exact Option.some_ne_none _ (hfind.symm.trans hsock)
    exact ⟨conn, (OrderedMap.find_put ..).trans ((if_neg hne).trans hfind)⟩

theorem Lives.tcpconnect (h : e.Lives) (hcounter : e.counter < 2147483647) (buffer : Q) (est : Bool) (now : Timeval) :
    (tcpconnect buffer e est now).Lives :=
  h.born hcounter rfl (.connecting ⟨nofun, nofun⟩)

theorem insert_counter (e : SockEngine Q) (id : ℤ) (sock : Sock Q) : (e.insert id sock).counter = e.counter := by
  rw [insert]
  split <;> rfl

theorem tcpconnect_counter (h : e.counter < 2147483647) (buffer : Q) (est : Bool) (now : Timeval) :
    (tcpconnect buffer e est now).counter = e.counter + 1 := by
  rw [tcpconnect, nextid_eq h]
  exact insert_counter ..

theorem tcplisten_counter (h : e.counter < 2147483647) : e.tcplisten.counter = e.counter + 1 := by
  rw [tcplisten, nextid_eq h]
  exact insert_counter ..

theorem Lives.tcplisten (h : e.Lives) (hcounter : e.counter < 2147483647) : e.tcplisten.Lives :=
  h.born hcounter rfl (.listener nofun)

/-- Work that has an outcome in which sockets live as they should, and that has drawn at most one id. -/
def Works (e : SockEngine Q) (state : Option (SockEngine Q)) : Prop :=
  ∃ next, state = some next ∧ next.Lives ∧ next.counter ≤ e.counter + 1

theorem Lives.works (h : e.Lives) : e.Works (some e) := ⟨e, rfl, h, Int.le_add_one le_rfl⟩

/-- A socket has a channel. -/
theorem Lives.found (h : e.Lives) (hsock : e.socks.find id = some sock) : ∃ found, e.findchan id = some found := by
  obtain ⟨life, -, hstands⟩ := h.stands id
  have hview : (e.view id).sock = some sock := hsock
  rw [findchan_eq]
  generalize e.view id = view at hstands hview
  cases hstands
  · cases hview
  · cases hview
  · cases hview
  · exact ⟨_, rfl⟩
  · exact ⟨_, rfl⟩
  · exact ⟨_, rfl⟩
  · exact ⟨_, rfl⟩
  · exact ⟨_, rfl⟩

/-- Assigning a connection whose state has not been taken back. -/
theorem Lives.assign (h : e.Lives) {conn next : Conn Q} {accepted : Bool}
    (hsock : e.socks.find id = some (.conn conn accepted)) (hrank : conn.state.rank ≤ next.state.rank) :
    (e.assign id (.conn next accepted)).Lives := by
  apply h.keep (by rfl) (by rfl)
  · intro other life hstands
    rw [view_assign]
    split_ifs with heq
    · rw [heq] at hstands ⊢
      exact hstands.grows hsock hrank
    · exact hstands
  · apply Framed.call h.framed (by rfl) (by rfl)
    intro other conn' accepted' hfind
    have hput := OrderedMap.find_put idGt id other (.conn next accepted) e.socks
    by_cases heq : other = id
    · rw [heq, hsock] at hfind
      cases hfind
      rw [if_pos heq] at hput
      exact ⟨next, hput⟩
    · rw [if_neg heq] at hput
      exact ⟨conn', hput.trans hfind⟩

theorem Lives.sendwith (h : e.Lives) {call : ConnCall Q Unit} (hgrows : Conn.Grows call)
    {state : Option (SockEngine Q)} (hstep : e.sendwith id call = some state) : e.Works state := by
  rw [SockEngine.sendwith] at hstep
  split at hstep
  · rename_i conn accepted hsock
    obtain ⟨found, hfound⟩ := h.found hsock
    rw [hfound] at hstep
    obtain ⟨result, hresult, hstate⟩ := Option.map_eq_some_iff.mp hstep
    rw [← hstate]
    exact ⟨_, rfl, h.assign hsock (hgrows.rank_le hresult), Int.le_add_one le_rfl⟩
  · cases hstep
    exact h.works

/-- Closing a socket at once. -/
theorem Lives.shutnow (h : e.Lives) {next : Sock Q} {found : Channel × Bool} (hsock : e.socks.find id = some sock)
    (hfound : e.findchan id = some found) (hshut : Shut sock next) :
    (((e.assign id next).closechan id found).note id .shutnow).Lives := by
  have hassigned : (e.assign id next).findchan id = some found := hfound
  have hviews (other : ℤ) : (((e.assign id next).closechan id found).note id .shutnow).view other =
      if other = id then
        if found.2 then { e.view id with sock := some next, current := some found.1.close }
        else { e.view id with sock := some next, chan := some found.1.close }
      else e.view other := by
    change ((e.assign id next).closechan id found).view other = _
    rw [view_closechan hassigned, view_assign, view_assign, if_pos rfl]
    split_ifs
    · rfl
    · rfl
    · rfl
  obtain ⟨hcounter, hlog, hframe, hsocks⟩ := closechan_keeps (e.assign id next) id found
  have hlog : (((e.assign id next).closechan id found).note id .shutnow).log = e.log ++ [(id, .shutnow)] :=
    congrArg (· ++ [(id, SockEvent.shutnow)]) hlog
  have hcounter : (((e.assign id next).closechan id found).note id .shutnow).counter = e.counter := hcounter
  apply h.happens hcounter.ge _ hlog
  · intro other hother
    rw [hviews, if_neg hother]
  · intro life _ hstands
    rw [hviews, if_pos rfl]
    cases findchan_cases hfound with
    | inl hcurrent =>
      rw [if_pos hcurrent.1]
      apply hstands.shut_current hsock _ hshut
      rw [view, hcurrent.2]
      simp
    | inr hset =>
      rw [if_neg (by simp [hset.1])]
      exact hstands.shut_chan hsock hset.2.1 hset.2.2 hshut
  · apply Framed.call h.framed hframe
    · rw [closechan]
      cases findchan_cases hfound with
      | inl hcurrent =>
        rw [if_pos hcurrent.1, hcurrent.2]
        rfl
      | inr hset =>
        rw [if_neg (by simp [hset.1])]
        rfl
    · intro other conn accepted hfind
      have hfinds : ((e.assign id next).closechan id found).socks.find other =
          if other = id then some next else e.socks.find other :=
        (congrArg (OrderedMap.find · other) hsocks).trans (OrderedMap.find_put ..)
      rw [hfinds]
      split_ifs with heq
      · rw [heq, hsock] at hfind
        cases hfind
        cases hshut with
        | conn _ _ hclosed => exact ⟨_, rfl⟩
      · exact ⟨conn, hfind⟩
  · exact (h.lt_counter hsock).trans_eq hcounter.symm

theorem Lives.shutdown (h : e.Lives) (queue : WriteQueue Q) (mask : UInt32) {now : Bool} {outcome : Option Exception}
    {state : Option (SockEngine Q)} (hstep : e.shutdown queue mask id now outcome = some state) : e.Works state := by
  rw [SockEngine.shutdown] at hstep
  split at hstep
  · cases hstep
    exact h.works
  · rename_i sock hsock hnone
    obtain ⟨found, hfound⟩ := h.found hsock
    rw [hnone] at hfound
    cases hfound
  · rename_i sockstate found hsock hfound
    split_ifs at hstep
    · cases hstep
      exact h.works
    · cases hstep
      refine ⟨_, rfl, h.shutnow hsock hfound (.listener sockstate), ?_⟩
      exact ((closechan_keeps _ id found).1.le).trans (Int.le_add_one le_rfl)
  · rename_i conn accepted found hsock hfound
    obtain ⟨result, hresult, hstate⟩ := Option.map_eq_some_iff.mp hstep
    obtain ⟨hrank, hclosed⟩ := (Conn.shutdown_ends_state _ outcome conn).holds _ _ hresult
    rw [← hstate]
    dsimp only
    split_ifs with hnow
    · have hshut : result.2.state = .closed := by
        rw [Bool.and_eq_true] at hnow
        apply hclosed hnow.1
        cases hstream : found.1.isStream with
        | false => rfl
        | true => simpa [hstream] using hnow.2
      refine ⟨_, rfl, h.shutnow hsock hfound (.conn conn accepted hshut), ?_⟩
      exact ((closechan_keeps _ id found).1.le).trans (Int.le_add_one le_rfl)
    · exact ⟨_, rfl, h.assign hsock hrank, Int.le_add_one le_rfl⟩

/-! ## Work -/

theorem view_current (h : e.current = none) (id : ℤ) : (e.view id).current = none := by
  rw [view, h]
  rfl

theorem view_failing (h : e.frame ≠ some (.error id)) : (e.view id).failing = false := decide_eq_false h

theorem view_told (hquiet : e.frame ≠ some (.error id)) (hframe : frame ≠ .error id) :
    ({ e.view id with failing := decide (frame = .error id) } : SockView Q) = e.view id := by
  rw [decide_eq_false hframe, ← view_failing hquiet]

/-- A socket for which the session is told something that may happen. -/
theorem Lives.tells (h : e.Lives) (hsock : e.socks.find id = some sock)
    (hquiet : ∀ other, e.frame ≠ some (.error other)) (hframe : ∀ other, other ≠ id → frame ≠ .error other)
    (hstep : ∀ life, Standing (e.view id) life → ∃ next, life.step event = some next ∧
      Standing { e.view id with failing := decide (frame = .error id) } next)
    (hframed : (e.tell id event frame).Framed) : (e.tell id event frame).Lives := by
  have hviews (other : ℤ) : (e.tell id event frame).view other =
      { e.view other with failing := decide (frame = .error other) } := by
    rw [view, view]
    simp [tell, note]
  have hcounter : e.counter ≤ (e.tell id event frame).counter := le_rfl
  have hlog : (e.tell id event frame).log = e.log ++ [(id, event)] := rfl
  apply h.happens hcounter (h.lt_counter hsock) hlog _ _ hframed
  · intro other hother
    rw [hviews, view_told (hquiet other) (hframe other hother)]
  · intro life _ hstands
    rw [hviews]
    exact hstep life hstands

/-- The callback that has run was not about an error. -/
theorem Lives.unframe (h : e.Lives) (hcurrent : e.current = none) (hquiet : ∀ other, e.frame ≠ some (.error other)) :
    ({ e with frame := none } : SockEngine Q).Lives := by
  apply h.keep (by rfl) (by rfl)
  · intro id life hstands
    have hview : ({ e with frame := none } : SockEngine Q).view id = e.view id := by
      have hfailing := view_failing (hquiet id)
      rw [view, view] at *
      dsimp only at hfailing
      rw [hfailing]
      rfl
    rwa [hview]
  · exact hcurrent

theorem clearchan_counter (e : SockEngine Q) (id : ℤ) : (e.clearchan id).counter = e.counter := by
  rw [clearchan]
  split <;> rfl

/-- The channel of a socket is taken out of the set, and the session is told of the end. -/
theorem Lives.clear (h : e.Lives) (hcurrent : e.current = none) (hsock : e.socks.find id = some sock)
    (hquiet : ∀ other, other ≠ id → e.frame ≠ some (.error other)) : (e.clearchan id).Lives := by
  have htold : e.clearchan id = SockEngine.tell { e with chans := e.chans.erase id, socks := e.socks.erase id, frame := none }
      id .closed (.closed id) := by
    obtain ⟨life, -, hstands⟩ := h.stands id
    have hview := view_current hcurrent id
    have hfind : (e.view id).sock = some sock := hsock
    rw [clearchan, hsock]
    cases sock with
    | listener state => rfl
    | conn conn accepted =>
      cases accepted with
      | true => rfl
      | false =>
        generalize e.view id = view at hstands hview hfind
        cases hstands with
        | offered => cases hview
        | unborn | refused | ended | listener | connecting | joining | established => cases hfind
  have hcounter : e.counter ≤ (e.clearchan id).counter := by
    rw [htold]
    rfl
  have hless : id < (e.clearchan id).counter := by
    rw [htold]
    exact h.lt_counter hsock
  have hlog : (e.clearchan id).log = e.log ++ [(id, .closed)] := by
    rw [htold]
    rfl
  have hviews (other : ℤ) : (e.clearchan id).view other =
      if other = id then ⟨none, none, none, false⟩ else { e.view other with failing := false } := by
    rw [htold, view, view, SockEngine.tell, note]
    dsimp only
    rw [OrderedMap.find_erase, OrderedMap.find_erase, hcurrent]
    split_ifs with heq
    · simp
    · simp
  apply h.happens hcounter hless hlog
  · intro other hother
    have hfailing := view_failing (hquiet other hother)
    rw [hviews, if_neg hother, ← hfailing]
  · intro life _ hstands
    rw [hviews, if_pos rfl]
    have hview := view_current hcurrent id
    have hfind : (e.view id).sock = some sock := hsock
    generalize e.view id = view at hstands hview hfind
    cases hstands with
    | unborn | refused | ended => cases hfind
    | offered | joining => cases hview
    | listener | connecting | established => exact ⟨_, rfl, .ended⟩
  · rw [htold]
    exact hcurrent

variable {queue : WriteQueue Q} {mask : UInt32} {buffer : Q} {state : Option (SockEngine Q)}

theorem Lives.finish (h : e.Lives) (hcurrent : e.current = none) (hquiet : ∀ other, e.frame ≠ some (.error other))
    {conn : Conn Q} {accepted : Bool} (hsock : e.socks.find id = some (.conn conn accepted)) {wr : Bool}
    {outcome : WriteOutcome} {now : Timeval} (hstep : e.finish queue mask id wr outcome now = some state) :
    e.Works state := by
  rw [SockEngine.finish, hsock] at hstep
  obtain ⟨result, hresult, hstate⟩ := Option.map_eq_some_iff.mp hstep
  have hassign := (h.assign hsock ((Conn.grows_process wr outcome now).rank_le hresult)).unframe hcurrent hquiet
  have hfind : (e.assign id (.conn result.2 accepted)).socks.find id = some (.conn result.2 accepted) :=
    (OrderedMap.find_put ..).trans (if_pos rfl)
  rw [← hstate]
  dsimp only
  split_ifs with hready
  · exact ⟨_, rfl, hassign, Int.le_add_one le_rfl⟩
  · refine ⟨_, rfl, hassign.clear hcurrent hfind nofun, ?_⟩
    rw [clearchan_counter]
    exact Int.le_add_one le_rfl

theorem Lives.live (h : e.Lives) (hframe : e.frame = none) (hchan : e.chans.find id = some chan) (hsd : chan.sd = true)
    {life : SockLife} (hstands : Standing (e.view id) life) : ∃ sock, e.socks.find id = some sock ∧ Live sock chan life :=
  hstands.live (view_current (h.framed.idle hframe) id) hchan (view_failing (by simp [hframe])) hsd

theorem Lives.live_sock (h : e.Lives) (hframe : e.frame = none) (hchan : e.chans.find id = some chan)
    (hsd : chan.sd = true) : ∃ sock life, e.socks.find id = some sock ∧ Live sock chan life := by
  obtain ⟨life, -, hstands⟩ := h.stands id
  obtain ⟨sock, hsock, hlive⟩ := h.live hframe hchan hsd hstands
  exact ⟨sock, life, hsock, hlive⟩

theorem Lives.readychan (h : e.Lives) (hframe : e.frame = none) (hchan : e.chans.find id = some (.stream true))
    {rd wr : Bool} {result : Except Exception (List UInt8)} {timer : Option Exception} {outcome : WriteOutcome}
    {now : Timeval} (hstep : e.readychan queue mask id rd wr result timer outcome now = some state) : e.Works state := by
  have hquiet (other : ℤ) : e.frame ≠ some (.error other) := by simp [hframe]
  have hcurrent := h.framed.idle hframe
  obtain ⟨sock, life, hsock, hlive⟩ := h.live_sock hframe hchan rfl
  cases hlive with
  | @established conn torn hbarred =>
    rw [SockEngine.readychan, hsock] at hstep
    cases rd with
    | false => exact h.finish hcurrent hquiet hsock hstep
    | true =>
      obtain ⟨received, hreceived, hstate⟩ := Option.bind_eq_some_iff.mp hstep
      have hassign := h.assign hsock ((Conn.grows_processrd result timer).rank_le hreceived)
      have hfind : (e.assign id (.conn received.2 true)).socks.find id = some (.conn received.2 true) :=
        (OrderedMap.find_put ..).trans (if_pos rfl)
      have hidle : (e.assign id (.conn received.2 true)).frame = none := hframe
      have halone : (e.assign id (.conn received.2 true)).current = none := hcurrent
      have hset : (e.assign id (.conn received.2 true)).chans.find id = some (.stream true) := hchan
      have hcounter : (e.assign id (.conn received.2 true)).counter = e.counter := rfl
      dsimp only at hstate
      generalize e.assign id (.conn received.2 true) = assigned at *
      have hquiet (other : ℤ) : assigned.frame ≠ some (.error other) := by simp [hidle]
      have hcleared : e.Works (some (assigned.clearchan id)) := by
        refine ⟨_, rfl, hassign.clear halone hfind fun other _ => hquiet other, ?_⟩
        rw [clearchan_counter, hcounter]
        exact Int.le_add_one le_rfl
      split at hstate
      · cases hstate
        refine ⟨_, rfl, hassign.tells hfind hquiet (fun _ _ => nofun) ?_ ?_, ?_⟩
        · intro life hstands
          obtain ⟨_, _, hlive⟩ := hassign.live hidle hset rfl hstands
          cases hlive
          refine ⟨_, rfl, ?_⟩
          have hother : SockFrame.recv id wr ≠ .error id := nofun
          rwa [view_told (hquiet id) hother]
        · exact ⟨halone, _, hfind⟩
        · exact hcounter.le.trans (Int.le_add_one le_rfl)
      · obtain ⟨next, hnext, hlives, hless⟩ := hassign.finish halone hquiet hfind hstate
        exact ⟨next, hnext, hlives, hless.trans_eq (by rw [hcounter])⟩
      · cases hstate
        exact hcleared

/-- A channel that becomes the current one. -/
theorem view_enter (h : e.current = none) : ({ e with current := some (id, chan) } : SockEngine Q).view other =
    if other = id then { e.view id with current := some chan } else e.view other := by
  rw [view, view, view, h]
  split_ifs with heq
  · simp [heq]
  · have hne : ¬id = other := fun h => heq h.symm
    simp [hne]

/-- A socket whose channel becomes the current one, and for which the session is told something. -/
theorem Lives.enters (h : e.Lives) {joined last : SockEngine Q}
    (hlast : last = SockEngine.tell { joined with current := some (id, chan) } id event frame)
    (hid : id < joined.counter) (hcounter : e.counter ≤ joined.counter) (hlog : joined.log = e.log)
    (hframe : joined.frame = none) (hcurrent : joined.current = none) (hnot : ∀ other, frame ≠ .error other)
    (hothers : ∀ other, other ≠ id → joined.view other = e.view other)
    (hstep : ∀ life, run SockLife.step .unborn (e.eventsOf id) = some life → Standing (e.view id) life →
      ∃ next, life.step event = some next ∧ Standing { joined.view id with current := some chan } next)
    (hframed : last.Framed) : last.Lives := by
  have hviews (other : ℤ) : last.view other =
      if other = id then { joined.view id with current := some chan } else joined.view other := by
    rw [← view_enter hcurrent, hlast, view, view]
    simp [tell, note, hnot, hframe]
  have hevents : last.log = e.log ++ [(id, event)] := by
    rw [hlast, ← hlog]
    rfl
  have hdrawn : e.counter ≤ last.counter ∧ id < last.counter := by
    rw [hlast]
    exact ⟨hcounter, hid⟩
  apply h.happens hdrawn.1 hdrawn.2 hevents _ _ hframed
  · intro other hother
    rw [hviews, if_neg hother, hothers other hother]
  · intro life hrun hstands
    rw [hviews, if_pos rfl]
    exact hstep life hrun hstands

/-- What there is for the channel of a socket while the engine is idle. -/
theorem Lives.view_live (h : e.Lives) (hframe : e.frame = none) (hchan : e.chans.find id = some chan)
    (hsock : e.socks.find id = some sock) : e.view id = ⟨some sock, some chan, none, false⟩ := by
  have hquiet : e.frame ≠ some (.error id) := by simp [hframe]
  have hfailing := view_failing hquiet
  have hcurrent := view_current (h.framed.idle hframe) id
  rw [view] at hfailing hcurrent ⊢
  dsimp only at hfailing hcurrent
  rw [hfailing, hcurrent, hsock, hchan]

theorem Lives.errorchan (h : e.Lives) (hframe : e.frame = none) (hchan : e.chans.find id = some chan)
    (hsd : chan.sd = true) : e.Works (e.errorchan id) := by
  have hquiet (other : ℤ) : e.frame ≠ some (.error other) := by simp [hframe]
  obtain ⟨sock, life, hsock, -⟩ := h.live_sock hframe hchan hsd
  rw [SockEngine.errorchan, hsock]
  refine ⟨_, rfl, h.tells hsock hquiet ?_ ?_ (h.framed.idle hframe), Int.le_add_one le_rfl⟩
  · intro other hother heq
    cases heq
    exact hother rfl
  · intro life hstands
    obtain ⟨other, hother, hlive⟩ := h.live hframe hchan hsd hstands
    rw [h.view_live hframe hchan hother, decide_eq_true rfl]
    cases hlive with
    | listener => exact ⟨_, rfl, .listener fun _ => .inl rfl⟩
    | connecting hbarred => exact ⟨_, rfl, .connecting ⟨hbarred.torn, fun _ => .inl rfl⟩⟩
    | established hbarred => exact ⟨_, rfl, .established ⟨hbarred.torn, fun _ => .inl rfl⟩⟩

theorem Lives.establish (h : e.Lives) (hframe : e.frame = none) {est : Bool}
    (hchan : e.chans.find id = some (.client true est)) : e.Works (e.establish id) := by
  have hcurrent := h.framed.idle hframe
  obtain ⟨sock, life, hsock, hlive⟩ := h.live_sock hframe hchan rfl
  cases hlive with
  | @connecting conn est torn hbarred =>
    rw [SockEngine.establish, hsock]
    refine ⟨_, rfl, ?_, Int.le_add_one le_rfl⟩
    apply h.enters rfl
    · exact h.lt_counter hsock
    · exact le_rfl
    · rfl
    · exact hframe
    · exact hcurrent
    · exact nofun
    · intro other hother
      rw [view_setchan, if_neg hother]
    · intro life _ hstands
      obtain ⟨other, hother, hlive⟩ := h.live hframe hchan rfl hstands
      rw [view_setchan, if_pos rfl, h.view_live hframe hchan hother]
      cases hlive with
      | connecting hbarred => exact ⟨_, rfl, .joining hbarred⟩
    · exact ⟨conn, _, hsock, rfl⟩

theorem Lives.accept (h : e.Lives) (hcounter : e.counter < 2147483647) (hframe : e.frame = none) {parent : ℤ}
    (hchan : e.chans.find parent = some chan) (hsd : chan.sd = true) (buffer : Q) (now : Timeval) :
    e.Works (accept buffer e parent now) := by
  obtain ⟨sock, life, hsock, -⟩ := h.live_sock hframe hchan hsd
  have hview := h.view_drawn le_rfl
  have hnew : ({ e with counter := e.counter + 1 } : SockEngine Q).socks.find e.counter = none :=
    congrArg SockView.sock hview
  rw [SockEngine.accept, nextid_eq hcounter]
  dsimp only
  rw [hsock, insert_eq hnew]
  refine ⟨_, rfl, ?_, le_rfl⟩
  apply h.enters rfl
  · exact Int.lt_succ e.counter
  · exact Int.le_add_one le_rfl
  · rfl
  · exact hframe
  · exact h.framed.idle hframe
  · exact nofun
  · intro other hother
    rw [view_assign, if_neg hother]
    rfl
  · intro life hrun _
    rw [h.drawn e.counter le_rfl] at hrun
    cases hrun
    rw [view_assign, if_pos rfl]
    change ∃ next, _ ∧ Standing { e.view e.counter with sock := some _, current := some _ } next
    rw [hview]
    exact ⟨_, rfl, .offered ⟨nofun, nofun⟩⟩
  · exact ⟨_, _, (OrderedMap.find_put ..).trans (if_pos rfl), rfl⟩

/-- A channel of the set has a socket. -/
theorem Lives.sock_of_chan (h : e.Lives) (hcurrent : e.current = none) (hchan : e.chans.find id = some chan) :
    ∃ sock, e.socks.find id = some sock := by
  obtain ⟨life, -, hstands⟩ := h.stands id
  have hview := view_current hcurrent id
  have hchan : (e.view id).chan = some chan := hchan
  have hsock : (e.view id).sock = e.socks.find id := rfl
  rw [← hsock]
  generalize e.view id = view at hstands hview hchan
  cases hstands with
  | unborn | refused | ended | offered => cases hchan
  | joining => cases hview
  | listener | connecting | established => exact ⟨_, rfl⟩

/-- A socket that is failing is there. -/
theorem Lives.sock_of_error (h : e.Lives) (hframe : e.frame = some (.error id)) : ∃ sock, e.socks.find id = some sock := by
  obtain ⟨life, -, hstands⟩ := h.stands id
  have hfailing : (e.view id).failing = true := decide_eq_true hframe
  have hsock : (e.view id).sock = e.socks.find id := rfl
  rw [← hsock]
  generalize e.view id = view at hstands hfailing
  cases hstands with
  | unborn | refused | ended | offered | joining => cases hfailing
  | listener | connecting | established => exact ⟨_, rfl⟩

theorem Lives.process (h : e.Lives) (hcounter : e.counter < 2147483647) (hframe : e.frame = none)
    {outcome : ChannelOutcome} (hstep : e.process queue mask buffer id outcome = some state) : e.Works state := by
  obtain ⟨chan, hchan, hstate⟩ := Option.bind_eq_some_iff.mp hstep
  have hcurrent := h.framed.idle hframe
  cases hsd : chan.sd with
  | false =>
    rw [hsd] at hstate
    cases hstate
    obtain ⟨sock, hsock⟩ := h.sock_of_chan hcurrent hchan
    refine ⟨_, rfl, h.clear hcurrent hsock (by simp [hframe]), ?_⟩
    rw [clearchan_counter]
    exact Int.le_add_one le_rfl
  | true =>
    rw [hsd, if_neg (by simp)] at hstate
    split at hstate
    · cases hstate
      exact h.errorchan hframe hchan hsd
    · cases hstate
      exact h.works
    · cases hstate
      exact h.works
    · cases hstate
      exact h.works
    · cases hstate
      exact h.accept hcounter hframe hchan hsd buffer _
    · cases hstate
      subst hsd
      exact h.establish hframe hchan
    · subst hsd
      exact h.readychan hframe hchan hstate
    · cases hstate

/-- Only the channel that was the current one is seen no more. -/
theorem view_leave (hquiet : e.frame ≠ some (.error other)) (hcurrent : e.current = some (id, chan)) :
    e.leave.view other = if other = id then { e.view id with current := none, failing := false } else e.view other := by
  rw [view, view, view, leave, hcurrent, decide_eq_false hquiet]
  split_ifs with heq
  · simp [heq]
  · have hne : ¬id = other := fun h => heq h.symm
    simp [hne]

theorem view_remove : (e.remove id).view other = if other = id then { e.view other with sock := none } else e.view other := by
  have hfind := OrderedMap.find_erase id other e.socks
  split_ifs at hfind ⊢ with heq
  · rw [view, remove]
    dsimp only
    rw [hfind]
    rfl
  · rw [view, remove]
    dsimp only
    rw [hfind]
    rfl

theorem Lives.accepted (h : e.Lives) (hframe : e.frame = some (.accepted id)) (keep : Bool) :
    e.Works (e.accepted id keep) := by
  have hquiet (other : ℤ) : e.frame ≠ some (.error other) := by simp [hframe]
  have hframed := h.framed
  rw [Framed, hframe] at hframed
  obtain ⟨conn, chan, hsock, hcurrent⟩ := hframed
  have hstanding {life : SockLife} (hstands : Standing (e.view id) life) : ∃ sd torn gone, chan = .stream sd ∧
      life = .alive .offered torn gone ∧ (e.view id).chan = none ∧ Barred conn.state sd torn gone false := by
    have hview : (e.view id).sock = some (.conn conn false) := hsock
    have hchan : (e.view id).current = some chan := by
      rw [view, hcurrent]
      simp
    generalize e.view id = view at hstands hview hchan
    cases hstands with
    | unborn | refused | ended | listener | connecting | joining | established => cases hview
    | offered hbarred =>
      cases hview
      cases hchan
      exact ⟨_, _, _, rfl, rfl, rfl, hbarred⟩
  have hless := h.lt_counter hsock
  cases keep with
  | true =>
    have haccepted : e.accepted id true =
        some (((e.leave.assign id (.conn conn true)).setchan id chan).note id (.answered true)) := by
      rw [SockEngine.accepted, hsock, hcurrent]
      rfl
    have hviews (other : ℤ) : (((e.leave.assign id (.conn conn true)).setchan id chan).note id (.answered true)).view
        other = if other = id then ⟨some (.conn conn true), some chan, none, false⟩ else e.view other := by
      change ((e.leave.assign id (.conn conn true)).setchan id chan).view other = _
      rw [view_setchan, view_assign, view_leave (hquiet other) hcurrent]
      split_ifs
      · rfl
      · rfl
    have hcounter : e.counter ≤ (((e.leave.assign id (.conn conn true)).setchan id chan).note id
        (.answered true)).counter := le_rfl
    refine ⟨_, haccepted, h.happens hcounter hless rfl ?_ ?_ rfl, Int.le_add_one le_rfl⟩
    · intro other hother
      rw [hviews, if_neg hother]
    · intro life _ hstands
      obtain ⟨sd, torn, gone, hchan, hlife, -, hbarred⟩ := hstanding hstands
      rw [hviews, if_pos rfl, hlife, hchan]
      exact ⟨_, rfl, .established hbarred⟩
  | false =>
    have haccepted : e.accepted id false = some ((e.leave.remove id).note id (.answered false)) := by
      rw [SockEngine.accepted, hsock, hcurrent]
      rfl
    have hviews (other : ℤ) : ((e.leave.remove id).note id (.answered false)).view other =
        if other = id then ⟨none, (e.view id).chan, none, false⟩ else e.view other := by
      change (e.leave.remove id).view other = _
      rw [view_remove, view_leave (hquiet other) hcurrent]
      split_ifs
      · rfl
      · rfl
    have hcounter : e.counter ≤ ((e.leave.remove id).note id (.answered false)).counter := le_rfl
    refine ⟨_, haccepted, h.happens hcounter hless rfl ?_ ?_ rfl, Int.le_add_one le_rfl⟩
    · intro other hother
      rw [hviews, if_neg hother]
    · intro life _ hstands
      obtain ⟨sd, torn, gone, -, hlife, hchan, -⟩ := hstanding hstands
      rw [hviews, if_pos rfl, hlife, hchan]
      exact ⟨_, rfl, .refused⟩

theorem Lives.connected (h : e.Lives) (hframe : e.frame = some (.connected id)) : e.Works (e.connected id) := by
  have hquiet (other : ℤ) : e.frame ≠ some (.error other) := by simp [hframe]
  have hframed := h.framed
  rw [Framed, hframe] at hframed
  obtain ⟨conn, chan, hsock, hcurrent⟩ := hframed
  rw [SockEngine.connected, hcurrent]
  refine ⟨_, rfl, h.keep (Int.le_refl e.counter) rfl ?_ rfl, Int.le_add_one le_rfl⟩
  intro other life hstands
  rw [view_setchan, view_leave (hquiet other) hcurrent]
  split_ifs with heq
  · rw [heq] at hstands
    have hview : (e.view id).sock = some (.conn conn true) := hsock
    have hchan : (e.view id).current = some chan := by
      rw [view, hcurrent]
      simp
    generalize e.view id = view at hstands hview hchan
    cases hstands with
    | unborn | refused | ended | listener | offered => cases hview
    | connecting | established => cases hchan
    | joining hbarred =>
      cases hview
      cases hchan
      exact .established hbarred
  · exact hstands

/-- A listening channel that is closed with the others. -/
theorem Lives.unlisten (h : e.Lives) (hcurrent : e.current = none) {sockstate : SockState}
    (hsock : e.socks.find id = some (.listener sockstate)) :
    ∃ chan, e.chans.find id = some chan ∧ (e.setchan id chan.close).Lives := by
  have hstanding {life : SockLife} (hstands : Standing (e.view id) life) : ∃ sd gone, (e.view id).chan =
      some (.server sd) ∧ life = .alive .listener false gone ∧ (e.view id).sock = some (.listener sockstate) := by
    have hview : (e.view id).sock = some (.listener sockstate) := hsock
    generalize e.view id = view at hstands hview
    cases hstands with
    | unborn | refused | ended | offered | connecting | joining | established => cases hview
    | listener => exact ⟨_, _, rfl, rfl, hview⟩
  obtain ⟨life, -, hstands⟩ := h.stands id
  obtain ⟨sd, gone, hchan, -⟩ := hstanding hstands
  refine ⟨.server sd, hchan, h.keep (Int.le_refl e.counter) rfl ?_ ?_⟩
  · intro other life hstands
    rw [view_setchan]
    split_ifs with heq
    · rw [heq] at hstands ⊢
      obtain ⟨sd, gone, hchan, hlife, hfind⟩ := hstanding hstands
      have hview := view_current hcurrent id
      have hset : ({ e.view id with chan := some (Channel.server false) } : SockView Q) =
          ⟨some (.listener sockstate), some (.server false), none, (e.view id).failing⟩ := by
        rw [← hfind, ← hview]
      rw [hlife]
      change Standing { e.view id with chan := some (Channel.server false) } _
      rw [hset]
      exact .listener fun _ => .inr rfl
    · exact hstands
  · exact h.framed.call rfl rfl fun _ conn _ hfind => ⟨conn, hfind⟩

/-- A connection for which the session is told to tear down. -/
theorem Lives.tears (h : e.Lives) (hcurrent : e.current = none) (hquiet : ∀ other, e.frame ≠ some (.error other))
    {conn : Conn Q} {accepted : Bool} (hsock : e.socks.find id = some (.conn conn accepted))
    (hrank : conn.state.rank < SockState.teardown.rank) :
    ((e.assign id (.conn { conn with state := .teardown } accepted)).tell id .teardown (.teardown id)).Lives := by
  have hlive {life : SockLife} (hstands : Standing (e.view id) life) : ∃ next, life.step .teardown = some next ∧
      Standing { e.view id with sock := some (.conn { conn with state := .teardown } accepted) } next := by
    have hview : (e.view id).sock = some (.conn conn accepted) := hsock
    have hnone := view_current hcurrent id
    have hfailing := view_failing (hquiet id)
    have hfirst {sd torn gone : Bool} (hbarred : Barred conn.state sd torn gone false) : torn = false ∧ gone = false := by
      constructor
      · cases torn with
        | false => rfl
        | true => exact absurd hrank (Nat.not_lt_of_le (hbarred.torn rfl))
      · cases gone with
        | false => rfl
        | true =>
          cases hbarred.gone rfl with
          | inl hfalse => cases hfalse
          | inr hshut => exact absurd hrank (Nat.not_lt_of_le hshut.2)
    have hbarred (sd : Bool) : Barred SockState.teardown sd true false false := ⟨fun _ => le_rfl, nofun⟩
    generalize e.view id = view at hstands hview hnone hfailing
    cases hstands with
    | unborn | refused | ended | listener => cases hview
    | offered | joining => cases hnone
    | connecting h =>
      cases hview
      cases hfailing
      obtain ⟨htorn, hgone⟩ := hfirst h
      subst htorn hgone
      exact ⟨_, rfl, .connecting (hbarred _)⟩
    | established h =>
      cases hview
      cases hfailing
      obtain ⟨htorn, hgone⟩ := hfirst h
      subst htorn hgone
      exact ⟨_, rfl, .established (hbarred _)⟩
  have hviews (other : ℤ) : ((e.assign id (.conn { conn with state := .teardown } accepted)).tell id .teardown
      (.teardown id)).view other = (e.assign id (.conn { conn with state := .teardown } accepted)).view other := by
    have hfailing := view_failing (hquiet other)
    rw [view] at hfailing
    dsimp only at hfailing
    rw [view, view, SockEngine.assign]
    dsimp only
    rw [hfailing]
    rfl
  have hcounter : e.counter ≤ ((e.assign id (.conn { conn with state := .teardown } accepted)).tell id .teardown
      (.teardown id)).counter := le_rfl
  apply h.happens hcounter (h.lt_counter hsock) rfl
  · intro other hother
    rw [hviews, view_assign, if_neg hother]
  · intro life _ hstands
    rw [hviews, view_assign, if_pos rfl]
    exact hlive hstands
  · exact hcurrent

theorem Lives.teardownFrom (h : e.Lives) (hcurrent : e.current = none) (hquiet : ∀ other, e.frame ≠ some (.error other))
    {rest : List (ℤ × Sock Q)} (hrest : ∀ entry ∈ rest, entry ∈ e.socks.entries) :
    e.Works (SockEngine.teardownFrom rest e) := by
  induction rest generalizing e with
  | nil => exact ⟨_, rfl, h.unframe hcurrent hquiet, Int.le_add_one le_rfl⟩
  | cons entry rest ih =>
    obtain ⟨id, sock⟩ := entry
    have hsock : e.socks.find id = some sock := OrderedMap.find_eq_some.mpr (hrest _ List.mem_cons_self)
    have hothers (entry : ℤ × Sock Q) (hentry : entry ∈ rest) : entry ∈ e.socks.entries :=
      hrest entry (List.mem_cons_of_mem _ hentry)
    cases sock with
    | listener sockstate =>
      obtain ⟨chan, hchan, hclosed⟩ := h.unlisten hcurrent hsock
      rw [SockEngine.teardownFrom, hchan]
      exact ih hclosed hcurrent hquiet hothers
    | conn conn accepted =>
      rw [SockEngine.teardownFrom]
      split_ifs with hrank
      · exact ⟨_, rfl, h.tears hcurrent hquiet hsock hrank, Int.le_add_one le_rfl⟩
      · exact ih h hcurrent hquiet hothers

/-! ## Runs -/

/-- A step leads from sockets that live as they should to others that do. -/
theorem Lives.step (h : e.Lives) (hcounter : e.counter < 2147483647) {action : SockAction}
    (hstep : e.step queue mask buffer action = some state) : e.Works state := by
  have hframed := h.framed
  rw [Framed] at hframed
  unfold SockEngine.step at hstep
  split at hstep
  · cases hstep
    exact ⟨_, rfl, h.draw hcounter, by rw [nextid_eq hcounter]⟩
  · cases hstep
    exact ⟨_, rfl, h.tcpconnect hcounter .., (tcpconnect_counter hcounter ..).le⟩
  · cases hstep
    exact ⟨_, rfl, h.tcplisten hcounter, (tcplisten_counter hcounter).le⟩
  · exact h.sendwith (Conn.grows_send _ _ _ _) hstep
  · exact h.sendwith (Conn.grows_sendv _ _ _ _) hstep
  · exact h.shutdown queue mask hstep
  · rename_i hframe
    have hcurrent := h.framed.idle hframe
    have hquiet (other : ℤ) : e.frame ≠ some (.error other) := by simp [hframe]
    split_ifs at hstep
    · cases hstep
      exact h.works
    · cases hstep
      have hstopping : ({ e with stopping := true } : SockEngine Q).Lives :=
        h.keep (Int.le_refl e.counter) rfl (fun _ _ hstands => hstands) h.framed
      exact hstopping.teardownFrom hcurrent hquiet fun _ hentry => hentry
  · rename_i hframe
    cases hstep
    exact h.teardownFrom (h.framed.idle hframe) (by simp [hframe]) fun _ hentry => hentry
  · rename_i hframe
    exact h.process hcounter hframe hstep
  · rename_i hframe
    cases hstep
    exact h.accepted hframe _
  · rename_i id wr hframe
    rw [hframe] at hframed
    obtain ⟨hcurrent, conn, hsock⟩ := hframed
    exact h.finish hcurrent (by simp [hframe]) hsock hstep
  · rename_i hframe
    cases hstep
    exact h.connected hframe
  · rename_i id hframe
    rw [hframe] at hframed
    cases hstep
    obtain ⟨sock, hsock⟩ := h.sock_of_error hframe
    refine ⟨_, rfl, h.clear hframed hsock ?_, ?_⟩
    · intro other hother heq
      rw [hframe] at heq
      cases heq
      exact hother rfl
    · rw [clearchan_counter]
      exact Int.le_add_one le_rfl
  · rename_i id hframe
    rw [hframe] at hframed
    cases hstep
    apply h.teardownFrom hframed (by simp [hframe])
    intro entry hentry
    exact (List.dropWhile_sublist _).subset (List.mem_of_mem_tail hentry)
  · rename_i hframe
    rw [hframe] at hframed
    cases hstep
    exact ⟨_, rfl, h.unframe hframed (by simp [hframe]), Int.le_add_one le_rfl⟩
  · cases hstep

/-- A new engine. -/
theorem lives_create : (create : SockEngine Q).Lives where
  drawn _ _ := rfl
  stands _ := ⟨.unborn, rfl, .unborn⟩
  framed := rfl

/-- A run from sockets that live as they should, in which ids do not come round. -/
theorem Lives.run {actions : List SockAction} (h : e.Lives) (hcount : e.counter + actions.length ≤ 2147483647)
    (hrun : run (next queue mask buffer) (some e) actions = some state) : ∃ last, state = some last ∧ last.Lives := by
  induction actions generalizing e with
  | nil =>
    cases hrun
    exact ⟨e, rfl, h⟩
  | cons action actions ih =>
    obtain ⟨middle, hstep, hrest⟩ := run_cons_some hrun
    rw [List.length_cons, Nat.cast_succ] at hcount
    obtain ⟨last, rfl, hlives, hless⟩ := h.step (by omega) hstep
    exact ih hlives (by omega) hrest

/-- A listener, a connection that is taken, receives and is closed at once, and the end of both. -/
def closedRun : List SockAction :=
  [.tcplisten, .process 1 (.accept ⟨0, 0⟩), .answered true,
    .process 2 (.ready true false (.ok [1, 2]) none ⟨.ok 0, none, none, none⟩ ⟨0, 0⟩),
    .received ⟨.ok 0, none, none, none⟩ ⟨0, 0⟩, .shutdown 2 true none, .process 2 .quiet, .returned, .stop,
    .process 1 .quiet, .returned]

end SockEngine

end Aug.Aspp
