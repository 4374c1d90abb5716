import Aug.Net.ClientSockets

/-!
# Who owns the socket

The descriptor that is held belongs to the connector while its connection is pending, and to the channel from its
establishment up to the hand-over. Each part of a client channel keeps that, and so does a run of it: at its end no
descriptor is held.
-/

namespace Aug.Net

open Aug.Lib Aug.Sys Dialogue ClientHistory ClientExchange

variable {A : Type} {addrs : List A} {history : List (ClientExchange A)}

/-- The rest of a sequence goes on from any reply to a call. -/
theorem ends_call (call : ClientCall A) {β : Type} {f : ClientReply call → Client A β}
    {last : β → List (ClientExchange A) → Prop} (hf : ∀ reply, Ends (f reply) (⟨call, reply⟩ :: history) last) :
    Ends (ask call >>= f) history last :=
  ends_ask_bind call hf

/-- A legal history that goes through the addresses in their order. -/
structure InTurn (addrs : List A) (history : List (ClientExchange A)) : Prop where
  legal : Legal history
  order : (tried history).reverse <+: addrs

/-- A permitted call other than that for a socket keeps the order. -/
theorem InTurn.call (h : InTurn addrs history) (call : ClientCall A) (reply : ClientReply call)
    (hpermits : Permits history call) (htries : tries ⟨call, reply⟩ = none) : InTurn addrs (⟨call, reply⟩ :: history) := by
  refine ⟨⟨hpermits, h.legal⟩, ?_⟩
  rw [tried, List.filterMap_cons_none htries]
  exact h.order

/-- So does a socket for the next address. -/
theorem InTurn.socket (h : InTurn addrs history) {ep : A} {rest : List A} (reply : ClientReply (.socket ep))
    (hheld : held history = none) (haddrs : (tried history).reverse ++ ep :: rest = addrs) :
    InTurn addrs (⟨.socket ep, reply⟩ :: history) ∧
      (tried (⟨.socket ep, reply⟩ :: history)).reverse ++ rest = addrs := by
  have htried : (tried (⟨.socket ep, reply⟩ :: history)).reverse ++ rest = addrs := by
    change (ep :: tried history).reverse ++ rest = addrs
    rw [List.reverse_cons, List.append_assoc]
    exact haddrs
  exact ⟨⟨⟨hheld, h.legal⟩, rest, htried⟩, htried⟩

/-- What the connector has come to: nothing is held, a connection is pending and the later addresses are left, or
one is established and no longer the connector's. -/
inductive Outcome (addrs : List A) (history : List (ClientExchange A)) : Tcpconnect A × Option (Tried A) → Prop
  | failed {res : List A} (hheld : held history = none) : Outcome addrs history (⟨res, none⟩, none)
  | pending {ep : A} {rest : List A} {sd : ℕ} (hheld : held history = some sd)
      (haddrs : (tried history).reverse ++ rest = addrs) :
      Outcome addrs history (⟨ep :: rest, some sd⟩, some ⟨sd, ep, false⟩)
  | established {res : List A} {ep : A} {sd : ℕ} (hheld : held history = some sd) (hconnected : Connected sd history) :
      Outcome addrs history (⟨res, none⟩, some ⟨sd, ep, true⟩)

/-- The connector has kept the order and announced nothing. -/
structure Attempts (addrs : List A) (outcome : Tcpconnect A × Option (Tried A)) (history : List (ClientExchange A)) :
    Prop where
  inTurn : InTurn addrs history
  quiet : announced history = 0
  outcome : Outcome addrs history outcome

/-- A descriptor that is held may be passed. -/
theorem passes {sd : ℕ} (hheld : held history = some sd) : ∀ other ∈ some sd, held history = some other :=
  fun _ hother => hheld.trans hother

/-- The loop over the addresses, by induction on them. -/
theorem attempts_ends {rest : List A} (h : InTurn addrs history) (hquiet : announced history = 0)
    (hheld : held history = none) (haddrs : (tried history).reverse ++ rest = addrs) :
    Ends (Tcpconnect.attempts rest) history (Attempts addrs) := by
  induction rest generalizing history with
  | nil => exact ends_pure ⟨h, hquiet, .failed hheld⟩
  | cons ep rest ih =>
    rw [Tcpconnect.attempts]
    apply ends_call (.socket ep)
    intro sd
    have ⟨hsocket, hrest⟩ := h.socket sd hheld haddrs
    cases sd with
    | none => exact ih hsocket hquiet hheld hrest
    | some sd =>
      apply ends_call (.ssetnonblock sd)
      intro nonblock
      have hset := hsocket.call (.ssetnonblock sd) nonblock (passes rfl) rfl
      cases nonblock with
      | false =>
        apply ends_call (.sclose sd)
        intro closed
        exact ends_pure ⟨hset.call (.sclose sd) closed (passes rfl) rfl, hquiet, .failed rfl⟩
      | true =>
        apply ends_call (.connect sd ep)
        intro connecting
        have hconnect := hset.call (.connect sd ep) connecting ⟨rfl, _, rfl, h.legal.attempted_sublist⟩ rfl
        cases connecting with
        | connected => exact ends_pure ⟨hconnect, hquiet, .established rfl (.inl rfl)⟩
        | pending => exact ends_pure ⟨hconnect, hquiet, .pending rfl hrest⟩
        | failed =>
          apply ends_call (.sclose sd)
          intro closed
          have hclosed := hconnect.call (.sclose sd) closed (passes rfl) rfl
          cases closed with
          | true => exact ih hclosed hquiet rfl hrest
          | false => exact ends_pure ⟨hclosed, hquiet, .failed rfl⟩

/-- The first attempt begins with the first address. -/
theorem tryconnect_first (h : InTurn addrs history) (hquiet : announced history = 0)
    (hheld : held history = none) (htried : tried history = []) :
    Ends (Tcpconnect.tryconnect ⟨addrs, none⟩) history (Attempts addrs) := by
  have haddrs : (tried history).reverse ++ addrs = addrs := by rw [htried]; rfl
  cases addrs with
  | nil => exact ends_pure ⟨h, hquiet, .failed hheld⟩
  | cons ep rest => exact attempts_ends h hquiet hheld haddrs

/-- A later one goes on from the pending connection. -/
theorem tryconnect_pending {ep : A} {rest : List A} {sd : ℕ} (h : InTurn addrs history)
    (hquiet : announced history = 0) (hheld : held history = some sd)
    (haddrs : (tried history).reverse ++ rest = addrs) :
    Ends (Tcpconnect.tryconnect ⟨ep :: rest, some sd⟩) history (Attempts addrs) := by
  rw [Tcpconnect.tryconnect]
  apply ends_call (.established sd)
  intro establishing
  have hestablished := h.call (.established sd) establishing (passes hheld) rfl
  cases establishing with
  | established => exact ends_pure ⟨hestablished, hquiet, .established hheld (.inl rfl)⟩
  | failed =>
    apply ends_call (.sclose sd)
    intro closed
    exact ends_pure ⟨hestablished.call (.sclose sd) closed (passes hheld) rfl, hquiet, .failed rfl⟩
  | none =>
    cases rest with
    | nil =>
      apply ends_call (.getsockerr sd)
      intro error
      have herror := hestablished.call (.getsockerr sd) error (passes hheld) rfl
      apply ends_call (.sclose sd)
      intro closed
      exact ends_pure ⟨herror.call (.sclose sd) closed (passes hheld) rfl, hquiet, .failed rfl⟩
    | cons next rest =>
      apply ends_call (.sclose sd)
      intro closed
      have hclosed := hestablished.call (.sclose sd) closed (passes hheld) rfl
      cases closed with
      | true => exact attempts_ends hclosed hquiet rfl haddrs
      | false => exact ends_pure ⟨hclosed, hquiet, .failed rfl⟩

/-- A connector that is destroyed closes what it holds. -/
theorem destroy_ends {conn : Tcpconnect A} (h : InTurn addrs history) (hheld : held history = conn.sd) :
    Ends conn.destroy history fun _ later => InTurn addrs later ∧ held later = none := by
  obtain ⟨res, sd⟩ := conn
  cases sd with
  | none => exact ends_pure ⟨h, hheld⟩
  | some sd =>
    apply ends_call (.sclose sd)
    intro closed
    exact ends_pure ⟨h.call (.sclose sd) closed (passes hheld) rfl, rfl⟩

/-- What a channel has come to: its connection is pending and the descriptor is the connector's, or established and
it is the channel's; the channel is closed, forwarded or freed. -/
inductive ClientPhase (addrs : List A) (history : List (ClientExchange A)) : Option (Cimpl A) → Prop
  | pending {refs sd : ℕ} {wantwr : Bool} {ep : A} {rest : List A} (hquiet : announced history = 0)
      (hheld : held history = some sd) (haddrs : (tried history).reverse ++ rest = addrs) :
      ClientPhase addrs history (some ⟨refs, some sd, wantwr, ⟨ep :: rest, some sd⟩, false, none⟩)
  | ready {refs sd : ℕ} {wantwr : Bool} {res : List A} (hquiet : announced history = 0)
      (hheld : held history = some sd) (hconnected : Connected sd history) :
      ClientPhase addrs history (some ⟨refs, some sd, wantwr, ⟨res, none⟩, true, none⟩)
  | closed {refs : ℕ} {wantwr : Bool} {conn : Tcpconnect A} (hquiet : announced history = 0)
      (hheld : held history = conn.sd) : ClientPhase addrs history (some ⟨refs, none, wantwr, conn, false, none⟩)
  | forwarded {refs chan : ℕ} {wantwr : Bool} {res : List A} (hheld : held history = none) :
      ClientPhase addrs history (some ⟨refs, none, wantwr, ⟨res, none⟩, false, some chan⟩)
  | freed (hheld : held history = none) : ClientPhase addrs history none

/-- A channel in one of its phases, after a history in order. -/
structure Owned (addrs : List A) (impl : Option (Cimpl A)) (history : List (ClientExchange A)) : Prop where
  inTurn : InTurn addrs history
  phase : ClientPhase addrs history impl

/-- Without a channel the connector is destroyed. -/
theorem fail1_ends {conn : Tcpconnect A} (h : InTurn addrs history) (hheld : held history = conn.sd) :
    Ends (Cimpl.fail1 conn) history (Owned addrs) := by
  apply (destroy_ends h hheld).bind
  intro _ later hlater
  exact ends_pure ⟨hlater.1, .freed hlater.2⟩

/-- A pending connection is left to the connector. -/
theorem fail2_pending {res : List A} {sd : ℕ} (h : InTurn addrs history) (hheld : held history = some sd) :
    Ends (Cimpl.fail2 ⟨res, some sd⟩ sd false) history (Owned addrs) :=
  fail1_ends h hheld

/-- An established one is closed. -/
theorem fail2_established {res : List A} {sd : ℕ} (h : InTurn addrs history) (hheld : held history = some sd) :
    Ends (Cimpl.fail2 ⟨res, none⟩ sd true) history (Owned addrs) := by
  apply ends_call (.sclose sd)
  intro closed
  exact fail1_ends (h.call (.sclose sd) closed (passes hheld) rfl) rfl

/-- A new channel is pending or ready, and nothing is held if there is none. -/
theorem createclient_ends : Ends (Cimpl.createclient addrs) [] (Owned addrs) := by
  apply ends_call .allocmem
  intro allocated
  have hallocated : InTurn addrs (⟨.allocmem, allocated⟩ :: []) := ⟨⟨nofun, trivial⟩, List.nil_prefix⟩
  cases allocated with
  | false => exact ends_pure ⟨hallocated, .freed rfl⟩
  | true =>
    apply (tryconnect_first hallocated rfl rfl rfl).bind
    intro outcome later h
    obtain ⟨conn, tried⟩ := outcome
    cases h.outcome with
    | failed hheld => exact fail1_ends h.inTurn hheld
    | @pending ep rest sd hheld haddrs =>
      apply ends_call (.endpointntop ep)
      intro named
      have hnamed := h.inTurn.call (.endpointntop ep) named nofun rfl
      cases named with
      | false => exact fail2_pending hnamed hheld
      | true =>
        apply ends_call (.setmdeventmask (some sd) mdeventconn)
        intro masked
        have hmasked := hnamed.call (.setmdeventmask (some sd) mdeventconn) masked nofun rfl
        cases masked with
        | false => exact fail2_pending hmasked hheld
        | true =>
          apply ends_call .allocmem
          intro allocated
          have hallocated := hmasked.call .allocmem allocated nofun rfl
          cases allocated with
          | true => exact ends_pure ⟨hallocated, .pending h.quiet hheld haddrs⟩
          | false =>
            apply ends_call (.setmdeventmask (some sd) 0)
            intro cleared
            exact fail2_pending (hallocated.call (.setmdeventmask (some sd) 0) cleared nofun rfl) hheld
    | @established res ep sd hheld hconnected =>
      apply ends_call (.endpointntop ep)
      intro named
      have hnamed := h.inTurn.call (.endpointntop ep) named nofun rfl
      cases named with
      | false => exact fail2_established hnamed hheld
      | true =>
        apply ends_call .allocmem
        intro allocated
        have hallocated := hnamed.call .allocmem allocated nofun rfl
        cases allocated with
        | true => exact ends_pure ⟨hallocated, .ready h.quiet hheld hconnected⟩
        | false => exact fail2_established hallocated hheld

/-- A channel without the descriptor only clears the mask. -/
theorem cclose_unready {impl : Cimpl A} (hest : impl.est = false) :
    Ends impl.cclose history fun _ later => ∃ masked, later = ⟨.setmdeventmask impl.sd 0, masked⟩ :: history := by
  apply ends_call (.setmdeventmask impl.sd 0)
  intro masked
  rw [hest]
  exact ends_pure ⟨masked, rfl⟩

/-- One with the descriptor closes it. -/
theorem cclose_ready {refs sd : ℕ} {wantwr : Bool} {conn : Tcpconnect A} (h : InTurn addrs history)
    (hheld : held history = some sd) : Ends (Cimpl.cclose ⟨refs, some sd, wantwr, conn, true, none⟩) history
      fun _ later => InTurn addrs later ∧ held later = none ∧ announced later = announced history := by
  apply ends_call (.setmdeventmask (some sd) 0)
  intro masked
  apply ends_call (.sclose sd)
  intro closed
  have hmasked := h.call (.setmdeventmask (some sd) 0) masked nofun rfl
  exact ends_pure ⟨hmasked.call (.sclose sd) closed (passes hheld) rfl, rfl, rfl⟩

/-- A channel that is closed passes that on, or keeps no descriptor. -/
theorem close_ends {impl : Cimpl A} (h : Owned addrs (some impl) history) :
    Ends impl.close history fun impl => Owned addrs (some impl) := by
  obtain ⟨hinTurn, hphase⟩ := h
  cases hphase with
  | pending hquiet hheld haddrs =>
    apply (cclose_unready rfl).bind
    rintro _ _ ⟨masked, rfl⟩
    exact ends_pure ⟨hinTurn.call _ masked nofun rfl, .closed hquiet hheld⟩
  | ready hquiet hheld hconnected =>
    apply (cclose_ready hinTurn hheld).bind
    intro _ later hlater
    exact ends_pure ⟨hlater.1, .closed (hlater.2.2.trans hquiet) hlater.2.1⟩
  | closed hquiet hheld =>
    apply (cclose_unready rfl).bind
    rintro _ _ ⟨masked, rfl⟩
    exact ends_pure ⟨hinTurn.call _ masked nofun rfl, .closed hquiet hheld⟩
  | @forwarded refs chan wantwr res hheld =>
    apply ends_call (.forward chan .close)
    intro result
    exact ends_pure ⟨hinTurn.call _ result nofun rfl, .forwarded hheld⟩

/-- So does one whose handler is told of an error. -/
theorem errorchan_ends {impl : Cimpl A} (h : ∀ closes, Owned addrs (some impl) (⟨.errorchan, closes⟩ :: history)) :
    Ends impl.errorchan history fun impl => Owned addrs (some impl) := by
  apply ends_call .errorchan
  intro closes
  cases closes with
  | true => exact close_ends (h true)
  | false => exact ends_pure (h false)

/-- A channel without a descriptor stays as it is meanwhile. -/
theorem errorchan_bare {refs : ℕ} {wantwr : Bool} {conn : Tcpconnect A} (h : InTurn addrs history) :
    Ends (Cimpl.errorchan ⟨refs, none, wantwr, conn, false, none⟩) history fun impl later =>
      impl = ⟨refs, none, wantwr, conn, false, none⟩ ∧ InTurn addrs later ∧ held later = held history ∧
        announced later = announced history := by
  apply ends_call .errorchan
  intro closes
  have herror := h.call .errorchan closes nofun rfl
  cases closes with
  | false => exact ends_pure ⟨rfl, herror, rfl, rfl⟩
  | true =>
    apply (cclose_unready rfl).bind
    rintro _ _ ⟨masked, rfl⟩
    exact ends_pure ⟨rfl, herror.call (.setmdeventmask none 0) masked nofun rfl, rfl, rfl⟩

/-- A descriptor that is established is handed over, or closed behind the handler. -/
theorem estabclient_ends {refs sd : ℕ} {wantwr est : Bool} {res : List A} {own : Option ℕ} (h : InTurn addrs history)
    (hquiet : announced history = 0) (hheld : held history = some sd) (hconnected : Connected sd history) :
    Ends (Cimpl.estabclient ⟨refs, own, wantwr, ⟨res, none⟩, est, none⟩ sd) history
      fun result => Owned addrs (some result.1) := by
  apply ends_call (.createplain sd wantwr)
  intro created
  have hcreated := h.call (.createplain sd wantwr) created (passes hheld) rfl
  cases created with
  | true =>
    apply ends_call (.estabchan sd)
    intro accepted
    exact ends_pure ⟨hcreated.call (.estabchan sd) accepted ⟨hconnected, hquiet⟩ rfl, .forwarded rfl⟩
  | false =>
    apply (errorchan_bare hcreated).bind
    rintro _ later ⟨rfl, herror, hsame, hsilent⟩
    have hlater : held later = some sd := hsame.trans hheld
    apply ends_call (.sclose sd)
    intro closed
    exact ends_pure ⟨herror.call (.sclose sd) closed (passes hlater) rfl, .closed (hsilent.trans hquiet) rfl⟩

/-- A pending connection that is ready. -/
theorem connected_ends {refs sd : ℕ} {wantwr : Bool} {ep : A} {rest : List A} (h : InTurn addrs history)
    (hquiet : announced history = 0) (hheld : held history = some sd)
    (haddrs : (tried history).reverse ++ rest = addrs) :
    Ends (Cimpl.connected ⟨refs, some sd, wantwr, ⟨ep :: rest, some sd⟩, false, none⟩ sd) history
      fun result => Owned addrs (some result.1) := by
  apply ends_call (.setmdeventmask (some sd) 0)
  intro masked
  have hmasked := h.call (.setmdeventmask (some sd) 0) masked nofun rfl
  cases masked with
  | false =>
    apply (errorchan_ends fun closes => ⟨hmasked.call .errorchan closes nofun rfl, .pending hquiet hheld haddrs⟩).bind
    intro impl later hlater
    exact ends_pure hlater
  | true =>
    apply (tryconnect_pending hmasked hquiet hheld haddrs).bind
    intro outcome later h
    obtain ⟨conn, tried⟩ := outcome
    cases h.outcome with
    | @failed res hnone =>
      have hclosed : ∀ closes, Owned addrs (some ⟨refs, none, wantwr, ⟨res, none⟩, false, none⟩)
          (⟨.errorchan, closes⟩ :: later) :=
        fun closes => ⟨h.inTurn.call .errorchan closes nofun rfl, .closed h.quiet hnone⟩
      apply (errorchan_ends hclosed).bind
      intro impl later hlater
      exact ends_pure hlater
    | @pending ep rest sd hheld haddrs =>
      apply ends_call (.endpointntop ep)
      intro named
      apply ends_call (.setmdeventmask (some sd) mdeventconn)
      intro masked
      have hnamed := h.inTurn.call (.endpointntop ep) named nofun rfl
      exact ends_pure ⟨hnamed.call (.setmdeventmask (some sd) mdeventconn) masked nofun rfl,
        .pending h.quiet hheld haddrs⟩
    | @established res ep sd hheld hconnected =>
      apply ends_call (.endpointntop ep)
      intro named
      exact estabclient_ends (h.inTurn.call (.endpointntop ep) named nofun rfl) h.quiet hheld hconnected

/-- A pending error leaves the channel as its handler does, and else it is unchanged. -/
theorem error_ends {refs sd : ℕ} {wantwr : Bool} {ep : A} {rest : List A} (events : UInt16) (h : InTurn addrs history)
    (hquiet : announced history = 0) (hheld : held history = some sd)
    (haddrs : (tried history).reverse ++ rest = addrs) :
    Ends (Cimpl.error ⟨refs, some sd, wantwr, ⟨ep :: rest, some sd⟩, false, none⟩ sd events) history
      fun result later => Owned addrs (some result.1) later ∧
        (result.2 = false → result.1 = ⟨refs, some sd, wantwr, ⟨ep :: rest, some sd⟩, false, none⟩ ∧
          announced later = 0 ∧ held later = some sd ∧ (tried later).reverse ++ rest = addrs) := by
  rw [Cimpl.error]
  split
  · exact ends_pure ⟨⟨h, .pending hquiet hheld haddrs⟩, fun _ => ⟨rfl, hquiet, hheld, haddrs⟩⟩
  · apply ends_call (.getsockerr sd)
    intro error
    have hasked := h.call (.getsockerr sd) error (passes hheld) rfl
    cases error with
    | false => exact ends_pure ⟨⟨hasked, .pending hquiet hheld haddrs⟩, fun _ => ⟨rfl, hquiet, hheld, haddrs⟩⟩
    | true =>
      apply (errorchan_ends fun closes => ⟨hasked.call .errorchan closes nofun rfl, .pending hquiet hheld haddrs⟩).bind
      intro impl later hlater
      exact ends_pure ⟨hlater, nofun⟩

/-- A channel is processed. -/
theorem process_ends {impl : Cimpl A} (h : Owned addrs (some impl) history) :
    Ends impl.process history fun result => Owned addrs (some result.1) := by
  obtain ⟨hinTurn, hphase⟩ := h
  cases hphase with
  | @pending refs sd wantwr ep rest hquiet hheld haddrs =>
    apply ends_call (.getmdevents sd)
    intro (events : UInt16)
    have hevents := hinTurn.call (.getmdevents sd) events nofun rfl
    apply (error_ends events hevents hquiet hheld haddrs).bind
    rintro ⟨impl, error⟩ later ⟨hlater, hsame⟩
    cases error with
    | true => exact ends_pure hlater
    | false =>
      obtain ⟨rfl, hquiet, hheld, haddrs⟩ := hsame rfl
      by_cases hready : events &&& mdeventconn = 0
      · dsimp only
        rw [if_neg (by decide), if_pos hready]
        exact ends_pure ⟨hlater.inTurn, .pending hquiet hheld haddrs⟩
      · dsimp only
        rw [if_neg (by decide), if_neg hready]
        exact connected_ends hlater.inTurn hquiet hheld haddrs
  | ready hquiet hheld hconnected => exact estabclient_ends hinTurn hquiet hheld hconnected
  | closed hquiet hheld => exact ends_pure ⟨hinTurn, .closed hquiet hheld⟩
  | @forwarded refs chan wantwr res hheld =>
    apply ends_call (.forward chan .process)
    intro returned
    exact ends_pure ⟨hinTurn.call _ returned nofun rfl, .forwarded hheld⟩

/-- The number of references does not matter to a phase. -/
theorem ClientPhase.refs {impl : Cimpl A} (h : ClientPhase addrs history (some impl)) (refs : ℕ) :
    ClientPhase addrs history (some { impl with refs }) := by
  cases h with
  | pending hquiet hheld haddrs => exact .pending hquiet hheld haddrs
  | ready hquiet hheld hconnected => exact .ready hquiet hheld hconnected
  | closed hquiet hheld => exact .closed hquiet hheld
  | forwarded hheld => exact .forwarded hheld

/-- The last reference disposes of what is held: a pending descriptor is closed before its mask is cleared. -/
theorem release_ends {impl : Cimpl A} (h : Owned addrs (some impl) history) :
    Ends impl.release history (Owned addrs) := by
  rw [Cimpl.release]
  split
  · obtain ⟨hinTurn, hphase⟩ := h
    cases hphase with
    | pending hquiet hheld haddrs =>
      apply (destroy_ends hinTurn hheld).bind
      intro _ later hlater
      apply (cclose_unready rfl).bind
      rintro _ _ ⟨masked, rfl⟩
      exact ends_pure ⟨hlater.1.call _ masked nofun rfl, .freed hlater.2⟩
    | ready hquiet hheld hconnected =>
      apply ends_pure_bind
      apply (cclose_ready hinTurn hheld).bind
      intro _ later hlater
      exact ends_pure ⟨hlater.1, .freed hlater.2.1⟩
    | closed hquiet hheld =>
      apply (destroy_ends hinTurn hheld).bind
      intro _ later hlater
      apply ends_pure_bind
      exact ends_pure ⟨hlater.1, .freed hlater.2⟩
    | @forwarded refs chan wantwr res hheld =>
      apply ends_pure_bind
      apply ends_pure_bind
      apply ends_call (.forward chan .release)
      intro released
      exact ends_pure ⟨hinTurn.call _ released nofun rfl, .freed hheld⟩
  · exact ends_pure ⟨h.inTurn, h.phase.refs _⟩

/-- Nor does its interest in writing. -/
theorem setwantwr_ends {impl : Cimpl A} (h : Owned addrs (some impl) history) (wantwr : Bool) :
    Ends (impl.setwantwr wantwr) history fun impl => Owned addrs (some impl) := by
  obtain ⟨hinTurn, hphase⟩ := h
  cases hphase with
  | pending hquiet hheld haddrs => exact ends_pure ⟨hinTurn, .pending hquiet hheld haddrs⟩
  | ready hquiet hheld hconnected => exact ends_pure ⟨hinTurn, .ready hquiet hheld hconnected⟩
  | closed hquiet hheld => exact ends_pure ⟨hinTurn, .closed hquiet hheld⟩
  | @forwarded refs chan _ res hheld =>
    apply ends_call (.forward chan (.setwantwr wantwr))
    intro result
    exact ends_pure ⟨hinTurn.call _ result nofun rfl, .forwarded hheld⟩

/-- One call. -/
theorem perform_ends {impl : Cimpl A} (h : Owned addrs (some impl) history) (action : ClientAction) :
    Ends (impl.perform action) history (Owned addrs) := by
  cases action with
  | process =>
    apply (process_ends h).bind
    intro result later hlater
    exact ends_pure hlater
  | close =>
    apply (close_ends h).bind
    intro impl later hlater
    exact ends_pure hlater
  | setwantwr wantwr =>
    apply (setwantwr_ends h wantwr).bind
    intro impl later hlater
    exact ends_pure hlater
  | retain => exact ends_pure ⟨h.inTurn, h.phase.refs _⟩
  | release => exact release_ends h

/-- A run, by induction on its calls. -/
theorem performs_ends {impl : Option (Cimpl A)} (h : Owned addrs impl history) (actions : List ClientAction) :
    Ends (Cimpl.performs impl actions) history (Owned addrs) := by
  induction actions generalizing impl history with
  | nil =>
    cases impl with
    | none => exact ends_pure h
    | some impl => exact ends_pure h
  | cons action actions ih =>
    cases impl with
    | none => exact ends_pure h
    | some impl =>
      apply (perform_ends h action).bind
      intro next later hlater
      exact ih hlater

/-- What a history says of the sockets: a descriptor is passed on, closed or handed over only while it has been
obtained once more than it has been disposed of, and obtained only when it has been disposed of as often; addresses
are tried in their order; a new channel is announced at most once, and its descriptor is connected. -/
structure SocketsOwned (addrs : List A) (history : List (ClientExchange A)) : Prop where
  passed : ∀ later exchange earlier sd, history = later ++ exchange :: earlier → exchange.1.passed = some sd →
    obtained sd earlier = disposed sd earlier + 1
  obtained : ∀ later exchange earlier sd, history = later ++ exchange :: earlier → obtains sd exchange = true →
    obtained sd earlier = disposed sd earlier
  tried : (tried history).reverse <+: addrs
  attempted : (attempted history).Sublist (ClientHistory.tried history)
  once : announced history ≤ 1
  announced : ∀ later sd accepted earlier, history = later ++ ⟨.estabchan sd, accepted⟩ :: earlier → Connected sd earlier

/-- So it is where the order is kept. -/
theorem InTurn.owned (h : InTurn addrs history) : SocketsOwned addrs history where
  passed := by
    intro later exchange earlier sd hhistory hpassed
    have ⟨hpermits, hlegal⟩ := (hhistory ▸ h.legal).split
    rw [hlegal.balance sd, if_pos (hpermits.held hpassed)]
  obtained := by
    intro later exchange earlier sd hhistory hobtains
    have ⟨hpermits, hlegal⟩ := (hhistory ▸ h.legal).split
    obtain ⟨call, reply⟩ := exchange
    cases call with
    | socket ep =>
      have hnone : held earlier = none := hpermits
      rw [hlegal.balance sd, hnone]
      rfl
    | _ => cases hobtains
  tried := h.order
  attempted := h.legal.attempted_sublist
  once := h.legal.announced_le
  announced := by
    intro later sd accepted earlier hhistory
    exact (hhistory ▸ h.legal).split.1.1

/-- In every run of a client channel the sockets are owned exactly, and each has been closed or handed over when the
channel is freed or could not be created. -/
theorem client_owns_sockets (env : Environment (ClientReply (A := A))) (addrs : List A) (actions : List ClientAction) :
    SocketsOwned addrs (Cimpl.client addrs actions env []).2 ∧
      ((Cimpl.client addrs actions env []).1 = none →
        ∀ sd, obtained sd (Cimpl.client addrs actions env []).2 = disposed sd (Cimpl.client addrs actions env []).2) := by
  have hends : Ends (Cimpl.client addrs actions) [] (Owned addrs) := by
    apply createclient_ends.bind
    intro impl later hlater
    exact performs_ends hlater actions
  have hrun := hends.holds env
  apply And.intro hrun.inTurn.owned
  intro hfreed sd
  have hphase := hrun.phase
  rw [hfreed] at hphase
  cases hphase with
  | freed hheld =>
    rw [hrun.inTurn.legal.balance sd, hheld]
    rfl

/-- The first address refuses, the second one is pending and then established, and a new channel is not made. -/
def refusing : Environment (ClientReply (A := ℕ)) := fun _ call =>
  match call with
  | .socket _ => some 7
  | .connect _ ep => if ep = 1 then .failed else .pending
  | .established _ => .established
  | .getmdevents _ => mdeventwr
  | .createplain _ _ => false
  | .allocmem | .ssetnonblock _ | .getsockerr _ | .sclose _ | .endpointntop _ | .setmdeventmask _ _ | .errorchan
  | .estabchan _ | .forward _ _ => true

/-- Its descriptor is obtained twice and closed twice. -/
theorem client_owns_sockets_refused :
    obtained 7 (Cimpl.client [1, 2] [.process, .release] refusing []).2 = 2 ∧
      ∀ sd, obtained sd (Cimpl.client [1, 2] [.process, .release] refusing []).2 =
        disposed sd (Cimpl.client [1, 2] [.process, .release] refusing []).2 :=
  ⟨by decide +kernel, (client_owns_sockets refusing [1, 2] [.process, .release]).2 (by decide +kernel)⟩

end Aug.Net
