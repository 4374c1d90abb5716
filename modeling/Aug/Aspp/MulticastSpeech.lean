import Aug.Aspp.Multicast
import Aug.Lib.Transition

/-!
# What the engines of a multicast group say

An engine begins with an up packet and sends heartbeats until its teardown, which it announces with a down packet;
behind it only its sessions send. Any packet may be missing where sending fails.
-/

namespace Aug.Aspp

open Aug.Lib Aug.Net Aug.Sys

namespace Group

variable {ι : Type} [DecidableEq ι]

/-- The types of what an engine emits before its teardown: up, and then what its sessions send and heartbeats. -/
def Speech (types : List ℕ) : Prop :=
  ∃ up body, types = up ++ body ∧ (up = [] ∨ up = [pktup]) ∧ ∀ type ∈ body, pktuser ≤ type ∨ type = pkthbeat

/-- The types of what an engine emits: after its teardown down, and then what its sessions send. -/
def Farewell (types : List ℕ) : Prop :=
  ∃ before down after, types = before ++ down ++ after ∧ Speech before ∧ (down = [] ∨ down = [pktdown]) ∧
    ∀ type ∈ after, pktuser ≤ type

/-- What an engine has said, and that it is quiet but for its sessions behind its teardown. -/
structure Polite (p : Peer) : Prop where
  silent : p.mcastsd = false → p.emitted = []
  speech : p.state = .started → Speech (p.emitted.map Packet.type)
  farewell : Farewell (p.emitted.map Packet.type)
  quiet : p.state ≠ .started → p.wrtimer = false

theorem Speech.farewell {types : List ℕ} (h : Speech types) : Farewell types :=
  ⟨types, [], [], by simp, h, .inl rfl, nofun⟩

theorem Speech.say {types : List ℕ} (h : Speech types) {type : ℕ} (htype : pktuser ≤ type ∨ type = pkthbeat) :
    Speech (types ++ [type]) := by
  obtain ⟨up, body, rfl, hup, hbody⟩ := h
  refine ⟨up, body ++ [type], List.append_assoc _ _ _, hup, ?_⟩
  intro other hother
  cases List.mem_append.mp hother with
  | inl hmem => exact hbody other hmem
  | inr hmem =>
    rw [List.mem_singleton.mp hmem]
    exact htype

theorem Farewell.say {types : List ℕ} (h : Farewell types) {type : ℕ} (htype : pktuser ≤ type) :
    Farewell (types ++ [type]) := by
  obtain ⟨before, down, after, rfl, hbefore, hdown, hafter⟩ := h
  refine ⟨before, down, after ++ [type], List.append_assoc _ _ _, hbefore, hdown, ?_⟩
  intro other hother
  cases List.mem_append.mp hother with
  | inl hmem => exact hafter other hmem
  | inr hmem =>
    rw [List.mem_singleton.mp hmem]
    exact htype

/-- Sending adds one type or none. -/
theorem send_types (p : Peer) (type : UInt16) (data : List UInt8) (results : List (Option ℕ)) :
    (p.send type data results).1.emitted.map Packet.type = p.emitted.map Packet.type ∨
      (p.send type data results).1.emitted.map Packet.type = p.emitted.map Packet.type ++ [type.toNat] := by
  have hpacket : (p.packet.emit p.endian type data results).packet = none ∨
      (p.packet.emit p.endian type data results).packet = some (p.packet.packet type data) := by
    rw [Sender.emit]
    split_ifs
    · exact .inl rfl
    · cases encodepacket ⟨p.endian, 8, le_rfl⟩ (p.packet.packet type data) (List.replicate packetsize 0) with
      | none => exact .inl rfl
      | some buf =>
        dsimp only
        cases sendall 3 buf results with
        | mk datagrams n =>
          cases n with
          | none => exact .inl rfl
          | some n => exact .inr rfl
  rw [Peer.send]
  dsimp only
  rcases hpacket with hnone | hsome
  · rw [hnone, Option.toList_none, List.append_nil]
    exact .inl rfl
  · rw [hsome, Option.toList_some, List.map_append]
    exact .inr rfl

variable {p : Peer} {type : UInt16} {data : List UInt8} {results : List (Option ℕ)}

/-- An engine says what is in place. -/
theorem Polite.send (h : Polite p) (hjoined : p.mcastsd = true)
    (hspeech : p.state = .started → Speech (p.emitted.map Packet.type ++ [type.toNat]))
    (hfarewell : Farewell (p.emitted.map Packet.type ++ [type.toNat])) : Polite (p.send type data results).1 := by
  have hstay : (p.send type data results).1.mcastsd = p.mcastsd := rfl
  refine ⟨?_, ?_, ?_, h.quiet⟩
  · rw [hstay, hjoined]
    nofun
  · intro hstate
    cases send_types p type data results with
    | inl hsame =>
      rw [hsame]
      exact h.speech hstate
    | inr hmore =>
      rw [hmore]
      exact hspeech hstate
  · cases send_types p type data results with
    | inl hsame =>
      rw [hsame]
      exact h.farewell
    | inr hmore =>
      rw [hmore]
      exact hfarewell

/-- One step of an engine. -/
theorem Polite.emit (h : Polite p) : Polite (p.emit type data results).1 := by
  rw [Peer.emit]
  split_ifs with htype
  · rw [Peer.emitAny]
    split_ifs with hjoined
    · exact h.send hjoined (fun hstate => (h.speech hstate).say (.inl htype)) (h.farewell.say htype)
    · exact h
  · exact h

theorem Polite.join (h : Polite p) (hstate : p.state = .started) (hjoined : p.mcastsd = false) :
    Polite (p.join results).1 := by
  have hempty := h.silent hjoined
  have hup : Speech ([] ++ [(1 : UInt16).toNat]) := ⟨[1], [], rfl, .inr rfl, nofun⟩
  have hready : Polite { p with mcastsd := true, wrtimer := true } :=
    ⟨nofun, h.speech, h.farewell, fun hnot => absurd hstate hnot⟩
  rw [Peer.join, Peer.emitAny, if_pos rfl]
  apply hready.send rfl
  · intro _
    dsimp only
    rw [hempty]
    exact hup
  · dsimp only
    rw [hempty]
    exact hup.farewell

theorem Polite.heartbeat (h : Polite p) (hpending : p.wrtimer = true) : Polite (p.heartbeat results).1 := by
  have hstate : p.state = .started := by
    by_contra hnot
    rw [h.quiet hnot] at hpending
    cases hpending
  have hbeat := (h.speech hstate).say (.inr rfl)
  rw [Peer.heartbeat]
  split_ifs with hjoined
  · exact h.send hjoined (fun _ => hbeat) hbeat.farewell
  · exact h

theorem Polite.teardown (h : Polite p) : Polite (p.teardown results).1 := by
  rw [Peer.teardown]
  split_ifs with hstate
  · have hready : Polite { p with state := .teardown, wrtimer := false } :=
      ⟨h.silent, nofun, h.farewell, fun _ => rfl⟩
    rw [Peer.emitAny]
    split_ifs with hjoined
    · apply hready.send hjoined nofun
      exact ⟨_, [2], [], (List.append_nil _).symm, h.speech hstate, .inr rfl, nofun⟩
    · exact hready
  · exact h

theorem Polite.mrecv (h : Polite p) {d : List UInt8} {now : Timeval} {ring : ℕ → Message} :
    Polite (p.mrecv d now ring) := by
  rw [Peer.mrecv]
  split_ifs
  · split
    · exact ⟨h.silent, h.speech, h.farewell, h.quiet⟩
    · exact h
  · exact h

variable {g next : Group ι} {action : GroupAction ι}

/-- One step of a group. -/
theorem polite_step (h : ∀ i, Polite (g.peers i)) (hstep : g.step action = some next) : ∀ i, Polite (next.peers i) := by
  have hact {i : ι} {f : Peer → Peer × List (List UInt8)} (hi : Polite (f (g.peers i)).1)
      (hnext : some (g.act i f) = some next) (j : ι) : Polite (next.peers j) := by
    rw [← Option.some.inj hnext]
    by_cases hj : j = i
    · rw [hj, act_self]
      exact hi
    · rw [act_other g f hj]
      exact h j
  cases action with
  | join i results =>
    rw [Group.step] at hstep
    split_ifs at hstep with henabled
    exact hact ((h i).join henabled.1 henabled.2) hstep
  | emit i type data results => exact hact (h i).emit hstep
  | heartbeat i results =>
    rw [Group.step] at hstep
    split_ifs at hstep with henabled
    exact hact ((h i).heartbeat henabled) hstep
  | teardown i results => exact hact (h i).teardown hstep
  | stop i =>
    rw [Group.step] at hstep
    split_ifs at hstep with henabled
    have hi := h i
    have hquiet : (g.peers i).wrtimer = false := hi.quiet (by rw [henabled]; nofun)
    have hstopped : Polite { g.peers i with state := .stopped } := ⟨hi.silent, nofun, hi.farewell, fun _ => hquiet⟩
    exact hact hstopped hstep
  | mrecv i d now ring =>
    rw [Group.step] at hstep
    split_ifs at hstep
    exact hact (h i).mrecv hstep
  | mflush i now =>
    rw [Group.step] at hstep
    split_ifs at hstep
    have hi := h i
    exact hact ⟨hi.silent, hi.speech, hi.farewell, hi.quiet⟩ hstep

/-- Over any run an engine says up at most once and before all else, and down at most once; behind its teardown there
are no heartbeats, only what its sessions send. -/
theorem group_speaks (engines : ι → Endian × List UInt8 × UInt32) (hbint : ℕ) (actions : List (GroupAction ι))
    {last : Group ι} (hrun : run Group.step (create engines hbint) actions = some last) (i : ι) :
    Farewell ((last.peers i).emitted.map Packet.type) ∧
      ((last.peers i).state = .started → Speech ((last.peers i).emitted.map Packet.type)) := by
  have hstart : Speech [] := ⟨[], [], rfl, .inl rfl, nofun⟩
  have hcreate : ∀ i, Polite ((create engines hbint).peers i) :=
    fun i => ⟨fun _ => rfl, fun _ => hstart, hstart.farewell, fun _ => rfl⟩
  have hlast : ∀ i, Polite (last.peers i) := by
    apply run_invariant _ hcreate hrun
    exact fun g action next h hstep => polite_step h hstep
  exact ⟨(hlast i).farewell, (hlast i).speech⟩

/-- An engine speaks, and falls silent with its teardown, when its first attempt to send is cut short. -/
def parting : List (GroupAction Unit) :=
  [.join () [some 516], .emit () 4 [104, 105] [some 500, some 16], .heartbeat () [some 516], .teardown () [some 516],
    .emit () 5 [] [some 516], .stop ()]

theorem parting_types : (run Group.step (create (fun _ => (.little, [97], 1)) 2000) parting).map (fun last =>
    (last.peers ()).emitted.map Packet.type) = some [pktup, pktuser, pkthbeat, pktdown, 5] := by
  decide +kernel

theorem group_speaks_parting : ∃ last, run Group.step (create (fun _ => (.little, [97], 1)) 2000) parting = some last ∧
    (last.peers ()).emitted.map Packet.type = [pktup, pktuser, pkthbeat, pktdown, 5] ∧
    Farewell ((last.peers ()).emitted.map Packet.type) := by
  have hspeaks (last : Group Unit) (hrun : run Group.step (create (fun _ => (.little, [97], 1)) 2000) parting = some last) :=
    (group_speaks (fun _ => (.little, [97], 1)) 2000 parting hrun ()).1
  have htypes := parting_types
  generalize run Group.step (create (fun _ => (.little, [97], 1)) 2000) parting = result at htypes hspeaks
  cases result with
  | none => cases htypes
  | some last => exact ⟨last, rfl, Option.some.inj htypes, hspeaks last rfl⟩

end Group

end Aug.Aspp
