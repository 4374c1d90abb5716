import Aug.Aspp.Multicast
import Aug.Net.PacketCodec
import Mathlib.Data.List.TakeWhile
import Mathlib.Tactic.Cases

/-!
# Sending to a multicast group

A packet is on the wire whole or not at all: what is less than a packet counts for nothing at the other end. Each
packet that counts as emitted has the next number, and any host reads from its datagram what has been emitted.
-/

namespace Aug.Aspp

open Aug.Lib Aug.Net Aug.Sys

/-- What `sendall_BI` sends is the whole buffer or less than it, and less than it if an attempt throws. -/
theorem sendall_length (attempts : ℕ) (buf : List UInt8) (results : List (Option ℕ)) :
    (∀ d ∈ (sendall attempts buf results).1, d = buf ∨ d.length < buf.length) ∧
      ((sendall attempts buf results).2 = none → ∀ d ∈ (sendall attempts buf results).1, d.length < buf.length) := by
  induction attempts generalizing buf results with
  | zero => exact ⟨nofun, nofun⟩
  | succ attempts ih =>
    match results with
    | [] => exact ⟨nofun, fun _ => nofun⟩
    | none :: _ => exact ⟨nofun, fun _ => nofun⟩
    | some n :: results =>
      obtain ⟨hall, hthrown⟩ := ih (buf.drop n) results
      rw [sendall]
      split_ifs with hwhole
      · have hbuf : buf.take n = buf := List.IsPrefix.eq_of_length (List.take_prefix n buf) hwhole
        rw [hbuf]
        exact ⟨fun d hd => .inl (List.mem_singleton.mp hd), nofun⟩
      · have htake : (buf.take n).length < buf.length := by
          rw [List.length_take] at hwhole ⊢
          omega
        have hdrop : (buf.drop n).length ≤ buf.length := by
          rw [List.length_drop]
          exact Nat.sub_le _ _
        constructor
        · intro d hd
          cases List.mem_cons.mp hd with
          | inl heq =>
            rw [heq]
            exact .inr htake
          | inr hmem =>
            cases hall d hmem with
            | inl heq =>
              rw [heq]
              rw [List.length_take] at htake
              by_cases hn : n = 0
              · rw [hn]
                exact .inl rfl
              · rw [List.length_drop]
                exact .inr (by omega)
            | inr hless => exact .inr (hless.trans_le hdrop)
        · intro hnone d hd
          rw [Option.map_eq_none_iff] at hnone
          cases List.mem_cons.mp hd with
          | inl heq =>
            rw [heq]
            exact htake
          | inr hmem => exact (hthrown hnone d hmem).trans_le hdrop

theorem length_buffer (f : Fields) (rest : List UInt8) : (f.buffer rest).length = packetsize + rest.length := by
  simp only [Fields.buffer, Fields.list, List.cons_append, List.nil_append, List.flatten_cons, List.flatten_nil,
    List.length_append, List.length_nil, Fields.magic_length, Fields.proto_length, Fields.node_length,
    Fields.inst_length, Fields.type_length, Fields.seqno_length, Fields.size_length, Fields.data_length]
  rw [packetsize]
  omega

/-- A datagram from which any host reads the packet. -/
def Carries (d : List UInt8) (pkt : Packet) : Prop :=
  d.length = packetsize ∧
    ∀ endian, ∃ pkt', decodepacket ⟨endian, 8, long_le_eight⟩ d = some (.ok pkt') ∧ pkt'.observe = pkt

/-- A name that fits into a packet. -/
def Name (node : List UInt8) : Prop := node.length ≤ pktnodelen ∧ ∀ b ∈ node, b ≠ 0

theorem name_cut (node : List UInt8) : Name ((node.takeWhile (· ≠ 0)).take 128) := by
  constructor
  · exact List.length_take_le _ _
  · intro b hb
    have hwhile := List.mem_takeWhile_imp (List.mem_of_mem_take hb)
    simpa using hwhile

theorem Name.cstring {node : List UInt8} (h : Name node) : cstring node = node := by
  rw [Net.cstring, List.takeWhile_eq_self_iff]
  intro b hb
  exact decide_eq_true (h.2 b hb)

/-- A reader sees all of a packet that has been set. -/
theorem observe_setpacket {node : List UInt8} (hnode : Name node) (inst type seqno : ℕ) (data : List UInt8) :
    (setpacket node inst type seqno data).observe = setpacket node inst type seqno data ∧
      (setpacket node inst type seqno data).node = node := by
  have hcut : (cstring node).take 128 = node := by
    rw [hnode.cstring]
    exact List.take_of_length_le hnode.1
  have hdata : (data.take 366).take (min data.length 366) = data.take 366 := by
    rw [List.take_take, List.take_eq_take_iff]
    omega
  rw [cstring] at hcut
  simp only [setpacket, Packet.observe, hcut, hnode.cstring, hdata, and_self]

namespace Sender

variable {s : Sender}

/-- A packet of a sender is within the widths of the wire. -/
theorem packet_fits (hnode : Name s.node) (hseqno : s.seqno + 1 < 2 ^ 64) (type : UInt16) (data : List UInt8)
    (endian : Endian) : (s.packet type data).Fits ⟨endian, 8, le_rfl⟩ := by
  have hsucc : Window.succ s.seqno = s.seqno + 1 := if_neg hseqno.ne
  have hseen := (observe_setpacket hnode s.inst.toNat type.toNat (Window.succ s.seqno) data).2
  exact
    { proto := Nat.one_lt_two_pow (by decide)
      node := by
        rw [packet, hseen, hnode.cstring]
        exact hnode.1
      inst := s.inst.toNat_lt
      type := type.toNat_lt
      seqno := by
        rw [packet, setpacket, hsucc]
        exact hseqno
      size := Nat.min_le_right _ _
      data := by
        rw [packet, setpacket, List.length_take]
        exact (min_comm _ _).le }

/-- A buffer is encoded whole, and any host reads the packet from it. -/
theorem encode_carries (hnode : Name s.node) (hseqno : s.seqno + 1 < 2 ^ 64) (type : UInt16) (data : List UInt8)
    (endian : Endian) : ∃ buf,
      encodepacket ⟨endian, 8, le_rfl⟩ (s.packet type data) (List.replicate packetsize 0) = some buf ∧
        Carries buf (s.packet type data) := by
  have hfits (endian : Endian) := packet_fits hnode hseqno type data endian
  have hdata : min (s.packet type data).size 366 ≤ (s.packet type data).data.length :=
    (Nat.min_le_left _ _).trans (hfits endian).data
  obtain ⟨f, rest, hbuf⟩ := exists_fields (List.length_replicate (n := packetsize) (a := (0 : UInt8))).ge
  rw [hbuf]
  refine ⟨_, encodepacket_buffer ⟨endian, 8, le_rfl⟩ (s.packet type data) f rest (hfits endian).node hdata, ?_, ?_⟩
  · have hlength := congrArg List.length hbuf
    rw [length_buffer, List.length_replicate] at hlength
    rw [length_buffer]
    exact hlength.symm
  · intro other
    refine ⟨_, decodepacket_buffer ⟨other, 8, le_rfl⟩ _ rest rfl, ?_⟩
    rw [(hfits other).packet_fields hdata, Packet.observe_padded (hfits other).data]
    exact (observe_setpacket hnode _ _ _ _).1

/-- What `packet::emit_BI` does: nothing complete is sent without a packet, and what is complete carries the packet
with the next number. -/
theorem emit_spec (hnode : Name s.node) (hseqno : s.seqno + 1 < 2 ^ 64) (endian : Endian) (type : UInt16)
    (data : List UInt8) (results : List (Option ℕ)) :
    ((s.emit endian type data results).packet = none ∧ (s.emit endian type data results).sender = s ∧
      ∀ d ∈ (s.emit endian type data results).datagrams, d.length < packetsize) ∨
    ((s.emit endian type data results).packet = some (s.packet type data) ∧ type.toNat ≠ pktgap ∧
      (s.emit endian type data results).sender = { s with seqno := s.seqno + 1 } ∧
      ∀ d ∈ (s.emit endian type data results).datagrams, d.length < packetsize ∨ Carries d (s.packet type data)) := by
  have hsucc : Window.succ s.seqno = s.seqno + 1 := if_neg hseqno.ne
  obtain ⟨buf, hencode, hcarries⟩ := encode_carries hnode hseqno type data endian
  obtain ⟨hall, hthrown⟩ := sendall_length 3 buf results
  rw [emit]
  split_ifs with hgap
  · exact .inl ⟨rfl, rfl, nofun⟩
  · rw [hencode]
    dsimp only
    cases hsend : sendall 3 buf results with
    | mk datagrams n =>
      rw [hsend, hcarries.1] at hall hthrown
      cases n with
      | none => exact .inl ⟨rfl, rfl, hthrown rfl⟩
      | some n =>
        dsimp only
        rw [hsucc]
        refine .inr ⟨rfl, hgap, rfl, ?_⟩
        intro d hd
        cases hall d hd with
        | inl heq =>
          rw [heq]
          exact .inr hcarries
        | inr hless => exact .inl hless

end Sender

/-- What an engine has emitted is numbered from one, and comes from its own node. -/
structure Peer.Numbered (p : Peer) : Prop where
  name : Name p.packet.node
  length : p.emitted.length = p.packet.seqno
  packets : ∀ n pkt, p.emitted[n]? = some pkt → pkt.seqno = n + 1 ∧ Aspp.key pkt = p.key ∧ pkt.type ≠ pktgap

namespace Peer

/-- What sending does to an engine and to the wire. -/
structure Sends (p : Peer) (result : Peer × List (List UInt8)) : Prop where
  numbered : result.1.Numbered
  key : result.1.key = p.key
  seqno : result.1.packet.seqno ≤ p.packet.seqno + 1
  cluster : result.1.cluster = p.cluster
  received : result.1.received = p.received
  emitted : p.emitted <+: result.1.emitted
  wire : ∀ d ∈ result.2, d.length < packetsize ∨ ∃ pkt ∈ result.1.emitted, Carries d pkt

variable {p : Peer}

/-- A packet that has been emitted is found under its number. -/
theorem Numbered.mem (h : p.Numbered) {pkt : Packet} (hpkt : pkt ∈ p.emitted) :
    Aspp.key pkt = p.key ∧ pkt.type ≠ pktgap ∧
      ∃ n, pkt.seqno = n + 1 ∧ p.emitted[n]? = some pkt ∧ n < p.packet.seqno := by
  obtain ⟨n, hn, rfl⟩ := List.getElem_of_mem hpkt
  have hget : p.emitted[n]? = some p.emitted[n] := List.getElem?_eq_getElem hn
  obtain ⟨hseqno, hkey, hgap⟩ := h.packets n _ hget
  rw [h.length] at hn
  exact ⟨hkey, hgap, n, hseqno, hget, hn⟩

theorem sends_nothing (h : p.Numbered) : p.Sends (p, []) :=
  ⟨h, rfl, Nat.le_succ _, rfl, rfl, List.prefix_rfl, nofun⟩

/-- The packets of an engine stay numbered with one more. -/
theorem Numbered.emit (h : p.Numbered) (hseqno : p.packet.seqno + 1 < 2 ^ 64) {type : UInt16}
    (hgap : type.toNat ≠ pktgap) (data : List UInt8) : Numbered { p with
      packet := { p.packet with seqno := p.packet.seqno + 1 }
      emitted := p.emitted ++ [p.packet.packet type data] } where
  name := h.name
  length := by
    rw [List.length_append, h.length]
    rfl
  packets := by
    intro n pkt hpkt
    by_cases hn : n < p.emitted.length
    · rw [List.getElem?_append_left hn] at hpkt
      exact h.packets n pkt hpkt
    · rw [List.getElem?_append_right (Nat.le_of_not_lt hn), List.getElem?_singleton] at hpkt
      split_ifs at hpkt with hzero
      obtain rfl := Option.some.inj hpkt
      have hlast : n = p.packet.seqno := by
        rw [← h.length]
        omega
      refine ⟨?_, ?_, hgap⟩
      · rw [hlast]
        exact if_neg hseqno.ne
      · rw [Aspp.key, Sender.packet, (observe_setpacket h.name _ _ _ _).2]
        rfl

theorem send_sends (h : p.Numbered) (hseqno : p.packet.seqno + 1 < 2 ^ 64) (type : UInt16) (data : List UInt8)
    (results : List (Option ℕ)) : p.Sends (p.send type data results) := by
  rw [send]
  rcases p.packet.emit_spec h.name hseqno p.endian type data results with
    ⟨hpacket, hsender, hshort⟩ | ⟨hpacket, hgap, hsender, hwire⟩
  · rw [hpacket, hsender, Option.toList_none, List.append_nil]
    exact ⟨h, rfl, Nat.le_succ _, rfl, rfl, List.prefix_rfl, fun d hd => .inl (hshort d hd)⟩
  · rw [hpacket, hsender, Option.toList_some]
    refine ⟨h.emit hseqno hgap data, rfl, le_rfl, rfl, rfl, List.prefix_append _ _, ?_⟩
    intro d hd
    exact (hwire d hd).imp_right fun hcarries => ⟨_, List.mem_append_right _ (List.mem_singleton_self _), hcarries⟩

variable (h : p.Numbered) (hseqno : p.packet.seqno + 1 < 2 ^ 64)
include h hseqno

theorem emitAny_sends (type : UInt16) (data : List UInt8) (results : List (Option ℕ)) :
    p.Sends (p.emitAny type data results) := by
  rw [emitAny]
  split_ifs
  · exact send_sends h hseqno type data results
  · exact sends_nothing h

theorem join_sends (results : List (Option ℕ)) : p.Sends (p.join results) := by
  have hjoined : Numbered { p with mcastsd := true, wrtimer := true } := ⟨h.name, h.length, h.packets⟩
  have hsends := emitAny_sends hjoined hseqno 1 [] results
  exact ⟨hsends.numbered, hsends.key, hsends.seqno, hsends.cluster, hsends.received, hsends.emitted, hsends.wire⟩

theorem emit_sends (type : UInt16) (data : List UInt8) (results : List (Option ℕ)) :
    p.Sends (p.emit type data results) := by
  rw [emit]
  split_ifs
  · exact emitAny_sends h hseqno type data results
  · exact sends_nothing h

theorem heartbeat_sends (results : List (Option ℕ)) : p.Sends (p.heartbeat results) := by
  rw [heartbeat]
  split_ifs
  · exact send_sends h hseqno 3 [] results
  · exact sends_nothing h

theorem teardown_sends (results : List (Option ℕ)) : p.Sends (p.teardown results) := by
  rw [teardown]
  split_ifs
  · have hdown : Numbered { p with state := .teardown, wrtimer := false } := ⟨h.name, h.length, h.packets⟩
    have hsends := emitAny_sends hdown hseqno 2 [] results
    exact ⟨hsends.numbered, hsends.key, hsends.seqno, hsends.cluster, hsends.received, hsends.emitted, hsends.wire⟩
  · exact sends_nothing h

end Peer

end Aug.Aspp
