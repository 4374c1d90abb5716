import Aug.Aspp.ClusterOrder
import Aug.Net.PacketCodec

/-!
# Multicast groups

The engines of `engine.cpp` that have joined one multicast address. Each numbers the packets that it emits, and
what it has sent may reach any engine, itself included, at any time, many times or never. An engine puts what it
receives into its cluster and hands the packets of the cluster to its sessions.
-/

namespace Aug.Aspp

open Aug.Lib Aug.Net Aug.Sys OrderedMap

/-- The class `packet`. -/
structure Sender where
  node : List UInt8
  inst : UInt32
  seqno : ℕ

/-- `sendall_BI` with the attempts that are left, and what each `sendto` results in: it throws, or takes some bytes
as a datagram. The datagrams, and the number of bytes unless an attempt throws. -/
def sendall : ℕ → List UInt8 → List (Option ℕ) → List (List UInt8) × Option ℕ
  | 0, _, _ => ([], some 0)
  | _ + 1, _, [] => ([], none)
  | _ + 1, _, none :: _ => ([], none)
  | attempts + 1, buf, some n :: results =>
    if (buf.take n).length = buf.length then ([buf.take n], some n)
    else
      let (datagrams, more) := sendall attempts (buf.drop n) results
      (buf.take n :: datagrams, more.map (n + ·))

/-- What a call of `packet::emit_BI` leads to: the sender, the datagrams on the wire and the packet that counts as
emitted, unless the call throws. -/
structure Emission where
  sender : Sender
  datagrams : List (List UInt8)
  packet : Option Packet

/-- The packet that is emitted next. -/
def Sender.packet (type : UInt16) (data : List UInt8) (s : Sender) : Packet :=
  setpacket s.node s.inst.toNat type.toNat (Window.succ s.seqno) data

/-- `packet::emit_BI`. A gap packet is discarded, and the number is taken only where sending does not throw. -/
def Sender.emit (endian : Endian) (type : UInt16) (data : List UInt8) (results : List (Option ℕ)) (s : Sender) :
    Emission :=
  if type.toNat = pktgap then ⟨s, [], none⟩
  else
    match encodepacket ⟨endian, 8, le_rfl⟩ (s.packet type data) (List.replicate packetsize 0) with
    | none => ⟨s, [], none⟩
    | some buf =>
      match sendall 3 buf results with
      | (datagrams, none) => ⟨s, datagrams, none⟩
      | (datagrams, some _) => ⟨{ s with seqno := Window.succ s.seqno }, datagrams, some (s.packet type data)⟩

/-- The states of an engine. -/
inductive EngineState
  | started
  | teardown
  | stopped
deriving DecidableEq

/-- `engineimpl`, as far as it takes part in a group, with the packets that it has emitted and those that its sessions
have received. -/
structure Peer where
  endian : Endian
  packet : Sender
  state : EngineState
  mcastsd : Bool
  wrtimer : Bool
  cluster : Cluster
  emitted : List Packet
  received : List Packet

/-- `WSIZE_`. -/
def wsize : ℕ := 256

namespace Peer

/-- The constructor. -/
def create (endian : Endian) (node : List UInt8) (inst : UInt32) (hbint : ℕ) : Peer where
  endian := endian
  packet := ⟨(node.takeWhile (· ≠ 0)).take 128, inst, 0⟩
  state := .started
  mcastsd := false
  wrtimer := false
  cluster := .create wsize (by decide) hbint
  emitted := []
  received := []

/-- The key that other engines know the engine by. -/
def key (p : Peer) : Key := ⟨p.packet.inst.toNat, p.packet.node⟩

/-- `packet_.emit_BI`. -/
def send (type : UInt16) (data : List UInt8) (results : List (Option ℕ)) (p : Peer) : Peer × List (List UInt8) :=
  let emission := p.packet.emit p.endian type data results
  ({ p with packet := emission.sender, emitted := p.emitted ++ emission.packet.toList }, emission.datagrams)

/-- `engineimpl::emit_BI`. The heartbeat that it puts off stays pending. -/
def emitAny (type : UInt16) (data : List UInt8) (results : List (Option ℕ)) (p : Peer) : Peer × List (List UInt8) :=
  if p.mcastsd then p.send type data results else (p, [])

/-- `engine::join_BIN`. -/
def join (results : List (Option ℕ)) (p : Peer) : Peer × List (List UInt8) :=
  { p with mcastsd := true, wrtimer := true }.emitAny 1 [] results

/-- `engine::emit`. The types below `AUG_PKTUSER` are discarded. -/
def emit (type : UInt16) (data : List UInt8) (results : List (Option ℕ)) (p : Peer) : Peer × List (List UInt8) :=
  if pktuser ≤ type.toNat then p.emitAny type data results else (p, [])

/-- The expiry of `wrtimer_`. -/
def heartbeat (results : List (Option ℕ)) (p : Peer) : Peer × List (List UInt8) :=
  if p.mcastsd then p.send 3 [] results else (p, [])

/-- `teardown_BI`. -/
def teardown (results : List (Option ℕ)) (p : Peer) : Peer × List (List UInt8) :=
  if p.state = .started then { p with state := .teardown, wrtimer := false }.emitAny 2 [] results else (p, [])

/-- `mrecv_BI` with a datagram, of which no more than a packet is read. A partial packet and a gap packet are
discarded, and a wrong header throws. -/
def mrecv (datagram : List UInt8) (now : Timeval) (ring : ℕ → Message) (p : Peer) : Peer :=
  if (datagram.take packetsize).length = packetsize then
    match decodepacket ⟨p.endian, 8, le_rfl⟩ (datagram.take packetsize) with
    | some (.ok pkt) => { p with cluster := ((p.cluster.insert pkt.observe now ring).map Prod.fst).getD p.cluster }
    | _ => p
  else p

/-- A round of `mflush`. Heartbeats are ignored. -/
def mflush (now : Timeval) (p : Peer) : Peer :=
  let (cluster, next) := p.cluster.next now
  { p with cluster, received := p.received ++ next.toList.filter (·.type ≠ pkthbeat) }

end Peer

/-- The engines of a group, and the datagrams that have been sent. -/
structure Group (ι : Type) where
  peers : ι → Peer
  wire : List (List UInt8)

/-- What an engine does. -/
inductive GroupAction (ι : Type)
  | join (i : ι) (results : List (Option ℕ))
  | emit (i : ι) (type : UInt16) (data : List UInt8) (results : List (Option ℕ))
  | heartbeat (i : ι) (results : List (Option ℕ))
  | teardown (i : ι) (results : List (Option ℕ))
  | stop (i : ι)
  | mrecv (i : ι) (datagram : List UInt8) (now : Timeval) (ring : ℕ → Message)
  | mflush (i : ι) (now : Timeval)

namespace Group

variable {ι : Type} [DecidableEq ι]

/-- The engines before any of them has joined. -/
def create (engines : ι → Endian × List UInt8 × UInt32) (hbint : ℕ) : Group ι where
  peers i := .create (engines i).1 (engines i).2.1 (engines i).2.2 hbint
  wire := []

/-- What an engine does to itself and to the wire. -/
def act (g : Group ι) (i : ι) (f : Peer → Peer × List (List UInt8)) : Group ι where
  peers := Function.update g.peers i (f (g.peers i)).1
  wire := g.wire ++ (f (g.peers i)).2

theorem act_self (g : Group ι) (i : ι) (f : Peer → Peer × List (List UInt8)) :
    (g.act i f).peers i = (f (g.peers i)).1 := Function.update_self ..

theorem act_other (g : Group ι) {i j : ι} (f : Peer → Peer × List (List UInt8)) (hj : j ≠ i) :
    (g.act i f).peers j = g.peers j := Function.update_of_ne hj ..

/-- One step. An engine joins once, before its teardown; it sends heartbeats while their timer is pending, is stopped
by the timer that its teardown sets, and receives what has been sent. -/
def step (g : Group ι) : GroupAction ι → Option (Group ι)
  | .join i results =>
    if (g.peers i).state = .started ∧ (g.peers i).mcastsd = false then some (g.act i (Peer.join results)) else none
  | .emit i type data results => some (g.act i (Peer.emit type data results))
  | .heartbeat i results => if (g.peers i).wrtimer then some (g.act i (Peer.heartbeat results)) else none
  | .teardown i results => some (g.act i (Peer.teardown results))
  | .stop i =>
    if (g.peers i).state = .teardown then some (g.act i fun p => ({ p with state := .stopped }, [])) else none
  | .mrecv i datagram now ring =>
    if (g.peers i).mcastsd ∧ datagram ∈ g.wire then some (g.act i fun p => (p.mrecv datagram now ring, [])) else none
  | .mflush i now => if (g.peers i).mcastsd then some (g.act i fun p => (p.mflush now, [])) else none

end Group

end Aug.Aspp
