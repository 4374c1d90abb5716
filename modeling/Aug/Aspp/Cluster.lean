import Aug.Aspp.Window
import Aug.Lib.OrderedMap

/-!
# Clusters

The nodes and the cluster of `cluster.cpp`. Of each node the window restores the order of its packets
and a timer watches its silence. The packets that the client will be handed wait in one queue. A log
says what has happened to each node.
-/

namespace Aug.Aspp

open Aug.Lib Aug.Net Aug.Sys

/-- `tvbefore`, with an epsilon of five thousand microseconds. -/
def tvbefore (lhs rhs : Timeval) : Bool := rhs.lt (Timeval.tvadd ⟨0, 5000⟩ lhs)

/-- The class `node`. -/
structure Node where
  window : Window
  timeout : Timeval
  expiry : Timeval
  down : Bool

/-- What a call of `next` leads to: a packet, none, or the exception of a timeout. -/
inductive Next
  | packet (pkt : Packet)
  | none
  | timeout

namespace Node

/-- The constructor, with half an interval's tolerance. -/
def create (size : ℕ) (hsize : 0 < size) (ring : ℕ → Message) (now : Timeval) (hbint : ℕ) : Node where
  window := .create size hsize ring
  timeout := .mstotv (u32 (hbint + hbint / 2))
  expiry := now.tvadd (.mstotv (u32 (hbint + hbint / 2)))
  down := false

/-- `insert`. -/
def insert (pkt : Packet) (now : Timeval) (n : Node) : Except WindowException Node :=
  (n.window.insert pkt now).map fun window => { n with window }

/-- The end of `next`: get the next packet and set the expiry by its arrival. -/
def take (n : Node) : Node × Next :=
  match n.window.next with
  | some (m, window) =>
    let tv := m.tv.tvadd n.timeout
    ({ n with
        window
        down := n.down || m.pkt.type == pktdown
        expiry := if n.expiry.lt tv then tv else n.expiry },
      .packet m.pkt)
  | none => (n, .none)

/-- `next`. -/
def next (now : Timeval) (n : Node) : Node × Next :=
  if n.window.empty then
    if tvbefore now n.expiry then
      let n := { n with expiry := n.expiry.tvadd n.timeout }
      if n.window.ready then ({ n with window := n.window.drop }, .timeout)
      else
        let n := { n with window := n.window.flush }
        if n.window.empty then (n, .none) else n.take
    else (n, .none)
  else n.take

/-- `reset`. -/
def reset (now : Timeval) (n : Node) : Node :=
  { n with expiry := now.tvadd n.timeout, window := { n.window with state := .reset } }

/-- The loop that discards packets after down, and whether it ends with a timeout. -/
def discard (now : Timeval) : ℕ → Node → Node × Bool
  | 0, n => (n, false)
  | rounds + 1, n =>
    match n.next now with
    | (n, .packet _) => discard now rounds n
    | (n, .none) => (n, false)
    | (n, .timeout) => (n, true)

/-- The loop of `pushall`: the packets that it pushes, the node after it, and whether it ends with a
timeout. -/
def push (now : Timeval) : ℕ → Node → List Packet × Node × Bool
  | 0, n => ([], n, false)
  | rounds + 1, n =>
    if n.down then ([], discard now (rounds + 1) n)
    else
      match n.next now with
      | (n, .packet pkt) => (pkt :: (push now rounds n).1, (push now rounds n).2)
      | (n, .none) => ([], n, false)
      | (n, .timeout) => ([], n, true)

/-- `pushall`, in which every round but the last consumes a slot of the window. -/
def pushall (now : Timeval) (n : Node) : List Packet × Node × Bool := push now (n.window.count + 1) n

end Node

/-- The key of a node: its instance and the bytes of its name. -/
structure Key where
  inst : ℕ
  node : List UInt8
deriving DecidableEq

/-- The order of the map. -/
def Key.lt (a b : Key) : Bool := a.inst < b.inst || a.inst == b.inst && a.node.lex b.node (· < ·)

/-- The key of a packet's node. -/
def key (pkt : Packet) : Key := ⟨pkt.inst, pkt.node⟩

/-- What happens to a node: it is created or erased, a packet is inserted for it, and a packet from its
window or a synthetic one is queued for the client. -/
inductive Entry
  | create
  | erase
  | insert (pkt : Packet)
  | queue (pkt : Packet)
  | pushpacket (type : ℕ)

/-- The packet that goes into the queue. -/
def Entry.packet (key : Key) : Entry → Option Packet
  | .queue pkt => some pkt
  | .pushpacket type => some (setpacket key.node key.inst type 0 [])
  | _ => none

/-- `pushall` with the handler of the timeout: a node that times out is erased, and a synthetic down
packet stands for one that has not been received. -/
def settle (now : Timeval) (n : Node) : List Entry × Option Node :=
  match n.pushall now with
  | (pkts, n, false) => (pkts.map .queue, some n)
  | (pkts, n, true) =>
    (pkts.map .queue ++ (if n.down then [] else [.pushpacket pktdown]) ++ [.erase], none)

/-- The class `cluster`, with the packets handed out so far and the log. -/
structure Cluster where
  wsize : ℕ
  positive : 0 < wsize
  hbint : ℕ
  nodes : OrderedMap Key Node
  pending : List Packet
  handed : List Packet
  log : List (Key × Entry)

namespace Cluster

/-- The constructor. -/
def create (wsize : ℕ) (hsize : 0 < wsize) (hbint : ℕ) : Cluster where
  wsize := wsize
  positive := hsize
  hbint := hbint
  nodes := .empty
  pending := []
  handed := []
  log := []

/-- Queue the packets of some entries and log the entries. -/
def record (entries : List (Key × Entry)) (c : Cluster) : Cluster :=
  { c with
    pending := c.pending ++ entries.filterMap fun entry => entry.2.packet entry.1
    log := c.log ++ entries }

/-- The node that a packet is for, and a synthetic up packet if it is new without one. -/
def newnode (pkt : Packet) (now : Timeval) (ring : ℕ → Message) (c : Cluster) :
    Option Node → List Entry × Node
  | some n => ([], n)
  | none =>
    (.create :: if pkt.type = pktup then [] else [.pushpacket pktup],
      .create c.wsize c.positive ring now c.hbint)

/-- The first handlers of `insert`: a packet beyond the window resets it after a synthetic gap packet, and
one before it is refused. -/
def accept (pkt : Packet) (now : Timeval) (n : Node) : Option (List Entry × Node) :=
  match n.insert pkt now with
  | .ok n => some ([], n)
  | .error .overflow =>
    match (n.reset now).insert pkt now with
    | .ok n => some ([.pushpacket pktgap], n)
    | .error _ => none
  | .error .underflow => none

/-- What `insert` does with the node of a packet, and its result. -/
def receive (pkt : Packet) (now : Timeval) (ring : ℕ → Message) (c : Cluster) (o : Option Node) :
    List Entry × Option Node × Bool :=
  let (entries, n) := c.newnode pkt now ring o
  match accept pkt now n with
  | some (entries', n) =>
    (entries ++ .insert pkt :: (entries' ++ (settle now n).1), (settle now n).2, true)
  | none => (entries ++ [.insert pkt], some n, false)

/-- `insert`, where a new node comes with the ring that is allocated for it. A gap packet fails the
assertion. -/
def insert (pkt : Packet) (now : Timeval) (ring : ℕ → Message) (c : Cluster) : Option (Cluster × Bool) :=
  if pkt.type = pktgap then none
  else
    let (entries, o, result) := c.receive pkt now ring (c.nodes.find (key pkt))
    some ({ c.record (entries.map (key pkt, ·)) with nodes := c.nodes.assign Key.lt (key pkt) o }, result)

/-- `flush`. -/
def flush (now : Timeval) (c : Cluster) : Cluster :=
  let (entries, nodes) := c.nodes.sweep fun _ n => settle now n
  { c.record entries with nodes }

/-- The end of `next`: hand out the front of the queue. -/
def pop (c : Cluster) : Cluster × Option Packet :=
  match c.pending with
  | [] => (c, none)
  | pkt :: pending => ({ c with pending, handed := c.handed ++ [pkt] }, some pkt)

/-- `next`. -/
def next (now : Timeval) (c : Cluster) : Cluster × Option Packet :=
  if c.pending = [] then (c.flush now).pop else c.pop

end Cluster

/-- A call of the client, with the reading of the clock. -/
inductive ClusterAction
  | insert (pkt : Packet) (now : Timeval) (ring : ℕ → Message)
  | next (now : Timeval)

namespace Cluster

/-- One call. -/
def step (c : Cluster) : ClusterAction → Option Cluster
  | .insert pkt now ring => (c.insert pkt now ring).map Prod.fst
  | .next now => some (c.next now).1

end Cluster

end Aug.Aspp
