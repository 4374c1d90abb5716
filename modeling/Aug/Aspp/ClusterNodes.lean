import Aug.Aspp.Cluster
import Aug.Lib.Transition

/-!
# The nodes of a cluster

A call does to each node only what it would do to that node alone, so that the life of a node, which is
the node and what the log says of it, is a system of its own. What the client is handed is what the log
queues, in its order.
-/

namespace Aug.Aspp

open Aug.Lib Aug.Net Aug.Sys OrderedMap

namespace Node

/-- A node as it is, or once a window that is not ready has been flushed after the expiry. -/
def Flushes (n m : Node) : Prop :=
  m = n ∨ n.window.state ≠ .ready ∧
    m = { n with expiry := n.expiry.tvadd n.timeout, window := n.window.flush }

/-- A call of `next` ends with a timeout of a ready window, or takes what is first in the window, or
leaves without a packet. -/
theorem next_cases (now : Timeval) (n : Node) :
    (n.window.state = .ready ∧ ∃ m, n.next now = (m, .timeout) ∧ m.down = n.down) ∨
    ∃ m, n.Flushes m ∧ (n.next now = m.take ∨ n.next now = (m, .none)) := by
  unfold Node.next
  split
  · split
    · dsimp only
      split
      case isTrue hready => exact .inl ⟨by simpa [Window.ready] using hready, _, rfl, rfl⟩
      case isFalse hready =>
        have hflush : n.Flushes { n with expiry := n.expiry.tvadd n.timeout, window := n.window.flush } :=
          .inr ⟨by simpa [Window.ready] using hready, rfl⟩
        split
        · exact .inr ⟨_, hflush, .inr rfl⟩
        · exact .inr ⟨_, hflush, .inl rfl⟩
    · exact .inr ⟨n, .inl rfl, .inr rfl⟩
  · exact .inr ⟨n, .inl rfl, .inl rfl⟩

/-- What is taken is the next packet of the window. -/
theorem take_cases (n : Node) : (n.window.next = none ∧ n.take = (n, .none)) ∨
    ∃ m window n', n.window.next = some (m, window) ∧ n.take = (n', .packet m.pkt) ∧
      n'.window = window ∧ n'.down = (n.down || m.pkt.type == pktdown) := by
  unfold Node.take
  cases hnext : n.window.next with
  | none => exact .inl ⟨rfl, rfl⟩
  | some next => exact .inr ⟨next.1, next.2, _, rfl, rfl, rfl, rfl⟩

end Node

/-- A node, if it is there, and what has happened to it. -/
structure Life where
  node : Option Node
  entries : List Entry

/-- The life of a cluster's node. -/
def Cluster.life (c : Cluster) (k : Key) : Life := ⟨c.nodes.find k, outputs k c.log⟩

namespace Cluster

variable {c next : Cluster} {action : ClusterAction} {k : Key}

@[simp] theorem pop_life (c : Cluster) (k : Key) : c.pop.1.life k = c.life k := by
  unfold pop
  split <;> rfl

/-- The insertion of a packet concerns the node of its key. -/
theorem insert_life {pkt : Packet} {now : Timeval} {ring : ℕ → Message} {result : Bool}
    (h : c.insert pkt now ring = some (next, result)) (k : Key) : pkt.type ≠ pktgap ∧
      next.life k = if k = key pkt then
        ⟨(c.receive pkt now ring (c.life k).node).2.1,
          (c.life k).entries ++ (c.receive pkt now ring (c.life k).node).1⟩
      else c.life k := by
  simp only [insert] at h
  split_ifs at h with hgap
  simp only [Option.some.injEq, Prod.mk.injEq] at h
  refine ⟨hgap, ?_⟩
  rw [← h.1]
  simp only [life, record, find_assign, outputs_append, outputs_map]
  split_ifs with hk hkey hkey
  · rw [hk]
  · exact absurd hk.symm hkey
  · exact absurd hkey.symm hk
  · rw [List.append_nil]

/-- A flush settles every node. -/
theorem flush_life (now : Timeval) (c : Cluster) (k : Key) : (c.flush now).life k =
    ⟨(c.nodes.find k).bind fun n => (settle now n).2,
      outputs k c.log ++ (c.nodes.find k).elim [] fun n => (settle now n).1⟩ := by
  simp only [life, flush, record, find_sweep, outputs_append, outputs_sweep]

/-- What a call does to the life of one node: the node receives a packet, or it is settled before the next
packet is handed out. -/
def turn (c : Cluster) (k : Key) (action : ClusterAction) (life : Life) : Life :=
  match action with
  | .insert pkt now ring =>
    if k = key pkt then
      ⟨(c.receive pkt now ring life.node).2.1, life.entries ++ (c.receive pkt now ring life.node).1⟩
    else life
  | .next now =>
    match c.pending, life.node with
    | [], some n => ⟨(settle now n).2, life.entries ++ (settle now n).1⟩
    | _, _ => life

/-- Every call takes a turn at the life of each node. -/
theorem step_life (h : c.step action = some next) (k : Key) : next.life k = c.turn k action (c.life k) := by
  cases action with
  | insert pkt now ring =>
    obtain ⟨⟨other, result⟩, hinsert, hnext⟩ := Option.map_eq_some_iff.mp h
    rw [← hnext]
    exact (insert_life hinsert k).2
  | next now =>
    rw [← Option.some.inj h, Cluster.next]
    unfold turn
    split_ifs with hpending
    · rw [pop_life, flush_life, hpending]
      unfold life
      cases c.nodes.find k with
      | none => rw [Option.bind_none, Option.elim_none, List.append_nil]
      | some n => rw [Option.bind_some, Option.elim_some]
    · rw [pop_life]
      cases hcase : c.pending with
      | nil => exact absurd hcase hpending
      | cons pkt pending => rfl

/-- The packets that the log queues, with the keys of their nodes. -/
def queued (c : Cluster) : List (Key × Packet) :=
  c.log.filterMap fun entry => (entry.2.packet entry.1).map (entry.1, ·)

/-- What has been handed out and what is pending is what the log queues. -/
def Queued (c : Cluster) : Prop := c.handed ++ c.pending = c.queued.map Prod.snd

theorem Queued.record (h : c.Queued) (entries : List (Key × Entry)) : (c.record entries).Queued := by
  unfold Queued queued at h ⊢
  simp only [Cluster.record, List.filterMap_append, List.map_append]
  rw [← List.append_assoc, h, List.map_filterMap, List.map_filterMap]
  simp [Option.map_map, Function.comp_def]

theorem Queued.pop (h : c.Queued) : c.pop.1.Queued := by
  unfold Cluster.pop
  split
  case h_1 => exact h
  case h_2 pkt pending hpending =>
    unfold Queued at h ⊢
    rw [hpending] at h
    simpa [queued] using h

/-- Every call keeps the queue in the order of the log. -/
theorem Queued.step (h : c.Queued) (hstep : c.step action = some next) : next.Queued := by
  cases action with
  | insert pkt now ring =>
    obtain ⟨⟨other, result⟩, hinsert, hnext⟩ := Option.map_eq_some_iff.mp hstep
    rw [← hnext]
    simp only [insert] at hinsert
    split_ifs at hinsert
    simp only [Option.some.injEq, Prod.mk.injEq] at hinsert
    rw [← hinsert.1]
    exact h.record _
  | next now =>
    rw [← Option.some.inj hstep, Cluster.next]
    split_ifs
    · have hflush : (c.flush now).Queued := h.record _
      exact hflush.pop
    · exact h.pop

theorem queued_create (wsize : ℕ) (hsize : 0 < wsize) (hbint : ℕ) : (create wsize hsize hbint).Queued := rfl

end Cluster

end Aug.Aspp
