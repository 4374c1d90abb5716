import Aug.Aspp.ClusterNodes
import Aug.Aspp.WindowOrder

/-!
# Delivery order of a cluster

The packets that a node's window gives to the client have increasing sequence numbers, each is the packet
last inserted for its number, and a gap packet is queued wherever numbers are left out.
-/

namespace Aug.Aspp

open Aug.Lib Aug.Net Aug.Sys OrderedMap

/-- What matters of a node's life since its creation: the number of the last packet delivered, whether a
gap packet has been queued since, and the packet last inserted for each number. -/
structure History where
  last : Option ℕ
  gap : Bool
  inserted : ℕ → Option Packet

/-- The history of a new node. -/
def History.start : History := ⟨none, false, fun _ => none⟩

/-- The history after one more entry. -/
def History.next (h : History) : Entry → History
  | .create => .start
  | .insert pkt => { h with inserted := Function.update h.inserted pkt.seqno (some pkt) }
  | .queue pkt => { h with last := some pkt.seqno, gap := false }
  | .pushpacket type => { h with gap := h.gap || type == pktgap }
  | .erase => h

/-- The history of some entries. -/
def history (entries : List Entry) : History := entries.foldl History.next .start

/-- A packet may be delivered: its number is greater than the last one, and follows it unless a gap packet
has been queued, and it is the packet last inserted for its number. -/
def History.Follows (h : History) (pkt : Packet) : Prop :=
  (∀ last, h.last = some last → last < pkt.seqno ∧ (pkt.seqno = last + 1 ∨ h.gap = true)) ∧
    h.inserted pkt.seqno = some pkt

/-- Every packet delivered follows what has been before. -/
def Delivered : History → List Entry → Prop
  | _, [] => True
  | h, entry :: entries =>
    (∀ pkt, entry = .queue pkt → h.Follows pkt) ∧ Delivered (h.next entry) entries

theorem delivered_append {h : History} {entries entries' : List Entry} :
    Delivered h (entries ++ entries') ↔
      Delivered h entries ∧ Delivered (entries.foldl History.next h) entries' := by
  induction entries generalizing h with
  | nil => simp [Delivered]
  | cons entry entries ih => simp [Delivered, ih, and_assoc]

/-- Each packet delivered follows the entries before it. -/
theorem Delivered.follows {entries before after : List Entry} {pkt : Packet}
    (h : Delivered .start entries) (hsplit : entries = before ++ .queue pkt :: after) :
    (history before).Follows pkt := by
  rw [hsplit, delivered_append] at h
  exact h.2.1 pkt rfl

/-- The invariant of a node: its window holds what has been inserted, the last packet delivered is on its
left, and where numbers have been left out there has been a gap packet or the node is down. -/
structure Node.Fits (n : Node) (h : History) : Prop where
  holds : n.window.Holds h.inserted
  seeded : n.window.state ≠ .reset
  before {last : ℕ} : h.last = some last → last < n.window.begin_
  gap {last : ℕ} : n.down = false → h.last = some last →
    h.gap = true ∨ (n.window.state = .ready ∧ n.window.begin_ = last + 1)

namespace Node

variable {n n' : Node} {h : History} {now : Timeval} {pkt : Packet}

/-- A window that is flushed before it is ready keeps the invariant, as nothing has been delivered since
the gap packet. -/
theorem Fits.flushes {m : Node} (hfits : n.Fits h) (hflush : n.Flushes m) :
    m.Fits h ∧ m.down = n.down := by
  rcases hflush with rfl | ⟨hready, rfl⟩
  · exact ⟨hfits, rfl⟩
  · obtain ⟨hholds, hle⟩ := hfits.holds.flush
    refine ⟨⟨hholds, nofun, ?_, ?_⟩, rfl⟩
    · intro last hlast
      exact (hfits.before hlast).trans_le hle
    · intro last hdown hlast
      exact .inl ((hfits.gap hdown hlast).resolve_right fun hcase => hready hcase.1)

/-- A packet that is taken follows the history, unless the node is down and it is discarded. -/
theorem Fits.take (hfits : n.Fits h) (htake : n.take = (n', .packet pkt)) :
    (n.down = true → n'.Fits h ∧ n'.down = true) ∧
      (n.down = false → h.Follows pkt ∧ n'.Fits (h.next (.queue pkt))) := by
  rcases n.take_cases with ⟨-, hnone⟩ | ⟨m, window, next, hnext, hpacket, rfl, hdown'⟩
  · simp [hnone] at htake
  · rw [hpacket] at htake
    simp only [Prod.mk.injEq, Next.packet.injEq] at htake
    obtain ⟨rfl, rfl⟩ := htake
    obtain ⟨hholds, hready, hready', hseqno, hinserted, hbegin⟩ := hfits.holds.next hnext
    have hseeded : next.window.state ≠ .reset := by simp [hready']
    constructor
    · intro hdown
      rw [hdown, Bool.true_or] at hdown'
      refine ⟨⟨hholds, hseeded, ?_, ?_⟩, hdown'⟩
      · intro last hlast
        have hlt := hfits.before hlast
        omega
      · intro last hup
        rw [hdown'] at hup
        cases hup
    · intro hdown
      refine ⟨⟨?_, ?_⟩, hholds, hseeded, ?_, ?_⟩
      · intro last hlast
        rw [hseqno]
        refine ⟨hfits.before hlast, ?_⟩
        rcases hfits.gap hdown hlast with hgap | ⟨-, hnext⟩
        · exact .inr hgap
        · exact .inl hnext
      · rw [hseqno]
        exact hinserted
      · intro last hlast
        simp only [History.next, Option.some.injEq] at hlast
        omega
      · intro last _ hlast
        simp only [History.next, Option.some.injEq] at hlast
        exact .inr ⟨hready', by omega⟩

/-- A packet that a call of `next` returns follows the history, unless it is discarded. -/
theorem Fits.next (hfits : n.Fits h) (hnext : n.next now = (n', .packet pkt)) :
    (n.down = true → n'.Fits h ∧ n'.down = true) ∧
      (n.down = false → h.Follows pkt ∧ n'.Fits (h.next (.queue pkt))) := by
  rcases n.next_cases now with ⟨-, m, htimeout, -⟩ | ⟨m, hflush, htake | hnone⟩
  · simp [htimeout] at hnext
  · obtain ⟨hm, hdown⟩ := hfits.flushes hflush
    rw [htake] at hnext
    rw [← hdown]
    exact hm.take hnext
  · simp [hnone] at hnext

/-- A call of `next` without a packet keeps the invariant. -/
theorem Fits.next_none (hfits : n.Fits h) (hnext : n.next now = (n', .none)) : n'.Fits h := by
  rcases n.next_cases now with ⟨-, m, htimeout, -⟩ | ⟨m, hflush, htake | hnone⟩
  · simp [htimeout] at hnext
  · rw [htake] at hnext
    rcases m.take_cases with ⟨-, hstay⟩ | ⟨_, _, _, -, hpacket, -⟩
    · rw [hstay, Prod.mk.injEq] at hnext
      rw [← hnext.1]
      exact (hfits.flushes hflush).1
    · simp [hpacket] at hnext
  · rw [hnone, Prod.mk.injEq] at hnext
    rw [← hnext.1]
    exact (hfits.flushes hflush).1

/-- Packets that are discarded leave the history as it is. -/
theorem Fits.discard (hfits : n.Fits h) (hdown : n.down = true) {rounds : ℕ}
    (hdiscard : n.discard now rounds = (n', false)) : n'.Fits h := by
  induction rounds generalizing n with
  | zero =>
    rw [Node.discard, Prod.mk.injEq] at hdiscard
    rw [← hdiscard.1]
    exact hfits
  | succ rounds ih =>
    unfold Node.discard at hdiscard
    split at hdiscard
    case h_1 hnext =>
      obtain ⟨hfits', hdown'⟩ := (hfits.next hnext).1 hdown
      exact ih hfits' hdown' hdiscard
    case h_2 hnext =>
      rw [Prod.mk.injEq] at hdiscard
      rw [← hdiscard.1]
      exact hfits.next_none hnext
    case h_3 => simp at hdiscard

/-- The packets that are pushed follow each other, and the invariant holds after them. -/
theorem Fits.push (hfits : n.Fits h) (now : Timeval) (rounds : ℕ) :
    Delivered h ((n.push now rounds).1.map .queue) ∧
      ((n.push now rounds).2.2 = false →
        (n.push now rounds).2.1.Fits (((n.push now rounds).1.map Entry.queue).foldl History.next h)) := by
  induction rounds generalizing n h with
  | zero => exact ⟨trivial, fun _ => hfits⟩
  | succ rounds ih =>
    unfold Node.push
    split_ifs with hdown
    · refine ⟨trivial, ?_⟩
      intro htimeout
      exact hfits.discard hdown (Prod.ext rfl htimeout)
    · rw [Bool.not_eq_true] at hdown
      split
      case h_1 next pkt hnext =>
        obtain ⟨hfollows, hnext'⟩ := (hfits.next hnext).2 hdown
        obtain ⟨hdelivered, hrest⟩ := ih hnext'
        refine ⟨⟨?_, hdelivered⟩, hrest⟩
        rintro other hother
        rw [Entry.queue.injEq] at hother
        rw [← hother]
        exact hfollows
      case h_2 next hnext => exact ⟨trivial, fun _ => hfits.next_none hnext⟩
      case h_3 => exact ⟨trivial, nofun⟩

end Node

/-- A history and the invariant of a node, if it is there. -/
def Life.InOrder (life : Life) : Prop :=
  Delivered .start life.entries ∧ ∀ n, life.node = some n → n.Fits (history life.entries)

variable {n : Node} {h : History} {now : Timeval} {pkt : Packet}

/-- What settling a node delivers follows, and the invariant holds if the node is kept. -/
theorem Node.Fits.settle (hfits : n.Fits h) (now : Timeval) : Delivered h (settle now n).1 ∧
    ∀ n', (Aspp.settle now n).2 = some n' → n'.Fits ((Aspp.settle now n).1.foldl History.next h) := by
  obtain ⟨hdelivered, hkept⟩ := hfits.push now (n.window.count + 1)
  unfold Aspp.settle Node.pushall
  split
  case h_1 pkts n' hpush =>
    rw [hpush] at hdelivered hkept
    refine ⟨hdelivered, ?_⟩
    intro n'' hn''
    rw [← Option.some.inj hn'']
    exact hkept rfl
  case h_2 pkts n' hpush =>
    rw [hpush] at hdelivered
    refine ⟨?_, nofun⟩
    rw [List.append_assoc, delivered_append]
    refine ⟨hdelivered, ?_⟩
    split_ifs <;> simp [Delivered]

/-- The first packet of a window that has been reset, after a gap packet or in a new node. -/
theorem Node.seeded {n : Node} (now : Timeval) (inserted : ℕ → Option Packet) {last : Option ℕ} {gap : Bool}
    (hreset : n.window.state = .reset) (hbound : pkt.seqno < 2 ^ 62)
    (hlast : ∀ l, last = some l → gap = true ∧ l < n.window.seed pkt.seqno) :
    ∃ n', n.insert pkt now = .ok n' ∧
      n'.Fits ⟨last, gap, Function.update inserted pkt.seqno (some pkt)⟩ := by
  obtain ⟨window, hinsert, hholds, hbegin, hstate⟩ :=
    Window.insert_reset pkt now inserted hreset hbound
  refine ⟨{ n with window }, ?_, hholds, ?_, ?_, ?_⟩
  · rw [Node.insert, hinsert]
    rfl
  · simp [hstate]
  · intro l hl
    rw [hbegin]
    exact (hlast l hl).2
  · intro l _ hl
    exact .inl (hlast l hl).1

/-- A packet is accepted, with a gap packet if it is beyond the window, or refused. -/
theorem Node.Fits.accept (hfits : n.Fits h) (hbound : pkt.seqno < 2 ^ 62) :
    match Cluster.accept pkt now n with
    | some (entries, n') => Delivered (h.next (.insert pkt)) entries ∧
        n'.Fits (entries.foldl History.next (h.next (.insert pkt)))
    | none => n.Fits (h.next (.insert pkt)) := by
  have hsize := n.window.positive
  have hinsert : n.insert pkt now = (n.window.insert pkt now).map fun window => { n with window } := rfl
  unfold Cluster.accept
  rcases hfits.holds.insert pkt now hfits.seeded hbound with ⟨hunder, hlt⟩ | ⟨hover, hlt⟩ | hok
  · rw [hunder] at hinsert
    simp only [hinsert, Except.map]
    exact ⟨hfits.holds.insert_other hlt pkt, hfits.seeded, hfits.before, hfits.gap⟩
  · rw [hover] at hinsert
    have hlast : ∀ last, h.last = some last →
        true = true ∧ last < (n.reset now).window.seed pkt.seqno := by
      intro last hlast
      have hbefore := hfits.before hlast
      refine ⟨rfl, ?_⟩
      unfold Window.seed
      dsimp only [Node.reset]
      split_ifs <;> omega
    obtain ⟨n', hreset, hfits'⟩ := Node.seeded now h.inserted rfl hbound hlast
    simp only [hinsert, Except.map, hreset]
    refine ⟨by simp [Delivered], ?_⟩
    simpa [History.next] using hfits'
  · obtain ⟨window, hok, hholds, hle, hstate, hbegin⟩ := hok
    rw [hok] at hinsert
    simp only [hinsert, Except.map]
    refine ⟨trivial, hholds, ?_, ?_, ?_⟩
    · rw [hstate]
      exact hfits.seeded
    · intro last hlast
      exact (hfits.before hlast).trans_le hle
    · intro last hdown hlast
      rcases hfits.gap hdown hlast with hgap | ⟨hready, hnext⟩
      · exact .inl hgap
      · refine .inr ⟨hstate.trans hready, ?_⟩
        rw [hbegin hready]
        exact hnext

namespace Cluster

variable {c : Cluster} {k : Key} {action : ClusterAction} {life : Life} {actions : List ClusterAction}

/-- The sequence number of an inserted packet is below the bound. -/
def Bounded : ClusterAction → Prop
  | .insert pkt _ _ => pkt.seqno < 2 ^ 62
  | .next _ => True

/-- A new node accepts its first packet. -/
theorem accept_new (now : Timeval) (hbound : pkt.seqno < 2 ^ 62) (ring : ℕ → Message) (c : Cluster) :
    ∃ n, accept pkt now (.create c.wsize c.positive ring now c.hbint) = some ([], n) ∧
      n.Fits (History.start.next (.insert pkt)) := by
  have hlast : ∀ l, (none : Option ℕ) = some l →
      false = true ∧ l < (Node.create c.wsize c.positive ring now c.hbint).window.seed pkt.seqno := nofun
  obtain ⟨n, hinsert, hfits⟩ := Node.seeded now (fun _ => none) rfl hbound hlast
  refine ⟨n, ?_, hfits⟩
  simp only [accept, hinsert]

/-- What follows the admission of a packet to a node delivers what follows, and keeps the invariant. -/
theorem receive_delivered {n : Node} (entries : List Entry) {o : Option Node} (ring : ℕ → Message)
    (c : Cluster) (henter : c.newnode pkt now ring o = (entries, n)) {before : List Entry}
    (hbefore : Delivered .start (before ++ entries))
    (haccept : match accept pkt now n with
      | some (entries', n') => Delivered ((history (before ++ entries)).next (.insert pkt)) entries' ∧
          n'.Fits (entries'.foldl History.next ((history (before ++ entries)).next (.insert pkt)))
      | none => n.Fits ((history (before ++ entries)).next (.insert pkt))) :
    Life.InOrder ⟨(c.receive pkt now ring o).2.1, before ++ (c.receive pkt now ring o).1⟩ := by
  unfold receive
  simp only [henter]
  cases hcase : accept pkt now n with
  | none =>
    rw [hcase] at haccept
    dsimp only at haccept ⊢
    refine ⟨?_, ?_⟩
    · rw [← List.append_assoc]
      exact delivered_append.mpr ⟨hbefore, nofun, trivial⟩
    · intro n' hn'
      rw [← Option.some.inj hn', ← List.append_assoc, history, List.foldl_append]
      exact haccept
  | some result =>
    obtain ⟨entries', n'⟩ := result
    rw [hcase] at haccept
    obtain ⟨hentries', hfits⟩ := haccept
    obtain ⟨hsettled, hkept⟩ := hfits.settle now
    dsimp only
    refine ⟨?_, ?_⟩
    · rw [← List.append_assoc]
      refine delivered_append.mpr ⟨hbefore, nofun, delivered_append.mpr ⟨hentries', hsettled⟩⟩
    · intro n'' hn''
      rw [← List.append_assoc, history, List.foldl_append, List.foldl_cons, List.foldl_append]
      exact hkept n'' hn''

/-- What a node does with a packet delivers what follows, and keeps the invariant. -/
theorem receive_inOrder (h : life.InOrder) (hbound : pkt.seqno < 2 ^ 62) (ring : ℕ → Message)
    (c : Cluster) : Life.InOrder ⟨(c.receive pkt now ring life.node).2.1,
      life.entries ++ (c.receive pkt now ring life.node).1⟩ := by
  obtain ⟨hdelivered, hfits⟩ := h
  cases hnode : life.node with
  | some n =>
    apply receive_delivered [] ring c rfl
    · rwa [List.append_nil]
    · rw [List.append_nil]
      exact (hfits n hnode).accept hbound
  | none =>
    obtain ⟨n, haccept, hnew⟩ := accept_new now hbound ring c
    apply receive_delivered _ ring c rfl
    · refine delivered_append.mpr ⟨hdelivered, nofun, ?_⟩
      split_ifs <;> simp [Delivered]
    · have hstart : history (life.entries ++
          (.create :: if pkt.type = pktup then [] else [.pushpacket pktup])) = .start := by
        rw [history, List.foldl_append, List.foldl_cons]
        split_ifs <;> rfl
      rw [haccept, hstart]
      exact ⟨trivial, hnew⟩

/-- A turn keeps the life of a node in order. -/
theorem turn_inOrder (hbound : Bounded action) (h : life.InOrder) : (c.turn k action life).InOrder := by
  cases action with
  | insert pkt now ring =>
    simp only [turn]
    split_ifs
    · exact receive_inOrder h hbound ring c
    · exact h
  | next now =>
    simp only [turn]
    split
    case h_1 n _ hnode =>
      obtain ⟨hdelivered, hfits⟩ := h
      obtain ⟨hsettled, hkept⟩ := (hfits n hnode).settle now
      refine ⟨delivered_append.mpr ⟨hdelivered, hsettled⟩, ?_⟩
      intro n' hn'
      rw [history, List.foldl_append]
      exact hkept n' hn'
    case h_2 => exact h

/-- A call keeps the life of every node in order. -/
theorem step_inOrder {next : Cluster} (h : ∀ k, (c.life k).InOrder) (hstep : c.step action = some next)
    (hbound : Bounded action) (k : Key) : (next.life k).InOrder := by
  rw [step_life hstep k]
  exact turn_inOrder hbound (h k)

/-- A run of calls keeps the life of every node in order, and the queue in the order of the log. -/
theorem run_inOrder {last : Cluster} (hqueued : c.Queued) (h : ∀ k, (c.life k).InOrder)
    (hbound : ∀ action ∈ actions, Bounded action) (hrun : run step c actions = some last) :
    last.Queued ∧ ∀ k, (last.life k).InOrder := by
  apply @run_invariant_on _ _ step _ _ _ (fun c => c.Queued ∧ ∀ k, (c.life k).InOrder) _ _ ⟨hqueued, h⟩ hbound hrun
  intro c action next hc haction hstep
  exact ⟨hc.1.step hstep, step_inOrder hc.2 hstep haction⟩

/-- The history of a node when the log has come this far. -/
def historyOf (k : Key) (log : List (Key × Entry)) : History := history (outputs k log)

/-- Over every run the client is handed what the log queues, in its order, and each packet that a node
delivers has a greater number than the one before it, and the next one unless a gap packet is queued between
them, and is the packet last inserted for its number. -/
theorem delivered_in_order (wsize : ℕ) (hsize : 0 < wsize) (hbint : ℕ) (actions : List ClusterAction)
    (hbound : ∀ action ∈ actions, Bounded action) {last : Cluster}
    (hrun : run step (create wsize hsize hbint) actions = some last) :
    last.handed ++ last.pending = last.queued.map Prod.snd ∧
      ∀ k before pkt after, last.log = before ++ (k, .queue pkt) :: after →
        (historyOf k before).Follows pkt := by
  have hcreate : ∀ k, ((create wsize hsize hbint).life k).InOrder := fun k => ⟨trivial, nofun⟩
  obtain ⟨hqueued, hlives⟩ := run_inOrder (queued_create wsize hsize hbint) hcreate hbound hrun
  refine ⟨hqueued, ?_⟩
  intro k before pkt after hlog
  have hsplit : outputs k last.log = outputs k before ++ .queue pkt :: outputs k after := by
    rw [hlog, outputs_append]
    congr 1
    simp [outputs]
  exact (hlives k).1.follows hsplit

/-- A packet of a node, with a type and a sequence number. -/
def numbered (type seqno : ℕ) : Packet := setpacket [97] 1 type seqno []

/-- Two packets arrive in the wrong order, and a third one far beyond the window. -/
def jump : List ClusterAction :=
  let ring := fun _ => ⟨numbered pktuser 0, ⟨0, 0⟩⟩
  [.insert (numbered pkthbeat 12) ⟨10, 0⟩ ring, .insert (numbered pktuser 11) ⟨10, 0⟩ ring, .next ⟨11, 0⟩,
    .next ⟨14, 0⟩, .next ⟨14, 0⟩, .insert (numbered pktuser 90) ⟨15, 0⟩ ring, .next ⟨15, 0⟩, .next ⟨19, 0⟩]

theorem delivered_in_order_jump : ∃ last : Cluster, run step (create 8 (by decide) 2000) jump = some last ∧
    last.handed.map (fun pkt => (pkt.type, pkt.seqno)) = [(1, 0), (4, 11), (3, 12), (0, 0), (4, 90)] ∧
    last.handed ++ last.pending = last.queued.map Prod.snd ∧
      ∀ k before pkt after, last.log = before ++ (k, .queue pkt) :: after →
        (historyOf k before).Follows pkt := by
  have hhanded : (run step (create 8 (by decide) 2000) jump).map
      (fun last => last.handed.map fun pkt => (pkt.type, pkt.seqno)) =
        some [(1, 0), (4, 11), (3, 12), (0, 0), (4, 90)] := by decide +kernel
  obtain ⟨last, hrun, hlast⟩ := Option.map_eq_some_iff.mp hhanded
  have hbound : ∀ action ∈ jump, Bounded action := by
    simp [jump, Bounded, numbered, setpacket]
  exact ⟨last, hrun, hlast, delivered_in_order 8 (by decide) 2000 jump hbound hrun⟩

end Cluster

end Aug.Aspp
