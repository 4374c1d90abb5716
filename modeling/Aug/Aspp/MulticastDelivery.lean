import Aug.Aspp.ClusterMembership
import Aug.Aspp.MulticastSending

/-!
# Delivery in a multicast group

What an engine hands out of another one is a part of what that one has emitted, in its order and each packet once,
until the other one is given up; between two gap packets nothing is left out. This holds for any loss, duplication
and reordering of the datagrams.
-/

namespace Aug.Aspp

open Aug.Lib Aug.Net Aug.Sys OrderedMap

/-- What an engine has received from another one, of which it has emitted some packets. -/
def Life.Received (life : Life) (emitted : List Packet) : Prop := ∀ pkt, .insert pkt ∈ life.entries → pkt ∈ emitted

/-- Behind any run: engines that are numbered, packets on the wire that have been emitted, and clusters that know of
nothing else. -/
structure Group.Sound {ι : Type} (keys : ι → Key) (g : Group ι) : Prop where
  key : ∀ i, (g.peers i).key = keys i
  numbered : ∀ i, (g.peers i).Numbered
  wire : ∀ d ∈ g.wire, d.length < packetsize ∨ ∃ i, ∃ pkt ∈ (g.peers i).emitted, Carries d pkt
  queued : ∀ j, (g.peers j).cluster.Queued
  inOrder : ∀ j k, ((g.peers j).cluster.life k).InOrder
  received : ∀ j i, ((g.peers j).cluster.life (keys i)).Received (g.peers i).emitted
  foreign : ∀ j k, (∀ i, keys i ≠ k) → (g.peers j).cluster.life k = ⟨none, []⟩
  sessions : ∀ j, (g.peers j).received = (g.peers j).cluster.handed.filter (·.type ≠ pkthbeat)

/-! ## Reception -/

theorem settle_insert (now : Timeval) (n : Node) (pkt : Packet) : .insert pkt ∉ (settle now n).1 := by
  rw [settle]
  cases n.pushall now with
  | mk pkts rest =>
    obtain ⟨n, timeout⟩ := rest
    cases timeout with
    | false => simp
    | true =>
      dsimp only
      split_ifs <;> simp

namespace Cluster

variable {c next : Cluster} {action : ClusterAction} {k : Key}

/-- Nothing else is inserted with a packet. -/
theorem receive_insert {pkt other : Packet} {now : Timeval} {ring : ℕ → Message} {o : Option Node}
    (h : .insert other ∈ (c.receive pkt now ring o).1) : other = pkt := by
  rw [receive] at h
  have hnew : .insert other ∉ (c.newnode pkt now ring o).1 := by
    cases o with
    | some n => nofun
    | none =>
      rw [newnode]
      dsimp only
      split_ifs <;> simp
  cases hnode : c.newnode pkt now ring o with
  | mk entries n =>
    rw [hnode] at h hnew
    rcases accept_cases pkt now n with haccept | ⟨n', _, haccept | haccept⟩
    all_goals
      dsimp only at h hnew
      rw [haccept] at h
      simpa [hnew, settle_insert] using h

/-- A call inserts into the life of a node what it inserts for its key. -/
theorem step_received (hstep : c.step action = some next) {emitted : List Packet} (h : (c.life k).Received emitted)
    (haction : ∀ pkt now ring, action = .insert pkt now ring → key pkt = k → pkt ∈ emitted) :
    (next.life k).Received emitted := by
  rw [step_life hstep k]
  intro other hother
  cases action with
  | insert pkt now ring =>
    simp only [turn] at hother
    split_ifs at hother with hkey
    · cases List.mem_append.mp hother with
      | inl hbefore => exact h other hbefore
      | inr hreceive =>
        rw [receive_insert hreceive]
        exact haction pkt now ring rfl hkey.symm
    · exact h other hother
  | next now =>
    simp only [turn] at hother
    split at hother
    · cases List.mem_append.mp hother with
      | inl hbefore => exact h other hbefore
      | inr hsettle => exact absurd hsettle (settle_insert _ _ _)
    · exact h other hother

/-- A call does nothing to a node that it is not for. -/
theorem step_foreign (hstep : c.step action = some next) (h : c.life k = ⟨none, []⟩)
    (haction : ∀ pkt now ring, action = .insert pkt now ring → key pkt ≠ k) : next.life k = ⟨none, []⟩ := by
  rw [step_life hstep k, h]
  cases action with
  | insert pkt now ring => exact if_neg (haction pkt now ring rfl).symm
  | next now =>
    rw [turn]
    cases c.pending <;> rfl

/-- What is handed out is what the calls of `next` return. -/
theorem next_handed (now : Timeval) (c : Cluster) : (c.next now).1.handed = c.handed ++ (c.next now).2.toList := by
  have hpop (c : Cluster) : c.pop.1.handed = c.handed ++ c.pop.2.toList := by
    rw [pop]
    split
    · exact (List.append_nil _).symm
    · rfl
  rw [next]
  split_ifs
  · exact hpop (c.flush now)
  · exact hpop c

theorem insert_handed {pkt : Packet} {now : Timeval} {ring : ℕ → Message} {result : Bool}
    (h : c.insert pkt now ring = some (next, result)) : next.handed = c.handed := by
  simp only [insert] at h
  split_ifs at h
  simp only [Option.some.injEq, Prod.mk.injEq] at h
  rw [← h.1]
  rfl

end Cluster

namespace Peer

variable {p : Peer}

/-- A datagram that is received leaves the engine as it is, or inserts the packet that it carries. -/
theorem mrecv_cases {d : List UInt8} {pkts : Set Packet} (hd : d.length < packetsize ∨ ∃ pkt ∈ pkts, Carries d pkt)
    (now : Timeval) (ring : ℕ → Message) : p.mrecv d now ring = p ∨ ∃ pkt ∈ pkts, ∃ c,
      p.cluster.step (.insert pkt now ring) = some c ∧ c.handed = p.cluster.handed ∧
        p.mrecv d now ring = { p with cluster := c } := by
  rw [mrecv]
  rcases hd with hshort | ⟨pkt, hpkt, hlength, hdecode⟩
  · rw [if_neg (by rw [List.length_take]; omega)]
    exact .inl rfl
  · obtain ⟨pkt', hpkt', hseen⟩ := hdecode p.endian
    have htake : d.take packetsize = d := List.take_of_length_le hlength.le
    rw [htake, if_pos hlength, hpkt']
    dsimp only
    rw [hseen]
    cases hinsert : p.cluster.insert pkt now ring with
    | none => exact .inl rfl
    | some result =>
      have hstep : p.cluster.step (.insert pkt now ring) = some result.1 := by
        rw [Cluster.step, hinsert]
        rfl
      exact .inr ⟨pkt, hpkt, result.1, hstep, Cluster.insert_handed hinsert, rfl⟩

end Peer

namespace Group

variable {ι : Type} [DecidableEq ι] {keys : ι → Key} {g next : Group ι} {i j : ι}
  {f : Peer → Peer × List (List UInt8)}

/-- An engine sends. -/
theorem Sound.sends (h : g.Sound keys) (hsends : (g.peers i).Sends (f (g.peers i))) : (g.act i f).Sound keys := by
  have hcases (P : ι → Peer → Prop) (hself : P i (f (g.peers i)).1) (hother : ∀ j, P j (g.peers j)) (j : ι) :
      P j ((g.act i f).peers j) := by
    by_cases hj : j = i
    · rw [hj, act_self]
      exact hself
    · rw [act_other g f hj]
      exact hother j
  have hgrows (j : ι) : (g.peers j).emitted <+: ((g.act i f).peers j).emitted := by
    apply hcases (fun j p => (g.peers j).emitted <+: p.emitted) hsends.emitted
    exact fun j => List.prefix_rfl
  have hcluster (j : ι) : ((g.act i f).peers j).cluster = (g.peers j).cluster :=
    hcases (fun j p => p.cluster = (g.peers j).cluster) hsends.cluster (fun j => rfl) j
  have hreceived (j : ι) : ((g.act i f).peers j).received = (g.peers j).received :=
    hcases (fun j p => p.received = (g.peers j).received) hsends.received (fun j => rfl) j
  refine ⟨?_, ?_, ?_, ?_, ?_, ?_, ?_, ?_⟩
  · exact hcases (fun j p => p.key = keys j) (hsends.key.trans (h.key i)) h.key
  · exact hcases (fun j p => p.Numbered) hsends.numbered h.numbered
  · intro d hd
    cases List.mem_append.mp hd with
    | inl hbefore =>
      apply (h.wire d hbefore).imp_right
      rintro ⟨j, pkt, hpkt, hcarries⟩
      exact ⟨j, pkt, (hgrows j).subset hpkt, hcarries⟩
    | inr hsent =>
      apply (hsends.wire d hsent).imp_right
      rintro ⟨pkt, hpkt, hcarries⟩
      refine ⟨i, pkt, ?_, hcarries⟩
      rw [act_self]
      exact hpkt
  · intro j
    rw [hcluster]
    exact h.queued j
  · intro j k
    rw [hcluster]
    exact h.inOrder j k
  · intro j k pkt hpkt
    rw [hcluster] at hpkt
    exact (hgrows k).subset (h.received j k pkt hpkt)
  · intro j k hk
    rw [hcluster]
    exact h.foreign j k hk
  · intro j
    rw [hcluster, hreceived]
    exact h.sessions j

/-- An engine takes a call of its cluster, with a packet that some engine has emitted. -/
theorem Sound.calls (h : g.Sound keys) (hinj : Function.Injective keys) {action : ClusterAction} {c : Cluster}
    {received : List Packet} (hstep : (g.peers i).cluster.step action = some c) (hbound : Cluster.Bounded action)
    (haction : ∀ pkt now ring, action = .insert pkt now ring → ∃ j, pkt ∈ (g.peers j).emitted)
    (hsessions : received = c.handed.filter (·.type ≠ pkthbeat))
    (hf : f (g.peers i) = ({ g.peers i with cluster := c, received := received }, [])) : (g.act i f).Sound keys := by
  have hself : (g.act i f).peers i = { g.peers i with cluster := c, received := received } := by
    rw [act_self, hf]
  have hcases (P : ι → Peer → Prop) (hi : P i { g.peers i with cluster := c, received := received })
      (hother : ∀ j, P j (g.peers j)) (j : ι) : P j ((g.act i f).peers j) := by
    by_cases hj : j = i
    · rw [hj, hself]
      exact hi
    · rw [act_other g f hj]
      exact hother j
  have hemitted (j : ι) : ((g.act i f).peers j).emitted = (g.peers j).emitted :=
    hcases (fun j p => p.emitted = (g.peers j).emitted) rfl (fun j => rfl) j
  have hkey (j : ι) {pkt : Packet} (hpkt : pkt ∈ (g.peers j).emitted) : Aspp.key pkt = keys j :=
    ((h.numbered j).mem hpkt).1.trans (h.key j)
  refine ⟨?_, ?_, ?_, ?_, ?_, ?_, ?_, ?_⟩
  · exact hcases (fun j p => p.key = keys j) (h.key i) h.key
  · have hi := h.numbered i
    exact hcases (fun j p => p.Numbered) ⟨hi.name, hi.length, hi.packets⟩ h.numbered
  · intro d hd
    have hbefore : d ∈ g.wire := by
      rw [act, hf, List.append_nil] at hd
      exact hd
    simp only [hemitted]
    exact h.wire d hbefore
  · exact hcases (fun j p => p.cluster.Queued) ((h.queued i).step hstep) h.queued
  · apply hcases (fun j p => ∀ k, (p.cluster.life k).InOrder) _ h.inOrder
    exact fun k => Cluster.step_inOrder (h.inOrder i) hstep hbound k
  · intro j k
    rw [hemitted]
    revert k
    apply hcases (fun j p => ∀ k, (p.cluster.life (keys k)).Received (g.peers k).emitted) _ h.received j
    intro k
    apply Cluster.step_received hstep (h.received i k)
    intro pkt now ring heq hpkt
    obtain ⟨j', hj'⟩ := haction pkt now ring heq
    have hsame : j' = k := hinj ((hkey j' hj').symm.trans hpkt)
    rwa [← hsame]
  · apply hcases (fun j p => ∀ k, (∀ i, keys i ≠ k) → p.cluster.life k = ⟨none, []⟩) _ h.foreign
    intro k hk
    apply Cluster.step_foreign hstep (h.foreign i k hk)
    intro pkt now ring heq hpkt
    obtain ⟨j', hj'⟩ := haction pkt now ring heq
    exact hk j' ((hkey j' hj').symm.trans hpkt)
  · exact hcases (fun j p => p.received = p.cluster.handed.filter (·.type ≠ pkthbeat)) hsessions h.sessions

/-- The numbers that are taken are below a bound. -/
def Below (n : ℕ) (g : Group ι) : Prop := ∀ i, (g.peers i).packet.seqno ≤ n

theorem Below.sends {n : ℕ} (h : g.Below n) (hsends : (g.peers i).Sends (f (g.peers i))) :
    (g.act i f).Below (n + 1) := by
  intro j
  by_cases hj : j = i
  · rw [hj, act_self]
    exact hsends.seqno.trans (Nat.succ_le_succ (h i))
  · rw [act_other g f hj]
    exact (h j).trans (Nat.le_succ n)

theorem Below.calls {n : ℕ} (h : g.Below n) (hf : (f (g.peers i)).1.packet = (g.peers i).packet) :
    (g.act i f).Below (n + 1) := by
  intro j
  by_cases hj : j = i
  · rw [hj, act_self, hf]
    exact (h i).trans (Nat.le_succ n)
  · rw [act_other g f hj]
    exact (h j).trans (Nat.le_succ n)

theorem act_id (g : Group ι) (hf : f (g.peers i) = (g.peers i, [])) : g.act i f = g := by
  rw [act, hf, Function.update_eq_self, List.append_nil]

/-- One step. -/
theorem Sound.step (h : g.Sound keys) (hinj : Function.Injective keys) {n : ℕ} (hn : n < 2 ^ 62) (hbelow : g.Below n)
    {action : GroupAction ι} (hstep : g.step action = some next) : next.Sound keys ∧ next.Below (n + 1) := by
  have hroom (i : ι) : (g.peers i).packet.seqno + 1 < 2 ^ 64 := by
    have hle := hbelow i
    omega
  have hsend {i : ι} {f : Peer → Peer × List (List UInt8)} (hsends : (g.peers i).Sends (f (g.peers i)))
      (hnext : some (g.act i f) = some next) : next.Sound keys ∧ next.Below (n + 1) := by
    rw [← Option.some.inj hnext]
    exact ⟨h.sends hsends, hbelow.sends hsends⟩
  cases action with
  | join i results =>
    rw [Group.step] at hstep
    split_ifs at hstep
    exact hsend (Peer.join_sends (h.numbered i) (hroom i) results) hstep
  | emit i type data results => exact hsend (Peer.emit_sends (h.numbered i) (hroom i) type data results) hstep
  | heartbeat i results =>
    rw [Group.step] at hstep
    split_ifs at hstep
    exact hsend (Peer.heartbeat_sends (h.numbered i) (hroom i) results) hstep
  | teardown i results => exact hsend (Peer.teardown_sends (h.numbered i) (hroom i) results) hstep
  | stop i =>
    rw [Group.step] at hstep
    split_ifs at hstep
    have hi := h.numbered i
    apply hsend _ hstep
    exact ⟨⟨hi.name, hi.length, hi.packets⟩, rfl, Nat.le_succ _, rfl, rfl, List.prefix_rfl, by simp⟩
  | mrecv i d now ring =>
    rw [Group.step] at hstep
    split_ifs at hstep with henabled
    have hcarried : d.length < packetsize ∨ ∃ pkt ∈ {pkt | ∃ j, pkt ∈ (g.peers j).emitted}, Carries d pkt := by
      apply (h.wire d henabled.2).imp_right
      rintro ⟨j, pkt, hpkt, hcarries⟩
      exact ⟨pkt, ⟨j, hpkt⟩, hcarries⟩
    rw [← Option.some.inj hstep]
    rcases (g.peers i).mrecv_cases hcarried now ring with hsame | ⟨pkt, ⟨j, hpkt⟩, c, hcall, hhanded, hmrecv⟩
    · rw [act_id g (by rw [hsame])]
      exact ⟨h, fun j => (hbelow j).trans (Nat.le_succ n)⟩
    · constructor
      · apply h.calls hinj hcall _ _ _ (Prod.ext hmrecv rfl)
        · obtain ⟨-, -, m, hseqno, -, hm⟩ := (h.numbered j).mem hpkt
          have hle := hbelow j
          rw [Cluster.Bounded, hseqno]
          omega
        · intro other now' ring' heq
          cases heq
          exact ⟨j, hpkt⟩
        · rw [hhanded]
          exact h.sessions i
      · apply hbelow.calls
        dsimp only
        rw [hmrecv]
  | mflush i now =>
    rw [Group.step] at hstep
    split_ifs at hstep
    rw [← Option.some.inj hstep]
    have hcall : (g.peers i).cluster.step (.next now) = some ((g.peers i).cluster.next now).1 := rfl
    have hsessions : (g.peers i).received ++ ((g.peers i).cluster.next now).2.toList.filter (·.type ≠ pkthbeat) =
        ((g.peers i).cluster.next now).1.handed.filter (·.type ≠ pkthbeat) := by
      rw [Cluster.next_handed, List.filter_append, h.sessions i]
    exact ⟨h.calls hinj hcall trivial (by simp) hsessions rfl, hbelow.calls rfl⟩

/-- A run. -/
theorem Sound.run (hinj : Function.Injective keys) {actions : List (GroupAction ι)} {last : Group ι} {n : ℕ}
    (h : g.Sound keys) (hbelow : g.Below n) (hn : n + actions.length < 2 ^ 62)
    (hrun : run Group.step g actions = some last) : last.Sound keys := by
  induction actions generalizing g n with
  | nil =>
    rw [Lib.run, Option.some.injEq] at hrun
    rwa [← hrun]
  | cons action actions ih =>
    obtain ⟨next, hnext, hrest⟩ := run_cons_some hrun
    rw [List.length_cons] at hn
    obtain ⟨hsound, hless⟩ := h.step hinj (by omega) hbelow hnext
    exact ih hsound hless (by omega) hrest

end Group

/-! ## What is handed out -/

/-- The packets of a node that are queued behind its last creation. -/
def stream (entries : List Entry) : List Packet :=
  entries.foldl (fun pkts entry => match entry with
    | .create => []
    | .queue pkt => pkts ++ [pkt]
    | _ => pkts) []

/-- The packets of a node that are queued behind its last creation and behind the last gap packet. -/
def block (entries : List Entry) : List Packet :=
  entries.foldl (fun pkts entry => match entry with
    | .create => []
    | .queue pkt => pkts ++ [pkt]
    | .pushpacket type => if type = pktgap then [] else pkts
    | _ => pkts) []

/-- What has been queued, as a part of what has been emitted. -/
structure Partial (emitted : List Packet) (h : History) (stream block : List Packet) : Prop where
  inserted : ∀ seqno pkt, h.inserted seqno = some pkt → pkt ∈ emitted
  start : h.last = none → stream = [] ∧ block = []
  gap : h.gap = true → block = []
  sublist : stream.Sublist (emitted.take (h.last.getD 0))
  ending : block <:+ emitted.take (h.last.getD 0)

variable {emitted stream' block' : List Packet} {h : History} {pkt : Packet}

/-- A packet that follows is queued. -/
theorem Partial.queue (hpart : Partial emitted h stream' block') (hfollows : h.Follows pkt)
    (hnumbered : ∀ pkt ∈ emitted, ∃ n, pkt.seqno = n + 1 ∧ emitted[n]? = some pkt) :
    Partial emitted (h.next (.queue pkt)) (stream' ++ [pkt]) (block' ++ [pkt]) := by
  obtain ⟨hlast, hinserted⟩ := hfollows
  obtain ⟨n, hseqno, hn⟩ := hnumbered pkt (hpart.inserted _ _ hinserted)
  have htake : emitted.take (n + 1) = emitted.take n ++ [pkt] := by
    rw [List.take_add_one, hn]
    rfl
  have hle : h.last.getD 0 ≤ n := by
    cases hcase : h.last with
    | none => exact Nat.zero_le n
    | some last =>
      have hless := (hlast last hcase).1
      rw [hseqno] at hless
      exact Nat.le_of_lt_succ hless
  refine ⟨hpart.inserted, nofun, nofun, ?_, ?_⟩
  · rw [History.next, Option.getD_some, hseqno, htake]
    exact (hpart.sublist.trans (List.take_sublist_take_left hle)).append_right [pkt]
  · rw [History.next, Option.getD_some, hseqno, htake]
    have hempty : block' ≠ [] → h.last = some n := by
      intro hne
      cases hcase : h.last with
      | none => exact absurd (hpart.start hcase).2 hne
      | some last =>
        cases (hlast last hcase).2 with
        | inl hnext =>
          rw [hseqno, Nat.add_right_cancel_iff] at hnext
          rw [hnext]
        | inr hgap => exact absurd (hpart.gap hgap) hne
    by_cases hne : block' = []
    · rw [hne]
      exact List.suffix_append _ _
    · have hending := hpart.ending
      rw [hempty hne, Option.getD_some] at hending
      exact List.suffix_append_self_iff.mpr hending

/-- Nothing is a part of what has been emitted. -/
theorem partial_start : Partial emitted .start [] [] :=
  ⟨nofun, fun _ => ⟨rfl, rfl⟩, nofun, List.nil_sublist _, List.nil_suffix⟩

/-- Packets that are delivered in order are a part of what has been emitted. -/
theorem partial_history {entries : List Entry} (hdelivered : Delivered .start entries)
    (hreceived : ∀ pkt, .insert pkt ∈ entries → pkt ∈ emitted)
    (hnumbered : ∀ pkt ∈ emitted, ∃ n, pkt.seqno = n + 1 ∧ emitted[n]? = some pkt) :
    Partial emitted (history entries) (stream entries) (block entries) := by
  induction entries using List.reverseRecOn with
  | nil => exact partial_start
  | append_singleton entries entry ih =>
    rw [delivered_append] at hdelivered
    have hbefore := ih hdelivered.1 fun pkt hpkt => hreceived pkt (List.mem_append_left _ hpkt)
    rw [history, stream, block, List.foldl_concat, List.foldl_concat, List.foldl_concat]
    cases entry with
    | create => exact partial_start
    | erase => exact hbefore
    | insert pkt =>
      refine ⟨?_, hbefore.start, hbefore.gap, hbefore.sublist, hbefore.ending⟩
      intro seqno other hother
      have hupdate : Function.update (history entries).inserted pkt.seqno (some pkt) seqno = some other := hother
      rw [Function.update_apply] at hupdate
      split_ifs at hupdate with hseqno
      · rw [← Option.some.inj hupdate]
        exact hreceived pkt (List.mem_append_right _ (List.mem_singleton_self _))
      · exact hbefore.inserted seqno other hupdate
    | queue pkt => exact hbefore.queue (hdelivered.2.1 pkt rfl) hnumbered
    | pushpacket type =>
      by_cases hgap : type = pktgap
      · dsimp only [History.next]
        rw [if_pos hgap]
        exact ⟨hbefore.inserted, fun hstart => ⟨(hbefore.start hstart).1, rfl⟩, fun _ => rfl, hbefore.sublist,
          List.nil_suffix⟩
      · have hsame : (history entries).next (.pushpacket type) = history entries := by
          rw [History.next, beq_false_of_ne hgap, Bool.or_false]
        dsimp only
        rw [if_neg hgap, ← history, hsame]
        exact hbefore

/-- What an engine has been handed out of another one's packets is a part of them. -/
theorem Group.Sound.delivers {ι : Type} {keys : ι → Key} {g : Group ι} (h : g.Sound keys) (i j : ι)
    {entries : List Entry} (hentries : entries <+: outputs (keys i) (g.peers j).cluster.log) :
    (stream entries).Sublist (g.peers i).emitted ∧ block entries <:+: (g.peers i).emitted := by
  obtain ⟨more, hmore⟩ := hentries
  have hdelivered := (h.inOrder j (keys i)).1
  have hlog : (((g.peers j).cluster.life (keys i))).entries = entries ++ more := hmore.symm
  rw [hlog, delivered_append] at hdelivered
  have hpart : Partial (g.peers i).emitted (history entries) (stream entries) (block entries) := by
    apply partial_history hdelivered.1
    · intro pkt hpkt
      apply h.received j i
      rw [hlog]
      exact List.mem_append_left _ hpkt
    · intro pkt hpkt
      obtain ⟨-, -, n, hseqno, hn, -⟩ := (h.numbered i).mem hpkt
      exact ⟨n, hseqno, hn⟩
  exact ⟨hpart.sublist.trans (List.take_sublist _ _),
    hpart.ending.isInfix.trans (List.take_prefix _ _).isInfix⟩

namespace Group

variable {ι : Type} [DecidableEq ι]

omit [DecidableEq ι] in
theorem sound_create (engines : ι → Endian × List UInt8 × UInt32) (hbint : ℕ) :
    (create engines hbint).Sound fun i => ((create engines hbint).peers i).key where
  key _ := rfl
  numbered i := ⟨name_cut (engines i).2.1, rfl, nofun⟩
  wire := nofun
  queued _ := rfl
  inOrder _ _ := ⟨trivial, nofun⟩
  received _ _ := nofun
  foreign _ _ _ := rfl
  sessions _ := rfl

/-- Over any run of engines with different keys, for any loss, duplication and reordering of datagrams, what the
sessions of an engine receive is what its cluster queues, in its order and but for heartbeats; nothing is queued for
a node that is no engine; and the packets of an engine that are queued behind the last creation of its node are a
subsequence of those that it has emitted, and an unbroken part of them behind the last gap packet. -/
theorem group_delivers (engines : ι → Endian × List UInt8 × UInt32) (hbint : ℕ)
    (hinj : Function.Injective fun i => ((create engines hbint).peers i).key) (actions : List (GroupAction ι))
    (hlength : actions.length < 2 ^ 62) {last : Group ι}
    (hrun : run Group.step (create engines hbint) actions = some last) (j : ι) :
    ((last.peers j).received = (last.peers j).cluster.handed.filter (·.type ≠ pkthbeat) ∧
      (last.peers j).cluster.handed ++ (last.peers j).cluster.pending = (last.peers j).cluster.queued.map Prod.snd) ∧
    (∀ entry ∈ (last.peers j).cluster.log, ∃ i, (last.peers i).key = entry.1) ∧
    ∀ i entries, entries <+: outputs (last.peers i).key (last.peers j).cluster.log →
      (stream entries).Sublist (last.peers i).emitted ∧ block entries <:+: (last.peers i).emitted := by
  have hbelow : (create engines hbint).Below 0 := fun _ => le_rfl
  have hsound := (sound_create engines hbint).run hinj hbelow (by rwa [Nat.zero_add]) hrun
  refine ⟨⟨hsound.sessions j, hsound.queued j⟩, ?_, ?_⟩
  · intro entry hentry
    by_contra hnone
    push Not at hnone
    have hforeign := hsound.foreign j entry.1 fun i hi => hnone i ((hsound.key i).trans hi)
    have hempty : outputs entry.1 (last.peers j).cluster.log = [] := congrArg Life.entries hforeign
    have hmem : entry.2 ∈ outputs entry.1 (last.peers j).cluster.log :=
      List.mem_filterMap.mpr ⟨entry, hentry, if_pos rfl⟩
    rw [hempty] at hmem
    cases hmem
  · intro i entries hentries
    rw [hsound.key i] at hentries
    exact hsound.delivers i j hentries

/-- The up packet of one engine is lost on the way to another one, and the next packet is received. -/
def crossing : List (GroupAction Bool) :=
  let wire := (encodepacket ⟨.little, 8, long_le_eight⟩ (setpacket [97] 1 4 2 [104, 105]) (List.replicate packetsize 0)).getD []
  let ring := fun _ => ⟨setpacket [] 0 0 0 [], ⟨0, 0⟩⟩
  [.join false [some 516], .join true [none], .emit false 4 [104, 105] [some 516], .mrecv true wire ⟨10, 0⟩ ring,
    .mflush true ⟨11, 0⟩, .mflush true ⟨14, 0⟩]

/-- Two engines, of which one has a host of the other byte order. -/
def pair : Bool → Endian × List UInt8 × UInt32
  | false => (.little, [97], 1)
  | true => (.big, [98], 1)

theorem crossing_received : (run Group.step (create pair 2000) crossing).map (fun last =>
    (last.peers true).received.map fun pkt => (pkt.type, pkt.seqno, pkt.data)) =
      some [(1, 0, []), (4, 2, [104, 105])] := by
  decide +kernel

theorem group_delivers_crossing : ∃ last, run Group.step (create pair 2000) crossing = some last ∧
    (last.peers true).received.map (fun pkt => (pkt.type, pkt.seqno, pkt.data)) = [(1, 0, []), (4, 2, [104, 105])] ∧
    ∀ entries, entries <+: outputs (last.peers false).key (last.peers true).cluster.log →
      (stream entries).Sublist (last.peers false).emitted ∧ block entries <:+: (last.peers false).emitted := by
  have hreceived := crossing_received
  have hinj : Function.Injective fun i => ((create pair 2000).peers i).key := by
    intro i j hij
    cases i <;> cases j
    · rfl
    · exact absurd hij (by decide)
    · exact absurd hij (by decide)
    · rfl
  have hlength : crossing.length < 2 ^ 62 := by decide +kernel
  have hdelivers (last : Group Bool) (hrun : run Group.step (create pair 2000) crossing = some last) :=
    (group_delivers pair 2000 hinj crossing hlength hrun true).2.2 false
  generalize run Group.step (create pair 2000) crossing = result at hreceived hdelivers
  cases result with
  | none => cases hreceived
  | some last => exact ⟨last, rfl, Option.some.inj hreceived, hdelivers last rfl⟩

end Group

end Aug.Aspp
