import Aug.Aspp.ClusterNodes

/-!
# Membership of a cluster

The client is to see each node come up, send, and go down, again and again. That holds exactly as long as
the windows put up packets in the first place and nowhere else, and no packet runs over the window of a node
that is down or silent.
-/

namespace Aug.Aspp

open Aug.Lib Aug.Net Aug.Sys OrderedMap

/-- The types of packets between up and down. -/
def Inner (type : ℕ) : Prop := type = pktuser ∨ type = pkthbeat ∨ type = pktgap

instance (type : ℕ) : Decidable (Inner type) := inferInstanceAs (Decidable (_ ∨ _))

/-- Incarnations one after another, the last of which may be unfinished. -/
inductive Incarnations : List ℕ → Prop
  | nil : Incarnations []
  | unfinished (body : List ℕ) : (∀ type ∈ body, Inner type) → Incarnations (pktup :: body)
  | cons (body rest : List ℕ) : (∀ type ∈ body, Inner type) → Incarnations rest →
    Incarnations (pktup :: body ++ pktdown :: rest)

/-- Whether a node is up after one more packet, if the packet is in place. -/
def phase : Option Bool → ℕ → Option Bool
  | some false, type => if type = pktup then some true else none
  | some true, type => if type = pktdown then some false else if Inner type then some true else none
  | none, _ => none

/-- Whether a node is up after some packets, if they are all in place. -/
def phases (state : Option Bool) (types : List ℕ) : Option Bool := types.foldl phase state

@[simp] theorem phases_none (types : List ℕ) : phases none types = none := by
  induction types with
  | nil => rfl
  | cons type types ih => exact ih

theorem phases_append (state : Option Bool) (types types' : List ℕ) :
    phases state (types ++ types') = phases (phases state types) types' :=
  List.foldl_append

theorem phases_cons (state : Option Bool) (type : ℕ) (types : List ℕ) :
    phases state (type :: types) = phases (phase state type) types := rfl

theorem phases_inner {body : List ℕ} (h : ∀ type ∈ body, Inner type) :
    phases (some true) body = some true := by
  induction body with
  | nil => rfl
  | cons type body ih =>
    have htype := h type List.mem_cons_self
    have hdown : type ≠ pktdown := by
      rintro rfl
      revert htype
      decide
    rw [phases_cons, phase, if_neg hdown, if_pos htype]
    exact ih fun t ht => h t (List.mem_cons_of_mem type ht)

/-- The packets are incarnations if and only if they are all in place. -/
theorem incarnations_iff (types : List ℕ) :
    Incarnations types ↔ phases (some false) types ≠ none := by
  constructor
  · intro h
    induction h with
    | nil => nofun
    | unfinished body hbody =>
      rw [phases_cons, phase, if_pos rfl, phases_inner hbody]
      nofun
    | cons body rest hbody _ ih =>
      rw [List.cons_append, phases_cons, phase, if_pos rfl, phases_append, phases_inner hbody, phases_cons,
        phase, if_pos rfl]
      exact ih
  · have hboth : (phases (some false) types ≠ none → Incarnations types) ∧
        (phases (some true) types ≠ none → (∀ type ∈ types, Inner type) ∨
          ∃ body rest, (∀ type ∈ body, Inner type) ∧ types = body ++ pktdown :: rest ∧
            Incarnations rest) := by
      induction types with
      | nil => exact ⟨fun _ => .nil, fun _ => .inl nofun⟩
      | cons type types ih =>
        obtain ⟨hclosed, hopen⟩ := ih
        simp only [phases_cons, phase]
        constructor
        · split_ifs with hup
          · intro h
            rw [hup]
            rcases hopen h with hbody | ⟨body, rest, hbody, rfl, hrest⟩
            · exact .unfinished types hbody
            · exact .cons body rest hbody hrest
          · simp
        · split_ifs with hdown hinner
          · intro h
            exact .inr ⟨[], types, nofun, by rw [hdown]; rfl, hclosed h⟩
          · intro h
            rcases hopen h with hbody | ⟨body, rest, hbody, rfl, hrest⟩
            · exact .inl (List.forall_mem_cons.mpr ⟨hinner, hbody⟩)
            · exact .inr ⟨type :: body, rest, List.forall_mem_cons.mpr ⟨hinner, hbody⟩, rfl, hrest⟩
          · simp
    exact hboth.1

/-- The packets up to the first down packet. -/
def upTo : List Packet → List Packet
  | [] => []
  | pkt :: pkts => if pkt.type = pktdown then [pkt] else pkt :: upTo pkts

/-- The packets in front of the first down packet are inner ones. -/
def Orderly (pkts : List Packet) : Prop := ∀ pkt ∈ pkts.takeWhile (·.type ≠ pktdown), Inner pkt.type

/-- What becomes of a node that is up. -/
theorem phases_upTo (pkts : List Packet) :
    (Orderly pkts → phases (some true) ((upTo pkts).map Packet.type) =
      some ((upTo pkts).all (·.type ≠ pktdown))) ∧
    (¬Orderly pkts → phases (some true) ((upTo pkts).map Packet.type) = none) := by
  induction pkts with
  | nil =>
    refine ⟨fun _ => rfl, fun h => absurd ?_ h⟩
    simp [Orderly]
  | cons pkt pkts ih =>
    obtain ⟨hgood, hbad⟩ := ih
    unfold upTo
    by_cases hdown : pkt.type = pktdown
    · have horderly : Orderly (pkt :: pkts) := by simp [Orderly, hdown]
      refine ⟨fun _ => ?_, fun h => absurd horderly h⟩
      rw [if_pos hdown]
      simp [phase, hdown, phases]
    · have horderly : Orderly (pkt :: pkts) ↔ Inner pkt.type ∧ Orderly pkts := by
        simp [Orderly, hdown]
      rw [if_neg hdown, List.map_cons, phases_cons, phase, if_neg hdown, horderly]
      by_cases hinner : Inner pkt.type
      · rw [if_pos hinner]
        constructor
        · intro h
          rw [hgood h.2]
          simp [hdown]
        · intro h
          exact hbad fun hrest => h ⟨hinner, hrest⟩
      · rw [if_neg hinner]
        exact ⟨fun h => absurd h.1 hinner, fun _ => phases_none _⟩

/-- The packets that are in line in a window, one after another. -/
def Window.line : ℕ → Window → List Packet
  | 0, _ => []
  | rounds + 1, w =>
    match w.next with
    | some (m, w) => m.pkt :: w.line rounds
    | none => []

namespace Node

/-- The packets that are in line for the client at some time: an expired window that is not ready is flushed
before. -/
def line (now : Timeval) (n : Node) (rounds : ℕ) : List Packet :=
  if n.window.ready = false ∧ tvbefore now n.expiry then n.window.flush.line rounds
  else n.window.line rounds

/-- A node whose window is ready has been silent for too long. -/
def TimesOut (now : Timeval) (n : Node) : Prop :=
  n.window.ready = true ∧ n.window.empty = true ∧ tvbefore now n.expiry = true

variable {n : Node} {now : Timeval}

theorem next_ready {w w' : Window} {m : Message} (h : w.next = some (m, w')) :
    w.ready = true ∧ w'.ready = true ∧ w.empty = false := by
  unfold Window.next at h
  split_ifs at h with hempty
  simp only [Option.some.injEq, Prod.mk.injEq] at h
  have hready : w.ready = true := by
    by_contra hnot
    simp [Window.empty, hnot] at hempty
  rw [← h.2]
  exact ⟨hready, hready, by simpa using hempty⟩

theorem next_eq_none {w : Window} : w.next = none ↔ w.empty = true := by
  unfold Window.next
  split_ifs with hempty <;> simp [hempty]

/-- A node that is down stays so while packets are discarded. -/
theorem discard_down (rounds : ℕ) (hdown : n.down = true) : (n.discard now rounds).1.down = true := by
  induction rounds generalizing n with
  | zero => exact hdown
  | succ rounds ih =>
    have hflushes : ∀ m, n.Flushes m → m.down = true := by
      rintro m (rfl | ⟨-, rfl⟩) <;> exact hdown
    unfold Node.discard
    rcases n.next_cases now with ⟨-, m, htimeout, hm⟩ | ⟨m, hflush, htake | hnone⟩
    · rw [htimeout]
      exact hm.trans hdown
    · rw [htake]
      rcases m.take_cases with ⟨-, hstay⟩ | ⟨_, _, n', -, hpacket, -, hdown'⟩
      · rw [hstay]
        exact hflushes m hflush
      · rw [hpacket]
        apply ih
        rw [hdown', hflushes m hflush]
        rfl
    · rw [hnone]
      exact hflushes m hflush

theorem push_down (now : Timeval) (rounds : ℕ) (hdown : n.down = true) : (n.push now rounds).1 = [] ∧
    (n.push now rounds).2.1.down = true := by
  cases rounds with
  | zero => exact ⟨rfl, hdown⟩
  | succ rounds =>
    unfold Node.push
    rw [if_pos hdown]
    exact ⟨rfl, discard_down (rounds + 1) hdown⟩

/-- A ready window with nothing in line leads to a timeout or to nothing. -/
theorem next_of_none (now : Timeval) (hready : n.window.ready = true) (hnext : n.window.next = none) :
    ∃ m, m.down = n.down ∧ n.next now = (m, if tvbefore now n.expiry then .timeout else .none) := by
  unfold Node.next
  rw [if_pos (next_eq_none.mp hnext)]
  dsimp only
  rw [if_pos hready]
  split_ifs
  · exact ⟨{ n with expiry := n.expiry.tvadd n.timeout, window := n.window.drop }, rfl, rfl⟩
  · exact ⟨n, rfl, rfl⟩

/-- What is in line in a window is what a call of `next` returns. -/
theorem next_of_some {m : Message} {w : Window} (now : Timeval) (hnext : n.window.next = some (m, w)) :
    ∃ n', n.next now = (n', .packet m.pkt) ∧ n'.window = w ∧
      n'.down = (n.down || m.pkt.type == pktdown) := by
  rcases n.take_cases with ⟨hnone, -⟩ | ⟨m', w', n', hsome, htake, hwindow, hdown⟩
  · rw [hnone] at hnext
    cases hnext
  · rw [hnext, Option.some.injEq, Prod.mk.injEq] at hsome
    obtain ⟨rfl, rfl⟩ := hsome
    have hempty := (next_ready hnext).2.2
    refine ⟨n', ?_, hwindow, hdown⟩
    unfold Node.next
    rw [if_neg (by simp [hempty]), htake]

/-- What the loop pushes for a node whose window is ready is in line up to the first down packet. -/
theorem push_ready (rounds : ℕ) (now : Timeval) (hready : n.window.ready = true) (hdown : n.down = false) :
    (n.push now rounds).1 = upTo (n.window.line rounds) ∧
      (n.push now rounds).2.1.down = !(upTo (n.window.line rounds)).all (·.type ≠ pktdown) := by
  induction rounds generalizing n with
  | zero => exact ⟨rfl, by simpa [Node.push, Window.line, upTo] using hdown⟩
  | succ rounds ih =>
    unfold Node.push Window.line
    rw [if_neg (by simp [hdown])]
    cases hnext : n.window.next with
    | none =>
      obtain ⟨m, hm, hcall⟩ := next_of_none now hready hnext
      rw [hcall]
      split_ifs <;> exact ⟨rfl, by simp [upTo, hm, hdown]⟩
    | some result =>
      obtain ⟨m, w⟩ := result
      obtain ⟨n', hcall, hwindow, hdown'⟩ := next_of_some now hnext
      rw [hcall]
      rw [hdown, Bool.false_or] at hdown'
      dsimp only
      by_cases htype : m.pkt.type = pktdown
      · have hn' : n'.down = true := by rw [hdown']; simpa using htype
        obtain ⟨hpkts, hstays⟩ := push_down now rounds hn'
        rw [hpkts, hstays]
        simp [upTo, htype]
      · have hn' : n'.down = false := by rw [hdown']; simpa using htype
        have hready' : n'.window.ready = true := by rw [hwindow]; exact (next_ready hnext).2.1
        obtain ⟨hpkts, hrest⟩ := ih hready' hn'
        rw [hpkts, hrest, hwindow]
        simp [upTo, htype]

theorem line_eq_nil {w : Window} {rounds : ℕ} : w.line (rounds + 1) = [] ↔ w.next = none := by
  unfold Window.line
  cases w.next <;> simp

/-- What the loop pushes for a node that is not down is in line up to the first down packet, and with
nothing in line it ends with a timeout only if the node has been silent. -/
theorem push_spec (rounds : ℕ) (now : Timeval) (hdown : n.down = false) :
    (n.push now (rounds + 1)).1 = upTo (n.line now (rounds + 1)) ∧
      (n.push now (rounds + 1)).2.1.down = !(upTo (n.line now (rounds + 1))).all (·.type ≠ pktdown) ∧
      (n.line now (rounds + 1) = [] → ((n.push now (rounds + 1)).2.2 = true ↔ n.TimesOut now)) := by
  have hnot : ¬n.down = true := by simp [hdown]
  cases hready : n.window.ready with
  | true =>
    have hline : n.line now (rounds + 1) = n.window.line (rounds + 1) := by simp [line, hready]
    obtain ⟨hpkts, hstays⟩ := push_ready (rounds + 1) now hready hdown
    rw [hline]
    refine ⟨hpkts, hstays, ?_⟩
    intro hnil
    have hnext := line_eq_nil.mp hnil
    obtain ⟨m, -, hcall⟩ := next_of_none now hready hnext
    unfold Node.push TimesOut
    rw [if_neg hnot, hcall, hready, next_eq_none.mp hnext]
    split_ifs with hexpired <;> simp [hexpired]
  | false =>
    have hempty : n.window.empty = true := by simp [Window.empty, hready]
    have hsilent : ¬n.TimesOut now := by simp [TimesOut, hready]
    by_cases hexpired : tvbefore now n.expiry = true
    · have hline : n.line now (rounds + 1) = n.window.flush.line (rounds + 1) := by
        simp [line, hready, hexpired]
      have hflushed : n.window.flush.ready = true := rfl
      rw [hline]
      cases hnext : n.window.flush.next with
      | none =>
        have hcall : n.next now =
            ({ n with expiry := n.expiry.tvadd n.timeout, window := n.window.flush }, .none) := by
          simp [Node.next, hempty, hexpired, hready, next_eq_none.mp hnext]
        rw [line_eq_nil.mpr hnext]
        unfold Node.push
        rw [if_neg hnot, hcall]
        exact ⟨rfl, by simpa [upTo] using hdown, fun _ => by simp [hsilent]⟩
      | some result =>
        obtain ⟨m, w⟩ := result
        have hsame : n.push now (rounds + 1) =
            push now (rounds + 1)
              { n with expiry := n.expiry.tvadd n.timeout, window := n.window.flush } := by
          have hfull : n.window.flush.empty = false := (next_ready hnext).2.2
          unfold Node.push
          simp [Node.next, hempty, hexpired, hready, hfull, hdown]
        rw [hsame]
        obtain ⟨hpkts, hstays⟩ := push_ready (n := { n with
          expiry := n.expiry.tvadd n.timeout, window := n.window.flush }) (rounds + 1) now hflushed hdown
        refine ⟨hpkts, hstays, ?_⟩
        intro hnil
        rw [line_eq_nil.mp hnil] at hnext
        cases hnext
    · have hline : n.line now (rounds + 1) = [] := by
        rw [line, if_neg (by simp [hexpired]), line_eq_nil, next_eq_none, hempty]
      have hcall : n.next now = (n, .none) := by simp [Node.next, hempty, hexpired]
      rw [hline]
      unfold Node.push
      rw [if_neg hnot, hcall]
      exact ⟨rfl, by simpa [upTo] using hdown, fun _ => by simp [hsilent]⟩

end Node

/-- The type of the packet that an entry queues. -/
def Entry.type : Entry → Option ℕ
  | .queue pkt => some pkt.type
  | .pushpacket type => some type
  | _ => none

/-- The types of the packets that some entries queue. -/
def types (entries : List Entry) : List ℕ := entries.filterMap Entry.type

/-- Whether nothing has been queued for a node since its creation. -/
def silent (entries : List Entry) : Bool :=
  entries.foldl (fun silent entry => match entry with
    | .create => true
    | .queue _ => false
    | .pushpacket _ => false
    | _ => silent) false

/-- The packets in line for a node are in place: up is the first of all that is queued for the node, and
is not queued again. -/
def Placed (silent : Bool) : List Packet → Prop
  | [] => True
  | pkt :: pkts => if silent then pkt.type = pktup ∧ Orderly pkts else Orderly (pkt :: pkts)

/-- Settling a node breaks its membership: packets in line are out of place, or the node times out before
anything has been queued for it. -/
def Misplaces (now : Timeval) (n : Node) (silent : Bool) : Prop :=
  n.down = false ∧ (¬Placed silent (n.line now (n.window.count + 1)) ∨
    silent = true ∧ n.line now (n.window.count + 1) = [] ∧ n.TimesOut now)

/-- Whether the client is to see a node as up. -/
def Life.up (life : Life) : Bool := life.node.any fun n => !n.down && !silent life.entries

/-- What the client has been told of a node is what the cluster believes. -/
def Life.Agrees (life : Life) : Prop := phases (some false) (types life.entries) = some life.up

theorem types_append (entries entries' : List Entry) :
    types (entries ++ entries') = types entries ++ types entries' :=
  List.filterMap_append

theorem types_queue (pkts : List Packet) : types (pkts.map .queue) = pkts.map Packet.type := by
  simp [types, Entry.type, Function.comp_def]

/-- Once a packet has been queued a node is not silent. -/
theorem silent_queue (entries : List Entry) (pkts : List Packet) :
    silent (entries ++ pkts.map .queue) = (silent entries && pkts.isEmpty) := by
  unfold silent
  rw [List.foldl_append]
  cases pkts with
  | nil => simp
  | cons pkt pkts =>
    simp only [List.map_cons, List.foldl_cons, List.isEmpty_cons, Bool.and_false]
    induction pkts with
    | nil => rfl
    | cons pkt pkts ih => exact ih

@[simp] theorem placed_up (pkts : List Packet) : Placed false pkts ↔ Orderly pkts := by
  cases pkts with
  | nil => simp [Placed, Orderly]
  | cons pkt pkts => simp [Placed]

/-- What becomes of a node when the packets in line are queued. -/
theorem phases_placed (silent : Bool) (line : List Packet) :
    (Placed silent line → phases (some !silent) ((upTo line).map Packet.type) =
      some (!(silent && (upTo line).isEmpty) && (upTo line).all (·.type ≠ pktdown))) ∧
    (¬Placed silent line → phases (some !silent) ((upTo line).map Packet.type) = none) := by
  cases silent with
  | false =>
    rw [placed_up]
    exact phases_upTo line
  | true =>
    cases line with
    | nil => exact ⟨fun _ => rfl, fun h => absurd trivial h⟩
    | cons pkt pkts =>
      obtain ⟨hgood, hbad⟩ := phases_upTo pkts
      by_cases hup : pkt.type = pktup
      · have hne : pkt.type ≠ pktdown := by
          rw [hup]
          decide
        have hplaced : Placed true (pkt :: pkts) ↔ Orderly pkts := by simp [Placed, hup]
        have hfirst : phases (some !true) ((upTo (pkt :: pkts)).map Packet.type) =
            phases (some true) ((upTo pkts).map Packet.type) := by
          rw [upTo, if_neg hne, List.map_cons, phases_cons, Bool.not_true, phase, if_pos hup]
        rw [hplaced, hfirst]
        refine ⟨?_, hbad⟩
        intro horderly
        rw [hgood horderly]
        simp [upTo, hne]
      · have hplaced : ¬Placed true (pkt :: pkts) := by simp [Placed, hup]
        refine ⟨fun h => absurd h hplaced, fun _ => ?_⟩
        unfold upTo
        split_ifs <;> rw [List.map_cons, phases_cons, Bool.not_true, phase, if_neg hup, phases_none]

/-- The types of what settling a node queues. -/
theorem types_settle (now : Timeval) (n : Node) (entries : List Entry) :
    types (entries ++ (settle now n).1) = types entries ++ ((n.pushall now).1.map Packet.type ++
      if (n.pushall now).2.2 ∧ (n.pushall now).2.1.down = false then [pktdown] else []) := by
  rw [types_append]
  unfold settle
  split
  case h_1 pkts n' hpush => simp [hpush, types_queue]
  case h_2 pkts n' hpush =>
    rw [List.append_assoc, types_append, types_queue]
    cases hdown : n'.down <;> simp [hpush, hdown, types, Entry.type]

/-- Whether a node is to be seen as up once it has been settled. -/
theorem up_settle (now : Timeval) (n : Node) (entries : List Entry) :
    Life.up ⟨(settle now n).2, entries ++ (settle now n).1⟩ =
      (!(n.pushall now).2.2 && !(n.pushall now).2.1.down &&
        !(silent entries && (n.pushall now).1.isEmpty)) := by
  unfold Life.up settle
  split
  case h_1 pkts n' hpush => simp [hpush, silent_queue]
  case h_2 pkts n' hpush => simp [hpush]

/-- A synthetic down packet ends an incarnation that is not at its end. -/
theorem phases_finish (up : Bool) (timeout : Bool) :
    phases (some up) (if timeout = true ∧ (!up) = false then [pktdown] else []) =
      some (!timeout && up) := by
  cases up <;> cases timeout <;> rfl

/-- Settling a node keeps to the membership if and only if it does not break it. -/
theorem settle_agrees (now : Timeval) {n : Node} {entries : List Entry}
    (h : Life.Agrees ⟨some n, entries⟩) :
    (¬Misplaces now n (silent entries) →
      Life.Agrees ⟨(settle now n).2, entries ++ (settle now n).1⟩) ∧
    (Misplaces now n (silent entries) →
      phases (some false) (types (entries ++ (settle now n).1)) = none) := by
  unfold Life.Agrees Life.up at h
  rw [Option.any_some] at h
  unfold Life.Agrees
  rw [up_settle, types_settle]
  rw [phases_append, phases_append, h]
  cases hdown : n.down with
  | true =>
    obtain ⟨hpkts, hstays⟩ := Node.push_down now (n.window.count + 1) hdown
    unfold Node.pushall
    rw [hpkts, hstays]
    exact ⟨fun _ => by simp [phases], fun hbad => by simp [Misplaces, hdown] at hbad⟩
  | false =>
    obtain ⟨hpkts, hstays, htimeout⟩ := Node.push_spec n.window.count now hdown
    unfold Node.pushall Misplaces
    rw [hpkts, hstays]
    generalize (n.push now (n.window.count + 1)).2.2 = timeout at htimeout ⊢
    generalize n.line now (n.window.count + 1) = line at htimeout ⊢
    obtain ⟨hgood, hbad⟩ := phases_placed (silent entries) line
    rw [Bool.not_false, Bool.true_and]
    by_cases hplaced : Placed (silent entries) line
    · rw [hgood hplaced, Bool.not_not]
      by_cases hempty : silent entries = true ∧ line = []
      · obtain ⟨hsilent, rfl⟩ := hempty
        have htimes := htimeout rfl
        cases timeout with
        | true =>
          have hout := htimes.mp rfl
          refine ⟨fun hnot => absurd ⟨hdown, .inr ⟨hsilent, rfl, hout⟩⟩ hnot, fun _ => ?_⟩
          simp [hsilent, upTo, phases, phase, pktdown, pktup]
        | false =>
          refine ⟨fun _ => by simp [hsilent, upTo, phases], ?_⟩
          rintro ⟨-, hnot | ⟨-, -, hout⟩⟩
          · exact absurd hplaced hnot
          · simpa using htimes.mpr hout
      · have hqueued : (silent entries && (upTo line).isEmpty) = false := by
          cases line with
          | nil => simpa [upTo] using hempty
          | cons pkt pkts =>
            unfold upTo
            split_ifs <;> simp
        rw [hqueued, Bool.not_false, Bool.true_and, Bool.and_true]
        refine ⟨fun _ => phases_finish _ timeout, ?_⟩
        rintro ⟨-, hnot | ⟨hsilent, hnil, -⟩⟩
        · exact absurd hplaced hnot
        · exact absurd ⟨hsilent, hnil⟩ hempty
    · refine ⟨fun hnot => absurd ⟨hdown, .inl hplaced⟩ hnot, fun _ => ?_⟩
      rw [hbad hplaced, phases_none]

/-- A packet breaks the membership of its node: it runs over the window of a node that is down or for which
nothing has been queued, or what is in line after it is out of place. -/
def Misreceives (pkt : Packet) (now : Timeval) (n : Node) (silent : Bool) : Prop :=
  match Cluster.accept pkt now n with
  | none => False
  | some ([], n) => Misplaces now n silent
  | some (_, n) => n.down = true ∨ silent = true ∨ Misplaces now n false

/-- An accepted packet leaves the node up or down as it was. -/
theorem accept_cases (pkt : Packet) (now : Timeval) (n : Node) : Cluster.accept pkt now n = none ∨
    ∃ n', n'.down = n.down ∧ (Cluster.accept pkt now n = some ([], n') ∨
      Cluster.accept pkt now n = some ([.pushpacket pktgap], n')) := by
  unfold Cluster.accept Node.insert
  cases n.window.insert pkt now with
  | ok window => exact .inr ⟨{ n with window }, rfl, .inl rfl⟩
  | error e =>
    cases e with
    | underflow => exact .inl rfl
    | overflow =>
      dsimp only [Except.map]
      cases (n.reset now).window.insert pkt now with
      | ok window => exact .inr ⟨{ n.reset now with window }, rfl, .inr rfl⟩
      | error e => exact .inl rfl

theorem silent_insert (entries : List Entry) (pkt : Packet) :
    silent (entries ++ [.insert pkt]) = silent entries := by
  simp [silent]

theorem types_insert (entries : List Entry) (pkt : Packet) :
    types (entries ++ [.insert pkt]) = types entries := by
  simp [types, Entry.type]

/-- A node that has just been entered agrees with what the client has been told. -/
theorem newnode_agrees {life : Life} (h : life.Agrees) (pkt : Packet) (now : Timeval) (ring : ℕ → Message)
    (c : Cluster) : Life.Agrees ⟨some (c.newnode pkt now ring life.node).2,
      life.entries ++ (c.newnode pkt now ring life.node).1⟩ := by
  unfold Life.Agrees Life.up at h ⊢
  cases hnode : life.node with
  | some n =>
    rw [hnode] at h
    simpa [Cluster.newnode] using h
  | none =>
    rw [hnode, Option.any_none] at h
    dsimp only
    rw [types_append, phases_append, h]
    unfold Cluster.newnode
    split_ifs <;> simp [types, Entry.type, silent, Node.create] <;> rfl

/-- What a node does with a packet keeps to the membership if and only if it does not break it. -/
theorem receive_agrees {life : Life} (h : life.Agrees) (pkt : Packet) (now : Timeval) (ring : ℕ → Message)
    (c : Cluster) :
    (¬Misreceives pkt now (c.newnode pkt now ring life.node).2
        (silent (life.entries ++ (c.newnode pkt now ring life.node).1)) →
      Life.Agrees ⟨(c.receive pkt now ring life.node).2.1,
        life.entries ++ (c.receive pkt now ring life.node).1⟩) ∧
    (Misreceives pkt now (c.newnode pkt now ring life.node).2
        (silent (life.entries ++ (c.newnode pkt now ring life.node).1)) →
      phases (some false) (types (life.entries ++ (c.receive pkt now ring life.node).1)) = none) := by
  have henter := newnode_agrees h pkt now ring c
  unfold Cluster.receive Misreceives
  generalize c.newnode pkt now ring life.node = entered at henter ⊢
  obtain ⟨entries, n⟩ := entered
  dsimp only at henter ⊢
  generalize hbefore : life.entries ++ entries = before at henter ⊢
  rcases accept_cases pkt now n with hnone | ⟨n', hdown, hok | hgap⟩
  · rw [hnone]
    dsimp only
    rw [← List.append_assoc, hbefore]
    refine ⟨fun _ => ?_, False.elim⟩
    unfold Life.Agrees Life.up at henter ⊢
    dsimp only at henter ⊢
    rw [types_insert, silent_insert]
    exact henter
  · have hinsert : Life.Agrees ⟨some n', before ++ [.insert pkt]⟩ := by
      unfold Life.Agrees Life.up at henter ⊢
      dsimp only at henter ⊢
      rw [types_insert, silent_insert, henter, Option.any_some, Option.any_some, hdown]
    have hsettle := settle_agrees now hinsert
    rw [silent_insert] at hsettle
    rw [hok]
    dsimp only
    rw [← List.append_assoc, hbefore, List.nil_append, List.append_cons]
    exact hsettle
  · have htypes : types (before ++ [.insert pkt, .pushpacket pktgap]) = types before ++ [pktgap] := by
      rw [types_append]
      rfl
    have hsilent : silent (before ++ [.insert pkt, .pushpacket pktgap]) = false := by simp [silent]
    have hsplit : before ++ .insert pkt :: ([.pushpacket pktgap] ++ (settle now n').1) =
        before ++ [.insert pkt, .pushpacket pktgap] ++ (settle now n').1 := by simp
    unfold Life.Agrees Life.up at henter
    rw [Option.any_some] at henter
    rw [hgap]
    dsimp only
    rw [← List.append_assoc, hbefore, hsplit]
    by_cases hup : (!n.down && !silent before) = true
    · have hinsert : Life.Agrees ⟨some n', before ++ [.insert pkt, .pushpacket pktgap]⟩ := by
        unfold Life.Agrees Life.up
        rw [htypes, phases_append, henter, hup, hsilent, Option.any_some, hdown]
        rw [Bool.and_eq_true] at hup
        rw [hup.1]
        rfl
      have hsettle := settle_agrees now hinsert
      rw [hsilent] at hsettle
      simp only [Bool.and_eq_true, Bool.not_eq_true'] at hup
      simpa [hdown, hup.1, hup.2] using hsettle
    · have hbroken : phases (some false) (types (before ++ [.insert pkt, .pushpacket pktgap])) = none := by
        rw [htypes, phases_append, henter, Bool.not_eq_true _ |>.mp hup]
        rfl
      refine ⟨fun hnot => absurd ?_ hup, fun _ => ?_⟩
      · rw [not_or, not_or] at hnot
        rw [hdown] at hnot
        simpa using And.intro hnot.1 hnot.2.1
      · rw [types_append, phases_append, hbroken, phases_none]

/-- A call breaks the membership of a node. -/
def Breaks (c : Cluster) (k : Key) : ClusterAction → Prop
  | .insert pkt now ring => k = key pkt ∧ Misreceives pkt now (c.newnode pkt now ring (c.life k).node).2
      (silent ((c.life k).entries ++ (c.newnode pkt now ring (c.life k).node).1))
  | .next now =>
    c.pending = [] ∧ ∃ n, (c.life k).node = some n ∧ Misplaces now n (silent (c.life k).entries)

namespace Cluster

variable {c next : Cluster} {k : Key} {action : ClusterAction}

/-- A turn of a node keeps to its membership if and only if the call does not break it. -/
theorem turn_agrees (action : ClusterAction) (h : (c.life k).Agrees) :
    (¬Breaks c k action → (c.turn k action (c.life k)).Agrees) ∧
    (Breaks c k action → phases (some false) (types (c.turn k action (c.life k)).entries) = none) := by
  cases action with
  | insert pkt now ring =>
    obtain ⟨hgood, hbad⟩ := receive_agrees h pkt now ring c
    simp only [turn, Breaks]
    by_cases hk : k = key pkt
    · rw [if_pos hk]
      exact ⟨fun hnot => hgood fun hcase => hnot ⟨hk, hcase⟩, fun hcase => hbad hcase.2⟩
    · rw [if_neg hk]
      exact ⟨fun _ => h, fun hcase => absurd hcase.1 hk⟩
  | next now =>
    simp only [turn, Breaks]
    cases hpending : c.pending with
    | cons pkt pending => exact ⟨fun _ => h, fun hcase => by simp at hcase⟩
    | nil =>
      cases hnode : (c.life k).node with
      | none => exact ⟨fun _ => h, fun hcase => by simp at hcase⟩
      | some n =>
        have hlife : c.life k = ⟨some n, (c.life k).entries⟩ := by rw [← hnode]
        rw [hlife] at h
        obtain ⟨hgood, hbad⟩ := settle_agrees now h
        simp only [Option.some.injEq, true_and, exists_eq_left']
        exact ⟨hgood, hbad⟩

/-- The packets handed out for a node. -/
def handedFor (c : Cluster) (k : Key) : List Packet := outputs k (c.queued.take c.handed.length)

/-- The packets queued for a node, of which those handed out are the first. -/
theorem outputs_queued (c : Cluster) (k : Key) :
    (outputs k c.queued).map Packet.type = types (c.life k).entries := by
  unfold queued life types outputs
  simp only [List.filterMap_filterMap, List.map_filterMap]
  apply List.filterMap_congr
  rintro ⟨j, entry⟩ -
  by_cases hj : j = k <;> cases entry <;> simp [Entry.packet, Entry.type, hj, setpacket]

theorem handedFor_initial (c : Cluster) (k : Key) :
    (c.handedFor k).map Packet.type <+: types (c.life k).entries := by
  rw [← outputs_queued]
  have htake := List.take_append_drop c.handed.length c.queued
  refine ⟨(outputs k (c.queued.drop c.handed.length)).map Packet.type, ?_⟩
  rw [handedFor, ← List.map_append, ← outputs_append, htake]

/-- Every node's packets, handed out or still pending, are incarnations. -/
def Member (c : Cluster) : Prop := ∀ k, Incarnations ((outputs k c.queued).map Packet.type)

/-- Where the packets of a node are in place, the cluster believes what the client has been told. -/
def Agreeing (c : Cluster) : Prop :=
  ∀ k, phases (some false) (types (c.life k).entries) ≠ none → (c.life k).Agrees

theorem member_iff (c : Cluster) : c.Member ↔ ∀ k, phases (some false) (types (c.life k).entries) ≠ none := by
  simp only [Member, outputs_queued, incarnations_iff]

/-- What is out of place stays out of place. -/
theorem turn_entries (c : Cluster) (k : Key) (action : ClusterAction) (life : Life) :
    life.entries <+: (c.turn k action life).entries := by
  cases action with
  | insert pkt now ring =>
    simp only [turn]
    split_ifs
    · exact List.prefix_append _ _
    · exact List.prefix_rfl
  | next now =>
    simp only [turn]
    split
    · exact List.prefix_append _ _
    · exact List.prefix_rfl

theorem phases_initial {types types' : List ℕ} (h : types <+: types')
    (hplace : phases (some false) types' ≠ none) : phases (some false) types ≠ none := by
  obtain ⟨rest, rfl⟩ := h
  intro hnone
  rw [phases_append, hnone, phases_none] at hplace
  exact hplace rfl

theorem Agreeing.step (h : c.Agreeing) (hstep : c.step action = some next) : next.Agreeing := by
  intro k hplace
  rw [step_life hstep k] at hplace ⊢
  have hbefore := phases_initial ((turn_entries c k action (c.life k)).filterMap Entry.type) hplace
  obtain ⟨hgood, hbad⟩ := turn_agrees action (h k hbefore)
  exact hgood fun hbreaks => hplace (hbad hbreaks)

/-- The packets that have been handed out are incarnations if all packets are. -/
theorem Member.handed (h : c.Member) (k : Key) : Incarnations ((c.handedFor k).map Packet.type) := by
  rw [incarnations_iff]
  exact phases_initial (handedFor_initial c k) ((member_iff c).mp h k)

/-- A packet of a node, with a type and a sequence number. -/
def typed (type seqno : ℕ) : Packet := setpacket [97] 1 type seqno []

/-- A node comes up, sends and goes down, with two packets in the wrong order. -/
def incarnation : List ClusterAction :=
  let ring := fun _ => ⟨typed pktuser 0, ⟨0, 0⟩⟩
  [.insert (typed pktup 1) ⟨10, 0⟩ ring, .insert (typed pktdown 3) ⟨10, 0⟩ ring,
    .insert (typed pktuser 2) ⟨10, 0⟩ ring, .next ⟨14, 0⟩, .next ⟨14, 0⟩, .next ⟨14, 0⟩]

/-- A heart beat overtakes the up packet of its node. -/
def overtaken : List ClusterAction :=
  let ring := fun _ => ⟨typed pktuser 0, ⟨0, 0⟩⟩
  [.insert (typed pkthbeat 12) ⟨10, 0⟩ ring, .insert (typed pktup 11) ⟨10, 0⟩ ring, .next ⟨14, 0⟩,
    .next ⟨14, 0⟩]

end Cluster

end Aug.Aspp
