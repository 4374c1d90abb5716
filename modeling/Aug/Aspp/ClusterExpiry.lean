import Aug.Aspp.ClusterOrder

/-!
# The expiry of a cluster

The wait that `expiry` returns for the timer. It is never longer than the time to the deadline of a node, unless that
rounds to no milliseconds: such a node is ignored. After a call of `next` that had no packet every deadline is still
ahead, so that the timer is set for the earliest one if `expiry` follows within some milliseconds.
-/

namespace Aug.Aspp

open Aug.Lib Aug.Net Aug.Sys OrderedMap

namespace Node

/-- `expiry`: the milliseconds to the deadline, in an `unsigned`. -/
def expiryms (n : Node) (now : Timeval) : ℕ := (n.expiry.tvsub now).tvtoms

/-- The time to the deadline in milliseconds, rounded. -/
def left (n : Node) (now : Timeval) : ℤ :=
  (n.expiry.tvsub now).sec * 1000 + ((n.expiry.tvsub now).usec + 500).tdiv 1000

variable {n : Node} {now : Timeval}

/-- For times it is the difference, or zero when the deadline has passed. -/
theorem left_eq (hexpiry : n.expiry.Normal) (hnow : now.Normal) :
    n.left now = (max 0 (n.expiry.time - now.time) + 500) / 1000 := by
  have hnormal := Timeval.normal_tvsub hexpiry hnow
  rw [← Timeval.time_tvsub hexpiry hnow, left, Int.tdiv_eq_ediv_of_nonneg (Int.add_nonneg hnormal.1 (by decide))]
  unfold Timeval.time
  omega

/-- Less milliseconds than an `unsigned` has are counted exactly. -/
theorem expiryms_eq (hpos : 0 < n.left now) (hlt : n.left now < 2 ^ 32) : (n.expiryms now : ℤ) = n.left now := by
  have hnat : n.left now = (n.left now).toNat := (Int.toNat_of_nonneg hpos.le).symm
  have hu32 : u32 (n.left now) = (n.left now).toNat := u32_eq hnat (by omega)
  rw [hnat, ← hu32]
  rfl

end Node

namespace Cluster

/-- One round of the loop of `expiry`, which ignores zero expiries. -/
def shorter (now : Timeval) (min : ℕ) (entry : Key × Node) : ℕ :=
  let ms := entry.2.expiryms now
  if 0 < ms ∧ ms < min then ms else min

/-- `expiry`. -/
def expiry (now : Timeval) (c : Cluster) : ℕ := c.nodes.entries.foldl (shorter now) (2 ^ 32 - 1)

variable {c next last : Cluster} {now t : Timeval} {actions : List ClusterAction}

/-- The loop finds the least of the expiries that are not zero. -/
theorem foldl_shorter (now : Timeval) (entries : List (Key × Node)) {min : ℕ} (hmin : 0 < min) :
    0 < entries.foldl (shorter now) min ∧ entries.foldl (shorter now) min ≤ min ∧
      (∀ entry ∈ entries, 0 < entry.2.expiryms now → entries.foldl (shorter now) min ≤ entry.2.expiryms now) ∧
      (entries.foldl (shorter now) min = min ∨
        ∃ entry ∈ entries, entries.foldl (shorter now) min = entry.2.expiryms now) := by
  induction entries generalizing min with
  | nil => exact ⟨hmin, Nat.le_refl _, List.forall_mem_nil _, Or.inl rfl⟩
  | cons entry entries ih =>
    have hshorter : 0 < shorter now min entry ∧ shorter now min entry ≤ min ∧
        (0 < entry.2.expiryms now → shorter now min entry ≤ entry.2.expiryms now) ∧
        (shorter now min entry = min ∨ shorter now min entry = entry.2.expiryms now) := by
      unfold shorter
      dsimp only
      split_ifs <;> omega
    obtain ⟨hpos, hle, hleast, hfound⟩ := ih hshorter.1
    rw [List.foldl_cons]
    refine ⟨hpos, hle.trans hshorter.2.1, ?_, ?_⟩
    · intro other hother hms
      cases List.mem_cons.mp hother with
      | inl heq => exact hle.trans (heq ▸ hshorter.2.2.1 (heq ▸ hms))
      | inr hmem => exact hleast other hmem hms
    · cases hfound with
      | inl hsame =>
        rw [hsame]
        exact hshorter.2.2.2.imp id fun heq => ⟨entry, List.mem_cons_self, heq⟩
      | inr hother =>
        obtain ⟨other, hmem, heq⟩ := hother
        exact Or.inr ⟨other, List.mem_cons_of_mem _ hmem, heq⟩

/-- The wait is not zero, and not longer than the time to any deadline that is not zero. It is the time to one of them,
or there is none that is shorter than the longest wait. -/
theorem expiry_spec (now : Timeval) (c : Cluster) : 0 < c.expiry now ∧
    (∀ k n, c.nodes.find k = some n → 0 < n.left now → (c.expiry now : ℤ) ≤ n.left now) ∧
    (c.expiry now = 2 ^ 32 - 1 ∨ ∃ k n, c.nodes.find k = some n ∧ c.expiry now = n.expiryms now) := by
  obtain ⟨hpos, hle, hleast, hfound⟩ := @foldl_shorter now c.nodes.entries (2 ^ 32 - 1) (by decide)
  refine ⟨hpos, ?_, ?_⟩
  · intro k n hn hleft
    have hmem := find_eq_some.mp hn
    by_cases hlt : n.left now < 2 ^ 32
    · have hms := Node.expiryms_eq hleft hlt
      have hwait := hleast (k, n) hmem (by dsimp only; omega)
      rw [← hms]
      exact_mod_cast hwait
    · unfold expiry
      omega
  · apply hfound.imp id
    rintro ⟨⟨k, n⟩, hmem, heq⟩
    exact ⟨k, n, find_eq_some.mpr hmem, heq⟩

end Cluster

/-! ## Deadlines after a call of `next` -/

/-- A time whose seconds are positive, as those of a clock are. -/
def Clocked (tv : Timeval) : Prop := tv.Normal ∧ 0 < tv.sec

namespace Window

/-- The packets of a window came at normal times. -/
def Dated (w : Window) : Prop :=
  ∀ i, w.begin_ ≤ i → i < w.end_ → (w.ring (i % w.size)).empty = false → (w.ring (i % w.size)).tv.Normal

/-- A window that is not ready waits with a packet. -/
structure Timed (w : Window) : Prop where
  dated : w.Dated
  waiting : w.state ≠ .ready → ∃ i, w.begin_ ≤ i ∧ i < w.end_ ∧ (w.ring (i % w.size)).empty = false

variable {w w' : Window} {inserted : ℕ → Option Packet} {pkt : Packet} {tv : Timeval} {m : Message}

/-- Packets are given up. -/
theorem Dated.fewer (h : w.Dated) (hbegin : w.begin_ ≤ w'.begin_) (hend : w'.end_ = w.end_) (hsize : w'.size = w.size)
    (hfewer : Fewer w'.ring w.ring) : w'.Dated := by
  intro i hi hi' hslot
  rw [hsize] at hslot ⊢
  have hsame := hfewer _ hslot
  rw [hsame] at hslot ⊢
  exact h i (hbegin.trans hi) (hend ▸ hi') hslot

/-- A packet is stored at the time of a clock. -/
theorem Dated.store (h : w.Dated) (hroom : w.end_ ≤ w.begin_ + w.size) (hl : w.begin_ ≤ pkt.seqno)
    (hr : pkt.seqno < w.begin_ + w.size) (hbound : pkt.seqno < 2 ^ 62) (htv : Clocked tv) : (w.store pkt tv).Timed := by
  obtain ⟨hbegin, hsize, -, hend⟩ := store_ends w pkt tv hbound
  constructor
  · intro i hi hi' hslot
    rw [hbegin] at hi
    rw [hsize] at hslot ⊢
    cases store_slot hroom hl hr hbound hi hi' hslot with
    | inl hnew =>
      rw [hnew.2]
      exact htv.1
    | inr hold =>
      rw [hold.2.2] at hslot ⊢
      exact h i hi hold.2.1 hslot
  · intro _
    apply Exists.intro pkt.seqno
    rw [hbegin, hend, hsize, store_self]
    exact ⟨hl, by omega, beq_false_of_ne (ne_of_gt htv.2)⟩

/-- A packet is inserted into a window that has been seeded. -/
theorem Timed.insert (h : w.Timed) (hholds : w.Holds inserted) (hstate : w.state ≠ .reset) (hbound : pkt.seqno < 2 ^ 62)
    (htv : Clocked tv) (hinsert : w.insert pkt tv = .ok w') : w'.Timed := by
  have hroom := hholds.room
  have hend := hholds.bound
  have hle := hholds.le
  have hsize := w.positive
  rw [hholds.insert_eq pkt tv hstate hbound] at hinsert
  split_ifs at hinsert with hunder hover hready
  · obtain ⟨hbegin, hend', hsize', hstate', hfewer⟩ :=
      clearLead_spec w ((pkt.seqno : ℤ) - w.begin_ - (w.size - 1)).toNat (by omega)
    rw [← Except.ok.inj hinsert]
    have hdated := h.dated.fewer (by omega) hend' hsize' hfewer
    exact hdated.store (by omega) (by omega) (by omega) hbound htv
  · rw [← Except.ok.inj hinsert]
    exact h.dated.store hroom (by omega) (by omega) hbound htv

/-- The first packet of a window that has been reset. -/
theorem timed_reset (hstate : w.state = .reset) (hbound : pkt.seqno < 2 ^ 62) (htv : Clocked tv)
    (hinsert : w.insert pkt tv = .ok w') : w'.Timed := by
  have hseed := w.seed_le pkt.seqno
  have hdated : Dated { w with begin_ := w.seed pkt.seqno, end_ := w.seed pkt.seqno, state := .sync } := by
    intro i hi hi'
    exact absurd hi' (Nat.not_lt.mpr hi)
  rw [Window.insert, hstate] at hinsert
  rw [← Except.ok.inj hinsert]
  exact hdated.store (Nat.le_add_right _ _) hseed.1 hseed.2 hbound htv

/-- The flush stops at the first packet. -/
theorem skip_stops (hend : w.end_ ≤ 2 ^ 62) {rounds seqno i : ℕ} (hrounds : w.end_ ≤ seqno + rounds) (hl : seqno ≤ i)
    (hr : i < w.end_) (hslot : (w.ring (i % w.size)).empty = false) :
    w.skip rounds seqno ≤ i ∧ (w.ring (w.skip rounds seqno % w.size)).empty = false := by
  induction rounds generalizing seqno with
  | zero => omega
  | succ rounds ih =>
    unfold Window.skip
    split_ifs with hempty
    · have hne : seqno ≠ i := by
        rintro rfl
        rw [hslot] at hempty
        exact Bool.false_ne_true hempty.2
      rw [succ_eq (by omega)]
      exact ih (by omega) (by omega)
    · apply And.intro hl
      rw [not_and_or, not_not, Bool.not_eq_true] at hempty
      exact hempty.resolve_left (by omega)

/-- The slots between the ends are counted. -/
theorem Holds.count (h : w.Holds inserted) : w.count = w.end_ - w.begin_ := if_pos h.le

/-- A window that waits with a packet is not empty when it has been flushed. -/
theorem Timed.flush (h : w.Timed) (hholds : w.Holds inserted) :
    w.flush.Timed ∧ (w.state ≠ .ready → w.flush.empty = false) := by
  obtain ⟨hl, hr⟩ := hholds.skip w.count hholds.le
  constructor
  · constructor
    · exact h.dated.fewer hl rfl rfl (.refl _)
    · exact fun hstate => absurd rfl hstate
  · intro hstate
    obtain ⟨i, hi, hi', hslot⟩ := h.waiting hstate
    have hcount := hholds.count
    obtain ⟨hle, hfirst⟩ := skip_stops hholds.bound (show w.end_ ≤ w.begin_ + w.count by omega) hi hi' hslot
    have hne : w.skip w.count w.begin_ ≠ w.end_ := by omega
    simp [Window.flush, Window.empty, ready, hne, hfirst]

/-- The packet that is consumed came at a normal time. -/
theorem Timed.next (h : w.Timed) (hholds : w.Holds inserted) (hnext : w.next = some (m, w')) :
    w'.Timed ∧ m.tv.Normal ∧ w'.end_ = w.end_ := by
  have hbound := hholds.bound
  have hle := hholds.le
  unfold Window.next at hnext
  split_ifs at hnext with hempty
  obtain ⟨rfl, rfl⟩ := Prod.ext_iff.mp (Option.some.inj hnext)
  simp only [Window.empty, ready, Bool.or_eq_true, beq_iff_eq, Bool.not_eq_true', beq_eq_false_iff_ne, not_or,
    Bool.not_eq_true, not_not] at hempty
  obtain ⟨⟨hne, hslot⟩, hready⟩ := hempty
  have hsucc : succ w.begin_ = w.begin_ + 1 := succ_eq (by omega)
  refine ⟨⟨?_, fun hstate => absurd hready hstate⟩, ?_, rfl⟩
  · exact h.dated.fewer (by dsimp only; omega) rfl rfl (fewer_clear w w.begin_)
  · exact h.dated w.begin_ (Nat.le_refl _) (by omega) hslot

end Window

namespace Node

/-- A node whose window is in order, and whose times are normal. -/
structure Timely (n : Node) : Prop where
  fits : ∃ h, n.Fits h
  timed : n.window.Timed
  timeout : n.timeout.Normal
  expiry : n.expiry.Normal

variable {n n' : Node} {now : Timeval} {pkt : Packet}

/-- The first packet of a window is taken, and there are fewer behind it. -/
theorem Timely.take (h : n.Timely) (hfull : n.window.empty = false) :
    ∃ n' pkt, n.take = (n', .packet pkt) ∧ n'.Timely ∧ n'.window.count < n.window.count := by
  obtain ⟨history, hfits⟩ := h.fits
  obtain ⟨m, window, hnext⟩ : ∃ m window, n.window.next = some (m, window) := by
    rw [Window.next, hfull]
    exact ⟨_, _, rfl⟩
  obtain ⟨hholds, -, -, -, -, hbegin⟩ := hfits.holds.next hnext
  obtain ⟨htimed, htv, hend⟩ := h.timed.next hfits.holds hnext
  have htake : n.take = ({ n with
      window
      down := n.down || m.pkt.type == pktdown
      expiry := if n.expiry.lt (m.tv.tvadd n.timeout) then m.tv.tvadd n.timeout else n.expiry }, .packet m.pkt) := by
    rw [Node.take, hnext]
  refine ⟨_, _, htake, ⟨?_, htimed, h.timeout, ?_⟩, ?_⟩
  · obtain ⟨hdown, hup⟩ := hfits.take htake
    by_cases hcase : n.down = true
    · exact ⟨_, (hdown hcase).1⟩
    · exact ⟨_, (hup (Bool.eq_false_of_not_eq_true hcase)).2⟩
  · dsimp only
    split_ifs
    · exact Timeval.normal_tvadd htv h.timeout
    · exact h.expiry
  · have hle := hholds.le
    have hcount := hholds.count
    have hcount' := hfits.holds.count
    dsimp only
    omega

/-- A call of `next` takes a packet, or finds the timer not expired, or times out. -/
theorem Timely.next (h : n.Timely) (now : Timeval) :
    (∃ n' pkt, n.next now = (n', .packet pkt) ∧ n'.Timely ∧ n'.window.count < n.window.count) ∨
      (n.next now = (n, .none) ∧ tvbefore now n.expiry = false) ∨ ∃ n', n.next now = (n', .timeout) := by
  unfold Node.next
  split
  case isFalse hfull => exact Or.inl (h.take (Bool.eq_false_of_not_eq_true hfull))
  case isTrue =>
    split
    case isFalse hearly => exact Or.inr (Or.inl ⟨rfl, Bool.eq_false_of_not_eq_true hearly⟩)
    case isTrue =>
      dsimp only
      split
      case isTrue => exact Or.inr (Or.inr ⟨_, rfl⟩)
      case isFalse hready =>
        obtain ⟨history, hfits⟩ := h.fits
        have hstate : n.window.state ≠ .ready := by simpa [Window.ready] using hready
        obtain ⟨htimed, hfull⟩ := h.timed.flush hfits.holds
        obtain ⟨hholds, hbegin⟩ := hfits.holds.flush
        have hflushed := (hfits.flushes (Or.inr ⟨hstate, rfl⟩)).1
        have hm : Timely { n with expiry := n.expiry.tvadd n.timeout, window := n.window.flush } :=
          ⟨⟨history, hflushed⟩, htimed, h.timeout, Timeval.normal_tvadd h.expiry h.timeout⟩
        rw [hfull hstate, if_neg Bool.false_ne_true]
        obtain ⟨n', pkt, htake, htimely, hless⟩ := hm.take (hfull hstate)
        have hend : n.window.flush.end_ = n.window.end_ := rfl
        have hcount := hholds.count
        have hcount' := hfits.holds.count
        exact Or.inl ⟨n', pkt, htake, htimely, by dsimp only at hless; omega⟩

/-- Packets are discarded until the timer is found not expired. -/
theorem Timely.discard (h : n.Timely) {rounds : ℕ} (hrounds : n.window.count < rounds)
    (hdiscard : n.discard now rounds = (n', false)) : n'.Timely ∧ tvbefore now n'.expiry = false := by
  induction rounds generalizing n with
  | zero => omega
  | succ rounds ih =>
    unfold Node.discard at hdiscard
    rcases h.next now with ⟨m, pkt, hnext, hm, hless⟩ | ⟨hnext, hearly⟩ | ⟨m, hnext⟩
    · rw [hnext] at hdiscard
      exact ih hm (by omega) hdiscard
    · rw [hnext] at hdiscard
      rw [← (Prod.mk.inj hdiscard).1]
      exact ⟨h, hearly⟩
    · rw [hnext] at hdiscard
      cases (Prod.mk.inj hdiscard).2

/-- Packets are pushed until the timer is found not expired. -/
theorem Timely.push (h : n.Timely) {rounds : ℕ} (hrounds : n.window.count < rounds)
    (hpush : (n.push now rounds).2 = (n', false)) : n'.Timely ∧ tvbefore now n'.expiry = false := by
  induction rounds generalizing n with
  | zero => omega
  | succ rounds ih =>
    unfold Node.push at hpush
    split_ifs at hpush with hdown
    · exact h.discard hrounds hpush
    · rcases h.next now with ⟨m, pkt, hnext, hm, hless⟩ | ⟨hnext, hearly⟩ | ⟨m, hnext⟩
      · rw [hnext] at hpush
        exact ih hm (by omega) hpush
      · rw [hnext] at hpush
        rw [← (Prod.mk.inj hpush).1]
        exact ⟨h, hearly⟩
      · rw [hnext] at hpush
        cases (Prod.mk.inj hpush).2

/-- A node that is kept when it is settled has a timer that has not expired. -/
theorem Timely.settle (h : n.Timely) (hsettle : (Aspp.settle now n).2 = some n') :
    n'.Timely ∧ tvbefore now n'.expiry = false := by
  unfold Aspp.settle Node.pushall at hsettle
  split at hsettle
  case h_1 pkts m hpush =>
    apply h.push (Nat.lt_succ_self _)
    rw [hpush, ← Option.some.inj hsettle]
  case h_2 => exact nomatch hsettle

/-- A timer that has not expired is more than the tolerance ahead. -/
theorem late_of_tvbefore (hnow : now.Normal) (hexpiry : n.expiry.Normal) (h : tvbefore now n.expiry = false) :
    now.time + 5000 ≤ n.expiry.time := by
  have hle := Timeval.time_le (Timeval.normal_tvadd (show Timeval.Normal ⟨0, 5000⟩ from ⟨by decide, by decide⟩) hnow) hexpiry h
  rw [Timeval.time_tvadd] at hle
  have hfive : Timeval.time ⟨0, 5000⟩ = 5000 := rfl
  omega

end Node

namespace Cluster

variable {c next last : Cluster} {action : ClusterAction} {now : Timeval} {pkt : Packet} {n n' : Node}
  {entries : List Entry}

/-- The clock of a call gives a time. -/
def Stamped : ClusterAction → Prop
  | .insert _ now _ => Clocked now
  | .next now => Clocked now

/-- The times of a node that accepts a packet. -/
theorem accept_times (htimeout : n.timeout.Normal) (hexpiry : n.expiry.Normal) (hnow : Clocked now)
    (hbound : pkt.seqno < 2 ^ 62) (hwindow : ∀ w, n.window.insert pkt now = .ok w → w.Timed)
    (haccept : accept pkt now n = some (entries, n')) : n'.window.Timed ∧ n'.timeout.Normal ∧ n'.expiry.Normal := by
  unfold accept Node.insert at haccept
  cases hinsert : n.window.insert pkt now with
  | ok w =>
    rw [hinsert] at haccept
    obtain ⟨-, rfl⟩ := Prod.mk.inj (Option.some.inj haccept)
    exact ⟨hwindow w hinsert, htimeout, hexpiry⟩
  | error exception =>
    rw [hinsert] at haccept
    cases exception with
    | underflow => exact nomatch haccept
    | overflow =>
      cases hreset : (n.reset now).window.insert pkt now with
      | ok w =>
        simp only [Except.map, hreset] at haccept
        obtain ⟨-, rfl⟩ := Prod.mk.inj (Option.some.inj haccept)
        exact ⟨Window.timed_reset rfl hbound hnow hreset, htimeout, Timeval.normal_tvadd hnow.1 htimeout⟩
      | error exception =>
        simp only [Except.map, hreset] at haccept
        exact nomatch haccept

/-- A node that accepts a packet. -/
theorem accept_timely (h : n.Timely) (hnow : Clocked now) (hbound : pkt.seqno < 2 ^ 62)
    (haccept : accept pkt now n = some (entries, n')) : n'.Timely := by
  obtain ⟨history, hfits⟩ := h.fits
  obtain ⟨htimed, htimeout, hexpiry⟩ := accept_times h.timeout h.expiry hnow hbound
    (fun w hinsert => h.timed.insert hfits.holds hfits.seeded hbound hnow hinsert) haccept
  have hafter := @Node.Fits.accept n history now pkt hfits hbound
  rw [haccept] at hafter
  exact ⟨⟨_, hafter.2⟩, htimed, htimeout, hexpiry⟩

/-- A new node accepts its first packet. -/
theorem accept_new_timely (hnow : Clocked now) (hbound : pkt.seqno < 2 ^ 62) (ring : ℕ → Message) (c : Cluster) :
    ∃ n, accept pkt now (.create c.wsize c.positive ring now c.hbint) = some ([], n) ∧ n.Timely := by
  obtain ⟨n, haccept, hfits⟩ := accept_new now hbound ring c
  have htimeout := Timeval.normal_mstotv (u32 (c.hbint + c.hbint / 2))
  obtain ⟨htimed, htimeout', hexpiry⟩ := accept_times htimeout (Timeval.normal_tvadd hnow.1 htimeout) hnow hbound
    (fun w hinsert => Window.timed_reset rfl hbound hnow hinsert) haccept
  exact ⟨n, haccept, ⟨_, hfits⟩, htimed, htimeout', hexpiry⟩

/-- What is left of a node that receives a packet. -/
theorem receive_timely {o : Option Node} (h : ∀ n, o = some n → n.Timely) (hnow : Clocked now)
    (hbound : pkt.seqno < 2 ^ 62) (ring : ℕ → Message) (c : Cluster)
    (hreceive : (c.receive pkt now ring o).2.1 = some n') : n'.Timely := by
  cases o with
  | none =>
    obtain ⟨n, haccept, hn⟩ := accept_new_timely hnow hbound ring c
    simp only [receive, newnode, haccept] at hreceive
    exact (hn.settle hreceive).1
  | some n =>
    have hn := h n rfl
    unfold receive newnode at hreceive
    cases haccept : accept pkt now n with
    | none =>
      simp only [haccept] at hreceive
      rwa [← Option.some.inj hreceive]
    | some result =>
      obtain ⟨entries, m⟩ := result
      simp only [haccept] at hreceive
      exact ((accept_timely hn hnow hbound haccept).settle hreceive).1

/-- The nodes of a cluster are timely. -/
def Timely (c : Cluster) : Prop := ∀ k n, c.nodes.find k = some n → n.Timely

/-- A call. -/
theorem Timely.step (h : c.Timely) (hbound : Bounded action) (hstamped : Stamped action)
    (hstep : c.step action = some next) : next.Timely := by
  intro k n hn
  have hlife : (next.life k).node = (c.turn k action (c.life k)).node := congrArg Life.node (step_life hstep k)
  have hnode : (c.turn k action (c.life k)).node = some n := hlife.symm.trans hn
  cases action with
  | insert pkt now ring =>
    unfold turn at hnode
    dsimp only at hnode
    split_ifs at hnode
    · exact receive_timely (h k) hstamped hbound ring c hnode
    · exact h k n hnode
  | next now =>
    unfold turn at hnode
    dsimp only at hnode
    split at hnode
    case h_1 m _ hm => exact ((h k m hm).settle hnode).1
    case h_2 => exact h k n hnode

/-- When a call of `next` has had no packet, every node has been settled. -/
theorem next_none (hnext : c.next now = (next, none)) (k : Key) (hn : next.nodes.find k = some n) :
    ∃ m, c.nodes.find k = some m ∧ (settle now m).2 = some n := by
  unfold Cluster.next at hnext
  split_ifs at hnext with hpending
  · have hsame : (c.flush now).pop = (c.flush now, none) := by
      unfold pop at hnext ⊢
      cases hcase : (c.flush now).pending with
      | nil => rfl
      | cons pkt rest =>
        rw [hcase] at hnext
        exact nomatch (Prod.mk.inj hnext).2
    rw [hsame] at hnext
    rw [← (Prod.mk.inj hnext).1] at hn
    have hlife := congrArg Life.node (flush_life now c k)
    exact Option.bind_eq_some_iff.mp (hlife.symm.trans hn)
  · unfold pop at hnext
    cases hcase : c.pending with
    | nil => exact absurd hcase hpending
    | cons pkt rest =>
      rw [hcase] at hnext
      exact nomatch (Prod.mk.inj hnext).2

/-- When `next` has had no packet, the wait that `expiry` returns is not zero, and not longer than the time to any
deadline that does not round to zero. It is the time to one of the deadlines, unless all that are not ignored are
farther ahead than an `unsigned` can tell. Where the clock has positive seconds and sequence numbers do not wrap, the
times are those of a clock, and every deadline is at least the tolerance ahead of the call of `next`. -/
theorem expiry_watches (wsize : ℕ) (hsize : 0 < wsize) (hbint : ℕ) (actions : List ClusterAction)
    (hrun : run step (create wsize hsize hbint) actions = some last) {t : Timeval} (hnext : last.next t = (next, none)) :
    (∀ now, 0 < next.expiry now ∧
      (∀ k n, next.nodes.find k = some n → 0 < n.left now → (next.expiry now : ℤ) ≤ n.left now) ∧
      (next.expiry now = 2 ^ 32 - 1 ∨ ∃ k n, next.nodes.find k = some n ∧ next.expiry now = n.expiryms now)) ∧
    ((∀ action ∈ actions, Bounded action ∧ Stamped action) → Clocked t → ∀ k n, next.nodes.find k = some n →
      (∀ now : Timeval, now.Normal → n.left now = (max 0 (n.expiry.time - now.time) + 500) / 1000) ∧
        t.time + 5000 ≤ n.expiry.time) := by
  apply And.intro fun now => expiry_spec now next
  intro hactions ht k n hn
  have htimely : last.Timely := by
    apply run_invariant_on _ (show (create wsize hsize hbint).Timely from nofun) hactions hrun
    intro c action next hc haction hstep
    exact hc.step haction.1 haction.2 hstep
  obtain ⟨m, hm, hsettle⟩ := next_none hnext k hn
  obtain ⟨hn', hearly⟩ := (htimely k m hm).settle hsettle
  exact ⟨fun now hnow => Node.left_eq hn'.expiry hnow, Node.late_of_tvbefore ht.1 hn'.expiry hearly⟩

/-- A node comes up and is silent. -/
def silence : List ClusterAction :=
  [.insert (setpacket [97] 1 pktup 1 []) ⟨10, 0⟩ fun _ => ⟨setpacket [97] 1 pktuser 0 [], ⟨0, 0⟩⟩, .next ⟨14, 0⟩]

/-- Two seconds before the deadline the wait is that long. -/
theorem expiry_watches_silence : ∃ last next : Cluster, run step (create 8 (by decide) 2000) silence = some last ∧
    last.next ⟨14, 0⟩ = (next, none) ∧ next.expiry ⟨14, 0⟩ = 2000 ∧ ∀ now, 0 < next.expiry now := by
  have hcomputed : (run step (create 8 (by decide) 2000) silence).map
      (fun last => ((last.next ⟨14, 0⟩).2.isNone, (last.next ⟨14, 0⟩).1.expiry ⟨14, 0⟩)) = some (true, 2000) := by
    decide +kernel
  obtain ⟨last, hrun, hlast⟩ := Option.map_eq_some_iff.mp hcomputed
  obtain ⟨hnone, hexpiry⟩ := Prod.mk.inj hlast
  have hnext : last.next ⟨14, 0⟩ = ((last.next ⟨14, 0⟩).1, none) := Prod.ext rfl (Option.isNone_iff_eq_none.mp hnone)
  exact ⟨last, _, hrun, hnext, hexpiry, fun now => ((expiry_watches 8 (by decide) 2000 silence hrun hnext).1 now).1⟩

/-- When the deadline has passed, the wait is the longest one. -/
theorem expiry_ignores : ¬∀ (actions : List ClusterAction) (last next : Cluster) (t now : Timeval),
    run step (create 8 (by decide) 2000) actions = some last → (∀ action ∈ actions, Bounded action ∧ Stamped action) →
      Clocked t → Clocked now → t.time ≤ now.time → last.next t = (next, none) →
        ∀ k n, next.nodes.find k = some n → (next.expiry now : ℤ) ≤ n.left now := by
  intro h
  have hcomputed : (run step (create 8 (by decide) 2000) silence).map
      (fun last => ((last.next ⟨14, 0⟩).2.isNone, (last.next ⟨14, 0⟩).1.expiry ⟨100, 0⟩,
        ((last.next ⟨14, 0⟩).1.nodes.find ⟨1, [97]⟩).map fun n => n.left ⟨100, 0⟩)) =
          some (true, 4294967295, some 0) := by
    decide +kernel
  obtain ⟨last, hrun, hlast⟩ := Option.map_eq_some_iff.mp hcomputed
  obtain ⟨hnone, hrest⟩ := Prod.mk.inj hlast
  obtain ⟨hexpiry, hfind⟩ := Prod.mk.inj hrest
  obtain ⟨n, hn, hleft⟩ := Option.map_eq_some_iff.mp hfind
  have hnext : last.next ⟨14, 0⟩ = ((last.next ⟨14, 0⟩).1, none) := Prod.ext rfl (Option.isNone_iff_eq_none.mp hnone)
  have hactions : ∀ action ∈ silence, Bounded action ∧ Stamped action := by
    simp [silence, Bounded, Stamped, Clocked, Timeval.Normal, setpacket]
  have hwait := h silence last _ ⟨14, 0⟩ ⟨100, 0⟩ hrun hactions (by simp [Clocked, Timeval.Normal])
    (by simp [Clocked, Timeval.Normal]) (by decide) hnext _ n hn
  rw [hexpiry, hleft] at hwait
  exact absurd hwait (by decide)

end Cluster

end Aug.Aspp
