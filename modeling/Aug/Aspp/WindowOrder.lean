import Aug.Aspp.Window

/-!
# The slots of a window

Between the two ends of a window a slot that is not empty holds the packet last inserted for its number.
This is what an insertion, a flush and the consumption of a packet preserve, as long as no sequence
number wraps.
-/

namespace Aug.Aspp

open Aug.Lib Aug.Net Aug.Sys

@[simp] theorem Message.empty_clear (m : Message) : m.clear.empty = true := rfl

/-- Numbers less than a window apart have different slots. -/
theorem mod_ne_mod {size begin_ i j : ℕ} (hi : begin_ ≤ i) (hj : begin_ ≤ j) (hi' : i < begin_ + size)
    (hj' : j < begin_ + size) (hne : i ≠ j) : i % size ≠ j % size := by
  intro hmod
  rcases Nat.lt_or_gt_of_ne hne with hlt | hlt
  · have hdvd : size ∣ j - i := (Nat.modEq_iff_dvd' hlt.le).mp hmod
    have hzero := Nat.eq_zero_of_dvd_of_lt hdvd (by omega)
    omega
  · have hdvd : size ∣ i - j := (Nat.modEq_iff_dvd' hlt.le).mp hmod.symm
    have hzero := Nat.eq_zero_of_dvd_of_lt hdvd (by omega)
    omega

namespace Window

/-- Slots of the one ring have been emptied in the other. -/
def Fewer (ring' ring : ℕ → Message) : Prop := ∀ i, (ring' i).empty = false → ring' i = ring i

theorem Fewer.refl (ring : ℕ → Message) : Fewer ring ring := fun _ _ => rfl

theorem Fewer.trans {ring ring' ring'' : ℕ → Message} (h' : Fewer ring'' ring') (h : Fewer ring' ring) :
    Fewer ring'' ring := by
  intro i hi
  have hsame := h' i hi
  rw [hsame] at hi ⊢
  exact h i hi

/-- Every slot that is not empty between the ends holds what was last inserted for its number. -/
structure Slots (w : Window) (inserted : ℕ → Option Packet) : Prop where
  room : w.end_ ≤ w.begin_ + w.size
  bound : w.end_ ≤ 2 ^ 62
  slot {i : ℕ} : w.begin_ ≤ i → i < w.end_ → (w.ring (i % w.size)).empty = false →
    (w.ring (i % w.size)).pkt.seqno = i ∧ inserted i = some (w.ring (i % w.size)).pkt

/-- The invariant of a window that has been seeded. -/
structure Holds (w : Window) (inserted : ℕ → Option Packet) : Prop extends Slots w inserted where
  le : w.begin_ ≤ w.end_

variable {w w' : Window} {inserted : ℕ → Option Packet} {m : Message}

theorem succ_eq {seqno : ℕ} (h : seqno < 2 ^ 63) : succ seqno = seqno + 1 := by
  unfold succ
  rw [if_neg (by omega)]

theorem fewer_clear (w : Window) (seqno : ℕ) : Fewer (w.clear seqno).ring w.ring := by
  intro i hi
  simp only [clear] at hi ⊢
  rw [Function.update_apply] at hi ⊢
  split_ifs at hi ⊢
  · simp at hi
  · rfl

/-- What is left of the ring after a gap has been cleared. -/
theorem clearGap_spec (w : Window) (seqno length : ℕ) :
    (w.clearGap seqno length).begin_ = w.begin_ ∧ (w.clearGap seqno length).size = w.size ∧
      (w.clearGap seqno length).state = w.state ∧ Fewer (w.clearGap seqno length).ring w.ring ∧
      ∀ i, seqno ≤ i → i < seqno + length →
        ((w.clearGap seqno length).ring (i % w.size)).empty = true := by
  induction length generalizing w seqno with
  | zero => exact ⟨rfl, rfl, rfl, .refl _, by omega⟩
  | succ length ih =>
    obtain ⟨hbegin, hsize, hstate, hfewer, hempty⟩ := ih (w.clear seqno) (seqno + 1)
    simp only [clearGap]
    refine ⟨hbegin, hsize, hstate, hfewer.trans (fewer_clear w seqno), ?_⟩
    intro i hi hi'
    rcases Nat.eq_or_lt_of_le hi with rfl | hlt
    · cases hcase : (((w.clear seqno).clearGap (seqno + 1) length).ring (seqno % w.size)).empty with
      | true => rfl
      | false =>
        have hsame := hfewer _ hcase
        rw [hsame] at hcase
        simp [clear] at hcase
    · exact hempty i hlt (by omega)

/-- What is left of a window after packets on its left have been given up. -/
theorem clearLead_spec (w : Window) (diff : ℕ) (h : w.begin_ + diff < 2 ^ 63) :
    (w.clearLead diff).begin_ = w.begin_ + diff ∧ (w.clearLead diff).end_ = w.end_ ∧
      (w.clearLead diff).size = w.size ∧ (w.clearLead diff).state = w.state ∧
      Fewer (w.clearLead diff).ring w.ring := by
  induction diff generalizing w with
  | zero => exact ⟨rfl, rfl, rfl, rfl, .refl _⟩
  | succ diff ih =>
    have hsucc : succ w.begin_ = w.begin_ + 1 := succ_eq (by omega)
    have hrest : (w.begin_ + 1) + diff < 2 ^ 63 := by omega
    rw [clearLead, hsucc]
    obtain ⟨hbegin, hend, hsize, hstate, hfewer⟩ :=
      ih { w.clear w.begin_ with begin_ := w.begin_ + 1 } hrest
    refine ⟨?_, hend, hsize, hstate, hfewer.trans (fewer_clear w w.begin_)⟩
    dsimp only at hbegin
    rw [hbegin]
    omega

/-- A packet is stored in the slot of its number. -/
theorem store_self (w : Window) (pkt : Packet) (tv : Timeval) :
    (w.store pkt tv).ring (pkt.seqno % w.size) = ⟨pkt, tv⟩ := by
  obtain ⟨-, hsize, -, -, -⟩ := clearGap_spec w w.end_ (pkt.seqno - w.end_)
  unfold Window.store
  split_ifs with hend
  · dsimp only
    rw [hsize, Function.update_self]
  · exact Function.update_self _ _ _

/-- What a slot has after a packet within the window has been stored: the packet, or what it had before. -/
theorem store_slot (hroom : w.end_ ≤ w.begin_ + w.size) {pkt : Packet} {tv : Timeval} (hl : w.begin_ ≤ pkt.seqno)
    (hr : pkt.seqno < w.begin_ + w.size) (hbound : pkt.seqno < 2 ^ 62) {i : ℕ} (hi : w.begin_ ≤ i)
    (hi' : i < (w.store pkt tv).end_) (hslot : ((w.store pkt tv).ring (i % w.size)).empty = false) :
    i = pkt.seqno ∧ (w.store pkt tv).ring (i % w.size) = ⟨pkt, tv⟩ ∨
      i ≠ pkt.seqno ∧ i < w.end_ ∧ (w.store pkt tv).ring (i % w.size) = w.ring (i % w.size) := by
  obtain ⟨hbegin, hsize, hstate, hfewer, hempty⟩ := clearGap_spec w w.end_ (pkt.seqno - w.end_)
  have hsucc : succ pkt.seqno = pkt.seqno + 1 := succ_eq (by omega)
  by_cases heq : i = pkt.seqno
  · refine Or.inl ⟨heq, ?_⟩
    rw [heq, store_self]
  · have hother (hlt : i < w.begin_ + w.size) : i % w.size ≠ pkt.seqno % w.size := mod_ne_mod hi hl hlt hr heq
    refine Or.inr ⟨heq, ?_⟩
    unfold Window.store at hi' hslot ⊢
    split_ifs at hi' hslot ⊢ with hend
    · dsimp only at hi' hslot ⊢
      rw [hsize, Function.update_of_ne (hother (by omega))] at hslot ⊢
      by_cases hold : i < w.end_
      · exact ⟨hold, hfewer _ hslot⟩
      · rw [hempty i (by omega) (by omega)] at hslot
        exact nomatch hslot
    · dsimp only at hi' hslot ⊢
      exact ⟨hi', Function.update_of_ne (hother (by omega)) _ _⟩

/-- A packet within the window extends it at most to its own number. -/
theorem store_ends (w : Window) (pkt : Packet) (tv : Timeval) (hbound : pkt.seqno < 2 ^ 62) :
    (w.store pkt tv).begin_ = w.begin_ ∧ (w.store pkt tv).size = w.size ∧ (w.store pkt tv).state = w.state ∧
      (w.store pkt tv).end_ = max w.end_ (pkt.seqno + 1) := by
  obtain ⟨hbegin, hsize, hstate, -, -⟩ := clearGap_spec w w.end_ (pkt.seqno - w.end_)
  have hsucc : succ pkt.seqno = pkt.seqno + 1 := succ_eq (by omega)
  unfold Window.store
  split_ifs with hend
  · exact ⟨hbegin, hsize, hstate, hsucc.trans (by omega)⟩
  · exact ⟨rfl, rfl, rfl, by dsimp only; omega⟩

/-- A packet within the window is stored. -/
theorem Slots.store (h : w.Slots inserted) (pkt : Packet) (tv : Timeval) (hl : w.begin_ ≤ pkt.seqno)
    (hr : pkt.seqno < w.begin_ + w.size) (hbound : pkt.seqno < 2 ^ 62) :
    (w.store pkt tv).Holds (Function.update inserted pkt.seqno (some pkt)) ∧
      (w.store pkt tv).begin_ = w.begin_ ∧ (w.store pkt tv).state = w.state := by
  obtain ⟨hbegin, hsize, hstate, hend⟩ := store_ends w pkt tv hbound
  have hroom := h.room
  have hlimit := h.bound
  refine ⟨⟨⟨?_, ?_, ?_⟩, ?_⟩, hbegin, hstate⟩
  · omega
  · omega
  · intro i hi hi' hslot
    rw [hbegin] at hi
    rw [hsize] at hslot ⊢
    rcases store_slot hroom hl hr hbound hi hi' hslot with ⟨heq, hsame⟩ | ⟨hne, hold, hsame⟩
    · rw [hsame, heq, Function.update_self]
      exact ⟨rfl, rfl⟩
    · rw [hsame] at hslot ⊢
      rw [Function.update_of_ne hne]
      exact h.slot hi hold hslot
  · omega

/-- A window that has given up packets holds what is left. -/
theorem Slots.fewer (h : w.Slots inserted) (hbegin : w.begin_ ≤ w'.begin_) (hend : w'.end_ = w.end_)
    (hsize : w'.size = w.size) (hfewer : Fewer w'.ring w.ring) : w'.Slots inserted where
  room := by
    have hroom := h.room
    rw [hend, hsize]
    omega
  bound := by
    rw [hend]
    exact h.bound
  slot hi hi' hslot := by
    rw [hsize] at hslot ⊢
    have hsame := hfewer _ hslot
    rw [hsame] at hslot ⊢
    exact h.slot (hbegin.trans hi) (hend ▸ hi') hslot

/-- Another number may be inserted without effect on the window. -/
theorem Holds.insert_other (h : w.Holds inserted) {seqno : ℕ} (hseqno : seqno < w.begin_) (pkt : Packet) :
    w.Holds (Function.update inserted seqno (some pkt)) where
  room := h.room
  bound := h.bound
  slot {i} hi hi' hslot := by
    rw [Function.update_of_ne (by omega)]
    exact h.slot hi hi' hslot
  le := h.le

/-- The first packet seeds the window at most at its own number. -/
theorem seed_le (w : Window) (seqno : ℕ) : w.seed seqno ≤ seqno ∧ seqno < w.seed seqno + w.size := by
  have hsize := w.positive
  unfold seed
  dsimp only
  split_ifs <;> omega

/-- The first packet of a window that has been reset. -/
theorem insert_reset (pkt : Packet) (tv : Timeval) (inserted : ℕ → Option Packet)
    (hstate : w.state = .reset) (hbound : pkt.seqno < 2 ^ 62) :
    ∃ w', w.insert pkt tv = .ok w' ∧ w'.Holds (Function.update inserted pkt.seqno (some pkt)) ∧
      w'.begin_ = w.seed pkt.seqno ∧ w'.state = .sync := by
  have hseed := w.seed_le pkt.seqno
  have hslots : ({ w with begin_ := w.seed pkt.seqno, end_ := w.seed pkt.seqno, state := .sync }).Slots
      inserted := by
    constructor
    · exact Nat.le_add_right _ _
    · dsimp only
      omega
    · intro i hi hi'
      dsimp only at hi hi'
      omega
  have hstore := hslots.store pkt tv hseed.1 hseed.2 hbound
  refine ⟨_, ?_, hstore⟩
  simp only [insert, hstate]

/-- The insertion into a window that has been seeded, where the difference of the numbers does not wrap. -/
theorem Holds.insert_eq (h : w.Holds inserted) (pkt : Packet) (tv : Timeval) (hstate : w.state ≠ .reset)
    (hbound : pkt.seqno < 2 ^ 62) : w.insert pkt tv =
      if (pkt.seqno : ℤ) - w.begin_ < 0 then .error .underflow
      else if 0 < (pkt.seqno : ℤ) - w.begin_ - (w.size - 1) then
        if w.ready then .error .overflow
        else .ok ((w.clearLead ((pkt.seqno : ℤ) - w.begin_ - (w.size - 1)).toNat).store pkt tv)
      else .ok (w.store pkt tv) := by
  have hend := h.bound
  have hle := h.le
  have hdiff : i64 (pkt.seqno - w.begin_) = pkt.seqno - w.begin_ := i64_of_range (by omega) (by omega)
  unfold Window.insert
  rw [hdiff]
  cases hcase : w.state
  case reset => exact absurd hcase hstate
  all_goals rfl

/-- A packet for a window that has been seeded: it is refused on the left of the window, stored in it,
and beyond it refused by a window that is ready. -/
theorem Holds.insert (h : w.Holds inserted) (pkt : Packet) (tv : Timeval)
    (hstate : w.state ≠ .reset) (hbound : pkt.seqno < 2 ^ 62) :
    (w.insert pkt tv = .error .underflow ∧ pkt.seqno < w.begin_) ∨
    (w.insert pkt tv = .error .overflow ∧ w.begin_ + w.size ≤ pkt.seqno) ∨
    ∃ w', w.insert pkt tv = .ok w' ∧ w'.Holds (Function.update inserted pkt.seqno (some pkt)) ∧
      w.begin_ ≤ w'.begin_ ∧ w'.state = w.state ∧ (w.state = .ready → w'.begin_ = w.begin_) := by
  have hend := h.bound
  have hle := h.le
  have hsize := w.positive
  rw [h.insert_eq pkt tv hstate hbound]
  split_ifs with hunder hover hready
  · exact .inl ⟨rfl, by omega⟩
  · exact .inr (.inl ⟨rfl, by omega⟩)
  · have hlead := clearLead_spec w ((pkt.seqno : ℤ) - w.begin_ - (w.size - 1)).toNat (by omega)
    obtain ⟨hbegin, hend', hsize', hstate', hfewer⟩ := hlead
    have hslots := h.toSlots.fewer (by omega) hend' hsize' hfewer
    obtain ⟨hholds, hbegin'', hstate''⟩ := hslots.store pkt tv (by omega) (by omega) hbound
    refine .inr (.inr ⟨_, rfl, hholds, by omega, hstate''.trans hstate', ?_⟩)
    intro hcase
    simp [ready, hcase] at hready
  · obtain ⟨hholds, hbegin, hstate'⟩ := h.toSlots.store pkt tv (by omega) (by omega) hbound
    exact .inr (.inr ⟨_, rfl, hholds, hbegin.ge, hstate', fun _ => hbegin⟩)

/-- The flush stops at most at the end. -/
theorem Holds.skip (h : w.Holds inserted) (rounds : ℕ) {seqno : ℕ} (hle : seqno ≤ w.end_) :
    seqno ≤ w.skip rounds seqno ∧ w.skip rounds seqno ≤ w.end_ := by
  induction rounds generalizing seqno with
  | zero => exact ⟨le_refl _, hle⟩
  | succ rounds ih =>
    have hbound := h.bound
    unfold Window.skip
    split_ifs with hempty
    · rw [succ_eq (by omega)]
      obtain ⟨hl, hr⟩ := ih (show seqno + 1 ≤ w.end_ by omega)
      exact ⟨by omega, hr⟩
    · exact ⟨le_refl _, hle⟩

/-- A flush only gives up empty slots on the left. -/
theorem Holds.flush (h : w.Holds inserted) : w.flush.Holds inserted ∧ w.begin_ ≤ w.flush.begin_ := by
  unfold Window.flush
  obtain ⟨hl, hr⟩ := h.skip w.count h.le
  generalize w.skip w.count w.begin_ = seqno at hl hr
  exact ⟨⟨h.toSlots.fewer hl rfl rfl (.refl _), hr⟩, hl⟩

/-- The packet that is consumed is the one last inserted for the first number of the window. -/
theorem Holds.next (h : w.Holds inserted) (hnext : w.next = some (m, w')) :
    w'.Holds inserted ∧ w.state = .ready ∧ w'.state = .ready ∧ m.pkt.seqno = w.begin_ ∧
      inserted w.begin_ = some m.pkt ∧ w'.begin_ = w.begin_ + 1 := by
  have hbound := h.bound
  have hle := h.le
  unfold Window.next at hnext
  split_ifs at hnext with hempty
  obtain ⟨rfl, rfl⟩ := Prod.ext_iff.mp (Option.some.inj hnext)
  simp only [empty, ready, Bool.or_eq_true, beq_iff_eq, Bool.not_eq_true', beq_eq_false_iff_ne, not_or,
    Bool.not_eq_true, not_not] at hempty
  obtain ⟨⟨hne, hslot⟩, hready⟩ := hempty
  obtain ⟨hseqno, hinserted⟩ := h.slot (le_refl _) (by omega) hslot
  have hsucc : succ w.begin_ = w.begin_ + 1 := succ_eq (by omega)
  dsimp only
  refine ⟨⟨h.toSlots.fewer (by simp only [hsucc]; omega) rfl rfl (fewer_clear w w.begin_), ?_⟩,
    hready, hready, hseqno, hinserted, hsucc⟩
  simp only [hsucc, clear]
  omega

end Window

end Aug.Aspp
