import Mathlib.Data.List.Nodup

/-!
# One turn for each entry

A pass goes through a list of keys, and keys may go while it is under way. What has happened is a log, in
which an event may be the turn of a key, or the going of one. The pass is extended by the turn of the next
key, and by the next key if it has gone.
-/

namespace Aug.Lib

variable {E K : Type*} {turn gone : E → Option K} {order front back : List K} {k other : K}

/-- The place of a key in the order. -/
theorem behind_eq (hnodup : order.Nodup) (horder : order = front ++ k :: back) {before behind : List K}
    (horder' : order = before ++ k :: behind) : behind = back := by
  rw [horder'] at hnodup horder
  obtain ⟨-, hcons, hdisjoint⟩ := List.nodup_append.mp hnodup
  have hbefore : k ∉ before := fun hmem => hdisjoint k hmem k List.mem_cons_self rfl
  have hbehind : k ∉ behind := (List.nodup_cons.mp hcons).1
  exact ((List.append_cons_inj_of_notMem hbefore hbehind).mp horder).2.2

theorem next_notMem (hnodup : order.Nodup) (horder : order = front ++ k :: back) (hother : other ∈ k :: back) :
    other ∉ front := by
  rw [horder, List.nodup_append] at hnodup
  intro hmem
  exact hnodup.2.2 other hmem other hother rfl

variable [DecidableEq K]

/-- The number of turns of a key. -/
def turns (turn : E → Option K) (log : List E) (k : K) : ℕ := (log.filterMap turn).count k

/-- The key has had one turn, or none, and then it has gone before the turns of the keys behind it. -/
def HadTurn (turn gone : E → Option K) (log : List E) (k : K) (behind : List K) : Prop :=
  turns turn log k = 1 ∨ turns turn log k = 0 ∧ ∃ before event after, log = before ++ event :: after ∧
    gone event = some k ∧ ∀ other ∈ behind, turns turn before other = 0

/-- The pass has gone through the first keys of the order, where some of the keys were there at first. -/
structure Swept (turn gone : E → Option K) (order : List K) (there : K → Prop) (log : List E) (front : List K) :
    Prop where
  through : ∃ back, order = front ++ back
  only : ∀ k, turns turn log k ≠ 0 → k ∈ front
  had : ∀ before k behind, order = before ++ k :: behind → k ∈ front → there k → HadTurn turn gone log k behind

variable {skipped : List K} {there : K → Prop} {log news : List E} {event : E}

theorem turns_append (turn : E → Option K) (log news : List E) (k : K) :
    turns turn (log ++ news) k = turns turn log k + turns turn news k := by
  rw [turns, List.filterMap_append, List.count_append, turns, turns]

theorem turns_eq_zero (h : ∀ event ∈ news, turn event = none) (k : K) : turns turn news k = 0 := by
  rw [turns, List.filterMap_eq_nil_iff.mpr h, List.count_nil]

theorem turns_singleton (h : turn event = some k) (other : K) : turns turn [event] other = if k = other then 1 else 0 := by
  rw [turns, List.filterMap_cons_some h, List.filterMap_nil, List.count_singleton]
  by_cases heq : k = other
  · rw [if_pos heq, if_pos (beq_iff_eq.mpr heq)]
  · rw [if_neg heq, if_neg fun h => heq (beq_iff_eq.mp h)]

/-- A turn is in the log. -/
theorem exists_turn (h : turns turn log k ≠ 0) : ∃ event ∈ log, turn event = some k :=
  List.mem_filterMap.mp (List.count_pos_iff.mp (Nat.pos_of_ne_zero h))

theorem turns_pos (hmem : event ∈ log) (h : turn event = some k) : turns turn log k ≠ 0 :=
  Nat.ne_of_gt (List.count_pos_iff.mpr (List.mem_filterMap.mpr ⟨event, hmem, h⟩))

/-- Events that are no turns of the key change nothing for it. -/
theorem HadTurn.append {behind : List K} (h : HadTurn turn gone log k behind) (hnews : turns turn news k = 0) :
    HadTurn turn gone (log ++ news) k behind := by
  rw [HadTurn, turns_append, hnews, Nat.add_zero]
  cases h with
  | inl hone => exact .inl hone
  | inr hgone =>
    obtain ⟨hzero, before, event, after, hlog, hevent, hbehind⟩ := hgone
    apply Or.inr
    refine ⟨hzero, before, event, after ++ news, ?_, hevent, hbehind⟩
    rw [hlog, List.append_assoc, List.cons_append]

theorem Swept.start (turn gone : E → Option K) (order : List K) (there : K → Prop) :
    Swept turn gone order there [] [] where
  through := ⟨order, rfl⟩
  only _ h := absurd rfl h
  had _ _ _ _ hk := absurd hk List.not_mem_nil

/-- Nothing has its turn. -/
theorem Swept.quiet (h : Swept turn gone order there log front) (hnews : ∀ event ∈ news, turn event = none) :
    Swept turn gone order there (log ++ news) front where
  through := h.through
  only k hk := by
    rw [turns_append, turns_eq_zero hnews, Nat.add_zero] at hk
    exact h.only k hk
  had before k behind horder hk hthere := (h.had before k behind horder hk hthere).append (turns_eq_zero hnews k)

/-- The next key has its turn. -/
theorem Swept.next (h : Swept turn gone order there log front) (hnodup : order.Nodup) (horder : order = front ++ k :: back)
    (hevent : turn event = some k) : Swept turn gone order there (log ++ [event]) (front ++ [k]) where
  through := ⟨back, by rw [horder, List.append_assoc, List.singleton_append]⟩
  only other hother := by
    rw [turns_append, turns_singleton hevent] at hother
    by_cases heq : k = other
    · rw [heq]
      exact List.mem_append_right _ List.mem_cons_self
    · rw [if_neg heq, Nat.add_zero] at hother
      exact List.mem_append_left _ (h.only other hother)
  had before other behind horder' hother hthere := by
    cases List.mem_append.mp hother with
    | inl hfront =>
      apply (h.had before other behind horder' hfront hthere).append
      rw [turns_singleton hevent, if_neg]
      intro heq
      rw [← heq] at hfront
      exact next_notMem hnodup horder List.mem_cons_self hfront
    | inr hk =>
      rw [List.mem_singleton] at hk
      have hzero : turns _ log k = 0 :=
        of_not_not fun hne => next_notMem hnodup horder List.mem_cons_self (h.only k hne)
      apply Or.inl
      rw [hk, turns_append, turns_singleton hevent, hzero, if_pos rfl]

/-- The next key is passed over: it was not there, or it has gone. -/
theorem Swept.skip (h : Swept turn gone order there log front) (hnodup : order.Nodup) (horder : order = front ++ k :: back)
    (hgone : there k → ∃ event ∈ log, gone event = some k) : Swept turn gone order there log (front ++ [k]) where
  through := ⟨back, by rw [horder, List.append_assoc, List.singleton_append]⟩
  only other hother := List.mem_append_left _ (h.only other hother)
  had before other behind horder' hother hthere := by
    cases List.mem_append.mp hother with
    | inl hfront => exact h.had before other behind horder' hfront hthere
    | inr hk =>
      rw [List.mem_singleton] at hk
      rw [hk] at horder' hthere ⊢
      rw [behind_eq hnodup horder horder']
      obtain ⟨event, hmem, hevent⟩ := hgone hthere
      obtain ⟨first, after, hlog⟩ := List.append_of_mem hmem
      have hnone : ∀ key ∈ k :: back, turns turn log key = 0 := by
        intro key hkey
        apply of_not_not
        intro hne
        exact next_notMem hnodup horder hkey (h.only key hne)
      apply Or.inr
      refine ⟨hnone k List.mem_cons_self, first, event, after, hlog, hevent, ?_⟩
      intro key hkey
      have hzero := hnone key (List.mem_cons_of_mem _ hkey)
      rw [hlog, turns_append] at hzero
      exact Nat.eq_zero_of_add_eq_zero_right hzero

/-- The next keys are all passed over. -/
theorem Swept.skips (h : Swept turn gone order there log front) (hnodup : order.Nodup)
    (horder : order = front ++ (skipped ++ back))
    (hgone : ∀ k ∈ skipped, there k → ∃ event ∈ log, gone event = some k) :
    Swept turn gone order there log (front ++ skipped) := by
  induction skipped generalizing front with
  | nil =>
    rw [List.append_nil]
    exact h
  | cons k skipped ih =>
    obtain ⟨hk, hrest⟩ := List.forall_mem_cons.mp hgone
    have hskip := h.skip hnodup horder hk
    have horder' : order = (front ++ [k]) ++ (skipped ++ back) := by
      rw [horder, List.append_assoc, List.singleton_append, List.cons_append]
    have hall := ih hskip horder' hrest
    rw [List.append_assoc, List.singleton_append] at hall
    exact hall

end Aug.Lib
