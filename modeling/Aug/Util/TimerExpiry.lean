import Aug.Util.TimerInvariant
import Mathlib.Data.List.Range

/-!
# A call of `aug_processexpired`

The callbacks of a call choose the period of their own timer only. The call is compared with the time at which
it was entered: a timer is due if its expiry is before that time plus the epsilon.
-/

namespace Aug.Util

open Aug.Lib Aug.Sys

/-- The period that a callback leaves, and what the clock then returns. -/
abbrev Answer := ℕ × Option Reading

namespace Timers

variable {C : Type}

/-- Make the callbacks of a call, with an answer for each: the timers called, and what is left at the end. -/
def serve (timers : Timers C) : List Answer → Option (List (Timer C) × Timers C)
  | [] =>
    match timers.process with
    | .idle => some ([], timers)
    | _ => none
  | (ms, reading) :: answers =>
    match timers.process with
    | .callback now it =>
      (serve ((timers.reschedule now it ms reading).expire now) answers).map fun (called, last) => (it :: called, last)
    | _ => none

/-- The list as the loop finds it: the first timer has been forced to expire, or not. -/
def entry (force : Bool) (now : Reading) : List (Timer C) → List (Timer C)
  | [] => []
  | it :: list => (if force then { it with tv := now.1 } else it) :: list

/-- The timer expires before the time plus the epsilon. -/
def due (now : Timeval) (it : Timer C) : Bool := it.tv.time < now.time + 5000

/-- The timer that is called, and those in the list that are due. -/
def pending (now : Timeval) (timers : Timers C) : List (Timer C) :=
  match timers.process with
  | .callback _ it => it :: timers.list.filter (due now)
  | _ => timers.list.filter (due now)

/-- The time to the next expiry is exact, and not within the epsilon; it is zero without a timer. -/
def Output (now : Timeval) (timers : Timers C) : Prop :=
  (timers.next = ⟨0, 0⟩ ↔ timers.list = []) ∧
    ∀ it ∈ timers.list.head?, timers.next.time = it.tv.time - now.time ∧ 5000 ≤ timers.next.time

/-- What holds whenever the loop has tested its first timer. -/
structure Tested (now : Timeval) (timers : Timers C) : Prop where
  inOrder : InOrder timers.list
  callback : ∀ {at' it}, timers.process = .callback at' it → at' = now ∧ due now it = true
  idle : timers.process = .idle → Output now timers ∧ timers.list.filter (due now) = []
  between : ∀ at', timers.process ≠ .loop at'

variable {now : Timeval} {list called : List (Timer C)} {timer : Timer C} {timers last : Timers C}

/-- Each answer is a return and a test of the loop. -/
theorem serve_run {answers : List Answer} (h : serve timers answers = some (called, last)) :
    run step timers (answers.flatMap fun answer => [.return' answer.1 answer.2, .expire]) = some last := by
  induction answers generalizing timers called with
  | nil =>
    simp only [serve] at h
    split at h
    · cases h
      rfl
    · cases h
  | cons answer answers ih =>
    simp only [serve] at h
    split at h
    · rename_i now it hprocess
      rw [Option.map_eq_some_iff] at h
      obtain ⟨⟨rest, final⟩, hserve, hpair⟩ := h
      cases hpair
      rw [List.flatMap_cons]
      exact (run_return hprocess answer.1 answer.2 _).trans (ih hserve)
    · cases h

/-- `expired_` compares with the time plus the epsilon. -/
theorem expired_iff (hnow : now.Normal) (htimer : timer.tv.Normal) : expired now timer.tv = due now timer := by
  obtain ⟨hnowf, hnowl⟩ := hnow
  obtain ⟨htimerf, htimerl⟩ := htimer
  rw [Bool.eq_iff_iff]
  unfold expired due Timeval.tvadd Timeval.lt Timeval.time
  dsimp only
  split_ifs with hcarry hsec hsec <;> dsimp only at hsec ⊢ <;> rw [decide_eq_true_iff, decide_eq_true_iff] <;> omega

/-- If the first timer is not due, none is. -/
theorem InOrder.filter_due (h : InOrder (timer :: list)) (hdue : due now timer = false) :
    (timer :: list).filter (due now) = [] := by
  apply List.filter_eq_nil_iff.mpr
  intro it hit
  have hle : timer.tv.time ≤ it.tv.time := by
    cases List.mem_cons.mp hit with
    | inl heq => rw [heq]
    | inr hmem => exact (List.pairwise_cons.mp h.time_sorted).1 it hmem
  unfold due at hdue ⊢
  rw [decide_eq_false_iff_not] at hdue
  rw [decide_eq_true_iff]
  omega

/-- A timer that is not due is inserted among the others. -/
theorem filter_inserttimer (hdue : due now timer = false) :
    (inserttimer timer list).filter (due now) = list.filter (due now) := by
  induction list with
  | nil => simp [inserttimer, hdue]
  | cons it list ih =>
    unfold inserttimer
    split_ifs
    · exact List.filter_cons_of_neg (by rw [hdue]; exact Bool.false_ne_true)
    · rw [List.filter_cons, List.filter_cons, ih]

/-- The time to an expiry that is not due is exact. -/
theorem output_tvsub (hnow : now.Normal) (htimer : timer.tv.Normal) (hdue : due now timer = false) :
    (timer.tv.tvsub now).time = timer.tv.time - now.time ∧ 5000 ≤ (timer.tv.tvsub now).time := by
  unfold due at hdue
  rw [decide_eq_false_iff_not] at hdue
  obtain ⟨hnowf, hnowl⟩ := hnow
  obtain ⟨htimerf, htimerl⟩ := htimer
  unfold Timeval.time at hdue ⊢
  have hlt : timer.tv.lt now = false := by
    unfold Timeval.lt
    split_ifs <;> rw [decide_eq_false_iff_not] <;> omega
  unfold Timeval.tvsub
  rw [hlt]
  dsimp only
  simp only [Bool.false_eq_true, if_false]
  split_ifs <;> dsimp only <;> omega

/-- The test of the loop calls the first timer if it is due, and ends the call else. -/
theorem tested_expire (hnow : now.Normal) (h : InOrder timers.list) :
    Tested now (timers.expire now) ∧ pending now (timers.expire now) = timers.list.filter (due now) := by
  unfold expire
  split
  · rename_i hnil
    refine ⟨⟨h, nofun, fun _ => ⟨⟨?_, ?_⟩, ?_⟩, nofun⟩, rfl⟩
    · simp [hnil]
    · simp [hnil]
    · simp [hnil]
  · rename_i it rest hlist
    have hcons : InOrder (it :: rest) := hlist ▸ h
    have hit := hcons.normal it List.mem_cons_self
    have hexpired := expired_iff hnow hit
    split_ifs with hdue
    · rw [hexpired] at hdue
      refine ⟨⟨hcons.sublist (List.sublist_cons_self it rest), ?_, nofun, nofun⟩, ?_⟩
      · rintro _ _ ⟨⟩
        exact ⟨rfl, hdue⟩
      · rw [hlist]
        exact (List.filter_cons_of_pos hdue).symm
    · rw [hexpired, Bool.not_eq_true] at hdue
      have hfilter : timers.list.filter (due now) = [] := hlist ▸ hcons.filter_due hdue
      obtain ⟨hexact, hleast⟩ := output_tvsub hnow hit hdue
      refine ⟨⟨h, nofun, fun _ => ⟨⟨?_, ?_⟩, hfilter⟩, nofun⟩, rfl⟩
      · constructor
        · intro hzero
          dsimp only at hzero
          rw [hzero] at hleast
          exact absurd hleast (by decide)
        · intro hnil
          exact absurd (hlist.symm.trans hnil) (List.cons_ne_nil it rest)
      · intro other hother
        have hhead : timers.list.head? = some it := by rw [hlist, List.head?_cons]
        cases hhead.symm.trans hother
        exact ⟨hexact, hleast⟩

/-- Inserting a timer leaves the others in their order. -/
theorem sublist_inserttimer (timer : Timer C) (list : List (Timer C)) : list.Sublist (inserttimer timer list) := by
  induction list with
  | nil => exact List.nil_sublist _
  | cons it list ih =>
    unfold inserttimer
    split_ifs
    · exact List.sublist_cons_self timer _
    · exact ih.cons_cons it

/-- So does what follows a callback. -/
theorem sublist_reschedule (now : Timeval) (timers : Timers C) (it : Timer C) (ms : ℕ) (reading : Option Reading) :
    timers.list.Sublist (timers.reschedule now it ms reading).list := by
  unfold reschedule
  dsimp only
  split_ifs
  · exact .refl _
  · split
    · exact sublist_inserttimer _ _
    · exact .refl _

/-- The list after a callback, in front of the next test. -/
theorem reschedule_inOrder (now : Timeval) (h : InOrder timers.list) (it : Timer C) (ms : ℕ) (reading : Option Reading) :
    InOrder (timers.reschedule now it ms reading).list := by
  unfold reschedule
  dsimp only
  split_ifs
  · exact h
  · split
    · rename_i tv htv
      exact h.inserttimer (normal_setexpiry htv)
    · exact h

/-- A call calls the timers in the list that are due, in their order, and none that is not. -/
theorem serve_spec {answers : List Answer} (hnow : now.Normal) (h : Tested now timers)
    (hserve : serve timers answers = some (called, last)) :
    (pending now timers).Sublist called ∧ (∀ it ∈ called, due now it = true) ∧ Output now last := by
  induction answers generalizing timers called with
  | nil =>
    simp only [serve] at hserve
    split at hserve
    · rename_i hprocess
      cases hserve
      have hnone : pending now last = [] := by
        rw [pending, hprocess]
        exact (h.idle hprocess).2
      rw [hnone]
      exact ⟨.refl _, nofun, (h.idle hprocess).1⟩
    · cases hserve
  | cons answer answers ih =>
    simp only [serve] at hserve
    split at hserve
    · rename_i at' it hprocess
      obtain ⟨rfl, hdue⟩ := h.callback hprocess
      rw [Option.map_eq_some_iff] at hserve
      obtain ⟨⟨rest, final⟩, hserve, hpair⟩ := hserve
      cases hpair
      have horder := reschedule_inOrder at' h.inOrder it answer.1 answer.2
      obtain ⟨htested, hpending⟩ := tested_expire hnow horder
      obtain ⟨hsub, hall, hout⟩ := ih htested hserve
      refine ⟨?_, ?_, hout⟩
      · rw [hpending] at hsub
        have hrest := (sublist_reschedule at' timers it answer.1 answer.2).filter (due at')
        rw [pending, hprocess]
        exact (hrest.trans hsub).cons_cons it
      · intro other hother
        cases List.mem_cons.mp hother with
        | inl heq => rwa [heq]
        | inr hmem => exact hall other hmem
    · cases hserve

/-- Up to its first test the call only makes its first timer expire. -/
theorem tested_processexpired (force : Bool) (now : Reading) (hidle : timers.process = .idle)
    (h : InOrder timers.list) : Tested now.1 (timers.processexpired force (some now)) ∧
      pending now.1 (timers.processexpired force (some now)) =
        (entry force now timers.list).filter (due now.1) := by
  unfold processexpired
  split
  · rename_i hnil
    refine ⟨⟨h, ?_, fun _ => ⟨⟨?_, ?_⟩, ?_⟩, ?_⟩, ?_⟩
    · intro at' it hprocess
      exact absurd (hidle.symm.trans hprocess) nofun
    · simp [hnil]
    · simp [hnil]
    · simp [hnil]
    · intro at' hprocess
      exact absurd (hidle.symm.trans hprocess) nofun
    · simp [pending, hidle, hnil, entry]
  · rename_i it list hlist
    have hcons : InOrder (it :: list) := hlist ▸ h
    dsimp only
    rw [hlist, entry]
    cases force with
    | false => exact tested_expire now.2 hcons
    | true =>
      have hdue : due now.1 { it with tv := now.1 } = true := by
        unfold due
        rw [decide_eq_true_iff]
        dsimp only
        omega
      simp only [expire, if_true, expired_self]
      refine ⟨⟨hcons.sublist (List.sublist_cons_self it list), ?_, nofun, nofun⟩, ?_⟩
      · rintro _ _ ⟨⟩
        exact ⟨rfl, hdue⟩
      · exact (List.filter_cons_of_pos hdue).symm

/-- When a call returns, it has called the timers that were due in their order, the forced one with them, and
none when it was not due, and its output is exact. -/
theorem processexpired_spec {force : Bool} {now : Reading} {answers : List Answer} (hidle : timers.process = .idle)
    (h : InOrder timers.list)
    (hserve : serve (timers.processexpired force (some now)) answers = some (called, last)) :
    ((entry force now timers.list).filter (due now.1)).Sublist called ∧ (∀ it ∈ called, due now.1 it = true) ∧
      Output now.1 last := by
  obtain ⟨htested, hpending⟩ := tested_processexpired force now hidle h
  rw [← hpending]
  exact serve_spec now.2 htested hserve

/-- One timer is due, and another one is not. -/
def oneDue : Timers Unit :=
  ⟨[⟨7, 1000, ⟨0, 4999⟩, ()⟩, ⟨8, 1000, ⟨0, 5000⟩, ()⟩], 1, .idle, ⟨0, 0⟩⟩

theorem oneDue_inOrder : InOrder oneDue.list where
  sorted := by decide
  normal := by
    unfold Timeval.Normal
    decide

theorem processexpired_spec_sample : serve (oneDue.processexpired false (some started)) [(0, none)] =
      some ([⟨7, 1000, ⟨0, 4999⟩, ()⟩], ⟨[⟨8, 1000, ⟨0, 5000⟩, ()⟩], 1, .idle, ⟨0, 5000⟩⟩) ∧
    Output started.1 (⟨[⟨8, 1000, ⟨0, 5000⟩, ()⟩], 1, .idle, ⟨0, 5000⟩⟩ : Timers Unit) := by
  have hserve : serve (oneDue.processexpired false (some started)) [(0, none)] =
      some ([⟨7, 1000, ⟨0, 4999⟩, ()⟩], ⟨[⟨8, 1000, ⟨0, 5000⟩, ()⟩], 1, .idle, ⟨0, 5000⟩⟩) := by decide
  exact ⟨hserve, (processexpired_spec rfl oneDue_inOrder hserve).2.2⟩

/-! ## Whether the call ends -/

/-- The timers with their places in the list, which tell them apart. -/
def placed (timers : Timers C) : Timers (C × ℕ) where
  list := timers.list.zipIdx.map fun (it, place) => { it with cb := (it.cb, place) }
  counter := timers.counter
  process := .idle
  next := timers.next

/-- The call ends, and no timer is called twice. -/
def EndsOnce (timers : Timers C) (answers : ℕ → Answer) : Prop :=
  ∃ n called last, serve timers ((List.range n).map answers) = some (called, last) ∧ (called.map Timer.cb).Nodup

/-- The timer is not put back to a time at which it is due. -/
def Later (now : Timeval) (answer : Answer) : Prop :=
  answer.1 ≠ 0 → ∀ reading ∈ answer.2, now.time + 5000 ≤ reading.1.time + answer.1 * 1000

/-- After such an answer the same timers are due as before. -/
theorem filter_reschedule {it : Timer C} {answer : Answer} (h : Later now answer) :
    (timers.reschedule now it answer.1 answer.2).list.filter (due now) = timers.list.filter (due now) := by
  unfold reschedule
  dsimp only
  split_ifs with hms
  · rfl
  · split
    · rename_i tv htv
      apply filter_inserttimer
      obtain ⟨reading, hreading⟩ : ∃ reading, answer.2 = some reading := by
        cases hanswer : answer.2 with
        | none =>
          rw [hanswer] at htv
          cases htv
        | some reading => exact ⟨reading, rfl⟩
      rw [hreading] at htv
      have htime := (setexpiry_time htv).2
      have hlater := h hms reading hreading
      unfold due
      rw [decide_eq_false_iff_not]
      dsimp only
      omega
    · rfl

/-- After any other the timer is due again. -/
theorem mem_reschedule (timers : Timers C) (it : Timer C) {answer : Answer} (h : ¬Later now answer) :
    ∃ again ∈ (timers.reschedule now it answer.1 answer.2).list.filter (due now), again.cb = it.cb := by
  unfold Later at h
  push Not at h
  obtain ⟨hms, reading, hreading, hless⟩ := h
  have hanswer : answer.2 = some reading := hreading
  obtain ⟨tv, htv⟩ : ∃ tv, setexpiry answer.2 answer.1 = some tv := by
    rw [hanswer]
    exact ⟨_, rfl⟩
  have hlist : (timers.reschedule now it answer.1 answer.2).list =
      inserttimer { it with ms := answer.1, tv } timers.list := by
    simp only [reschedule, if_neg hms, htv]
  rw [hanswer] at htv
  have htime := (setexpiry_time htv).2
  refine ⟨{ it with ms := answer.1, tv }, ?_, rfl⟩
  rw [hlist, List.mem_filter]
  constructor
  · exact (inserttimer_perm _ _).mem_iff.mpr List.mem_cons_self
  · unfold due
    rw [decide_eq_true_iff]
    dsimp only
    omega

theorem range_succ_map (n : ℕ) (answers : ℕ → Answer) :
    (List.range (n + 1)).map answers = answers 0 :: (List.range n).map fun k => answers (k + 1) := by
  rw [List.range_succ_eq_map, List.map_cons, List.map_map]
  rfl

/-- If no timer is put back as due, those that are due are called, and no others. -/
theorem serve_pending (answers : ℕ → Answer) (hnow : now.Normal) (h : Tested now timers)
    (hlater : ∀ k < (pending now timers).length, Later now (answers k)) :
    ∃ last, serve timers ((List.range (pending now timers).length).map answers) = some (pending now timers, last) := by
  induction hlist : pending now timers generalizing timers answers with
  | nil =>
    cases hprocess : timers.process with
    | idle =>
      refine ⟨timers, ?_⟩
      rw [List.length_nil, List.range_zero, List.map_nil, serve, hprocess]
    | callback at' it => simp [pending, hprocess] at hlist
    | loop at' => exact absurd hprocess (h.between at')
  | cons it rest ih =>
    cases hprocess : timers.process with
    | idle =>
      rw [pending, hprocess] at hlist
      exact absurd ((h.idle hprocess).2.symm.trans hlist) nofun
    | callback at' other =>
      obtain ⟨rfl, hdue⟩ := h.callback hprocess
      rw [hlist] at hlater
      rw [pending, hprocess] at hlist
      obtain ⟨rfl, hrest⟩ := List.cons.inj hlist
      have hfirst := hlater 0 (Nat.succ_pos rest.length)
      have horder := reschedule_inOrder at' h.inOrder other (answers 0).1 (answers 0).2
      obtain ⟨htested, hpending⟩ := tested_expire hnow horder
      rw [filter_reschedule hfirst, hrest] at hpending
      obtain ⟨last, hserve⟩ := ih (fun k => answers (k + 1)) htested
        (by rw [hpending]; exact fun k hk => hlater (k + 1) (Nat.succ_lt_succ hk)) hpending
      refine ⟨last, ?_⟩
      rw [List.length_cons, range_succ_map]
      simp only [serve, hprocess, hserve, Option.map_some]
    | loop at' => exact absurd hprocess (h.between at')

/-- If the call ends and calls no timer twice, none has been put back as due. -/
theorem later_of_serve {answers : ℕ → Answer} {n : ℕ} (hnow : now.Normal) (h : Tested now timers)
    (hserve : serve timers ((List.range n).map answers) = some (called, last)) (honce : (called.map Timer.cb).Nodup) :
    ∀ k < (pending now timers).length, Later now (answers k) := by
  induction n generalizing timers answers called with
  | zero =>
    have hsub := (serve_spec hnow h hserve).1
    simp only [List.range_zero, List.map_nil, serve] at hserve
    split at hserve
    · cases hserve
      rw [List.sublist_nil.mp hsub]
      exact fun k hk => absurd hk (Nat.not_lt_zero k)
    · cases hserve
  | succ n ih =>
    rw [range_succ_map] at hserve
    simp only [serve] at hserve
    split at hserve
    · rename_i at' it hprocess
      obtain ⟨rfl, hdue⟩ := h.callback hprocess
      rw [Option.map_eq_some_iff] at hserve
      obtain ⟨⟨rest, final⟩, hserve, hpair⟩ := hserve
      cases hpair
      obtain ⟨hnot, hrest⟩ := List.nodup_cons.mp honce
      have horder := reschedule_inOrder at' h.inOrder it (answers 0).1 (answers 0).2
      obtain ⟨htested, hpending⟩ := tested_expire hnow horder
      have hfirst : Later at' (answers 0) := by
        by_contra hagain
        obtain ⟨again, hmem, hcb⟩ := mem_reschedule timers it hagain
        rw [← hpending] at hmem
        have hcalled := (serve_spec hnow htested hserve).1.subset hmem
        exact hnot (hcb ▸ List.mem_map_of_mem hcalled)
      have hlater := ih htested hserve hrest
      rw [hpending, filter_reschedule hfirst] at hlater
      rw [pending, hprocess]
      intro k hk
      cases k with
      | zero => exact hfirst
      | succ k => exact hlater k (Nat.lt_of_succ_lt_succ hk)
    · cases hserve

/-- The places count the list. -/
theorem placed_fst (list : List (Timer C)) (place : ℕ) : (list.zipIdx place).map Prod.fst = list :=
  List.zipIdx_map_fst place list

theorem placed_nodup (timers : Timers C) : (timers.placed.list.map Timer.cb).Nodup := by
  have hplaces : ((timers.placed.list.map Timer.cb).map Prod.snd) = List.range' 0 timers.list.length := by
    rw [placed, List.map_map, List.map_map, ← List.zipIdx_map_snd 0 timers.list]
    rfl
  apply List.Nodup.of_map Prod.snd
  rw [hplaces]
  exact List.nodup_range'

/-- The timers stay in order. -/
theorem inOrder_placed (h : InOrder timers.list) : InOrder timers.placed.list where
  sorted := by
    have hsorted := h.sorted
    rw [← placed_fst timers.list 0, List.pairwise_map] at hsorted
    exact List.pairwise_map.mpr hsorted
  normal it hit := by
    obtain ⟨⟨other, place⟩, hmem, rfl⟩ := List.mem_map.mp hit
    have hother : other ∈ timers.list := by
      rw [← placed_fst timers.list 0]
      exact List.mem_map_of_mem hmem
    exact h.normal other hother

/-- As many timers are due as before. -/
theorem countP_placed (now : Timeval) (list : List (Timer C)) (place : ℕ) :
    ((list.zipIdx place).map fun (it, place) => { it with cb := (it.cb, place) }).countP (due now) =
      list.countP (due now) := by
  conv_rhs => rw [← placed_fst list place]
  rw [List.countP_map, List.countP_map]
  rfl

theorem entry_placed (force : Bool) (now : Reading) (timers : Timers C) :
    ((entry force now timers.placed.list).filter (due now.1)).length =
      ((entry force now timers.list).filter (due now.1)).length := by
  rw [← List.countP_eq_length_filter, ← List.countP_eq_length_filter]
  cases hlist : timers.list with
  | nil => rw [placed, hlist]; rfl
  | cons it list =>
    rw [placed, hlist, List.zipIdx_cons, List.map_cons, entry, entry, List.countP_cons, List.countP_cons, countP_placed]
    cases force <;> rfl

/-- Forcing a timer leaves its callback. -/
theorem entry_cb (force : Bool) (now : Reading) (list : List (Timer C)) :
    (entry force now list).map Timer.cb = list.map Timer.cb := by
  cases list with
  | nil => rfl
  | cons it list =>
    rw [entry, List.map_cons, List.map_cons]
    cases force <;> rfl

/-- The call ends if no timer that is due is put back as due. -/
theorem endsOnce_of_later {force : Bool} {now : Reading} {answers : ℕ → Answer} (h : InOrder timers.list)
    (hlater : ∀ k < ((entry force now timers.list).filter (due now.1)).length, Later now.1 (answers k)) :
    EndsOnce (timers.placed.processexpired force (some now)) answers := by
  obtain ⟨htested, hpending⟩ := tested_processexpired force now rfl (inOrder_placed h)
  rw [← entry_placed, ← hpending] at hlater
  obtain ⟨last, hserve⟩ := serve_pending answers now.2 htested hlater
  refine ⟨_, _, last, hserve, ?_⟩
  rw [hpending]
  have hsub := (List.filter_sublist (p := due now.1) (l := entry force now timers.placed.list)).map Timer.cb
  rw [entry_cb] at hsub
  exact (placed_nodup timers).sublist hsub

/-- On a clock that does not go back, periods of at least the epsilon are enough. -/
theorem endsOnce_of_period {force : Bool} {now : Reading} {answers : ℕ → Answer} (h : InOrder timers.list)
    (hperiod : ∀ k, (answers k).1 = 0 ∨ 5 ≤ (answers k).1)
    (hclock : ∀ k, ∀ reading ∈ (answers k).2, now.1.time ≤ reading.1.time) :
    EndsOnce (timers.placed.processexpired force (some now)) answers := by
  apply endsOnce_of_later h
  intro k _ hms reading hreading
  have hfive := (hperiod k).resolve_left hms
  have htime := hclock k reading hreading
  omega

end Timers

end Aug.Util
