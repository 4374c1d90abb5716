import Aug.Util.Timer
import Aug.Lib.Transition
import Mathlib.Data.List.Nodup
import Mathlib.Data.List.Pairwise

/-!
# The timer list

The list stays sorted over every run. It has one timer for each id as long as no timer is put back
after its callback has set another one with its id, and no new id is one that is still in use.
-/

namespace Aug.Util

open Aug.Lib Aug.Sys

variable {C : Type}

namespace Timers

/-- The timers are in the order of their expiry. -/
def Sorted (list : List (Timer C)) : Prop := list.Pairwise fun a b => a.tv.time ≤ b.tv.time

/-- No two timers have the same id. -/
def Unique (list : List (Timer C)) : Prop := (list.map Timer.id).Nodup

/-- The invariant of the list: the timers are in the order of `timercmp`, each with a normal time. -/
structure InOrder (list : List (Timer C)) : Prop where
  sorted : list.Pairwise fun a b => b.tv.lt a.tv = false
  normal : ∀ timer ∈ list, timer.tv.Normal

variable {list : List (Timer C)} {timer : Timer C}

theorem InOrder.time_sorted (h : InOrder list) : Sorted list := by
  apply h.sorted.imp_of_mem
  intro a b ha hb hab
  exact Timeval.time_le (h.normal a ha) (h.normal b hb) hab

/-- Some of the timers in order are in order. -/
theorem InOrder.sublist {rest : List (Timer C)} (h : InOrder list) (hrest : rest.Sublist list) :
    InOrder rest where
  sorted := h.sorted.sublist hrest
  normal it hit := h.normal it (hrest.subset hit)

theorem inserttimer_perm (timer : Timer C) (list : List (Timer C)) :
    (inserttimer timer list).Perm (timer :: list) := by
  induction list with
  | nil => exact .refl _
  | cons it list ih =>
    unfold inserttimer
    split_ifs
    · exact .refl _
    · exact (ih.cons it).trans (.swap timer it list)

/-- The timer goes in front of the first one that expires later. -/
theorem InOrder.inserttimer (h : InOrder list) (htimer : timer.tv.Normal) :
    InOrder (inserttimer timer list) where
  sorted := by
    have hsorted := h.sorted
    clear h
    induction list with
    | nil => exact List.pairwise_singleton _ _
    | cons it list ih =>
      obtain ⟨hit, hlist⟩ := List.pairwise_cons.mp hsorted
      unfold Timers.inserttimer
      split_ifs with hless
      · apply List.pairwise_cons.mpr ⟨_, hsorted⟩
        intro other hother
        have hfirst := Timeval.not_lt_of_lt hless
        rcases List.mem_cons.mp hother with rfl | hmem
        · exact hfirst
        · exact Timeval.not_lt_trans hfirst (hit other hmem)
      · apply List.pairwise_cons.mpr ⟨_, ih hlist⟩
        intro other hother
        rcases List.mem_cons.mp ((inserttimer_perm timer list).mem_iff.mp hother) with rfl | hmem
        · simpa using hless
        · exact hit other hmem
  normal it hit := by
    rcases List.mem_cons.mp ((inserttimer_perm timer list).mem_iff.mp hit) with rfl | hmem
    · exact htimer
    · exact h.normal it hmem

/-- A timer may be inserted if and only if its id is not yet in use. -/
theorem unique_inserttimer :
    Unique (inserttimer timer list) ↔ timer.id ∉ list.map Timer.id ∧ Unique list := by
  unfold Unique
  rw [((inserttimer_perm timer list).map Timer.id).nodup_iff, List.map_cons, List.nodup_cons]

theorem Unique.sublist {rest : List (Timer C)} (h : Unique list) (hrest : rest.Sublist list) :
    Unique rest :=
  List.Nodup.sublist (hrest.map Timer.id) h

/-- Once the first timer with an id has been removed, there is no other. -/
theorem Unique.eraseP (h : Unique list) (id : ℤ) : id ∉ (list.eraseP (·.id == id)).map Timer.id := by
  induction list with
  | nil => simp
  | cons it list ih =>
    obtain ⟨hit, hlist⟩ := List.nodup_cons.mp h
    by_cases hid : it.id = id
    · rw [List.eraseP_cons_of_pos (by simpa using hid), ← hid]
      exact hit
    · rw [List.eraseP_cons_of_neg (by simpa using hid), List.map_cons, List.mem_cons, not_or]
      exact ⟨fun heq => hid heq.symm, ih hlist⟩

/-- An expiry is the period after the reading. -/
theorem setexpiry_time {reading : Reading} {ms : ℕ} {tv : Timeval}
    (h : setexpiry (some reading) ms = some tv) : tv.Normal ∧ tv.time = reading.1.time + ms * 1000 := by
  simp only [setexpiry, Option.map_some, Option.some.injEq] at h
  rw [← h, Timeval.time_tvadd, Timeval.time_mstotv]
  exact ⟨Timeval.normal_tvadd reading.2 (Timeval.normal_mstotv ms), rfl⟩

/-- Every expiry is normal. -/
theorem normal_setexpiry {reading : Option Reading} {ms : ℕ} {tv : Timeval}
    (h : setexpiry reading ms = some tv) : tv.Normal := by
  cases reading with
  | none => cases h
  | some reading => exact (setexpiry_time h).1

/-- A timer that is forced to expire does. -/
theorem expired_self (now : Reading) : expired now.1 now.1 = true := by
  simp only [expired, Timeval.tvadd, Timeval.lt]
  by_cases hcarry : 1000000 < 5000 + now.1.usec
  · rw [if_pos hcarry]
    dsimp only
    rw [if_neg (by omega)]
    exact decide_eq_true (by omega)
  · rw [if_neg hcarry]
    dsimp only
    rw [if_pos (by omega)]
    exact decide_eq_true (by omega)

variable {timers next : Timers C} {action : TimerAction C}

/-- The ids in use. -/
def ids (timers : Timers C) : List ℤ := timers.list.map Timer.id

/-- A timer is inserted whose id is in use: after a callback that has set another timer with the id of
its own, or for a new id that has been handed out before. -/
def Repeats (timers : Timers C) : TimerAction C → Prop
  | .settimer id _ _ reading created =>
    id ≤ 0 ∧ reading.isSome ∧ created = true ∧ (nextid timers.counter).1 ∈ timers.ids
  | .return' ms reading =>
    ms ≠ 0 ∧ reading.isSome ∧ ∃ now it, timers.process = .callback now it ∧ it.id ∈ timers.ids
  | _ => False

/-- What a step does to the list: timers are removed, or one is inserted into what is left. -/
inductive Change (timers : Timers C) (action : TimerAction C) (next : List (Timer C)) : Prop
  | remove : next.Sublist timers.list → ¬Repeats timers action → Change timers action next
  | insert (timer : Timer C) (rest : List (Timer C)) : rest.Sublist timers.list → timer.tv.Normal →
    next = inserttimer timer rest →
    (Unique timers.list → (timer.id ∈ rest.map Timer.id ↔ Repeats timers action)) →
    Change timers action next

theorem canceltimer_list (id : ℤ) (timers : Timers C) :
    (timers.canceltimer id).1.list = timers.list.eraseP (·.id == id) := by
  unfold canceltimer
  split
  case h_1 => rfl
  case h_2 hnone =>
    rw [List.eraseP_of_forall_not]
    intro it hit
    exact List.find?_eq_none.mp hnone it hit

/-- A timer that is set replaces the one with its id, unless the id is new. -/
theorem settimer_change (id : ℤ) (ms : ℕ) (cb : C) (reading : Option Reading) (created : Bool)
    (timers : Timers C) : Change timers (.settimer id ms cb reading created)
      (timers.settimer id ms cb reading created).1.list := by
  simp only [settimer]
  by_cases hid : id ≤ 0
  · simp only [if_pos hid]
    split
    case h_1 tv htv =>
      have hreading : reading.isSome := by
        cases reading with
        | none => cases htv
        | some reading => rfl
      apply Change.insert _ _ (.refl _) (normal_setexpiry htv) rfl
      intro _
      exact ⟨fun hmem => ⟨hid, hreading, rfl, hmem⟩, fun hrepeats => hrepeats.2.2.2⟩
    case h_2 hfail =>
      apply Change.remove (.refl _)
      rintro ⟨-, hreading, hcreated, -⟩
      obtain ⟨reading, rfl⟩ := Option.isSome_iff_exists.mp hreading
      exact hfail _ rfl hcreated
  · simp only [if_neg hid]
    have hrest : ((timers.canceltimer id).1.list).Sublist timers.list := by
      rw [canceltimer_list]
      exact List.eraseP_sublist
    split
    case h_1 tv htv =>
      apply Change.insert _ _ hrest (normal_setexpiry htv) rfl
      intro hunique
      rw [canceltimer_list]
      exact ⟨fun hmem => absurd hmem (hunique.eraseP id), fun hrepeats => absurd hrepeats.1 hid⟩
    case h_2 => exact .remove hrest fun hrepeats => hid hrepeats.1

/-- A timer that is reset gives way to itself. -/
theorem resettimer_change (id : ℤ) (ms : ℕ) (reading : Option Reading) (timers : Timers C) :
    Change timers (.resettimer id ms reading) (timers.resettimer id ms reading).1.list := by
  unfold resettimer
  split
  case h_1 it hit =>
    have hid : it.id = id := by simpa using List.find?_some hit
    dsimp only
    split
    case h_1 tv htv =>
      apply Change.insert _ _ List.eraseP_sublist (normal_setexpiry htv) rfl
      intro hunique
      have hnot : it.id ∉ (timers.list.eraseP (·.id == id)).map Timer.id := by
        rw [hid]
        exact hunique.eraseP id
      exact ⟨fun hmem => absurd hmem hnot, nofun⟩
    case h_2 => exact .remove List.eraseP_sublist nofun
  case h_2 => exact .remove (.refl _) nofun

/-- The test of the loop at most removes the first timer. -/
theorem expire_sublist (now : Timeval) (timers : Timers C) :
    (timers.expire now).list.Sublist timers.list := by
  unfold expire
  split
  case h_1 hnil =>
    rw [hnil]
  case h_2 it list hlist =>
    rw [hlist]
    split_ifs
    · exact List.sublist_cons_self it list
    · exact .refl _

/-- The timer that is forced to expire has been removed when its callback is made. -/
theorem processexpired_sublist (force : Bool) (reading : Option Reading) (timers : Timers C) :
    (timers.processexpired force reading).list.Sublist timers.list := by
  unfold processexpired
  split
  case h_1 => exact .refl _
  case h_2 it list hlist =>
    cases reading with
    | none => exact .refl _
    | some now =>
      rw [hlist]
      cases force with
      | false => exact expire_sublist now.1 _
      | true =>
        simp only [expire, if_true, expired_self]
        exact List.sublist_cons_self it list

/-- Every step changes the list in one of the two ways. -/
theorem step_change (h : step timers action = some next) : Change timers action next.list := by
  cases action with
  | nextid =>
    simp only [step, Option.some.injEq] at h
    rw [← h]
    exact .remove (.refl _) nofun
  | settimer id ms cb reading created =>
    simp only [step] at h
    split at h
    · cases h
    · rw [Option.some.injEq] at h
      rw [← h]
      exact settimer_change id ms cb reading created timers
  | resettimer id ms reading =>
    simp only [step] at h
    split at h
    · cases h
    · rw [Option.some.injEq] at h
      rw [← h]
      exact resettimer_change id ms reading timers
  | canceltimer id =>
    simp only [step] at h
    split at h
    · cases h
    · rw [Option.some.injEq] at h
      rw [← h, canceltimer_list]
      exact .remove List.eraseP_sublist nofun
  | processexpired force reading =>
    simp only [step] at h
    split at h
    · rw [Option.some.injEq] at h
      rw [← h]
      exact .remove (processexpired_sublist force reading timers) nofun
    · cases h
  | return' ms reading =>
    simp only [step] at h
    split at h
    case h_1 now it hprocess =>
      rw [Option.some.injEq] at h
      rw [← h]
      simp only [reschedule]
      split_ifs with hms
      · exact .remove (.refl _) fun hrepeats => hrepeats.1 hms
      · split
        case h_1 tv htv =>
          have hreading : reading.isSome := by
            cases reading with
            | none => cases htv
            | some reading => rfl
          apply Change.insert _ _ (.refl _) (normal_setexpiry htv) rfl
          intro _
          constructor
          · exact fun hmem => ⟨hms, hreading, now, it, hprocess, hmem⟩
          · rintro ⟨-, -, now', it', hprocess', hmem⟩
            rw [hprocess] at hprocess'
            cases hprocess'
            exact hmem
        case h_2 hfail =>
          apply Change.remove (.refl _)
          rintro ⟨-, hreading, -⟩
          obtain ⟨reading, rfl⟩ := Option.isSome_iff_exists.mp hreading
          cases hfail
    case h_2 => cases h
  | expire =>
    simp only [step] at h
    split at h
    · rw [Option.some.injEq] at h
      rw [← h]
      exact .remove (expire_sublist _ timers) nofun
    · cases h

/-- The return from a callback and the test that follows it. -/
theorem run_return {now : Timeval} {it : Timer C} (hprocess : timers.process = .callback now it) (ms : ℕ)
    (reading : Option Reading) (actions : List (TimerAction C)) :
    run step timers (.return' ms reading :: .expire :: actions) =
      run step ((timers.reschedule now it ms reading).expire now) actions := by
  have hreturn : step timers (.return' ms reading) = some (timers.reschedule now it ms reading) := by
    simp only [step, hprocess]
  have hloop : (timers.reschedule now it ms reading).process = .loop now := by
    simp only [reschedule]
    split_ifs
    · rfl
    · split <;> rfl
  have hexpire : step (timers.reschedule now it ms reading) .expire =
      some ((timers.reschedule now it ms reading).expire now) := by
    simp only [step, hloop]
  rw [run_cons hreturn, run_cons hexpire]

/-- Every step keeps the list in order. -/
theorem InOrder.step (hin : InOrder timers.list) (h : Timers.step timers action = some next) :
    InOrder next.list := by
  cases step_change h with
  | remove hrest => exact hin.sublist hrest
  | insert timer rest hrest hnormal hlist =>
    rw [hlist]
    exact (hin.sublist hrest).inserttimer hnormal

/-- A step keeps the ids unique if it does not insert a timer whose id is in use. -/
theorem Unique.step (hunique : Unique timers.list) (h : Timers.step timers action = some next)
    (hgood : ¬Repeats timers action) : Unique next.list := by
  cases step_change h with
  | remove hrest => exact hunique.sublist hrest
  | insert timer rest hrest hnormal hlist hrepeats =>
    rw [hlist, unique_inserttimer]
    exact ⟨fun hmem => hgood ((hrepeats hunique).mp hmem), hunique.sublist hrest⟩

/-- A step that inserts a timer whose id is in use leaves two timers with it. -/
theorem Unique.step_repeats (hunique : Unique timers.list) (h : Timers.step timers action = some next)
    (hbad : Repeats timers action) : ¬Unique next.list := by
  cases step_change h with
  | remove hrest hgood => exact absurd hbad hgood
  | insert timer rest hrest hnormal hlist hrepeats =>
    rw [hlist, unique_inserttimer]
    exact fun hnext => hnext.1 ((hrepeats hunique).mpr hbad)

theorem inOrder_create : InOrder (create : Timers C).list where
  sorted := .nil
  normal it hit := by simp [create] at hit

/-- Over every run the list is sorted. -/
theorem sorted_run {actions : List (TimerAction C)} (h : run step create actions = some timers) :
    Sorted timers.list := by
  have hstep : ∀ (timers : Timers C) action next, InOrder timers.list → step timers action = some next →
      InOrder next.list := fun _ _ _ hin hstep => hin.step hstep
  exact (run_invariant hstep inOrder_create h).time_sorted

/-- Over a run the list is always sorted with one timer for each id if and only if no timer is ever
inserted whose id is in use. -/
theorem timers_iff (actions : List (TimerAction C)) (h : run step create actions = some timers) :
    Always step (fun timers => Sorted timers.list ∧ Unique timers.list) create actions ↔
      Avoids step Repeats create actions := by
  refine always_iff_avoids (fun _ _ _ hin hstep => InOrder.step hin hstep) ?_ ?_ inOrder_create
    ⟨.nil, List.nodup_nil⟩ h
  · intro timers action next hin hp hstep hgood
    exact ⟨(InOrder.step hin hstep).time_sorted, Unique.step hp.2 hstep hgood⟩
  · intro timers action next _ hp hstep hbad hnext
    exact Unique.step_repeats hp.2 hstep hbad hnext.2

/-- A clock that has just started. -/
def started : Reading := ⟨⟨0, 0⟩, by decide, by decide⟩

/-- A timer that is made to expire and set again by what its callback leaves. -/
def periodic : List (TimerAction Unit) :=
  [.settimer 7 1000 () (some started) true, .processexpired true (some started),
    .return' 1000 (some started), .expire]

theorem timers_iff_periodic :
    run step create periodic = some ⟨[⟨7, 1000, ⟨1, 0⟩, ()⟩], 1, .idle, ⟨1, 0⟩⟩ ∧
      (Always step (fun timers => Sorted timers.list ∧ Unique timers.list) create periodic ↔
        Avoids step Repeats create periodic) := by
  have hrun : run step create periodic = some ⟨[⟨7, 1000, ⟨1, 0⟩, ()⟩], 1, .idle, ⟨1, 0⟩⟩ := by decide
  exact ⟨hrun, timers_iff periodic hrun⟩

/-- The callback of a timer sets a timer with the same id and leaves the period as it is. -/
def setAgain : List (TimerAction Unit) :=
  [.settimer 7 1000 () (some started) true, .processexpired true (some started),
    .settimer 7 2000 () (some started) true, .return' 1000 (some started), .expire]

/-- Two timers with one id are left when the call has returned. -/
theorem set_again_repeats : ∃ timers : Timers Unit, run step create setAgain = some timers ∧
    timers.process = .idle ∧ timers.ids = [7, 7] ∧ ¬Unique timers.list := by
  refine ⟨⟨[⟨7, 1000, ⟨1, 0⟩, ()⟩, ⟨7, 2000, ⟨2, 0⟩, ()⟩], 1, .idle, ⟨1, 0⟩⟩, ?_, rfl, rfl, ?_⟩
  · decide
  · unfold Unique
    decide

end Timers

end Aug.Util
