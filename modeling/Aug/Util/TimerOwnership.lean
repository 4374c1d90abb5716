import Aug.Util.TimerBlocks
import Aug.Util.TimerInvariant
import Mathlib.Algebra.Order.Group.Multiset
import Mathlib.Tactic.Abel

/-!
# Who owns a timer

A timer that has been allocated is in the list, in a callback or freed, and its object is retained and released
with it. Every step moves timers between these places; a callback whose timer cannot be set again loses it.
-/

namespace Aug.Util

open Aug.Lib Aug.Sys

variable {C : Type}

namespace Store

/-! ## What the effects come to -/

/-- The timers that have been allocated. -/
def allocated (effects : List (Effect C)) : List (Block C) :=
  effects.filterMap fun | .alloc block => some block | _ => none

/-- The timers whose objects have been retained. -/
def retained (effects : List (Effect C)) : List (Block C) :=
  effects.filterMap fun | .retain block => some block | _ => none

/-- The timers whose objects have been released. -/
def released (effects : List (Effect C)) : List (Block C) :=
  effects.filterMap fun | .release block => some block | _ => none

/-- The timers that have been freed. -/
def freed (effects : List (Effect C)) : List (Block C) :=
  effects.filterMap fun | .free block => some block | _ => none

/-- The timers with an object. -/
def withObject (blocks : List (Block C)) : List (Block C) := blocks.filter fun block => block.ob.isSome

/-- Timers are created with what they retain. -/
theorem effects_createtimer (blocks : List (Block C)) :
    allocated (blocks.flatMap createtimer) = blocks ∧ retained (blocks.flatMap createtimer) = withObject blocks ∧
      released (blocks.flatMap createtimer) = [] ∧ freed (blocks.flatMap createtimer) = [] := by
  induction blocks with
  | nil => exact ⟨rfl, rfl, rfl, rfl⟩
  | cons block blocks ih =>
    obtain ⟨hallocated, hretained, hreleased, hfreed⟩ := ih
    unfold allocated retained released freed withObject at *
    rw [List.flatMap_cons]
    simp only [List.filterMap_append, hallocated, hretained, hreleased, hfreed]
    cases hob : block.ob <;> simp [createtimer, hob]

/-- They are destroyed with what they release. -/
theorem effects_destroytimer (blocks : List (Block C)) :
    allocated (blocks.flatMap destroytimer) = [] ∧ retained (blocks.flatMap destroytimer) = [] ∧
      released (blocks.flatMap destroytimer) = withObject blocks ∧ freed (blocks.flatMap destroytimer) = blocks := by
  induction blocks with
  | nil => exact ⟨rfl, rfl, rfl, rfl⟩
  | cons block blocks ih =>
    obtain ⟨hallocated, hretained, hreleased, hfreed⟩ := ih
    unfold allocated retained released freed withObject at *
    rw [List.flatMap_cons]
    simp only [List.filterMap_append, hallocated, hretained, hreleased, hfreed]
    cases hob : block.ob <;> simp [destroytimer, hob]

/-! ## The places of a timer -/

/-- The timers of a list. -/
def blocks (list : List (Timer (Block C))) : Multiset (Block C) := (list.map Timer.cb : List (Block C))

/-- The timer of the callback in progress. -/
def running : Process (Block C) → Multiset (Block C)
  | .callback _ it => {it.cb}
  | _ => 0

/-- The timers in the list, in the innermost callback, and in those around it. -/
def inUse (store : Store C) : Multiset (Block C) :=
  blocks store.timers.list + running store.timers.process + blocks (store.outer.map Prod.snd)

/-- Every timer that has been allocated, each once, is in use or freed; the object of each has been retained,
and released if the timer is freed. -/
structure Accounted (store : Store C) : Prop where
  places : store.inUse + freed store.effects = (allocated store.effects : List (Block C))
  once : (allocated store.effects).Nodup
  retained : retained store.effects = withObject (allocated store.effects)
  released : released store.effects = withObject (freed store.effects)

/-- The timer of a callback cannot be set again. -/
def Leaks (_ : Store C) : StoreAction C → Prop
  | .return' ms reading => ms ≠ 0 ∧ reading = none
  | _ => False

/-- What a step does: some timers are destroyed, at most one is created, and some are lost. -/
structure Moves (store next : Store C) (gone : List (Block C)) (made : Option (Block C))
    (lost : Multiset (Block C)) : Prop where
  inUse : store.inUse + made.toList = gone + lost + next.inUse
  effects : next.effects = store.effects ++ (gone.flatMap destroytimer ++ made.toList.flatMap createtimer)
  serial : next.serial = store.serial + made.toList.length
  fresh : ∀ block ∈ made, block.serial = store.serial

instance decidableLeaks (store : Store C) : ∀ action, Decidable (Leaks store action)
  | .return' ms reading => inferInstanceAs (Decidable (ms ≠ 0 ∧ reading = none))
  | .settimer .. | .resettimer .. | .canceltimer _ | .processexpired .. | .destroytimers => .isFalse not_false

variable {store next : Store C} {gone : List (Block C)} {made : Option (Block C)} {lost : Multiset (Block C)}

theorem blocks_perm {list other : List (Timer (Block C))} (h : list.Perm other) : blocks list = blocks other :=
  Multiset.coe_eq_coe.mpr (h.map Timer.cb)

theorem blocks_cons (it : Timer (Block C)) (list : List (Timer (Block C))) :
    blocks (it :: list) = {it.cb} + blocks list :=
  (Multiset.singleton_add it.cb (list.map Timer.cb : List (Block C))).symm

theorem blocks_inserttimer (it : Timer (Block C)) (list : List (Timer (Block C))) :
    blocks (Timers.inserttimer it list) = {it.cb} + blocks list := by
  rw [blocks_perm (Timers.inserttimer_perm it list), blocks_cons]

/-- The timer that is found is the one that is removed. -/
theorem blocks_eraseP {list : List (Timer (Block C))} {id : ℤ} {it : Timer (Block C)}
    (h : list.find? (·.id == id) = some it) : blocks list = {it.cb} + blocks (list.eraseP (·.id == id)) := by
  induction list with
  | nil => cases h
  | cons other list ih =>
    by_cases hid : other.id = id
    · rw [List.find?_cons_of_pos (by simpa using hid), Option.some.injEq] at h
      rw [List.eraseP_cons_of_pos (by simpa using hid), blocks_cons, h]
    · rw [List.find?_cons_of_neg (by simpa using hid)] at h
      rw [List.eraseP_cons_of_neg (by simpa using hid), blocks_cons, blocks_cons, ih h]
      exact add_left_comm _ _ _

/-- The test of the loop moves the first timer into its callback, if it does anything. -/
theorem blocks_expire (now : Timeval) (timers : Timers (Block C)) :
    blocks (timers.expire now).list + running (timers.expire now).process = blocks timers.list := by
  unfold Timers.expire
  split
  · rename_i hnil
    exact add_zero _
  · rename_i it list hlist
    rw [hlist]
    split_ifs
    · exact (add_comm _ _).trans (blocks_cons it list).symm
    · exact add_zero (blocks (it :: list))

/-- So does the start of a call. -/
theorem blocks_processexpired {timers : Timers (Block C)} (hidle : timers.process = .idle) (force : Bool)
    (reading : Option Reading) :
    blocks (timers.processexpired force reading).list + running (timers.processexpired force reading).process =
      blocks timers.list := by
  unfold Timers.processexpired
  split
  · dsimp only
    rw [hidle]
    exact add_zero _
  · rename_i it list hlist
    cases reading with
    | none =>
      dsimp only
      rw [hidle]
      exact add_zero _
    | some now =>
      dsimp only
      rw [blocks_expire, hlist]
      cases force <;> rfl

theorem inUse_leave (store : Store C) : store.leave.inUse = store.inUse := by
  unfold leave
  split
  · rename_i now it outer hprocess houter
    unfold inUse
    rw [hprocess, houter]
    change _ + {it.cb} + _ = _ + 0 + blocks (it :: _)
    rw [blocks_cons, add_zero, add_assoc]
  · rfl

theorem inUse_enter (store : Store C) : store.enter.inUse = store.inUse := by
  unfold enter
  split
  · rename_i now it hprocess
    unfold inUse
    rw [hprocess]
    change _ + 0 + blocks (it :: _) = _ + {it.cb} + _
    rw [blocks_cons, add_zero, add_assoc]
  · rfl

/-! ## What each step moves -/

/-- A step that moves nothing out of use. -/
theorem Moves.keep (hinUse : store.inUse = next.inUse) (heffects : next.effects = store.effects)
    (hserial : next.serial = store.serial) : Moves store next [] none 0 where
  inUse := by
    rw [hinUse, Option.toList_none, Multiset.coe_nil, add_zero, zero_add, zero_add]
  effects := by
    rw [heffects]
    simp
  serial := hserial
  fresh := nofun

/-- A step that takes timers out of use to destroy them. -/
theorem Moves.destroy (hinUse : store.inUse = gone + next.inUse)
    (heffects : next.effects = store.effects ++ gone.flatMap destroytimer) (hserial : next.serial = store.serial) :
    Moves store next gone none 0 where
  inUse := by
    rw [hinUse, Option.toList_none, Multiset.coe_nil, add_zero, add_zero]
  effects := by
    rw [heffects, Option.toList_none, List.flatMap_nil, List.append_nil]
  serial := hserial
  fresh := nofun

/-- The list is part of what is in use. -/
theorem inUse_withList (list : List (Timer (Block C))) (effects : List (Effect C)) :
    (store.withList list effects).inUse =
      blocks list + running store.timers.process + blocks (store.outer.map Prod.snd) :=
  rfl

/-- A timer that is cancelled is destroyed. -/
theorem canceltimer_moves (id : ℤ) (store : Store C) : ∃ gone, Moves store (store.canceltimer id).1 gone none 0 := by
  unfold canceltimer
  split
  · rename_i it hit
    refine ⟨[it.cb], .destroy ?_ (congrArg _ (List.append_nil _).symm) rfl⟩
    rw [inUse_withList, inUse, blocks_eraseP hit, Multiset.coe_singleton]
    abel
  · exact ⟨[], .keep rfl rfl rfl⟩

/-- A timer that is reset is put back, or it is destroyed. -/
theorem resettimer_moves (id : ℤ) (ms : ℕ) (reading : Option Reading) (store : Store C) :
    ∃ gone, Moves store (store.resettimer id ms reading).1 gone none 0 := by
  unfold resettimer
  split
  · rename_i it hit
    have herase := blocks_eraseP hit
    dsimp only
    split
    · refine ⟨[], .keep ?_ (List.append_nil _) rfl⟩
      rw [inUse_withList, blocks_inserttimer, inUse, herase]
    · refine ⟨[it.cb], .destroy ?_ (congrArg _ (List.append_nil _).symm) rfl⟩
      rw [inUse_withList, inUse, herase, Multiset.coe_singleton]
      abel
  · exact ⟨[], .keep rfl rfl rfl⟩

/-- A timer that is set is created in the place of those that are destroyed. -/
theorem Moves.create {after : Store C} (h : Moves store next gone none 0) (block : Block C)
    (hblock : block.serial = next.serial) (hinUse : after.inUse = next.inUse + {block})
    (heffects : after.effects = next.effects ++ createtimer block) (hserial : after.serial = next.serial + 1) :
    Moves store after gone (some block) 0 where
  inUse := by
    have hbefore := h.inUse
    rw [Option.toList_none, Multiset.coe_nil, add_zero] at hbefore
    rw [hbefore, hinUse, Option.toList_some, Multiset.coe_singleton]
    abel
  effects := by
    rw [heffects, h.effects]
    simp
  serial := by
    rw [hserial, h.serial]
    rfl
  fresh := by
    rintro _ ⟨⟩
    rw [hblock, h.serial]
    rfl

theorem settimer_moves (id : ℤ) (ms : ℕ) (cb : C) (ob : Option ℕ) (reading : Option Reading) (created : Bool)
    (store : Store C) : ∃ gone made, Moves store (store.settimer id ms cb ob reading created).1 gone made 0 := by
  have hfirst : ∃ gone, Moves store
      (if id ≤ 0 then
        ((Timers.nextid store.timers.counter).1,
          { store with timers := { store.timers with counter := (Timers.nextid store.timers.counter).2 } })
      else (id, (store.canceltimer id).1)).2 gone none 0 := by
    split_ifs
    · exact ⟨[], .keep rfl rfl rfl⟩
    · exact canceltimer_moves id store
  obtain ⟨gone, hfirst⟩ := hfirst
  unfold settimer
  dsimp only
  split
  · refine ⟨gone, some _, hfirst.create _ rfl ?_ rfl rfl⟩
    unfold inUse withList
    dsimp only
    rw [blocks_inserttimer]
    abel
  · exact ⟨gone, none, hfirst⟩

/-- A call takes timers from the list into its callbacks. -/
theorem processexpired_moves (force : Bool) (reading : Option Reading) {store : Store C}
    (hloop : ∀ now, store.timers.process ≠ .loop now) : Moves store (store.processexpired force reading) [] none 0 := by
  have hidle : store.enter.timers.process = .idle := by
    unfold enter
    cases hprocess : store.timers.process with
    | idle => exact hprocess
    | callback now it => rfl
    | loop now => exact absurd hprocess (hloop now)
  have heffects : (store.processexpired force reading).effects = store.effects ∧
      (store.processexpired force reading).serial = store.serial := by
    unfold processexpired leave enter
    dsimp only
    split <;> split <;> exact ⟨rfl, rfl⟩
  refine .keep ?_ heffects.1 heffects.2
  rw [processexpired, inUse_leave, ← inUse_enter store]
  unfold inUse
  dsimp only
  rw [blocks_processexpired hidle, hidle]
  change _ + 0 + _ = _
  rw [add_zero]

/-- The next test of the loop moves nothing out of use. -/
theorem inUse_expire {store : Store C} (now : Timeval) :
    (leave { store with timers := store.timers.expire now }).inUse =
      blocks store.timers.list + blocks (store.outer.map Prod.snd) := by
  rw [inUse_leave, inUse]
  dsimp only
  rw [blocks_expire]

theorem leave_effects (store : Store C) : store.leave.effects = store.effects ∧ store.leave.serial = store.serial := by
  unfold leave
  split <;> exact ⟨rfl, rfl⟩

/-- A timer whose callback has returned is put back or destroyed, or it is lost. -/
theorem reschedule_moves (it : Timer (Block C)) (ms : ℕ) (reading : Option Reading) (store : Store C) :
    ∃ gone : List (Block C),
      {it.cb} + (blocks store.timers.list + blocks (store.outer.map Prod.snd)) =
        gone + (if ms ≠ 0 ∧ reading = none then {it.cb} else 0) +
          (blocks (store.reschedule it ms reading).timers.list +
            blocks ((store.reschedule it ms reading).outer.map Prod.snd)) ∧
      (store.reschedule it ms reading).effects = store.effects ++ gone.flatMap destroytimer ∧
      (store.reschedule it ms reading).serial = store.serial := by
  unfold reschedule
  by_cases hms : ms = 0
  · rw [if_pos hms, if_neg (not_and_of_not_left _ (not_not_intro hms))]
    refine ⟨[it.cb], ?_, congrArg _ (List.append_nil _).symm, rfl⟩
    rw [Multiset.coe_singleton, add_zero]
    rfl
  · rw [if_neg hms]
    cases reading with
    | none =>
      rw [if_pos ⟨hms, rfl⟩]
      refine ⟨[], ?_, (List.append_nil _).symm, rfl⟩
      rw [Multiset.coe_nil, zero_add]
      rfl
    | some reading =>
      rw [if_neg (not_and_of_not_right _ (Option.some_ne_none reading))]
      refine ⟨[], ?_, rfl, rfl⟩
      change _ = _ + _ + (blocks (Timers.inserttimer _ _) + _)
      rw [blocks_inserttimer, Multiset.coe_nil, add_zero, zero_add, add_assoc]
      rfl

theorem return_moves {store : Store C} {now : Timeval} {it : Timer (Block C)}
    (hprocess : store.timers.process = .callback now it) (ms : ℕ) (reading : Option Reading) :
    ∃ gone, Moves store
      (leave { store.reschedule it ms reading with timers := (store.reschedule it ms reading).timers.expire now })
      gone none (if ms ≠ 0 ∧ reading = none then {it.cb} else 0) := by
  obtain ⟨gone, hmoves, heffects, hserial⟩ := reschedule_moves it ms reading store
  obtain ⟨hleave, hleaveserial⟩ := leave_effects
    { store.reschedule it ms reading with timers := (store.reschedule it ms reading).timers.expire now }
  refine ⟨gone, ?_, ?_, hleaveserial.trans hserial, nofun⟩
  · rw [inUse_expire, ← hmoves, inUse, hprocess, Option.toList_none, Multiset.coe_nil, add_zero]
    change _ + {it.cb} + _ = _
    abel
  · rw [hleave, Option.toList_none, List.flatMap_nil, List.append_nil]
    exact heffects

/-- What is left is destroyed with the timers. -/
theorem destroytimers_moves (store : Store C) :
    Moves store store.destroytimers (store.timers.list.map Timer.cb) none 0 := by
  refine .destroy ?_ ?_ rfl
  · change blocks _ + _ + _ = blocks _ + (0 + _ + _)
    rw [zero_add, add_assoc]
    rfl
  · rw [List.flatMap_map]
    rfl

/-- What a step moves, and that it loses a timer exactly where it leaks. -/
theorem step_moves {action : StoreAction C} (hloop : ∀ now, store.timers.process ≠ .loop now)
    (h : step store action = some next) : ∃ gone made lost, Moves store next gone made lost ∧
      (lost = 0 ↔ ¬Leaks store action) := by
  unfold step at h
  split at h
  · cases h
  · cases action with
    | settimer id ms cb ob reading created =>
      cases h
      obtain ⟨gone, made, hmoves⟩ := settimer_moves id ms cb ob reading created store
      exact ⟨gone, made, 0, hmoves, iff_of_true rfl not_false⟩
    | resettimer id ms reading =>
      cases h
      obtain ⟨gone, hmoves⟩ := resettimer_moves id ms reading store
      exact ⟨gone, none, 0, hmoves, iff_of_true rfl not_false⟩
    | canceltimer id =>
      cases h
      obtain ⟨gone, hmoves⟩ := canceltimer_moves id store
      exact ⟨gone, none, 0, hmoves, iff_of_true rfl not_false⟩
    | processexpired force reading =>
      cases h
      exact ⟨[], none, 0, processexpired_moves force reading hloop, iff_of_true rfl not_false⟩
    | return' ms reading =>
      dsimp only at h
      split at h
      · rename_i now it hprocess
        cases h
        obtain ⟨gone, hmoves⟩ := return_moves hprocess ms reading
        refine ⟨gone, none, _, hmoves, ?_⟩
        unfold Leaks
        split_ifs with hleak
        · exact iff_of_false (Multiset.singleton_ne_zero it.cb) (not_not_intro hleak)
        · exact iff_of_true rfl hleak
      · cases h
    | destroytimers =>
      dsimp only at h
      split at h
      · cases h
        exact ⟨_, none, 0, destroytimers_moves store, iff_of_true rfl not_false⟩
      · cases h

/-! ## Runs -/

/-- What holds beside of the accounts: serials are fresh, and no call is between its callbacks. -/
structure Steady (store : Store C) : Prop where
  accounted : Accounted store
  fresh : ∀ block ∈ allocated store.effects, block.serial < store.serial
  between : ∀ now, store.timers.process ≠ .loop now

theorem withObject_append (gone made : List (Block C)) :
    withObject (gone ++ made) = withObject gone ++ withObject made :=
  List.filter_append gone made

/-- The effects of a step, by kind. -/
theorem Moves.split (h : Moves store next gone made lost) :
    allocated next.effects = allocated store.effects ++ made.toList ∧
      Store.retained next.effects = Store.retained store.effects ++ withObject made.toList ∧
      Store.released next.effects = Store.released store.effects ++ withObject gone ∧
      freed next.effects = freed store.effects ++ gone := by
  obtain ⟨hgone, hgoneretained, hgonereleased, hgonefreed⟩ := effects_destroytimer gone
  obtain ⟨hmade, hmaderetained, hmadereleased, hmadefreed⟩ := effects_createtimer made.toList
  unfold allocated Store.retained Store.released freed at *
  rw [h.effects]
  simp only [List.filterMap_append]
  rw [hgone, hgoneretained, hgonereleased, hgonefreed, hmade, hmaderetained, hmadereleased, hmadefreed]
  simp

/-- What is lost is missing from the accounts of the next state. -/
theorem Moves.missing (h : Moves store next gone made lost) (hs : Accounted store) :
    lost + (next.inUse + freed next.effects) = (allocated next.effects : List (Block C)) := by
  obtain ⟨hallocated, -, -, hfreed⟩ := h.split
  rw [hallocated, hfreed, ← Multiset.coe_add, ← Multiset.coe_add, ← hs.places]
  have hmoves := h.inUse
  calc lost + (next.inUse + (freed store.effects + gone))
      = (gone + lost + next.inUse) + freed store.effects := by abel
    _ = store.inUse + made.toList + freed store.effects := by rw [hmoves]
    _ = store.inUse + freed store.effects + made.toList := by abel

/-- A step that loses no timer keeps the accounts. -/
theorem Moves.accounted (h : Moves store next gone made 0) (hs : Steady store) : Accounted next where
  places := by
    have hmissing := h.missing hs.accounted
    rwa [zero_add] at hmissing
  once := by
    rw [h.split.1]
    apply List.nodup_append.mpr
    refine ⟨hs.accounted.once, ?_, ?_⟩
    · cases made <;> simp
    · intro block hblock other hother heq
      have hserial := h.fresh other (Option.mem_toList.mp hother)
      have hless := hs.fresh block hblock
      rw [heq, hserial] at hless
      exact lt_irrefl _ hless
  retained := by
    rw [h.split.1, h.split.2.1, hs.accounted.retained, withObject_append]
  released := by
    rw [h.split.2.2.1, h.split.2.2.2, hs.accounted.released, withObject_append]

/-- Serials stay fresh. -/
theorem Moves.fresh_next (h : Moves store next gone made lost) (hs : Steady store) :
    ∀ block ∈ allocated next.effects, block.serial < next.serial := by
  intro block hblock
  rw [h.split.1, List.mem_append] at hblock
  rw [h.serial]
  cases hblock with
  | inl hold => exact (hs.fresh block hold).trans_le (Nat.le_add_right _ _)
  | inr hnew =>
    have hmem := Option.mem_toList.mp hnew
    rw [h.fresh block hmem, Option.mem_def.mp hmem]
    exact Nat.lt_succ_self _

/-- The test of the loop ends in a callback or with the call. -/
theorem expire_between (now : Timeval) (timers : Timers (Block C)) (at' : Timeval) :
    (timers.expire now).process ≠ .loop at' := by
  unfold Timers.expire
  split
  · exact nofun
  · split_ifs <;> exact nofun

theorem leave_between (h : ∀ now, store.timers.process ≠ .loop now) (now : Timeval) :
    store.leave.timers.process ≠ .loop now := by
  unfold leave
  split
  · exact nofun
  · exact h now

theorem enter_between (h : ∀ now, store.timers.process ≠ .loop now) (now : Timeval) :
    store.enter.timers.process ≠ .loop now := by
  unfold enter
  split
  · exact nofun
  · exact h now

/-- Timers are cancelled, reset and set in the callback that is in progress. -/
theorem canceltimer_process (id : ℤ) (store : Store C) :
    (store.canceltimer id).1.timers.process = store.timers.process := by
  unfold canceltimer
  split <;> rfl

theorem resettimer_process (id : ℤ) (ms : ℕ) (reading : Option Reading) (store : Store C) :
    (store.resettimer id ms reading).1.timers.process = store.timers.process := by
  unfold resettimer
  split
  · dsimp only
    split <;> rfl
  · rfl

theorem settimer_process (id : ℤ) (ms : ℕ) (cb : C) (ob : Option ℕ) (reading : Option Reading) (created : Bool)
    (store : Store C) : (store.settimer id ms cb ob reading created).1.timers.process = store.timers.process := by
  have hcancel := canceltimer_process id store
  unfold settimer
  dsimp only
  split_ifs
  · split <;> rfl
  · split <;> exact hcancel

/-- No step ends between two callbacks. -/
theorem step_between {action : StoreAction C} (hbetween : ∀ now, store.timers.process ≠ .loop now)
    (h : step store action = some next) (now : Timeval) : next.timers.process ≠ .loop now := by
  unfold step at h
  split at h
  · cases h
  · cases action with
    | settimer id ms cb ob reading created =>
      cases h
      rw [settimer_process]
      exact hbetween now
    | resettimer id ms reading =>
      cases h
      rw [resettimer_process]
      exact hbetween now
    | canceltimer id =>
      cases h
      rw [canceltimer_process]
      exact hbetween now
    | processexpired force reading =>
      cases h
      unfold processexpired
      apply leave_between
      intro at'
      dsimp only
      unfold Timers.processexpired
      split
      · exact enter_between hbetween at'
      · split
        · exact expire_between _ _ at'
        · exact enter_between hbetween at'
    | return' ms reading =>
      dsimp only at h
      split at h
      · cases h
        apply leave_between
        exact expire_between _ _
      · cases h
    | destroytimers =>
      dsimp only at h
      split at h
      · cases h
        exact hbetween now
      · cases h

theorem Steady.step {action : StoreAction C} (hs : Steady store) (h : Store.step store action = some next)
    (hgood : ¬Leaks store action) : Steady next := by
  obtain ⟨gone, made, lost, hmoves, hlost⟩ := step_moves hs.between h
  obtain rfl := hlost.mpr hgood
  exact ⟨hmoves.accounted hs, hmoves.fresh_next hs, step_between hs.between h⟩

/-- A step that loses a timer breaks the accounts. -/
theorem Steady.step_leaks {action : StoreAction C} (hs : Steady store) (h : Store.step store action = some next)
    (hbad : Leaks store action) : ¬Accounted next := by
  obtain ⟨gone, made, lost, hmoves, hlost⟩ := step_moves hs.between h
  intro hnext
  apply hlost.mp _ hbad
  have hmissing := hmoves.missing hs.accounted
  rw [← hnext.places] at hmissing
  exact add_eq_right.mp hmissing

theorem steady_create : Steady (create : Store C) where
  accounted := ⟨rfl, List.nodup_nil, rfl, rfl⟩
  fresh := nofun
  between := nofun

/-- Over a run every timer is always in one place, with its object retained and released as it is created and
freed, if and only if the clock never fails for a timer that a callback leaves to be set again. -/
theorem accounted_iff (actions : List (StoreAction C)) (h : run step create actions = some store) :
    Always step Accounted create actions ↔ Avoids step Leaks create actions := by
  have hgood : ∀ (store : Store C) action next, Steady store → step store action = some next →
      ¬Leaks store action → Steady next := fun _ _ _ hs hstep hgood => hs.step hstep hgood
  have hbad : ∀ (store : Store C) action next, Steady store → step store action = some next →
      Leaks store action → ¬Accounted next := fun _ _ _ hs hstep hbad => hs.step_leaks hstep hbad
  exact always_iff_avoids_of (fun _ hs => hs.accounted) hgood hbad steady_create h

/-- A timer with an object that is made to expire, cancelled by its callback, and one that is destroyed with the
timers. -/
def settled : List (StoreAction Unit) :=
  [.settimer 7 1000 () (some 3) (some Timers.started) true, .processexpired true (some Timers.started),
    .settimer 8 1000 () none (some Timers.started) true, .return' 0 none, .destroytimers]

theorem accounted_iff_settled : Always step Accounted create settled := by
  have hrun : run step create settled = some
      ⟨⟨[], 1, .idle, ⟨1, 0⟩⟩, [], [.alloc ⟨0, (), some 3⟩, .retain ⟨0, (), some 3⟩, .alloc ⟨1, (), none⟩,
        .release ⟨0, (), some 3⟩, .free ⟨0, (), some 3⟩, .free ⟨1, (), none⟩], 2, true⟩ := by decide
  exact (accounted_iff settled hrun).mpr (by decide)

/-- The clock fails after the callback of a timer that is to be set again. -/
def failing : List (StoreAction Unit) :=
  [.settimer 7 1000 () (some 3) (some Timers.started) true, .processexpired true (some Timers.started),
    .return' 1000 none]

/-- The timer is in no place any more, and it has not been freed. -/
theorem failing_leaks : ∃ store : Store Unit, run step create failing = some store ∧ store.timers.list = [] ∧
    store.timers.process = .idle ∧ store.outer = [] ∧
    store.effects = [.alloc ⟨0, (), some 3⟩, .retain ⟨0, (), some 3⟩] ∧ ¬Accounted store := by
  refine ⟨⟨⟨[], 1, .idle, ⟨0, 0⟩⟩, [], [.alloc ⟨0, (), some 3⟩, .retain ⟨0, (), some 3⟩], 1, false⟩, ?_, rfl, rfl, rfl,
    rfl, ?_⟩
  · decide
  · intro h
    exact absurd (congrArg Multiset.card h.places) (by decide)

/-! ## The timers of a store -/

theorem canceltimer_timers (id : ℤ) (store : Store C) :
    (store.canceltimer id).1.timers = (store.timers.canceltimer id).1 := by
  unfold canceltimer Timers.canceltimer
  cases store.timers.list.find? (·.id == id) <;> rfl

theorem settimer_timers (id : ℤ) (ms : ℕ) (cb : C) (ob : Option ℕ) (reading : Option Reading) (created : Bool)
    (store : Store C) : (store.settimer id ms cb ob reading created).1.timers =
      (store.timers.settimer id ms { serial := store.serial, cb, ob } reading created).1 := by
  have hserial : (store.canceltimer id).1.serial = store.serial := by
    unfold canceltimer
    split <;> rfl
  unfold settimer Timers.settimer
  dsimp only
  by_cases hid : id ≤ 0
  · simp only [if_pos hid]
    cases Timers.setexpiry reading ms <;> cases created <;> rfl
  · simp only [if_neg hid, ← canceltimer_timers, hserial]
    cases Timers.setexpiry reading ms <;> cases created <;> rfl

theorem resettimer_timers (id : ℤ) (ms : ℕ) (reading : Option Reading) (store : Store C) :
    (store.resettimer id ms reading).1.timers = (store.timers.resettimer id ms reading).1 := by
  unfold resettimer Timers.resettimer
  cases store.timers.list.find? (·.id == id) with
  | none => rfl
  | some it =>
    dsimp only
    cases Timers.setexpiry reading (if ms = 0 then it.ms else ms) <;> rfl

/-- What follows a callback leaves the list of the timers alone. -/
theorem reschedule_timers (now : Timeval) (it : Timer (Block C)) (ms : ℕ) (reading : Option Reading)
    (store : Store C) : ((store.reschedule it ms reading).timers.expire now) =
      (store.timers.reschedule now it ms reading).expire now := by
  unfold reschedule Timers.reschedule
  dsimp only
  split_ifs
  · unfold withList Timers.expire
    rfl
  · cases Timers.setexpiry reading ms with
    | none =>
      unfold Timers.expire
      rfl
    | some tv =>
      unfold withList Timers.expire
      rfl

/-- While no callback calls `aug_processexpired`, the timers take the steps that they take without a store. -/
theorem step_timers {action : StoreAction C} (hbetween : ∀ now, store.timers.process ≠ .loop now)
    (houter : store.outer = []) (hcall : ∀ force reading, action = .processexpired force reading →
      store.timers.process = .idle) (h : step store action = some next) (hnext : next.destroyed = false) :
    ∃ actions, run Timers.step store.timers actions = some next.timers := by
  have hleave : ∀ other : Store C, other.outer = [] → other.leave = other := by
    intro other hother
    unfold leave
    rw [hother]
    cases other.timers.process <;> rfl
  unfold step at h
  split at h
  · cases h
  · cases action with
    | settimer id ms cb ob reading created =>
      cases h
      refine ⟨[.settimer id ms { serial := store.serial, cb, ob } reading created], ?_⟩
      rw [settimer_timers, run, Timers.step]
      split
      · rename_i now hprocess
        exact absurd hprocess (hbetween now)
      · rfl
    | resettimer id ms reading =>
      cases h
      refine ⟨[.resettimer id ms reading], ?_⟩
      rw [resettimer_timers, run, Timers.step]
      split
      · rename_i now hprocess
        exact absurd hprocess (hbetween now)
      · rfl
    | canceltimer id =>
      cases h
      refine ⟨[.canceltimer id], ?_⟩
      rw [canceltimer_timers, run, Timers.step]
      split
      · rename_i now hprocess
        exact absurd hprocess (hbetween now)
      · rfl
    | processexpired force reading =>
      cases h
      have hidle := hcall force reading rfl
      have henter : store.enter = store := by
        unfold enter
        rw [hidle]
      refine ⟨[.processexpired force reading], ?_⟩
      rw [processexpired, henter, hleave _ (by exact houter), run, Timers.step, hidle]
      rfl
    | return' ms reading =>
      dsimp only at h
      split at h
      · rename_i now it hprocess
        cases h
        have hreschedule : (store.reschedule it ms reading).outer = [] := by
          unfold reschedule
          split_ifs
          · exact houter
          · split <;> exact houter
        refine ⟨[.return' ms reading, .expire], ?_⟩
        rw [Timers.run_return hprocess, hleave _ (by exact hreschedule)]
        exact congrArg some (reschedule_timers now it ms reading store).symm
      · cases h
    | destroytimers =>
      dsimp only at h
      split at h
      · cases h
        cases hnext
      · cases h

end Store

end Aug.Util
