import Aug.Aspp.SessionTimers
import Aug.Util.TimerInvariant

/-!
# The table of session timers

The invariant is about the ids of all timers with their owners, the timer whose callback is running among them: no
two have one id, and the table has the ids of the sessions' timers. Each action leaves these tags as they are,
removes a tag, or puts one in place of the tags with its id, and does the same to the table.
-/

namespace Aug.Aspp

open Lib Sys Util

variable {σ : Type*}

namespace Engine

/-- The table has the ids of all timers of sessions, where the expiring one counts as one of the timers. -/
structure Sound (e : Engine σ) : Prop where
  counter : 0 < e.timers.counter
  unique : (e.tags.map Prod.fst).Nodup
  table : ∀ id, (e.sessiontimers.find id).isSome ↔ (id, TimerOwner.session) ∈ e.tags
  strays : e.strays = []

variable {e next : Engine σ} {id : ℤ}

theorem sound_create : Sound (create : Engine σ) :=
  ⟨Int.one_pos, List.nodup_nil,
    fun _ => iff_of_false (by simp [create, OrderedMap.find, OrderedMap.empty]) List.not_mem_nil, rfl⟩

/-- Outside of a callback the tags are those of the list. -/
theorem Sound.matches (hs : Sound e) : Matches e where
  table := by
    intro hprocess id
    have hrunning : running e.timers.process = [] := by
      cases h : e.timers.process with
      | idle => rfl
      | callback now it => exact absurd h (hprocess now it)
      | loop now => rfl
    rw [hs.table, tags, hrunning, List.nil_append]
  expiring := by
    intro now it hprocess hsession
    rw [hs.table, tags, hprocess, ← hsession]
    exact List.mem_cons_self
  strays := hs.strays

/-- The tags are rearranged. -/
theorem Sound.perm (hs : Sound e) (hcounter : 0 < next.timers.counter) (htags : next.tags.Perm e.tags)
    (htable : next.sessiontimers = e.sessiontimers) (hstrays : next.strays = e.strays) : Sound next where
  counter := hcounter
  unique := (htags.map Prod.fst).nodup_iff.mpr hs.unique
  table id := by rw [htable, hs.table, htags.mem_iff]
  strays := hstrays.trans hs.strays

/-- The tag of an id is removed. -/
theorem Sound.remove (hs : Sound e) (hcounter : 0 < next.timers.counter)
    (htags : next.tags = e.tags.filter (·.1 ≠ id))
    (htable : ∀ k, (next.sessiontimers.find k).isSome ↔ k ≠ id ∧ (e.sessiontimers.find k).isSome)
    (hstrays : next.strays = e.strays) : Sound next where
  counter := hcounter
  unique := by
    rw [htags]
    exact hs.unique.sublist (List.filter_sublist.map Prod.fst)
  table k := by
    rw [htable, hs.table, htags, List.mem_filter, decide_eq_true_iff, and_comm]
  strays := hstrays.trans hs.strays

/-- The tag of an id that is not of a session is removed, and the table stays. -/
theorem Sound.removeOther (hs : Sound e) (hcounter : 0 < next.timers.counter)
    (htags : next.tags = e.tags.filter (·.1 ≠ id)) (hother : (id, TimerOwner.session) ∉ e.tags)
    (htable : next.sessiontimers = e.sessiontimers) (hstrays : next.strays = e.strays) : Sound next := by
  apply hs.remove hcounter htags _ hstrays
  intro k
  rw [htable]
  by_cases hk : k = id
  · subst hk
    exact iff_of_false (mt (hs.table k).mp hother) fun h => h.1 rfl
  · exact (and_iff_right hk).symm

/-- A tag of a session takes the place of those with its id. -/
theorem Sound.place (hs : Sound e) (hcounter : 0 < next.timers.counter)
    (htags : next.tags.Perm ((id, .session) :: e.tags.filter (·.1 ≠ id)))
    (htable : ∀ k, (next.sessiontimers.find k).isSome ↔ k = id ∨ (e.sessiontimers.find k).isSome)
    (hstrays : next.strays = e.strays) : Sound next where
  counter := hcounter
  unique := by
    rw [(htags.map Prod.fst).nodup_iff, List.map_cons, List.nodup_cons]
    refine ⟨?_, hs.unique.sublist (List.filter_sublist.map Prod.fst)⟩
    rintro hmem
    obtain ⟨other, hother, hid⟩ := List.mem_map.mp hmem
    exact absurd hid (by simpa using (List.mem_filter.mp hother).2)
  table k := by
    rw [htable, hs.table, htags.mem_iff, List.mem_cons, List.mem_filter, Prod.mk.injEq]
    by_cases hk : k = id <;> simp [hk]
  strays := hstrays.trans hs.strays

/-- Without another timer of its id, the first timer of an id is all there is of it. -/
theorem eraseP_eq_filter {list : List (Timer TimerOwner)} (h : (list.map Timer.id).Nodup) (id : ℤ) :
    list.eraseP (·.id == id) = list.filter (·.id ≠ id) := by
  induction list with
  | nil => rfl
  | cons it list ih =>
    obtain ⟨hit, hlist⟩ := List.nodup_cons.mp h
    by_cases hid : it.id = id
    · have hothers : ∀ other ∈ list, decide (other.id ≠ id) = true := by
        intro other hother
        apply decide_eq_true
        intro heq
        exact hit (List.mem_map.mpr ⟨other, hother, heq.trans hid.symm⟩)
      rw [List.eraseP_cons_of_pos (by simpa using hid), List.filter_cons_of_neg (by simpa using hid),
        List.filter_eq_self.mpr hothers]
    · rw [List.eraseP_cons_of_neg (by simpa using hid), List.filter_cons_of_pos (by simpa using hid), ih hlist]

/-- The ids of the list are among the tags. -/
theorem Sound.list_unique (hs : Sound e) : (e.timers.list.map Timer.id).Nodup := by
  have hunique := hs.unique
  rw [tags, List.map_map, List.map_append] at hunique
  exact (List.nodup_append.mp hunique).2.1

/-- An expiring timer is not in the list. -/
theorem Sound.running_notMem (hs : Sound e) {it other : Timer TimerOwner} (hit : it ∈ running e.timers.process)
    (hother : other ∈ e.timers.list) : it.id ≠ other.id := by
  have hunique := hs.unique
  rw [tags, List.map_map, List.map_append] at hunique
  exact (List.nodup_append.mp hunique).2.2 it.id (List.mem_map_of_mem hit) other.id (List.mem_map_of_mem hother)

/-- The tags without those of an id that is not the one of the expiring timer. -/
theorem tags_filter (process : Process TimerOwner) (list : List (Timer TimerOwner))
    (hrunning : ∀ it ∈ running process, it.id ≠ id) :
    (running process ++ list.filter (·.id ≠ id)).map tag =
      ((running process ++ list).map tag).filter (·.1 ≠ id) := by
  have hkept : (running process).filter (·.id ≠ id) = running process :=
    List.filter_eq_self.mpr fun it hit => decide_eq_true (hrunning it hit)
  rw [List.filter_map, List.filter_append]
  have hfilter : ((fun x : ℤ × TimerOwner => decide (x.1 ≠ id)) ∘ tag) = fun it => decide (it.id ≠ id) := rfl
  rw [hfilter, hkept]

/-- A timer that is cancelled leaves the list, and it is the only one of its id. -/
theorem canceltimer_spec (hs : Sound e) (tid : ℤ) :
    (e.timers.canceltimer tid = (e.timers, -1) ∧ ∀ it ∈ e.timers.list, it.id ≠ tid) ∨
    (∃ it ∈ e.timers.list, it.id = tid) ∧
      e.timers.canceltimer tid = ({ e.timers with list := e.timers.list.filter (·.id ≠ tid) }, 0) := by
  rw [Timers.canceltimer]
  cases hfind : e.timers.list.find? (·.id == tid) with
  | none =>
    refine .inl ⟨rfl, fun it hit hid => ?_⟩
    exact absurd hid (by simpa using List.find?_eq_none.mp hfind it hit)
  | some it =>
    refine .inr ⟨⟨it, List.mem_of_find?_eq_some hfind, by simpa using List.find?_some hfind⟩, ?_⟩
    rw [eraseP_eq_filter hs.list_unique]

/-- A timer with an id that is in the list leaves with its entry. -/
theorem Sound.erase (hs : Sound e) {it : Timer TimerOwner} (hit : it ∈ e.timers.list) :
    Sound { e with
      timers := { e.timers with list := e.timers.list.filter (·.id ≠ it.id) }
      sessiontimers := e.sessiontimers.erase it.id } := by
  have htags := tags_filter e.timers.process e.timers.list fun other hother => hs.running_notMem hother hit
  have htable : ∀ k, ((e.sessiontimers.erase it.id).find k).isSome ↔
      k ≠ it.id ∧ (e.sessiontimers.find k).isSome := by
    intro k
    rw [OrderedMap.find_erase]
    by_cases hk : k = it.id <;> simp [hk]
  exact hs.remove hs.counter htags htable rfl

/-- A timer of others leaves without an entry. -/
theorem Sound.filter (hs : Sound e) (tid : ℤ) (hother : ¬e.Live tid) :
    Sound { e with timers := { e.timers with list := e.timers.list.filter (·.id ≠ tid) } } := by
  by_cases hmem : ∃ it ∈ e.timers.list, it.id = tid
  · obtain ⟨it, hit, rfl⟩ := hmem
    have htag : (it.id, TimerOwner.session) ∉ e.tags := by
      rw [tags, List.map_append, List.mem_append]
      rintro (hrunning | hlist)
      · obtain ⟨other, hother, htag⟩ := List.mem_map.mp hrunning
        exact hs.running_notMem hother hit (Prod.ext_iff.mp htag).1
      · exact hother hlist
    have htags := tags_filter e.timers.process e.timers.list fun other hother => hs.running_notMem hother hit
    exact hs.removeOther hs.counter htags htag rfl rfl
  · have hall : e.timers.list.filter (·.id ≠ tid) = e.timers.list :=
      List.filter_eq_self.mpr fun it hit => decide_eq_true fun hid => hmem ⟨it, hit, hid⟩
    rw [hall]
    exact hs

/-- `canceltimer` keeps the correspondence for any id. -/
theorem Sound.canceltimer (hs : Sound e) (tid : ℤ) : Sound (e.canceltimer tid).1 := by
  rw [Engine.canceltimer]
  rcases canceltimer_spec hs tid with ⟨hnone, -⟩ | ⟨⟨it, hit, rfl⟩, hfound⟩
  · rw [hnone]
    exact hs
  · rw [hfound]
    exact hs.erase hit

/-- A round of `cancelinactive` for a timer in the list is a call of `canceltimer`. -/
theorem cancelentry_eq (hs : Sound e) {tid : ℤ} (hmem : ∃ it ∈ e.timers.list, it.id = tid) :
    e.cancelentry tid = (e.canceltimer tid).1 := by
  rw [Engine.canceltimer, Engine.cancelentry]
  rcases canceltimer_spec hs tid with ⟨-, hnot⟩ | ⟨-, hfound⟩
  · obtain ⟨it, hit, hid⟩ := hmem
    exact absurd hid (hnot it hit)
  · rw [hfound]
    rfl

/-- The rounds of `cancelinactive` keep the correspondence where none is for the expiring timer. -/
theorem Sound.cancelentries (hs : Sound e) {gone : List ℤ} (hgone : gone.Nodup)
    (hkeys : ∀ k ∈ gone, (e.sessiontimers.find k).isSome)
    (hrunning : ∀ it ∈ running e.timers.process, it.cb = .session → it.id ∉ gone) :
    Sound (gone.foldl cancelentry e) := by
  induction gone generalizing e with
  | nil => exact hs
  | cons k gone ih =>
    obtain ⟨hk, hrest⟩ := List.nodup_cons.mp hgone
    have hlist : ∃ it ∈ e.timers.list, it.id = k := by
      have htag := (hs.table k).mp (hkeys k List.mem_cons_self)
      obtain ⟨it, hit, htag⟩ := List.mem_map.mp htag
      obtain ⟨hid, hcb⟩ := Prod.mk.inj htag
      rcases List.mem_append.mp hit with hexpiring | hlist
      · exact absurd (hid ▸ List.mem_cons_self) (hrunning it hexpiring hcb)
      · exact ⟨it, hlist, hid⟩
    have hprocess : (e.cancelentry k).timers.process = e.timers.process := by
      rcases canceltimer_spec hs k with ⟨hnone, -⟩ | ⟨-, hfound⟩
      · rw [Engine.cancelentry, hnone]
      · rw [Engine.cancelentry, hfound]
    have hsound : Sound (e.cancelentry k) := by
      rw [cancelentry_eq hs hlist]
      exact hs.canceltimer k
    rw [List.foldl_cons]
    apply ih hsound hrest
    · intro j hj
      have hne : j ≠ k := fun heq => hk (heq ▸ hj)
      have hfind : (e.cancelentry k).sessiontimers.find j = e.sessiontimers.find j := by
        rw [Engine.cancelentry, OrderedMap.find_erase, if_neg hne]
      rw [hfind]
      exact hkeys j (List.mem_cons_of_mem k hj)
    · rw [hprocess]
      intro it hit hsession hmem
      exact hrunning it hit hsession (List.mem_cons_of_mem k hmem)

/-- `cancelinactive` keeps the correspondence unless it removes the entry of the expiring timer. -/
theorem Sound.cancelinactive (hs : Sound e) {active : σ → Bool} (hgood : ¬e.Parts (.cancelinactive active)) :
    Sound (e.cancelinactive active) := by
  apply hs.cancelentries
  · exact e.sessiontimers.unique.sublist (List.filter_sublist.map Prod.fst)
  · intro k hk
    obtain ⟨⟨_, entry⟩, hentry, rfl⟩ := List.mem_map.mp hk
    rw [OrderedMap.find_eq_some.mpr (List.mem_filter.mp hentry).1]
    rfl
  · intro it hit hsession hmem
    exact hgood ⟨it, hit, hsession, hmem⟩

/-- The list is one timer and the others. -/
theorem perm_filter {list : List (Timer TimerOwner)} {it : Timer TimerOwner} (hlist : (list.map Timer.id).Nodup)
    (hit : it ∈ list) : list.Perm (it :: list.filter (·.id ≠ it.id)) := by
  induction list with
  | nil => cases hit
  | cons other list ih =>
    obtain ⟨hother, hrest⟩ := List.nodup_cons.mp hlist
    rcases List.mem_cons.mp hit with rfl | hmem
    · have hall : list.filter (·.id ≠ it.id) = list := List.filter_eq_self.mpr fun other hmem =>
        decide_eq_true fun hid => hother (List.mem_map.mpr ⟨other, hmem, hid⟩)
      rw [List.filter_cons_of_neg (by simp), hall]
    · have hne : other.id ≠ it.id := fun hid => hother (List.mem_map.mpr ⟨it, hmem, hid.symm⟩)
      rw [List.filter_cons_of_pos (by simpa using hne)]
      exact ((ih hrest hmem).cons other).trans (.swap it other _)

/-- `resettimer` keeps the correspondence unless it loses a timer of a session. -/
theorem Sound.resettimer (hs : Sound e) {tid : ℤ} {ms : ℕ} {reading : Option Reading}
    (hgood : ¬e.Parts (.resettimer tid ms reading)) : Sound (e.resettimer tid ms reading) := by
  rw [Engine.resettimer, Timers.resettimer]
  cases hfind : e.timers.list.find? (·.id == tid) with
  | none => exact hs
  | some it =>
    have hit : it ∈ e.timers.list := List.mem_of_find?_eq_some hfind
    have hid : it.id = tid := by simpa using List.find?_some hfind
    subst hid
    rw [eraseP_eq_filter hs.list_unique]
    cases reading with
    | none =>
      exact hs.filter it.id fun hlive => hgood ⟨rfl, hlive⟩
    | some now =>
      have hnew := (Timers.inserttimer_perm { it with
        ms := if ms = 0 then it.ms else ms
        tv := now.1.tvadd (.mstotv (if ms = 0 then it.ms else ms)) } (e.timers.list.filter (·.id ≠ it.id))).map tag
      have hlist := hnew.trans ((perm_filter hs.list_unique hit).map tag).symm
      have htags := hlist.append_left ((running e.timers.process).map tag)
      rw [← List.map_append, ← List.map_append] at htags
      exact hs.perm hs.counter htags rfl rfl

/-- Ids are positive. -/
theorem nextid_pos {counter : ℤ} (h : 0 < counter) :
    0 < (Timers.nextid counter).1 ∧ 0 < (Timers.nextid counter).2 := by
  rw [Timers.nextid]
  split_ifs
  · exact ⟨by decide, by decide⟩
  · exact ⟨h, by omega⟩

/-- The counter of ids is of no account. -/
theorem Sound.count (hs : Sound e) {counter : ℤ} (h : 0 < counter) :
    Sound { e with timers := { e.timers with counter } } :=
  hs.perm h (.refl _) rfl rfl

/-- A call of `aug_canceltimer` leaves the timers of other ids. -/
theorem canceltimer_fst (hs : Sound e) (tid : ℤ) :
    (e.timers.canceltimer tid).1 = { e.timers with list := e.timers.list.filter (·.id ≠ tid) } := by
  rcases canceltimer_spec hs tid with ⟨hnone, hnot⟩ | ⟨-, hfound⟩
  · have hall : e.timers.list.filter (·.id ≠ tid) = e.timers.list :=
      List.filter_eq_self.mpr fun it hit => decide_eq_true (hnot it hit)
    rw [hnone, hall]
  · rw [hfound]

/-- A timer of a session is set in place of those with its id. -/
theorem Sound.set (hs : Sound e) {table : OrderedMap ℤ (SessionTimer σ)} {timer : Timer TimerOwner}
    (hsession : timer.cb = .session) (hrunning : timer.id ∉ (running e.timers.process).map Timer.id)
    (htable : ∀ k, (table.find k).isSome ↔ k = timer.id ∨ (e.sessiontimers.find k).isSome) :
    Sound { e with
      timers := { e.timers with list := Timers.inserttimer timer (e.timers.list.filter (·.id ≠ timer.id)) }
      sessiontimers := table } := by
  have hapart : ∀ it ∈ running e.timers.process, it.id ≠ timer.id :=
    fun it hit hid => hrunning (hid ▸ List.mem_map_of_mem hit)
  have hlist := (Timers.inserttimer_perm timer (e.timers.list.filter (·.id ≠ timer.id))).append_left
    (running e.timers.process)
  have htags := (hlist.trans List.perm_middle).map tag
  have htag : tag timer = (timer.id, TimerOwner.session) := by rw [tag, hsession]
  rw [List.map_cons, tags_filter e.timers.process e.timers.list hapart, htag] at htags
  exact hs.place hs.counter htags htable rfl

/-- `aug_settimer` with a clock reading and memory. -/
theorem settimer_some (hs : Sound e) (hid : 0 < id) (ms : ℕ) (now : Reading) :
    e.timers.settimer id ms .session (some now) true =
      ({ e.timers with
        list := Timers.inserttimer ⟨id, ms, now.1.tvadd (.mstotv ms), .session⟩
          (e.timers.list.filter (·.id ≠ id)) }, id) := by
  simp only [Timers.settimer, if_neg (not_le.mpr hid), canceltimer_fst hs, Timers.setexpiry, Option.map_some]

/-- `aug_settimer` without a clock reading or memory: the timer that had the id is gone. -/
theorem settimer_none (hs : Sound e) (hid : 0 < id) (ms : ℕ) {reading : Option Reading} {created : Bool}
    (hlost : ¬(reading.isSome ∧ created = true)) : e.timers.settimer id ms .session reading created =
      ({ e.timers with list := e.timers.list.filter (·.id ≠ id) }, -1) := by
  simp only [Timers.settimer, if_neg (not_le.mpr hid), canceltimer_fst hs]
  cases reading with
  | none => rfl
  | some now =>
    cases created with
    | false => rfl
    | true => exact absurd ⟨rfl, rfl⟩ hlost

/-- `settimer` keeps the correspondence unless it throws behind a timer that has been set, takes the id of the
expiring timer, or loses a timer of a session. -/
theorem Sound.settimer (hs : Sound e) {sname : Topic} {ms ob : ℕ} {reading : Option Reading} {created room : Bool}
    (hgood : ¬e.Parts (.settimer sname ms ob reading created room)) :
    Sound (e.settimer sname ms ob reading created room).1 := by
  obtain ⟨hid, hcounter⟩ := nextid_pos hs.counter
  have hcount := hs.count hcounter
  by_cases hset : reading.isSome ∧ created = true
  · obtain ⟨hreading, rfl⟩ := hset
    obtain ⟨now, rfl⟩ := Option.isSome_iff_exists.mp hreading
    have hapart : ¬(e.Throws (Timers.nextid e.timers.counter).1 sname room ∨
        (Timers.nextid e.timers.counter).1 ∈ (running e.timers.process).map Timer.id) := by
      intro hbad
      apply hgood
      rw [Parts, if_pos ⟨rfl, rfl⟩]
      exact hbad
    obtain ⟨hthrows, hrunning⟩ := not_or.mp hapart
    have htimer := settimer_some hcount hid ms now
    simp only [Engine.settimer, htimer, if_neg (not_lt.mpr hid.le)]
    cases hname : e.sessions.getbyname sname with
    | none => exact absurd (.inl hname) hthrows
    | some session =>
      dsimp only
      by_cases hfind : (e.sessiontimers.find (Timers.nextid e.timers.counter).1).isSome
      · rw [if_pos hfind]
        apply hcount.set rfl hrunning
        intro k
        constructor
        · exact .inr
        · rintro (rfl | hk)
          · exact hfind
          · exact hk
      · have hroom : room = true := by
          cases room with
          | true => rfl
          | false => exact absurd (.inr ⟨Option.not_isSome_iff_eq_none.mp hfind, rfl⟩) hthrows
        rw [if_neg hfind, if_pos hroom]
        apply hcount.set rfl hrunning
        intro k
        rw [OrderedMap.find_put]
        by_cases hk : k = (Timers.nextid e.timers.counter).1 <;> simp [hk]
  · have hdead : ¬e.Live (Timers.nextid e.timers.counter).1 := by
      intro hlive
      apply hgood
      rw [Parts, if_neg hset]
      exact hlive
    have htimer := settimer_none hcount hid ms hset
    have hneg : (-1 : ℤ) < 0 := by decide
    simp only [Engine.settimer, htimer, if_pos hneg]
    exact hcount.filter _ hdead

/-- While a callback runs, the tags are those of the expiring timer and of the list. -/
theorem tags_callback {now : Timeval} {it : Timer TimerOwner} (h : e.timers.process = .callback now it) :
    e.tags = tag it :: e.timers.list.map tag := by
  rw [tags, h]
  rfl

/-- Without the expiring timer, the tags are those of the list. -/
theorem Sound.tags_leave (hs : Sound e) {now : Timeval} {it : Timer TimerOwner}
    (h : e.timers.process = .callback now it) : e.timers.list.map tag = e.tags.filter (·.1 ≠ it.id) := by
  have hit : it ∈ running e.timers.process := by
    rw [h]
    exact List.mem_cons_self
  rw [tags_callback h, List.filter_cons_of_neg (by simp [tag]), List.filter_eq_self.mpr]
  intro entry hentry
  obtain ⟨other, hother, rfl⟩ := List.mem_map.mp hentry
  exact decide_eq_true fun hid => hs.running_notMem hit hother hid.symm

/-- The expiring timer of another owner has no tag of a session. -/
theorem Sound.other_notMem (hs : Sound e) {now : Timeval} {it : Timer TimerOwner}
    (h : e.timers.process = .callback now it) (hcb : it.cb ≠ .session) : (it.id, TimerOwner.session) ∉ e.tags := by
  have hit : it ∈ running e.timers.process := by
    rw [h]
    exact List.mem_cons_self
  rw [tags_callback h, List.mem_cons]
  rintro (htag | hlist)
  · exact hcb (Prod.ext_iff.mp htag).2.symm
  · obtain ⟨other, hother, htag⟩ := List.mem_map.mp hlist
    exact hs.running_notMem hit hother (Prod.ext_iff.mp htag).1.symm

/-- The expiring timer is put back, or leaves with its entry, unless it is lost or its callback throws without a
period. -/
theorem Sound.finish (hs : Sound e) {now : Timeval} {it : Timer TimerOwner} {ms : ℕ} {reading : Option Reading}
    {threw : Bool} (h : e.timers.process = .callback now it) (hgood : ¬e.Parts (.return' ms reading threw)) :
    Sound (e.finish now it ms reading threw) := by
  have hleave := hs.tags_leave h
  have hsession : it.cb = .session → ¬if ms = 0 then threw = true else reading = none := by
    intro hcb hbad
    apply hgood
    rw [Parts, h]
    exact ⟨⟨it, List.mem_cons_self, hcb⟩, hbad⟩
  by_cases hms : ms = 0
  · rw [if_pos hms] at hsession
    rw [Engine.finish, Timers.reschedule, if_pos hms]
    by_cases hcb : it.cb = .session
    · rw [if_pos ⟨hcb, hms, Bool.eq_false_iff.mpr (hsession hcb)⟩]
      have htable : ∀ k, ((e.sessiontimers.erase it.id).find k).isSome ↔
          k ≠ it.id ∧ (e.sessiontimers.find k).isSome := by
        intro k
        rw [OrderedMap.find_erase]
        by_cases hk : k = it.id <;> simp [hk]
      exact hs.remove hs.counter hleave htable rfl
    · rw [if_neg fun hall => hcb hall.1]
      exact hs.removeOther hs.counter hleave (hs.other_notMem h hcb) rfl rfl
  · rw [if_neg hms] at hsession
    rw [Engine.finish, Timers.reschedule, if_neg hms, if_neg fun hall => hms hall.2.1]
    cases reading with
    | none =>
      have hcb : it.cb ≠ .session := fun hcb => hsession hcb rfl
      exact hs.removeOther hs.counter hleave (hs.other_notMem h hcb) rfl rfl
    | some reading =>
      have htags := (Timers.inserttimer_perm { it with ms, tv := reading.1.tvadd (.mstotv ms) } e.timers.list).map tag
      rw [List.map_cons] at htags
      have hsame := tags_callback h
      exact hs.perm hs.counter (htags.trans (.of_eq hsame.symm)) rfl rfl

/-- The ids with their owners, and the counter, are those of the list before. -/
structure SameTags (timers next : Timers TimerOwner) : Prop where
  tags : (running next.process ++ next.list).map tag = timers.list.map tag
  counter : next.counter = timers.counter

/-- The test for the next timer removes none of the ids. -/
theorem sameTags_expire (timers : Timers TimerOwner) (now : Timeval) : SameTags timers (timers.expire now) := by
  rw [Timers.expire]
  cases hlist : timers.list with
  | nil => exact ⟨by simp [running, hlist], rfl⟩
  | cons it list =>
    dsimp only
    split_ifs
    · exact ⟨by rw [hlist]; rfl, rfl⟩
    · exact ⟨by simp [running, hlist], rfl⟩

/-- A timer that is forced to expire has the id that it had. -/
theorem sameTags_processexpired {timers : Timers TimerOwner} (h : running timers.process = []) (force : Bool)
    (reading : Option Reading) : SameTags timers (timers.processexpired force reading) := by
  rw [Timers.processexpired]
  cases hlist : timers.list with
  | nil => exact ⟨by simp [h, hlist], rfl⟩
  | cons it list =>
    cases reading with
    | none => exact ⟨by simp [h], rfl⟩
    | some now =>
      have hexpire := sameTags_expire
        { timers with list := (if force then { it with tv := now.1 } else it) :: list } now.1
      have htags : ((if force then { it with tv := now.1 } else it) :: list).map tag = timers.list.map tag := by
        rw [hlist]
        cases force <;> rfl
      exact ⟨hexpire.tags.trans htags, hexpire.counter⟩

/-- The loop of `aug_processexpired` keeps the correspondence. -/
theorem Sound.same (hs : Sound e) (h : running e.timers.process = []) {timers : Timers TimerOwner}
    (hsame : SameTags e.timers timers) : Sound { e with timers } := by
  have htags : e.tags = e.timers.list.map tag := by rw [tags, h, List.nil_append]
  have hcounter : 0 < timers.counter := by
    rw [hsame.counter]
    exact hs.counter
  exact hs.perm hcounter (.of_eq (hsame.tags.trans htags.symm)) rfl rfl

/-- The timers of others change. -/
theorem Sound.others (hs : Sound e) {list : List (Timer TimerOwner)} (hapart : e.OthersApart list) :
    Sound { e with timers := { e.timers with list } } where
  counter := hs.counter
  unique := by
    rw [tags, List.map_map]
    exact hapart.2
  table := by
    have hmem (list : List (Timer TimerOwner)) (id : ℤ) :
        (id, TimerOwner.session) ∈ list.map tag ↔ ∃ it ∈ sessionTimers list, it.id = id := by
      simp [sessionTimers, tag, and_assoc, and_comm]
    intro id
    rw [hs.table, tags, tags, List.map_append, List.map_append, List.mem_append, List.mem_append, hmem e.timers.list,
      hmem list, hapart.1]
  strays := hs.strays

/-- Every step keeps the correspondence unless it is one of the actions that part the table from the timers. -/
theorem Sound.step (hs : Sound e) {action : EngineAction σ} (hstep : e.step action = some next)
    (hgood : ¬e.Parts action) : Sound next := by
  cases action with
  | sessions sessions =>
    cases hstep
    exact hs.perm hs.counter (.refl _) rfl rfl
  | others list =>
    obtain ⟨⟨-, hapart⟩, hnext⟩ := Option.ite_none_right_eq_some.mp hstep
    cases hnext
    exact hs.others hapart
  | nextid =>
    cases hstep
    exact hs.count (nextid_pos hs.counter).2
  | settimer sname ms ob reading created room =>
    obtain ⟨-, hnext⟩ := Option.ite_none_right_eq_some.mp hstep
    cases hnext
    exact hs.settimer hgood
  | resettimer tid ms reading =>
    obtain ⟨-, hnext⟩ := Option.ite_none_right_eq_some.mp hstep
    cases hnext
    exact hs.resettimer hgood
  | canceltimer tid =>
    obtain ⟨-, hnext⟩ := Option.ite_none_right_eq_some.mp hstep
    cases hnext
    exact hs.canceltimer tid
  | cancelinactive active =>
    obtain ⟨-, hnext⟩ := Option.ite_none_right_eq_some.mp hstep
    cases hnext
    exact hs.cancelinactive hgood
  | processexpired force reading =>
    cases hprocess : e.timers.process with
    | idle =>
      simp only [Engine.step, hprocess, Option.some.injEq] at hstep
      subst hstep
      have hrunning : running e.timers.process = [] := by rw [hprocess]; rfl
      exact hs.same hrunning (sameTags_processexpired hrunning force reading)
    | callback now it => simp [Engine.step, hprocess] at hstep
    | loop now => simp [Engine.step, hprocess] at hstep
  | return' ms reading threw =>
    cases hprocess : e.timers.process with
    | callback now it =>
      simp only [Engine.step, hprocess, Option.some.injEq] at hstep
      subst hstep
      exact hs.finish hprocess hgood
    | idle => simp [Engine.step, hprocess] at hstep
    | loop now => simp [Engine.step, hprocess] at hstep
  | expire =>
    cases hprocess : e.timers.process with
    | loop now =>
      simp only [Engine.step, hprocess, Option.some.injEq] at hstep
      subst hstep
      have hrunning : running e.timers.process = [] := by rw [hprocess]; rfl
      exact hs.same hrunning (sameTags_expire e.timers now)
    | idle => simp [Engine.step, hprocess] at hstep
    | callback now it => simp [Engine.step, hprocess] at hstep

/-- In a run without an action that parts the table from the timers, the table has an entry for each timer of a
session and no other, an expiring timer finds its entry, and `settimer` leaves no timer behind when it throws. -/
theorem table_matches (actions : List (EngineAction σ)) (h : Avoids Engine.step Parts create actions) :
    Always Engine.step Matches create actions := by
  apply always_of_avoids (q := Sound) (fun _ hs => hs.matches) _ sound_create h
  intro s a next hs hstep hgood
  exact hs.step hstep hgood

theorem normal_zero : Timeval.Normal ⟨0, 0⟩ := ⟨le_rfl, by decide⟩

/-- A clock that stands still. -/
def still : Option Reading := some ⟨⟨0, 0⟩, normal_zero⟩

/-- A timer of the session `a` is set, expires, and has no period when its callback returns. -/
def once : List (EngineAction Unit) :=
  [.sessions (Sessions.create.insert [97] () none .started), .settimer [97] 1000 0 still true true,
    .processexpired true still, .return' 0 still false, .expire]

/-- The table follows a timer that expires once. -/
theorem table_matches_once : Always Engine.step Matches create once :=
  table_matches once (by decide)

/-- A timer is set for a session that is not there, and expires. -/
def unknown : List (EngineAction Unit) :=
  [.settimer [110] 1000 0 still true true, .processexpired true still]

/-- `settimer` throws behind the timer that it has set, and the expiring timer finds no entry. -/
theorem unknown_leaves_timer : ¬Always Engine.step Matches create unknown ∧
    ∃ e, run Engine.step create unknown = some e ∧
      ∃ now it, e.timers.process = .callback now it ∧ it.cb = .session ∧ e.sessiontimers.find it.id = none := by
  constructor
  · intro h
    have hstrays := (h.2 _ rfl).head.strays
    cases hstrays
  · exact ⟨_, rfl, _, _, rfl, rfl, rfl⟩

end Engine

end Aug.Aspp
