import Aug.Net.ChansPass

/-!
# The turns of a pass

While a pass is under way its own call waits at an entry, below the calls from the callback; those that are
processed hold channels, and the list is the one of the beginning behind the new entries. Only a return to
the pass itself goes on in the order of the entries. Each channel that is asked for gets its entry if and
only if no forked one lacks the memory, and with that the pass has done what it should.
-/

namespace Aug.Net

open Aug.Lib

namespace ChanFrame

/-- Above the calls that have waited before, a call of `aug_processchans_BI` waits at this entry. -/
def Waits (base frames : List ChanFrame) (it : ℕ) : Prop :=
  ∃ inner own, frames = inner ++ own :: base ∧ own.visits = some it

variable {base frames : List ChanFrame} {frame frame' : ChanFrame} {it ob : ℕ}

theorem Waits.length_lt (h : Waits base frames it) : base.length < frames.length := by
  obtain ⟨inner, own, hframes, -⟩ := h
  rw [hframes, List.length_append, List.length_cons]
  omega

theorem Waits.push (h : Waits base frames it) (frame : ChanFrame) : Waits base (frame :: frames) it := by
  obtain ⟨inner, own, hframes, hown⟩ := h
  exact ⟨frame :: inner, own, by rw [hframes, List.cons_append], hown⟩

/-- The call that waits last is that of the pass itself, or another one. -/
theorem Waits.pop (h : Waits base (frame :: frames) it) :
    frame.visits = some it ∧ frames = base ∨ Waits base frames it := by
  obtain ⟨inner, own, hframes, hown⟩ := h
  cases inner with
  | nil =>
    cases hframes
    exact .inl ⟨hown, rfl⟩
  | cons top inner =>
    cases hframes
    exact .inr ⟨inner, own, rfl, hown⟩

theorem Waits.swap (h : Waits base (frame :: frames) it) (hvisits : frame'.visits = frame.visits) :
    Waits base (frame' :: frames) it := by
  cases h.pop with
  | inl hown => exact ⟨[], frame', by rw [hown.2, List.nil_append], hvisits.trans hown.1⟩
  | inr hwaits => exact hwaits.push frame'

theorem Waits.visits_mem (h : Waits base frames it) : it ∈ frames.filterMap visits := by
  obtain ⟨inner, own, hframes, hown⟩ := h
  rw [hframes]
  exact List.mem_filterMap.mpr ⟨own, List.mem_append_right _ List.mem_cons_self, hown⟩

theorem busy_of_mem (h : .processing it ob ∈ frames) : busy frames it = true :=
  List.any_eq_true.mpr ⟨_, h, decide_eq_true rfl⟩

/-- The entries that are processed hold channels. -/
def Live (registry : Registry) (frames : List ChanFrame) : Prop :=
  ∀ it ob, .processing it ob ∈ frames → ∃ ob', registry it = .holds ob'

/-- No entry that is processed is cleared. -/
theorem Live.steady {registry registry' : Registry} {frames' : List ChanFrame} {news : List ChanEvent}
    (h : Live registry frames) (hframes : ∀ it ob, .processing it ob ∈ frames' → .processing it ob ∈ frames)
    (hrun : run Registry.step registry news = some registry')
    (hgone : ∀ event ∈ news, ∀ it, event.gone = some it → busy frames' it = false) : Live registry' frames' := by
  intro it ob hmem
  obtain ⟨ob', hholds⟩ := h it ob (hframes it ob hmem)
  apply Registry.run_holds hrun hholds
  intro event hevent heq
  have hbusy := hgone event hevent it heq
  rw [busy_of_mem hmem] at hbusy
  cases hbusy

/-- Where no call of `aug_processchans_BI` waits, nothing is processed. -/
theorem live_of_visits (registry : Registry) (h : frames.filterMap visits = []) : Live registry frames := by
  intro it ob hmem
  cases (List.filterMap_eq_nil_iff.mp h) _ hmem

end ChanFrame

namespace Chans

/-- The pass is under way. -/
structure UnderWay (start : Chans) (first : Registry) (base : List ChanFrame) (chans : Chans) (registry : Registry)
    (frames : List ChanFrame) (log : List ChanEvent) : Prop where
  tidy : chans.Tidy registry frames 0
  live : ChanFrame.Live registry frames
  covers : ∃ it front, ChanFrame.Waits base frames it ∧ Covers start first chans registry log (front ++ [it])

/-- The pass has gone through all entries, and the trashed ones have been freed. -/
structure Over (start : Chans) (first : Registry) (last : Chans) (registry : Registry) (log : List ChanEvent) : Prop where
  shape : last.Shape registry
  legal : run Registry.step first log = some registry
  swept : Swept ChanEvent.turn ChanEvent.gone start.path (fun it => ∃ ob, first it = .holds ob) log start.path
  whole : ∀ entry ∈ last.list, entry.ob ≠ none

/-- A step from a set leads to a state in which the pass is under way or over, and it has stored these
channels. -/
def Leads (start : Chans) (first : Registry) (base : List ChanFrame) (log : List ChanEvent) (own : Bool)
    (stored : List ℕ) (chans : Chans) (next : ChanState) : Prop :=
  ∃ chans' registry' events, next.chans = some chans' ∧ chans'.events = chans.events ++ events ∧
    events.filterMap ChanEvent.inserted = stored ∧
    (UnderWay start first base chans' registry' next.frames (log ++ ChanPass.kept own events) ∨
      next.frames = base ∧ Over start first chans' registry' (log ++ ChanPass.kept own events))

variable {start chans chans' : Chans} {first registry registry' : Registry} {base frames frames' : List ChanFrame}
  {frame : ChanFrame} {log news : List ChanEvent} {it ob : ℕ} {rest : List ChanEntry} {front stored : List ℕ}
  {own : Bool} {next : ChanState}

/-- Events without a turn are all kept. -/
theorem kept_of_turns (own : Bool) (h : ∀ event ∈ news, event.turn = none) : ChanPass.kept own news = news := by
  cases own with
  | true => rfl
  | false => exact List.filter_eq_self.mpr fun event hevent => decide_eq_true (h event hevent)

theorem kept_append (own : Bool) (news events : List ChanEvent) :
    ChanPass.kept own (news ++ events) = ChanPass.kept own news ++ ChanPass.kept own events := by
  cases own with
  | true => rfl
  | false => exact List.filter_append news events

/-- A part without a turn comes first. -/
theorem Leads.after (h : Leads start first base (log ++ news) own [] chans' next)
    (hevents : chans'.events = chans.events ++ news) (hturn : ∀ event ∈ news, event.turn = none)
    (hstored : news.filterMap ChanEvent.inserted = stored) : Leads start first base log own stored chans next := by
  obtain ⟨last, registry, events, hlast, hnews, hinserted, hleads⟩ := h
  refine ⟨last, registry, news ++ events, hlast, ?_, ?_, ?_⟩
  · rw [hnews, hevents, List.append_assoc]
  · rw [List.filterMap_append, hinserted, List.append_nil, hstored]
  · rw [kept_append, kept_of_turns own hturn, ← List.append_assoc]
    exact hleads

/-- The step ends with the part without a turn. -/
theorem UnderWay.leads (h : UnderWay start first base chans registry frames log) :
    Leads start first base log own [] chans ⟨some chans, frames⟩ := by
  refine ⟨chans, registry, [], rfl, (List.append_nil _).symm, rfl, .inl ?_⟩
  have hkept : ChanPass.kept own [] = [] := kept_of_turns own (List.forall_mem_nil _)
  rw [hkept, List.append_nil]
  exact h

theorem UnderWay.quiet (h : UnderWay start first base chans registry frames log) (hsteady : Steady chans news chans')
    (htidy : chans'.Tidy registry' frames' 0) (hturn : ∀ event ∈ news, event.turn = none)
    (hstored : news.filterMap ChanEvent.inserted = stored)
    (hframes : ∀ it ob, .processing it ob ∈ frames' → .processing it ob ∈ frames)
    (hgone : ∀ event ∈ news, ∀ it, event.gone = some it → ChanFrame.busy frames' it = false)
    (hwaits : ∀ it, ChanFrame.Waits base frames it → ChanFrame.Waits base frames' it) :
    Leads start first base log own stored chans ⟨some chans', frames'⟩ := by
  obtain ⟨it, front, hwait, hcovers⟩ := h.covers
  have hrun := h.tidy.shape.run_news htidy.shape hsteady.events
  have hunder : UnderWay start first base chans' registry' frames' (log ++ news) :=
    ⟨htidy, h.live.steady hframes hrun hgone, it, front, hwaits it hwait, hcovers.steady htidy.shape hsteady hturn⟩
  exact hunder.leads.after hsteady.events hturn hstored

/-- Another pass comes to its next entry, or it ends. -/
theorem Covers.leads_nested (h : Covers start first chans registry log (front ++ [it]))
    (htidy : chans.Tidy registry frames 1) (hlive : ChanFrame.Live registry frames)
    (hwaits : ChanFrame.Waits base frames it) (hrest : ∀ entry ∈ rest, entry ∈ chans.list) :
    Leads start first base log false [] chans (ChanState.resume (some (chans.visit rest)) frames) := by
  have hvisit := htidy.visit hrest
  cases visit_cases chans rest with
  | inl hnext =>
    obtain ⟨skipped, block, ob, back, hsplit, -, heq⟩ := hnext
    have hmem : ⟨block, some ob⟩ ∈ chans.list := hrest _ (by rw [hsplit]; simp)
    have hblock := (htidy.shape.holds block ob).mp hmem
    rw [heq] at hvisit ⊢
    refine ⟨_, registry, [.process block ob], rfl, rfl, rfl, .inl ⟨hvisit, ?_, it, front, hwaits.push _, ?_⟩⟩
    · intro other c hother
      cases List.mem_cons.mp hother with
      | inl hhead =>
        cases hhead
        exact ⟨ob, hblock⟩
      | inr htail => exact hlive other c htail
    · have hkept : log ++ ChanPass.kept false [.process block ob] = log := List.append_nil log
      rw [hkept]
      exact h.congr hvisit.shape rfl
  | inr hend =>
    have hlocks := htidy.locks
    have hpos : 0 < (frames.filterMap ChanFrame.visits).length := List.length_pos_of_mem hwaits.visits_mem
    have hunlock : chans.unlock = { chans with locks := chans.locks - 1 } := by
      rw [Chans.unlock]
      apply if_neg
      dsimp only
      omega
    rw [hend.2] at hvisit ⊢
    have hunder : UnderWay start first base chans.unlock registry frames log := by
      refine ⟨hvisit, hlive, it, front, hwaits, h.congr hvisit.shape ?_⟩
      rw [hunlock]
      rfl
    have hevents : chans.unlock.events = chans.events ++ [] := by
      rw [hunlock, List.append_nil]
    rw [← List.append_nil log] at hunder
    exact hunder.leads.after hevents (List.forall_mem_nil _) rfl

/-- The pass itself comes to its next entry, or it ends. -/
theorem Covers.leads_own (h : Covers start first chans registry log front) (htidy : chans.Tidy registry base 1)
    (hbase : base.filterMap ChanFrame.visits = []) (hpath : start.path = front ++ rest.map ChanEntry.it)
    (hrest : ∀ entry ∈ rest, entry ∈ chans.list) :
    Leads start first base log true [] chans (ChanState.resume (some (chans.visit rest)) base) := by
  have hvisit := htidy.visit hrest
  cases h.visit hpath hrest with
  | inl hnext =>
    obtain ⟨block, ob, front', heq, hmem, hcovers⟩ := hnext
    have hblock := (htidy.shape.holds block ob).mp hmem
    rw [heq] at hvisit ⊢
    refine ⟨_, registry, [.process block ob], rfl, rfl, rfl, .inl ⟨hvisit, ?_, block, front', ⟨[], _, rfl, rfl⟩, hcovers⟩⟩
    intro other c hother
    cases List.mem_cons.mp hother with
    | inl hhead =>
      cases hhead
      exact ⟨ob, hblock⟩
    | inr htail => exact ChanFrame.live_of_visits registry hbase other c htail
  | inr hend =>
    have hlocks : chans.locks = 1 := by rw [htidy.locks, hbase, List.length_nil, Nat.zero_add]
    have hunlock : chans.unlock = trash { chans with locks := chans.locks - 1 } := by
      rw [Chans.unlock]
      apply if_pos
      dsimp only
      omega
    rw [hend.1] at hvisit ⊢
    refine ⟨chans.unlock, registry, [], rfl, ?_, rfl, .inr ⟨rfl, hvisit.shape, ?_, ?_, ?_⟩⟩
    · rw [hunlock, List.append_nil]
      rfl
    · rw [ChanPass.kept, if_pos rfl, List.append_nil]
      exact hend.2.legal
    · rw [ChanPass.kept, if_pos rfl, List.append_nil]
      exact hend.2.swept
    · rw [hunlock]
      intro entry hentry
      exact Option.isSome_iff_ne_none.mp (List.mem_filter.mp hentry).2

/-- The entries behind that at which the pass waits. -/
theorem Covers.path_eq (h : Covers start first chans registry log (front ++ [it])) (hbehind : chans.behind it = some rest) :
    start.path = (front ++ [it]) ++ rest.map ChanEntry.it := by
  obtain ⟨new, hnew⟩ := h.blocks
  obtain ⟨back, hback⟩ := h.swept.through
  obtain ⟨before, entry, hlist, hit⟩ := behind_split hbehind
  have hblocks : chans.blocks = before.map ChanEntry.it ++ it :: rest.map ChanEntry.it := by
    rw [Chans.blocks, hlist, List.map_append, List.map_cons, hit]
  have hblocks' : chans.blocks = (new ++ front) ++ it :: back := by
    rw [hnew, hback]
    simp
  rw [hback, behind_eq h.shape.nodup hblocks' hblocks]

/-- A call goes on behind its entry, after a part without a turn. -/
theorem UnderWay.goes_on (h : UnderWay start first base chans registry (frame :: frames) log)
    (hbase : base.filterMap ChanFrame.visits = []) {outcome : Option (Chans × List ChanFrame)}
    (hvisits : frame.visits = some it) (hsteady : Steady chans news chans') (htidy : chans'.Tidy registry' frames 1)
    (hgoes : GoesOn outcome chans' it) (hturn : ∀ event ∈ news, event.turn = none)
    (hstored : news.filterMap ChanEvent.inserted = stored) (hgone : ∀ event ∈ news, event.gone = none) :
    Leads start first base log (decide ((frame :: frames).length = base.length + 1)) stored chans
      (ChanState.resume outcome frames) := by
  obtain ⟨rest, hbehind, hrest, houtcome⟩ := hgoes
  obtain ⟨block, front, hwaits, hcovers⟩ := h.covers
  have hmidway := hcovers.steady htidy.shape hsteady hturn
  have hrun := h.tidy.shape.run_news htidy.shape hsteady.events
  have hlive : ChanFrame.Live registry' frames := by
    apply h.live.steady (fun other c hmem => List.mem_cons_of_mem _ hmem) hrun
    intro event hevent other heq
    rw [hgone event hevent] at heq
    cases heq
  rw [houtcome]
  cases hwaits.pop with
  | inl hown =>
    obtain ⟨hframe, hframes⟩ := hown
    rw [hvisits, Option.some.injEq] at hframe
    rw [hframes] at htidy ⊢
    rw [← hframe] at hmidway
    have hlength : (frame :: base).length = base.length + 1 := List.length_cons
    rw [decide_eq_true hlength]
    exact (hmidway.leads_own htidy hbase (hmidway.path_eq hbehind) hrest).after hsteady.events hturn hstored
  | inr hnested =>
    have hlength := hnested.length_lt
    have hne : ¬(frame :: frames).length = base.length + 1 := by
      rw [List.length_cons]
      omega
    rw [decide_eq_false hne]
    exact (hmidway.leads_nested htidy hlive hnested hrest).after hsteady.events hturn hstored

/-- A channel that is processed returns. -/
theorem UnderWay.processed (h : UnderWay start first base chans registry (.processing it ob :: frames) log)
    (hbase : base.filterMap ChanFrame.visits = []) (result : Processed)
    (hallows : result = .returned none → ChanFrame.busy frames it = false) :
    Leads start first base log (decide ((ChanFrame.processing it ob :: frames).length = base.length + 1))
      (ChanAction.processed result).stores chans (ChanState.resume (chans.processed it result) frames) := by
  obtain ⟨ob', hholds⟩ := h.live it ob List.mem_cons_self
  have hmem := (h.tidy.shape.holds it ob').mpr hholds
  cases result with
  | forked c memory =>
    obtain ⟨chans', registry', hsteady, htidy, hgoes⟩ := h.tidy.forked hmem c memory
    cases memory with
    | true => exact h.goes_on hbase rfl hsteady htidy hgoes (by simp [insertion, ChanEvent.turn]) rfl (by simp [insertion, ChanEvent.gone])
    | false => exact h.goes_on hbase rfl hsteady htidy hgoes (by simp [insertion]) rfl (by simp [insertion])
  | returned o =>
    cases o with
    | none =>
      obtain ⟨chans', registry', hsteady, htidy, hdropped⟩ := h.tidy.dropped hmem
      rw [hdropped]
      apply h.quiet hsteady htidy (by simp [ChanEvent.turn]) rfl
      · intro other c hother
        cases List.mem_cons.mp hother with
        | inl hhead => cases hhead
        | inr htail => exact List.mem_cons_of_mem _ htail
      · intro event hevent other heq
        rw [List.mem_singleton] at hevent
        rw [hevent, ChanEvent.gone, Option.some.injEq] at heq
        rw [← heq]
        exact hallows rfl
      · intro other hwaits
        exact hwaits.swap rfl
    | some c =>
      obtain ⟨chans', registry', hsteady, htidy, hgoes⟩ := h.tidy.returned hmem c
      exact h.goes_on hbase rfl hsteady htidy hgoes (by simp [ChanEvent.turn]) rfl (by simp [ChanEvent.gone])

/-- The clear callback of a channel that was removed returns. No removal without the lock is above the pass. -/
theorem UnderWay.released {locked : Bool}
    (h : UnderWay start first base chans registry (.releasing it ob locked :: frames) log) :
    Leads start first base log own [] chans (ChanState.resume (chans.released it ob locked) frames) := by
  obtain ⟨hrelease, -, hvisits⟩ := h.tidy.finish
  have hpop : ∀ block, ChanFrame.Waits base (.releasing it ob locked :: frames) block →
      ChanFrame.Waits base frames block := by
    intro block hwaits
    cases hwaits.pop with
    | inl hown => cases hown.1
    | inr hwaits => exact hwaits
  cases locked with
  | false =>
    obtain ⟨block, front, hwaits, -⟩ := h.covers
    have hmem := (hpop block hwaits).visits_mem
    rw [hvisits rfl] at hmem
    cases hmem
  | true =>
    rw [Chans.released, if_pos rfl]
    apply h.quiet (.release chans ob) hrelease (List.forall_mem_nil _) rfl
    · intro other c hmem
      exact List.mem_cons_of_mem _ hmem
    · exact List.forall_mem_nil _
    · exact hpop

/-- A pass from a callback begins. -/
theorem UnderWay.process (h : UnderWay start first base chans registry frames log) :
    chans.processchans = none ∨
      Leads start first base log false [] chans (ChanState.resume chans.processchans frames) := by
  obtain ⟨hlocked, hprocess⟩ := h.tidy.processchans
  rw [hprocess]
  by_cases hlocks : 2 ^ 31 ≤ chans.locks + 1
  · exact .inl (if_pos hlocks)
  · rw [if_neg hlocks]
    obtain ⟨it, front, hwaits, hcovers⟩ := h.covers
    have hpos : 0 < (frames.filterMap ChanFrame.visits).length := List.length_pos_of_mem hwaits.visits_mem
    have hcount := h.tidy.locks
    have hblocks : chans.locked.blocks = chans.blocks := by
      rw [Chans.blocks, Chans.blocks, locked]
      dsimp only
      rw [if_neg]
      omega
    apply Or.inr
    apply Leads.after _ (List.append_nil chans.events).symm (List.forall_mem_nil _) rfl
    rw [List.append_nil]
    exact (hcovers.congr hlocked.shape hblocks).leads_nested hlocked h.live hwaits fun _ hentry => hentry

/-- Each step of a pass that is under way leads on, unless the lock count is exceeded. -/
theorem UnderWay.step {chanid : ℕ → ℤ} {action : ChanAction}
    (h : UnderWay start first base chans registry frames log) (hbase : base.filterMap ChanFrame.visits = [])
    (hallows : ChanState.allows chanid ⟨some chans, frames⟩ action = true)
    (hstep : ChanState.step chanid ⟨some chans, frames⟩ action = some next) :
    action = .process ∧ next = ⟨none, frames⟩ ∨
      Leads start first base log (ChanPass.returns base frames action) action.stores chans next := by
  rw [ChanState.step, Option.bind_some] at hstep
  cases action with
  | insert ob memory =>
    cases hstep
    obtain ⟨registry', hinsert⟩ := h.tidy.insert ob memory
    apply Or.inr
    apply h.quiet (.insert chans ob memory) hinsert
    · cases memory <;> simp [insertion, ChanEvent.turn]
    · cases memory <;> rfl
    · exact fun _ _ hmem => hmem
    · cases memory <;> simp [insertion, ChanEvent.gone]
    · exact fun _ hwaits => hwaits
  | remove id =>
    cases hstep
    apply Or.inr
    rw [Chans.removechan]
    rw [ChanState.allows, Option.bind_some] at hallows
    cases hlocate : chans.locate chanid id with
    | none => exact h.leads
    | some located =>
      obtain ⟨it, ob⟩ := located
      rw [hlocate] at hallows
      apply h.quiet (.clear chans it ob) (h.tidy.remove (locate_mem hlocate)) (by simp [ChanEvent.turn]) rfl
      · intro other c hmem
        cases List.mem_cons.mp hmem with
        | inl hhead => cases hhead
        | inr htail => exact htail
      · intro event hevent other heq
        rw [List.mem_singleton] at hevent
        rw [hevent, ChanEvent.gone, Option.some.injEq] at heq
        rw [← heq]
        exact (Bool.not_eq_true' _).mp hallows
      · exact fun _ hwaits => hwaits.push _
  | find id =>
    cases hstep
    apply Or.inr
    have htidy := h.tidy.findchan chanid id
    rw [Chans.findchan] at htidy ⊢
    cases hlocate : chans.locate chanid id with
    | none => exact h.leads
    | some located =>
      obtain ⟨it, ob⟩ := located
      rw [hlocate] at htidy
      have hsteady : Steady chans [.found it ob] (chans.notice (.found it ob)) := .of_blocks rfl rfl rfl
      apply h.quiet hsteady htidy (by simp [ChanEvent.turn]) rfl
      · exact fun _ _ hmem => hmem
      · simp [ChanEvent.gone]
      · exact fun _ hwaits => hwaits
  | process =>
    cases hstep
    cases h.process with
    | inl hnone =>
      rw [hnone]
      exact .inl ⟨rfl, rfl⟩
    | inr hleads => exact .inr hleads
  | processed result =>
    cases frames with
    | nil => cases hstep
    | cons frame frames =>
      cases frame with
      | clearing it ob => cases hstep
      | releasing it ob locked => cases hstep
      | processing it ob =>
        cases hstep
        apply Or.inr
        apply h.processed hbase result
        intro hnone
        rw [hnone] at hallows
        exact (Bool.not_eq_true' _).mp hallows
  | cleared =>
    cases frames with
    | nil => cases hstep
    | cons frame frames =>
      cases frame with
      | processing it ob => cases hstep
      | clearing it ob =>
        cases hstep
        obtain ⟨htidy, hgoes⟩ := h.tidy.cleared
        apply Or.inr
        exact h.goes_on hbase rfl (.release chans ob) htidy hgoes (List.forall_mem_nil _) rfl (List.forall_mem_nil _)
      | releasing it ob locked =>
        cases hstep
        exact .inr h.released

/-- What a pass has done when it is over. -/
theorem Over.passedTo {last : Chans} {asked : List ℕ} (h : Over start first last registry log) (hstart : start.Shape first)
    (hasked : log.filterMap ChanEvent.inserted = asked) : start.PassedTo log asked last where
  once front it ob back horder := by
    have hmem : ⟨it, some ob⟩ ∈ start.order := by
      rw [horder]
      exact List.mem_append_right _ List.mem_cons_self
    have hpath : start.path = front.map ChanEntry.it ++ it :: back.map ChanEntry.it := by
      rw [path, horder, List.map_append, List.map_cons]
    have hthere := (hstart.holds it ob).mp ((rotated_perm start.list).mem_iff.mp hmem)
    exact h.swept.had _ it _ hpath (List.mem_map_of_mem hmem) ⟨ob, hthere⟩
  turn before it ob after hlog := by
    apply And.intro
    · have hturns : turns ChanEvent.turn log it ≠ 0 := by
        apply turns_pos _ (show ChanEvent.turn (.process it ob) = some it from rfl)
        rw [hlog]
        exact List.mem_append_right _ List.mem_cons_self
      exact ((rotated_perm start.list).map ChanEntry.it).mem_iff.mp (h.swept.only it hturns)
    · have hlegal := h.legal
      rw [hlog, run_append] at hlegal
      obtain ⟨midway, hbefore, hafter⟩ := Option.bind_eq_some_iff.mp hlegal
      obtain ⟨next, hnext, -⟩ := run_cons_some hafter
      rw [hstart.holding_eq hbefore, Status.channel_eq]
      exact (Option.ite_none_right_eq_some.mp hnext).1
  inserted := hasked
  held it ob := by
    rw [h.shape.holds, hstart.holding_eq h.legal, Status.channel_eq]
  nodup := h.shape.nodup
  whole := h.whole

end Chans

namespace ChanPass

variable {chanid : ℕ → ℤ} {start : Chans} {first : Registry} {base : List ChanFrame} {pass next last : ChanPass}
  {action : ChanAction} {actions : List ChanAction}

/-- The pass is under way or over, unless the lock count was exceeded. -/
def Sound (start : Chans) (first : Registry) (base : List ChanFrame) (pass : ChanPass) : Prop :=
  pass.state.chans = none ∧ base.length < pass.state.frames.length ∨
    ∃ chans registry, pass.state.chans = some chans ∧
      (Chans.UnderWay start first base chans registry pass.state.frames pass.log ∨
        pass.state.frames = base ∧ Chans.Over start first chans registry pass.log)

/-- The events of a step. -/
theorem news_eq {chans chans' : Chans} {frames : List ChanFrame} {after : ChanState} {events : List ChanEvent}
    (hafter : after.chans = some chans') (hevents : chans'.events = chans.events ++ events) :
    news ⟨some chans, frames⟩ after = events := by
  rw [news, hafter]
  dsimp only
  rw [hevents, List.drop_left]

/-- A step leaves a pass sound, and says what has been inserted and what was to be. -/
theorem step_sound (h : Sound start first base pass) (hbase : base.filterMap ChanFrame.visits = [])
    (hstep : step chanid base pass action = some next) :
    Sound start first base next ∧
      next.log.filterMap ChanEvent.inserted = pass.log.filterMap ChanEvent.inserted ++ action.stores ∧
      next.asked = pass.asked ++ action.asks.toList := by
  obtain ⟨⟨chans, frames⟩, log, asked⟩ := pass
  obtain ⟨hgoes, hmap⟩ := Option.ite_none_left_eq_some.mp hstep
  obtain ⟨state, hstate, hnext⟩ := Option.map_eq_some_iff.mp hmap
  rw [not_or, Nat.not_le, Bool.not_eq_false] at hgoes
  obtain ⟨hgoes, hallows⟩ := hgoes
  cases h with
  | inl hnone =>
    obtain ⟨hnone, -⟩ := hnone
    dsimp only at hnone hstate
    rw [hnone] at hstate
    cases hstate
  | inr hsome =>
    obtain ⟨chans', registry, hchans, hcase⟩ := hsome
    dsimp only at hchans hcase hgoes hallows hstate hnext
    rw [hchans] at hallows hstate hnext
    cases hcase with
    | inr hover =>
      rw [hover.1] at hgoes
      exact absurd hgoes (Nat.lt_irrefl _)
    | inl hunder =>
      cases hunder.step hbase hallows hstate with
      | inl hlocks =>
        rw [hlocks.1, hlocks.2] at hnext
        cases hnext
        rw [hlocks.1]
        exact ⟨.inl ⟨rfl, hgoes⟩, by simp [news, kept, ChanAction.stores, ChanAction.asks, ChanAction.loses], rfl⟩
      | inr hleads =>
        obtain ⟨after, registry', events, hafter, hevents, hinserted, hcase⟩ := hleads
        rw [news_eq hafter hevents] at hnext
        cases hnext
        refine ⟨.inr ⟨after, registry', hafter, hcase⟩, ?_, rfl⟩
        rw [List.filterMap_append, ← hinserted, kept]
        split
        · rfl
        · rw [List.filterMap_filter]
          apply congrArg (_ ++ ·)
          apply List.filterMap_congr
          intro event _
          cases event <;> rfl

/-- Along the whole pass. -/
theorem run_sound (h : Sound start first base pass) (hbase : base.filterMap ChanFrame.visits = [])
    (hrun : run (step chanid base) pass actions = some last) :
    Sound start first base last ∧
      last.log.filterMap ChanEvent.inserted =
        pass.log.filterMap ChanEvent.inserted ++ actions.flatMap ChanAction.stores ∧
      last.asked = pass.asked ++ actions.flatMap fun action => action.asks.toList := by
  induction actions generalizing pass with
  | nil =>
    cases hrun
    exact ⟨h, (List.append_nil _).symm, (List.append_nil _).symm⟩
  | cons action actions ih =>
    obtain ⟨next, hnext, hrun⟩ := run_cons_some hrun
    obtain ⟨hsound, hlog, hasked⟩ := step_sound h hbase hnext
    obtain ⟨hlast, hlogs, haskeds⟩ := ih hsound hrun
    rw [hlogs, haskeds, hlog, hasked, List.append_assoc, List.append_assoc, List.flatMap_cons, List.flatMap_cons]
    exact ⟨hlast, rfl, rfl⟩

/-- What is inserted is all that was to be, unless a forked channel was lost. -/
theorem stores_iff (actions : List ChanAction) :
    actions.flatMap ChanAction.stores = actions.flatMap (fun action => action.asks.toList) ↔
      ∀ action ∈ actions, action.loses = false := by
  have hlength : (actions.flatMap ChanAction.stores).length + actions.countP ChanAction.loses =
      (actions.flatMap fun action => action.asks.toList).length := by
    induction actions with
    | nil => rfl
    | cons action actions ih =>
      rw [List.flatMap_cons, List.flatMap_cons, List.length_append, List.length_append, List.countP_cons, ← ih,
        ChanAction.stores]
      by_cases hloses : action.loses = true
      · have hasks : action.asks.toList.length = 1 := by
          cases action with
          | processed result =>
            cases result with
            | forked ob memory => rfl
            | returned o => cases hloses
          | insert ob memory => cases hloses
          | remove id => cases hloses
          | find id => cases hloses
          | process => cases hloses
          | cleared => cases hloses
        rw [if_pos hloses, if_pos hloses, hasks, List.length_nil]
        omega
      · rw [if_neg hloses, if_neg hloses]
        omega
  apply Iff.intro
  · intro heq
    rw [heq] at hlength
    have hzero : actions.countP ChanAction.loses = 0 := by omega
    intro action haction
    exact (Bool.not_eq_true _).mp (List.countP_eq_zero.mp hzero action haction)
  · intro hall
    apply List.flatMap_congr
    intro action haction
    rw [ChanAction.stores, if_neg ((Bool.not_eq_true _).mpr (hall action haction))]

/-- The pass begins. -/
theorem enter_sound (h : start.Tidy first base 0) (hlocks : start.locks = 0) :
    Sound start first base (enter start base) ∧ (enter start base).log.filterMap ChanEvent.inserted = [] := by
  obtain ⟨hlocked, hprocess⟩ := h.processchans
  have hbase : base.filterMap ChanFrame.visits = [] := by
    have hcount := h.locks
    rw [hlocks] at hcount
    exact List.length_eq_zero_iff.mp hcount.symm
  have hlist : start.locked.list = start.order := by
    rw [Chans.locked]
    dsimp only
    rw [hlocks]
    exact if_pos rfl
  have hpath : start.path = [] ++ start.locked.list.map ChanEntry.it := by
    rw [hlist]
    rfl
  have hcovers : Chans.Covers start first start.locked first [] [] :=
    ⟨hlocked.shape, ⟨[], by rw [Chans.blocks, hlist]; rfl⟩, rfl, .start _ _ _ _⟩
  obtain ⟨chans, registry, events, hchans, hevents, hinserted, hcase⟩ :=
    hcovers.leads_own hlocked hbase hpath fun _ hentry => hentry
  have hstate : start.processchans = some (start.locked.visit start.locked.list) := by
    rw [hprocess, hlocks]
    exact if_neg (by decide)
  have hevents' : chans.events = start.events ++ events := hevents
  rw [enter, hstate]
  dsimp only
  rw [news_eq hchans hevents']
  exact ⟨.inr ⟨chans, registry, hchans, hcase⟩, hinserted⟩

/-- An outermost pass over any channel set, whose callbacks remove no channel that is being processed: when
it is over, it has processed each channel once that was not removed before its turn, and no new one, and the
set holds what is left of its channels, the inserted ones and the forked ones, if and only if there was memory
for the entry of each forked channel. -/
theorem passed_iff (chanid : ℕ → ℤ) (calls : List ChanAction) (start : Chans) (base : List ChanFrame)
    (hstart : run (ChanState.step chanid) .create calls = some ⟨some start, base⟩) (hlocks : start.locks = 0)
    (actions : List ChanAction) (pass : ChanPass) (hrun : run (step chanid base) (enter start base) actions = some pass)
    (hover : pass.state.frames = base) :
    (∃ last, pass.state.chans = some last ∧ start.PassedTo pass.log pass.asked last) ↔
      ∀ action ∈ actions, action.loses = false := by
  obtain ⟨first, htidy⟩ := ChanState.run_tidy hstart start rfl
  dsimp only at htidy
  have hbase : base.filterMap ChanFrame.visits = [] := by
    have hcount := htidy.locks
    rw [hlocks] at hcount
    exact List.length_eq_zero_iff.mp hcount.symm
  obtain ⟨henter, hempty⟩ := enter_sound htidy hlocks
  obtain ⟨hsound, hlog, hasked⟩ := run_sound henter hbase hrun
  have hasked' : pass.asked = actions.flatMap fun action => action.asks.toList := hasked
  rw [hempty, List.nil_append] at hlog
  rw [← stores_iff, ← hlog, ← hasked']
  have hlast : ∃ last registry, pass.state.chans = some last ∧ Chans.Over start first last registry pass.log := by
    cases hsound with
    | inl hnone =>
      rw [hover] at hnone
      exact absurd hnone.2 (Nat.lt_irrefl _)
    | inr hsome =>
      obtain ⟨last, registry, hchans, hcase⟩ := hsome
      refine ⟨last, registry, hchans, ?_⟩
      cases hcase with
      | inr hdone => exact hdone.2
      | inl hunder =>
        obtain ⟨it, front, hwaits, -⟩ := hunder.covers
        rw [hover] at hwaits
        exact absurd hwaits.length_lt (Nat.lt_irrefl _)
  obtain ⟨last, registry, hchans, hdone⟩ := hlast
  apply Iff.intro
  · rintro ⟨other, -, hpassed⟩
    exact hpassed.inserted
  · intro hall
    exact ⟨last, hchans, hdone.passedTo htidy.shape hall⟩

/-- A run of calls, and a pass over the set that they leave. -/
def trial (calls actions : List ChanAction) : Option (Chans × List ChanFrame × ChanPass) :=
  (run (ChanState.step Nat.cast) .create calls).bind fun state =>
    state.chans.bind fun start =>
      (run (step Nat.cast state.frames) (enter start state.frames) actions).map fun pass => (start, state.frames, pass)

theorem trial_eq {calls : List ChanAction} {trialled : Chans × List ChanFrame × ChanPass}
    (h : trial calls actions = some trialled) :
    run (ChanState.step Nat.cast) .create calls = some ⟨some trialled.1, trialled.2.1⟩ ∧
      run (step Nat.cast trialled.2.1) (enter trialled.1 trialled.2.1) actions = some trialled.2.2 := by
  obtain ⟨state, hstate, h⟩ := Option.bind_eq_some_iff.mp h
  obtain ⟨start, hstart, h⟩ := Option.bind_eq_some_iff.mp h
  obtain ⟨pass, hpass, h⟩ := Option.map_eq_some_iff.mp h
  cases h
  exact ⟨by rw [hstate, ← hstart], hpass⟩

/-- Three channels: the first callback removes one and inserts another, and has a pass of its own in which the
last one returns null. -/
theorem passed_iff_three : ∃ (start : Chans) (base : List ChanFrame) (pass : ChanPass) (last : Chans),
    pass.state.chans = some last ∧ start.PassedTo pass.log pass.asked last ∧ run (ChanState.step Nat.cast) .create
      [.insert 1 true, .insert 2 true, .insert 3 true] = some ⟨some start, base⟩ := by
  let actions : List ChanAction := [.remove 3, .cleared, .insert 9 true, .process, .processed (.forked 4 true),
    .processed (.returned (some 2)), .processed (.returned none), .cleared, .processed (.returned (some 2))]
  have hends : (trial [.insert 1 true, .insert 2 true, .insert 3 true] actions).map
      (fun trialled => (trialled.1.locks, trialled.2.1, trialled.2.2.state.frames)) = some (0, [], []) := by
    decide +kernel
  obtain ⟨⟨start, base, pass⟩, htrial, hends⟩ := Option.map_eq_some_iff.mp hends
  obtain ⟨hstart, hrun⟩ := trial_eq htrial
  rw [Prod.mk.injEq, Prod.mk.injEq] at hends
  obtain ⟨hlocks, hbase, hover⟩ := hends
  have hlost : ∀ action ∈ actions, action.loses = false := by decide
  obtain ⟨last, hlast, hpassed⟩ :=
    (passed_iff Nat.cast _ start base hstart hlocks actions pass hrun (hover.trans hbase.symm)).mpr hlost
  exact ⟨start, base, pass, last, hlast, hpassed, hstart⟩

/-- A channel forks another one, and there is no memory for its entry: the forked channel is dropped. -/
theorem fork_lost : ¬∀ (chanid : ℕ → ℤ) (calls : List ChanAction) (start : Chans) (base : List ChanFrame),
    run (ChanState.step chanid) .create calls = some ⟨some start, base⟩ → start.locks = 0 →
      ∀ (actions : List ChanAction) (pass : ChanPass), run (step chanid base) (enter start base) actions = some pass →
        pass.state.frames = base → ∃ last, pass.state.chans = some last ∧ start.PassedTo pass.log pass.asked last := by
  intro h
  have hends : (trial [.insert 1 true] [.processed (.forked 2 false)]).map (fun trialled => (trialled.1.locks,
      trialled.2.1, trialled.2.2.state.frames, trialled.2.2.log.filterMap ChanEvent.inserted, trialled.2.2.asked)) =
        some (0, [], [], [], [2]) := by decide +kernel
  obtain ⟨⟨start, base, pass⟩, htrial, hends⟩ := Option.map_eq_some_iff.mp hends
  obtain ⟨hstart, hrun⟩ := trial_eq htrial
  rw [Prod.mk.injEq, Prod.mk.injEq, Prod.mk.injEq, Prod.mk.injEq] at hends
  obtain ⟨hlocks, hbase, hover, hlog, hasked⟩ := hends
  obtain ⟨last, -, hpassed⟩ := h Nat.cast _ start base hstart hlocks _ pass hrun (hover.trans hbase.symm)
  have hinserted := hpassed.inserted
  rw [hlog, hasked] at hinserted
  cases hinserted

end ChanPass

end Aug.Net
