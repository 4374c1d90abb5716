import Aug.Sys.Sticky

/-!
# Visible sticky events

What `aug_getsticky` returns, in runs in which mask updates and waits may fail. The events that were cleared and
kept in the mask since a wait has last reported them are recorded for every descriptor. Where no event is held the
answer is the last result of the muxer as it is, and that may be older than the mask or the last clear.
-/

namespace Aug.Sys

open Aug.Lib

/-- The events that both sets have. -/
def FdSets.inter (p q : FdSets) : FdSets :=
  ⟨fun md => p.rd md && q.rd md, fun md => p.wr md && q.wr md, fun md => p.ex md && q.ex md⟩

/-- What a call of `aug_getsticky` has returned, with the mask and the events that were cleared in it and not reported
since. -/
structure StickyAnswer where
  events : UInt16
  mask : UInt16
  cleared : UInt16

/-- No event is returned that is not in the mask, and none that was cleared and not reported since. -/
def StickyAnswer.Obeys (answer : StickyAnswer) : Prop :=
  answer.events &&& ~~~answer.mask = 0 ∧ answer.events &&& answer.cleared = 0

/-- The muxer and the sticky events, with what was cleared for each descriptor and the last answer. -/
structure StickyWatch where
  muxer : Muxer
  stickies : ℕ → Option Sticky
  cleared : ℕ → UInt16
  answer : Option StickyAnswer

/-- A call, or a wait with the descriptors that are ready, which may fail. -/
inductive WatchAction where
  | initsticky (md : ℕ) (mask : UInt16)
  | termsticky (md : ℕ)
  | setsticky (md : ℕ) (mask : UInt16)
  | clearsticky (md : ℕ) (mask : UInt16)
  | getsticky (md : ℕ)
  | waitmdevents (ready : Option FdSets)

namespace StickyWatch

/-- A muxer without sticky events. -/
def create : StickyWatch := ⟨.create, fun _ => none, fun _ => 0, none⟩

/-- Replace what there is for a descriptor. -/
def put (s : StickyWatch) (md : ℕ) (sticky : Option Sticky) (muxer : Muxer) (cleared : UInt16) : StickyWatch where
  muxer
  stickies := Function.update s.stickies md sticky
  cleared := Function.update s.cleared md cleared
  answer := none

/-- The muxer after a mask update. One that fails leaves it as it was. -/
def updated (muxer : Muxer) : Except MuxerError Muxer → Muxer
  | .ok muxer => muxer
  | .error _ => muxer

section Steps

variable (setsize : ℕ)

/-- One call. Sticky events that could not be initialised are not used. A wait that fails leaves the sets that it was
given, and has not reported anything. -/
def step (s : StickyWatch) : WatchAction → Option StickyWatch
  | .initsticky md mask =>
    match Sys.initsticky setsize s.muxer md mask with
    | (sticky, .ok muxer) => some (s.put md (some sticky) muxer 0)
    | (_, .error _) => some (s.put md none s.muxer 0)
  | .termsticky md => (s.stickies md).map fun _ =>
      s.put md none (updated s.muxer (s.muxer.setmdeventmask setsize md 0)) 0
  | .setsticky md mask => (s.stickies md).map fun sticky =>
      let (next, muxer) := Sys.setsticky setsize sticky s.muxer mask
      s.put md (some next) (updated s.muxer muxer) (s.cleared md &&& mask)
  | .clearsticky md mask => (s.stickies md).map fun sticky =>
      let (next, muxer) := Sys.clearsticky setsize sticky s.muxer mask
      s.put md (some next) (updated s.muxer muxer) (s.cleared md ||| mask &&& sticky.mask)
  | .getsticky md => (s.stickies md).map fun sticky =>
      let (events, next, muxer) := Sys.getsticky setsize sticky s.muxer
      { s.put md (some next) muxer (s.cleared md) with answer := some ⟨events, sticky.mask, s.cleared md⟩ }
  | .waitmdevents (some ready) =>
    let out := s.muxer.in_.inter ready
    some { s with
      muxer := s.muxer.waitmdevents out
      cleared := fun md => s.cleared md &&& ~~~out.external md
      answer := none }
  | .waitmdevents none => some { s with muxer := s.muxer.waitmdevents s.muxer.in_, answer := none }

end Steps

/-- The last answer obeys. -/
def Obeys (s : StickyWatch) : Prop := ∀ answer, s.answer = some answer → answer.Obeys

/-- The sticky events are asked for while none is held that the mask has, and the last result of the muxer has one
that left the mask, or that was cleared, after the wait. -/
def Stale (s : StickyWatch) (a : WatchAction) : Prop :=
  ∃ md sticky, a = .getsticky md ∧ s.stickies md = some sticky ∧ sticky.mask ≠ 0 ∧ sticky.external = 0 ∧
    ¬(s.muxer.getmdevents md &&& ~~~sticky.mask = 0 ∧ s.muxer.getmdevents md &&& s.cleared md = 0)

/-- The events of a descriptor that were cleared are in the mask and not held. -/
structure Apart (cleared : UInt16) (sticky : Sticky) : Prop where
  held : cleared &&& sticky.internal = 0
  masked : cleared &&& ~~~sticky.mask = 0

/-- Every descriptor has its own sticky events, and those that were cleared are apart. -/
def Sound (s : StickyWatch) : Prop :=
  ∀ md sticky, s.stickies md = some sticky → sticky.md = md ∧ Apart (s.cleared md) sticky

section Masks

variable {a b : UInt16}

/-- Masks have no event in common if they have none at any bit. -/
theorem and_eq_zero_iff : a &&& b = 0 ↔ ∀ i < 16, (a.toBitVec.getLsbD i && b.toBitVec.getLsbD i) = false := by
  rw [← UInt16.toBitVec_inj, UInt16.toBitVec_and]
  constructor
  · intro h i _
    have hbit := congrArg (BitVec.getLsbD · i) h
    simpa using hbit
  · intro h
    apply BitVec.eq_of_getLsbD_eq
    intro i hi
    simpa using h i hi

end Masks

section Calls

variable {setsize : ℕ} {sticky : Sticky} {muxer : Muxer} {cleared mask : UInt16}

/-- Nothing has been cleared in new sticky events. -/
theorem apart_zero (sticky : Sticky) : Apart 0 sticky := ⟨UInt16.zero_and, UInt16.zero_and⟩

/-- A report takes events from those that were cleared. -/
theorem Apart.report (h : Apart cleared sticky) (events : UInt16) : Apart (cleared &&& ~~~events) sticky :=
  ⟨and_and_eq_zero h.held, and_and_eq_zero h.masked⟩

/-- What a mask drops is not kept in it, and what it adds was not in it before. -/
theorem Apart.setsticky (h : Apart cleared sticky) :
    Apart (cleared &&& mask) (Sys.setsticky setsize sticky muxer mask).1 := by
  obtain ⟨hheld, hmasked⟩ := h
  constructor
  · simp only [Sys.setsticky, and_eq_zero_iff, UInt16.toBitVec_and, UInt16.toBitVec_or, UInt16.toBitVec_not,
      BitVec.getLsbD_and, BitVec.getLsbD_or, BitVec.getLsbD_not] at hheld hmasked ⊢
    intro i hi
    have hheldbit := hheld i hi
    have hmaskedbit := hmasked i hi
    grind
  · rw [Sys.setsticky, UInt16.and_assoc, UInt16.and_not_self, UInt16.and_zero]

theorem clearsticky_md (sticky : Sticky) (muxer : Muxer) (mask : UInt16) :
    (Sys.clearsticky setsize sticky muxer mask).1.md = sticky.md := by
  rw [Sys.clearsticky]
  split_ifs <;> rfl

/-- What is cleared is not held. -/
theorem Apart.clearsticky (h : Apart cleared sticky) :
    Apart (cleared ||| mask &&& sticky.mask) (Sys.clearsticky setsize sticky muxer mask).1 := by
  have hnext : (Sys.clearsticky setsize sticky muxer mask).1 = { sticky with internal := sticky.internal &&& ~~~mask } := by
    rw [Sys.clearsticky]
    split_ifs <;> rfl
  obtain ⟨hheld, hmasked⟩ := h
  rw [hnext]
  constructor
  · simp only [and_eq_zero_iff, UInt16.toBitVec_and, UInt16.toBitVec_or, UInt16.toBitVec_not, BitVec.getLsbD_and,
      BitVec.getLsbD_or, BitVec.getLsbD_not] at hheld ⊢
    intro i hi
    have hheldbit := hheld i hi
    grind
  · simp only [and_eq_zero_iff, UInt16.toBitVec_and, UInt16.toBitVec_or, UInt16.toBitVec_not, BitVec.getLsbD_and,
      BitVec.getLsbD_or, BitVec.getLsbD_not] at hmasked ⊢
    intro i hi
    have hmaskedbit := hmasked i hi
    grind

/-- With an event held in the mask, or without a mask, what is returned is held, and nothing changes. -/
theorem getsticky_held (h : ¬(sticky.mask ≠ 0 ∧ sticky.external = 0)) :
    Sys.getsticky setsize sticky muxer = (sticky.external, sticky, muxer) := by
  by_cases hmask : sticky.mask = 0
  · rw [Sys.getsticky, if_pos hmask, Sticky.external, hmask, UInt16.and_zero]
  · rw [Sys.getsticky, if_neg hmask]
    exact if_neg fun hexternal => h ⟨hmask, hexternal⟩

/-- Elsewhere it is the last result of the muxer, and that is held. -/
theorem getsticky_muxer (hmask : sticky.mask ≠ 0) (hexternal : sticky.external = 0) :
    (Sys.getsticky setsize sticky muxer).1 = muxer.getmdevents sticky.md ∧
      (Sys.getsticky setsize sticky muxer).2.1 =
        { sticky with internal := sticky.internal ||| muxer.getmdevents sticky.md &&& mdeventrdwr } := by
  rw [Sys.getsticky, if_neg hmask]
  dsimp only
  rw [if_pos hexternal]
  split_ifs
  · cases muxer.setmdeventmask setsize sticky.md 0 <;> exact ⟨rfl, rfl⟩
  · exact ⟨rfl, rfl⟩

/-- What is held obeys. -/
theorem Apart.external (h : Apart cleared sticky) : StickyAnswer.Obeys ⟨sticky.external, sticky.mask, cleared⟩ := by
  constructor
  · change sticky.internal &&& sticky.mask &&& ~~~sticky.mask = 0
    rw [UInt16.and_assoc, UInt16.and_not_self, UInt16.and_zero]
  · change sticky.internal &&& sticky.mask &&& cleared = 0
    rw [UInt16.and_comm, ← UInt16.and_assoc, h.held, UInt16.zero_and]

/-- A result of the muxer without events that were cleared can be held. -/
theorem Apart.getmdevents (h : Apart cleared sticky) {events : UInt16} (hevents : events &&& cleared = 0) :
    Apart cleared { sticky with internal := sticky.internal ||| events &&& mdeventrdwr } := by
  obtain ⟨hheld, hmasked⟩ := h
  constructor
  · simp only [and_eq_zero_iff, UInt16.toBitVec_and, UInt16.toBitVec_or, BitVec.getLsbD_and,
      BitVec.getLsbD_or] at hheld hevents ⊢
    intro i hi
    have hheldbit := hheld i hi
    have heventsbit := hevents i hi
    grind
  · exact hmasked

end Calls

section Runs

variable {setsize : ℕ} {s next : StickyWatch} {a : WatchAction} {md : ℕ} {sticky : Sticky}

/-- A muxer without sticky events is sound. -/
theorem create_sound : Sound create := nofun

/-- Without an answer there is nothing to obey. -/
theorem obeys_none (h : s.answer = none) : Obeys s := by
  intro answer hanswer
  rw [h] at hanswer
  exact nomatch hanswer

/-- What is put for a descriptor is sound if it is apart. -/
theorem Sound.put (h : Sound s) {sticky : Option Sticky} {cleared : UInt16} (muxer : Muxer)
    (hsticky : ∀ next, sticky = some next → next.md = md ∧ Apart cleared next) : Sound (s.put md sticky muxer cleared) := by
  intro other found hfound
  by_cases hother : other = md
  · simp only [StickyWatch.put, hother, Function.update_self] at hfound ⊢
    exact hsticky found hfound
  · simp only [StickyWatch.put, Function.update_of_ne hother] at hfound ⊢
    exact h other found hfound

/-- One step, unless it asks for events when the last result of the muxer is stale. -/
theorem Sound.step (h : Sound s) (hstep : s.step setsize a = some next) (hgood : ¬Stale s a) : Sound next ∧ Obeys next := by
  cases a with
  | initsticky md mask =>
    rw [StickyWatch.step] at hstep
    split at hstep
    next sticky muxer hinit =>
      obtain rfl := Option.some.inj hstep
      have hmd : sticky.md = md := congrArg (fun result => result.1.md) hinit.symm
      apply And.intro (h.put muxer _) (obeys_none rfl)
      rintro _ ⟨⟩
      exact ⟨hmd, apart_zero sticky⟩
    next sticky error hinit =>
      obtain rfl := Option.some.inj hstep
      exact ⟨h.put s.muxer nofun, obeys_none rfl⟩
  | termsticky md =>
    obtain ⟨sticky, -, rfl⟩ := Option.map_eq_some_iff.mp hstep
    exact ⟨h.put _ nofun, obeys_none rfl⟩
  | setsticky md mask =>
    obtain ⟨sticky, hsticky, rfl⟩ := Option.map_eq_some_iff.mp hstep
    obtain ⟨hmd, hapart⟩ := h md sticky hsticky
    apply And.intro (h.put _ _) (obeys_none rfl)
    rintro _ ⟨⟩
    exact ⟨hmd, @Apart.setsticky setsize sticky s.muxer _ mask hapart⟩
  | clearsticky md mask =>
    obtain ⟨sticky, hsticky, rfl⟩ := Option.map_eq_some_iff.mp hstep
    obtain ⟨hmd, hapart⟩ := h md sticky hsticky
    apply And.intro (h.put _ _) (obeys_none rfl)
    rintro _ ⟨⟩
    exact ⟨(clearsticky_md sticky s.muxer mask).trans hmd, hapart.clearsticky⟩
  | getsticky md =>
    obtain ⟨sticky, hsticky, hnext⟩ := Option.map_eq_some_iff.mp hstep
    obtain ⟨hmd, hapart⟩ := h md sticky hsticky
    obtain ⟨hafter, hanswer⟩ : (Apart (s.cleared md) (Sys.getsticky setsize sticky s.muxer).2.1 ∧
          (Sys.getsticky setsize sticky s.muxer).2.1.md = md) ∧
        StickyAnswer.Obeys ⟨(Sys.getsticky setsize sticky s.muxer).1, sticky.mask, s.cleared md⟩ := by
      by_cases hmuxer : sticky.mask ≠ 0 ∧ sticky.external = 0
      · have hfresh : s.muxer.getmdevents md &&& ~~~sticky.mask = 0 ∧ s.muxer.getmdevents md &&& s.cleared md = 0 := by
          by_contra hstale
          exact hgood ⟨md, sticky, rfl, hsticky, hmuxer.1, hmuxer.2, hstale⟩
        obtain ⟨hevents, hheld⟩ := @getsticky_muxer setsize sticky s.muxer hmuxer.1 hmuxer.2
        have hclear : s.muxer.getmdevents sticky.md &&& s.cleared md = 0 := hmd.symm ▸ hfresh.2
        rw [hmd] at hevents
        rw [hevents, hheld]
        exact ⟨⟨hapart.getmdevents hclear, hmd⟩, hfresh⟩
      · rw [getsticky_held hmuxer]
        exact ⟨⟨hapart, hmd⟩, hapart.external⟩
    rw [← hnext]
    constructor
    · refine h.put (Sys.getsticky setsize sticky s.muxer).2.2 ?_
      rintro _ ⟨⟩
      exact hafter.symm
    · rintro _ ⟨⟩
      exact hanswer
  | waitmdevents ready =>
    cases ready with
    | none =>
      obtain rfl := Option.some.inj hstep
      exact ⟨h, obeys_none rfl⟩
    | some ready =>
      obtain rfl := Option.some.inj hstep
      apply And.intro _ (obeys_none rfl)
      intro md sticky hsticky
      exact (h md sticky hsticky).imp id fun hapart => hapart.report _

/-- A stale result is returned as it is. -/
theorem Stale.disobeys (hstale : Stale s a) (h : Sound s) (hstep : s.step setsize a = some next) : ¬Obeys next := by
  obtain ⟨md, sticky, rfl, hsticky, hmask, hexternal, hevents⟩ := hstale
  obtain ⟨hreturned, -⟩ := @getsticky_muxer setsize sticky s.muxer hmask hexternal
  rw [(h md sticky hsticky).1] at hreturned
  rw [StickyWatch.step, hsticky, Option.map_some, Option.some.injEq] at hstep
  rw [← hstep]
  intro hobeys
  apply hevents
  have hanswer := hobeys _ rfl
  rw [← hreturned]
  exact hanswer

/-- In a run every answer obeys if and only if the sticky events are never asked for when the last result of the muxer
is stale. -/
theorem visible_iff (actions : List WatchAction) {last : StickyWatch} (h : run (step setsize) create actions = some last) :
    Always (step setsize) Obeys create actions ↔ Avoids (step setsize) Stale create actions := by
  apply always_iff_avoids_of (q := fun s => Sound s ∧ Obeys s) (fun _ => And.right) _ _ ⟨create_sound, nofun⟩ h
  · intro s a next hs hstep hgood
    exact hs.1.step hstep hgood
  · intro s a next hs hstep hstale
    exact hstale.disobeys hs.1 hstep

/-- The descriptor 5 is ready to be read. -/
def readable : FdSets := ⟨fun md => md == 5, fun _ => false, fun _ => false⟩

/-- Held events are cleared, and a wait reports that the descriptor is readable again. -/
def reportActions : List WatchAction :=
  [.initsticky 5 mdeventrdwr, .clearsticky 5 mdeventrdwr, .waitmdevents (some readable), .getsticky 5]

theorem visible_iff_report : ∃ last, run (step 1024) create reportActions = some last ∧
    (Always (step 1024) Obeys create reportActions ↔ Avoids (step 1024) Stale create reportActions) := by
  have hrun : run (step 1024) create reportActions = some _ := rfl
  exact ⟨_, hrun, visible_iff reportActions hrun⟩

/-- An event that has been cleared is returned again without another wait. -/
theorem cleared_returned : ¬∀ actions last, run (step 1024) create actions = some last →
    Always (step 1024) Obeys create actions := by
  intro h
  have hrun : run (step 1024) create (reportActions ++ [.clearsticky 5 mdeventrd, .getsticky 5]) = some _ := rfl
  have hobeys := ((h _ _ hrun).final hrun) _ rfl
  exact absurd hobeys.2 (by decide)

end Runs

end StickyWatch

end Aug.Sys
