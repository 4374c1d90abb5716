import Aug.Lib.Transition
import Aug.Sys.Muxer

/-!
# Sticky events

The sticky events of `sticky.c` over a muxer with any number of descriptors. A held event that lies in
the mask stands for the mask of the muxer: either some event is held, and the muxer waits for none, or
the muxer waits for the whole mask.
-/

namespace Aug.Sys

open Aug.Lib

/-- `struct aug_sticky`. -/
structure Sticky where
  md : ℕ
  mask : UInt16
  internal : UInt16

/-- `EXTERNAL_`. -/
def Sticky.external (sticky : Sticky) : UInt16 := sticky.internal &&& sticky.mask

section Operations

variable (setsize : ℕ)

/-- `aug_setsticky`. -/
def setsticky (sticky : Sticky) (muxer : Muxer) (mask : UInt16) : Sticky × Except MuxerError Muxer :=
  let events := mask &&& mdeventrdwr
  let sticky := { sticky with internal := sticky.internal ||| (events &&& ~~~sticky.mask), mask := mask }
  let mask := if sticky.external = 0 then mask else 0
  (sticky, muxer.setmdeventmask setsize sticky.md mask)

/-- `aug_initsticky`. -/
def initsticky (muxer : Muxer) (md : ℕ) (mask : UInt16) : Sticky × Except MuxerError Muxer :=
  setsticky setsize { md := md, mask := 0, internal := 0 } muxer mask

/-- `aug_clearsticky`. -/
def clearsticky (sticky : Sticky) (muxer : Muxer) (mask : UInt16) : Sticky × Except MuxerError Muxer :=
  let sticky := { sticky with internal := sticky.internal &&& ~~~mask }
  if sticky.mask ≠ 0 ∧ sticky.external = 0 then
    (sticky, muxer.setmdeventmask setsize sticky.md sticky.mask)
  else (sticky, .ok muxer)

/-- `aug_getsticky`; it goes on where a mask update fails. -/
def getsticky (sticky : Sticky) (muxer : Muxer) : UInt16 × Sticky × Muxer :=
  if sticky.mask = 0 then (0, sticky, muxer)
  else
    let events := sticky.external
    if events = 0 then
      let events := muxer.getmdevents sticky.md
      let sticky := { sticky with internal := sticky.internal ||| (events &&& mdeventrdwr) }
      if sticky.external ≠ 0 then
        match muxer.setmdeventmask setsize sticky.md 0 with
        | .ok muxer => (events, sticky, muxer)
        | .error _ => (events, sticky, muxer)
      else (events, sticky, muxer)
    else (events, sticky, muxer)

/-- The muxer with the sticky events of its descriptors. -/
structure StickySystem where
  muxer : Muxer
  stickies : ℕ → Option Sticky

/-- A call, or a wait with the sets that it leaves. -/
inductive StickyAction where
  | initsticky (md : ℕ) (mask : UInt16)
  | setsticky (md : ℕ) (mask : UInt16)
  | clearsticky (md : ℕ) (mask : UInt16)
  | getsticky (md : ℕ)
  | waitmdevents (out : FdSets)

namespace StickySystem

/-- A muxer without sticky events. -/
def create : StickySystem := ⟨.create, fun _ => none⟩

/-- Keep the result of a call, where its mask update succeeded. -/
def keep (s : StickySystem) (md : ℕ) : Sticky × Except MuxerError Muxer → Option StickySystem
  | (sticky, .ok muxer) => some { muxer, stickies := Function.update s.stickies md (some sticky) }
  | (_, .error _) => none

/-- The steps, for calls whose mask updates succeed. -/
def step (s : StickySystem) : StickyAction → Option StickySystem
  | .initsticky md mask => s.keep md (Sys.initsticky setsize s.muxer md mask)
  | .setsticky md mask => (s.stickies md).bind fun sticky =>
      s.keep md (Sys.setsticky setsize sticky s.muxer mask)
  | .clearsticky md mask => (s.stickies md).bind fun sticky =>
      s.keep md (Sys.clearsticky setsize sticky s.muxer mask)
  | .getsticky md => (s.stickies md).bind fun sticky =>
      let (_, sticky, muxer) := Sys.getsticky setsize sticky s.muxer
      some { muxer, stickies := Function.update s.stickies md (some sticky) }
  | .waitmdevents out => some { s with muxer := s.muxer.waitmdevents out }

end StickySystem

end Operations

section Invariant

variable {setsize : ℕ}

/-- The muxer waits for the mask, or for nothing while an event of the mask is held. -/
def Sticky.Waits (sticky : Sticky) (muxer : Muxer) : Prop :=
  muxer.getmdeventmask sticky.md = if sticky.external ≠ 0 then 0 else sticky.mask

/-- Events that are cleared leave no new ones in a mask. -/
theorem and_and_eq_zero {a b c : UInt16} (h : a &&& b = 0) : a &&& c &&& b = 0 := by
  rw [UInt16.and_assoc, UInt16.and_comm c b, ← UInt16.and_assoc, h, UInt16.zero_and]

/-- What a call does to the muxer: the mask of its descriptor is right, and other masks are kept. -/
structure StickyEffect (md : ℕ) (muxer : Muxer) (next : Sticky) (muxer' : Muxer) : Prop where
  md_eq : next.md = md
  waits : next.Waits muxer'
  others : ∀ other ≠ md, muxer'.getmdeventmask other = muxer.getmdeventmask other
  covers : muxer.Covers → muxer'.Covers

variable {md : ℕ} {next : Sticky} {muxer muxer' : Muxer}

/-- A call that leaves the muxer as it was. -/
theorem StickyEffect.unchanged (hmd : next.md = md) (hwaits : next.Waits muxer) :
    StickyEffect md muxer next muxer where
  md_eq := hmd
  waits := hwaits
  others _ _ := rfl
  covers := id

/-- A call that updates the mask of the muxer to the right one. -/
theorem StickyEffect.updated {mask : UInt16} (hmd : next.md = md)
    (h : muxer.setmdeventmask setsize md mask = .ok muxer')
    (hmask : mask = if next.external ≠ 0 then 0 else next.mask) :
    StickyEffect md muxer next muxer' where
  md_eq := hmd
  waits := by
    rw [Sticky.Waits, hmd]
    exact (Muxer.getmdeventmask_setmdeventmask h).1.trans hmask
  others := (Muxer.getmdeventmask_setmdeventmask h).2
  covers := (Muxer.setmdeventmask_ok h).2.2.2.2

/-- `aug_setsticky` sets the mask of the muxer anew. -/
theorem setsticky_effect {sticky : Sticky} {mask : UInt16}
    (h : setsticky setsize sticky muxer mask = (next, .ok muxer')) :
    StickyEffect sticky.md muxer next muxer' ∧ sticky.md < setsize := by
  obtain ⟨rfl, hmuxer⟩ := Prod.mk.inj h
  constructor
  · refine StickyEffect.updated rfl hmuxer ?_
    split <;> simp_all
  · exact (Muxer.setmdeventmask_ok hmuxer).1

/-- `aug_clearsticky` waits for the mask again when no event in it is held any more. -/
theorem clearsticky_effect {sticky : Sticky} {mask : UInt16}
    (hwaits : sticky.Waits muxer) (h : clearsticky setsize sticky muxer mask = (next, .ok muxer')) :
    StickyEffect sticky.md muxer next muxer' := by
  unfold clearsticky at h
  dsimp only at h
  split at h
  next hnone =>
    obtain ⟨rfl, hmuxer⟩ := Prod.mk.inj h
    refine StickyEffect.updated rfl hmuxer ?_
    rw [if_neg (not_not.mpr hnone.2)]
  next hsome =>
    obtain ⟨rfl, hmuxer⟩ := Prod.mk.inj h
    obtain rfl := Except.ok.inj hmuxer
    refine StickyEffect.unchanged rfl ?_
    rw [Sticky.Waits] at hwaits ⊢
    refine hwaits.trans ?_
    by_cases hheld : sticky.internal &&& ~~~mask &&& sticky.mask = 0
    · have hmask : sticky.mask = 0 := by
        by_contra hmask
        exact hsome ⟨hmask, hheld⟩
      simp [Sticky.external, hmask]
    · have hheld' : sticky.external ≠ 0 := fun hzero => hheld (and_and_eq_zero hzero)
      rw [if_pos hheld']
      exact (if_pos hheld).symm

/-- `aug_getsticky` takes the events of the muxer, and stops the wait when one of them is held. -/
theorem getsticky_effect {sticky : Sticky} (hmd : sticky.md < setsize)
    (hwaits : sticky.Waits muxer) :
    StickyEffect sticky.md muxer (getsticky setsize sticky muxer).2.1
      (getsticky setsize sticky muxer).2.2 := by
  obtain ⟨muxer', hmuxer⟩ := Muxer.setmdeventmask_zero muxer hmd
  unfold getsticky
  split
  next => exact .unchanged rfl hwaits
  next hmask =>
    dsimp only
    split
    next hnone =>
      split
      next hheld =>
        rw [hmuxer]
        refine StickyEffect.updated rfl hmuxer ?_
        rw [if_pos hheld]
      next hfree =>
        refine StickyEffect.unchanged rfl ?_
        rw [Sticky.Waits, if_neg (not_not.mpr hnone)] at hwaits
        rw [Sticky.Waits, if_neg hfree]
        exact hwaits
    next => exact .unchanged rfl hwaits

namespace StickySystem

/-- Every descriptor with sticky events is waited for as it should be. -/
structure Sound (setsize : ℕ) (s : StickySystem) : Prop where
  covers : s.muxer.Covers
  md_eq : ∀ md sticky, s.stickies md = some sticky → sticky.md = md
  md_lt : ∀ md sticky, s.stickies md = some sticky → md < setsize
  waits : ∀ md sticky, s.stickies md = some sticky → sticky.Waits s.muxer

/-- What is found after an update: the new sticky events, or those of another descriptor. -/
theorem stickies_update {stickies : ℕ → Option Sticky} {md other : ℕ} {next sticky : Sticky}
    (h : Function.update stickies md (some next) other = some sticky) :
    other = md ∧ next = sticky ∨ other ≠ md ∧ stickies other = some sticky := by
  by_cases heq : other = md
  · rw [heq, Function.update_self, Option.some.injEq] at h
    exact Or.inl ⟨heq, h⟩
  · rw [Function.update_of_ne heq] at h
    exact Or.inr ⟨heq, h⟩

/-- The effect of a call keeps the system sound. -/
theorem Sound.effect {s : StickySystem} (hs : s.Sound setsize) {md : ℕ} {next : Sticky} {muxer' : Muxer}
    (heffect : StickyEffect md s.muxer next muxer') (hmd : md < setsize) :
    Sound setsize { muxer := muxer', stickies := Function.update s.stickies md (some next) } where
  covers := heffect.covers hs.covers
  md_eq other sticky hother := by
    rcases stickies_update hother with ⟨rfl, rfl⟩ | ⟨-, hold⟩
    · exact heffect.md_eq
    · exact hs.md_eq other sticky hold
  md_lt other sticky hother := by
    rcases stickies_update hother with ⟨rfl, -⟩ | ⟨-, hold⟩
    · exact hmd
    · exact hs.md_lt other sticky hold
  waits other sticky hother := by
    rcases stickies_update hother with ⟨-, rfl⟩ | ⟨hne, hold⟩
    · exact heffect.waits
    · have hwaits := hs.waits other sticky hold
      rw [Sticky.Waits, hs.md_eq other sticky hold] at hwaits ⊢
      rw [heffect.others other hne, hwaits]

/-- A result that is kept comes from a mask update that succeeded. -/
theorem keep_eq {s s' : StickySystem} {md : ℕ} {result : Sticky × Except MuxerError Muxer}
    (h : s.keep md result = some s') :
    ∃ next muxer', result = (next, .ok muxer') ∧
      s' = { muxer := muxer', stickies := Function.update s.stickies md (some next) } := by
  obtain ⟨next, error | muxer'⟩ := result
  · cases h
  · exact ⟨next, muxer', rfl, (Option.some.inj h).symm⟩

/-- Every step keeps the system sound. -/
theorem Sound.step {s s' : StickySystem} (hs : s.Sound setsize) {a : StickyAction}
    (h : s.step setsize a = some s') : s'.Sound setsize := by
  cases a with
  | initsticky md mask =>
    obtain ⟨next, muxer', hresult, rfl⟩ := keep_eq h
    have heffect := setsticky_effect hresult
    exact hs.effect heffect.1 heffect.2
  | setsticky md mask =>
    obtain ⟨sticky, hsticky, hkeep⟩ := Option.bind_eq_some_iff.mp h
    obtain ⟨next, muxer', hresult, rfl⟩ := keep_eq hkeep
    have heffect := setsticky_effect hresult
    rw [hs.md_eq md sticky hsticky] at heffect
    exact hs.effect heffect.1 heffect.2
  | clearsticky md mask =>
    obtain ⟨sticky, hsticky, hkeep⟩ := Option.bind_eq_some_iff.mp h
    obtain ⟨next, muxer', hresult, rfl⟩ := keep_eq hkeep
    have heffect := clearsticky_effect (hs.waits md sticky hsticky) hresult
    rw [hs.md_eq md sticky hsticky] at heffect
    exact hs.effect heffect (hs.md_lt md sticky hsticky)
  | getsticky md =>
    obtain ⟨sticky, hsticky, hkeep⟩ := Option.bind_eq_some_iff.mp h
    obtain rfl := Option.some.inj hkeep
    have hmd := hs.md_eq md sticky hsticky
    have hlt := hs.md_lt md sticky hsticky
    have heffect := getsticky_effect (hmd.trans_lt hlt) (hs.waits md sticky hsticky)
    rw [hmd] at heffect
    exact hs.effect heffect hlt
  | waitmdevents out =>
    obtain rfl := Option.some.inj h
    exact { covers := hs.covers, md_eq := hs.md_eq, md_lt := hs.md_lt, waits := hs.waits }

/-- A muxer without sticky events is sound. -/
theorem create_sound : create.Sound setsize where
  covers := Muxer.create_covers
  md_eq := nofun
  md_lt := nofun
  waits := nofun

/-- After every operation of a run the muxer waits for nothing on a descriptor of which a held event lies
in the mask, and for the mask on any other; so a mask has an event that is held, or a wait looks for it. -/
theorem held_or_waited {actions : List StickyAction} {s : StickySystem}
    (hrun : run (StickySystem.step setsize) create actions = some s) {md : ℕ} {sticky : Sticky}
    (hsticky : s.stickies md = some sticky) :
    s.muxer.getmdeventmask md = (if sticky.internal &&& sticky.mask ≠ 0 then 0 else sticky.mask) ∧
      (sticky.mask ≠ 0 → sticky.internal &&& sticky.mask ≠ 0 ∨
        s.muxer.getmdeventmask md = sticky.mask ∧ (md : ℤ) ≤ s.muxer.maxfd) := by
  have hsound : s.Sound setsize := run_invariant (fun _ _ _ hs h => Sound.step hs h) create_sound hrun
  have hwaits := hsound.waits md sticky hsticky
  rw [Sticky.Waits, hsound.md_eq md sticky hsticky] at hwaits
  apply And.intro hwaits
  intro hmask
  by_cases hheld : sticky.internal &&& sticky.mask = 0
  · right
    have hfull : s.muxer.getmdeventmask md = sticky.mask := hwaits.trans (if_neg (not_not.mpr hheld))
    exact ⟨hfull, hsound.covers md (Muxer.isset_of_getmdeventmask (hfull ▸ hmask))⟩
  · exact Or.inl hheld

/-- Events are held for a socket, hidden by its mask, cleared, and looked for in the muxer. -/
def clearedActions : List StickyAction :=
  [.initsticky 5 mdeventrdwr, .setsticky 5 mdeventrd, .clearsticky 5 mdeventrd,
    .waitmdevents FdSets.zero, .getsticky 5]

theorem held_or_waited_cleared :
    ∃ s sticky, run (StickySystem.step 1024) create clearedActions = some s ∧ s.stickies 5 = some sticky ∧
      s.muxer.getmdeventmask 5 = if sticky.internal &&& sticky.mask ≠ 0 then 0 else sticky.mask := by
  have hrun : run (StickySystem.step 1024) create clearedActions = some _ := rfl
  exact ⟨_, _, hrun, rfl, (held_or_waited hrun rfl).1⟩

end StickySystem

end Invariant

end Aug.Sys
