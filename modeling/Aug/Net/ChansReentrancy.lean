import Aug.Net.ChansTidy
import Mathlib.Tactic.Ring

/-!
# Channel sets under re-entrancy

The size of a set is the number of entries that hold a channel, and the set has one reference for each of
them and one for each call that waits. This holds in every state of a run if and only if an entry still
holds the channel that was processed when `aug_processchan` returns, and the block of an entry that is
removed without the lock is not freed while it is cleared.
-/

namespace Aug.Net

open Aug.Lib

namespace ChanFrame

/-- The channel that a waiting call has a reference on. -/
def ob : ChanFrame → ℕ
  | processing _ ob | clearing _ ob | releasing _ ob _ => ob

end ChanFrame

/-- The event is a clear notification for the entry. -/
def ChanEvent.clears (it : ℕ) : ChanEvent → Bool
  | clear it' _ => it' = it
  | _ => false

namespace Registry

variable {registry last : Registry} {events : List ChanEvent} {event : ChanEvent}

/-- The number of clear notifications that an entry has had. -/
def cleared (registry : Registry) (it : ℕ) : ℕ := if registry it = .removed then 1 else 0

theorem cleared_update {it block : ℕ} {status : Status} (h : registry it ≠ .removed) :
    cleared (Function.update registry it status) block =
      cleared registry block + if it = block then (if status = .removed then 1 else 0) else 0 := by
  by_cases heq : block = it
  · rw [heq, cleared, Function.update_self, cleared, if_neg h, if_pos rfl, Nat.zero_add]
  · rw [cleared, Function.update_of_ne heq, cleared, if_neg (Ne.symm heq), Nat.add_zero]

/-- A legal event clears an entry that has not been cleared. -/
theorem step_cleared (h : step registry event = some last) (block : ℕ) :
    last.cleared block = registry.cleared block + if event.clears block then 1 else 0 := by
  cases event with
  | insert it ob =>
    obtain ⟨hstatus, hlast⟩ := Option.ite_none_right_eq_some.mp h
    cases hlast
    rw [cleared_update (by rw [hstatus]; simp)]
    simp [ChanEvent.clears]
  | process it ob =>
    obtain ⟨-, hlast⟩ := Option.ite_none_right_eq_some.mp h
    cases hlast
    rfl
  | found it ob =>
    obtain ⟨-, hlast⟩ := Option.ite_none_right_eq_some.mp h
    cases hlast
    rfl
  | replace it ob ob' =>
    obtain ⟨hstatus, hlast⟩ := Option.ite_none_right_eq_some.mp h
    cases hlast
    rw [cleared_update (by rw [hstatus]; simp)]
    simp [ChanEvent.clears]
  | clear it ob =>
    obtain ⟨hstatus, hlast⟩ := Option.ite_none_right_eq_some.mp h
    cases hlast
    rw [cleared_update (by rw [hstatus]; simp)]
    simp [ChanEvent.clears]

theorem run_cleared (h : run step registry events = some last) (block : ℕ) :
    last.cleared block = registry.cleared block + events.countP (ChanEvent.clears block) := by
  induction events generalizing registry with
  | nil =>
    cases h
    rfl
  | cons event events ih =>
    obtain ⟨next, hnext, hrun⟩ := run_cons_some h
    rw [ih hrun, step_cleared hnext, List.countP_cons, Nat.add_assoc, Nat.add_comm (List.countP _ _)]

end Registry

namespace Chans

/-- One reference on a channel. -/
def one (ob c : ℕ) : ℤ := if c = ob then 1 else 0

/-- A set with calls that wait, while `depth` calls of `aug_processchans_BI` are running. The references
on a channel and the size differ from what they should be by `off` and `gap`. -/
structure Sound (chans : Chans) (registry : Registry) (frames : List ChanFrame) (depth : ℕ) (off : ℕ → ℤ) (gap : ℤ) :
    Prop where
  shape : chans.Shape registry
  small : chans.size < 2 ^ 32
  size : (chans.size : ℤ) = chans.live + gap
  refs : ∀ c, chans.refs c = chans.uses c + (frames.map ChanFrame.ob).count c + off c
  locks : chans.locks = (frames.filterMap ChanFrame.visits).length + depth
  present : ∀ it ∈ frames.filterMap ChanFrame.visits, it ∈ chans.blocks
  removed : ∀ it ob locked, .releasing it ob locked ∈ frames → registry it = .removed
  nested : ChanFrame.Nested frames

variable {chans chans' : Chans} {registry : Registry} {frames : List ChanFrame} {frame : ChanFrame}
  {depth it ob ob' : ℕ} {off off' : ℕ → ℤ} {gap : ℤ} {rest : List ChanEntry} {entry : ChanEntry}

theorem Sound.tidy (h : chans.Sound registry frames depth off gap) : chans.Tidy registry frames depth :=
  ⟨h.shape, h.locks, h.present, h.removed, h.nested⟩

theorem Tidy.sound (h : chans.Tidy registry frames depth) (hsmall : chans.size < 2 ^ 32)
    (hsize : (chans.size : ℤ) = chans.live + gap)
    (hrefs : ∀ c, chans.refs c = chans.uses c + (frames.map ChanFrame.ob).count c + off c) :
    chans.Sound registry frames depth off gap :=
  ⟨h.shape, hsmall, hsize, hrefs, h.locks, h.present, h.removed, h.nested⟩

theorem retain_refs (chans : Chans) (ob c : ℕ) : (chans.retain ob).refs c = chans.refs c + one ob c := by
  have hrefs : (chans.retain ob).refs = Function.update chans.refs ob (chans.refs ob + 1) := rfl
  rw [hrefs, one]
  by_cases hc : c = ob
  · rw [if_pos hc, hc, Function.update_self]
  · rw [if_neg hc, Function.update_of_ne hc, add_zero]

theorem release_refs (chans : Chans) (ob c : ℕ) : (chans.release ob).refs c = chans.refs c - one ob c := by
  have hrefs : (chans.release ob).refs = Function.update chans.refs ob (chans.refs ob - 1) := rfl
  rw [hrefs, one]
  by_cases hc : c = ob
  · rw [if_pos hc, hc, Function.update_self]
  · rw [if_neg hc, Function.update_of_ne hc, sub_zero]

theorem count_frame (frame : ChanFrame) (frames : List ChanFrame) (c : ℕ) :
    (((frame :: frames).map ChanFrame.ob).count c : ℤ) = (frames.map ChanFrame.ob).count c + one frame.ob c := by
  rw [List.map_cons, List.count_cons, one]
  by_cases hc : c = frame.ob
  · rw [if_pos hc, if_pos (by rw [hc]; exact beq_self_eq_true _), Nat.cast_add, Nat.cast_one]
  · rw [if_neg hc, if_neg (by rw [beq_iff_eq]; exact Ne.symm hc), Nat.add_zero, add_zero]

/-- Only the references have changed. -/
theorem Sound.adjust (h : chans.Sound registry frames depth off gap) (hshape : chans'.Shape registry)
    (hlist : chans'.list = chans.list) (hsize : chans'.size = chans.size) (hlocks : chans'.locks = chans.locks)
    (hrefs : ∀ c, chans'.refs c = chans.refs c - off c + off' c) : chans'.Sound registry frames depth off' gap where
  shape := hshape
  small := by rw [hsize]; exact h.small
  size := by rw [hsize, live, hlist]; exact h.size
  refs c := by
    rw [hrefs, h.refs, uses, uses, hlist]
    ring
  locks := by rw [hlocks]; exact h.locks
  present := by rw [blocks, hlist]; exact h.present
  removed := h.removed
  nested := h.nested

theorem Sound.retain (h : chans.Sound registry frames depth off gap) (ob : ℕ) :
    (chans.retain ob).Sound registry frames depth (fun c => off c + one ob c) gap := by
  have hshape : (chans.retain ob).Shape registry := h.shape.congr rfl rfl rfl
  apply h.adjust hshape rfl rfl rfl
  intro c
  rw [retain_refs]
  ring

theorem Sound.release (h : chans.Sound registry frames depth off gap) (ob : ℕ) :
    (chans.release ob).Sound registry frames depth (fun c => off c - one ob c) gap := by
  have hshape : (chans.release ob).Shape registry := h.shape.congr rfl rfl rfl
  apply h.adjust hshape rfl rfl rfl
  intro c
  rw [release_refs]
  ring

theorem Sound.congr (h : chans.Sound registry frames depth off gap) (hoff : ∀ c, off c = off' c) :
    chans.Sound registry frames depth off' gap := by
  apply h.adjust h.shape rfl rfl rfl
  intro c
  rw [← hoff]
  ring

/-- A call of `aug_processchans_BI` waits at an entry. -/
theorem Sound.enter (h : chans.Sound registry frames 1 (fun c => off c + one frame.ob c) gap)
    (hvisits : frame.visits = some it) (hit : it ∈ chans.blocks) : chans.Sound registry (frame :: frames) 0 off gap := by
  apply (h.tidy.enter hvisits hit).sound h.small h.size
  intro c
  rw [count_frame, h.refs]
  ring

/-- A call of `aug_processchans_BI` goes on. -/
theorem Sound.leave (h : chans.Sound registry (frame :: frames) 0 off gap) (hvisits : frame.visits = some it) :
    chans.Sound registry frames 1 (fun c => off c + one frame.ob c) gap ∧ it ∈ chans.blocks := by
  obtain ⟨hleave, hit⟩ := h.tidy.leave hvisits
  apply And.intro _ hit
  apply hleave.sound h.small h.size
  intro c
  have hrefs := h.refs c
  rw [count_frame] at hrefs
  rw [hrefs]
  ring

/-- The lock is given back. -/
theorem Sound.unlock (h : chans.Sound registry frames 1 off gap) : chans.unlock.Sound registry frames 0 off gap := by
  have hsame : chans.unlock.size = chans.size ∧ chans.unlock.refs = chans.refs ∧ chans.unlock.live = chans.live ∧
      ∀ c, chans.unlock.uses c = chans.uses c := by
    rw [Chans.unlock]
    by_cases hzero : chans.locks - 1 = 0
    · rw [if_pos hzero]
      exact ⟨rfl, rfl, trash_live _, trash_uses _⟩
    · rw [if_neg hzero]
      exact ⟨rfl, rfl, rfl, fun _ => rfl⟩
  obtain ⟨hsize, hrefs, hlive, huses⟩ := hsame
  apply h.tidy.unlock.sound
  · rw [hsize]
    exact h.small
  · rw [hsize, hlive]
    exact h.size
  · intro c
    rw [hrefs, huses]
    exact h.refs c

/-- The loop comes to the next channel, or it gives the lock back. -/
theorem Sound.visit (h : chans.Sound registry frames 1 off gap) (hrest : ∀ entry ∈ rest, entry ∈ chans.list) :
    (chans.visit rest).1.Sound registry ((chans.visit rest).2 ++ frames) 0 off gap := by
  induction rest with
  | nil => exact h.unlock
  | cons entry rest ih =>
    obtain ⟨it, o⟩ := entry
    cases o with
    | none => exact ih fun entry hentry => hrest entry (List.mem_cons_of_mem _ hentry)
    | some ob =>
      have hmem := hrest _ List.mem_cons_self
      have hretain := h.retain ob
      have hprocess : ((chans.retain ob).notice (.process it ob)).Sound registry frames 1
          (fun c => off c + one (ChanFrame.processing it ob).ob c) gap := by
        have hshape : ((chans.retain ob).notice (.process it ob)).Shape registry := hretain.shape.process hmem
        apply hretain.adjust hshape rfl rfl rfl
        intro c
        have hrefs : ((chans.retain ob).notice (.process it ob)).refs = (chans.retain ob).refs := rfl
        rw [hrefs]
        dsimp only [ChanFrame.ob]
        ring
      exact hprocess.enter rfl (mem_blocks hmem)

/-- The loop goes on behind an entry. -/
theorem Sound.next (h : chans.Sound registry frames 1 off gap) (hit : it ∈ chans.blocks) :
    ∃ outcome, chans.next it = some outcome ∧ outcome.1.Sound registry (outcome.2 ++ frames) 0 off gap := by
  obtain ⟨rest, -, hrest, hnext⟩ := h.tidy.next hit
  exact ⟨chans.visit rest, hnext, h.visit hrest⟩

/-- What an insertion does to the size. -/
def excess (chans : Chans) (memory : Bool) : ℤ := if memory = true ∧ chans.live + 1 = 2 ^ 32 then -2 ^ 32 else 0

/-- A channel is inserted. -/
theorem Sound.insert (h : chans.Sound registry frames depth off 0) (ob : ℕ) (memory : Bool) :
    ∃ registry', (chans.insertchan ob memory).Sound registry' frames depth off (chans.excess memory) ∧
      ∀ block ∈ chans.blocks, block ∈ (chans.insertchan ob memory).blocks := by
  cases memory with
  | false => exact ⟨registry, h, fun _ hblock => hblock⟩
  | true =>
    have hsize := h.size
    rw [add_zero, Nat.cast_inj] at hsize
    obtain ⟨registry', htidy⟩ := h.tidy.insert ob true
    have hlist : (chans.insertchan ob true).list = ⟨chans.fresh, some ob⟩ :: chans.list := rfl
    have hlive : (chans.insertchan ob true).live = chans.live + 1 := by
      rw [live, hlist, List.countP_cons_of_pos rfl, live]
    have huses : ∀ c, ((chans.insertchan ob true).uses c : ℤ) = chans.uses c + one ob c := by
      intro c
      rw [uses, hlist, List.countP_cons, one, uses]
      by_cases hc : c = ob
      · rw [if_pos (by rw [hc]; exact decide_eq_true rfl), if_pos hc, Nat.cast_add, Nat.cast_one]
      · rw [if_neg (by rw [decide_eq_true_eq, Option.some.injEq]; exact Ne.symm hc), if_neg hc, Nat.add_zero, add_zero]
    have hnew : (chans.insertchan ob true).size = u32 (chans.size + 1) := rfl
    apply Exists.intro registry'
    apply And.intro _ fun _ hblock => (Steady.insert chans ob true).blocks_mem hblock
    apply htidy.sound
    · rw [hnew]
      exact u32_lt _
    · rw [hnew, hlive, excess, hsize]
      have hsmall := h.small
      by_cases hfull : chans.live + 1 = 2 ^ 32
      · rw [if_pos ⟨rfl, hfull⟩]
        unfold u32
        omega
      · rw [if_neg (fun hboth => hfull hboth.2)]
        unfold u32
        omega
    · intro c
      have hrefs : (chans.insertchan ob true).refs c = (chans.retain ob).refs c := rfl
      rw [hrefs, retain_refs, huses, h.refs]
      ring

theorem uses_assign (h : chans.Shape registry) (hmem : ⟨it, some ob⟩ ∈ chans.list) (o : Option ℕ) (c : ℕ) :
    ((chans.assign it o).uses c : ℤ) = chans.uses c - one ob c + if o = some c then 1 else 0 := by
  have huses := h.assign_uses hmem o c
  have hone : one ob c = if some ob = some c then 1 else 0 := by
    rw [one]
    by_cases hc : c = ob
    · rw [if_pos hc, hc, if_pos rfl]
    · rw [if_neg hc, if_neg (fun heq => hc (Option.some.inj heq).symm)]
  have hcast := congrArg (Nat.cast (R := ℤ)) huses
  push_cast at hcast
  rw [hone]
  omega

/-- The channel of an entry is taken out of it. -/
theorem Sound.clear (h : chans.Sound registry frames depth off 0) (hmem : ⟨it, some ob⟩ ∈ chans.list) :
    (chans.clear it ob).Sound (Function.update registry it .removed) frames depth (fun c => off c + one ob c) 0 := by
  have hsmall := h.small
  have hsize := h.size
  rw [add_zero, Nat.cast_inj] at hsize
  have hlive : (chans.clear it ob).live + 1 = chans.live := h.shape.assign_live hmem none
  apply (h.tidy.clear hmem).sound (u32_lt _)
  · have hnew : (chans.clear it ob).size = u32 (chans.size - 1) := rfl
    rw [hnew]
    unfold u32
    omega
  · intro c
    have hrefs : (chans.clear it ob).refs = chans.refs := rfl
    have huses : ((chans.clear it ob).uses c : ℤ) = chans.uses c - one ob c + if none = some c then 1 else 0 :=
      uses_assign h.shape hmem none c
    rw [hrefs, huses, h.refs, if_neg (Option.some_ne_none c).symm]
    ring

/-- The channel of an entry is replaced. -/
theorem Sound.replace (h : chans.Sound registry frames depth off gap) (hmem : ⟨it, some ob⟩ ∈ chans.list) (ob' : ℕ) :
    ((chans.assign it (some ob')).notice (.replace it ob ob')).Sound (Function.update registry it (.holds ob')) frames
      depth (fun c => off c + one ob c - one ob' c) gap := by
  have hlive : ((chans.assign it (some ob')).notice (.replace it ob ob')).live = chans.live :=
    Nat.add_right_cancel (h.shape.assign_live hmem (some ob'))
  apply (h.tidy.replace hmem ob').sound h.small
  · rw [hlive]
    exact h.size
  · intro c
    have hrefs : ((chans.assign it (some ob')).notice (.replace it ob ob')).refs = chans.refs := rfl
    have huses : (((chans.assign it (some ob')).notice (.replace it ob ob')).uses c : ℤ) =
        chans.uses c - one ob c + if some ob' = some c then 1 else 0 := uses_assign h.shape hmem (some ob') c
    have hone : (if some ob' = some c then 1 else 0) = one ob' c := by
      rw [one]
      by_cases hc : c = ob'
      · rw [if_pos hc, hc, if_pos rfl]
      · rw [if_neg hc, if_neg (fun heq => hc (Option.some.inj heq).symm)]
    rw [hrefs, huses, h.refs, hone]
    ring

/-- The entry that was processed holds a channel when the callback returns. If it is another one than the
channel that was processed, the wrong reference is released. -/
theorem Sound.processed (h : chans.Sound registry (.processing it ob :: frames) 0 (fun _ => 0) 0)
    (hmem : ⟨it, some ob'⟩ ∈ chans.list) (result : Processed) : ∃ outcome registry',
    chans.processed it result = some outcome ∧
      outcome.1.Sound registry' (outcome.2 ++ frames) 0 (fun c => one ob c - one ob' c)
        (match result with | .forked _ memory => chans.excess memory | .returned _ => 0) := by
  obtain ⟨hleave, hit⟩ := h.leave rfl
  have hrelease := hleave.release ob'
  have hentry := h.shape.entry_eq hmem
  cases result with
  | forked c memory =>
    obtain ⟨registry', hinsert, hblocks⟩ := (hrelease.retain c).insert c memory
    have hdone : ((((chans.release ob').retain c).insertchan c memory).release c).Sound registry' frames 1
        (fun d => one ob d - one ob' d) (chans.excess memory) := by
      apply (hinsert.release c).congr
      intro d
      dsimp only [ChanFrame.ob]
      ring
    obtain ⟨outcome, hnext, houtcome⟩ := hdone.next (hblocks it hit)
    apply Exists.intro outcome
    apply Exists.intro registry'
    apply And.intro _ houtcome
    rw [Chans.processed, hentry, Option.bind_some, Option.bind_some]
    exact hnext
  | returned o =>
    cases o with
    | none =>
      have hclear := hrelease.clear hmem
      have hblocks : ((chans.release ob').clear it ob').blocks = chans.blocks :=
        assign_blocks (chans.release ob') it none
      have hdone : ((chans.release ob').clear it ob').Sound (Function.update registry it .removed)
          (.clearing it ob' :: frames) 0 (fun c => one ob c - one ob' c) 0 := by
        apply Sound.enter _ rfl (by rw [hblocks]; exact hit)
        apply hclear.congr
        intro c
        dsimp only [ChanFrame.ob]
        ring
      apply Exists.intro ((chans.release ob').clear it ob', [.clearing it ob'])
      apply Exists.intro (Function.update registry it .removed)
      apply And.intro _ hdone
      rw [Chans.processed, hentry, Option.bind_some, Option.bind_some]
    | some c =>
      have hreplace := ((hrelease.retain c).replace hmem c).release ob'
      have hblocks : ((((chans.release ob').retain c).assign it (some c)).notice (.replace it ob' c)).blocks =
          chans.blocks := assign_blocks ((chans.release ob').retain c) it (some c)
      have hdone : (((((chans.release ob').retain c).assign it (some c)).notice (.replace it ob' c)).release ob').Sound
          (Function.update registry it (.holds c)) frames 1 (fun c => one ob c - one ob' c) 0 := by
        apply hreplace.congr
        intro d
        dsimp only [ChanFrame.ob]
        ring
      obtain ⟨outcome, hnext, houtcome⟩ := hdone.next (hblocks.symm ▸ hit)
      apply Exists.intro outcome
      apply Exists.intro (Function.update registry it (.holds c))
      apply And.intro _ houtcome
      rw [Chans.processed, hentry, Option.bind_some, Option.bind_some]
      exact hnext

theorem Sound.cleared (h : chans.Sound registry (.clearing it ob :: frames) 0 (fun _ => 0) 0) : ∃ outcome,
    chans.cleared it ob = some outcome ∧ outcome.1.Sound registry (outcome.2 ++ frames) 0 (fun _ => 0) 0 := by
  obtain ⟨hleave, hit⟩ := h.leave rfl
  have hrelease : (chans.release ob).Sound registry frames 1 (fun _ => 0) 0 := by
    apply (hleave.release ob).congr
    intro c
    dsimp only [ChanFrame.ob]
    ring
  exact hrelease.next hit

/-- The callback of a removal returns. -/
theorem Sound.finish {locked : Bool} (h : chans.Sound registry (.releasing it ob locked :: frames) 0 (fun _ => 0) 0) :
    (chans.release ob).Sound registry frames 0 (fun _ => 0) 0 ∧ registry it = .removed ∧
      (locked = false → frames.filterMap ChanFrame.visits = []) := by
  obtain ⟨hrelease, hfinish⟩ := h.tidy.finish
  apply And.intro _ hfinish
  apply hrelease.sound h.small h.size
  intro c
  have hrefs := h.refs c
  have huses : (chans.release ob).uses c = chans.uses c := rfl
  rw [count_frame] at hrefs
  rw [release_refs, hrefs, huses]
  dsimp only [ChanFrame.ob]
  ring

/-- The entry that was removed without the lock is freed. -/
theorem Sound.erase (h : chans.Sound registry frames 0 off gap) (hmem : entry ∈ chans.list)
    (hremoved : registry entry.it = .removed) (hvisits : frames.filterMap ChanFrame.visits = []) :
    { chans with list := chans.list.erase entry }.Sound registry frames 0 off gap := by
  have hnull : entry.ob = none := by
    obtain ⟨it, o⟩ := entry
    cases o with
    | none => rfl
    | some ob =>
      rw [(h.shape.holds it ob).mp hmem] at hremoved
      cases hremoved
  have hperm := List.perm_cons_erase hmem
  apply (h.tidy.erase hremoved hvisits).sound h.small
  · have hlive : chans.live = live { chans with list := chans.list.erase entry } := by
      rw [live, hperm.countP_eq, List.countP_cons_of_neg (by rw [hnull]; exact Bool.false_ne_true), live]
    rw [← hlive]
    exact h.size
  · intro c
    have huses : chans.uses c = uses { chans with list := chans.list.erase entry } c := by
      rw [uses, hperm.countP_eq, List.countP_cons_of_neg (by rw [hnull]; simp), uses]
    rw [← huses]
    exact h.refs c

/-- The first entry is moved to the end of the list. -/
theorem Sound.rotate (h : chans.Sound registry frames depth off gap) {list : List ChanEntry}
    (hperm : list.Perm chans.list) : { chans with list }.Sound registry frames depth off gap := by
  apply (h.tidy.rotate hperm).sound h.small
  · have hlive : live { chans with list } = chans.live := hperm.countP_eq _
    rw [hlive]
    exact h.size
  · intro c
    have huses : uses { chans with list } c = chans.uses c := hperm.countP_eq _
    rw [huses]
    exact h.refs c

/-- A pass begins, unless the lock count is exceeded. -/
theorem Sound.processchans (h : chans.Sound registry frames 0 off gap) (hlocks : ¬2 ^ 31 ≤ chans.locks + 1) :
    ∃ outcome, chans.processchans = some outcome ∧ outcome.1.Sound registry (outcome.2 ++ frames) 0 off gap := by
  have hlocked : { chans with locks := chans.locks + 1 }.Sound registry frames 1 off gap := by
    refine ⟨h.shape.congr rfl rfl rfl, h.small, h.size, h.refs, ?_, h.present, h.removed, h.nested⟩
    dsimp only
    rw [h.locks]
  have hperm : chans.locked.list.Perm chans.list := by
    dsimp only [locked]
    split
    · exact rotated_perm chans.list
    · exact .refl chans.list
  obtain ⟨-, hprocess⟩ := h.tidy.processchans
  apply Exists.intro (chans.locked.visit chans.locked.list)
  apply And.intro
  · rw [hprocess, if_neg hlocks]
  · exact (hlocked.rotate hperm).visit fun _ hentry => hentry

/-- A channel is removed, up to the callback. -/
theorem Sound.removechan (h : chans.Sound registry frames 0 (fun _ => 0) 0) (chanid : ℕ → ℤ) (id : ℤ) :
    ∃ registry', (chans.removechan chanid id).1.Sound registry' ((chans.removechan chanid id).2 ++ frames) 0
      (fun _ => 0) 0 := by
  rw [Chans.removechan]
  cases hlocate : chans.locate chanid id with
  | none => exact ⟨registry, h⟩
  | some located =>
    obtain ⟨it, ob⟩ := located
    have hmem := locate_mem hlocate
    have hclear := h.clear hmem
    apply Exists.intro (Function.update registry it .removed)
    apply (h.tidy.remove hmem).sound hclear.small hclear.size
    intro c
    rw [count_frame, hclear.refs]
    dsimp only [ChanFrame.ob]
    ring

/-- The step is one that the set does not stand. -/
def Disturbs (chans : Chans) : List ChanFrame → ChanAction → Prop
  | _, .insert _ memory => memory = true ∧ chans.live + 1 = 2 ^ 32
  | _, .process => 2 ^ 31 ≤ chans.locks + 1
  | .processing it ob :: _, .processed (.forked _ memory) =>
    ⟨it, some ob⟩ ∉ chans.list ∨ memory = true ∧ chans.live + 1 = 2 ^ 32
  | .processing it ob :: _, .processed (.returned _) => ⟨it, some ob⟩ ∉ chans.list
  | .releasing it _ locked :: _, .cleared => locked = false ∧ it ∉ chans.blocks
  | _, _ => False

theorem Sound.findchan (h : chans.Sound registry frames depth off gap) (chanid : ℕ → ℤ) (id : ℤ) :
    (chans.findchan chanid id).Sound registry frames depth off gap := by
  rw [Chans.findchan]
  cases hlocate : chans.locate chanid id with
  | none => exact h
  | some located =>
    obtain ⟨it, ob⟩ := located
    have hshape : (chans.notice (.found it ob)).Shape registry := h.shape.found (locate_mem hlocate)
    apply h.adjust hshape rfl rfl rfl
    intro c
    have hrefs : (chans.notice (.found it ob)).refs = chans.refs := rfl
    rw [hrefs]
    ring

end Chans

namespace ChanState

variable {chanid : ℕ → ℤ} {state next last : ChanState} {action : ChanAction}

/-- What has happened to the entries is legal, and agrees with the list; each entry has had one clear
notification if it was removed, and none otherwise; the size is the number of entries that hold a channel;
and the references on a channel are those of the entries that hold it and of the calls that wait. -/
def Correct (state : ChanState) : Prop :=
  ∃ chans registry, state.chans = some chans ∧ run Registry.step .create chans.events = some registry ∧
    (∀ it ob, ⟨it, some ob⟩ ∈ chans.list ↔ registry it = .holds ob) ∧
    (∀ it, chans.events.countP (ChanEvent.clears it) = if registry it = .removed then 1 else 0) ∧
    chans.size = chans.live ∧
    ∀ ob, chans.refs ob = chans.uses ob + (state.frames.map ChanFrame.ob).count ob

/-- A step that the set does not stand: an insertion when `2 ^ 32 - 1` entries hold a channel, a pass when
the lock count is at its maximum, the return of `aug_processchan` when the entry does not hold the channel
that was processed, and the return of `aug_clearchan` to a removal without the lock when the entry has been
freed. -/
def Disturbs (state : ChanState) (action : ChanAction) : Prop :=
  ∃ chans ∈ state.chans, chans.Disturbs state.frames action

/-- The references and the size differ from what they should be by `off` and `gap`. -/
def Sound (state : ChanState) (off : ℕ → ℤ) (gap : ℤ) : Prop :=
  ∃ chans registry, state.chans = some chans ∧ chans.Sound registry state.frames 0 off gap

theorem Sound.correct (h : state.Sound (fun _ => 0) 0) : state.Correct := by
  obtain ⟨chans, registry, hchans, hsound⟩ := h
  have hsize := hsound.size
  rw [add_zero, Nat.cast_inj] at hsize
  refine ⟨chans, registry, hchans, hsound.shape.legal, hsound.shape.holds, ?_, hsize, ?_⟩
  · intro it
    have hcleared := Registry.run_cleared hsound.shape.legal it
    have hcreate : Registry.create.cleared it = 0 := rfl
    rw [hcreate, Nat.zero_add] at hcleared
    exact hcleared.symm
  · intro ob
    rw [hsound.refs, add_zero]

theorem Correct.sound {off : ℕ → ℤ} {gap : ℤ} (h : state.Correct) (hsound : state.Sound off gap) :
    gap = 0 ∧ ∀ c, off c = 0 := by
  obtain ⟨chans, registry, hchans, hsound⟩ := hsound
  obtain ⟨chans', registry', hchans', -, -, -, hsize, hrefs⟩ := h
  rw [hchans, Option.some.injEq] at hchans'
  rw [← hchans'] at hsize hrefs
  apply And.intro
  · have hgap := hsound.size
    rw [hsize] at hgap
    omega
  · intro c
    have hoff := hsound.refs c
    rw [hrefs] at hoff
    omega

/-- A step leads out of the correct states, or it leaves a sound state. -/
def Leads (next : ChanState) (disturbs : Prop) : Prop :=
  (disturbs ∧ next.chans = none) ∨ ∃ off gap, next.Sound off gap ∧ (disturbs ↔ ¬(gap = 0 ∧ ∀ c, off c = 0))

theorem leads_sound {disturbs : Prop} {chans : Chans} {registry : Registry} {frames : List ChanFrame}
    (h : chans.Sound registry frames 0 (fun _ => 0) 0) (hfalse : ¬disturbs) : Leads ⟨some chans, frames⟩ disturbs := by
  apply Or.inr
  refine ⟨fun _ => 0, 0, ⟨chans, registry, rfl, h⟩, ?_⟩
  exact iff_of_false hfalse (not_not.mpr ⟨rfl, fun _ => rfl⟩)

variable {chans : Chans} {registry : Registry} {frames : List ChanFrame} {it ob ob' : ℕ}

theorem excess_eq_zero (chans : Chans) (memory : Bool) :
    chans.excess memory = 0 ↔ ¬(memory = true ∧ chans.live + 1 = 2 ^ 32) := by
  rw [Chans.excess]
  by_cases hfull : memory = true ∧ chans.live + 1 = 2 ^ 32
  · rw [if_pos hfull]
    simp [hfull]
  · rw [if_neg hfull]
    simp only [hfull, not_false_eq_true]

theorem one_eq_one : (∀ c, Chans.one ob c - Chans.one ob' c = 0) ↔ ob = ob' := by
  apply Iff.intro
  · intro h
    by_contra hne
    have hob := h ob
    rw [Chans.one, Chans.one, if_pos rfl, if_neg hne] at hob
    omega
  · intro heq c
    rw [heq, sub_self]

theorem insert_leads (h : chans.Sound registry frames 0 (fun _ => 0) 0) (ob : ℕ) (memory : Bool) :
    Leads ⟨some (chans.insertchan ob memory), frames⟩ (chans.Disturbs frames (.insert ob memory)) := by
  obtain ⟨registry', hinsert, -⟩ := h.insert ob memory
  apply Or.inr
  refine ⟨fun _ => 0, chans.excess memory, ⟨_, registry', rfl, hinsert⟩, ?_⟩
  have hdisturbs : chans.Disturbs frames (.insert ob memory) ↔ memory = true ∧ chans.live + 1 = 2 ^ 32 := by
    cases frames with
    | nil => exact Iff.rfl
    | cons frame frames => cases frame <;> exact Iff.rfl
  rw [hdisturbs, excess_eq_zero]
  simp only [implies_true, and_true, not_not]

theorem process_leads (h : chans.Sound registry frames 0 (fun _ => 0) 0) :
    Leads (resume chans.processchans frames) (chans.Disturbs frames .process) := by
  have hdisturbs : chans.Disturbs frames .process ↔ 2 ^ 31 ≤ chans.locks + 1 := by
    cases frames with
    | nil => exact Iff.rfl
    | cons frame frames => cases frame <;> exact Iff.rfl
  rw [hdisturbs]
  by_cases hlocks : 2 ^ 31 ≤ chans.locks + 1
  · rw [Chans.processchans, if_pos hlocks]
    exact .inl ⟨hlocks, rfl⟩
  · obtain ⟨outcome, hprocess, hsound⟩ := h.processchans hlocks
    rw [hprocess]
    exact leads_sound hsound hlocks

theorem processed_leads (h : chans.Sound registry (.processing it ob :: frames) 0 (fun _ => 0) 0) (result : Processed) :
    Leads (resume (chans.processed it result) frames)
      (chans.Disturbs (.processing it ob :: frames) (.processed result)) := by
  by_cases hnull : ∃ ob', ⟨it, some ob'⟩ ∈ chans.list
  · obtain ⟨ob', hmem⟩ := hnull
    have hholds : ⟨it, some ob⟩ ∉ chans.list ↔ ob ≠ ob' := by
      rw [h.shape.holds, (h.shape.holds it ob').mp hmem, Status.holds.injEq, ne_comm]
    obtain ⟨outcome, registry', hprocessed, hsound⟩ := h.processed hmem result
    rw [hprocessed]
    apply Or.inr
    refine ⟨_, _, ⟨outcome.1, registry', rfl, hsound⟩, ?_⟩
    rw [one_eq_one]
    cases result with
    | forked c memory =>
      rw [excess_eq_zero, Chans.Disturbs, hholds, not_and_or, not_not, or_comm]
    | returned o =>
      rw [Chans.Disturbs, hholds]
      simp
  · rw [not_exists] at hnull
    rw [Chans.processed_null hnull]
    apply Or.inl
    apply And.intro _ rfl
    cases result with
    | forked c memory => exact .inl (hnull ob)
    | returned o => exact hnull ob

theorem released_leads {locked : Bool} (h : chans.Sound registry (.releasing it ob locked :: frames) 0 (fun _ => 0) 0) :
    Leads (resume (chans.released it ob locked) frames)
      (chans.Disturbs (.releasing it ob locked :: frames) .cleared) := by
  obtain ⟨hrelease, hremoved, hvisits⟩ := h.finish
  rw [Chans.released]
  cases locked with
  | true =>
    rw [if_pos rfl]
    exact leads_sound hrelease fun hdisturbs => Bool.false_ne_true hdisturbs.1.symm
  | false =>
    rw [if_neg Bool.false_ne_true]
    cases hentry : (chans.release ob).entry it with
    | none =>
      apply Or.inl
      apply And.intro _ rfl
      apply And.intro rfl
      intro hmem
      obtain ⟨entry, hmem, hit⟩ := List.mem_map.mp hmem
      have hfound := hrelease.shape.entry_eq hmem
      rw [hit, hentry] at hfound
      cases hfound
    | some entry =>
      have hmem : entry ∈ chans.list := List.mem_of_find?_eq_some hentry
      have hit := List.find?_some hentry
      rw [decide_eq_true_eq] at hit
      rw [← hit] at hremoved
      apply leads_sound (hrelease.erase hmem hremoved (hvisits rfl))
      intro hdisturbs
      rw [← hit] at hdisturbs
      exact hdisturbs.2 (Chans.mem_blocks hmem)

theorem step_leads (h : state.Sound (fun _ => 0) 0) (hstep : step chanid state action = some next) :
    Leads next (state.Disturbs action) := by
  obtain ⟨chans, registry, hchans, hsound⟩ := h
  obtain ⟨chans', frames⟩ := state
  dsimp only at hchans hsound
  rw [hchans] at hstep ⊢
  have hdisturbs : Disturbs ⟨some chans, frames⟩ action ↔ chans.Disturbs frames action := by
    rw [Disturbs]
    simp
  rw [hdisturbs]
  rw [step, Option.bind_some] at hstep
  cases action with
  | insert ob memory =>
    cases hstep
    exact insert_leads hsound ob memory
  | remove id =>
    cases hstep
    obtain ⟨registry', hremove⟩ := hsound.removechan chanid id
    apply leads_sound hremove
    cases frames with
    | nil => exact not_false
    | cons frame frames => cases frame <;> exact not_false
  | find id =>
    cases hstep
    apply leads_sound (hsound.findchan chanid id)
    cases frames with
    | nil => exact not_false
    | cons frame frames => cases frame <;> exact not_false
  | process =>
    cases hstep
    exact process_leads hsound
  | processed result =>
    cases frames with
    | nil => cases hstep
    | cons frame frames =>
      cases frame with
      | processing it ob =>
        cases hstep
        exact processed_leads hsound result
      | clearing it ob => cases hstep
      | releasing it ob locked => cases hstep
  | cleared =>
    cases frames with
    | nil => cases hstep
    | cons frame frames =>
      cases frame with
      | processing it ob => cases hstep
      | clearing it ob =>
        cases hstep
        obtain ⟨outcome, hcleared, houtcome⟩ := hsound.cleared
        rw [hcleared]
        exact leads_sound houtcome not_false
      | releasing it ob locked =>
        cases hstep
        exact released_leads hsound

theorem create_sound : create.Sound (fun _ => 0) 0 := by
  obtain ⟨registry, htidy⟩ := create_tidy .create rfl
  exact ⟨Chans.create, registry, rfl, htidy.sound (Nat.two_pow_pos 32) rfl fun _ => rfl⟩

/-- In a run of calls and callbacks the set is always correct if and only if no step disturbs it. -/
theorem correct_iff (chanid : ℕ → ℤ) (actions : List ChanAction) {last : ChanState}
    (h : run (step chanid) create actions = some last) :
    Always (step chanid) Correct create actions ↔ Avoids (step chanid) Disturbs create actions := by
  have himp : ∀ state : ChanState, state.Sound (fun _ => 0) 0 → state.Correct := fun _ hsound => hsound.correct
  apply always_iff_avoids_of himp _ _ create_sound h
  · intro state action next hsound hstep hgood
    cases step_leads hsound hstep with
    | inl hbad => exact absurd hbad.1 hgood
    | inr hleads =>
      obtain ⟨off, gap, ⟨chans, registry, hchans, hnext⟩, hiff⟩ := hleads
      obtain ⟨hgap, hoff⟩ := not_not.mp (fun hne => hgood (hiff.mpr hne))
      rw [hgap] at hnext
      exact ⟨chans, registry, hchans, hnext.congr hoff⟩
  · intro state action next hsound hstep hbad hcorrect
    cases step_leads hsound hstep with
    | inl hnone =>
      obtain ⟨chans, -, hchans, -⟩ := hcorrect
      rw [hnone.2] at hchans
      cases hchans
    | inr hleads =>
      obtain ⟨off, gap, hnext, hiff⟩ := hleads
      exact hiff.mp hbad (hcorrect.sound hnext)

/-- Three channels and two passes: a channel is removed while another one is processed, and one forks a
channel; then one returns null, and one is replaced. -/
def passes : List ChanAction :=
  [.insert 1 true, .insert 2 true, .insert 3 true, .process, .remove 3, .cleared, .processed (.returned (some 2)),
    .processed (.forked 4 true), .find 4, .process, .processed (.returned none), .cleared,
    .processed (.returned (some 5)), .processed (.returned (some 4))]

theorem correct_iff_passes : ∃ last, run (step Nat.cast) create passes = some last ∧
    (Always (step Nat.cast) Correct create passes ↔ Avoids (step Nat.cast) Disturbs create passes) := by
  have hsome : (run (step Nat.cast) create passes).isSome := by decide +kernel
  obtain ⟨last, hrun⟩ := Option.isSome_iff_exists.mp hsome
  exact ⟨last, hrun, correct_iff Nat.cast passes hrun⟩

/-- A channel that is removed while it is processed: a null pointer is released. -/
theorem removal_dereferences : ¬∀ (chanid : ℕ → ℤ) (actions : List ChanAction) (last : ChanState),
    run (step chanid) create actions = some last → last.Correct := by
  intro h
  have hlost : (run (step Nat.cast) create
      [.insert 1 true, .process, .remove 1, .cleared, .processed (.returned none)]).map
        (fun last => last.chans.isNone) = some true := by decide +kernel
  obtain ⟨last, hrun, hnone⟩ := Option.map_eq_some_iff.mp hlost
  obtain ⟨chans, registry, hchans, -⟩ := h _ _ last hrun
  rw [hchans] at hnone
  cases hnone

end ChanState

end Aug.Net
