import Aug.Net.ChansShape

/-!
# The list of a channel set and the calls that wait

The calls of `aug_processchans_BI` that wait are counted by the lock, the entries that they have come to stay
in the list until the last of them has ended, and an entry that is being removed holds no channel. This
holds in every state of a run in which no null or freed entry has been used, whatever has become of the size
and of the references. A step puts entries in front of the list and changes the channels of some, and then a
pass may go on to the next channel.
-/

namespace Aug.Net

open Aug.Lib

namespace ChanFrame

/-- The entry that a waiting call of `aug_processchans_BI` has come to. -/
def visits : ChanFrame → Option ℕ
  | processing it _ | clearing it _ => some it
  | releasing _ _ _ => none

/-- No call of `aug_processchans_BI` waits below a removal without the lock. -/
def Nested : List ChanFrame → Prop
  | [] => True
  | releasing _ _ false :: frames => frames.filterMap visits = [] ∧ Nested frames
  | _ :: frames => Nested frames

end ChanFrame

namespace Chans

/-- The list of a set agrees with the events and with the calls that wait, while `depth` more calls of
`aug_processchans_BI` are running. -/
structure Tidy (chans : Chans) (registry : Registry) (frames : List ChanFrame) (depth : ℕ) : Prop where
  shape : chans.Shape registry
  locks : chans.locks = (frames.filterMap ChanFrame.visits).length + depth
  present : ∀ it ∈ frames.filterMap ChanFrame.visits, it ∈ chans.blocks
  removed : ∀ it ob locked, .releasing it ob locked ∈ frames → registry it = .removed
  nested : ChanFrame.Nested frames

/-- A part of a step has put entries in front of the list, and it has added these events. -/
structure Steady (chans : Chans) (news : List ChanEvent) (chans' : Chans) : Prop where
  blocks : ∃ new, chans'.blocks = new ++ chans.blocks
  locks : chans'.locks = chans.locks
  events : chans'.events = chans.events ++ news

variable {chans chans' chans'' : Chans} {registry registry' : Registry} {frames : List ChanFrame} {frame : ChanFrame}
  {depth it ob ob' : ℕ} {rest : List ChanEntry} {entry : ChanEntry} {news more : List ChanEvent}

theorem Steady.trans (h : Steady chans news chans') (h' : Steady chans' more chans'') :
    Steady chans (news ++ more) chans'' where
  blocks := by
    obtain ⟨new, hnew⟩ := h.blocks
    obtain ⟨newer, hnewer⟩ := h'.blocks
    apply Exists.intro (newer ++ new)
    rw [hnewer, hnew, List.append_assoc]
  locks := h'.locks.trans h.locks
  events := by rw [h'.events, h.events, List.append_assoc]

theorem Steady.blocks_mem (h : Steady chans news chans') (hit : it ∈ chans.blocks) : it ∈ chans'.blocks := by
  obtain ⟨new, hnew⟩ := h.blocks
  rw [hnew]
  exact List.mem_append_right _ hit

/-- The blocks are the same. -/
theorem Steady.of_blocks (hblocks : chans'.blocks = chans.blocks) (hlocks : chans'.locks = chans.locks)
    (hevents : chans'.events = chans.events ++ news) : Steady chans news chans' :=
  ⟨⟨[], hblocks⟩, hlocks, hevents⟩

theorem Steady.refl (chans : Chans) : Steady chans [] chans := .of_blocks rfl rfl (List.append_nil _).symm

theorem Steady.retain (chans : Chans) (ob : ℕ) : Steady chans [] (chans.retain ob) :=
  .of_blocks rfl rfl (List.append_nil _).symm

theorem Steady.release (chans : Chans) (ob : ℕ) : Steady chans [] (chans.release ob) :=
  .of_blocks rfl rfl (List.append_nil _).symm

/-- The events of an insertion. -/
def insertion (chans : Chans) (ob : ℕ) (memory : Bool) : List ChanEvent :=
  if memory then [.insert chans.fresh ob] else []

theorem Steady.insert (chans : Chans) (ob : ℕ) (memory : Bool) :
    Steady chans (chans.insertion ob memory) (chans.insertchan ob memory) := by
  cases memory with
  | false => exact .refl chans
  | true => exact ⟨⟨[chans.fresh], rfl⟩, rfl, rfl⟩

theorem Steady.clear (chans : Chans) (it ob : ℕ) : Steady chans [.clear it ob] (chans.clear it ob) :=
  .of_blocks (assign_blocks chans it none) rfl rfl

theorem Steady.replace (chans : Chans) (it ob ob' : ℕ) :
    Steady chans [.replace it ob ob'] ((chans.assign it (some ob')).notice (.replace it ob ob')) :=
  .of_blocks (assign_blocks chans it (some ob')) rfl rfl

/-- The registry has changed, but removed entries are removed still, and no entry has been freed. -/
theorem Tidy.steady (h : chans.Tidy registry frames depth) (hshape : chans'.Shape registry')
    (hsteady : Steady chans news chans') (hremoved : ∀ it, registry it = .removed → registry' it = .removed) :
    chans'.Tidy registry' frames depth where
  shape := hshape
  locks := hsteady.locks.trans h.locks
  present it hit := hsteady.blocks_mem (h.present it hit)
  removed it ob locked hframe := hremoved it (h.removed it ob locked hframe)
  nested := h.nested

theorem Tidy.retain (h : chans.Tidy registry frames depth) (ob : ℕ) : (chans.retain ob).Tidy registry frames depth :=
  h.steady (h.shape.congr rfl rfl rfl) (.retain chans ob) fun _ hremoved => hremoved

theorem Tidy.release (h : chans.Tidy registry frames depth) (ob : ℕ) : (chans.release ob).Tidy registry frames depth :=
  h.steady (h.shape.congr rfl rfl rfl) (.release chans ob) fun _ hremoved => hremoved

/-- A call of `aug_processchans_BI` waits at an entry. -/
theorem Tidy.enter (h : chans.Tidy registry frames 1) (hvisits : frame.visits = some it) (hit : it ∈ chans.blocks) :
    chans.Tidy registry (frame :: frames) 0 where
  shape := h.shape
  locks := by
    rw [List.filterMap_cons_some hvisits, List.length_cons, h.locks]
  present := by
    rw [List.filterMap_cons_some hvisits, List.forall_mem_cons]
    exact ⟨hit, h.present⟩
  removed block c locked hmem := by
    cases List.mem_cons.mp hmem with
    | inl heq =>
      rw [← heq] at hvisits
      cases hvisits
    | inr hframes => exact h.removed block c locked hframes
  nested := by
    cases frame with
    | processing it ob => exact h.nested
    | clearing it ob => exact h.nested
    | releasing it ob locked => cases hvisits

/-- A call of `aug_processchans_BI` goes on. -/
theorem Tidy.leave (h : chans.Tidy registry (frame :: frames) 0) (hvisits : frame.visits = some it) :
    chans.Tidy registry frames 1 ∧ it ∈ chans.blocks := by
  have hlocks := h.locks
  have hpresent := h.present
  rw [List.filterMap_cons_some hvisits, List.length_cons] at hlocks
  rw [List.filterMap_cons_some hvisits, List.forall_mem_cons] at hpresent
  apply And.intro _ hpresent.1
  refine ⟨h.shape, hlocks, hpresent.2, ?_, ?_⟩
  · intro block c locked hmem
    exact h.removed block c locked (List.mem_cons_of_mem _ hmem)
  · have hnested := h.nested
    cases frame with
    | processing it ob => exact hnested
    | clearing it ob => exact hnested
    | releasing it ob locked => cases hvisits

/-- The lock is given back. -/
theorem Tidy.unlock (h : chans.Tidy registry frames 1) : chans.unlock.Tidy registry frames 0 := by
  have hlocks := h.locks
  have hshape : Shape { chans with locks := chans.locks - 1 } registry := h.shape.congr rfl rfl rfl
  rw [Chans.unlock]
  by_cases hzero : chans.locks - 1 = 0
  · rw [if_pos hzero]
    have hvisits : frames.filterMap ChanFrame.visits = [] := List.length_eq_zero_iff.mp (by omega)
    have hlocks' : (trash { chans with locks := chans.locks - 1 }).locks = chans.locks - 1 := rfl
    refine ⟨hshape.trash, ?_, ?_, h.removed, h.nested⟩
    · rw [hlocks']
      omega
    · rw [hvisits]
      exact List.forall_mem_nil _
  · rw [if_neg hzero]
    refine ⟨hshape, ?_, h.present, h.removed, h.nested⟩
    dsimp only
    omega

/-- The loop comes to the next channel, or it gives the lock back. -/
theorem Tidy.visit (h : chans.Tidy registry frames 1) (hrest : ∀ entry ∈ rest, entry ∈ chans.list) :
    (chans.visit rest).1.Tidy registry ((chans.visit rest).2 ++ frames) 0 := by
  induction rest with
  | nil => exact h.unlock
  | cons entry rest ih =>
    obtain ⟨it, o⟩ := entry
    cases o with
    | none => exact ih fun entry hentry => hrest entry (List.mem_cons_of_mem _ hentry)
    | some ob =>
      have hmem := hrest _ List.mem_cons_self
      have hshape : ((chans.retain ob).notice (.process it ob)).Shape registry := (h.retain ob).shape.process hmem
      have hsteady : Steady chans [.process it ob] ((chans.retain ob).notice (.process it ob)) := .of_blocks rfl rfl rfl
      have hprocess := h.steady hshape hsteady fun _ hremoved => hremoved
      exact hprocess.enter rfl (mem_blocks hmem)

/-- A channel is inserted. -/
theorem Tidy.insert (h : chans.Tidy registry frames depth) (ob : ℕ) (memory : Bool) :
    ∃ registry', (chans.insertchan ob memory).Tidy registry' frames depth := by
  cases memory with
  | false => exact ⟨registry, h⟩
  | true =>
    apply Exists.intro (Function.update registry chans.fresh (.holds ob))
    apply h.steady (h.shape.insert ob) (.insert chans ob true)
    intro block hremoved
    rw [Function.update_of_ne _, hremoved]
    intro heq
    rw [heq, h.shape.unused _ le_rfl] at hremoved
    cases hremoved

/-- A status that is not that of a removed entry is updated. -/
theorem removed_update (hholds : registry it = .holds ob) (status : Status) (block : ℕ)
    (hremoved : registry block = .removed) : Function.update registry it status block = .removed := by
  rw [Function.update_of_ne _, hremoved]
  intro heq
  rw [heq, hholds] at hremoved
  cases hremoved

/-- The channel of an entry is taken out of it. -/
theorem Tidy.clear (h : chans.Tidy registry frames depth) (hmem : ⟨it, some ob⟩ ∈ chans.list) :
    (chans.clear it ob).Tidy (Function.update registry it .removed) frames depth :=
  h.steady (h.shape.clear hmem) (.clear chans it ob) (removed_update ((h.shape.holds it ob).mp hmem) .removed)

/-- The channel of an entry is replaced. -/
theorem Tidy.replace (h : chans.Tidy registry frames depth) (hmem : ⟨it, some ob⟩ ∈ chans.list) (ob' : ℕ) :
    ((chans.assign it (some ob')).notice (.replace it ob ob')).Tidy (Function.update registry it (.holds ob')) frames
      depth :=
  h.steady (h.shape.replace hmem ob') (.replace chans it ob ob')
    (removed_update ((h.shape.holds it ob).mp hmem) (.holds ob'))

/-- A pass goes on behind an entry. -/
def GoesOn (outcome : Option (Chans × List ChanFrame)) (chans : Chans) (it : ℕ) : Prop :=
  ∃ rest, chans.behind it = some rest ∧ (∀ entry ∈ rest, entry ∈ chans.list) ∧ outcome = some (chans.visit rest)

theorem Tidy.next (h : chans.Tidy registry frames 1) (hit : it ∈ chans.blocks) : GoesOn (chans.next it) chans it := by
  obtain ⟨rest, hbehind, hrest⟩ := h.shape.behind_eq hit
  refine ⟨rest, hbehind, hrest, ?_⟩
  rw [Chans.next, hbehind, Option.map_some]

/-- The entry of a processed channel holds a channel, and it returns another channel, itself, or a fork. -/
theorem Tidy.forked (h : chans.Tidy registry (.processing it ob :: frames) 0) (hmem : ⟨it, some ob'⟩ ∈ chans.list)
    (c : ℕ) (memory : Bool) : ∃ chans' registry', Steady chans (chans.insertion c memory) chans' ∧
      chans'.Tidy registry' frames 1 ∧ GoesOn (chans.processed it (.forked c memory)) chans' it := by
  obtain ⟨hleave, hit⟩ := h.leave rfl
  obtain ⟨registry', hinsert⟩ := ((hleave.release ob').retain c).insert c memory
  have hsteady : Steady chans ([] ++ [] ++ chans.insertion c memory ++ [])
      ((((chans.release ob').retain c).insertchan c memory).release c) :=
    (((Steady.release chans ob').trans (.retain _ c)).trans (.insert _ c memory)).trans (.release _ c)
  rw [List.nil_append, List.nil_append, List.append_nil] at hsteady
  have hnext := (hinsert.release c).next (hsteady.blocks_mem hit)
  refine ⟨_, registry', hsteady, hinsert.release c, ?_⟩
  rw [Chans.processed, h.shape.entry_eq hmem, Option.bind_some, Option.bind_some]
  exact hnext

theorem Tidy.returned (h : chans.Tidy registry (.processing it ob :: frames) 0) (hmem : ⟨it, some ob'⟩ ∈ chans.list)
    (c : ℕ) : ∃ chans' registry', Steady chans [.replace it ob' c] chans' ∧ chans'.Tidy registry' frames 1 ∧
      GoesOn (chans.processed it (.returned (some c))) chans' it := by
  obtain ⟨hleave, hit⟩ := h.leave rfl
  have hreplace := ((hleave.release ob').retain c).replace hmem c
  have hsteady : Steady chans ([] ++ [] ++ [.replace it ob' c] ++ [])
      (((((chans.release ob').retain c).assign it (some c)).notice (.replace it ob' c)).release ob') :=
    (((Steady.release chans ob').trans (.retain _ c)).trans (.replace _ it ob' c)).trans (.release _ ob')
  rw [List.nil_append, List.nil_append, List.append_nil] at hsteady
  have hnext := (hreplace.release ob').next (hsteady.blocks_mem hit)
  refine ⟨_, _, hsteady, hreplace.release ob', ?_⟩
  rw [Chans.processed, h.shape.entry_eq hmem, Option.bind_some, Option.bind_some]
  exact hnext

theorem Tidy.dropped (h : chans.Tidy registry (.processing it ob :: frames) 0) (hmem : ⟨it, some ob'⟩ ∈ chans.list) :
    ∃ chans' registry', Steady chans [.clear it ob'] chans' ∧ chans'.Tidy registry' (.clearing it ob' :: frames) 0 ∧
      chans.processed it (.returned none) = some (chans', [.clearing it ob']) := by
  obtain ⟨hleave, hit⟩ := h.leave rfl
  have hsteady : Steady chans ([] ++ [.clear it ob']) ((chans.release ob').clear it ob') :=
    (Steady.release chans ob').trans (.clear _ it ob')
  rw [List.nil_append] at hsteady
  refine ⟨_, _, hsteady, ((hleave.release ob').clear hmem).enter rfl (hsteady.blocks_mem hit), ?_⟩
  rw [Chans.processed, h.shape.entry_eq hmem, Option.bind_some, Option.bind_some]

theorem Tidy.cleared (h : chans.Tidy registry (.clearing it ob :: frames) 0) :
    (chans.release ob).Tidy registry frames 1 ∧ GoesOn (chans.cleared it ob) (chans.release ob) it := by
  obtain ⟨hleave, hit⟩ := h.leave rfl
  exact ⟨hleave.release ob, (hleave.release ob).next hit⟩

/-- An entry that has been trashed is null. -/
theorem processed_null (hnull : ∀ ob, ⟨it, some ob⟩ ∉ chans.list) (result : Processed) : chans.processed it result = none := by
  rw [Chans.processed]
  cases hentry : chans.entry it with
  | none => rfl
  | some entry =>
    obtain ⟨block, o⟩ := entry
    cases o with
    | none => rfl
    | some ob =>
      have hmem := List.mem_of_find?_eq_some hentry
      have hblock := List.find?_some hentry
      rw [decide_eq_true_eq] at hblock
      rw [← hblock] at hnull
      exact absurd hmem (hnull ob)

/-- The callback of a removal returns. -/
theorem Tidy.finish {locked : Bool} (h : chans.Tidy registry (.releasing it ob locked :: frames) 0) :
    (chans.release ob).Tidy registry frames 0 ∧ registry it = .removed ∧
      (locked = false → frames.filterMap ChanFrame.visits = []) := by
  have hvisits : (.releasing it ob locked :: frames).filterMap ChanFrame.visits = frames.filterMap ChanFrame.visits :=
    List.filterMap_cons_none rfl
  have hlocks := h.locks
  have hpresent := h.present
  have hnested := h.nested
  rw [hvisits] at hlocks hpresent
  apply And.intro
  · refine ⟨h.shape.congr rfl rfl rfl, hlocks, hpresent, ?_, ?_⟩
    · intro block c locked' hframe
      exact h.removed block c locked' (List.mem_cons_of_mem _ hframe)
    · cases locked with
      | false => exact hnested.2
      | true => exact hnested
  · apply And.intro (h.removed it ob locked List.mem_cons_self)
    intro hlocked
    rw [hlocked] at hnested
    exact hnested.1

/-- The entry that was removed without the lock is freed. -/
theorem Tidy.erase (h : chans.Tidy registry frames 0) (hremoved : registry entry.it = .removed)
    (hvisits : frames.filterMap ChanFrame.visits = []) :
    { chans with list := chans.list.erase entry }.Tidy registry frames 0 := by
  refine ⟨?_, h.locks, ?_, h.removed, h.nested⟩
  · apply h.shape.relist
    · exact h.shape.nodup.sublist (List.erase_sublist.map _)
    · intro other hother
      exact List.mem_of_mem_erase hother
    · intro other hother hob
      apply (List.mem_erase_of_ne _).mpr hother
      intro heq
      obtain ⟨ob, hsome⟩ := Option.ne_none_iff_exists'.mp hob
      have hholds : ⟨other.it, some ob⟩ ∈ chans.list := hsome ▸ hother
      rw [h.shape.holds, heq, hremoved] at hholds
      cases hholds
  · rw [hvisits]
    exact List.forall_mem_nil _

/-- The first entry is moved to the end of the list. -/
theorem Tidy.rotate (h : chans.Tidy registry frames depth) {list : List ChanEntry} (hperm : list.Perm chans.list) :
    { chans with list }.Tidy registry frames depth := by
  refine ⟨?_, h.locks, ?_, h.removed, h.nested⟩
  · apply h.shape.relist
    · exact (hperm.map ChanEntry.it).nodup_iff.mpr h.shape.nodup
    · intro entry hentry
      exact hperm.mem_iff.mp hentry
    · intro entry hentry _
      exact hperm.mem_iff.mpr hentry
  · intro it hit
    exact (hperm.map ChanEntry.it).mem_iff.mpr (h.present it hit)

/-- The set with the lock taken, and its list rotated if no other call has the lock. -/
def locked (chans : Chans) : Chans :=
  { chans with
    locks := chans.locks + 1
    list := if chans.locks + 1 = 1 then chans.list.tail ++ chans.list.head?.toList else chans.list }

theorem rotated_perm (list : List ChanEntry) : (list.tail ++ list.head?.toList).Perm list := by
  cases list with
  | nil => exact .refl []
  | cons entry rest => exact List.perm_append_singleton entry rest

/-- A pass begins, unless the lock count is exceeded. -/
theorem Tidy.processchans (h : chans.Tidy registry frames 0) :
    chans.locked.Tidy registry frames 1 ∧
      chans.processchans = if 2 ^ 31 ≤ chans.locks + 1 then none else some (chans.locked.visit chans.locked.list) := by
  have hlocks : { chans with locks := chans.locks + 1 }.Tidy registry frames 1 := by
    refine ⟨h.shape.congr rfl rfl rfl, ?_, h.present, h.removed, h.nested⟩
    dsimp only
    rw [h.locks]
  apply And.intro _ rfl
  apply hlocks.rotate
  split
  · exact rotated_perm chans.list
  · exact .refl chans.list

/-- An identifier is only found in an entry that holds a channel. -/
theorem locate_mem {chanid : ℕ → ℤ} {id : ℤ} (h : chans.locate chanid id = some (it, ob)) :
    ⟨it, some ob⟩ ∈ chans.list := by
  obtain ⟨entry, hentry, hsome⟩ := List.exists_of_findSome?_eq_some h
  obtain ⟨c, hc, hid⟩ := Option.bind_eq_some_iff.mp hsome
  obtain ⟨-, heq⟩ := Option.ite_none_right_eq_some.mp hid
  cases heq
  obtain ⟨block, o⟩ := entry
  rw [← hc]
  exact hentry

/-- The channel of an entry is taken out of it, and the removal waits for its callback. -/
theorem Tidy.remove (h : chans.Tidy registry frames 0) (hmem : ⟨it, some ob⟩ ∈ chans.list) :
    (chans.clear it ob).Tidy (Function.update registry it .removed)
      (.releasing it ob (decide (0 < chans.locks)) :: frames) 0 := by
  have hclear := h.clear hmem
  have hvisits : (.releasing it ob (decide (0 < chans.locks)) :: frames).filterMap ChanFrame.visits =
      frames.filterMap ChanFrame.visits := List.filterMap_cons_none rfl
  refine ⟨hclear.shape, ?_, ?_, ?_, ?_⟩
  · rw [hvisits]
    exact hclear.locks
  · rw [hvisits]
    exact hclear.present
  · intro block c locked hframe
    cases List.mem_cons.mp hframe with
    | inl heq =>
      cases heq
      exact Function.update_self _ _ _
    | inr hmem => exact hclear.removed block c locked hmem
  · by_cases hlocks : 0 < chans.locks
    · rw [decide_eq_true hlocks]
      exact h.nested
    · rw [decide_eq_false hlocks]
      have hlength := h.locks
      exact ⟨List.length_eq_zero_iff.mp (by omega), h.nested⟩

theorem Tidy.findchan (h : chans.Tidy registry frames depth) (chanid : ℕ → ℤ) (id : ℤ) :
    (chans.findchan chanid id).Tidy registry frames depth := by
  rw [Chans.findchan]
  cases hlocate : chans.locate chanid id with
  | none => exact h
  | some located =>
    obtain ⟨it, ob⟩ := located
    have hshape : (chans.notice (.found it ob)).Shape registry := h.shape.found (locate_mem hlocate)
    have hsteady : Steady chans [.found it ob] (chans.notice (.found it ob)) := .of_blocks rfl rfl rfl
    exact h.steady hshape hsteady fun _ hremoved => hremoved

end Chans

namespace ChanState

variable {chanid : ℕ → ℤ} {state next last : ChanState} {action : ChanAction} {actions : List ChanAction}
  {chans : Chans} {registry : Registry} {frames : List ChanFrame}

/-- The list is as it should be, unless the behaviour has been undefined. -/
def Tidy (state : ChanState) : Prop :=
  ∀ chans ∈ state.chans, ∃ registry, chans.Tidy registry state.frames 0

theorem tidy_some (h : chans.Tidy registry frames 0) : Tidy ⟨some chans, frames⟩ := by
  intro other hother
  rw [Option.mem_some_iff] at hother
  exact ⟨registry, hother ▸ h⟩

theorem tidy_none (frames : List ChanFrame) : Tidy ⟨none, frames⟩ := nofun

theorem tidy_visit {outcome : Option (Chans × List ChanFrame)} {it : ℕ} (h : chans.Tidy registry frames 1)
    (hnext : Chans.GoesOn outcome chans it) : (resume outcome frames).Tidy := by
  obtain ⟨rest, -, hrest, houtcome⟩ := hnext
  rw [houtcome]
  exact tidy_some (h.visit hrest)

theorem processed_tidy {it ob : ℕ} (h : chans.Tidy registry (.processing it ob :: frames) 0) (result : Processed) :
    (resume (chans.processed it result) frames).Tidy := by
  by_cases hnull : ∃ ob', ⟨it, some ob'⟩ ∈ chans.list
  · obtain ⟨ob', hmem⟩ := hnull
    cases result with
    | forked c memory =>
      obtain ⟨chans', registry', -, htidy, hnext⟩ := h.forked hmem c memory
      exact tidy_visit htidy hnext
    | returned o =>
      cases o with
      | none =>
        obtain ⟨chans', registry', -, htidy, hdropped⟩ := h.dropped hmem
        rw [hdropped]
        exact tidy_some htidy
      | some c =>
        obtain ⟨chans', registry', -, htidy, hnext⟩ := h.returned hmem c
        exact tidy_visit htidy hnext
  · rw [not_exists] at hnull
    rw [Chans.processed_null hnull]
    exact tidy_none frames

theorem released_tidy {it ob : ℕ} {locked : Bool} (h : chans.Tidy registry (.releasing it ob locked :: frames) 0) :
    (resume (chans.released it ob locked) frames).Tidy := by
  obtain ⟨hrelease, hremoved, hvisits⟩ := h.finish
  rw [Chans.released]
  cases locked with
  | true =>
    rw [if_pos rfl]
    exact tidy_some hrelease
  | false =>
    rw [if_neg Bool.false_ne_true]
    cases hentry : (chans.release ob).entry it with
    | none => exact tidy_none frames
    | some entry =>
      have hit := List.find?_some hentry
      rw [decide_eq_true_eq] at hit
      rw [← hit] at hremoved
      exact tidy_some (hrelease.erase hremoved (hvisits rfl))

theorem step_tidy (h : state.Tidy) (hstep : step chanid state action = some next) : next.Tidy := by
  obtain ⟨chans, frames⟩ := state
  obtain ⟨chans, hchans, hstep⟩ := Option.bind_eq_some_iff.mp hstep
  obtain ⟨registry, htidy⟩ := h chans hchans
  dsimp only at htidy hstep
  cases action with
  | insert ob memory =>
    cases hstep
    obtain ⟨registry', hinsert⟩ := htidy.insert ob memory
    exact tidy_some hinsert
  | remove id =>
    cases hstep
    rw [Chans.removechan]
    cases hlocate : chans.locate chanid id with
    | none => exact tidy_some htidy
    | some located => exact tidy_some (htidy.remove (Chans.locate_mem hlocate))
  | find id =>
    cases hstep
    exact tidy_some (htidy.findchan chanid id)
  | process =>
    cases hstep
    obtain ⟨hlocked, hprocess⟩ := htidy.processchans
    rw [hprocess]
    split
    · exact tidy_none frames
    · exact tidy_some (hlocked.visit fun _ hentry => hentry)
  | processed result =>
    cases frames with
    | nil => cases hstep
    | cons frame frames =>
      cases frame with
      | processing it ob =>
        cases hstep
        exact processed_tidy htidy result
      | clearing it ob => cases hstep
      | releasing it ob locked => cases hstep
  | cleared =>
    cases frames with
    | nil => cases hstep
    | cons frame frames =>
      cases frame with
      | processing it ob => cases hstep
      | clearing it ob =>
        cases hstep
        obtain ⟨hcleared, hnext⟩ := htidy.cleared
        exact tidy_visit hcleared hnext
      | releasing it ob locked =>
        cases hstep
        exact released_tidy htidy

theorem create_tidy : create.Tidy := by
  have hshape : Chans.create.Shape .create := by
    refine ⟨List.nodup_nil, List.forall_mem_nil _, fun _ _ => rfl, rfl, ?_⟩
    intro it ob
    apply iff_of_false
    · exact List.not_mem_nil
    · intro heq
      cases heq
  have hnone : ∀ it ob locked, ChanFrame.releasing it ob locked ∈ ([] : List ChanFrame) →
      Registry.create it = .removed := by
    intro it ob locked hmem
    cases hmem
  have htidy : Chans.create.Tidy .create [] 0 := ⟨hshape, rfl, List.forall_mem_nil _, hnone, trivial⟩
  exact tidy_some htidy

/-- In every run the list is as it should be, until the behaviour is undefined. -/
theorem run_tidy (h : run (step chanid) create actions = some last) : last.Tidy :=
  run_invariant (fun _ _ _ htidy hstep => step_tidy htidy hstep) create_tidy h

end ChanState

end Aug.Net
