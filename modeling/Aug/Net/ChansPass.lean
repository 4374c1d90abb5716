import Aug.Lib.Sweep
import Aug.Net.ChansTidy

/-!
# One pass over a channel set

An outermost call of `aug_processchans_BI`, from its beginning to its end. Its callbacks may insert, find and
remove channels and run passes of their own, and channels may fork others, return others, or none; but no
channel is removed that is being processed. The pass processes each channel once, unless it is removed before
its turn, and no other one, and then the set holds what is left of its channels, the inserted ones, and each
forked one for whose entry there was memory.
-/

namespace Aug.Net

open Aug.Lib

namespace ChanEvent

/-- The entry that is processed. -/
def turn : ChanEvent → Option ℕ
  | process it _ => some it
  | _ => none

/-- The entry that is cleared. -/
def gone : ChanEvent → Option ℕ
  | clear it _ => some it
  | _ => none

/-- The channel that is inserted. -/
def inserted : ChanEvent → Option ℕ
  | insert _ ob => some ob
  | _ => none

/-- What an entry holds after the event. -/
def leaves (block : ℕ) (held : Option ℕ) : ChanEvent → Option ℕ
  | insert it ob => if it = block then some ob else held
  | replace it _ ob' => if it = block then some ob' else held
  | clear it _ => if it = block then none else held
  | process _ _ | found _ _ => held

end ChanEvent

namespace Chans

/-- What an entry holds after the events, from what it holds in this set. -/
def holding (chans : Chans) (log : List ChanEvent) (it : ℕ) : Option ℕ :=
  log.foldl (ChanEvent.leaves it) ((chans.entry it).bind ChanEntry.ob)

/-- The order in which a pass goes through the entries. -/
def order (chans : Chans) : List ChanEntry := chans.list.tail ++ chans.list.head?.toList

/-- What a pass over a set does, where the log has its own turns and the other events, and `asked` are the
channels that were to be inserted and those that were forked. Each entry with a channel is processed once, or
removed before its turn; what is processed was there at first, and is the channel that the entry holds then;
each channel that was to be inserted or that was forked has been; and the set holds what the insertions,
forks, replacements and removals have made of what it held. -/
structure PassedTo (start : Chans) (log : List ChanEvent) (asked : List ℕ) (last : Chans) : Prop where
  once : ∀ front it ob back, start.order = front ++ ⟨it, some ob⟩ :: back →
    HadTurn ChanEvent.turn ChanEvent.gone log it (back.map ChanEntry.it)
  turn : ∀ before it ob after, log = before ++ .process it ob :: after →
    it ∈ start.blocks ∧ start.holding before it = some ob
  inserted : log.filterMap ChanEvent.inserted = asked
  held : ∀ it ob, ⟨it, some ob⟩ ∈ last.list ↔ start.holding log it = some ob
  nodup : last.blocks.Nodup
  whole : ∀ entry ∈ last.list, entry.ob ≠ none

end Chans

/-- An entry is being processed by one of the calls that wait. -/
def ChanFrame.busy (frames : List ChanFrame) (it : ℕ) : Bool :=
  frames.any fun
    | .processing block _ => block = it
    | _ => false

/-- The channel that an action is to insert, or that is forked. -/
def ChanAction.asks : ChanAction → Option ℕ
  | .insert ob true | .processed (.forked ob _) => some ob
  | _ => none

/-- There is no memory for the entry of a forked channel. -/
def ChanAction.loses : ChanAction → Bool
  | .processed (.forked _ false) => true
  | _ => false

/-- The channel that an action inserts, or the forked one for whose entry there is memory. -/
def ChanAction.stores (action : ChanAction) : List ℕ := if action.loses then [] else action.asks.toList

/-- Unless it removes a channel that is being processed, a callback may take the step, or return. -/
def ChanState.allows (chanid : ℕ → ℤ) (state : ChanState) : ChanAction → Bool
  | .remove id =>
    match state.chans.bind fun chans => chans.locate chanid id with
    | some (it, _) => !ChanFrame.busy state.frames it
    | none => true
  | .processed (.returned none) =>
    match state.frames with
    | .processing it _ :: frames => !ChanFrame.busy frames it
    | _ => true
  | _ => true

/-- A pass under way: the state, what has happened but for the turns of other passes, and the channels that
were to be inserted or that were forked. -/
structure ChanPass where
  state : ChanState
  log : List ChanEvent
  asked : List ℕ

namespace ChanPass

/-- The events between two states. -/
def news (before after : ChanState) : List ChanEvent :=
  match before.chans, after.chans with
  | some chans, some chans' => chans'.events.drop chans.events.length
  | _, _ => []

/-- The callback for which the pass itself waits returns. -/
def returns (base frames : List ChanFrame) : ChanAction → Bool
  | .processed _ | .cleared => frames.length = base.length + 1
  | _ => false

/-- The events that go into the log: the turns of the pass itself, and all but the turns of others. -/
def kept (own : Bool) (events : List ChanEvent) : List ChanEvent :=
  if own then events else events.filter fun event => event.turn = none

/-- The pass begins, on a set that is not locked. -/
def enter (start : Chans) (base : List ChanFrame) : ChanPass :=
  let state := ChanState.resume start.processchans base
  ⟨state, news ⟨some start, base⟩ state, []⟩

/-- One step, unless the pass is over. -/
def step (chanid : ℕ → ℤ) (base : List ChanFrame) (pass : ChanPass) (action : ChanAction) : Option ChanPass :=
  if pass.state.frames.length ≤ base.length ∨ pass.state.allows chanid action = false then none
  else (pass.state.step chanid action).map fun next =>
    ⟨next, pass.log ++ kept (returns base pass.state.frames action) (news pass.state next),
      pass.asked ++ action.asks.toList⟩

end ChanPass

/-- The channel that an entry holds. -/
def Status.channel : Status → Option ℕ
  | holds ob => some ob
  | _ => none

theorem Status.channel_eq {status : Status} {ob : ℕ} : status.channel = some ob ↔ status = .holds ob := by
  cases status <;> simp [channel]

namespace Registry

variable {registry next last : Registry} {log : List ChanEvent} {event : ChanEvent} {it ob : ℕ}

theorem update_channel (registry : Registry) (block it : ℕ) (status : Status) :
    (Function.update registry block status it).channel = if block = it then status.channel else (registry it).channel := by
  by_cases heq : block = it
  · rw [if_pos heq, heq, Function.update_self]
  · rw [if_neg heq, Function.update_of_ne (Ne.symm heq)]

/-- What an entry holds after a legal event. -/
theorem step_leaves (h : step registry event = some next) (it : ℕ) :
    (next it).channel = ChanEvent.leaves it (registry it).channel event := by
  cases event with
  | insert block ob =>
    obtain ⟨-, hnext⟩ := Option.ite_none_right_eq_some.mp h
    cases hnext
    exact update_channel registry block it (.holds ob)
  | process block ob =>
    obtain ⟨-, hnext⟩ := Option.ite_none_right_eq_some.mp h
    cases hnext
    rfl
  | found block ob =>
    obtain ⟨-, hnext⟩ := Option.ite_none_right_eq_some.mp h
    cases hnext
    rfl
  | replace block ob ob' =>
    obtain ⟨-, hnext⟩ := Option.ite_none_right_eq_some.mp h
    cases hnext
    exact update_channel registry block it (.holds ob')
  | clear block ob =>
    obtain ⟨-, hnext⟩ := Option.ite_none_right_eq_some.mp h
    cases hnext
    exact update_channel registry block it .removed

/-- What an entry holds after legal events. -/
theorem run_leaves (h : run step registry log = some last) (it : ℕ) :
    (last it).channel = log.foldl (ChanEvent.leaves it) (registry it).channel := by
  induction log generalizing registry with
  | nil =>
    cases h
    rfl
  | cons event log ih =>
    obtain ⟨next, hnext, hrun⟩ := run_cons_some h
    rw [ih hrun, step_leaves hnext, List.foldl_cons]

theorem leaves_isSome {held : Option ℕ} (h : held.isSome) (hgone : event.gone ≠ some it) :
    (ChanEvent.leaves it held event).isSome := by
  cases event with
  | insert block ob =>
    rw [ChanEvent.leaves]
    split
    · rfl
    · exact h
  | process block ob => exact h
  | found block ob => exact h
  | replace block ob ob' =>
    rw [ChanEvent.leaves]
    split
    · rfl
    · exact h
  | clear block ob =>
    rw [ChanEvent.leaves, if_neg]
    · exact h
    · intro heq
      exact hgone (congrArg some heq)

/-- An entry that is not cleared holds a channel still. -/
theorem run_holds (h : run step registry log = some last) (hholds : registry it = .holds ob)
    (hgone : ∀ event ∈ log, event.gone ≠ some it) : ∃ ob', last it = .holds ob' := by
  have hall : ∀ held : Option ℕ, held.isSome → (log.foldl (ChanEvent.leaves it) held).isSome := by
    clear h
    induction log with
    | nil => exact fun held hheld => hheld
    | cons event log ih =>
      obtain ⟨hevent, hlog⟩ := List.forall_mem_cons.mp hgone
      intro held hheld
      exact ih hlog _ (leaves_isSome hheld hevent)
  have hsome := hall (registry it).channel (by rw [hholds]; rfl)
  rw [← run_leaves h] at hsome
  obtain ⟨ob', hob'⟩ := Option.isSome_iff_exists.mp hsome
  exact ⟨ob', Status.channel_eq.mp hob'⟩

/-- The turns leave the registry as it is. -/
theorem run_filter (h : run step registry log = some last) :
    run step registry (log.filter fun event => event.turn = none) = some last := by
  induction log generalizing registry with
  | nil => exact h
  | cons event log ih =>
    obtain ⟨next, hnext, hrun⟩ := run_cons_some h
    by_cases hturn : event.turn = none
    · rw [List.filter_cons, if_pos (decide_eq_true hturn), run_cons hnext]
      exact ih hrun
    · rw [List.filter_cons, if_neg fun htrue => hturn (of_decide_eq_true htrue)]
      cases event with
      | process it ob =>
        obtain ⟨-, hsame⟩ := Option.ite_none_right_eq_some.mp hnext
        cases hsame
        exact ih hrun
      | insert it ob => exact absurd rfl hturn
      | found it ob => exact absurd rfl hturn
      | replace it ob ob' => exact absurd rfl hturn
      | clear it ob => exact absurd rfl hturn

end Registry

namespace Chans

variable {start chans chans' : Chans} {first registry registry' : Registry} {frames : List ChanFrame}
  {log news : List ChanEvent} {it ob : ℕ} {rest : List ChanEntry} {front : List ℕ}

/-- What the registry says that an entry holds. -/
theorem Shape.entry_channel (h : chans.Shape registry) (it : ℕ) :
    (chans.entry it).bind ChanEntry.ob = (registry it).channel := by
  apply Option.ext
  intro ob
  rw [Status.channel_eq, ← h.holds, Option.bind_eq_some_iff]
  apply Iff.intro
  · rintro ⟨⟨block, o⟩, hentry, hob⟩
    have hmem := List.mem_of_find?_eq_some hentry
    have hblock := List.find?_some hentry
    rw [decide_eq_true_eq] at hblock
    rw [← hblock, ← hob]
    exact hmem
  · intro hmem
    exact ⟨_, h.entry_eq hmem, rfl⟩

/-- What an entry holds after legal events on a set. -/
theorem Shape.holding_eq (h : start.Shape first) (hrun : run Registry.step first log = some registry) (it : ℕ) :
    start.holding log it = (registry it).channel := by
  rw [holding, h.entry_channel, Registry.run_leaves hrun]

/-- The entries behind an entry. -/
theorem behind_split (h : chans.behind it = some rest) :
    ∃ front entry, chans.list = front ++ entry :: rest ∧ entry.it = it := by
  rw [behind] at h
  cases hdrop : chans.list.dropWhile fun entry => entry.it ≠ it with
  | nil =>
    rw [hdrop] at h
    cases h
  | cons entry back =>
    rw [hdrop] at h
    cases h
    have hsplit := List.takeWhile_append_dropWhile (p := fun entry : ChanEntry => entry.it ≠ it) (l := chans.list)
    rw [hdrop] at hsplit
    have hhead := List.head?_dropWhile_not (fun entry : ChanEntry => entry.it ≠ it) chans.list
    rw [hdrop] at hhead
    refine ⟨_, entry, hsplit.symm, ?_⟩
    simpa using hhead

/-- The loop comes to the next entry with a channel, or to the end. -/
theorem visit_cases (chans : Chans) (rest : List ChanEntry) :
    (∃ skipped it ob back, rest = skipped ++ ⟨it, some ob⟩ :: back ∧ (∀ entry ∈ skipped, entry.ob = none) ∧
      chans.visit rest = ((chans.retain ob).notice (.process it ob), [.processing it ob])) ∨
    (∀ entry ∈ rest, entry.ob = none) ∧ chans.visit rest = (chans.unlock, []) := by
  induction rest with
  | nil => exact .inr ⟨List.forall_mem_nil _, rfl⟩
  | cons entry rest ih =>
    obtain ⟨it, o⟩ := entry
    cases o with
    | some ob => exact .inl ⟨[], it, ob, rest, rfl, List.forall_mem_nil _, rfl⟩
    | none =>
      cases ih with
      | inl hnext =>
        obtain ⟨skipped, block, ob, back, hrest, hskipped, hvisit⟩ := hnext
        apply Or.inl
        refine ⟨⟨it, none⟩ :: skipped, block, ob, back, ?_, List.forall_mem_cons.mpr ⟨rfl, hskipped⟩, hvisit⟩
        rw [hrest, List.cons_append]
      | inr hend => exact .inr ⟨List.forall_mem_cons.mpr ⟨rfl, hend.1⟩, hend.2⟩

/-- The blocks of the entries in the order of the pass. -/
def path (start : Chans) : List ℕ := start.order.map ChanEntry.it

/-- The pass over a set has gone through the first entries, while new ones have been put in front. -/
structure Covers (start : Chans) (first : Registry) (chans : Chans) (registry : Registry) (log : List ChanEvent)
    (front : List ℕ) : Prop where
  shape : chans.Shape registry
  blocks : ∃ new, chans.blocks = new ++ start.path
  legal : run Registry.step first log = some registry
  swept : Swept ChanEvent.turn ChanEvent.gone start.path (fun it => ∃ ob, first it = .holds ob) log front

theorem Covers.nodup (h : Covers start first chans registry log front) : start.path.Nodup := by
  obtain ⟨new, hnew⟩ := h.blocks
  have hnodup := h.shape.nodup
  rw [hnew] at hnodup
  exact (List.nodup_append.mp hnodup).2.1

/-- The set has changed, but not its blocks and the registry. -/
theorem Covers.congr (h : Covers start first chans registry log front) (hshape : chans'.Shape registry)
    (hblocks : chans'.blocks = chans.blocks) : Covers start first chans' registry log front :=
  ⟨hshape, hblocks ▸ h.blocks, h.legal, h.swept⟩

/-- The registry after more events. -/
theorem Shape.run_news (h : chans.Shape registry) (h' : chans'.Shape registry')
    (hevents : chans'.events = chans.events ++ news) : run Registry.step registry news = some registry' := by
  have hlegal := h'.legal
  rw [hevents, run_append, h.legal, Option.bind_some] at hlegal
  exact hlegal

/-- A part of a step without a turn. -/
theorem Covers.steady (h : Covers start first chans registry log front) (hshape : chans'.Shape registry')
    (hsteady : Steady chans news chans') (hnews : ∀ event ∈ news, event.turn = none) :
    Covers start first chans' registry' (log ++ news) front where
  shape := hshape
  blocks := by
    obtain ⟨new, hnew⟩ := h.blocks
    obtain ⟨newer, hnewer⟩ := hsteady.blocks
    apply Exists.intro (newer ++ new)
    rw [hnewer, hnew, List.append_assoc]
  legal := by
    rw [run_append, h.legal]
    exact h.shape.run_news hshape hsteady.events
  swept := h.swept.quiet hnews

/-- An entry that holds no channel was trashed before, or it has been cleared. -/
theorem Covers.gone (h : Covers start first chans registry log front) {entry : ChanEntry} (hmem : entry ∈ chans.list)
    (hnull : entry.ob = none) (hthere : ∃ ob, first entry.it = .holds ob) :
    ∃ event ∈ log, event.gone = some entry.it := by
  obtain ⟨ob, hholds⟩ := hthere
  by_contra hnone
  have hgone : ∀ event ∈ log, event.gone ≠ some entry.it := fun event hevent heq => hnone ⟨event, hevent, heq⟩
  obtain ⟨ob', hlast⟩ := Registry.run_holds h.legal hholds hgone
  rw [← h.shape.holds] at hlast
  have hfound := h.shape.entry_eq hlast
  rw [h.shape.entry_eq hmem, Option.some.injEq] at hfound
  rw [hfound] at hnull
  cases hnull

/-- The pass itself goes on. -/
theorem Covers.visit (h : Covers start first chans registry log front)
    (hpath : start.path = front ++ rest.map ChanEntry.it) (hrest : ∀ entry ∈ rest, entry ∈ chans.list) :
    (∃ block ob front', chans.visit rest = ((chans.retain ob).notice (.process block ob), [.processing block ob]) ∧
      ⟨block, some ob⟩ ∈ chans.list ∧
      Covers start first ((chans.retain ob).notice (.process block ob)) registry (log ++ [.process block ob])
        (front' ++ [block])) ∨
    chans.visit rest = (chans.unlock, []) ∧ Covers start first chans registry log start.path := by
  cases visit_cases chans rest with
  | inl hnext =>
    obtain ⟨skipped, block, ob, back, hsplit, hskipped, hvisit⟩ := hnext
    have hmem : ⟨block, some ob⟩ ∈ chans.list := hrest _ (by rw [hsplit]; simp)
    have hshape : ((chans.retain ob).notice (.process block ob)).Shape registry :=
      Shape.process (h.shape.congr rfl rfl rfl) hmem
    rw [hsplit, List.map_append, List.map_cons] at hpath
    have hgone : ∀ block ∈ skipped.map ChanEntry.it, (∃ ob, first block = .holds ob) →
        ∃ event ∈ log, event.gone = some block := by
      intro block hblock hthere
      obtain ⟨entry, hentry, hit⟩ := List.mem_map.mp hblock
      rw [← hit] at hthere ⊢
      exact h.gone (hrest entry (by rw [hsplit]; exact List.mem_append_left _ hentry)) (hskipped entry hentry) hthere
    have hskips := h.swept.skips h.nodup hpath hgone
    rw [← List.append_assoc] at hpath
    have hturn := hskips.next h.nodup hpath (show ChanEvent.turn (.process block ob) = some block from rfl)
    apply Or.inl
    refine ⟨block, ob, front ++ skipped.map ChanEntry.it, hvisit, hmem, hshape, h.blocks, ?_, hturn⟩
    rw [run_append, h.legal, Option.bind_some]
    exact run_cons (if_pos ((h.shape.holds block ob).mp hmem))
  | inr hend =>
    apply Or.inr
    apply And.intro hend.2
    have hgone : ∀ block ∈ rest.map ChanEntry.it, (∃ ob, first block = .holds ob) →
        ∃ event ∈ log, event.gone = some block := by
      intro block hblock hthere
      obtain ⟨entry, hentry, hit⟩ := List.mem_map.mp hblock
      rw [← hit] at hthere ⊢
      exact h.gone (hrest entry hentry) (hend.1 entry hentry) hthere
    have hpath' : start.path = front ++ (rest.map ChanEntry.it ++ []) := by rw [hpath, List.append_nil]
    have hskips := h.swept.skips h.nodup hpath' hgone
    rw [← hpath] at hskips
    exact ⟨h.shape, h.blocks, h.legal, hskips⟩

end Chans

end Aug.Net
