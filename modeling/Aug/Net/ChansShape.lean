import Aug.Net.Chans
import Mathlib.Data.List.Nodup
import Mathlib.Tactic.Push

/-!
# The entries of a channel set

What has happened to the entries of a set is legal: an entry is inserted once, it is found, processed and
replaced while it holds a channel, and it is cleared once. Each change of the list agrees with the
events, and changes the number of entries that hold a channel as it should.
-/

namespace Aug.Net

open Aug.Lib

/-- What the events say of an entry. -/
inductive Status where
  | unused
  | holds (ob : ℕ)
  | removed
  deriving DecidableEq

/-- The entries, as a user of the set sees them. -/
abbrev Registry := ℕ → Status

namespace Registry

/-- No entry has been used. -/
def create : Registry := fun _ => .unused

/-- An event, if it is legal. -/
def step (registry : Registry) : ChanEvent → Option Registry
  | .insert it ob => if registry it = .unused then some (Function.update registry it (.holds ob)) else none
  | .process it ob | .found it ob => if registry it = .holds ob then some registry else none
  | .replace it ob ob' => if registry it = .holds ob then some (Function.update registry it (.holds ob')) else none
  | .clear it ob => if registry it = .holds ob then some (Function.update registry it .removed) else none

end Registry

namespace Chans

/-- The blocks of the entries. -/
def blocks (chans : Chans) : List ℕ := chans.list.map ChanEntry.it

/-- The number of entries that hold a channel. -/
def live (chans : Chans) : ℕ := chans.list.countP fun entry => entry.ob.isSome

/-- The number of entries that hold this channel. -/
def uses (chans : Chans) (ob : ℕ) : ℕ := chans.list.countP fun entry => entry.ob = some ob

/-- The list agrees with the events. -/
structure Shape (chans : Chans) (registry : Registry) : Prop where
  nodup : chans.blocks.Nodup
  known : ∀ it ∈ chans.blocks, it < chans.fresh
  unused : ∀ it, chans.fresh ≤ it → registry it = .unused
  legal : run Registry.step .create chans.events = some registry
  holds : ∀ it ob, ⟨it, some ob⟩ ∈ chans.list ↔ registry it = .holds ob

variable {chans chans' : Chans} {registry registry' : Registry} {it ob ob' : ℕ} {o : Option ℕ} {entry : ChanEntry}
  {event : ChanEvent}

theorem mem_blocks (h : entry ∈ chans.list) : entry.it ∈ chans.blocks := List.mem_map_of_mem h

/-- The only entry of a block. -/
theorem Shape.split (h : chans.Shape registry) (hmem : entry ∈ chans.list) : ∃ front back,
    chans.list = front ++ entry :: back ∧ (∀ other ∈ front, other.it ≠ entry.it) ∧
      ∀ other ∈ back, other.it ≠ entry.it := by
  obtain ⟨front, back, hlist⟩ := List.append_of_mem hmem
  have hnodup := h.nodup
  rw [blocks, hlist, List.map_append, List.map_cons, List.nodup_append, List.nodup_cons] at hnodup
  obtain ⟨-, ⟨hback, -⟩, hfront⟩ := hnodup
  apply Exists.intro front
  apply Exists.intro back
  apply And.intro hlist
  apply And.intro
  · intro other hother
    exact hfront _ (List.mem_map_of_mem hother) _ List.mem_cons_self
  · intro other hother heq
    exact hback (heq ▸ List.mem_map_of_mem hother)

theorem Shape.entry_eq (h : chans.Shape registry) (hmem : entry ∈ chans.list) : chans.entry entry.it = some entry := by
  obtain ⟨front, back, hlist, hfront, -⟩ := h.split hmem
  rw [Chans.entry, hlist, List.find?_append, List.find?_eq_none.mpr, Option.none_or, List.find?_cons_of_pos]
  · simp
  · intro other hother
    simpa using hfront other hother

theorem Shape.behind_eq (h : chans.Shape registry) (hmem : it ∈ chans.blocks) :
    ∃ rest, chans.behind it = some rest ∧ ∀ other ∈ rest, other ∈ chans.list := by
  obtain ⟨entry, hentry, hit⟩ := List.mem_map.mp hmem
  obtain ⟨front, back, hlist, hfront, -⟩ := h.split hentry
  have hdrop : (chans.list.dropWhile fun other => other.it ≠ it) = entry :: back := by
    rw [hlist, List.dropWhile_append_of_pos, List.dropWhile_cons_of_neg]
    · simpa using hit
    · intro other hother
      rw [← hit]
      simpa using hfront other hother
  apply Exists.intro back
  rw [Chans.behind, hdrop, List.tail?_cons, hlist]
  apply And.intro rfl
  intro other hother
  exact List.mem_append_right _ (List.mem_cons_of_mem _ hother)

/-- A set with the same entries and events. -/
theorem Shape.congr (h : chans.Shape registry) (hlist : chans'.list = chans.list) (hfresh : chans'.fresh = chans.fresh)
    (hevents : chans'.events = chans.events) : chans'.Shape registry where
  nodup := by rw [blocks, hlist]; exact h.nodup
  known := by rw [blocks, hlist, hfresh]; exact h.known
  unused := by rw [hfresh]; exact h.unused
  legal := by rw [hevents]; exact h.legal
  holds := by rw [hlist]; exact h.holds

/-- An event that leaves the registry as it is. -/
theorem Shape.notice (h : chans.Shape registry) (hstep : Registry.step registry event = some registry) :
    (chans.notice event).Shape registry where
  nodup := h.nodup
  known := h.known
  unused := h.unused
  legal := run_concat h.legal hstep
  holds := h.holds

theorem Shape.process (h : chans.Shape registry) (hmem : ⟨it, some ob⟩ ∈ chans.list) :
    (chans.notice (.process it ob)).Shape registry :=
  h.notice (if_pos ((h.holds it ob).mp hmem))

theorem Shape.found (h : chans.Shape registry) (hmem : ⟨it, some ob⟩ ∈ chans.list) :
    (chans.notice (.found it ob)).Shape registry :=
  h.notice (if_pos ((h.holds it ob).mp hmem))

/-- A list of the same entries, but for some that hold no channel. -/
theorem Shape.relist (h : chans.Shape registry) {list : List ChanEntry} (hnodup : (list.map ChanEntry.it).Nodup)
    (hsub : ∀ entry ∈ list, entry ∈ chans.list) (hholds : ∀ entry ∈ chans.list, entry.ob ≠ none → entry ∈ list) :
    { chans with list }.Shape registry where
  nodup := hnodup
  known block hblock := by
    obtain ⟨entry, hentry, hit⟩ := List.mem_map.mp hblock
    rw [← hit]
    exact h.known _ (mem_blocks (hsub entry hentry))
  unused := h.unused
  legal := h.legal
  holds block c := by
    rw [← h.holds]
    exact ⟨hsub _, fun hmem => hholds _ hmem (Option.some_ne_none c)⟩

/-- A new entry. -/
theorem Shape.insert (h : chans.Shape registry) (ob : ℕ) :
    (chans.insertchan ob true).Shape (Function.update registry chans.fresh (.holds ob)) where
  nodup := by
    have hblocks : (chans.insertchan ob true).blocks = chans.fresh :: chans.blocks := rfl
    rw [hblocks, List.nodup_cons]
    exact ⟨fun hmem => Nat.lt_irrefl _ (h.known _ hmem), h.nodup⟩
  known block hblock := by
    have hfresh : (chans.insertchan ob true).fresh = chans.fresh + 1 := rfl
    rw [hfresh]
    cases List.mem_cons.mp hblock with
    | inl heq => rw [heq]; exact Nat.lt_succ_self _
    | inr hmem => exact Nat.lt_succ_of_lt (h.known _ hmem)
  unused block hblock := by
    have hlt : chans.fresh < block := hblock
    rw [Function.update_of_ne (Nat.ne_of_gt hlt)]
    exact h.unused block hlt.le
  legal := run_concat h.legal (if_pos (h.unused _ le_rfl))
  holds block c := by
    have hlist : (chans.insertchan ob true).list = ⟨chans.fresh, some ob⟩ :: chans.list := rfl
    rw [hlist, List.mem_cons]
    by_cases hblock : block = chans.fresh
    · have habsent : ⟨chans.fresh, some c⟩ ∉ chans.list := fun hmem => Nat.lt_irrefl _ (h.known _ (mem_blocks hmem))
      rw [hblock, Function.update_self, or_iff_left habsent]
      simp [eq_comm]
    · rw [Function.update_of_ne hblock, ← h.holds]
      apply or_iff_right
      intro heq
      cases heq
      exact hblock rfl

theorem map_assign {part : List ChanEntry} (hpart : ∀ other ∈ part, other.it ≠ it) :
    part.map (fun entry => if entry.it = it then { entry with ob := o } else entry) = part := by
  have hsame : ∀ other ∈ part, (if other.it = it then { other with ob := o } else other) = other := by
    intro other hother
    rw [if_neg (hpart other hother)]
  exact (List.map_congr_left hsame).trans (List.map_id' part)

/-- Assigning the channel of an entry. -/
theorem Shape.assign_split (h : chans.Shape registry) (hmem : ⟨it, o⟩ ∈ chans.list) (o' : Option ℕ) : ∃ front back,
    chans.list = front ++ ⟨it, o⟩ :: back ∧ (chans.assign it o').list = front ++ ⟨it, o'⟩ :: back ∧
      (∀ other ∈ front, other.it ≠ it) ∧ ∀ other ∈ back, other.it ≠ it := by
  obtain ⟨front, back, hlist, hfront, hback⟩ := h.split hmem
  apply Exists.intro front
  apply Exists.intro back
  apply And.intro hlist
  apply And.intro _ ⟨hfront, hback⟩
  rw [assign, hlist, List.map_append, List.map_cons, map_assign hfront, map_assign hback, if_pos rfl]

theorem Shape.assign_uses (h : chans.Shape registry) (hmem : ⟨it, o⟩ ∈ chans.list) (o' : Option ℕ) (c : ℕ) :
    (chans.assign it o').uses c + (if o = some c then 1 else 0) = chans.uses c + if o' = some c then 1 else 0 := by
  obtain ⟨front, back, hlist, hassign, -⟩ := h.assign_split hmem o'
  rw [uses, uses, hassign, hlist, List.countP_append, List.countP_append, List.countP_cons, List.countP_cons]
  simp only [decide_eq_true_eq]
  omega

theorem Shape.assign_live (h : chans.Shape registry) (hmem : ⟨it, o⟩ ∈ chans.list) (o' : Option ℕ) :
    (chans.assign it o').live + (if o.isSome then 1 else 0) = chans.live + if o'.isSome then 1 else 0 := by
  obtain ⟨front, back, hlist, hassign, -⟩ := h.assign_split hmem o'
  rw [live, live, hassign, hlist, List.countP_append, List.countP_append, List.countP_cons, List.countP_cons]
  dsimp only
  omega

theorem assign_blocks (chans : Chans) (it : ℕ) (o : Option ℕ) : (chans.assign it o).blocks = chans.blocks := by
  rw [blocks, assign, List.map_map, blocks]
  apply List.map_congr_left
  intro entry _
  rw [Function.comp_apply]
  split
  · rfl
  · rfl

/-- An assignment, with the event that goes with it. -/
theorem Shape.assign_notice (h : chans.Shape registry) (hmem : ⟨it, o⟩ ∈ chans.list) {o' : Option ℕ} {status : Status}
    (hstatus : ∀ c, o' = some c ↔ status = .holds c)
    (hstep : Registry.step registry event = some (Function.update registry it status)) :
    ((chans.assign it o').notice event).Shape (Function.update registry it status) where
  nodup := by
    have hblocks : ((chans.assign it o').notice event).blocks = chans.blocks := assign_blocks chans it o'
    rw [hblocks]
    exact h.nodup
  known := by
    have hblocks : ((chans.assign it o').notice event).blocks = chans.blocks := assign_blocks chans it o'
    rw [hblocks]
    exact h.known
  unused block hblock := by
    have hlt := h.known it (mem_blocks hmem)
    rw [Function.update_of_ne (Nat.ne_of_gt (hlt.trans_le hblock))]
    exact h.unused block hblock
  legal := run_concat h.legal hstep
  holds block c := by
    obtain ⟨front, back, hlist, hassign, hfront, hback⟩ := h.assign_split hmem o'
    have hlist' : ((chans.assign it o').notice event).list = front ++ ⟨it, o'⟩ :: back := hassign
    rw [hlist', List.mem_append, List.mem_cons]
    by_cases hblock : block = it
    · rw [hblock, Function.update_self, ← hstatus]
      have hleft : ⟨it, some c⟩ ∉ front := fun hfrontmem => hfront _ hfrontmem rfl
      have hright : ⟨it, some c⟩ ∉ back := fun hbackmem => hback _ hbackmem rfl
      rw [or_iff_right hleft, or_iff_left hright, ChanEntry.mk.injEq, eq_comm (a := some c)]
      exact and_iff_right rfl
    · rw [Function.update_of_ne hblock, ← h.holds, hlist, List.mem_append, List.mem_cons]
      have hthis : ∀ o : Option ℕ, (⟨block, some c⟩ : ChanEntry) ≠ ⟨it, o⟩ := by
        intro o heq
        cases heq
        exact hblock rfl
      rw [eq_false (hthis o), eq_false (hthis o')]

/-- The channel of an entry is replaced. -/
theorem Shape.replace (h : chans.Shape registry) (hmem : ⟨it, some ob⟩ ∈ chans.list) (ob' : ℕ) :
    ((chans.assign it (some ob')).notice (.replace it ob ob')).Shape (Function.update registry it (.holds ob')) := by
  have hstep : Registry.step registry (.replace it ob ob') = some (Function.update registry it (.holds ob')) :=
    if_pos ((h.holds it ob).mp hmem)
  apply h.assign_notice hmem _ hstep
  intro c
  rw [Option.some.injEq, Status.holds.injEq]

/-- The channel of an entry is taken out. -/
theorem Shape.clear (h : chans.Shape registry) (hmem : ⟨it, some ob⟩ ∈ chans.list) :
    (chans.clear it ob).Shape (Function.update registry it .removed) := by
  have hstep : Registry.step registry (.clear it ob) = some (Function.update registry it .removed) :=
    if_pos ((h.holds it ob).mp hmem)
  have hassign : ((chans.assign it none).notice (.clear it ob)).Shape (Function.update registry it .removed) := by
    apply h.assign_notice hmem _ hstep
    intro c
    apply iff_of_false
    · exact (Option.some_ne_none c).symm
    · intro heq
      cases heq
  exact hassign.congr rfl rfl rfl

/-- The trashed entries are freed. -/
theorem Shape.trash (h : chans.Shape registry) : chans.trash.Shape registry := by
  apply h.relist
  · exact h.nodup.sublist (List.filter_sublist.map _)
  · intro entry hentry
    exact List.mem_of_mem_filter hentry
  · intro entry hentry hob
    exact List.mem_filter.mpr ⟨hentry, Option.isSome_iff_ne_none.mpr hob⟩

theorem trash_uses (chans : Chans) (c : ℕ) : chans.trash.uses c = chans.uses c := by
  rw [uses, uses, trash, List.countP_filter]
  apply List.countP_congr
  intro entry _
  simp only [Bool.and_eq_true, decide_eq_true_eq]
  apply and_iff_left_of_imp
  intro hob
  rw [hob]
  rfl

theorem trash_live (chans : Chans) : chans.trash.live = chans.live := by
  rw [live, live, trash, List.countP_filter]
  apply List.countP_congr
  intro entry _
  rw [Bool.and_self]

end Chans

end Aug.Net
