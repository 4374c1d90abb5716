import Aug.Subpp.Tree
import Mathlib.Tactic.Cases

/-!
# What nodes say about paths

A node is looked at through its answers to all paths. An insertion makes answers grow and an erasure makes them
shrink, at the paths that are meant and nowhere else: for the names below a node one component at a time, for the
exceptions of a special child the other way round, and for a node as it folds the answers of both.
-/

namespace Aug.Subpp

/-- The answers to all paths. -/
abbrev View := List Name → Match

/-- An answer before and after an insertion, where the path is meant or not. -/
structure Grown (meant : Prop) (before after : Match) : Prop where
  exclude : after = .arcExclude → before = .arcExclude ∧ ¬meant
  include_ : after = .arcInclude → before = .arcInclude ∨ meant
  keep : before = .arcInclude → ¬meant → after = .arcInclude

/-- An answer before and after an erasure, where the path is meant or not. -/
structure Shrunk (meant : Prop) (before after : Match) : Prop where
  include_ : after = .arcInclude → before = .arcInclude ∧ ¬meant
  keep : before = .arcInclude → ¬meant → after = .arcInclude
  exclude : after = .arcExclude → before = .arcExclude ∨ meant

/-- All answers before and after an insertion. -/
def Grows (meant : List Name → Prop) (before after : View) : Prop := ∀ q, Grown (meant q) (before q) (after q)

/-- All answers before and after an erasure. -/
def Shrinks (meant : List Name → Prop) (before after : View) : Prop := ∀ q, Shrunk (meant q) (before q) (after q)

/-- The path is a name with a path that is meant. -/
def Under (name : Name) (meant : List Name → Prop) : List Name → Prop
  | [] => False
  | head :: path => head = name ∧ meant path

/-- The path is any name with a path that is meant. -/
def UnderAny (meant : List Name → Prop) : List Name → Prop
  | [] => False
  | _ :: path => meant path

section Answers

variable {meant : Prop} {a b a' b' : Match}

theorem Grown.refl (a : Match) : Grown False a a := ⟨fun h => ⟨h, not_false⟩, .inl, fun h _ => h⟩

theorem Shrunk.refl (a : Match) : Shrunk False a a := ⟨fun h => ⟨h, not_false⟩, fun h _ => h, .inl⟩

theorem Grown.nothing (meant : Prop) : Grown meant .arcNothing .arcNothing := ⟨nofun, nofun, nofun⟩

theorem Shrunk.nothing (meant : Prop) : Shrunk meant .arcNothing .arcNothing := ⟨nofun, nofun, nofun⟩

theorem foldmatch_include_iff : foldmatch a b = .arcInclude ↔
    (a = .arcInclude ∨ b = .arcInclude) ∧ a ≠ .arcExclude ∧ b ≠ .arcExclude := by
  cases a <;> cases b <;> decide

theorem foldmatch_exclude_iff : foldmatch a b = .arcExclude ↔ a = .arcExclude ∨ b = .arcExclude := by
  cases a <;> cases b <;> decide

/-- The two parts of a node do not contradict each other. -/
structure Agree (a b : Match) : Prop where
  left : a = .arcExclude → b ≠ .arcInclude
  right : b = .arcExclude → a ≠ .arcInclude

theorem Agree.nothing (b : Match) : Agree .arcNothing b := ⟨nofun, fun _ => nofun⟩

theorem Agree.symm (h : Agree a b) : Agree b a := ⟨h.right, h.left⟩

/-- Parts that agree include what one of them includes. -/
theorem Agree.include_iff (h : Agree a b) : foldmatch a b = .arcInclude ↔ a = .arcInclude ∨ b = .arcInclude := by
  rw [foldmatch_include_iff]
  constructor
  · exact And.left
  · intro hone
    refine ⟨hone, ?_, ?_⟩
    · intro ha
      cases hone with
      | inl hinclude => rw [ha] at hinclude; cases hinclude
      | inr hinclude => exact h.left ha hinclude
    · intro hb
      cases hone with
      | inl hinclude => exact h.right hb hinclude
      | inr hinclude => rw [hb] at hinclude; cases hinclude

/-- An insertion into both parts, one of which includes what is meant. -/
theorem Grown.fold (hagree : Agree a b) (ha : Grown meant a a') (hb : Grown meant b b')
    (hmeant : meant → a' = .arcInclude ∨ b' = .arcInclude) :
    Agree a' b' ∧ Grown meant (foldmatch a b) (foldmatch a' b') ∧ (meant → foldmatch a' b' = .arcInclude) := by
  have hagree' : Agree a' b' := by
    constructor
    · intro hexclude hinclude
      obtain ⟨hbefore, hnot⟩ := ha.exclude hexclude
      exact hagree.left hbefore ((hb.include_ hinclude).resolve_right hnot)
    · intro hexclude hinclude
      obtain ⟨hbefore, hnot⟩ := hb.exclude hexclude
      exact hagree.right hbefore ((ha.include_ hinclude).resolve_right hnot)
  refine ⟨hagree', ⟨?_, ?_, ?_⟩, fun h => hagree'.include_iff.mpr (hmeant h)⟩
  · rw [foldmatch_exclude_iff, foldmatch_exclude_iff]
    rintro (hexclude | hexclude)
    · exact ⟨.inl (ha.exclude hexclude).1, (ha.exclude hexclude).2⟩
    · exact ⟨.inr (hb.exclude hexclude).1, (hb.exclude hexclude).2⟩
  · rw [hagree'.include_iff, hagree.include_iff]
    rintro (hinclude | hinclude)
    · exact (ha.include_ hinclude).imp_left .inl
    · exact (hb.include_ hinclude).imp_left .inr
  · rw [hagree'.include_iff, hagree.include_iff]
    rintro (hinclude | hinclude) hnot
    · exact .inl (ha.keep hinclude hnot)
    · exact .inr (hb.keep hinclude hnot)

/-- An erasure in both parts. -/
theorem Shrunk.fold (hagree : Agree a b) (ha : Shrunk meant a a') (hb : Shrunk meant b b') :
    Agree a' b' ∧ Shrunk meant (foldmatch a b) (foldmatch a' b') := by
  have hagree' : Agree a' b' := by
    constructor
    · intro hexclude hinclude
      obtain ⟨hbefore, hnot⟩ := hb.include_ hinclude
      exact hagree.left ((ha.exclude hexclude).resolve_right hnot) hbefore
    · intro hexclude hinclude
      obtain ⟨hbefore, hnot⟩ := ha.include_ hinclude
      exact hagree.right ((hb.exclude hexclude).resolve_right hnot) hbefore
  refine ⟨hagree', ⟨?_, ?_, ?_⟩⟩
  · rw [hagree'.include_iff, hagree.include_iff]
    rintro (hinclude | hinclude)
    · exact ⟨.inl (ha.include_ hinclude).1, (ha.include_ hinclude).2⟩
    · exact ⟨.inr (hb.include_ hinclude).1, (hb.include_ hinclude).2⟩
  · rw [hagree'.include_iff, hagree.include_iff]
    rintro (hinclude | hinclude) hnot
    · exact .inl (ha.keep hinclude hnot)
    · exact .inr (hb.keep hinclude hnot)
  · rw [foldmatch_exclude_iff, foldmatch_exclude_iff]
    rintro (hexclude | hexclude)
    · exact (ha.exclude hexclude).imp_left .inl
    · exact (hb.exclude hexclude).imp_left .inr

/-- An answer behind an exception. -/
def masked (except answer : Match) : Match := if except = .arcInclude then .arcExclude else answer

/-- An insertion below a special child: the exceptions shrink. -/
theorem Grown.masked (hexcept : Shrunk meant a a') (hanswer : Grown meant b b') (hopen : b' ≠ .arcExclude) :
    Grown meant (masked a b) (masked a' b') := by
  rw [Subpp.masked, Subpp.masked]
  by_cases hafter : a' = .arcInclude
  · obtain ⟨hbefore, hnot⟩ := hexcept.include_ hafter
    rw [if_pos hafter, if_pos hbefore]
    exact ⟨fun _ => ⟨rfl, hnot⟩, nofun, nofun⟩
  · rw [if_neg hafter]
    by_cases hbefore : a = .arcInclude
    · have hmeant : meant := by
        by_contra hnot
        exact hafter (hexcept.keep hbefore hnot)
      rw [if_pos hbefore]
      exact ⟨fun h => absurd h hopen, fun _ => .inr hmeant, nofun⟩
    · rw [if_neg hbefore]
      exact hanswer

/-- An erasure below a special child: the exceptions grow. -/
theorem Shrunk.masked (hexcept : Grown meant a a') (hmeant : meant → a' = .arcInclude) :
    Shrunk meant (masked a b) (masked a' b) := by
  rw [Subpp.masked, Subpp.masked]
  by_cases hafter : a' = .arcInclude
  · rw [if_pos hafter]
    refine ⟨nofun, ?_, fun _ => ?_⟩
    · intro hbefore hnot
      have hexcluded : a = .arcInclude := (hexcept.include_ hafter).resolve_right hnot
      rw [if_pos hexcluded] at hbefore
      cases hbefore
    · rw [ite_eq_iff]
      exact (hexcept.include_ hafter).imp_left fun h => .inl ⟨h, rfl⟩
  · have hnot : ¬meant := fun h => hafter (hmeant h)
    have hbefore : a ≠ .arcInclude := fun h => hafter (hexcept.keep h hnot)
    rw [if_neg hafter, if_neg hbefore]
    exact ⟨fun h => ⟨h, hnot⟩, fun h _ => h, .inl⟩

end Answers

/-! ## Names -/

namespace Names

/-- What the names say. -/
def view (names : Names) : View
  | [] => .arcNothing
  | head :: path =>
    match names.find head with
    | none => .arcNothing
    | some node => node.query path

/-- Each name once, with a node that is as it should be. -/
def Each (P : Outer → Prop) : Names → Prop
  | nil => True
  | cons name node rest => rest.find name = none ∧ P node ∧ rest.Each P

variable {P : Outer → Prop} {call : Outer → Outcome (Option Outer)}

theorem find_keep (name other : Name) (node : Option Outer) (rest : Names) (hrest : rest.find name = none) :
    (keep name node rest).find other = if name = other then node else rest.find other := by
  cases node with
  | none =>
    rw [keep]
    split_ifs with h
    · rw [← h]
      exact hrest
    · rfl
  | some node => rfl

/-- A call on the node of a name changes what is found there only. -/
theorem find_visit (name : Name) : ∀ {names : Names}, names.Each P → ∀ other, (names.visit name call).node.find other =
    if other = name then (names.find name).bind fun node => (call node).node else names.find other
  | nil, _, other => by
    rw [visit]
    split_ifs <;> rfl
  | cons first node rest, ⟨hfresh, _, hrest⟩, other => by
    rw [visit]
    split_ifs with hfirst hother hother
    · subst hother hfirst
      simp only [Outcome.map, find, if_pos]
      rw [find_keep _ _ _ _ hfresh, if_pos rfl]
      rfl
    · subst hfirst
      simp only [Outcome.map]
      rw [find_keep _ _ _ _ hfresh, if_neg (Ne.symm hother), find, if_neg (Ne.symm hother)]
    · subst hother
      simp only [Outcome.map, find, if_neg hfirst]
      rw [find_visit other hrest, if_pos rfl]
    · simp only [Outcome.map, find]
      rw [find_visit name hrest, if_neg hother]

/-- Calls on all nodes that do not throw change what is found everywhere. -/
theorem find_visitAll (hcall : ∀ node, (call node).thrown = false) :
    ∀ {names : Names}, names.Each P → ∀ other, (names.visitAll call).node.find other =
      (names.find other).bind fun node => (call node).node
  | nil, _, other => rfl
  | cons first node rest, ⟨hfresh, _, hrest⟩, other => by
    have hfind := find_visitAll hcall hrest
    rw [visitAll, Outcome.both, hcall, if_neg Bool.false_ne_true, find_keep _ _ _ _ (by rw [hfind, hfresh]; rfl), find]
    split_ifs with h
    · rfl
    · exact hfind other

theorem find_put (name other : Name) (node : Outer) : ∀ {names : Names}, names.find name = none →
    (names.put name node).find other = if name = other then some node else names.find other
  | nil, _ => rfl
  | cons first old rest, hfresh => by
    rw [find] at hfresh
    split_ifs at hfresh with hfirst
    rw [put]
    split_ifs with hless hother hother
    · rw [find, if_pos hother]
    · rw [find, if_neg hother]
    · subst hother
      rw [find, if_neg hfirst, find_put name name node hfresh, if_pos rfl]
    · rw [find, find, find_put name other node hfresh, if_neg hother]

/-- The name has a node, and the others have theirs. -/
theorem find_ensure (name other : Name) (names : Names) : (names.ensure name).find other =
    if name = other then some ((names.find name).getD .create) else names.find other := by
  rw [ensure]
  cases hfind : names.find name with
  | none =>
    rw [if_neg (by simp), find_put name other .create hfind]
    rfl
  | some node =>
    rw [Option.isSome_some, if_pos rfl]
    split_ifs with h
    · rw [← h, hfind]
      rfl
    · rfl

theorem Each.find {name : Name} {node : Outer} : ∀ {names : Names}, names.Each P → names.find name = some node → P node
  | nil, _, hfind => nomatch hfind
  | cons first old rest, h, hfind => by
    rw [Names.find] at hfind
    split_ifs at hfind
    · cases hfind
      exact h.2.1
    · exact Each.find h.2.2 hfind

theorem Each.imp {Q : Outer → Prop} (hpq : ∀ node, P node → Q node) : ∀ {names : Names}, names.Each P → names.Each Q
  | nil, _ => trivial
  | cons _ _ _, h => ⟨h.1, hpq _ h.2.1, Each.imp hpq h.2.2⟩

theorem Each.keep {name : Name} {node : Option Outer} {rest : Names} (hfresh : rest.find name = none)
    (hnode : ∀ kept ∈ node, P kept) (hrest : rest.Each P) : (keep name node rest).Each P := by
  cases node with
  | none => exact hrest
  | some kept => exact ⟨hfresh, hnode kept rfl, hrest⟩

theorem Each.visit (hcall : ∀ node, P node → ∀ kept ∈ (call node).node, P kept) (name : Name) :
    ∀ {names : Names}, names.Each P → (names.visit name call).node.Each P
  | nil, _ => trivial
  | cons first node rest, h => by
    rw [Names.visit]
    split_ifs with hfirst
    · exact Each.keep h.1 (hcall node h.2.1) h.2.2
    · have hfind : (rest.visit name call).node.find first = _ := find_visit name h.2.2 first
      rw [if_neg hfirst, h.1] at hfind
      exact ⟨hfind, h.2.1, Each.visit hcall name h.2.2⟩

theorem Each.visitAll (hthrown : ∀ node, (call node).thrown = false)
    (hcall : ∀ node, P node → ∀ kept ∈ (call node).node, P kept) :
    ∀ {names : Names}, names.Each P → (names.visitAll call).node.Each P
  | nil, _ => trivial
  | cons first node rest, h => by
    have hfind := find_visitAll hthrown h.2.2 first
    rw [h.1] at hfind
    rw [Names.visitAll, Outcome.both, hthrown, if_neg Bool.false_ne_true]
    exact Each.keep hfind (hcall node h.2.1) (Each.visitAll hthrown hcall h.2.2)

theorem Each.put {name : Name} {node : Outer} (hnode : P node) :
    ∀ {names : Names}, names.find name = none → names.Each P → (names.put name node).Each P
  | nil, _, _ => ⟨rfl, hnode, trivial⟩
  | cons first old rest, hfresh, h => by
    have hall := hfresh
    rw [Names.find] at hfresh
    split_ifs at hfresh with hfirst
    rw [Names.put]
    split_ifs
    · exact ⟨hall, hnode, h⟩
    · refine ⟨?_, h.2.1, Each.put hnode hfresh h.2.2⟩
      rw [find_put name first node hfresh, if_neg (Ne.symm hfirst)]
      exact h.1

theorem Each.ensure {names : Names} (hnew : P .create) (name : Name) (h : names.Each P) : (names.ensure name).Each P := by
  rw [Names.ensure]
  cases hfind : names.find name with
  | none =>
    rw [if_neg (by simp)]
    exact h.put hnew hfind
  | some node =>
    rw [Option.isSome_some, if_pos rfl]
    exact h

/-- A name that gets a node says what it has said before. -/
theorem view_ensure (name : Name) (names : Names) : (names.ensure name).view = names.view := by
  funext q
  cases q with
  | nil => rfl
  | cons head path =>
    rw [view, view, find_ensure]
    split_ifs with h
    · subst h
      cases names.find name with
      | none =>
        cases path <;> rfl
      | some node => rfl
    · rfl

end Names

/-- What a node says, where there is one. -/
def seen : Option Outer → View
  | none, _ => .arcNothing
  | some node, path => node.query path

namespace Names

variable {P : Outer → Prop} {call : Outer → Outcome (Option Outer)} {meant : List Name → Prop}
  {S : Prop → Match → Match → Prop}

theorem view_cons (names : Names) (head : Name) (path : List Name) :
    names.view (head :: path) = seen (names.find head) path := by
  rw [view]
  cases names.find head <;> rfl

/-- A call on the node of a name changes what the names say below it. -/
theorem view_visit (hrefl : ∀ a, S False a a) (hnothing : ∀ p, S p .arcNothing .arcNothing) {names : Names} {name : Name}
    (h : names.Each P) (hcall : ∀ node, P node → ∀ q, S (meant q) (node.query q) (seen (call node).node q)) (q : List Name) :
    S (Under name meant q) (names.view q) ((names.visit name call).node.view q) := by
  cases q with
  | nil => exact hrefl _
  | cons head path =>
    rw [view_cons, view_cons, find_visit name h, Under]
    by_cases hhead : head = name
    · subst hhead
      rw [if_pos rfl]
      cases hfind : names.find head with
      | none => exact hnothing _
      | some node =>
        simp only [true_and]
        exact hcall node (h.find hfind) path
    · rw [if_neg hhead]
      simp only [hhead, false_and]
      exact hrefl _

/-- Calls on all nodes change what the names say below any of them. -/
theorem view_visitAll (hrefl : ∀ a, S False a a) (hnothing : ∀ p, S p .arcNothing .arcNothing) {names : Names}
    (h : names.Each P) (hthrown : ∀ node, (call node).thrown = false)
    (hcall : ∀ node, P node → ∀ q, S (meant q) (node.query q) (seen (call node).node q)) (q : List Name) :
    S (UnderAny meant q) (names.view q) ((names.visitAll call).node.view q) := by
  cases q with
  | nil => exact hrefl _
  | cons head path =>
    rw [view_cons, view_cons, find_visitAll hthrown h]
    cases hfind : names.find head with
    | none => exact hnothing _
    | some node => exact hcall node (h.find hfind) path

end Names

/-! ## Special children -/

/-- What a wild child says. -/
def Wild.view : Wild → View
  | _, [] => .arcNothing
  | mk match_ wildchild exnames, head :: path =>
    masked (exnames.view (head :: path)) ((Outer.mk match_ wildchild).query path)

/-- What a recursive child says. -/
def Recur.view : Recur → View
  | _, [] => .arcNothing
  | mk match_ exnames exwild, head :: path =>
    masked (exnames.view (head :: path)) (masked (exwild.view (head :: path)) match_)

/-- What a special child says. -/
def Special.view : Special → View
  | null, _ => .arcNothing
  | wild node, q => node.view q
  | recur node, q => node.view q

theorem Names.query_eq (names : Names) (head : Name) (path : List Name) :
    names.query (Inner.query path) head path.isEmpty = names.view (head :: path) := by
  rw [Names.query, Names.view]
  cases names.find head <;> rfl

theorem Wild.query_eq (node : Wild) (head : Name) (path : List Name) :
    node.query (Inner.query path) head path.isEmpty = node.view (head :: path) := by
  cases node
  rw [Wild.query, Wild.view, Names.query_eq]
  rfl

theorem Recur.query_eq (node : Recur) (head : Name) (path : List Name) :
    node.query (Inner.query path) head path.isEmpty = node.view (head :: path) := by
  obtain ⟨m, exnames, exwild⟩ := node
  rw [Recur.query, Recur.view, Names.query_eq, Wild.query_eq, masked, masked]
  by_cases hnames : exnames.view (head :: path) = .arcInclude
  · simp only [hnames, true_or, or_true, if_true]
  · by_cases hwild : exwild.view (head :: path) = .arcInclude
    · simp only [hwild, or_true, if_true, ite_self]
    · simp only [hnames, hwild, or_false, if_false]
      split_ifs with hm
      · exact hm.symm
      · rfl

/-- A node folds what the names and the special child say. -/
theorem Inner.query_eq (names : Names) (special : Special) (q : List Name) :
    Inner.query q (.mk names special) = foldmatch (names.view q) (special.view q) := by
  cases q with
  | nil =>
    rw [Inner.query]
    cases special <;> rfl
  | cons head path =>
    rw [Inner.query, Names.query_eq]
    cases special with
    | null =>
      rw [Special.query, Special.view]
      cases names.view (head :: path) <;> rfl
    | wild node => rw [Special.query, Special.view, Wild.query_eq]
    | recur node => rw [Special.query, Special.view, Recur.query_eq]

/-! ## Outer nodes -/

/-- What an inner node says. -/
def Inner.view (node : Inner) : View := fun q => Inner.query q node

/-- What an outer node says. -/
def Outer.view (node : Outer) : View := fun q => node.query q

namespace Outer

variable {meant : List Name → Prop} {rest : Rest} {node : Outer}

theorem setmatch_grows (node : Outer) : Grows (· = []) node.view (node.setmatch .arcInclude).view := by
  intro q
  cases q with
  | nil => exact ⟨nofun, fun _ => .inr rfl, fun _ h => absurd rfl h⟩
  | cons head path =>
    simp only [reduceCtorEq]
    exact Grown.refl _

theorem setmatch_shrinks (node : Outer) : Shrinks (· = []) node.view (node.setmatch .arcExclude).view := by
  intro q
  cases q with
  | nil => exact ⟨nofun, fun _ h => absurd rfl h, fun _ => .inr rfl⟩
  | cons head path =>
    simp only [reduceCtorEq]
    exact Shrunk.refl _

/-- An insertion with the rest of a path. -/
theorem insert_grows (hthrown : (rest.insertnode node.inner).thrown = false) (hnil : ¬meant [])
    (h : Grows meant node.inner.view (rest.insertnode node.inner).node.view) :
    Grows meant node.view (node.insert rest).node.view := by
  intro q
  cases q with
  | nil =>
    have hmatch : (node.insert rest).node.view [] = if node.match_ = .arcInclude then node.match_ else .arcTransit := by
      rw [insert, hthrown]
      simp only [Bool.false_eq_true, false_or]
      rfl
    rw [hmatch]
    by_cases hinclude : node.match_ = .arcInclude
    · rw [if_pos hinclude]
      exact ⟨fun h => ⟨h, hnil⟩, .inl, fun h _ => h⟩
    · rw [if_neg hinclude]
      exact ⟨nofun, nofun, fun h => absurd h hinclude⟩
  | cons head path => exact h (head :: path)

/-- An erasure with the rest of a path. -/
theorem erase_shrinks (hnil : ¬meant []) (h : Shrinks meant node.inner.view (rest.erasenode node.inner).node.view) :
    Shrinks meant node.view (node.erase rest).node.view := by
  intro q
  cases q with
  | nil => exact ⟨fun h => ⟨h, hnil⟩, fun h _ => h, .inl⟩
  | cons head path => exact h (head :: path)

end Outer

/-- The names of a dead node are dead. -/
theorem Names.isdead_find {name : Name} {node : Outer} :
    ∀ {names : Names}, names.isdead = true → names.find name = some node → node.isdead = true
  | nil, _, hfind => nomatch hfind
  | cons first old rest, h, hfind => by
    rw [Names.isdead, Bool.and_eq_true] at h
    rw [find] at hfind
    split_ifs at hfind
    · cases hfind
      exact h.1
    · exact isdead_find h.2 hfind

theorem Outer.isdead_iff {node : Outer} : node.isdead = true ↔ node.match_ ≠ .arcInclude ∧ node.inner.isdead = true := by
  cases node
  rw [Outer.isdead, Bool.and_eq_true, decide_eq_true_iff]
  rfl

theorem masked_include {a b : Match} (h : masked a b = .arcInclude) : a ≠ .arcInclude ∧ b = .arcInclude := by
  rw [masked] at h
  split_ifs at h with ha
  exact ⟨ha, h⟩

/-- A dead node includes nothing. -/
theorem Inner.not_include_of_dead : ∀ (q : List Name) {node : Inner}, node.isdead = true → node.view q ≠ .arcInclude
  | [], _, _ => nofun
  | head :: path, .mk names special, h => by
    have hbelow (node : Outer) (hdead : node.isdead = true) : node.view path ≠ .arcInclude := by
      rw [Outer.isdead_iff] at hdead
      cases path with
      | nil => exact hdead.1
      | cons next path => exact Inner.not_include_of_dead (next :: path) hdead.2
    rw [Inner.isdead, Bool.and_eq_true] at h
    rw [Inner.view, Inner.query_eq]
    intro hinclude
    cases (foldmatch_include_iff.mp hinclude).1 with
    | inl hnames =>
      rw [Names.view_cons] at hnames
      cases hfind : names.find head with
      | none =>
        rw [hfind] at hnames
        cases hnames
      | some node =>
        rw [hfind] at hnames
        exact hbelow node (Names.isdead_find h.1 hfind) hnames
    | inr hspecial =>
      cases special with
      | null => cases hspecial
      | wild node =>
        obtain ⟨m, wildchild, exnames⟩ := node
        exact hbelow (.mk m wildchild) h.2 (masked_include hspecial).2
      | recur node =>
        obtain ⟨m, exnames, exwild⟩ := node
        have hm : m = .arcInclude := (masked_include (masked_include hspecial).2).2
        rw [Special.isdead, Recur.isdead, decide_eq_true_iff] at h
        exact h.2 hm

theorem Outer.not_include_of_dead {node : Outer} (h : node.isdead = true) (q : List Name) : node.view q ≠ .arcInclude := by
  rw [Outer.isdead_iff] at h
  cases q with
  | nil => exact h.1
  | cons head path => exact Inner.not_include_of_dead (head :: path) h.2

/-- A special child that is dead includes nothing. -/
theorem Special.not_include_of_dead {special : Special} (h : special.isdead = true) (q : List Name) :
    special.view q ≠ .arcInclude := by
  have hdead : (Inner.mk .nil special).isdead = true := by
    rw [Inner.isdead, h]
    rfl
  have hview : (Inner.mk .nil special).view q = special.view q := by
    rw [Inner.view, Inner.query_eq]
    cases q <;> rfl
  rw [← hview]
  exact Inner.not_include_of_dead q hdead

/-- Nothing is left of what includes nothing. -/
theorem Shrunk.gone {meant : Prop} {before after : Match} (h : Shrunk meant before after) (hdead : after ≠ .arcInclude) :
    Shrunk meant before .arcNothing :=
  ⟨nofun, fun hbefore hnot => absurd (h.keep hbefore hnot) hdead, nofun⟩

/-- A node that is erased when it is dead. -/
theorem reaped_shrinks {meant : List Name → Prop} {before : View} {outcome : Outcome Outer}
    (h : Shrinks meant before outcome.node.view) (q : List Name) :
    Shrunk (meant q) (before q) (seen outcome.reaped.node q) := by
  rw [Outcome.reaped, Outcome.map]
  dsimp only
  split_ifs with hreap
  · rw [Bool.and_eq_true] at hreap
    exact (h q).gone (Outer.not_include_of_dead hreap.2 q)
  · exact h q

/-- A special child that is reset when it is dead. -/
theorem special_reaped_shrinks {meant : List Name → Prop} {before : View} {outcome : Outcome Special}
    (h : Shrinks meant before outcome.node.view) : Shrinks meant before (Special.reaped outcome).node.view := by
  intro q
  rw [Special.reaped, Outcome.map]
  dsimp only
  split_ifs with hreap
  · rw [Bool.and_eq_true] at hreap
    exact (h q).gone (Special.not_include_of_dead hreap.2 q)
  · exact h q

/-! ## Calls on the nodes of names -/

/-- Nothing is below a node without depth. -/
theorem Outer.view_of_depth {node : Outer} (h : node.depth = 0) (head : Name) (path : List Name) :
    node.view (head :: path) = .arcNothing := by
  obtain ⟨m, names, special⟩ := node
  rw [Outer.depth, Inner.depth] at h
  have hnames : names = .nil := by
    cases names with
    | nil => rfl
    | cons name node rest =>
      rw [Names.depth] at h
      omega
  have hspecial : special = .null := by
    cases special with
    | null => rfl
    | wild node =>
      rw [Special.depth] at h
      omega
    | recur node =>
      rw [Special.depth] at h
      omega
  rw [hnames, hspecial]
  rfl

/-- A node with a match, unless nothing is below it. -/
theorem clear_grows (node : Outer) (q : List Name) :
    Grown (q = []) (node.view q) (seen (if node.depth = 0 then none else some (node.setmatch .arcInclude)) q) := by
  split_ifs with hdepth
  · cases q with
    | nil => exact ⟨nofun, nofun, fun _ h => absurd rfl h⟩
    | cons head path =>
      rw [Outer.view_of_depth hdepth]
      exact Grown.nothing _
  · exact Outer.setmatch_grows node q

theorem clear_shrinks (node : Outer) (q : List Name) :
    Shrunk (q = []) (node.view q) (seen (if node.depth = 0 then none else some (node.setmatch .arcExclude)) q) := by
  split_ifs with hdepth
  · cases q with
    | nil => exact ⟨nofun, fun _ h => absurd rfl h, nofun⟩
    | cons head path =>
      rw [Outer.view_of_depth hdepth]
      exact Shrunk.nothing _
  · exact Outer.setmatch_shrinks node q

end Aug.Subpp
