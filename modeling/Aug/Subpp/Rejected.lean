import Aug.Subpp.Tree
import Mathlib.Tactic.Cases

/-!
# Rejected subscriptions

A path with a component "-" before its last one is only found to be wrong where the walk through the tree
comes to that component. The walk before it may pass nodes without a trace; it may also create nodes, change
matches or erase nodes, and no call takes that back. A rejected call leaves the tree as it was exactly if the
walk comes to the component, or the path underflows, before it has changed anything; then all later answers
are those without the call.
-/

namespace Aug.Subpp

/-- What a walk with a wrong path does to a node: it returns and leaves the node as it is, it throws and leaves
the node as it is, or it changes the node. -/
inductive Walk where
  | passes
  | stops
  | changes
  deriving DecidableEq

/-- One walk, and then another one unless the first throws or changes its node. -/
def Walk.andThen : Walk → Walk → Walk
  | passes, second => second
  | first, _ => first

/-- A walk that must not end, for the node is changed behind it. -/
def Walk.unless (changed : Bool) : Walk → Walk
  | passes => if changed then changes else passes
  | walk => walk

/-- The walks of `insertnode` and `erasenode` with the rest of a path. -/
structure Survey where
  insertnode : Inner → Walk
  erasenode : Inner → Walk

/-- An insertion does not change the match of a node on the way to other paths, or of an included one. -/
def Match.onTheWay (m : Match) : Bool := m = .arcTransit ∨ m = .arcInclude

namespace Outer

def insertWalk (survey : Survey) (node : Outer) : Walk := (survey.insertnode node.inner).unless (!node.match_.onTheWay)

def eraseWalk (survey : Survey) (node : Outer) : Walk := (survey.erasenode node.inner).unless node.isdead

end Outer

namespace Names

def walkAll (walk : Outer → Walk) : Names → Walk
  | nil => .passes
  | cons _ node rest => (walk node).andThen (rest.walkAll walk)

/-- A name that has no node gets one. -/
def insertnameWalk (survey : Survey) (name : Name) (names : Names) : Walk :=
  match names.find name with
  | none => .changes
  | some node => node.insertWalk survey

def erasenameWalk (survey : Survey) (name : Name) (names : Names) : Walk :=
  match names.find name with
  | none => .passes
  | some node => node.eraseWalk survey

def insertwildWalk (survey : Survey) (names : Names) : Walk := names.walkAll (Outer.insertWalk survey)

def erasewildWalk (survey : Survey) (names : Names) : Walk := names.walkAll (Outer.eraseWalk survey)

end Names

namespace Wild

def insertnameWalk (survey : Survey) (name : Name) : Wild → Walk
  | mk _ _ exnames => exnames.erasenameWalk survey name

def insertwildWalk (survey : Survey) : Wild → Walk
  | mk match_ wildchild exnames =>
    if match_.onTheWay then (survey.insertnode wildchild).andThen (exnames.erasewildWalk survey) else .changes

def erasenameWalk (survey : Survey) (name : Name) : Wild → Walk
  | mk _ _ exnames => exnames.insertnameWalk survey name

def erasewildWalk (survey : Survey) : Wild → Walk
  | mk _ wildchild exnames => (survey.erasenode wildchild).andThen (exnames.insertwildWalk survey)

end Wild

namespace Recur

def insertnameWalk (survey : Survey) (name : Name) : Recur → Walk
  | mk _ exnames _ => exnames.erasenameWalk survey name

def insertwildWalk (survey : Survey) : Recur → Walk
  | mk _ exnames exwild => (exnames.erasewildWalk survey).andThen (exwild.erasewildWalk survey)

def erasenameWalk (survey : Survey) (name : Name) : Recur → Walk
  | mk _ exnames _ => exnames.insertnameWalk survey name

def erasewildWalk (survey : Survey) : Recur → Walk
  | mk _ exnames exwild => (exnames.insertwildWalk survey).andThen (exwild.insertwildWalk survey)

end Recur

/-- There is a special child, and it is dead. -/
def Special.gone : Special → Bool
  | null => false
  | special => special.isdead

/-- The walk through a special child, where there is one. -/
def Special.walk (wild : Wild → Walk) (recur : Recur → Walk) (null : Walk) : Special → Walk
  | .null => null
  | .wild node => wild node
  | .recur node => recur node

namespace Inner

def insertnameWalk (survey : Survey) (name : Name) : Inner → Walk
  | mk names special => (names.insertnameWalk survey name).andThen
      (special.walk (Wild.insertnameWalk survey name) (Recur.insertnameWalk survey name) .passes)

/-- A node without a special child gets one. -/
def insertwildWalk (survey : Survey) : Inner → Walk
  | mk names special => (names.insertwildWalk survey).andThen
      (special.walk (Wild.insertwildWalk survey) (Recur.insertwildWalk survey) .changes)

def erasenameWalk (survey : Survey) (name : Name) : Inner → Walk
  | mk names special => (names.erasenameWalk survey name).andThen
      ((special.walk (Wild.erasenameWalk survey name) (Recur.erasenameWalk survey name) .passes).unless special.gone)

def erasewildWalk (survey : Survey) : Inner → Walk
  | mk names special => (names.erasewildWalk survey).andThen
      ((special.walk (Wild.erasewildWalk survey) (Recur.erasewildWalk survey) .passes).unless special.gone)

end Inner

/-- The walk of `insertnode` with a wrong path. -/
def insertnodeWalk (survey : Survey) (head : Name) (node : Inner) : Walk :=
  match tonodetype head with
  | .arcName => node.insertnameWalk survey head
  | .arcRecur => .stops
  | .arcWild => node.insertwildWalk survey

/-- The walk of `erasenode` with a wrong path. -/
def erasenodeWalk (survey : Survey) (head : Name) (node : Inner) : Walk :=
  match tonodetype head with
  | .arcName => node.erasenameWalk survey head
  | .arcRecur => .stops
  | .arcWild => node.erasewildWalk survey

/-- The walks with a wrong path. -/
def survey : List Name → Survey
  | [] => ⟨fun _ => .passes, fun _ => .passes⟩
  | head :: path => ⟨insertnodeWalk (survey path) head, erasenodeWalk (survey path) head⟩

/-- The call is refused before it has changed anything: its path underflows, or the walk comes to the wrong
component with all nodes as they were. -/
def Call.stopped (root : Outer) : Call → Bool
  | insert s =>
    match splitpath s with
    | none => true
    | some path => (survey path).insertnode root.inner = .stops
  | erase s =>
    match splitpath s with
    | none => true
    | some path => (survey path).erasenode root.inner = .stops

/-- A component "-" is not the last one. -/
def Wrong (path : List Name) : Prop := [45] ∈ path.dropLast

/-- The outcome for a node is what the walk says. -/
structure Tells {α : Type} (walk : Walk) (old : α) (outcome : Outcome α) : Prop where
  passes : walk = .passes ↔ outcome = ⟨old, false⟩
  stops : walk = .stops ↔ outcome = ⟨old, true⟩

section Walks

variable {α β γ : Type} {walk first second : Walk} {old : α} {other : β} {outcome : Outcome α} {outcome' : Outcome β}

/-- What the walk says, case by case. -/
theorem Tells.cases (h : Tells walk old outcome) :
    walk = .passes ∧ outcome = ⟨old, false⟩ ∨ walk = .stops ∧ outcome = ⟨old, true⟩ ∨
      walk = .changes ∧ outcome.node ≠ old := by
  cases walk with
  | passes => exact .inl ⟨rfl, h.passes.mp rfl⟩
  | stops => exact .inr (.inl ⟨rfl, h.stops.mp rfl⟩)
  | changes =>
    apply Or.inr
    apply Or.inr
    apply And.intro rfl
    intro hnode
    cases hthrown : outcome.thrown with
    | false => cases h.passes.mpr (by rw [← hnode, ← hthrown])
    | true => cases h.stops.mpr (by rw [← hnode, ← hthrown])

theorem Tells.of_passes (old : α) : Tells .passes old (.ok old) := ⟨iff_of_true rfl rfl, by simp [Outcome.ok]⟩

theorem Tells.of_stops (old : α) : Tells .stops old ⟨old, true⟩ := ⟨by simp, by simp⟩

/-- The node has changed. -/
theorem Tells.of_changes (h : outcome.node ≠ old) : Tells .changes old outcome := by
  constructor
  · apply iff_of_false nofun
    intro heq
    rw [heq] at h
    exact h rfl
  · apply iff_of_false nofun
    intro heq
    rw [heq] at h
    exact h rfl

/-- A part of a node, where the rest stays as it is. -/
theorem Tells.map {f : α → β} (h : Tells walk old outcome) (hf : f.Injective) :
    Tells walk (f old) (outcome.map f) := by
  rcases h.cases with ⟨rfl, rfl⟩ | ⟨rfl, rfl⟩ | ⟨rfl, hne⟩
  · exact .of_passes (f old)
  · exact .of_stops (f old)
  · exact .of_changes fun heq => hne (hf heq)

/-- Two parts of a node, one behind the other. -/
theorem Tells.both {mk : α → β → γ} (h : Tells first old outcome) (h' : Tells second other outcome')
    (hmk : ∀ a b, b = other ∨ b = outcome'.node → mk a b = mk old other → a = old ∧ b = other) :
    Tells (first.andThen second) (mk old other) (.both mk outcome other outcome') := by
  rcases h.cases with ⟨rfl, rfl⟩ | ⟨rfl, rfl⟩ | ⟨rfl, hne⟩
  · rcases h'.cases with ⟨rfl, rfl⟩ | ⟨rfl, rfl⟩ | ⟨rfl, hne⟩
    · exact .of_passes (mk old other)
    · exact .of_stops (mk old other)
    · exact .of_changes fun heq => hne (hmk _ _ (.inr rfl) heq).2
  · exact .of_stops (mk old other)
  · apply Tells.of_changes
    intro heq
    rw [Outcome.both] at heq
    split at heq
    · exact hne (hmk _ _ (.inl rfl) heq).1
    · exact hne (hmk _ _ (.inr rfl) heq).1

/-- A node that is replaced when the walk ends. -/
theorem Tells.unless {f : α → β} {changed : Bool} {node : α → β} (h : Tells walk old outcome)
    (hthrown : outcome.thrown = true → outcome' = ⟨node outcome.node, true⟩)
    (hreturned : outcome.thrown = false → outcome' = ⟨f outcome.node, false⟩) (hnode : node.Injective)
    (hsame : f old = node old ↔ changed = false) (hother : ∀ a, f a = node old → a = old) :
    Tells (walk.unless changed) (node old) outcome' := by
  rcases h.cases with ⟨rfl, rfl⟩ | ⟨rfl, rfl⟩ | ⟨rfl, hne⟩
  · rw [hreturned rfl, Walk.unless]
    cases changed with
    | false =>
      rw [hsame.mpr rfl]
      exact .of_passes (node old)
    | true => exact .of_changes fun heq => Bool.noConfusion (hsame.mp heq)
  · rw [hthrown rfl]
    exact .of_stops (node old)
  · apply Tells.of_changes
    cases hcase : outcome.thrown with
    | false =>
      rw [hreturned hcase]
      exact fun heq => hne (hother _ heq)
    | true =>
      rw [hthrown hcase]
      exact fun heq => hne (hnode heq)

end Walks

/-- The survey says what is done with the rest of a path. -/
structure Surveys (survey : Survey) (rest : Rest) : Prop where
  insertnode : ∀ node, Tells (survey.insertnode node) node (rest.insertnode node)
  erasenode : ∀ node, Tells (survey.erasenode node) node (rest.erasenode node)

variable {survey : Survey} {rest : Rest}

namespace Outer

@[simp] theorem match_mk (m : Match) (below : Inner) : (mk m below).match_ = m := rfl

@[simp] theorem inner_mk (m : Match) (below : Inner) : (mk m below).inner = below := rfl

theorem insert_tells (h : Surveys survey rest) (node : Outer) :
    Tells (node.insertWalk survey) (some node) (node.insert rest).stays := by
  obtain ⟨m, below⟩ := node
  have hinsert : Tells ((mk m below).insertWalk survey) (mk m below) ((mk m below).insert rest) := by
    apply @Tells.unless _ _ _ _ _ _ (mk (if m = .arcInclude then m else .arcTransit)) _ (mk m) (h.insertnode below)
    · intro hthrown
      simp [insert, hthrown]
    · intro hthrown
      simp [insert, hthrown]
    · intro a b heq
      exact (mk.inj heq).2
    · cases m <;> simp [Match.onTheWay]
    · intro a heq
      exact (mk.inj heq).2
  apply hinsert.map
  intro a b heq
  exact Option.some.inj heq

theorem erase_tells (h : Surveys survey rest) (node : Outer) :
    Tells (node.eraseWalk survey) (some node) (node.erase rest).reaped := by
  obtain ⟨m, below⟩ := node
  apply @Tells.unless _ _ _ _ _ _ (fun below => if (mk m below).isdead then none else some (mk m below)) _
    (fun below => some (mk m below)) (h.erasenode below)
  · intro hthrown
    simp [Outcome.reaped, erase, Outcome.map, hthrown]
  · intro hthrown
    simp [Outcome.reaped, erase, Outcome.map, hthrown]
  · intro a b heq
    exact (mk.inj (Option.some.inj heq)).2
  · cases hdead : (mk m below).isdead with
    | false => simp
    | true => simp
  · intro a heq
    split at heq
    · cases heq
    · exact (mk.inj (Option.some.inj heq)).2

end Outer

namespace Names

/-- The number of names. -/
def length : Names → ℕ
  | nil => 0
  | cons _ _ rest => rest.length + 1

theorem length_keep_le (name : Name) (node : Option Outer) (rest : Names) : (keep name node rest).length ≤ rest.length + 1 := by
  cases node with
  | none => exact Nat.le_succ _
  | some node => exact le_rfl

/-- No map is longer after a call on each node. -/
theorem length_visitAll (call : Outer → Outcome (Option Outer)) :
    ∀ names : Names, (names.visitAll call).node.length ≤ names.length
  | nil => le_rfl
  | cons name node rest => by
    rw [visitAll, Outcome.both, length]
    split
    · exact length_keep_le _ _ _
    · exact (length_keep_le _ _ _).trans (Nat.succ_le_succ (length_visitAll call rest))

theorem keep_eq {name : Name} {node : Outer} {kept : Option Outer} {rest rest' : Names} (hlength : rest'.length ≤ rest.length)
    (h : keep name kept rest' = cons name node rest) : kept = some node ∧ rest' = rest := by
  cases kept with
  | none =>
    have hrest : rest' = cons name node rest := h
    rw [hrest, length] at hlength
    exact absurd hlength (Nat.not_succ_le_self _)
  | some other =>
    cases h
    exact ⟨rfl, rfl⟩

theorem visitAll_tells {walk : Outer → Walk} {call : Outer → Outcome (Option Outer)}
    (h : ∀ node, Tells (walk node) (some node) (call node)) :
    ∀ names : Names, Tells (names.walkAll walk) names (names.visitAll call)
  | nil => .of_passes nil
  | cons name node rest => by
    apply @Tells.both _ _ _ _ _ _ _ _ _ (keep name) (h node) (visitAll_tells h rest)
    intro kept rest' hrest heq
    apply keep_eq _ heq
    cases hrest with
    | inl hsame => rw [hsame]
    | inr hvisited =>
      rw [hvisited]
      exact length_visitAll call rest

theorem visit_tells {walk : Outer → Walk} {call : Outer → Outcome (Option Outer)}
    (h : ∀ node, Tells (walk node) (some node) (call node)) (name : Name) : ∀ names : Names,
    Tells (match names.find name with | none => .passes | some node => walk node) names (names.visit name call)
  | nil => .of_passes nil
  | cons other node rest => by
    rw [find, visit]
    by_cases heq : other = name
    · rw [if_pos heq, if_pos heq]
      have hmap : Tells (walk node) (keep other (some node) rest) ((call node).map fun node => keep other node rest) := by
        rcases (h node).cases with ⟨hwalk, hcall⟩ | ⟨hwalk, hcall⟩ | ⟨hwalk, hne⟩
        · rw [hwalk, hcall]
          exact .of_passes _
        · rw [hwalk, hcall]
          exact .of_stops _
        · rw [hwalk]
          exact .of_changes fun hkeep => hne (keep_eq le_rfl hkeep).1
      exact hmap
    · rw [if_neg heq, if_neg heq]
      apply (visit_tells h name rest).map
      intro a b hcons
      cases hcons
      rfl

theorem length_put (name : Name) (node : Outer) : ∀ names : Names, (names.put name node).length = names.length + 1
  | nil => rfl
  | cons other old rest => by
    rw [put]
    split
    · rfl
    · rw [length, length_put name node rest, length]

/-- A call that keeps the node of the name keeps the number of names. -/
theorem length_visit {call : Outer → Outcome (Option Outer)} (h : ∀ node, (call node).node.isSome) (name : Name) :
    ∀ names : Names, (names.visit name call).node.length = names.length
  | nil => rfl
  | cons other node rest => by
    rw [visit]
    split
    · obtain ⟨node', hnode⟩ := Option.isSome_iff_exists.mp (h node)
      rw [Outcome.map, hnode]
      rfl
    · rw [Outcome.map, length, length_visit h name rest, length]

theorem insertname_tells (h : Surveys survey rest) (name : Name) (names : Names) :
    Tells (names.insertnameWalk survey name) names (names.insertnameRest rest name) := by
  have hvisit := visit_tells (Outer.insert_tells h) name names
  rw [insertnameWalk, insertnameRest, ensure]
  cases hfind : names.find name with
  | some node =>
    rw [hfind] at hvisit
    exact hvisit
  | none =>
    apply Tells.of_changes
    intro heq
    have hlength : (names.put name .create).length = names.length := by
      have hstays : ∀ node : Outer, (node.insert rest).stays.node.isSome := fun _ => rfl
      rw [← length_visit hstays name (names.put name .create)]
      exact congrArg length heq
    rw [length_put] at hlength
    exact Nat.succ_ne_self _ hlength

theorem erasename_tells (h : Surveys survey rest) (name : Name) (names : Names) :
    Tells (names.erasenameWalk survey name) names (names.erasenameRest rest name) :=
  visit_tells (Outer.erase_tells h) name names

theorem insertwild_tells (h : Surveys survey rest) (names : Names) :
    Tells (names.insertwildWalk survey) names (names.insertwildRest rest) :=
  visitAll_tells (Outer.insert_tells h) names

theorem erasewild_tells (h : Surveys survey rest) (names : Names) :
    Tells (names.erasewildWalk survey) names (names.erasewildRest rest) :=
  visitAll_tells (Outer.erase_tells h) names

end Names

namespace Wild

theorem insertname_tells (h : Surveys survey rest) (name : Name) (node : Wild) :
    Tells (node.insertnameWalk survey name) node (node.insertnameRest rest name) := by
  obtain ⟨m, wildchild, exnames⟩ := node
  apply (Names.erasename_tells h name exnames).map
  intro a b heq
  cases heq
  rfl

theorem erasename_tells (h : Surveys survey rest) (name : Name) (node : Wild) :
    Tells (node.erasenameWalk survey name) node (node.erasenameRest rest name) := by
  obtain ⟨m, wildchild, exnames⟩ := node
  apply (Names.insertname_tells h name exnames).map
  intro a b heq
  cases heq
  rfl

/-- The match of a node that is not on the way is changed first. -/
theorem insertwild_tells (h : Surveys survey rest) (node : Wild) :
    Tells (node.insertwildWalk survey) node (node.insertwildRest rest) := by
  obtain ⟨m, wildchild, exnames⟩ := node
  rw [insertwildWalk, insertwildRest]
  by_cases hm : m.onTheWay = true
  · have hsame : (if m = .arcInclude then m else .arcTransit) = m := by
      cases m <;> simp_all [Match.onTheWay]
    rw [if_pos hm, hsame]
    apply (h.insertnode wildchild).both (Names.erasewild_tells h exnames)
    intro a b _ heq
    cases heq
    exact ⟨rfl, rfl⟩
  · rw [if_neg hm]
    apply Tells.of_changes
    have hne : (if m = .arcInclude then m else .arcTransit) ≠ m := by
      cases m <;> simp_all [Match.onTheWay]
    rw [Outcome.both]
    split
    · intro heq
      exact hne (mk.inj heq).1
    · intro heq
      exact hne (mk.inj heq).1

theorem erasewild_tells (h : Surveys survey rest) (node : Wild) :
    Tells (node.erasewildWalk survey) node (node.erasewildRest rest) := by
  obtain ⟨m, wildchild, exnames⟩ := node
  apply (h.erasenode wildchild).both (Names.insertwild_tells h exnames)
  intro a b _ heq
  cases heq
  exact ⟨rfl, rfl⟩

end Wild

namespace Recur

theorem insertname_tells (h : Surveys survey rest) (name : Name) (node : Recur) :
    Tells (node.insertnameWalk survey name) node (node.insertnameRest rest name) := by
  obtain ⟨m, exnames, exwild⟩ := node
  apply @Tells.map _ _ _ _ _ (fun exnames => mk m exnames exwild) (Names.erasename_tells h name exnames)
  intro a b heq
  cases heq
  rfl

theorem erasename_tells (h : Surveys survey rest) (name : Name) (node : Recur) :
    Tells (node.erasenameWalk survey name) node (node.erasenameRest rest name) := by
  obtain ⟨m, exnames, exwild⟩ := node
  apply @Tells.map _ _ _ _ _ (fun exnames => mk m exnames exwild) (Names.insertname_tells h name exnames)
  intro a b heq
  cases heq
  rfl

theorem insertwild_tells (h : Surveys survey rest) (node : Recur) :
    Tells (node.insertwildWalk survey) node (node.insertwildRest rest) := by
  obtain ⟨m, exnames, exwild⟩ := node
  apply (Names.erasewild_tells h exnames).both (Wild.erasewild_tells h exwild)
  intro a b _ heq
  cases heq
  exact ⟨rfl, rfl⟩

theorem erasewild_tells (h : Surveys survey rest) (node : Recur) :
    Tells (node.erasewildWalk survey) node (node.erasewildRest rest) := by
  obtain ⟨m, exnames, exwild⟩ := node
  apply (Names.insertwild_tells h exnames).both (Wild.insertwild_tells h exwild)
  intro a b _ heq
  cases heq
  exact ⟨rfl, rfl⟩

end Recur

namespace Special

variable {wildWalk : Wild → Walk} {recurWalk : Recur → Walk} {onWild : Wild → Outcome Wild} {onRecur : Recur → Outcome Recur}

theorem call_tells (hwild : ∀ node, Tells (wildWalk node) node (onWild node))
    (hrecur : ∀ node, Tells (recurWalk node) node (onRecur node)) (special : Special) :
    Tells (special.walk wildWalk recurWalk .passes) special (special.call onWild onRecur) := by
  cases special with
  | null => exact .of_passes null
  | wild node =>
    apply (hwild node).map
    intro a b heq
    cases heq
    rfl
  | recur node =>
    apply (hrecur node).map
    intro a b heq
    cases heq
    rfl

/-- A node without a special child gets one. -/
theorem orWild_tells (hwild : ∀ node, Tells (wildWalk node) node (onWild node))
    (hrecur : ∀ node, Tells (recurWalk node) node (onRecur node)) (special : Special) :
    Tells (special.walk wildWalk recurWalk .changes) special (special.orWild.call onWild onRecur) := by
  cases special with
  | null => exact .of_changes nofun
  | wild node => exact call_tells hwild hrecur (wild node)
  | recur node => exact call_tells hwild hrecur (recur node)

/-- A child that is dead behind the call is reset. -/
theorem reaped_tells (hwild : ∀ node, Tells (wildWalk node) node (onWild node))
    (hrecur : ∀ node, Tells (recurWalk node) node (onRecur node)) (special : Special) :
    Tells ((special.walk wildWalk recurWalk .passes).unless special.gone) special
      (reaped (special.call onWild onRecur)) := by
  have hcall := call_tells hwild hrecur special
  by_cases hnull : special = null
  · rw [hnull]
    exact .of_passes null
  · apply @Tells.unless _ _ _ _ _ _ (fun special => if special.isdead then null else special) _ id hcall
    · intro hthrown
      rw [reaped, Outcome.map, hthrown]
      rfl
    · intro hthrown
      rw [reaped, Outcome.map, hthrown]
      simp
    · exact Function.injective_id
    · have hgone : special.gone = special.isdead := by
        cases special with
        | null => exact absurd rfl hnull
        | wild node => rfl
        | recur node => rfl
      rw [hgone]
      cases hdead : special.isdead with
      | false => simp
      | true => simpa using Ne.symm hnull
    · intro a heq
      dsimp only [id] at heq
      split at heq
      · exact absurd heq.symm hnull
      · exact heq

end Special

namespace Inner

theorem insertname_tells (h : Surveys survey rest) (name : Name) (node : Inner) :
    Tells (node.insertnameWalk survey name) node (node.insertnameRest rest name) := by
  obtain ⟨names, special⟩ := node
  apply (Names.insertname_tells h name names).both
    (Special.call_tells (Wild.insertname_tells h name) (Recur.insertname_tells h name) special)
  intro a b _ heq
  cases heq
  exact ⟨rfl, rfl⟩

theorem insertwild_tells (h : Surveys survey rest) (node : Inner) :
    Tells (node.insertwildWalk survey) node (node.insertwildRest rest) := by
  obtain ⟨names, special⟩ := node
  apply (Names.insertwild_tells h names).both
    (Special.orWild_tells (Wild.insertwild_tells h) (Recur.insertwild_tells h) special)
  intro a b _ heq
  cases heq
  exact ⟨rfl, rfl⟩

theorem erasename_tells (h : Surveys survey rest) (name : Name) (node : Inner) :
    Tells (node.erasenameWalk survey name) node (node.erasenameRest rest name) := by
  obtain ⟨names, special⟩ := node
  apply (Names.erasename_tells h name names).both
    (Special.reaped_tells (Wild.erasename_tells h name) (Recur.erasename_tells h name) special)
  intro a b _ heq
  cases heq
  exact ⟨rfl, rfl⟩

theorem erasewild_tells (h : Surveys survey rest) (node : Inner) :
    Tells (node.erasewildWalk survey) node (node.erasewildRest rest) := by
  obtain ⟨names, special⟩ := node
  apply (Names.erasewild_tells h names).both
    (Special.reaped_tells (Wild.erasewild_tells h) (Recur.erasewild_tells h) special)
  intro a b _ heq
  cases heq
  exact ⟨rfl, rfl⟩

end Inner

variable {head : Name} {path : List Name}

/-- A wrong path has more components behind its first one, which is "-", or the path behind is wrong. -/
theorem wrong_cons (h : Wrong (head :: path)) : path.isEmpty = false ∧ (head = [45] ∨ Wrong path) := by
  cases path with
  | nil => cases h
  | cons next path =>
    apply And.intro rfl
    rw [Wrong, List.dropLast_cons_cons, List.mem_cons] at h
    exact h.imp Eq.symm fun hmem => hmem

theorem wrong_of_wrong (h : Wrong path) : Wrong (head :: path) := by
  cases path with
  | nil => cases h
  | cons next path =>
    rw [Wrong, List.dropLast_cons_cons]
    exact List.mem_cons_of_mem _ h

theorem tonodetype_eq_arcRecur (h : tonodetype head = .arcRecur) : head = [45] := by
  rw [tonodetype] at h
  split at h
  · assumption
  · split at h
    · cases h
    · cases h

/-- The walks with a wrong path say what `insertnode` and `erasenode` do. -/
theorem survey_tells : ∀ {path : List Name}, Wrong path → Surveys (Aug.Subpp.survey path) (nodes path)
  | [], h => nomatch h
  | head :: path, h => by
    obtain ⟨hmore, hrest⟩ := wrong_cons h
    have hsurveys : tonodetype head ≠ .arcRecur → Surveys (Aug.Subpp.survey path) (nodes path) := by
      intro hhead
      cases hrest with
      | inl heq =>
        rw [heq] at hhead
        exact absurd rfl hhead
      | inr hwrong => exact survey_tells hwrong
    constructor
    · intro node
      rw [Aug.Subpp.survey, nodes]
      dsimp only
      rw [insertnodeWalk, insertnodeHead, hmore]
      cases htype : tonodetype head with
      | arcName => exact Inner.insertname_tells (hsurveys (by rw [htype]; nofun)) head node
      | arcRecur => exact .of_stops node
      | arcWild => exact Inner.insertwild_tells (hsurveys (by rw [htype]; nofun)) node
    · intro node
      rw [Aug.Subpp.survey, nodes]
      dsimp only
      rw [erasenodeWalk, erasenodeHead, hmore]
      cases htype : tonodetype head with
      | arcName => exact Inner.erasename_tells (hsurveys (by rw [htype]; nofun)) head node
      | arcRecur => exact .of_stops node
      | arcWild => exact Inner.erasewild_tells (hsurveys (by rw [htype]; nofun)) node

/-- Nothing is thrown with the rest of a path. -/
structure Rest.Returns (rest : Rest) : Prop where
  insertnode : ∀ node, (rest.insertnode node).thrown = false
  erasenode : ∀ node, (rest.erasenode node).thrown = false

theorem both_thrown {α β γ : Type} {mk : α → β → γ} {first : Outcome α} {old : β} {second : Outcome β}
    (h : first.thrown = false) (h' : second.thrown = false) : (Outcome.both mk first old second).thrown = false := by
  rw [Outcome.both, h]
  exact h'

namespace Names

variable {call : Outer → Outcome (Option Outer)}

theorem visit_thrown (h : ∀ node, (call node).thrown = false) (name : Name) :
    ∀ names : Names, (names.visit name call).thrown = false
  | nil => rfl
  | cons other node rest => by
    rw [visit]
    split
    · exact h node
    · exact visit_thrown h name rest

theorem visitAll_thrown (h : ∀ node, (call node).thrown = false) : ∀ names : Names, (names.visitAll call).thrown = false
  | nil => rfl
  | cons _ node rest => both_thrown (h node) (visitAll_thrown h rest)

end Names

theorem Special.call_thrown {onWild : Wild → Outcome Wild} {onRecur : Recur → Outcome Recur}
    (hwild : ∀ node, (onWild node).thrown = false) (hrecur : ∀ node, (onRecur node).thrown = false) (special : Special) :
    (special.call onWild onRecur).thrown = false := by
  cases special with
  | null => rfl
  | wild node => exact hwild node
  | recur node => exact hrecur node

namespace Rest.Returns

variable (h : rest.Returns)
include h

theorem insertname_names (name : Name) (names : Names) : (names.insertnameRest rest name).thrown = false :=
  Names.visit_thrown (fun node => h.insertnode node.inner) name _

theorem erasename_names (name : Name) (names : Names) : (names.erasenameRest rest name).thrown = false :=
  Names.visit_thrown (fun node => h.erasenode node.inner) name _

theorem insertwild_names (names : Names) : (names.insertwildRest rest).thrown = false :=
  Names.visitAll_thrown (fun node => h.insertnode node.inner) _

theorem erasewild_names (names : Names) : (names.erasewildRest rest).thrown = false :=
  Names.visitAll_thrown (fun node => h.erasenode node.inner) _

theorem insertwild_wild : ∀ node : Wild, (node.insertwildRest rest).thrown = false
  | .mk _ wildchild exnames => both_thrown (h.insertnode wildchild) (h.erasewild_names exnames)

theorem erasewild_wild : ∀ node : Wild, (node.erasewildRest rest).thrown = false
  | .mk _ wildchild exnames => both_thrown (h.erasenode wildchild) (h.insertwild_names exnames)

theorem insertname_inner (name : Name) : ∀ node : Inner, (node.insertnameRest rest name).thrown = false
  | .mk names special => both_thrown (h.insertname_names name names) (Special.call_thrown
      (fun | .mk _ _ exnames => h.erasename_names name exnames) (fun | .mk _ exnames _ => h.erasename_names name exnames)
      special)

theorem erasename_inner (name : Name) : ∀ node : Inner, (node.erasenameRest rest name).thrown = false
  | .mk names special => both_thrown (h.erasename_names name names) (Special.call_thrown
      (fun | .mk _ _ exnames => h.insertname_names name exnames)
      (fun | .mk _ exnames _ => h.insertname_names name exnames) special)

theorem insertwild_inner : ∀ node : Inner, (node.insertwildRest rest).thrown = false
  | .mk names _ => both_thrown (h.insertwild_names names) (Special.call_thrown h.insertwild_wild
      (fun | .mk _ exnames exwild => both_thrown (h.erasewild_names exnames) (h.erasewild_wild exwild)) _)

theorem erasewild_inner : ∀ node : Inner, (node.erasewildRest rest).thrown = false
  | .mk names special => both_thrown (h.erasewild_names names) (Special.call_thrown h.erasewild_wild
      (fun | .mk _ exnames exwild => both_thrown (h.insertwild_names exnames) (h.insertwild_wild exwild)) special)

end Rest.Returns

/-- Only a wrong path is refused in the tree. -/
theorem returns_of_not_wrong : ∀ {path : List Name}, ¬Wrong path → (nodes path).Returns
  | [], _ => ⟨fun _ => rfl, fun _ => rfl⟩
  | head :: path, h => by
    have hrest := returns_of_not_wrong fun hwrong => h (wrong_of_wrong hwrong)
    have hrecur : tonodetype head = .arcRecur → path.isEmpty = true := by
      intro htype
      cases path with
      | nil => rfl
      | cons next path =>
        rw [tonodetype_eq_arcRecur htype, Wrong, List.dropLast_cons_cons] at h
        exact absurd List.mem_cons_self h
    constructor
    · intro node
      rw [nodes]
      dsimp only
      rw [insertnodeHead]
      cases htype : tonodetype head with
      | arcName =>
        dsimp only
        split
        · rfl
        · exact hrest.insertname_inner head node
      | arcRecur =>
        rw [hrecur htype]
        rfl
      | arcWild =>
        dsimp only
        split
        · rfl
        · exact hrest.insertwild_inner node
    · intro node
      rw [nodes]
      dsimp only
      rw [erasenodeHead]
      cases htype : tonodetype head with
      | arcName =>
        dsimp only
        split
        · rfl
        · exact hrest.erasename_inner head node
      | arcRecur =>
        rw [hrecur htype]
        rfl
      | arcWild =>
        dsimp only
        split
        · rfl
        · exact hrest.erasewild_inner node

/-- Two trees give the same answers, now and behind any further calls. -/
def Outer.Alike (root other : Outer) : Prop :=
  ∀ calls, (∀ path, (root.after calls).query path = (other.after calls).query path ∧
    (root.after calls).ismatch path = (other.after calls).ismatch path) ∧
    ∀ s, (root.after calls).ismatchPath s = (other.after calls).ismatchPath s

theorem Outer.Alike.refl (root : Outer) : root.Alike root := fun _ => ⟨fun _ => ⟨rfl, rfl⟩, fun _ => rfl⟩

/-- What is thrown from below the root leaves the root as it was, but for its inner node. -/
theorem Outer.thrown_iff {root : Outer} {walk : Walk} {outcome : Outcome Inner} (h : Tells walk root.inner outcome)
    (hthrown : outcome.thrown = true) : Outer.mk root.match_ outcome.node = root ↔ walk = .stops := by
  obtain ⟨m, below⟩ := root
  rw [h.stops]
  apply Iff.intro
  · intro heq
    have hnode : outcome.node = below := (Outer.mk.inj heq).2
    rw [← hthrown, ← hnode]
    rfl
  · intro heq
    rw [heq]
    rfl

/-- For any tree, a call of `insert` or `erase` that throws leaves the tree as it was if and only if its path
underflows or the walk comes to the wrong component before anything is changed, and then all later answers are
those without the call. -/
theorem rejected_iff (root : Outer) (call : Call) (h : (root.call call).thrown = true) :
    ((root.call call).node = root ↔ call.stopped root = true) ∧
      (call.stopped root = true → (root.call call).node.Alike root) := by
  have hiff : (root.call call).node = root ↔ call.stopped root = true := by
    cases call with
    | insert s =>
      rw [Outer.call] at h ⊢
      cases hsplit : splitpath s with
      | none => simp [Call.stopped, hsplit]
      | some path =>
        rw [hsplit] at h
        cases path with
        | nil => cases h
        | cons head path =>
          have hthrown : ((nodes (head :: path)).insertnode root.inner).thrown = true := h
          by_cases hwrong : Wrong (head :: path)
          · have htells := (survey_tells hwrong).insertnode root.inner
            have hstopped : Call.stopped root (.insert s) = decide ((survey (head :: path)).insertnode root.inner = .stops) := by
              rw [Call.stopped, hsplit]
            rw [hstopped, decide_eq_true_iff, ← Outer.thrown_iff htells hthrown]
            dsimp only
            rw [Outer.insert, hthrown, if_pos (.inl rfl)]
          · rw [(returns_of_not_wrong hwrong).insertnode] at hthrown
            cases hthrown
    | erase s =>
      rw [Outer.call] at h ⊢
      cases hsplit : splitpath s with
      | none => simp [Call.stopped, hsplit]
      | some path =>
        rw [hsplit] at h
        cases path with
        | nil => cases h
        | cons head path =>
          have hthrown : ((nodes (head :: path)).erasenode root.inner).thrown = true := h
          by_cases hwrong : Wrong (head :: path)
          · have htells := (survey_tells hwrong).erasenode root.inner
            have hstopped : Call.stopped root (.erase s) = decide ((survey (head :: path)).erasenode root.inner = .stops) := by
              rw [Call.stopped, hsplit]
            rw [hstopped, decide_eq_true_iff, ← Outer.thrown_iff htells hthrown]
            dsimp only
            rw [Outer.erase, Outcome.map]
          · rw [(returns_of_not_wrong hwrong).erasenode] at hthrown
            cases hthrown
  apply And.intro hiff
  intro hstopped
  rw [hiff.mpr hstopped]
  exact .refl root

/-- To insert the components "a", "-" and "c" into a tree with the path "a/b" throws, and all answers stay as they
are. -/
theorem rejected_iff_names : ((Outer.create.after [.insert [97, 47, 98]]).call (.insert [97, 47, 45, 47, 99])).node.Alike
    (Outer.create.after [.insert [97, 47, 98]]) :=
  (rejected_iff (Outer.create.after [.insert [97, 47, 98]]) (.insert [97, 47, 45, 47, 99]) (by decide +kernel)).2
    (by decide +kernel)

/-- To insert the components "*", "-" and "a" into a new tree throws, and then "a" is a match. -/
theorem rejected_visible : ¬∀ (calls : List Call) (call : Call), ((Outer.create.after calls).call call).thrown = true →
    ((Outer.create.after calls).call call).node.Alike (Outer.create.after calls) := by
  intro h
  have hthrown : ((Outer.create.after []).call (.insert [42, 47, 45, 47, 97])).thrown = true := by decide +kernel
  have hsame := ((h [] _ hthrown []).1 [[97]]).2
  revert hsame
  decide +kernel

end Aug.Subpp
