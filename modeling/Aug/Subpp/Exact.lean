import Aug.Subpp.Rejected
import Aug.Subpp.Views
import Mathlib.Data.List.Induction

/-!
# Subscriptions with exact erasures

As long as only paths of names are erased, a tree says of every path exactly what the calls come to: it includes the
path if and only if a pattern that it matches has been inserted since it was last erased. The exceptions of special
children are then trees of names only, and what is below a child for any name is never excluded.
-/

namespace Aug.Subpp

/-- The paths that a pattern stands for. -/
def Matches : List Name → List Name → Prop
  | [], q => q = []
  | head :: path, q =>
    match tonodetype head with
    | .arcName => Under head (Matches path) q
    | .arcRecur => q ≠ []
    | .arcWild => UnderAny (Matches path) q

/-- All components of the path are names. -/
def Plain (path : List Name) : Prop := ∀ name ∈ path, tonodetype name = .arcName

theorem not_matches_nil (head : Name) (path : List Name) : ¬Matches (head :: path) [] := by
  rw [Matches]
  cases tonodetype head with
  | arcName => exact id
  | arcRecur => exact fun h => h rfl
  | arcWild => exact id

/-- A path of names stands for itself. -/
theorem matches_plain : ∀ {path q : List Name}, Plain path → (Matches path q ↔ q = path)
  | [], _, _ => Iff.rfl
  | head :: path, q, h => by
    have hrest : Plain path := fun name hname => h name (List.mem_cons_of_mem _ hname)
    rw [Matches, h head List.mem_cons_self]
    cases q with
    | nil => exact iff_of_false id nofun
    | cons name q =>
      dsimp only [Under]
      rw [matches_plain hrest, List.cons.injEq]

/-! ## What is done to each node -/

section Calls

variable (path : List Name)

/-- The node of a name is inserted. -/
def insertcall (node : Outer) : Outcome (Option Outer) :=
  if path.isEmpty then .ok (some (node.setmatch .arcInclude)) else (node.insert (nodes path)).stays

/-- The node of any name is inserted. -/
def insertcallAny (node : Outer) : Outcome (Option Outer) :=
  if path.isEmpty then .ok (if node.depth = 0 then none else some (node.setmatch .arcInclude))
  else (node.insert (nodes path)).stays

/-- The node of a name is erased. -/
def erasecall (node : Outer) : Outcome (Option Outer) :=
  if path.isEmpty then (Outcome.ok (node.setmatch .arcExclude)).reaped else (node.erase (nodes path)).reaped

/-- The node of any name is erased. -/
def erasecallAny (node : Outer) : Outcome (Option Outer) :=
  if path.isEmpty then .ok (if node.depth = 0 then none else some (node.setmatch .arcExclude))
  else (node.erase (nodes path)).reaped

namespace Names

def inserts (head : Name) (names : Names) : Names := ((names.ensure head).visit head (insertcall path)).node

def insertsAny (names : Names) : Names := (names.visitAll (insertcallAny path)).node

def erases (head : Name) (names : Names) : Names := (names.visit head (erasecall path)).node

def erasesAny (names : Names) : Names := (names.visitAll (erasecallAny path)).node

end Names

/-- A special child behind an insertion of a name. -/
def Special.inserts (head : Name) : Special → Special
  | null => null
  | wild (.mk m wildchild exnames) => wild (.mk m wildchild (exnames.erases path head))
  | recur (.mk m exnames exwild) => recur (.mk m (exnames.erases path head) exwild)

/-- A special child behind an erasure of a name. -/
def Special.erases (head : Name) : Special → Special
  | null => null
  | wild (.mk m wildchild exnames) => wild (.mk m wildchild (exnames.inserts path head))
  | recur (.mk m exnames exwild) => recur (.mk m (exnames.inserts path head) exwild)

/-- The exceptions for any name behind an insertion for any name. -/
def Wild.erasesAny : Wild → Wild
  | mk m wildchild exnames => mk (if path.isEmpty then .arcExclude else m) ((nodes path).erasenode wildchild).node
      (exnames.insertsAny path)

/-- A special child behind an insertion for any name. -/
def Special.insertsAny : Special → Special
  | null => null
  | wild (.mk m wildchild exnames) =>
    wild (.mk (if path.isEmpty ∨ m = .arcInclude then .arcInclude else .arcTransit)
      ((nodes path).insertnode wildchild).node (exnames.erasesAny path))
  | recur (.mk m exnames exwild) => recur (.mk m (exnames.erasesAny path) (exwild.erasesAny path))

end Calls

variable {head : Name} {path : List Name}

/-- Two calls, the first of which returns. -/
theorem both_node {α β γ : Type} {mk : α → β → γ} {first : Outcome α} {old : β} {second : Outcome β}
    (h : first.thrown = false) : (Outcome.both mk first old second).node = mk first.node second.node := by
  rw [Outcome.both, h]
  rfl

theorem eq_ok {α : Type} {outcome : Outcome α} (h : outcome.thrown = false) : outcome = .ok outcome.node := by
  cases outcome
  cases h
  rfl

/-- A pattern with a component behind "-" is wrong. -/
theorem empty_of_arcRecur (h : ¬Wrong (head :: path)) (hrecur : tonodetype head = .arcRecur) : path = [] := by
  cases path with
  | nil => rfl
  | cons next path =>
    rw [tonodetype_eq_arcRecur hrecur, Wrong, List.dropLast_cons_cons] at h
    exact absurd List.mem_cons_self h

/-- What an insertion leaves of a node. -/
theorem insertnode_eq (h : ¬Wrong (head :: path)) (names : Names) (special : Special) :
    ((nodes (head :: path)).insertnode (.mk names special)).node =
      match tonodetype head with
      | .arcName => .mk (names.inserts path head) (special.inserts path head)
      | .arcRecur => .mk .nil (.recur special.orRecur.insertrecur)
      | .arcWild => .mk (names.insertsAny path) (special.orWild.insertsAny path) := by
  have hrest := returns_of_not_wrong fun hwrong => h (wrong_of_wrong hwrong)
  rw [nodes]
  dsimp only
  rw [insertnodeHead]
  cases htype : tonodetype head with
  | arcName =>
    cases path with
    | nil =>
      cases special with
      | null => rfl
      | wild node =>
        cases node
        rfl
      | recur node =>
        cases node
        rfl
    | cons next path =>
      have hnames := hrest.insertname_names head names
      dsimp only [List.isEmpty_cons]
      rw [if_neg Bool.false_ne_true, Inner.insertnameRest, both_node hnames]
      cases special with
      | null => rfl
      | wild node =>
        cases node
        rfl
      | recur node =>
        cases node
        rfl
  | arcRecur =>
    obtain rfl := empty_of_arcRecur h htype
    rfl
  | arcWild =>
    cases path with
    | nil =>
      cases special with
      | null => rfl
      | wild node =>
        cases node
        rfl
      | recur node =>
        obtain ⟨m, exnames, exwild⟩ := node
        cases exwild
        rfl
    | cons next path =>
      have hnames := hrest.insertwild_names names
      dsimp only [List.isEmpty_cons]
      rw [if_neg Bool.false_ne_true, Inner.insertwildRest, both_node hnames]
      have hwild (node : Wild) : (Special.call (Wild.insertwildRest (nodes (next :: path)))
          (Recur.insertwildRest (nodes (next :: path))) (.wild node)).node =
          (Special.wild node).insertsAny (next :: path) := by
        obtain ⟨m, wildchild, exnames⟩ := node
        rw [Special.call, Outcome.map, Wild.insertwildRest, both_node (hrest.insertnode wildchild)]
        cases m <;> rfl
      cases special with
      | null => exact congrArg (Inner.mk _) (hwild .create)
      | wild node => exact congrArg (Inner.mk _) (hwild node)
      | recur node =>
        obtain ⟨m, exnames, exwild⟩ := node
        obtain ⟨em, exchild, exexnames⟩ := exwild
        apply congrArg (Inner.mk _)
        rw [Special.orWild, Special.call, Outcome.map, Recur.insertwildRest,
          both_node (hrest.erasewild_names exnames), Wild.erasewildRest, both_node (hrest.erasenode exchild)]
        · rfl
        · simp

/-- What an erasure of a name leaves of a node. -/
theorem erasenode_eq (h : ¬Wrong (head :: path)) (names : Names) (special : Special)
    (hname : tonodetype head = .arcName) :
    ((nodes (head :: path)).erasenode (.mk names special)).node =
      .mk (names.erases path head) (Special.reaped (.ok (special.erases path head))).node := by
  have hrest := returns_of_not_wrong fun hwrong => h (wrong_of_wrong hwrong)
  rw [nodes]
  dsimp only
  rw [erasenodeHead, hname]
  cases path with
  | nil =>
    cases special with
    | null => rfl
    | wild node =>
      cases node
      rfl
    | recur node =>
      cases node
      rfl
  | cons next path =>
    have hnames := hrest.erasename_names head names
    dsimp only [List.isEmpty_cons]
    rw [if_neg Bool.false_ne_true, Inner.erasenameRest, both_node hnames]
    apply congrArg (Inner.mk _)
    have hcall : special.call (Wild.erasenameRest (nodes (next :: path)) head)
        (Recur.erasenameRest (nodes (next :: path)) head) = .ok (special.erases (next :: path) head) := by
      cases special with
      | null => rfl
      | wild node =>
        obtain ⟨m, wildchild, exnames⟩ := node
        rw [Special.call, Wild.erasenameRest, eq_ok (hrest.insertname_names head exnames)]
        rfl
      | recur node =>
        obtain ⟨m, exnames, exwild⟩ := node
        rw [Special.call, Recur.erasenameRest, eq_ok (hrest.insertname_names head exnames)]
        rfl
    rw [hcall]

/-- What an erasure leaves of a node without a special child. -/
theorem erasenode_bare (h : ¬Wrong (head :: path)) (names : Names) :
    ((nodes (head :: path)).erasenode (.mk names .null)).node =
      match tonodetype head with
      | .arcName => .mk (names.erases path head) .null
      | .arcRecur => .mk .nil .null
      | .arcWild => .mk (names.erasesAny path) .null := by
  cases htype : tonodetype head with
  | arcName => exact erasenode_eq h names .null htype
  | arcRecur =>
    obtain rfl := empty_of_arcRecur h htype
    rw [nodes]
    dsimp only
    rw [erasenodeHead, htype]
    rfl
  | arcWild =>
    have hrest := returns_of_not_wrong fun hwrong => h (wrong_of_wrong hwrong)
    rw [nodes]
    dsimp only
    rw [erasenodeHead, htype]
    cases path with
    | nil => rfl
    | cons next path =>
      dsimp only [List.isEmpty_cons]
      rw [if_neg Bool.false_ne_true, Inner.erasewildRest, both_node (hrest.erasewild_names names)]
      rfl

/-! ## Names -/

/-- An insertion does to the nodes of a class what it is meant to do. -/
structure Inserts (I : Inner → Prop) (path : List Name) : Prop where
  keeps : ∀ node, I node → I ((nodes path).insertnode node).node
  grows : ∀ node, I node → Grows (Matches path) node.view ((nodes path).insertnode node).node.view
  includes : path ≠ [] → ∀ node, I node → ∀ q, Matches path q →
    ((nodes path).insertnode node).node.view q = .arcInclude

/-- An erasure does to the nodes of a class what it is meant to do. -/
structure Erases (I : Inner → Prop) (path : List Name) : Prop where
  keeps : ∀ node, I node → I ((nodes path).erasenode node).node
  shrinks : ∀ node, I node → Shrinks (Matches path) node.view ((nodes path).erasenode node).node.view

theorem reaped_mem {outcome : Outcome Outer} {kept : Outer} (h : kept ∈ outcome.reaped.node) :
    outcome.node = kept := by
  rw [Outcome.reaped, Outcome.map] at h
  dsimp only at h
  split_ifs at h
  · cases h
  · exact Option.some.inj h

/-- An outer node with an inner node of the class. -/
def Outer.Holds (I : Inner → Prop) (node : Outer) : Prop := I node.inner

section Nodes

variable {I : Inner → Prop}

theorem inserts_nil (I : Inner → Prop) : Inserts I [] where
  keeps _ h := h
  grows node _ q := by
    cases q with
    | nil => exact Grown.nothing _
    | cons name q =>
      simp only [Matches, reduceCtorEq]
      exact Grown.refl _
  includes h := absurd rfl h

theorem erases_nil (I : Inner → Prop) : Erases I [] where
  keeps _ h := h
  shrinks node _ q := by
    cases q with
    | nil => exact Shrunk.nothing _
    | cons name q =>
      simp only [Matches, reduceCtorEq]
      exact Shrunk.refl _

namespace Inserts

variable (h : Inserts I path) (hreturns : (nodes path).Returns)
include h

theorem insertcall_keeps (node : Outer) (hnode : node.Holds I) :
    ∀ kept ∈ (insertcall path node).node, kept.Holds I := by
  intro kept hkept
  rw [insertcall] at hkept
  split_ifs at hkept
  · cases hkept
    exact hnode
  · cases hkept
    exact h.keeps node.inner hnode

theorem insertcallAny_keeps (node : Outer) (hnode : node.Holds I) :
    ∀ kept ∈ (insertcallAny path node).node, kept.Holds I := by
  intro kept hkept
  rw [insertcallAny] at hkept
  split_ifs at hkept
  · cases hkept
  · cases hkept
    exact hnode
  · cases hkept
    exact h.keeps node.inner hnode

include hreturns

theorem insert_node (node : Outer) (hnode : node.Holds I) (hpath : path ≠ []) :
    Grows (Matches path) node.view (node.insert (nodes path)).node.view := by
  apply Outer.insert_grows (hreturns.insertnode node.inner)
  · cases path with
    | nil => exact absurd rfl hpath
    | cons head path => exact not_matches_nil head path
  · exact h.grows node.inner hnode

theorem insertcall_grows (node : Outer) (hnode : node.Holds I) (q : List Name) :
    Grown (Matches path q) (node.query q) (seen (insertcall path node).node q) := by
  rw [insertcall]
  split_ifs with hpath
  · rw [List.isEmpty_iff] at hpath
    subst hpath
    exact Outer.setmatch_grows node q
  · rw [List.isEmpty_iff] at hpath
    exact h.insert_node hreturns node hnode hpath q

theorem insertcallAny_grows (node : Outer) (hnode : node.Holds I) (q : List Name) :
    Grown (Matches path q) (node.query q) (seen (insertcallAny path node).node q) := by
  rw [insertcallAny]
  by_cases hpath : path = []
  · subst hpath
    exact clear_grows node q
  · rw [if_neg (by rwa [List.isEmpty_iff])]
    exact h.insert_node hreturns node hnode hpath q

omit hreturns in
theorem insertcall_includes (node : Outer) (hnode : node.Holds I) (q : List Name) (hq : Matches path q) :
    seen (insertcall path node).node q = .arcInclude := by
  cases path with
  | nil =>
    have hnil : q = [] := hq
    rw [hnil]
    rfl
  | cons head path =>
    cases q with
    | nil => exact absurd hq (not_matches_nil head path)
    | cons name q => exact h.includes (List.cons_ne_nil head path) node.inner hnode (name :: q) hq

end Inserts

namespace Erases

variable (h : Erases I path)
include h

theorem erasecall_keeps (node : Outer) (hnode : node.Holds I) :
    ∀ kept ∈ (erasecall path node).node, kept.Holds I := by
  intro kept hkept
  rw [erasecall] at hkept
  split_ifs at hkept
  · cases reaped_mem hkept
    exact hnode
  · cases reaped_mem hkept
    exact h.keeps node.inner hnode

theorem erasecallAny_keeps (node : Outer) (hnode : node.Holds I) :
    ∀ kept ∈ (erasecallAny path node).node, kept.Holds I := by
  intro kept hkept
  rw [erasecallAny] at hkept
  split_ifs at hkept
  · cases hkept
  · cases hkept
    exact hnode
  · cases reaped_mem hkept
    exact h.keeps node.inner hnode

theorem erase_node (node : Outer) (hnode : node.Holds I) (hpath : path ≠ []) :
    Shrinks (Matches path) node.view (node.erase (nodes path)).node.view := by
  apply Outer.erase_shrinks
  · cases path with
    | nil => exact absurd rfl hpath
    | cons head path => exact not_matches_nil head path
  · exact h.shrinks node.inner hnode

theorem erasecall_shrinks (node : Outer) (hnode : node.Holds I) (q : List Name) :
    Shrunk (Matches path q) (node.query q) (seen (erasecall path node).node q) := by
  rw [erasecall]
  by_cases hpath : path = []
  · subst hpath
    have hset : Shrinks (Matches []) node.view (Outcome.ok (node.setmatch .arcExclude)).node.view :=
      Outer.setmatch_shrinks node
    exact reaped_shrinks hset q
  · rw [if_neg (by rwa [List.isEmpty_iff])]
    exact reaped_shrinks (h.erase_node node hnode hpath) q

theorem erasecallAny_shrinks (node : Outer) (hnode : node.Holds I) (q : List Name) :
    Shrunk (Matches path q) (node.query q) (seen (erasecallAny path node).node q) := by
  rw [erasecallAny]
  by_cases hpath : path = []
  · subst hpath
    exact clear_shrinks node q
  · rw [if_neg (by rwa [List.isEmpty_iff])]
    exact reaped_shrinks (h.erase_node node hnode hpath) q

end Erases

namespace Names

variable {names : Names}

/-- The insertion of a name. -/
theorem inserts_spec (head : Name) (h : Inserts I path) (hreturns : (nodes path).Returns) (hnew : I .create)
    (hnames : names.Each (Outer.Holds I)) :
    (names.inserts path head).Each (Outer.Holds I) ∧
      Grows (Under head (Matches path)) names.view (names.inserts path head).view ∧
      ∀ q, Under head (Matches path) q → (names.inserts path head).view q = .arcInclude := by
  have heach : (names.ensure head).Each (Outer.Holds I) := hnames.ensure hnew head
  refine ⟨heach.visit h.insertcall_keeps head, ?_, ?_⟩
  · intro q
    rw [← view_ensure head names]
    exact view_visit Grown.refl Grown.nothing heach (h.insertcall_grows hreturns) q
  · intro q hq
    cases q with
    | nil => exact hq.elim
    | cons name q =>
      obtain ⟨rfl, hq⟩ := hq
      have hnode : (names.ensure name).find name = some ((names.find name).getD .create) := by
        rw [find_ensure, if_pos rfl]
      rw [view_cons, inserts, find_visit name heach, if_pos rfl, hnode]
      exact h.insertcall_includes _ (heach.find hnode) q hq

/-- The insertion of all names. -/
theorem insertsAny_spec (h : Inserts I path) (hreturns : (nodes path).Returns) (hnames : names.Each (Outer.Holds I)) :
    (names.insertsAny path).Each (Outer.Holds I) ∧
      Grows (UnderAny (Matches path)) names.view (names.insertsAny path).view := by
  have hthrown : ∀ node, (insertcallAny path node).thrown = false := by
    intro node
    rw [insertcallAny]
    split
    · rfl
    · exact hreturns.insertnode node.inner
  exact ⟨hnames.visitAll hthrown h.insertcallAny_keeps,
    view_visitAll Grown.refl Grown.nothing hnames hthrown (h.insertcallAny_grows hreturns)⟩

/-- The erasure of a name. -/
theorem erases_spec (head : Name) (h : Erases I path) (hnames : names.Each (Outer.Holds I)) :
    (names.erases path head).Each (Outer.Holds I) ∧
      Shrinks (Under head (Matches path)) names.view (names.erases path head).view :=
  ⟨hnames.visit h.erasecall_keeps head, view_visit Shrunk.refl Shrunk.nothing hnames h.erasecall_shrinks⟩

/-- The erasure of all names. -/
theorem erasesAny_spec (h : Erases I path) (hreturns : (nodes path).Returns) (hnames : names.Each (Outer.Holds I)) :
    (names.erasesAny path).Each (Outer.Holds I) ∧
      Shrinks (UnderAny (Matches path)) names.view (names.erasesAny path).view := by
  have hthrown : ∀ node, (erasecallAny path node).thrown = false := by
    intro node
    rw [erasecallAny]
    split
    · rfl
    · exact hreturns.erasenode node.inner
  exact ⟨hnames.visitAll hthrown h.erasecallAny_keeps,
    view_visitAll Shrunk.refl Shrunk.nothing hnames hthrown h.erasecallAny_shrinks⟩

end Names

end Nodes

/-! ## Trees of names -/

mutual

/-- Below the node there are names only, each of them once. -/
def Inner.Bare : Inner → Prop
  | .mk names special => names.Bare ∧ special = .null

def Outer.Bare : Outer → Prop
  | .mk _ inner => inner.Bare

def Names.Bare : Names → Prop
  | .nil => True
  | .cons name node rest => rest.find name = none ∧ node.Bare ∧ rest.Bare

end

theorem Outer.bare_iff {node : Outer} : node.Bare ↔ node.Holds Inner.Bare := by
  cases node
  exact Iff.rfl

theorem Names.bare_iff : ∀ {names : Names}, names.Bare ↔ names.Each (Outer.Holds Inner.Bare)
  | nil => Iff.rfl
  | cons name node rest => by
    rw [Names.Bare, Names.Each, Outer.bare_iff, Names.bare_iff]

/-- What is asked of a node of names is asked of its names. -/
theorem view_bare (names : Names) : (Inner.mk names .null).view = names.view := by
  funext q
  rw [Inner.view, Inner.query_eq, Special.view]
  cases names.view q <;> rfl

/-- Any pattern can be erased from a tree of names. -/
theorem bare_erases : ∀ {path : List Name}, ¬Wrong path → Erases Inner.Bare path
  | [], _ => erases_nil _
  | head :: path, h => by
    have hwrong : ¬Wrong path := fun hwrong => h (wrong_of_wrong hwrong)
    have hrest := bare_erases hwrong
    have hspec (node : Inner) (hnode : node.Bare) : ((nodes (head :: path)).erasenode node).node.Bare ∧
        Shrinks (Matches (head :: path)) node.view ((nodes (head :: path)).erasenode node).node.view := by
      obtain ⟨names, special⟩ := node
      obtain ⟨hnames, rfl⟩ := hnode
      rw [Names.bare_iff] at hnames
      have hmatches : Matches (head :: path) = _ := funext fun q => Matches.eq_2 q head path
      rw [erasenode_bare h, hmatches]
      cases htype : tonodetype head with
      | arcName =>
        obtain ⟨hkeeps, hshrinks⟩ := Names.erases_spec head hrest hnames
        dsimp only
        rw [view_bare, view_bare]
        exact ⟨⟨Names.bare_iff.mpr hkeeps, rfl⟩, hshrinks⟩
      | arcRecur =>
        apply And.intro ⟨trivial, rfl⟩
        intro q
        cases q with
        | nil => exact ⟨nofun, nofun, nofun⟩
        | cons name q => exact ⟨nofun, fun _ hnot => absurd (List.cons_ne_nil name q) hnot, nofun⟩
      | arcWild =>
        obtain ⟨hkeeps, hshrinks⟩ := Names.erasesAny_spec hrest (returns_of_not_wrong hwrong) hnames
        dsimp only
        rw [view_bare, view_bare]
        exact ⟨⟨Names.bare_iff.mpr hkeeps, rfl⟩, hshrinks⟩
    exact ⟨fun node hnode => (hspec node hnode).1, fun node hnode => (hspec node hnode).2⟩

theorem not_wrong_of_plain (h : Plain path) : ¬Wrong path := by
  intro hwrong
  have hrecur := h _ (List.dropLast_subset path hwrong)
  cases hrecur

/-- Names can be inserted into a tree of names. -/
theorem bare_inserts : ∀ {path : List Name}, Plain path → Inserts Inner.Bare path
  | [], _ => inserts_nil _
  | head :: path, h => by
    have hplain : Plain path := fun name hname => h name (List.mem_cons_of_mem _ hname)
    have hspec (node : Inner) (hnode : node.Bare) : ((nodes (head :: path)).insertnode node).node.Bare ∧
        Grows (Matches (head :: path)) node.view ((nodes (head :: path)).insertnode node).node.view ∧
        ∀ q, Matches (head :: path) q → ((nodes (head :: path)).insertnode node).node.view q = .arcInclude := by
      obtain ⟨names, special⟩ := node
      obtain ⟨hnames, rfl⟩ := hnode
      rw [Names.bare_iff] at hnames
      obtain ⟨hkeeps, hgrows, hincludes⟩ := Names.inserts_spec head (bare_inserts hplain)
        (returns_of_not_wrong (not_wrong_of_plain hplain)) ⟨trivial, rfl⟩ hnames
      have hmatches : Matches (head :: path) = Under head (Matches path) := by
        funext q
        rw [Matches, h head List.mem_cons_self]
      rw [insertnode_eq (not_wrong_of_plain h), hmatches, h head List.mem_cons_self]
      dsimp only [Special.inserts]
      rw [view_bare, view_bare]
      exact ⟨⟨Names.bare_iff.mpr hkeeps, rfl⟩, hgrows, hincludes⟩
    exact ⟨fun node hnode => (hspec node hnode).1, fun node hnode => (hspec node hnode).2.1,
      fun _ node hnode => (hspec node hnode).2.2⟩

/-! ## Trees with exact erasures -/

/-- Exceptions for any name that make no difference. -/
def Wild.Idle : Wild → Prop
  | mk match_ wildchild exnames => match_ ≠ .arcInclude ∧ wildchild = .create ∧ exnames = .nil

def Recur.Exact : Recur → Prop
  | mk match_ exnames exwild => match_ = .arcInclude ∧ exnames.Bare ∧ exwild.Idle

mutual

/-- The exceptions below the node are names only, and no part of it contradicts another. -/
def Inner.Exact : Inner → Prop
  | .mk names special => names.Exact ∧ special.Exact ∧ ∀ q, Agree (names.view q) (special.view q)

def Outer.Exact : Outer → Prop
  | .mk _ inner => inner.Exact

def Names.Exact : Names → Prop
  | .nil => True
  | .cons name node rest => rest.find name = none ∧ node.Exact ∧ rest.Exact

def Special.Exact : Special → Prop
  | .null => True
  | .wild wild => wild.Exact
  | .recur recur => recur.Exact

def Wild.Exact : Wild → Prop
  | .mk match_ wildchild exnames =>
    match_ ≠ .arcExclude ∧ wildchild.Exact ∧ (∀ q, wildchild.view q ≠ .arcExclude) ∧ exnames.Bare

end

theorem Outer.exact_iff {node : Outer} : node.Exact ↔ node.Holds Inner.Exact := by
  cases node
  exact Iff.rfl

theorem Names.exact_iff : ∀ {names : Names}, names.Exact ↔ names.Each (Outer.Holds Inner.Exact)
  | nil => Iff.rfl
  | cons name node rest => by
    rw [Names.Exact, Names.Each, Outer.exact_iff, Names.exact_iff]

theorem Inner.create_exact : Inner.create.Exact := ⟨trivial, trivial, fun _ => (Agree.nothing _).symm⟩

theorem idle_create : Wild.create.Idle := ⟨nofun, rfl, rfl⟩

theorem Wild.Idle.view {node : Wild} (h : node.Idle) (q : List Name) : node.view q ≠ .arcInclude := by
  obtain ⟨m, wildchild, exnames⟩ := node
  obtain ⟨hm, rfl, rfl⟩ := h
  cases q with
  | nil => nofun
  | cons name q =>
    cases q with
    | nil => exact hm
    | cons next q => nofun

/-- Nothing is erased below exceptions that make no difference. -/
theorem Wild.Idle.erasesAny {node : Wild} (hwrong : ¬Wrong path) (h : node.Idle) : (node.erasesAny path).Idle := by
  obtain ⟨m, wildchild, exnames⟩ := node
  obtain ⟨hm, rfl, rfl⟩ := h
  refine ⟨?_, ?_, rfl⟩
  · split_ifs
    · nofun
    · exact hm
  · cases path with
    | nil => rfl
    | cons head path =>
      rw [Inner.create, erasenode_bare hwrong]
      cases tonodetype head <;> rfl

/-- What a recursive child says for a path that is not empty. -/
theorem Recur.Exact.view {m : Match} {exnames : Names} {exwild : Wild} (h : (Recur.mk m exnames exwild).Exact)
    (name : Name) (q : List Name) :
    (Recur.mk m exnames exwild).view (name :: q) = masked (exnames.view (name :: q)) .arcInclude := by
  rw [Recur.view, h.1, masked.eq_def (exwild.view (name :: q)), if_neg (h.2.2.view _)]

/-- The child for any name does not exclude anything by itself. -/
theorem Wild.Exact.open_ {m : Match} {wildchild : Inner} {exnames : Names} (h : (Wild.mk m wildchild exnames).Exact)
    (q : List Name) : (Outer.mk m wildchild).query q ≠ .arcExclude := by
  cases q with
  | nil => exact h.1
  | cons name q => exact h.2.2.1 (name :: q)

/-- An answer that stays, and does not exclude. -/
theorem Grown.same {meant : Prop} {answer : Match} (h : answer ≠ .arcExclude) : Grown meant answer answer :=
  ⟨fun hexclude => absurd hexclude h, .inl, fun hinclude _ => hinclude⟩

/-- What is meant is no exception any more. -/
theorem Shrunk.masked_includes {meant : Prop} {a a' b : Match} (h : Shrunk meant a a') (hb : b = .arcInclude)
    (hmeant : meant) : Subpp.masked a' b = .arcInclude := by
  rw [Subpp.masked, if_neg fun hafter => (h.include_ hafter).2 hmeant, hb]

namespace Special

variable {special : Special}

/-- The insertion of a name erases exceptions. -/
theorem inserts_spec (head : Name) (h : Subpp.Erases Inner.Bare path) (hspecial : special.Exact) :
    (special.inserts path head).Exact ∧
      Grows (Under head (Matches path)) special.view (special.inserts path head).view := by
  cases special with
  | null =>
    apply And.intro hspecial
    intro q
    exact Grown.nothing _
  | wild node =>
    obtain ⟨m, wildchild, exnames⟩ := node
    have hopen := Wild.Exact.open_ hspecial
    obtain ⟨hm, hchild, hbelow, hexnames⟩ := hspecial
    obtain ⟨hkeeps, hshrinks⟩ := Names.erases_spec head h (Names.bare_iff.mp hexnames)
    apply And.intro ⟨hm, hchild, hbelow, Names.bare_iff.mpr hkeeps⟩
    intro q
    cases q with
    | nil => exact Grown.nothing _
    | cons name q => exact Grown.masked (hshrinks (name :: q)) (Grown.same (hopen q)) (hopen q)
  | recur node =>
    obtain ⟨m, exnames, exwild⟩ := node
    obtain ⟨hm, hexnames, hidle⟩ := id hspecial
    obtain ⟨hkeeps, hshrinks⟩ := Names.erases_spec head h (Names.bare_iff.mp hexnames)
    have hafter : (Recur.mk m (exnames.erases path head) exwild).Exact := ⟨hm, Names.bare_iff.mpr hkeeps, hidle⟩
    apply And.intro hafter
    intro q
    cases q with
    | nil => exact Grown.nothing _
    | cons name q =>
      rw [Special.inserts, Special.view, Special.view, Recur.Exact.view hspecial, Recur.Exact.view hafter]
      exact Grown.masked (hshrinks (name :: q)) (Grown.same (by decide)) (by decide)

/-- The erasure of a name inserts exceptions. -/
theorem erases_spec (head : Name) (h : Subpp.Inserts Inner.Bare path) (hreturns : (nodes path).Returns)
    (hspecial : special.Exact) : (special.erases path head).Exact ∧
      Shrinks (Under head (Matches path)) special.view (special.erases path head).view := by
  cases special with
  | null =>
    apply And.intro hspecial
    intro q
    exact Shrunk.nothing _
  | wild node =>
    obtain ⟨m, wildchild, exnames⟩ := node
    obtain ⟨hm, hchild, hbelow, hexnames⟩ := hspecial
    obtain ⟨hkeeps, hgrows, hincludes⟩ :=
      Names.inserts_spec head h hreturns ⟨trivial, rfl⟩ (Names.bare_iff.mp hexnames)
    apply And.intro ⟨hm, hchild, hbelow, Names.bare_iff.mpr hkeeps⟩
    intro q
    cases q with
    | nil => exact Shrunk.nothing _
    | cons name q => exact Shrunk.masked (hgrows (name :: q)) (hincludes (name :: q))
  | recur node =>
    obtain ⟨m, exnames, exwild⟩ := node
    obtain ⟨hm, hexnames, hidle⟩ := id hspecial
    obtain ⟨hkeeps, hgrows, hincludes⟩ :=
      Names.inserts_spec head h hreturns ⟨trivial, rfl⟩ (Names.bare_iff.mp hexnames)
    have hafter : (Recur.mk m (exnames.inserts path head) exwild).Exact := ⟨hm, Names.bare_iff.mpr hkeeps, hidle⟩
    apply And.intro hafter
    intro q
    cases q with
    | nil => exact Shrunk.nothing _
    | cons name q =>
      rw [Special.erases, Special.view, Special.view, Recur.Exact.view hspecial, Recur.Exact.view hafter]
      exact Shrunk.masked (hgrows (name :: q)) (hincludes (name :: q))

/-- A child for any name behind the insertion of all names. -/
theorem wild_insertsAny {m : Match} {wildchild : Inner} {exnames : Names} (hexcept : Subpp.Erases Inner.Bare path)
    (h : Subpp.Inserts Inner.Exact path) (hreturns : (nodes path).Returns)
    (hspecial : (Wild.mk m wildchild exnames).Exact) :
    ((wild (.mk m wildchild exnames)).insertsAny path).Exact ∧
      Grows (UnderAny (Matches path)) (wild (.mk m wildchild exnames)).view
        ((wild (.mk m wildchild exnames)).insertsAny path).view ∧
      ∀ q, UnderAny (Matches path) q → ((wild (.mk m wildchild exnames)).insertsAny path).view q = .arcInclude := by
  have hopen := hspecial.open_
  obtain ⟨hm, hchild, hbelow, hexnames⟩ := hspecial
  obtain ⟨hkeeps, hshrinks⟩ := Names.erasesAny_spec hexcept hreturns (Names.bare_iff.mp hexnames)
  have hcall : some (Outer.mk (if path.isEmpty ∨ m = .arcInclude then .arcInclude else .arcTransit)
      ((nodes path).insertnode wildchild).node) = (insertcall path (.mk m wildchild)).node := by
    cases path with
    | nil => rfl
    | cons head path =>
      have hthrown : ((nodes (head :: path)).insertnode (Outer.mk m wildchild).inner).thrown = false :=
        hreturns.insertnode wildchild
      change _ = ((Outer.mk m wildchild).insert (nodes (head :: path))).stays.node
      rw [Outer.insert, hthrown]
      cases m <;> rfl
  have hafter : ((wild (.mk m wildchild exnames)).insertsAny path).Exact := by
    refine ⟨?_, h.keeps wildchild hchild, ?_, Names.bare_iff.mpr hkeeps⟩
    · split_ifs <;> decide
    · exact fun q hexclude => hbelow q ((h.grows wildchild hchild q).exclude hexclude).1
  have hgrows (q : List Name) := h.insertcall_grows hreturns (.mk m wildchild) hchild q
  have hincludes (q : List Name) := h.insertcall_includes (.mk m wildchild) hchild q
  rw [← hcall] at hgrows hincludes
  refine ⟨hafter, ?_, ?_⟩
  · intro q
    cases q with
    | nil => exact Grown.nothing _
    | cons name q => exact Grown.masked (hshrinks (name :: q)) (hgrows q) (Wild.Exact.open_ hafter q)
  · intro q hq
    cases q with
    | nil => exact hq.elim
    | cons name q => exact (hshrinks (name :: q)).masked_includes (hincludes q hq) hq

/-- The insertion of all names. -/
theorem insertsAny_spec (hwrong : ¬Wrong path) (hexcept : Subpp.Erases Inner.Bare path)
    (h : Subpp.Inserts Inner.Exact path) (hspecial : special.Exact) :
    (special.orWild.insertsAny path).Exact ∧
      Grows (UnderAny (Matches path)) special.view (special.orWild.insertsAny path).view ∧
      ∀ q, UnderAny (Matches path) q → (special.orWild.insertsAny path).view q = .arcInclude := by
  have hreturns := returns_of_not_wrong hwrong
  cases special with
  | null =>
    have hview : null.view = (wild .create).view := by
      funext q
      cases q with
      | nil => rfl
      | cons name q =>
        cases q <;> rfl
    rw [hview]
    apply wild_insertsAny hexcept h hreturns
    refine ⟨by decide, Inner.create_exact, ?_, trivial⟩
    intro q
    cases q <;> rintro ⟨⟩
  | wild node =>
    cases node
    exact wild_insertsAny hexcept h hreturns hspecial
  | recur node =>
    obtain ⟨m, exnames, exwild⟩ := node
    obtain ⟨hm, hexnames, hidle⟩ := id hspecial
    obtain ⟨hkeeps, hshrinks⟩ := Names.erasesAny_spec hexcept hreturns (Names.bare_iff.mp hexnames)
    have hafter : (Recur.mk m (exnames.erasesAny path) (exwild.erasesAny path)).Exact :=
      ⟨hm, Names.bare_iff.mpr hkeeps, hidle.erasesAny hwrong⟩
    refine ⟨hafter, ?_, ?_⟩
    · intro q
      cases q with
      | nil => exact Grown.nothing _
      | cons name q =>
        rw [Special.orWild, Special.insertsAny, Special.view, Special.view, Recur.Exact.view hspecial,
          Recur.Exact.view hafter]
        · exact Grown.masked (hshrinks (name :: q)) (Grown.same (by decide)) (by decide)
        · simp
    · intro q hq
      cases q with
      | nil => exact hq.elim
      | cons name q =>
        rw [Special.orWild, Special.insertsAny, Special.view, Recur.Exact.view hafter]
        · exact (hshrinks (name :: q)).masked_includes rfl hq
        · simp

end Special

/-- Any pattern can be inserted into a tree with exact erasures. -/
theorem exact_inserts : ∀ {path : List Name}, ¬Wrong path → Inserts Inner.Exact path
  | [], _ => inserts_nil _
  | head :: path, h => by
    have hwrong : ¬Wrong path := fun hwrong => h (wrong_of_wrong hwrong)
    have hreturns := returns_of_not_wrong hwrong
    have hrest := exact_inserts hwrong
    have hspec (node : Inner) (hnode : node.Exact) : ((nodes (head :: path)).insertnode node).node.Exact ∧
        ∀ q, Grown (Matches (head :: path) q) (node.view q) (((nodes (head :: path)).insertnode node).node.view q) ∧
          (Matches (head :: path) q → ((nodes (head :: path)).insertnode node).node.view q = .arcInclude) := by
      obtain ⟨names, special⟩ := node
      obtain ⟨hnames, hspecial, hagree⟩ := hnode
      rw [Names.exact_iff] at hnames
      have hmatches : Matches (head :: path) = _ := funext fun q => Matches.eq_2 q head path
      rw [insertnode_eq h, hmatches]
      cases htype : tonodetype head with
      | arcName =>
        obtain ⟨hkeeps, hgrows, hincludes⟩ := Names.inserts_spec head hrest hreturns Inner.create_exact hnames
        obtain ⟨hafter, hspecialgrows⟩ := Special.inserts_spec head (bare_erases hwrong) hspecial
        have hfold (q : List Name) :=
          Grown.fold (hagree q) (hgrows q) (hspecialgrows q) fun hq => .inl (hincludes q hq)
        apply And.intro ⟨Names.exact_iff.mpr hkeeps, hafter, fun q => (hfold q).1⟩
        intro q
        dsimp only
        rw [Inner.view, Inner.view, Inner.query_eq, Inner.query_eq]
        exact (hfold q).2
      | arcRecur =>
        have hrecur : special.orRecur.insertrecur = .mk .arcInclude .nil .create := by
          cases special.orRecur
          rfl
        have hafter (name : Name) (q : List Name) :
            (Inner.mk .nil (.recur (.mk .arcInclude .nil .create))).view (name :: q) = .arcInclude := by
          cases q <;> rfl
        dsimp only
        rw [hrecur]
        have hagree (q : List Name) :
            Agree (Names.nil.view q) ((Special.recur (.mk .arcInclude .nil .create)).view q) := by
          cases q with
          | nil => exact Agree.nothing _
          | cons name q => exact Agree.nothing _
        apply And.intro ⟨trivial, ⟨rfl, trivial, idle_create⟩, hagree⟩
        intro q
        cases q with
        | nil => exact ⟨Grown.nothing _, fun hq => absurd rfl hq⟩
        | cons name q =>
          rw [hafter]
          exact ⟨⟨by simp, fun _ => .inr (List.cons_ne_nil name q), fun _ _ => rfl⟩, fun _ => rfl⟩
      | arcWild =>
        obtain ⟨hkeeps, hgrows⟩ := Names.insertsAny_spec hrest hreturns hnames
        obtain ⟨hafter, hspecialgrows, hincludes⟩ :=
          Special.insertsAny_spec hwrong (bare_erases hwrong) hrest hspecial
        have hfold (q : List Name) :=
          Grown.fold (hagree q) (hgrows q) (hspecialgrows q) fun hq => .inr (hincludes q hq)
        apply And.intro ⟨Names.exact_iff.mpr hkeeps, hafter, fun q => (hfold q).1⟩
        intro q
        dsimp only
        rw [Inner.view, Inner.view, Inner.query_eq, Inner.query_eq]
        exact (hfold q).2
    exact ⟨fun node hnode => (hspec node hnode).1, fun node hnode q => ((hspec node hnode).2 q).1,
      fun _ node hnode q => ((hspec node hnode).2 q).2⟩

/-- Names can be erased from a tree with exact erasures. -/
theorem exact_erases : ∀ {path : List Name}, Plain path → Erases Inner.Exact path
  | [], _ => erases_nil _
  | head :: path, h => by
    have hplain : Plain path := fun name hname => h name (List.mem_cons_of_mem _ hname)
    have hhead := h head List.mem_cons_self
    have hreturns := returns_of_not_wrong (not_wrong_of_plain hplain)
    have hspec (node : Inner) (hnode : node.Exact) : ((nodes (head :: path)).erasenode node).node.Exact ∧
        Shrinks (Matches (head :: path)) node.view ((nodes (head :: path)).erasenode node).node.view := by
      obtain ⟨names, special⟩ := node
      obtain ⟨hnames, hspecial, hagree⟩ := hnode
      obtain ⟨hkeeps, hshrinks⟩ := Names.erases_spec head (exact_erases hplain) (Names.exact_iff.mp hnames)
      obtain ⟨hafter, hspecialshrinks⟩ := Special.erases_spec head (bare_inserts hplain) hreturns hspecial
      have hmatches : Matches (head :: path) = Under head (Matches path) := by
        funext q
        rw [Matches, hhead]
      have hreaped : Shrinks _ special.view (Special.reaped (.ok (special.erases path head))).node.view :=
        special_reaped_shrinks hspecialshrinks
      have hfold (q : List Name) := Shrunk.fold (hagree q) (hshrinks q) (hreaped q)
      rw [erasenode_eq (not_wrong_of_plain h) _ _ hhead, hmatches]
      refine ⟨⟨Names.exact_iff.mpr hkeeps, ?_, fun q => (hfold q).1⟩, ?_⟩
      · rw [Special.reaped, Outcome.map]
        dsimp only
        split_ifs
        · exact trivial
        · exact hafter
      · intro q
        rw [Inner.view, Inner.view, Inner.query_eq, Inner.query_eq]
        exact (hfold q).2
    exact ⟨fun node hnode => (hspec node hnode).1, fun node hnode => (hspec node hnode).2⟩

/-! ## Runs -/

namespace Call

/-- The components of the call. There are none for a path that is empty or underflows. -/
def components : Call → List Name
  | insert s => (splitpath s).getD []
  | erase s => (splitpath s).getD []

/-- The call inserts a pattern that the path matches. -/
def Adds (q : List Name) (call : Call) : Prop :=
  match call with
  | insert _ => call.components ≠ [] ∧ Matches call.components q
  | erase _ => False

/-- The call erases the path. -/
def Removes (q : List Name) (call : Call) : Prop :=
  match call with
  | insert _ => False
  | erase _ => call.components ≠ [] ∧ q = call.components

/-- A call that inserts a pattern or erases a path of names, or does nothing. -/
def Exact (call : Call) : Prop :=
  match call with
  | insert _ => ¬Wrong call.components
  | erase _ => Plain call.components

/-- What the call leaves of a tree, whether its path underflows or not. -/
theorem call_node (root : Outer) (call : Call) : (root.call call).node =
    match call with
    | insert _ => if call.components = [] then root else (root.insert (nodes call.components)).node
    | erase _ => if call.components = [] then root else (root.erase (nodes call.components)).node := by
  cases call with
  | insert s =>
    rw [Outer.call, components]
    cases splitpath s with
    | none => rfl
    | some path => cases path <;> rfl
  | erase s =>
    rw [Outer.call, components]
    cases splitpath s with
    | none => rfl
    | some path => cases path <;> rfl

end Call

/-- A pattern that the path matches has been inserted since the path was last erased. -/
def Subscribed (calls : List Call) (q : List Name) : Prop :=
  ∃ before call after, calls = before ++ call :: after ∧ call.Adds q ∧ ∀ later ∈ after, ¬later.Removes q

theorem not_subscribed_nil (q : List Name) : ¬Subscribed [] q := by
  intro h
  obtain ⟨before, call, after, heq, _⟩ := h
  cases before <;> cases heq

theorem subscribed_append (calls : List Call) (call : Call) (q : List Name) :
    Subscribed (calls ++ [call]) q ↔ call.Adds q ∨ Subscribed calls q ∧ ¬call.Removes q := by
  constructor
  · intro h
    obtain ⟨before, adding, after, heq, hadds, hafter⟩ := h
    induction after using List.reverseRecOn with
    | nil =>
      have hcall : call = adding := by simpa using congrArg List.getLast? heq
      rw [hcall]
      exact .inl hadds
    | append_singleton after last _ =>
      have hsplit : calls ++ [call] = before ++ adding :: after ++ [last] := by
        rw [heq, List.append_assoc, List.cons_append]
      obtain ⟨hcalls, hcall⟩ := List.append_inj' hsplit rfl
      rw [List.singleton_inj.mp hcall, hcalls]
      have hkept : ∀ later ∈ after, ¬later.Removes q :=
        fun later hlater => hafter later (List.mem_append_left _ hlater)
      have hlast : ¬last.Removes q := hafter last (List.mem_append_right _ (List.mem_singleton_self last))
      exact .inr ⟨⟨before, adding, after, rfl, hadds, hkept⟩, hlast⟩
  · intro h
    cases h with
    | inl hadds => exact ⟨calls, call, [], rfl, hadds, nofun⟩
    | inr h =>
      obtain ⟨⟨before, adding, after, rfl, hadds, hafter⟩, hnot⟩ := h
      refine ⟨before, adding, after ++ [call], by simp, hadds, ?_⟩
      intro later hlater
      cases List.mem_append.mp hlater with
      | inl h => exact hafter later h
      | inr h =>
        rw [List.mem_singleton.mp h]
        exact hnot

/-- One call on a tree with exact erasures. -/
theorem call_exact {root : Outer} (hroot : root.Holds Inner.Exact) {call : Call} (h : call.Exact) :
    (root.call call).node.Holds Inner.Exact ∧ ∀ q,
      ((root.call call).node.query q = .arcInclude ↔ call.Adds q ∨ root.query q = .arcInclude ∧ ¬call.Removes q) := by
  rw [Call.call_node]
  cases call with
  | insert s =>
    dsimp only [Call.Adds, Call.Removes]
    by_cases hempty : (Call.insert s).components = []
    · rw [if_pos hempty]
      exact ⟨hroot, fun q => by simp [hempty]⟩
    · have hinserts := exact_inserts h
      have hgrows := hinserts.insert_node (returns_of_not_wrong h) root hroot hempty
      rw [if_neg hempty]
      apply And.intro (hinserts.keeps root.inner hroot)
      intro q
      have hincludes (hmeant : Matches (Call.insert s).components q) :
          (root.insert (nodes (Call.insert s).components)).node.query q = .arcInclude := by
        have hcall := hinserts.insertcall_includes root hroot q hmeant
        rw [insertcall, if_neg (by rwa [List.isEmpty_iff])] at hcall
        exact hcall
      constructor
      · intro hafter
        cases (hgrows q).include_ hafter with
        | inl hbefore => exact .inr ⟨hbefore, id⟩
        | inr hmeant => exact .inl ⟨hempty, hmeant⟩
      · intro hone
        by_cases hmeant : Matches (Call.insert s).components q
        · exact hincludes hmeant
        · cases hone with
          | inl hadds => exact hincludes hadds.2
          | inr hbefore => exact (hgrows q).keep hbefore.1 hmeant
  | erase s =>
    dsimp only [Call.Adds, Call.Removes]
    by_cases hempty : (Call.erase s).components = []
    · rw [if_pos hempty]
      exact ⟨hroot, fun q => by simp [hempty]⟩
    · have herases := exact_erases h
      have hshrinks := herases.erase_node root hroot hempty
      rw [if_neg hempty]
      apply And.intro (herases.keeps root.inner hroot)
      intro q
      rw [← matches_plain h]
      constructor
      · intro hafter
        obtain ⟨hbefore, hnot⟩ := (hshrinks q).include_ hafter
        exact .inr ⟨hbefore, fun hremoves => hnot hremoves.2⟩
      · intro hone
        obtain ⟨hbefore, hnot⟩ := hone.resolve_left id
        exact (hshrinks q).keep hbefore fun hmeant => hnot ⟨hempty, hmeant⟩

/-- As long as only paths of names are erased, in any order with the insertion of any patterns, the tree includes
a path if and only if a pattern that it matches has been inserted since it was last erased. -/
theorem included_iff_subscribed (calls : List Call) (h : ∀ call ∈ calls, call.Exact) (q : List Name) :
    (Outer.create.after calls).query q = .arcInclude ↔ Subscribed calls q := by
  have hrun : (Outer.create.after calls).Holds Inner.Exact ∧
      ∀ q, ((Outer.create.after calls).query q = .arcInclude ↔ Subscribed calls q) := by
    induction calls using List.reverseRecOn with
    | nil =>
      refine ⟨Inner.create_exact, fun q => iff_of_false ?_ (not_subscribed_nil q)⟩
      cases q <;> nofun
    | append_singleton calls call ih =>
      obtain ⟨hexact, hincluded⟩ := ih fun earlier hearlier => h earlier (List.mem_append_left _ hearlier)
      obtain ⟨hkeeps, hcall⟩ := call_exact hexact (h call (List.mem_append_right _ (List.mem_singleton_self call)))
      rw [Outer.after, List.foldl_append, List.foldl_cons, List.foldl_nil]
      apply And.intro hkeeps
      intro q
      rw [subscribed_append, ← hincluded]
      exact hcall q
  exact hrun.2 q

/-- Behind the insertion of "a/*", the erasure of "a/b" takes back "a/b". -/
theorem included_iff_subscribed_names :
    (Outer.create.after [.insert [97, 47, 42], .erase [97, 47, 98]]).query [[97], [98]] = .arcInclude ↔
      Subscribed [.insert [97, 47, 42], .erase [97, 47, 98]] [[97], [98]] := by
  have hinsert : (Call.insert [97, 47, 42]).Exact := by
    change [45] ∉ (Call.insert [97, 47, 42]).components.dropLast
    decide +kernel
  have herase : (Call.erase [97, 47, 98]).Exact := by
    change ∀ name ∈ (Call.erase [97, 47, 98]).components, tonodetype name = .arcName
    decide +kernel
  apply included_iff_subscribed
  intro call hcall
  rw [List.mem_cons, List.mem_singleton] at hcall
  cases hcall with
  | inl heq =>
    rw [heq]
    exact hinsert
  | inr heq =>
    rw [heq]
    exact herase

end Aug.Subpp
