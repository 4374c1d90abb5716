import Mathlib.Data.List.Lex

/-!
# Subscription trees

The trees of `augsubpp`. An inner node has the nodes of the names below it and a special child, for any name
or for any deeper path, that keeps its exceptions in names of its own, where insertions and erasures are
swapped. A path is inserted or erased one component at a time: the functions for a component take what is to
be done with the rest of the path. A call that throws leaves the nodes as they are at that moment.
-/

namespace Aug.Subpp

/-- A component of a path. -/
abbrev Name := List UInt8

/-- `match`. -/
inductive Match where
  | arcNothing
  | arcTransit
  | arcInclude
  | arcExclude
  deriving DecidableEq

/-- `nodetype`. -/
inductive NodeType where
  | arcName
  | arcRecur
  | arcWild
  deriving DecidableEq

mutual

/-- `inner`. -/
inductive Inner where
  | mk (names : Names) (special : Special)

/-- `outer`: an inner node with a match. -/
inductive Outer where
  | mk (match_ : Match) (inner : Inner)

/-- `names`: the map from names to outer nodes, in the order of the names. -/
inductive Names where
  | nil
  | cons (name : Name) (node : Outer) (rest : Names)

/-- `special_`. -/
inductive Special where
  | null
  | wild (wild : Wild)
  | recur (recur : Recur)

/-- `wild`. The exceptions are `inverse<names>`. -/
inductive Wild where
  | mk (match_ : Match) (wildchild : Inner) (exnames : Names)

/-- `recur`. The exceptions are `inverse<names>` and `inverse<wild>`. -/
inductive Recur where
  | mk (match_ : Match) (exnames : Names) (exwild : Wild)

end

/-- A node after a call, and whether the call has thrown. -/
structure Outcome (α : Type) where
  node : α
  thrown : Bool

namespace Outcome

variable {α β γ : Type}

/-- A call that has returned. -/
def ok (node : α) : Outcome α := ⟨node, false⟩

def map (f : α → β) (outcome : Outcome α) : Outcome β := ⟨f outcome.node, outcome.thrown⟩

/-- Two calls on two parts of a node; the second part stays as it is if the first call throws. -/
def both (mk : α → β → γ) (first : Outcome α) (old : β) (second : Outcome β) : Outcome γ :=
  if first.thrown then ⟨mk first.node old, true⟩ else ⟨mk first.node second.node, second.thrown⟩

end Outcome

/-- What `insertnode` and `erasenode` do to a node with the rest of a path. -/
structure Rest where
  insertnode : Inner → Outcome Inner
  erasenode : Inner → Outcome Inner

/-- `foldmatch`. -/
def foldmatch (l r : Match) : Match :=
  match l with
  | .arcNothing => r
  | .arcTransit => if r = .arcInclude ∨ r = .arcExclude then r else l
  | .arcInclude => if r = .arcExclude then r else l
  | .arcExclude => l

/-- `tonodetype`. -/
def tonodetype (value : Name) : NodeType :=
  if value = [45] then .arcRecur else if value = [42] then .arcWild else .arcName

/-- `createinner`. -/
def Inner.create : Inner := .mk .nil .null

/-- `createouter`. -/
def Outer.create : Outer := .mk .arcNothing .create

def Wild.create : Wild := .mk .arcNothing .create .nil

def Recur.create : Recur := .mk .arcNothing .nil .create

mutual

def Inner.isdead : Inner → Bool
  | .mk names special => names.isdead && special.isdead

def Outer.isdead : Outer → Bool
  | .mk match_ inner => match_ ≠ .arcInclude && inner.isdead

def Names.isdead : Names → Bool
  | .nil => true
  | .cons _ node rest => node.isdead && rest.isdead

/-- A child that is null counts as dead. -/
def Special.isdead : Special → Bool
  | .null => true
  | .wild wild => wild.isdead
  | .recur recur => recur.isdead

def Wild.isdead : Wild → Bool
  | .mk match_ wildchild _ => match_ ≠ .arcInclude && wildchild.isdead

def Recur.isdead : Recur → Bool
  | .mk match_ _ _ => match_ ≠ .arcInclude

end

/-- `exdepth`. -/
def exdepth (depth : ℕ) : ℕ := max 1 depth - 1

mutual

def Inner.depth : Inner → ℕ
  | .mk names special => max names.depth special.depth

def Outer.depth : Outer → ℕ
  | .mk _ inner => inner.depth

def Names.depth : Names → ℕ
  | .nil => 0
  | .cons _ node rest => max (1 + node.depth) rest.depth

/-- What a special child adds to the depth of its node. -/
def Special.depth : Special → ℕ
  | .null => 0
  | .wild wild => 1 + wild.depth
  | .recur recur => 1 + recur.depth

def Wild.depth : Wild → ℕ
  | .mk _ wildchild _ => wildchild.depth

def Recur.depth : Recur → ℕ
  | .mk _ exnames exwild => max (exdepth exnames.depth) (exdepth exwild.depth)

end

namespace Outer

def match_ : Outer → Match
  | mk match_ _ => match_

def inner : Outer → Inner
  | mk _ inner => inner

def setmatch (m : Match) (node : Outer) : Outer := mk m node.inner

/-- `insert` with the components of a path: where `insertnode` returns, the node is on the way to the path. -/
def insert (rest : Rest) (node : Outer) : Outcome Outer :=
  let outcome := rest.insertnode node.inner
  ⟨mk (if outcome.thrown ∨ node.match_ = .arcInclude then node.match_ else .arcTransit) outcome.node, outcome.thrown⟩

/-- `erase` with the components of a path. -/
def erase (rest : Rest) (node : Outer) : Outcome Outer := (rest.erasenode node.inner).map (mk node.match_)

end Outer

/-- A child that stays in the map. -/
def Outcome.stays (outcome : Outcome Outer) : Outcome (Option Outer) := outcome.map some

/-- A child that is erased from the map if it is dead. -/
def Outcome.reaped (outcome : Outcome Outer) : Outcome (Option Outer) :=
  outcome.map fun node => if !outcome.thrown && node.isdead then none else some node

namespace Names

/-- `find`. -/
def find (name : Name) : Names → Option Outer
  | nil => none
  | cons other node rest => if other = name then some node else rest.find name

/-- The insertion of a new name into the map. -/
def put (name : Name) (node : Outer) : Names → Names
  | nil => cons name node nil
  | cons other old rest => if name < other then cons name node (cons other old rest) else cons other old (rest.put name node)

/-- A name with its node, unless the node has been erased. -/
def keep (name : Name) (node : Option Outer) (rest : Names) : Names :=
  match node with
  | none => rest
  | some node => cons name node rest

/-- A call on the node of a name. -/
def visit (name : Name) (call : Outer → Outcome (Option Outer)) : Names → Outcome Names
  | nil => .ok nil
  | cons other node rest =>
    if other = name then (call node).map fun node => keep other node rest
    else (rest.visit name call).map (cons other node)

/-- A call on each node, until one throws. -/
def visitAll (call : Outer → Outcome (Option Outer)) : Names → Outcome Names
  | nil => .ok nil
  | cons name node rest => .both (keep name) (call node) rest (rest.visitAll call)

/-- The map with a new node for the name, if it has none. -/
def ensure (name : Name) (names : Names) : Names :=
  if (names.find name).isSome then names else names.put name .create

/-- `clearwild`. -/
def clearwild (m : Match) (names : Names) : Names :=
  (names.visitAll fun node => .ok (if node.depth = 0 then none else some (node.setmatch m))).node

def insertname (name : Name) (names : Names) : Names :=
  ((names.ensure name).visit name fun node => .ok (some (node.setmatch .arcInclude))).node

def insertnameRest (rest : Rest) (name : Name) (names : Names) : Outcome Names :=
  (names.ensure name).visit name fun node => (node.insert rest).stays

def insertwild (names : Names) : Names := names.clearwild .arcInclude

def insertwildRest (rest : Rest) (names : Names) : Outcome Names := names.visitAll fun node => (node.insert rest).stays

def erasename (name : Name) (names : Names) : Names :=
  (names.visit name fun node => (Outcome.ok (node.setmatch .arcExclude)).reaped).node

def erasenameRest (rest : Rest) (name : Name) (names : Names) : Outcome Names :=
  names.visit name fun node => (node.erase rest).reaped

def erasewild (names : Names) : Names := names.clearwild .arcExclude

def erasewildRest (rest : Rest) (names : Names) : Outcome Names := names.visitAll fun node => (node.erase rest).reaped

end Names

namespace Wild

def insertname (name : Name) : Wild → Wild
  | mk match_ wildchild exnames => mk match_ wildchild (exnames.erasename name)

def insertnameRest (rest : Rest) (name : Name) : Wild → Outcome Wild
  | mk match_ wildchild exnames => (exnames.erasenameRest rest name).map (mk match_ wildchild)

def insertwild : Wild → Wild
  | mk _ wildchild exnames => mk .arcInclude wildchild exnames.erasewild

def insertwildRest (rest : Rest) : Wild → Outcome Wild
  | mk match_ wildchild exnames =>
    .both (mk (if match_ = .arcInclude then match_ else .arcTransit)) (rest.insertnode wildchild) exnames
      (exnames.erasewildRest rest)

def erasename (name : Name) : Wild → Wild
  | mk match_ wildchild exnames => mk match_ wildchild (exnames.insertname name)

def erasenameRest (rest : Rest) (name : Name) : Wild → Outcome Wild
  | mk match_ wildchild exnames => (exnames.insertnameRest rest name).map (mk match_ wildchild)

def erasewild : Wild → Wild
  | mk _ wildchild exnames => mk .arcExclude wildchild exnames.insertwild

def erasewildRest (rest : Rest) : Wild → Outcome Wild
  | mk match_ wildchild exnames => .both (mk match_) (rest.erasenode wildchild) exnames (exnames.insertwildRest rest)

end Wild

namespace Recur

def insertname (name : Name) : Recur → Recur
  | mk match_ exnames exwild => mk match_ (exnames.erasename name) exwild

def insertnameRest (rest : Rest) (name : Name) : Recur → Outcome Recur
  | mk match_ exnames exwild => (exnames.erasenameRest rest name).map fun exnames => mk match_ exnames exwild

def insertrecur : Recur → Recur
  | mk _ _ _ => mk .arcInclude .nil .create

def insertwild : Recur → Recur
  | mk match_ exnames exwild => mk match_ exnames.erasewild exwild.erasewild

def insertwildRest (rest : Rest) : Recur → Outcome Recur
  | mk match_ exnames exwild => .both (mk match_) (exnames.erasewildRest rest) exwild (exwild.erasewildRest rest)

def erasename (name : Name) : Recur → Recur
  | mk match_ exnames exwild => mk match_ (exnames.insertname name) exwild

def erasenameRest (rest : Rest) (name : Name) : Recur → Outcome Recur
  | mk match_ exnames exwild => (exnames.insertnameRest rest name).map fun exnames => mk match_ exnames exwild

def erasewild : Recur → Recur
  | mk match_ exnames exwild => mk match_ exnames.insertwild exwild.insertwild

def erasewildRest (rest : Rest) : Recur → Outcome Recur
  | mk match_ exnames exwild => .both (mk match_) (exnames.insertwildRest rest) exwild (exwild.insertwildRest rest)

end Recur

namespace Special

/-- A call on the child, unless it is null. -/
def call (wild : Wild → Outcome Wild) (recur : Recur → Outcome Recur) : Special → Outcome Special
  | null => .ok null
  | .wild node => (wild node).map .wild
  | .recur node => (recur node).map .recur

/-- The child is reset if it is dead. -/
def reaped (outcome : Outcome Special) : Outcome Special :=
  outcome.map fun special => if !outcome.thrown && special.isdead then null else special

/-- The child, or a new one for any name. -/
def orWild : Special → Special
  | null => wild .create
  | special => special

/-- A recursive child. -/
def orRecur : Special → Recur
  | recur node => node
  | _ => .create

end Special

namespace Inner

def insertname (name : Name) : Inner → Inner
  | mk names special => mk (names.insertname name)
      (special.call (.ok ∘ Wild.insertname name) (.ok ∘ Recur.insertname name)).node

def insertnameRest (rest : Rest) (name : Name) : Inner → Outcome Inner
  | mk names special => .both mk (names.insertnameRest rest name) special
      (special.call (Wild.insertnameRest rest name) (Recur.insertnameRest rest name))

def insertrecur : Inner → Inner
  | mk _ special => mk .nil (.recur special.orRecur.insertrecur)

def insertwild : Inner → Inner
  | mk names special => mk names.insertwild (special.orWild.call (.ok ∘ Wild.insertwild) (.ok ∘ Recur.insertwild)).node

def insertwildRest (rest : Rest) : Inner → Outcome Inner
  | mk names special => .both mk (names.insertwildRest rest) special
      (special.orWild.call (Wild.insertwildRest rest) (Recur.insertwildRest rest))

def erasename (name : Name) : Inner → Inner
  | mk names special => mk (names.erasename name)
      (Special.reaped (special.call (.ok ∘ Wild.erasename name) (.ok ∘ Recur.erasename name))).node

def erasenameRest (rest : Rest) (name : Name) : Inner → Outcome Inner
  | mk names special => .both mk (names.erasenameRest rest name) special
      (Special.reaped (special.call (Wild.erasenameRest rest name) (Recur.erasenameRest rest name)))

def eraserecur : Inner → Inner
  | mk _ _ => mk .nil .null

def erasewild : Inner → Inner
  | mk names special => mk names.erasewild
      (Special.reaped (special.call (.ok ∘ Wild.erasewild) (.ok ∘ Recur.erasewild))).node

def erasewildRest (rest : Rest) : Inner → Outcome Inner
  | mk names special => .both mk (names.erasewildRest rest) special
      (Special.reaped (special.call (Wild.erasewildRest rest) (Recur.erasewildRest rest)))

end Inner

/-- `insertnode`, for a component with the rest of the path, which may be empty. -/
def insertnodeHead (rest : Rest) (head : Name) (last : Bool) (node : Inner) : Outcome Inner :=
  match tonodetype head with
  | .arcName => if last then .ok (node.insertname head) else node.insertnameRest rest head
  | .arcRecur => if last then .ok node.insertrecur else ⟨node, true⟩
  | .arcWild => if last then .ok node.insertwild else node.insertwildRest rest

/-- `erasenode`, for a component with the rest of the path, which may be empty. -/
def erasenodeHead (rest : Rest) (head : Name) (last : Bool) (node : Inner) : Outcome Inner :=
  match tonodetype head with
  | .arcName => if last then .ok (node.erasename head) else node.erasenameRest rest head
  | .arcRecur => if last then .ok node.eraserecur else ⟨node, true⟩
  | .arcWild => if last then .ok node.erasewild else node.erasewildRest rest

/-- `insertnode` and `erasenode`. Nothing is done for an empty path. -/
def nodes : List Name → Rest
  | [] => ⟨.ok, .ok⟩
  | head :: path => ⟨insertnodeHead (nodes path) head path.isEmpty, erasenodeHead (nodes path) head path.isEmpty⟩

/-- The match of the node of a name, for what is asked of the inner nodes below, or for the names themselves. -/
def Names.query (ask : Inner → Match) (head : Name) (last : Bool) (names : Names) : Match :=
  match names.find head with
  | none => .arcNothing
  | some node => if last then node.match_ else ask node.inner

def Wild.query (ask : Inner → Match) (head : Name) (last : Bool) : Wild → Match
  | mk match_ wildchild exnames =>
    if exnames.query ask head last = .arcInclude then .arcExclude else if last then match_ else ask wildchild

def Recur.query (ask : Inner → Match) (head : Name) (last : Bool) : Recur → Match
  | mk match_ exnames exwild =>
    if match_ = .arcExclude ∨ exnames.query ask head last = .arcInclude ∨ exwild.query ask head last = .arcInclude
    then .arcExclude else match_

def Special.query (ask : Inner → Match) (head : Name) (last : Bool) (m : Match) : Special → Match
  | null => m
  | wild node => foldmatch m (node.query ask head last)
  | recur node => foldmatch m (node.query ask head last)

def Inner.query : List Name → Inner → Match
  | [], _ => .arcNothing
  | head :: path, mk names special =>
    special.query (Inner.query path) head path.isEmpty (names.query (Inner.query path) head path.isEmpty)

namespace Outer

def query (path : List Name) (node : Outer) : Match := if path.isEmpty then node.match_ else node.inner.query path

def ismatch (path : List Name) (node : Outer) : Bool :=
  node.query path = .arcTransit ∨ node.query path = .arcInclude

end Outer

/-- A token of `splitn` is added to the path, unless the path underflows. -/
def component (path : List Name) (name : Name) : Option (List Name) :=
  if name = [46, 46] then if path.isEmpty then none else some path.dropLast
  else if name = [] ∨ name = [46] then some path
  else some (path ++ [name])

/-- `splitpath`. -/
def splitpath (s : List UInt8) : Option (List Name) := (s.splitOn 47).foldlM component []

/-- A call of a subscriber. -/
inductive Call where
  | insert (path : List UInt8)
  | erase (path : List UInt8)

namespace Outer

/-- `insert` or `erase`. -/
def call (root : Outer) : Call → Outcome Outer
  | .insert s =>
    match splitpath s with
    | none => ⟨root, true⟩
    | some [] => .ok root
    | some path => root.insert (nodes path)
  | .erase s =>
    match splitpath s with
    | none => ⟨root, true⟩
    | some [] => .ok root
    | some path => root.erase (nodes path)

/-- The tree after some calls, whether they have thrown or not. -/
def after (root : Outer) (calls : List Call) : Outer := calls.foldl (fun root call => (root.call call).node) root

/-- `ismatch` with a path. It is refused if the path underflows. -/
def ismatchPath (s : List UInt8) (root : Outer) : Option Bool := (splitpath s).map fun path => root.ismatch path

end Outer

end Aug.Subpp
