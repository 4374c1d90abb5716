import Aug.Lib.StackRun
import Aug.Subpp.Tree
import Aug.Utilpp.Url

/-!
# The path of a request

The file service takes the path of a request from its URI, decodes it, and only then splits it. The components
are what a stack holds after the parts between the slashes, where `..` pops a name and a path that climbs above
its root has no components.
-/

namespace Aug.Subpp

open Lib Utilpp

/-- `uri`. -/
structure Uri where
  base : List UInt8
  path : List UInt8
  query : List UInt8

/-- The length of the scheme with its slashes, or zero for a URI that is a path. -/
def schemeLength (s : List UInt8) : ℕ :=
  if [104, 116, 116, 112, 58, 47, 47].isPrefixOf s then 7
  else if [104, 116, 116, 112, 115, 58, 47, 47].isPrefixOf s then 8
  else 0

/-- The base and the rest of a URI. Without a slash behind the host all of it is the base. -/
def splitbase (s : List UInt8) : List UInt8 × List UInt8 :=
  if schemeLength s = 0 then ([], s)
  else
    let pos := schemeLength s + ((s.drop (schemeLength s)).takeWhile (· ≠ 47)).length
    (s.take pos, s.drop (pos + 1))

/-- `splituri`. The query starts behind the last question mark. -/
def splituri (s : List UInt8) : Uri :=
  let (base, path) := splitbase s
  if 63 ∈ path then
    ⟨base, ((path.reverse.dropWhile (· ≠ 63)).drop 1).reverse, (path.reverse.takeWhile (· ≠ 63)).reverse⟩
  else ⟨base, path, []⟩

/-- The components that `put` looks a request up with. There are none for a request that is forbidden. -/
def requestNodes (uri : List UInt8) : Option (List Name) := splitpath (decodeurl (splituri uri).path)

/-- A component that names something. -/
def Ordinary (name : Name) : Prop := name ≠ [] ∧ name ≠ [46] ∧ name ≠ [46, 46]

instance : DecidablePred Ordinary := fun name =>
  inferInstanceAs (Decidable (name ≠ [] ∧ name ≠ [46] ∧ name ≠ [46, 46]))

/-- What a part of a path does to the stack of components. -/
def move (name : Name) : Move Name :=
  if name = [46, 46] then .pop else if name = [] ∨ name = [46] then .pass else .push name

/-- The stack normalisation of a path from left to right. -/
def normalise (path : List UInt8) : Option (List Name) :=
  (run Move.step [] ((path.splitOn 47).map move)).map List.reverse

/-- The components of a path stay below its root. -/
structure Contained (path : List UInt8) (result : Option (List Name)) : Prop where
  components : ∀ nodes, result = some nodes → ∀ name ∈ nodes, Ordinary name ∧ 47 ∉ name
  normalised : result = normalise path
  thrown : result = none ↔
    ∃ front, front <+: path.splitOn 47 ∧ front.countP (fun name => Ordinary name) < front.count [46, 46]
  rejoined : ∀ nodes, result = some nodes → splitpath ([47].intercalate nodes) = some nodes

variable {name : Name} {nodes names : List Name} {path : List UInt8}

theorem move_parent : move [46, 46] = .pop := rfl

theorem move_ordinary (h : Ordinary name) : move name = .push name := by
  rw [move, if_neg h.2.2, if_neg (not_or.mpr ⟨h.1, h.2.1⟩)]

/-- Whatever is pushed is a name. -/
theorem ordinary_of_push {other : Name} (h : move other = .push name) : other = name ∧ Ordinary name := by
  rw [move] at h
  split_ifs at h with hparent hempty
  rw [not_or] at hempty
  cases h
  exact ⟨rfl, hempty.1, hempty.2, hparent⟩

/-- `nodes` keeps the stack with its top behind. -/
theorem component_eq (stack : List Name) (name : Name) :
    component stack.reverse name = (Move.step stack (move name)).map List.reverse := by
  rw [component, move]
  split_ifs with hparent hempty
  · rw [List.isEmpty_iff, List.reverse_eq_nil_iff] at hempty
    rw [hempty]
    rfl
  · cases stack with
    | nil => exact absurd rfl hempty
    | cons top stack => simp [Move.step]
  · rfl
  · simp [Move.step]

/-- `splitpath` is the stack normalisation. -/
theorem splitpath_eq (path : List UInt8) : splitpath path = normalise path := by
  have hrun : ∀ (names stack : List Name),
      names.foldlM component stack.reverse = (run Move.step stack (names.map move)).map List.reverse := by
    intro names
    induction names with
    | nil => exact fun stack => rfl
    | cons name names ih =>
      intro stack
      rw [List.foldlM_cons, component_eq, List.map_cons, run]
      cases Move.step stack (move name) with
      | none => rfl
      | some next => exact ih next
  exact hrun (path.splitOn 47) []

/-- The parts between the slashes have no slash in them. -/
theorem slash_notMem (path : List UInt8) : ∀ name ∈ path.splitOn 47, 47 ∉ name := by
  induction path with
  | nil => simp
  | cons ch path ih =>
    rw [List.splitOn_cons_eq_if_modifyHead]
    split_ifs with hslash
    · exact List.forall_mem_cons.mpr ⟨List.not_mem_nil, ih⟩
    · cases hsplit : path.splitOn 47 with
      | nil => exact absurd hsplit (List.splitOn_ne_nil 47 path)
      | cons first rest =>
        rw [hsplit, List.forall_mem_cons] at ih
        have hch : ch ≠ 47 := by simpa using hslash
        exact List.forall_mem_cons.mpr ⟨by simpa using ⟨hch.symm, ih.1⟩, ih.2⟩

/-- The stack rises with a name and falls with a `..`. -/
theorem rises_move (names : List Name) :
    Move.rises (names.map move) = (names.countP fun name => Ordinary name) - (names.count [46, 46] : ℤ) := by
  induction names with
  | nil => rfl
  | cons name names ih =>
    rw [List.map_cons, Move.rises_cons, ih, List.countP_cons, List.count_cons]
    by_cases hname : Ordinary name
    · simp only [move_ordinary hname, Move.rise, hname, hname.2.2, decide_true, if_true, beq_iff_eq, if_false]
      omega
    · by_cases hparent : name = [46, 46]
      · subst hparent
        simp only [move_parent, Move.rise, hname, decide_false, Bool.false_eq_true, if_false, beq_self_eq_true, if_true]
        omega
      · have hpass : name = [] ∨ name = [46] := by
          by_contra hnot
          rw [not_or] at hnot
          exact hname ⟨hnot.1, hnot.2, hparent⟩
        simp only [move, hparent, hpass, if_true, if_false, Move.rise, hname, decide_false, Bool.false_eq_true,
          beq_iff_eq]
        omega

/-- A path has no components exactly when a part of it climbs above the root. -/
theorem splitpath_eq_none_iff (path : List UInt8) : splitpath path = none ↔
    ∃ front, front <+: path.splitOn 47 ∧ front.countP (fun name => Ordinary name) < front.count [46, 46] := by
  rw [splitpath_eq, normalise, Option.map_eq_none_iff, Move.run_eq_none_iff]
  constructor
  · rintro ⟨moves, hmoves, hlow⟩
    obtain ⟨front, hfront, rfl⟩ := List.prefix_map_iff.mp hmoves
    rw [rises_move, List.length_nil] at hlow
    exact ⟨front, hfront, by omega⟩
  · rintro ⟨front, hfront, hlow⟩
    refine ⟨front.map move, hfront.map move, ?_⟩
    rw [rises_move, List.length_nil]
    omega

/-- A component is a part of the path that names something. -/
theorem mem_splitpath (h : splitpath path = some nodes) : ∀ name ∈ nodes, Ordinary name ∧ 47 ∉ name := by
  intro name hname
  rw [splitpath_eq, normalise, Option.map_eq_some_iff] at h
  obtain ⟨stack, hrun, rfl⟩ := h
  rcases Move.mem_run hrun name (List.mem_reverse.mp hname) with hnone | hpush
  · exact absurd hnone List.not_mem_nil
  · obtain ⟨other, hother, hmove⟩ := List.mem_map.mp hpush
    obtain ⟨rfl, hordinary⟩ := ordinary_of_push hmove
    exact ⟨hordinary, slash_notMem path other hother⟩

/-- Components joined with slashes are split into the same components. -/
theorem splitpath_intercalate (h : ∀ name ∈ nodes, Ordinary name ∧ 47 ∉ name) :
    splitpath ([47].intercalate nodes) = some nodes := by
  by_cases hne : nodes = []
  · rw [hne]
    rfl
  · have hmoves : nodes.map move = nodes.map .push :=
      List.map_congr_left fun name hname => move_ordinary (h name hname).1
    rw [splitpath_eq, normalise, List.splitOn_intercalate 47 (fun name hname => (h name hname).2) hne, hmoves,
      Move.run_pushes, Option.map_some, List.append_nil, List.reverse_reverse]

/-- Every path that is split stays below its root, or climbs above it and is refused. -/
theorem splitpath_contained (path : List UInt8) : Contained path (splitpath path) where
  components _ h := mem_splitpath h
  normalised := splitpath_eq path
  thrown := splitpath_eq_none_iff path
  rejoined _ h := splitpath_intercalate (mem_splitpath h)

/-- No request leaves the root of the file service: the path is split after it has been decoded, so that a dot or
a slash that is escaped counts as one that is not. -/
theorem requestNodes_contained (uri : List UInt8) : Contained (decodeurl (splituri uri).path) (requestNodes uri) :=
  splitpath_contained (decodeurl (splituri uri).path)

/-- `/a/%2e%2e%2F..` climbs above the root. -/
example : requestNodes [47, 97, 47, 37, 50, 101, 37, 50, 101, 37, 50, 70, 46, 46] = none := by decide +kernel

end Aug.Subpp
