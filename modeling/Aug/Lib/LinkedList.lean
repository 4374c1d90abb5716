import Mathlib.Data.List.Basic
import Mathlib.Logic.Function.Basic

/-!
# Linked lists in a heap

Singly linked lists as the chains of cells that a pointer leads to. A chain does not change when a
cell outside of it does.
-/

namespace Aug.Lib

/-- A cell of a list. -/
structure Cell (A V : Type*) where
  next : Option A
  value : V

/-- The cells that a pointer leads to, each with its address. -/
inductive Chain {A V : Type*} (heap : A → Option (Cell A V)) : Option A → List (A × V) → Prop
  | nil : Chain heap none []
  | cons {a : A} {next : Option A} {value : V} {cells : List (A × V)} :
    heap a = some { next, value } → Chain heap next cells → Chain heap (some a) ((a, value) :: cells)

variable {A V : Type*} {heap heap' : A → Option (Cell A V)} {p : Option A} {cells : List (A × V)}

/-- The addresses of some cells. -/
def addresses (cells : List (A × V)) : List A := cells.map Prod.fst

/-- The values of some cells. -/
def values (cells : List (A × V)) : List V := cells.map Prod.snd

namespace Chain

/-- A chain only depends on its own cells. -/
theorem frame (h : Chain heap p cells) (hsame : ∀ a ∈ addresses cells, heap' a = heap a) :
    Chain heap' p cells := by
  induction h with
  | nil => exact .nil
  | @cons a next value cells hcell _ ih =>
    apply Chain.cons
    · rw [hsame a (by simp [addresses])]
      exact hcell
    · apply ih
      intro b hb
      exact hsame b (List.mem_cons_of_mem a hb)

/-- An empty pointer leads to no cell. -/
theorem eq_nil (h : Chain heap none cells) : cells = [] := by
  cases h
  rfl

/-- A pointer to a cell leads to it first. -/
theorem eq_cons {a : A} (h : Chain heap (some a) cells) : ∃ next value rest,
    cells = (a, value) :: rest ∧ heap a = some { next, value } ∧ Chain heap next rest := by
  cases h with
  | cons hcell hrest => exact ⟨_, _, _, rfl, hcell, hrest⟩

/-- A chain is allocated. -/
theorem allocated (h : Chain heap p cells) {a : A} (ha : a ∈ addresses cells) : heap a ≠ none := by
  induction h with
  | nil => simp [addresses] at ha
  | @cons b next value cells hcell _ ih =>
    rcases List.mem_cons.mp ha with rfl | hmem
    · simp [hcell]
    · exact ih hmem

/-- Every cell of a chain is in the heap. -/
theorem linked (h : Chain heap p cells) {cell : A × V} (hcell : cell ∈ cells) :
    ∃ next, heap cell.1 = some { next, value := cell.2 } := by
  induction h with
  | nil => cases hcell
  | @cons a next value cells hlink _ ih =>
    cases hcell with
    | head => exact ⟨next, hlink⟩
    | tail _ hmem => exact ih hmem

variable [DecidableEq A]

/-- A cell outside of the chain may be changed. -/
theorem update (h : Chain heap p cells) {a : A} (ha : a ∉ addresses cells) (cell : Option (Cell A V)) :
    Chain (Function.update heap a cell) p cells := by
  apply h.frame
  intro b hb
  apply Function.update_of_ne
  rintro rfl
  exact ha hb

/-- A new cell goes in front of the chain it points to. -/
theorem push (h : Chain heap p cells) {a : A} (ha : a ∉ addresses cells) (value : V) :
    Chain (Function.update heap a (some { next := p, value })) (some a) ((a, value) :: cells) :=
  .cons (Function.update_self a _ heap) (h.update ha _)

end Chain

end Aug.Lib
