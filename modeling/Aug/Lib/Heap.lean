import Aug.Lib.Memory
import Mathlib.Logic.Function.Basic

/-!
# A heap of blocks

Blocks of cells at their addresses. An access that is not inside of a live block is undefined.
-/

namespace Aug.Lib

/-- The live blocks. -/
abbrev Heap (α : Type*) := ℕ → Option (List α)

namespace Heap

variable {α : Type*}

/-- Read `n` cells of a block from index `i`. -/
def load (heap : Heap α) (a i n : ℕ) : Option (List α) := (heap a).bind fun block => Lib.load block i n

/-- Overwrite the cells of a block from index `i`. -/
def store (heap : Heap α) (a i : ℕ) (xs : List α) : Option (Heap α) :=
  (heap a).bind fun block => (Lib.store block i xs).map fun block' => Function.update heap a (some block')

/-- A new block. -/
def allocate (heap : Heap α) (a : ℕ) (block : List α) : Heap α := Function.update heap a (some block)

/-- Free a live block. -/
def free (heap : Heap α) (a : ℕ) : Option (Heap α) := (heap a).map fun _ => Function.update heap a none

variable {heap : Heap α} {a i n : ℕ} {before xs old after block : List α}

theorem load_block (before xs after : List α) (h : heap a = some (before ++ (xs ++ after))) (hi : i = before.length) (hn : n = xs.length) :
    heap.load a i n = some xs := by
  rw [load, h, Option.bind_some, load_append hi hn]

/-- Reading past the end of a block is undefined. -/
theorem load_past (h : heap a = some block) (hn : block.length < i + n) : heap.load a i n = none := by
  rw [load, h, Option.bind_some, Lib.load, if_neg (by omega)]

theorem store_block (before old xs after : List α) (h : heap a = some (before ++ (old ++ after))) (hi : i = before.length)
    (hxs : xs.length = old.length) :
    heap.store a i xs = some (Function.update heap a (some (before ++ (xs ++ after)))) := by
  rw [store, h, Option.bind_some, store_append hi hxs, Option.map_some]

/-- Writing past the end of a block is undefined. -/
theorem store_past (h : heap a = some block) (hxs : block.length < i + xs.length) : heap.store a i xs = none := by
  rw [store, h, Option.bind_some, Lib.store, if_neg (by omega), Option.map_none]

theorem free_block (h : heap a = some block) : heap.free a = some (Function.update heap a none) := by
  rw [free, h, Option.map_some]

end Heap

end Aug.Lib
