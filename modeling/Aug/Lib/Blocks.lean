import Mathlib.Data.List.TakeDrop
import Mathlib.Data.Nat.Init

/-!
# Folds over blocks

A list that comes in pieces is folded over its blocks of one length, and what does not fill a block is held until
more has come. The pieces do not matter: what has been folded and what is held depend on the whole list only.
-/

namespace Aug.Lib

variable {S α : Type*}

/-- Fold some blocks of `n` elements. -/
def foldBlocks (n : ℕ) (f : S → List α → S) : ℕ → S → List α → S
  | 0, s, _ => s
  | k + 1, s, xs => foldBlocks n f k (f s (xs.take n)) (xs.drop n)

/-- Fold all blocks that are full, and hold the rest. -/
def absorb (n : ℕ) (f : S → List α → S) (s : S) (xs : List α) : S × List α :=
  (foldBlocks n f (xs.length / n) s xs, xs.drop (xs.length / n * n))

variable {n : ℕ} {f : S → List α → S} {s : S} {xs ys : List α}

/-- What does not fill a block is held. -/
theorem absorb_of_lt (h : xs.length < n) : absorb n f s xs = (s, xs) := by
  rw [absorb, Nat.div_eq_of_lt h, Nat.zero_mul, List.drop_zero]
  rfl

/-- A block is folded before the rest. -/
theorem absorb_block (hn : 0 < n) (h : xs.length = n) : absorb n f s (xs ++ ys) = absorb n f (f s xs) ys := by
  have hblocks : (xs ++ ys).length / n = ys.length / n + 1 := by
    rw [List.length_append, h, Nat.add_comm, Nat.add_div_right _ hn]
  have hrest : (ys.length / n + 1) * n = xs.length + ys.length / n * n := by
    rw [Nat.succ_mul, h, Nat.add_comm]
  rw [absorb, hblocks, hrest, ← List.drop_drop, List.drop_left, foldBlocks, List.take_left' h, List.drop_left' h]
  rfl

/-- What is left over is held. -/
theorem absorb_held (xs : List α) : (absorb n f s xs).2.length = xs.length % n := by
  rw [absorb, List.length_drop, Nat.mul_comm]
  exact (Nat.mod_eq_sub _ _).symm

/-- What comes later is put behind what is held. -/
theorem absorb_append (hn : 0 < n) (xs ys : List α) :
    absorb n f s (xs ++ ys) = absorb n f (absorb n f s xs).1 ((absorb n f s xs).2 ++ ys) := by
  induction hlength : xs.length using Nat.strongRecOn generalizing s xs with
  | ind length ih =>
    by_cases hless : xs.length < n
    · rw [absorb_of_lt hless]
    · have htake : (xs.take n).length = n := List.length_take_of_le (Nat.le_of_not_lt hless)
      have hdrop : (xs.drop n).length < length := by
        rw [List.length_drop]
        omega
      have hrest := ih _ hdrop (s := f s (xs.take n)) (xs.drop n) rfl
      rw [← absorb_block hn htake, ← absorb_block hn htake, ← List.append_assoc, List.take_append_drop] at hrest
      exact hrest

end Aug.Lib
