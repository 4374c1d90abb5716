import Mathlib.Data.List.Basic
import Mathlib.Data.List.TakeDrop

/-!
# Byte files with zero-filled gaps

A file is a list of cells. Changing its length cuts it or fills it up with a default cell;
writing past the end fills the gap in the same way.
-/

namespace Aug.Lib

variable {α : Type*} (zero : α)

/-- Cut or fill up to `n` cells. -/
def resizeTo (file : List α) (n : ℕ) : List α :=
  file.take n ++ List.replicate (n - file.length) zero

/-- Write `xs` at `pos`, over what is there. -/
def overwrite (file : List α) (pos : ℕ) (xs : List α) : List α :=
  resizeTo zero file pos ++ (xs ++ file.drop (pos + xs.length))

@[simp] theorem resizeTo_length (file : List α) (n : ℕ) : (resizeTo zero file n).length = n := by
  simp [resizeTo]
  omega

theorem resizeTo_of_le {file : List α} {n : ℕ} (h : n ≤ file.length) :
    resizeTo zero file n = file.take n := by
  simp [resizeTo, h]

theorem resizeTo_of_ge {file : List α} {n : ℕ} (h : file.length ≤ n) :
    resizeTo zero file n = file ++ List.replicate (n - file.length) zero := by
  rw [resizeTo, List.take_of_length_le h]

@[simp] theorem overwrite_length (file : List α) (pos : ℕ) (xs : List α) :
    (overwrite zero file pos xs).length = max file.length (pos + xs.length) := by
  simp [overwrite]
  omega

/-- A write is a store once the file has been filled up to its end. -/
theorem overwrite_of_le {file : List α} {pos : ℕ} {xs : List α} (h : file.length ≤ pos + xs.length) :
    overwrite zero file pos xs = (resizeTo zero file (pos + xs.length)).take pos ++ xs := by
  have hdrop : file.drop (pos + xs.length) = [] := List.drop_of_length_le h
  rw [overwrite, hdrop, List.append_nil]
  congr 1
  rw [resizeTo_of_ge zero h]
  rcases Nat.le_total pos file.length with hpos | hpos
  · rw [resizeTo_of_le zero hpos, List.take_append_of_le_length hpos]
  · rw [resizeTo_of_ge zero hpos, List.take_append, List.take_of_length_le hpos,
      List.take_replicate]
    congr 2
    omega

/-- A write is a store in the file that has been filled up as far as the write reaches. -/
theorem overwrite_eq_splice (file : List α) (pos : ℕ) (xs : List α) :
    overwrite zero file pos xs = (resizeTo zero file (max file.length (pos + xs.length))).take pos ++
      (xs ++ (resizeTo zero file (max file.length (pos + xs.length))).drop (pos + xs.length)) := by
  rcases Nat.le_total (pos + xs.length) file.length with h | h
  · rw [Nat.max_eq_left h, resizeTo_of_le zero (Nat.le_refl _), List.take_length, overwrite, resizeTo_of_le zero (by omega)]
  · have hdrop : (resizeTo zero file (pos + xs.length)).drop (pos + xs.length) = [] :=
      List.drop_of_length_le (Nat.le_of_eq (resizeTo_length zero file _))
    rw [Nat.max_eq_right h, hdrop, List.append_nil, overwrite_of_le zero h]

/-- Two writes, one behind the other, are one. -/
theorem overwrite_append (file : List α) (pos : ℕ) (xs ys : List α) :
    overwrite zero (overwrite zero file pos xs) (pos + xs.length) ys = overwrite zero file pos (xs ++ ys) := by
  have hreach : pos + xs.length ≤ (overwrite zero file pos xs).length := by
    rw [overwrite_length]
    exact Nat.le_max_right _ _
  have hfront : (resizeTo zero file pos ++ xs).length = pos + xs.length := by simp
  have hsplit : overwrite zero file pos xs = (resizeTo zero file pos ++ xs) ++ file.drop (pos + xs.length) := by
    rw [overwrite, List.append_assoc]
  have htake : (overwrite zero file pos xs).take (pos + xs.length) = resizeTo zero file pos ++ xs := by
    rw [hsplit, ← hfront, List.take_left]
  have hdrop : (overwrite zero file pos xs).drop (pos + xs.length + ys.length) =
      file.drop (pos + (xs ++ ys).length) := by
    rw [hsplit, ← hfront, List.drop_length_add_append, hfront, List.drop_drop, List.length_append, Nat.add_assoc]
  rw [overwrite, resizeTo_of_le zero hreach, htake, hdrop, overwrite, List.append_assoc, List.append_assoc]

/-- Reading up to `len` cells from a position. -/
def readFrom (file : List α) (pos len : ℕ) : List α := (file.drop pos).take len

theorem readFrom_length (file : List α) (pos len : ℕ) :
    (readFrom file pos len).length = min len (file.length - pos) := by
  simp [readFrom]

/-- Reading one cell. -/
theorem readFrom_one (file : List α) (pos : ℕ) : readFrom file pos 1 = file[pos]?.toList := by
  rw [readFrom, List.take_one, List.head?_drop]

/-- Reading on behind what has been read. -/
theorem readFrom_add (file : List α) (pos m n : ℕ) :
    readFrom file pos (m + n) = readFrom file pos m ++ readFrom file (pos + m) n := by
  simp only [readFrom, List.take_add, List.drop_drop]

/-- The first cell of what is read. -/
theorem readFrom_succ {file : List α} {pos : ℕ} {c : α} (h : file[pos]? = some c) (n : ℕ) :
    readFrom file pos (n + 1) = c :: readFrom file (pos + 1) n := by
  rw [Nat.add_comm n 1, readFrom_add, readFrom_one, h]
  rfl

/-- No more is read than what is left of the file. -/
theorem readFrom_min {file : List α} {pos m n : ℕ} (h : min m (file.length - pos) = min n (file.length - pos)) :
    readFrom file pos m = readFrom file pos n := by
  rw [readFrom, readFrom, List.take_eq_take_iff, List.length_drop]
  exact h

/-- Behind the end of the file there is nothing to read. -/
theorem readFrom_behind {file : List α} {pos : ℕ} (h : file.length ≤ pos) (n : ℕ) : readFrom file pos n = [] := by
  rw [readFrom, List.drop_eq_nil_of_le h, List.take_nil]

end Aug.Lib
