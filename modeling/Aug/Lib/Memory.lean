import Mathlib.Data.List.Basic
import Mathlib.Data.List.TakeDrop

/-!
# A block of memory as a list

Accesses that leave the block are undefined. The lemmas read a block as a concatenation of
the part before the access, the accessed part and the part after it.
-/

namespace Aug.Lib

variable {α : Type*}

/-- Read `n` cells from index `i`. -/
def load (mem : List α) (i n : ℕ) : Option (List α) :=
  if i + n ≤ mem.length then some ((mem.drop i).take n) else none

/-- Overwrite the cells from index `i`. -/
def store (mem : List α) (i : ℕ) (xs : List α) : Option (List α) :=
  if i + xs.length ≤ mem.length then some (mem.take i ++ (xs ++ mem.drop (i + xs.length))) else none

/-- Copy `n` cells from `src` to `dst`; the two ranges may overlap. -/
def move (mem : List α) (dst src n : ℕ) : Option (List α) :=
  (load mem src n).bind (store mem dst)

/-- A read gives as many cells as were asked for. -/
theorem load_length {mem xs : List α} {i n : ℕ} (h : load mem i n = some xs) : xs.length = n := by
  unfold load at h
  split at h
  · obtain rfl := Option.some.inj h
    simp
    omega
  · cases h

theorem load_append {a b c : List α} {i n : ℕ} (hi : i = a.length) (hn : n = b.length) :
    load (a ++ (b ++ c)) i n = some b := by
  subst hi hn
  simp [load]

theorem store_append {a b c x : List α} {i : ℕ} (hi : i = a.length) (hx : x.length = b.length) :
    store (a ++ (b ++ c)) i x = some (a ++ (x ++ c)) := by
  subst hi
  have hdrop : (a ++ (b ++ c)).drop (a.length + x.length) = c := by
    rw [hx, ← List.append_assoc, ← List.length_append, List.drop_left]
  rw [store, if_pos (by simp [hx]), hdrop, List.take_left]

/-- Reading one of the segments that make up a block. -/
theorem load_segment (before after : List (List α)) {segment : List α} {i n : ℕ}
    (hi : i = before.flatten.length) (hn : n = segment.length) :
    load (before ++ segment :: after).flatten i n = some segment := by
  rw [List.flatten_append, List.flatten_cons]
  exact load_append hi hn

/-- Overwriting one of the segments that make up a block. -/
theorem store_segment (before after : List (List α)) {segment xs : List α} {i : ℕ}
    (hi : i = before.flatten.length) (hx : xs.length = segment.length) :
    store (before ++ segment :: after).flatten i xs = some (before ++ xs :: after).flatten := by
  simp only [List.flatten_append, List.flatten_cons]
  exact store_append hi hx

/-- A store keeps the size of the block. -/
theorem store_length {mem mem' xs : List α} {i : ℕ} (h : store mem i xs = some mem') :
    mem'.length = mem.length := by
  unfold store at h
  split at h
  · obtain rfl := Option.some.inj h
    simp
    omega
  · cases h

/-- A copy within a block replaces the cells at `dst` by the cells it read. -/
theorem move_append {a b c : List α} {dst src n : ℕ} (hs : src = a.length) (hn : n = b.length)
    (hd : dst + b.length ≤ a.length + (b.length + c.length)) :
    move (a ++ (b ++ c)) dst src n =
      some ((a ++ (b ++ c)).take dst ++ (b ++ (a ++ (b ++ c)).drop (dst + b.length))) := by
  rw [move, load_append hs hn, Option.bind_some, store, if_pos (by simpa using hd)]

/-! ## Cell by cell -/

variable {mem mem' xs : List α} {i n : ℕ}

/-- A read inside the block is defined. -/
theorem load_of_le (h : i + n ≤ mem.length) : ∃ xs, load mem i n = some xs := ⟨_, if_pos h⟩

/-- A write inside the block is defined. -/
theorem store_of_le (h : i + xs.length ≤ mem.length) : ∃ mem', store mem i xs = some mem' := ⟨_, if_pos h⟩

/-- What a read finds. -/
theorem getElem?_load (h : load mem i n = some xs) {k : ℕ} (hk : k < n) : xs[k]? = mem[i + k]? := by
  unfold load at h
  split at h
  · cases h
    rw [List.getElem?_take_of_lt hk, List.getElem?_drop]
  · cases h

/-- What a write leaves. -/
theorem getElem?_store (h : store mem i xs = some mem') (j : ℕ) :
    mem'[j]? = if i ≤ j ∧ j < i + xs.length then xs[j - i]? else mem[j]? := by
  unfold store at h
  split at h
  case isTrue hin =>
    cases h
    have htake : (mem.take i).length = i := by
      rw [List.length_take]
      omega
    rcases Nat.lt_or_ge j i with hj | hj
    · rw [List.getElem?_append_left (by omega), List.getElem?_take_of_lt hj, if_neg (by omega)]
    · rw [List.getElem?_append_right (by omega), htake]
      by_cases hxs : j < i + xs.length
      · rw [List.getElem?_append_left (by omega), if_pos ⟨hj, hxs⟩]
      · rw [List.getElem?_append_right (by omega), List.getElem?_drop, if_neg (by omega)]
        congr 1
        omega
  case isFalse => cases h

/-- What a copy within the block leaves. -/
theorem getElem?_move {dst src : ℕ} (h : move mem dst src n = some mem') (j : ℕ) :
    mem'[j]? = if dst ≤ j ∧ j < dst + n then mem[src + (j - dst)]? else mem[j]? := by
  obtain ⟨xs, hload, hstore⟩ := Option.bind_eq_some_iff.mp h
  have hlen := load_length hload
  rw [getElem?_store hstore, hlen]
  split_ifs with hj
  · exact getElem?_load hload (by omega)
  · rfl

/-- Reading what has been written, with what was there in front of it. -/
theorem load_store {ys : List α} {m : ℕ} (hload : load mem i m = some xs) (hstore : store mem (i + m) ys = some mem') :
    load mem' i (m + ys.length) = some (xs ++ ys) := by
  have hxs := load_length hload
  have hroom : i + (m + ys.length) ≤ mem'.length := by
    have hlen := store_length hstore
    unfold store at hstore
    split at hstore
    · omega
    · cases hstore
  obtain ⟨all, hall⟩ := load_of_le hroom
  have hlen := load_length hall
  rw [hall]
  congr 1
  apply List.ext_getElem?
  intro k
  by_cases hk : k < m + ys.length
  · rw [getElem?_load hall hk, getElem?_store hstore]
    by_cases hm : k < m
    · rw [if_neg (by omega), List.getElem?_append_left (by omega), getElem?_load hload hm]
    · have hindex : i + k - (i + m) = k - m := by omega
      rw [if_pos (by omega), List.getElem?_append_right (by omega), hxs, hindex]
  · rw [List.getElem?_eq_none (by omega), List.getElem?_eq_none (by rw [List.length_append]; omega)]

end Aug.Lib
