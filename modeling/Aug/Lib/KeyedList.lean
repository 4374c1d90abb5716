import Mathlib.Data.List.Basic
import Mathlib.Data.List.Nodup

/-!
# Ordered lists with unique keys

Entries keep the order in which their keys first appeared. Putting an entry whose key is
present replaces that entry in place; any other entry is appended. Erasing closes the gap.
The list carries the uniqueness of its keys.
-/

namespace Aug.Lib

/-- Entries in order, no two with one key. -/
@[ext] structure KeyedList {α κ : Type*} (key : α → κ) where
  entries : List α
  unique : (entries.map key).Nodup

namespace KeyedList

variable {α κ : Type*} {key : α → κ}

/-- The list without entries. -/
def empty : KeyedList key := ⟨[], List.nodup_nil⟩

/-- Remove the entry at a position. -/
def erase (l : KeyedList key) (n : ℕ) : KeyedList key :=
  ⟨l.entries.eraseIdx n, l.unique.sublist ((List.eraseIdx_sublist _ _).map key)⟩

/-- Update the entry at a position without changing its key. -/
def update (l : KeyedList key) (n : ℕ) (f : α → α) (hf : ∀ a, key (f a) = key a) : KeyedList key :=
  ⟨l.entries.modify n f, by
    have hkeys : (l.entries.modify n f).map key = l.entries.map key := by
      apply List.ext_getElem (by simp)
      intro i hi _
      simp only [List.getElem_map, List.getElem_modify]
      split <;> simp [hf]
    rw [hkeys]
    exact l.unique⟩

variable [DecidableEq κ]

/-- The position of a key, or the number of entries if it is absent. -/
def ordinal (l : KeyedList key) (k : κ) : ℕ := l.entries.findIdx fun a => key a = k

/-- A present key is found at the first entry that has it. -/
theorem ordinal_split {l : KeyedList key} {k : κ} (h : l.ordinal k < l.entries.length) :
    ∃ front a back, l.entries = front ++ a :: back ∧ front.length = l.ordinal k ∧ key a = k ∧
      ∀ b ∈ front, key b ≠ k := by
  refine ⟨l.entries.take (l.ordinal k), l.entries[l.ordinal k], l.entries.drop (l.ordinal k + 1),
    ?_, ?_, ?_, ?_⟩
  · rw [List.getElem_cons_drop, List.take_append_drop]
  · rw [List.length_take]
    omega
  · exact of_decide_eq_true (List.findIdx_getElem (p := fun a => decide (key a = k)) (w := h))
  · intro b hb
    obtain ⟨i, hi, rfl⟩ := List.mem_take_iff_getElem.mp hb
    have hlt : i < l.ordinal k := by omega
    simpa using List.not_of_lt_findIdx (p := fun a => key a = k) hlt

theorem ordinal_le (l : KeyedList key) (k : κ) : l.ordinal k ≤ l.entries.length :=
  List.findIdx_le_length

/-- A key that is not found is the key of no entry. -/
theorem ne_of_ordinal_eq {l : KeyedList key} {k : κ} (h : l.ordinal k = l.entries.length) :
    ∀ a ∈ l.entries, key a ≠ k := by
  simpa [ordinal] using List.findIdx_eq_length.mp h

/-- Replace the entry with the same key in place, or append. -/
def put (l : KeyedList key) (a : α) : KeyedList key :=
  if h : l.ordinal (key a) < l.entries.length then
    ⟨l.entries.set (l.ordinal (key a)) a, by
      have hkeys : (l.entries.set (l.ordinal (key a)) a).map key = l.entries.map key := by
        obtain ⟨front, b, back, hsplit, hfront, hkey, -⟩ := ordinal_split h
        rw [← hfront, hsplit]
        simp [hkey]
      rw [hkeys]
      exact l.unique⟩
  else
    ⟨l.entries ++ [a], by
      have habsent := ne_of_ordinal_eq (Nat.le_antisymm (l.ordinal_le _) (Nat.not_lt.mp h))
      rw [List.map_append, List.nodup_append]
      refine ⟨l.unique, by simp, ?_⟩
      rintro _ hmem _ hlast rfl
      obtain ⟨b, hb, hkey⟩ := List.mem_map.mp hmem
      exact habsent b hb (hkey.trans (by simpa using hlast))⟩

theorem put_entries_of_lt {l : KeyedList key} {a : α} (h : l.ordinal (key a) < l.entries.length) :
    (l.put a).entries = l.entries.set (l.ordinal (key a)) a := by
  rw [put, dif_pos h]

theorem put_entries_of_eq {l : KeyedList key} {a : α} (h : l.ordinal (key a) = l.entries.length) :
    (l.put a).entries = l.entries ++ [a] := by
  rw [put, dif_neg (by omega)]

end KeyedList

end Aug.Lib
