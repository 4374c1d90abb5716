import Mathlib.Data.List.DropRight
import Mathlib.Data.UInt

/-!
# Text

The trimming of `augutilpp/string.hpp`, and the lines that a stream is read in.
-/

namespace Aug.Utilpp

/-- The bytes of a literal. -/
def bytes (s : String) : List UInt8 := s.toList.map fun ch => ch.toNat.toUInt8

/-- `SPACE`. -/
def space : List UInt8 := [32, 9, 10, 11, 12, 13]

/-- `ltrim`. -/
def ltrim (delims s : List UInt8) : List UInt8 := s.dropWhile (· ∈ delims)

/-- `rtrim`. -/
def rtrim (delims s : List UInt8) : List UInt8 := s.rdropWhile (· ∈ delims)

/-- `trim`, and `trimcopy`. -/
def trim (delims s : List UInt8) : List UInt8 := rtrim delims (ltrim delims s)

/-- What `getline` reads: the lines of a text, of which the last one may have no end. -/
def getlines (text : List UInt8) : List (List UInt8) :=
  let lines := text.splitOn 10
  if lines.getLast? = some [] then lines.dropLast else lines

/-- The lines of a text with their ends. -/
def putlines (lines : List (List UInt8)) : List UInt8 := lines.flatMap (· ++ [10])

variable {delims s : List UInt8} {lines : List (List UInt8)}

/-! ## Trimming -/

/-- No delimiter is at either end. -/
def Trimmed (delims s : List UInt8) : Prop := (∀ ch ∈ s.head?, ch ∉ delims) ∧ ∀ ch ∈ s.getLast?, ch ∉ delims

instance : Decidable (Trimmed delims s) :=
  inferInstanceAs (Decidable ((∀ ch ∈ s.head?, ch ∉ delims) ∧ ∀ ch ∈ s.getLast?, ch ∉ delims))

theorem trim_eq_self (h : Trimmed delims s) : trim delims s = s := by
  have hleft : ltrim delims s = s := by
    cases s with
    | nil => rfl
    | cons ch s =>
      apply List.dropWhile_cons_of_neg
      simpa using h.1 ch rfl
  rw [trim, hleft, rtrim, List.rdropWhile_eq_self_iff]
  intro hne
  simpa using h.2 (s.getLast hne) (List.getLast?_eq_getLast_of_ne_nil hne)

/-- What is trimmed is a part of the text. -/
theorem trim_within (delims s : List UInt8) : trim delims s <:+: s :=
  (List.rdropWhile_prefix _ _).isInfix.trans (List.dropWhile_suffix _).isInfix

theorem trimmed_trim (delims s : List UInt8) : Trimmed delims (trim delims s) := by
  constructor
  · intro ch hch
    have hprefix : trim delims s <+: ltrim delims s := List.rdropWhile_prefix _ _
    have hhead : (ltrim delims s).head? = some ch := by
      obtain ⟨rest, hrest⟩ := hprefix
      cases htrim : trim delims s with
      | nil =>
        rw [htrim] at hch
        cases hch
      | cons first text =>
        rw [htrim] at hch hrest
        rw [← hrest]
        exact hch
    have hnot := List.head?_dropWhile_not (fun ch => decide (ch ∈ delims)) s
    rw [ltrim] at hhead
    rw [hhead] at hnot
    simpa using hnot
  · intro ch hch
    have hne : trim delims s ≠ [] := by
      intro hnil
      rw [hnil] at hch
      cases hch
    have hlast := List.rdropWhile_last_not (fun ch => decide (ch ∈ delims)) (ltrim delims s) hne
    have heq : (trim delims s).getLast hne = ch := by
      rw [List.getLast?_eq_getLast_of_ne_nil hne] at hch
      exact Option.some_inj.mp hch
    rw [← heq]
    exact of_decide_eq_false (Bool.eq_false_of_not_eq_true hlast)

/-! ## Lines -/

/-- Lines that have been put are read. -/
theorem getlines_putlines (h : ∀ line ∈ lines, 10 ∉ line) : getlines (putlines lines) = lines := by
  have hsplit : (putlines lines).splitOn 10 = lines ++ [[]] := by
    induction lines with
    | nil => rfl
    | cons line lines ih =>
      have hline : putlines (line :: lines) = line ++ 10 :: putlines lines := by
        rw [putlines, List.flatMap_cons, List.append_assoc]
        rfl
      rw [hline, List.splitOn_append_cons_self_of_not_mem (h line List.mem_cons_self),
        ih fun other hother => h other (List.mem_cons_of_mem _ hother)]
      rfl
  rw [getlines, hsplit]
  simp

/-- The delimiter is in none of the parts. -/
theorem notMem_of_mem_splitOn (delim : UInt8) (s : List UInt8) : ∀ part ∈ s.splitOn delim, delim ∉ part := by
  induction s with
  | nil =>
    intro part hpart
    rw [List.splitOn_nil, List.mem_singleton] at hpart
    rw [hpart]
    exact List.not_mem_nil
  | cons ch s ih =>
    rw [List.splitOn_cons_eq_if_modifyHead]
    split_ifs with hdelim
    · exact List.forall_mem_cons.mpr ⟨List.not_mem_nil, ih⟩
    · cases hsplit : s.splitOn delim with
      | nil => exact absurd hsplit (List.splitOn_ne_nil delim s)
      | cons first rest =>
        rw [hsplit, List.forall_mem_cons] at ih
        rw [List.modifyHead_cons, List.forall_mem_cons]
        apply And.intro _ ih.2
        intro hmem
        cases List.mem_cons.mp hmem with
        | inl heq => exact hdelim (beq_iff_eq.mpr heq.symm)
        | inr hfirst => exact ih.1 hfirst

/-- A line that is read has no end in it. -/
theorem newline_notMem (text : List UInt8) : ∀ line ∈ getlines text, 10 ∉ line := by
  intro line hline
  apply notMem_of_mem_splitOn 10 text
  rw [getlines] at hline
  split_ifs at hline
  · exact List.mem_of_mem_dropLast hline
  · exact hline

end Aug.Utilpp
