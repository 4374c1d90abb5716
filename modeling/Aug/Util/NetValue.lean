import Aug.Util.Words
import Mathlib.Data.List.DropRight

/-!
# Folded values

What the value of a header field is to be, for a value written on any number of lines with backslash escapes:
blanks are dropped at the ends of lines if they are not escaped. `aug_rtrimword` sees the characters only, after
their escapes have been resolved, and the two are compared here.
-/

namespace Aug.Util

/-- A character of a value as it is written: by itself or behind a backslash. -/
inductive Item
  | plain (b : UInt8)
  | escaped (b : UInt8)
deriving DecidableEq, Repr

namespace Item

/-- The character that an item stands for. -/
def char : Item → UInt8
  | plain b => b
  | escaped b => b

/-- The characters that it is written with. -/
def source : Item → List UInt8
  | plain b => [b]
  | escaped b => [92, b]

/-- A 7-bit character; a newline or a backslash has to be escaped. -/
def Allowed : Item → Prop
  | plain b => b < 128 ∧ b ≠ 10 ∧ b ≠ 92
  | escaped b => b < 128

instance (item : Item) : Decidable item.Allowed := by
  cases item <;> unfold Allowed <;> infer_instance

/-- A blank, escaped or not. -/
def space (item : Item) : Bool := isspace item.char

/-- A blank that is not escaped. -/
def blank : Item → Bool
  | plain b => isspace b
  | escaped _ => false

theorem space_of_blank {item : Item} (h : item.blank = true) : item.space = true := by
  cases item with
  | plain b => exact h
  | escaped b => cases h

end Item

/-- The characters of a text. -/
def textOf (text : List Item) : List UInt8 := text.map Item.char

/-- The value of a field: its first line, and each further line with the blank that it begins with. -/
structure Value where
  first : List Item
  rest : List (UInt8 × List Item)
deriving DecidableEq, Repr

namespace Value

/-- A line without its leading blanks. -/
def lead (line : List Item) : List Item := line.dropWhile Item.blank

/-- A text without its trailing blanks. -/
def trim (text : List Item) : List Item := text.rdropWhile Item.blank

/-- The text with a further line behind it. -/
def join (text line : List Item) : List Item := text ++ .plain 32 :: lead line

/-- The text with further lines, trimmed behind each. -/
def unfoldWith (text : List Item) (rest : List (UInt8 × List Item)) : List Item :=
  rest.foldl (fun text line => trim (join text line.2)) text

/-- The value as it is meant. -/
def unfolded (value : Value) : List Item := unfoldWith (trim (lead value.first)) value.rest

/-- The value as it is written. -/
def source (value : Value) : List UInt8 :=
  value.first.flatMap Item.source ++ [10] ++
    value.rest.flatMap fun line => line.1 :: line.2.flatMap Item.source ++ [10]

/-- The value is written with 7-bit characters, and its further lines begin with a blank. -/
structure Valid (value : Value) : Prop where
  first : ∀ item ∈ value.first, item.Allowed
  rest : ∀ line ∈ value.rest, (∀ item ∈ line.2, item.Allowed) ∧ (line.1 = 9 ∨ line.1 = 11 ∨ line.1 = 12 ∨ line.1 = 32)

/-! ## When the trimming agrees -/

/-- The blanks at the end of the text, up to the last escaped one, are none, or just one behind a backslash. A text
of blanks only does not qualify. -/
def Alike (text : List Item) : Prop :=
  text.rtakeWhile Item.space = [] ∨ ∃ last, (text.rdropWhile Item.space).getLast? = some last ∧
    (trim (text.rtakeWhile Item.space)).length = if last.char = 92 then 1 else 0

/-- So it is behind each of the further lines. -/
def AlikeWith (text : List Item) : List (UInt8 × List Item) → Prop
  | [] => True
  | line :: rest => Alike (join text line.2) ∧ AlikeWith (trim (join text line.2)) rest

/-- A line without the carriage returns that are not escaped. -/
def visible (line : List Item) : List Item := line.filter (· ≠ .plain 13)

/-- The value without them. -/
def seen (value : Value) : Value :=
  { first := visible value.first, rest := value.rest.map fun line => (line.1, visible line.2) }

/-- The value keeps no carriage return, and behind each line, with the carriage returns left out, it is trimmed
alike. -/
def Clean (value : Value) : Prop :=
  13 ∉ textOf value.unfolded ∧ Alike (lead value.seen.first) ∧ AlikeWith (trim (lead value.seen.first)) value.seen.rest

/-! ## Trimming characters -/

variable (before : UInt8)

/-- What a token is trimmed to. -/
def cut (token : List UInt8) : List UInt8 := token.take (rtrimword before token)

/-- Nothing but blanks, so that `aug_rtrimword` looks in front of the buffer. -/
def Looks (token : List UInt8) : Prop := token ≠ [] ∧ trimmed token.reverse = 0

/-- The token with further lines. -/
def cutWith (token : List UInt8) (rest : List (UInt8 × List Item)) : List UInt8 :=
  rest.foldl (fun token line => cut before (token ++ 32 :: textOf (lead line.2))) token

/-- Trimming behind one of the further lines looks in front of the buffer. -/
def LooksWith (token : List UInt8) : List (UInt8 × List Item) → Prop
  | [] => False
  | line :: rest => Looks (token ++ 32 :: textOf (lead line.2)) ∨
    LooksWith (cut before (token ++ 32 :: textOf (lead line.2))) rest

variable {before} {text blanks : List Item} {last : Item}

theorem trimmed_append {back : List UInt8} (hback : ∀ b ∈ back, isspace b = true) (token : List UInt8) :
    trimmed (back ++ token) = trimmed token := by
  induction back with
  | nil => rfl
  | cons b back ih =>
    rw [List.cons_append, trimmed, if_pos (hback b (List.mem_cons_self ..))]
    exact ih fun c hc => hback c (List.mem_cons_of_mem b hc)

theorem trimmed_eq_zero {token : List UInt8} : trimmed token = 0 ↔ ∀ b ∈ token, isspace b = true := by
  induction token with
  | nil => simp [trimmed]
  | cons b token ih =>
    rw [trimmed, List.forall_mem_cons]
    cases isspace b <;> simp [ih]

/-- Only nothing but blanks makes it look in front. -/
theorem looks_iff : Looks (textOf text) ↔ text ≠ [] ∧ ∀ item ∈ text, item.space = true := by
  rw [Looks, trimmed_eq_zero]
  simp [textOf, Item.space]

theorem take_textOf (front back : List Item) : (textOf (front ++ back)).take front.length = textOf front := by
  simp [textOf]

/-- A text that ends with blanks behind another character keeps the first of them behind a backslash. -/
theorem cut_eq (hlast : last.space = false) (hblanks : ∀ item ∈ blanks, item.space = true) :
    cut before (textOf (text ++ [last] ++ blanks)) =
      textOf (text ++ [last] ++ if last.char = 92 then blanks.take 1 else []) := by
  have hreverse : (textOf (text ++ [last] ++ blanks)).reverse =
      (textOf blanks).reverse ++ last.char :: (textOf text).reverse := by
    simp [textOf]
  have hback : ∀ b ∈ (textOf blanks).reverse, isspace b = true := by
    intro b hb
    obtain ⟨item, hitem, rfl⟩ := List.mem_map.mp (List.mem_reverse.mp hb)
    exact hblanks item hitem
  have htrimmed : trimmed (textOf (text ++ [last] ++ blanks)).reverse = text.length + 1 := by
    have hchar : ¬isspace last.char = true := by
      rw [show isspace last.char = last.space from rfl, hlast]
      exact Bool.false_ne_true
    rw [hreverse, trimmed_append hback, trimmed, if_neg hchar]
    simp [textOf]
  have hget : (textOf (text ++ [last] ++ blanks)).getD (text.length + 1 - 1) 0 = last.char := by
    simp [textOf]
  have hlength : (textOf (text ++ [last] ++ blanks)).length = text.length + 1 + blanks.length := by
    simp only [textOf, List.length_map, List.length_append, List.length_singleton]
  have hne : ¬text.length + 1 = 0 := Nat.succ_ne_zero _
  rw [cut, rtrimword, htrimmed, if_neg hne, hget, hlength]
  by_cases hquoted : last.char = 92
  · rw [if_pos hquoted]
    cases blanks with
    | nil =>
      rw [if_neg fun h => absurd h.1 (Nat.lt_irrefl _)]
      exact List.take_of_length_le (by simp [textOf])
    | cons item blanks =>
      have hshort : text.length + 1 < text.length + 1 + (item :: blanks).length ∧ last.char = 92 :=
        ⟨by simp, hquoted⟩
      have hsplit : text ++ [last] ++ item :: blanks = (text ++ [last] ++ [item]) ++ blanks := by simp
      have hfront : (text ++ [last] ++ [item]).length = text.length + 1 + 1 := by simp
      rw [if_pos hshort, hsplit, ← hfront, take_textOf]
      rfl
  · rw [if_neg fun h => hquoted h.2, if_neg hquoted, List.append_nil]
    have hfront : (text ++ [last]).length = text.length + 1 := by simp
    rw [← hfront, take_textOf]

/-- What is not a blank protects what is in front of it. -/
theorem trim_append (text more : List Item) :
    trim (text ++ more) = if trim more = [] then trim text else text ++ trim more := by
  induction more using List.reverseRecOn with
  | nil => simp [trim]
  | append_singleton more item ih =>
    by_cases hitem : item.blank = true
    · have hmore : trim (more ++ [item]) = trim more := List.rdropWhile_concat_pos _ _ item hitem
      have hall : trim (text ++ (more ++ [item])) = trim (text ++ more) := by
        rw [← List.append_assoc]
        exact List.rdropWhile_concat_pos _ _ item hitem
      rw [hmore, hall, ih]
    · have hmore : trim (more ++ [item]) = more ++ [item] := List.rdropWhile_concat_neg _ _ item hitem
      have hall : trim (text ++ (more ++ [item])) = text ++ (more ++ [item]) := by
        rw [← List.append_assoc]
        exact List.rdropWhile_concat_neg _ _ item hitem
      rw [hmore, hall, if_neg (by simp)]

theorem trim_append_blanks (hlast : last.space = false) (text blanks : List Item) :
    trim (text ++ [last] ++ blanks) = text ++ [last] ++ trim blanks := by
  have hblank : ¬last.blank = true := by
    intro hblank
    rw [Item.space_of_blank hblank] at hlast
    cases hlast
  rw [trim_append]
  split
  case isTrue hnone =>
    rw [hnone, List.append_nil]
    exact List.rdropWhile_concat_neg _ _ last hblank
  case isFalse => rfl

end Value

end Aug.Util
