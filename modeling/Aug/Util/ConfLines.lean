import Aug.Util.Conf
import Aug.Util.ShellQuoting

/-!
# The lines of a configuration file

How settings, blank lines and comments are written, with words in every quoting style of `shellwords.c`, and
what the callback should be called with. The reader is its output function on what the words send.
-/

namespace Aug.Util

open Piece

/-! ## How a file is written -/

/-- A part of a text in double quotes: a character, one of the two that a backslash quotes, a backslash that
stays as it is with the character behind it, or a line continuation. -/
inductive Quoted
  | char (b : UInt8)
  | quoted (b : UInt8)
  | literal (b : UInt8)
  | continued
deriving DecidableEq, Repr

namespace Quoted

/-- The characters that it stands for. -/
def text : Quoted → List UInt8
  | char b => [b]
  | quoted b => [b]
  | literal b => [92, b]
  | continued => []

/-- The characters that it is written with. -/
def source : Quoted → List UInt8
  | char b => [b]
  | quoted b => [92, b]
  | literal b => [92, b]
  | continued => [92, 10]

/-- What is written stands for itself in double quotes. -/
def Allowed : Quoted → Prop
  | char b => b ≠ 34 ∧ b ≠ 92
  | quoted b => b = 34 ∨ b = 92
  | literal b => b ≠ 34 ∧ b ≠ 92 ∧ b ≠ 10
  | continued => True

instance (part : Quoted) : Decidable part.Allowed := by
  cases part <;> unfold Allowed <;> infer_instance

end Quoted

/-- A part of a word in one of the quoting styles, or a line continuation. -/
inductive Part
  | bare (b : UInt8)
  | escaped (b : UInt8)
  | continued
  | single (text : List UInt8)
  | double (parts : List Quoted)
deriving DecidableEq, Repr

namespace Part

/-- The characters that a part stands for. -/
def text : Part → List UInt8
  | bare b => [b]
  | escaped b => [b]
  | continued => []
  | single text => text
  | double parts => parts.flatMap Quoted.text

/-- The characters that a part is written with. -/
def source : Part → List UInt8
  | bare b => [b]
  | escaped b => [92, b]
  | continued => [92, 10]
  | single text => 39 :: text ++ [39]
  | double parts => 34 :: parts.flatMap Quoted.source ++ [34]

/-- A part that is written as its style allows. -/
def Allowed : Part → Prop
  | bare b => Plain b
  | escaped b => b ≠ 10
  | continued => True
  | single text => 39 ∉ text
  | double parts => ∀ part ∈ parts, part.Allowed

instance (part : Part) : Decidable part.Allowed := by
  cases part <;> unfold Allowed <;> infer_instance

/-- The text of a word. -/
def textOf (parts : List Part) : List UInt8 := parts.flatMap text

/-- A word as it is written. -/
def sourceOf (parts : List Part) : List UInt8 := parts.flatMap source

theorem textOf_cons (part : Part) (parts : List Part) : textOf (part :: parts) = part.text ++ textOf parts := rfl

theorem sourceOf_cons_append (part : Part) (parts : List Part) (rest : List UInt8) :
    sourceOf (part :: parts) ++ rest = part.source ++ (sourceOf parts ++ rest) := List.append_assoc ..

/-- A word with a bare character has some text. -/
theorem textOf_pos {b : UInt8} {parts : List Part} (hmem : .bare b ∈ parts) : 0 < (textOf parts).length :=
  List.length_pos_of_mem (List.mem_flatMap.mpr ⟨.bare b, hmem, List.mem_singleton.mpr rfl⟩)

/-- A word has some text, and it does not begin as a comment. -/
structure Word (parts : List Part) : Prop where
  nonempty : textOf parts ≠ []
  allowed : ∀ part ∈ parts, part.Allowed
  begins : (parts.dropWhile (· = .continued)).head? ≠ some (.bare 35)

end Part

/-- A setting: its key, and its words with the blank space behind each. -/
structure Setting where
  lead : List UInt8
  key : List UInt8
  gap : List UInt8
  words : List (List Part × List UInt8)
deriving DecidableEq, Repr

namespace Setting

/-- The words as they are written. -/
def wordsOf (words : List (List Part × List UInt8)) : List UInt8 :=
  words.flatMap fun entry => Part.sourceOf entry.1 ++ entry.2

theorem wordsOf_cons_append (first : List Part × List UInt8) (words : List (List Part × List UInt8))
    (rest : List UInt8) :
    wordsOf (first :: words) ++ rest = Part.sourceOf first.1 ++ (first.2 ++ (wordsOf words ++ rest)) := by
  simp only [wordsOf, List.flatMap_cons, List.append_assoc]

/-- The words joined by single spaces. -/
def joined (words : List (List Part × List UInt8)) : List UInt8 :=
  [32].intercalate (words.map fun entry => Part.textOf entry.1)

/-- The setting as it is written. -/
def source (setting : Setting) : List UInt8 :=
  setting.lead ++ setting.key ++ [61] ++ setting.gap ++ wordsOf setting.words

/-- The key and the value. -/
def call (setting : Setting) : Pair := (setting.key, joined setting.words)

/-- A character of a key. -/
def KeyChar (b : UInt8) : Prop := Plain b ∧ b ≠ 61 ∧ b ≠ 0

instance (b : UInt8) : Decidable (KeyChar b) := inferInstanceAs (Decidable (_ ∧ _))

/-- Words that are separated by blank space. -/
structure Words (words : List (List Part × List UInt8)) : Prop where
  word : ∀ entry ∈ words, Part.Word entry.1
  blank : ∀ entry ∈ words, Blank entry.2
  separated : ∀ entry ∈ words.dropLast, Separates entry.2

/-- A line with a plain key and at least one word. -/
structure Valid (setting : Setting) : Prop where
  lead : Blank setting.lead
  key : ∀ b ∈ setting.key, KeyChar b
  named : setting.key ≠ []
  begins : setting.key.head? ≠ some 35
  gap : Blank setting.gap
  some : setting.words ≠ []
  words : Words setting.words

end Setting

/-- A line of a file. -/
inductive ConfLine
  | setting (setting : Setting)
  | blank (gap : List UInt8)
  | comment (lead text : List UInt8)
deriving DecidableEq, Repr

namespace ConfLine

/-- The line without its newline. -/
def source : ConfLine → List UInt8
  | setting line => line.source
  | blank gap => gap
  | comment lead text => lead ++ 35 :: text

/-- A line that is written as its kind allows. -/
def Valid : ConfLine → Prop
  | setting line => line.Valid
  | blank gap => Blank gap
  | comment lead text => Blank lead ∧ 10 ∉ text

/-- The setting on the line, if any. -/
def setting? : ConfLine → Option Setting
  | setting line => some line
  | _ => none

/-- A file with these lines, where the last one may lack its newline. -/
def file (lines : List ConfLine) (ended : Bool) : List UInt8 :=
  let all := lines.flatMap fun line => line.source ++ [10]
  if ended then all else all.dropLast

/-- The settings in file order. -/
def settings (lines : List ConfLine) : List Setting := lines.filterMap setting?

end ConfLine

/-- The calls that are to be made after those done, and the result: in order, until a result is negative. -/
def expected (cb : List Pair → ℤ) : List Pair → List Pair → List Pair × ℤ
  | done, [] => (done, 0)
  | done, call :: rest =>
    let calls := done ++ [call]
    if cb calls < 0 then (calls, cb calls) else expected cb calls rest

/-! ## What the words send -/

namespace ShellWords

/-- All that the words send for some input, and the words after it. -/
def feed : List UInt8 → ShellWords → List ℤ × ShellWords
  | [], words => ([], words)
  | b :: rest, words =>
    let sent := put b.toNat words
    let (whats, words) := feed rest sent.2
    (sent.1 ++ whats, words)

theorem feed_append (input rest : List UInt8) (words : ShellWords) : feed (input ++ rest) words =
    ((feed input words).1 ++ (feed rest (feed input words).2).1, (feed rest (feed input words).2).2) := by
  induction input generalizing words with
  | nil => rfl
  | cons b input ih => simp only [List.cons_append, feed, ih, List.append_assoc]

/-- The words send this for the input, and are then in the next state. -/
def Sends (words : ShellWords) (input : List UInt8) (whats : List ℤ) (next : ShellWords) : Prop :=
  feed input words = (whats, next)

/-- Characters that are passed on. -/
def chars (text : List UInt8) : List ℤ := text.map fun b : UInt8 => (b.toNat : ℤ)

theorem chars_append (text rest : List UInt8) : chars (text ++ rest) = chars text ++ chars rest :=
  List.map_append

/-- The words with pairs, outside of an escape. -/
def pairing (fn : ShellFn) (label : Bool) : ShellWords := { fn, escape := false, label, pairs := true }

section Sends

variable {words next last : ShellWords} {input rest text : List UInt8} {whats more : List ℤ} {b : UInt8}
  {label : Bool}

theorem Sends.nil : Sends words [] [] words := rfl

theorem Sends.append (h : Sends words input whats next) (hrest : Sends next rest more last) :
    Sends words (input ++ rest) (whats ++ more) last := by
  unfold Sends at h hrest ⊢
  rw [feed_append, h, hrest]

/-- One character. -/
theorem Sends.one (h : put b.toNat words = (whats, next)) : Sends words [b] whats next := by
  simp [Sends, feed, h]

/-- The carriage return is ignored. -/
theorem return_sends : Sends words [13] [] words := rfl

/-- Every other character is run. -/
theorem put_run (hb : b ≠ 13) : put b.toNat words = run b.toNat words := by
  have hreturn : (b.toNat : ℤ) ≠ return' := char_ne hb
  have heof : (b.toNat : ℤ) ≠ eof := by
    unfold eof
    omega
  rw [put, if_neg heof, if_neg hreturn]

/-- A character that is run. -/
theorem Sends.run (hb : b ≠ 13) (h : ShellWords.run b.toNat words = (whats, next)) : Sends words [b] whats next :=
  Sends.one ((put_run hb).trans h)

/-- Characters of which each is sent alone. -/
theorem Sends.each {P : Type} {source text : P → List UInt8} {parts : List P}
    (h : ∀ part ∈ parts, Sends words (source part) (chars (text part)) words) :
    Sends words (parts.flatMap source) (chars (parts.flatMap text)) words := by
  induction parts with
  | nil => exact .nil
  | cons part parts ih =>
    have hrest := ih fun other hother => h other (List.mem_cons_of_mem part hother)
    have hall := (h part (List.mem_cons_self ..)).append hrest
    simpa only [chars, List.flatMap_cons, List.map_append] using hall

/-- A text in single quotes. -/
theorem single_sends {fn : ShellFn} (hquote : 39 ∉ text) (hreturn : 13 ∉ text) (hfn : fn = .eatws ∨ fn = .bare) :
    Sends (pairing fn label) (39 :: text ++ [39]) (chars text) (pairing .bare label) := by
  have hopen : Sends (pairing fn label) [39] [] (pairing .squot label) := by
    cases hfn with
    | inl h => rw [h]; rfl
    | inr h => rw [h]; rfl
  have hinside : Sends (pairing .squot label) (text.flatMap fun b => [b]) (chars (text.flatMap fun b => [b]))
      (pairing .squot label) := by
    apply Sends.each
    intro b hb
    have hquote : (b.toNat : ℤ) ≠ 39 := char_ne fun heq : b = 39 => hquote (heq ▸ hb)
    apply Sends.run fun heq => hreturn (heq ▸ hb)
    simp [pairing, run, squot, hquote, chars]
  have hclose : Sends (pairing .squot label) [39] [] (pairing .bare label) := rfl
  rw [List.flatMap_singleton'] at hinside
  have hall := (hopen.append hinside).append hclose
  rwa [List.append_nil] at hall

/-- A part of a text in double quotes. -/
theorem quoted_sends {part : Quoted} (hallowed : part.Allowed) (hreturn : 13 ∉ part.text) :
    Sends (pairing .dquot label) part.source (chars part.text) (pairing .dquot label) := by
  have hescape : Sends (pairing .dquot label) [92] [] { pairing .dquot label with escape := true } := rfl
  cases part with
  | char b =>
    have hquote : (b.toNat : ℤ) ≠ 34 := char_ne hallowed.1
    have hbackslash : (b.toNat : ℤ) ≠ backslash := char_ne hallowed.2
    apply Sends.run fun heq => hreturn (List.mem_singleton.mpr heq.symm)
    simp [pairing, run, dquot, hquote, hbackslash, chars, Quoted.text]
  | quoted b =>
    cases hallowed with
    | inl h => rw [h]; rfl
    | inr h => rw [h]; rfl
  | literal b =>
    have hquote : (b.toNat : ℤ) ≠ 34 := char_ne hallowed.1
    have hbackslash : (b.toNat : ℤ) ≠ backslash := char_ne hallowed.2.1
    have hnewline : (b.toNat : ℤ) ≠ newline := char_ne hallowed.2.2
    apply hescape.append
    apply Sends.run fun heq => hreturn (by simp [Quoted.text, heq])
    simp [pairing, run, dquot, hquote, hbackslash, hnewline]
    rfl
  | continued => rfl

/-- A text in double quotes. -/
theorem double_sends {fn : ShellFn} {parts : List Quoted} (hallowed : ∀ part ∈ parts, part.Allowed)
    (hreturn : 13 ∉ parts.flatMap Quoted.text) (hfn : fn = .eatws ∨ fn = .bare) :
    Sends (pairing fn label) (34 :: parts.flatMap Quoted.source ++ [34]) (chars (parts.flatMap Quoted.text))
      (pairing .bare label) := by
  have hopen : Sends (pairing fn label) [34] [] (pairing .dquot label) := by
    cases hfn with
    | inl h => rw [h]; rfl
    | inr h => rw [h]; rfl
  have hinside : Sends (pairing .dquot label) (parts.flatMap Quoted.source) (chars (parts.flatMap Quoted.text))
      (pairing .dquot label) := by
    apply Sends.each
    intro part hpart
    exact quoted_sends (hallowed part hpart) fun hmem => hreturn (List.mem_flatMap.mpr ⟨part, hpart, hmem⟩)
  have hclose : Sends (pairing .dquot label) [34] [] (pairing .bare label) := rfl
  have hall := (hopen.append hinside).append hclose
  rwa [List.append_nil] at hall

/-- An escaped character. -/
theorem escaped_sends {fn : ShellFn} (hnewline : b ≠ 10) (hreturn : b ≠ 13) (hfn : fn = .eatws ∨ fn = .bare) :
    Sends (pairing fn label) [92, b] (chars [b]) (pairing .bare label) := by
  have hnewline : (b.toNat : ℤ) ≠ newline := char_ne hnewline
  have hescape : Sends (pairing fn label) [92] [] { pairing fn label with escape := true } := by
    cases hfn with
    | inl h => rw [h]; rfl
    | inr h => rw [h]; rfl
  apply hescape.append
  apply Sends.run hreturn
  cases hfn with
  | inl h => simp [h, pairing, run, eatws, hnewline]
  | inr h => simp [h, pairing, run, bare, hnewline]

/-- A plain character, which neither begins a comment nor ends a label. -/
theorem bare_sends {fn : ShellFn} (hplain : Plain b) (hcomment : fn = .eatws → b ≠ 35)
    (hlabel : fn = .bare → label = true → b ≠ 61) (hfn : fn = .eatws ∨ fn = .bare) :
    Sends (pairing fn label) [b] (chars [b]) (pairing .bare label) := by
  have ⟨hspace, hdouble, hsingle, hend, hescape⟩ := hplain
  have hten : b ≠ 10 := fun heq => by simp [heq, isspace] at hspace
  have hreturn : b ≠ 13 := fun heq => by simp [heq, isspace] at hspace
  have hblank : isblank b.toNat = false := isblank_of_not_space hspace
  have hnewline : (b.toNat : ℤ) ≠ newline := char_ne hten
  have hdouble : (b.toNat : ℤ) ≠ 34 := char_ne hdouble
  have hsingle : (b.toNat : ℤ) ≠ 39 := char_ne hsingle
  have hend : (b.toNat : ℤ) ≠ 59 := char_ne hend
  have hescape : (b.toNat : ℤ) ≠ backslash := char_ne hescape
  apply Sends.run hreturn
  cases hfn with
  | inl h =>
    have hcomment : (b.toNat : ℤ) ≠ 35 := char_ne (hcomment h)
    simp [h, pairing, run, eatws, hnewline, hblank, hdouble, hsingle, hend, hescape, hcomment, chars]
  | inr h =>
    cases label with
    | false => simp [h, pairing, run, ShellWords.bare, hnewline, hblank, hdouble, hsingle, hend, hescape, chars]
    | true =>
      have hlabel : (b.toNat : ℤ) ≠ 61 := char_ne (hlabel h rfl)
      simp [h, pairing, run, ShellWords.bare, hnewline, hblank, hdouble, hsingle, hend, hescape, hlabel, chars]

/-- A line continuation. -/
theorem continued_sends {fn : ShellFn} (hfn : fn = .eatws ∨ fn = .bare) :
    Sends (pairing fn label) [92, 10] [] (pairing fn label) := by
  cases hfn with
  | inl h => rw [h]; rfl
  | inr h => rw [h]; rfl

end Sends

end ShellWords

namespace Conf

open ShellWords

variable {cb : List Pair → ℤ} {st : Conf}

theorem outs_append (whats more : List ℤ) : st.outs cb (whats ++ more) = (st.outs cb whats).outs cb more :=
  List.foldl_append

/-- After a negative result nothing more is put out. -/
theorem outs_failed (h : st.result < 0) (whats : List ℤ) : st.outs cb whats = st := by
  induction whats with
  | nil => rfl
  | cons what whats ih =>
    have hout : st.out cb what = st := if_pos h
    change (st.out cb what).outs cb whats = st
    rw [hout, ih]

/-- The reader puts out what the words send for the file and one more newline. -/
theorem fread_eq (file : List UInt8) (words : ShellWords) :
    fread cb file words st = st.outs cb (feed (file ++ [10]) words).1 := by
  induction file generalizing st words with
  | nil => simp only [fread, List.nil_append, feed, List.append_nil]; rfl
  | cons b file ih =>
    rw [List.cons_append, feed, outs_append, fread]
    dsimp only
    split
    case isTrue hfailed => exact (outs_failed hfailed _).symm
    case isFalse => exact ih _

end Conf

end Aug.Util
