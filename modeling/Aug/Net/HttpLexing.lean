import Aug.Net.HttpReset
import Aug.Util.Collecting
import Mathlib.Data.List.TakeWhile

/-!
# Lines of a header

What the header words make of the lines of a message, and what the parser makes of them whatever its handler
is: a line or a value is collected, a name is set, and the word of a line is taken with the first character of
the next one.
-/

namespace Aug.Net

open Aug.Lib Aug.Util

/-- A character that stands for itself in a line. -/
def LineChar (b : UInt8) : Prop := b < 251 ∧ b ≠ 10 ∧ b ≠ 13 ∧ b ≠ 92

instance (b : UInt8) : Decidable (LineChar b) := inferInstanceAs (Decidable (_ ∧ _))

/-- The text of a line or of a value, without blank space around it. -/
structure LineText (text : List UInt8) : Prop where
  chars : ∀ b ∈ text, LineChar b
  first : ∀ b ∈ text.head?, isspace b = false
  last : ∀ b ∈ text.getLast?, isspace b = false

/-- A name in front of a colon. -/
structure NameText (name : List UInt8) : Prop where
  nonempty : name ≠ []
  chars : ∀ b ∈ name, LineChar b ∧ isspace b = false ∧ b ≠ 58 ∧ b ≠ 0
  short : name.length < maxline

/-- A line ends with a carriage return and a newline. -/
def crlf : List UInt8 := [13, 10]

namespace HeaderWords

/-- The header words within a line. -/
def inside (fn : NetFn) (label : Bool) : NetWords := { fn, escape := false, label, newline := false }

/-- The header words behind a line. -/
def pending (label : Bool) : NetWords := { fn := .word, escape := false, label, newline := true }

section Chars

variable {b : UInt8} {label : Bool}

/-- A byte reads as a 7-bit character only if it is one. -/
theorem ofChar_ne_seven {b c : UInt8} (hc : c < 128) (h : b ≠ c) : ofChar b ≠ c.toNat := by
  have hlt := UInt8.lt_iff_toNat_lt.mp hc
  change c.toNat < 128 at hlt
  have hb := b.toNat_lt
  intro heq
  apply h
  rw [← UInt8.toNat_inj]
  unfold ofChar at heq
  split at heq <;> omega

/-- Nor does it read as a blank, unless it is one. -/
theorem isblank_ofChar (hspace : isspace b = false) : isblank (ofChar b) = false := by
  have hrange := isspace_range (b := b)
  have hb := b.toNat_lt
  simp only [hspace, Bool.false_eq_true, false_iff] at hrange
  simp only [isblank, decide_eq_false_iff_not]
  unfold ofChar
  split <;> omega

/-- A character of a line is run. -/
theorem put_line (hb : LineChar b) (st : NetWords) :
    NetWords.put (ofChar b) st = NetWords.run (ofChar b) st := by
  have hlt := UInt8.lt_iff_toNat_lt.mp hb.1
  change b.toNat < 251 at hlt
  have heof : ofChar b ≠ eof := by
    unfold ofChar eof
    split <;> omega
  have hreturn : ofChar b ≠ return' := ofChar_ne_seven (c := 13) (by decide) hb.2.2.1
  rw [NetWords.put, if_neg heof, if_neg hreturn]

/-- A character that is passed on. -/
theorem passes {st next : NetWords} (hb : LineChar b) (hrun : NetWords.run (ofChar b) st = ([ofChar b], next)) :
    Lexer.Collects st next [b] [b] := by
  apply Lexer.Collects.one
  · exact (put_line hb st).trans hrun
  · intro c hc
    rw [List.mem_singleton.mp hc]
    exact hb.1

/-- A character within a word. -/
theorem word_collects (hb : LineChar b) (hlabel : label = true → b ≠ 58) :
    Lexer.Collects (inside .word label) (inside .word label) [b] [b] := by
  have ⟨_, hnewline, _, hescape⟩ := hb
  have hnewline : ofChar b ≠ newline := ofChar_ne_seven (c := 10) (by decide) hnewline
  have hescape : ofChar b ≠ backslash := ofChar_ne_seven (c := 92) (by decide) hescape
  have hcolon : label = true → ofChar b ≠ 58 := fun h => ofChar_ne_seven (c := 58) (by decide) (hlabel h)
  apply passes hb
  simp only [inside, NetWords.run, NetWords.word, Bool.false_eq_true, if_false, if_neg hnewline, if_neg hescape]
  exact if_neg fun h => hcolon h.1 h.2

/-- The first character of a word. -/
theorem eatws_collects (hb : LineChar b) (hspace : isspace b = false) :
    Lexer.Collects (inside .eatws label) (inside .word label) [b] [b] := by
  have ⟨_, hnewline, _, hescape⟩ := hb
  have hnewline : ofChar b ≠ newline := ofChar_ne_seven (c := 10) (by decide) hnewline
  have hescape : ofChar b ≠ backslash := ofChar_ne_seven (c := 92) (by decide) hescape
  apply passes hb
  simp [inside, NetWords.run, NetWords.eatws, hnewline, hescape, isblank_ofChar hspace]

/-- A carriage return is dropped everywhere. -/
theorem return_collects (st : NetWords) : Lexer.Collects st st [13] [] :=
  Lexer.Collects.one rfl fun _ hc => absurd hc List.not_mem_nil

/-- A space before a word is dropped. -/
theorem space_collects : Lexer.Collects (inside .eatws label) (inside .eatws label) [32] [] := by
  apply Lexer.Collects.one _ fun _ hc => absurd hc List.not_mem_nil
  cases label <;> rfl

/-- The characters within a word. -/
theorem words_collect {text : List UInt8} (htext : ∀ b ∈ text, LineChar b) (hlabel : label = true → 58 ∉ text) :
    Lexer.Collects (inside .word label) (inside .word label) text text := by
  have heach : Lexer.Collects (inside .word label) (inside .word label) (text.flatMap fun b => [b]) text := by
    apply Lexer.Collects.each
    intro b hb
    exact word_collects (htext b hb) fun h heq => hlabel h (heq ▸ hb)
  rwa [List.flatMap_singleton'] at heach

/-- The text of a line. -/
theorem text_collects {text : List UInt8} (hchars : ∀ b ∈ text, LineChar b) (hfirst : ∀ b ∈ text.head?, isspace b = false)
    (hne : text ≠ []) (hlabel : label = true → 58 ∉ text.tail) :
    Lexer.Collects (inside .eatws label) (inside .word label) text text := by
  cases text with
  | nil => exact absurd rfl hne
  | cons b text =>
    have hfirst : Lexer.Collects (inside .eatws label) (inside .word label) [b] [b] :=
      eatws_collects (hchars b (List.mem_cons_self ..)) (hfirst b rfl)
    have hrest := words_collect (fun c hc => hchars c (List.mem_cons_of_mem b hc)) hlabel
    exact hfirst.append hrest

end Chars

/-- A text without blank space at its end is not trimmed. -/
theorem rtrimword_text (before : UInt8) {text : List UInt8} (hlast : ∀ b ∈ text.getLast?, isspace b = false) :
    rtrimword before text = text.length := by
  have htrimmed : trimmed text.reverse = text.length := by
    rw [List.getLast?_eq_head?_reverse] at hlast
    rw [show text.length = text.reverse.length from List.length_reverse.symm]
    cases hreverse : text.reverse with
    | nil => rfl
    | cons b rest =>
      rw [hreverse] at hlast
      rw [trimmed, hlast b rfl]
      rfl
  rw [rtrimword, htrimmed]
  simp

/-- The newline of a line is read behind its text. -/
theorem newline_append (before : UInt8) (label : Bool) {text : List UInt8}
    (hlast : ∀ b ∈ text.getLast?, isspace b = false) :
    (Lexer.holding before (inside .word label) text).append 10 = Lexer.holding before (pending label) text := by
  have hall : text.take (rtrimword before text) = text := by rw [rtrimword_text before hlast, List.take_length]
  have hstep : (Lexer.holding before (inside .word label) text).append 10 =
      Lexer.holding before (pending label) (text.take (rtrimword before text)) := by cases label <;> rfl
  rw [hstep, hall]

/-- The lexer behind a line that has read the first character of the next one. -/
def ended (before : UInt8) (text : List UInt8) (c : UInt8) : Lexer NetWords :=
  { words := inside .word true, token := text, what := { Lex.none with word := true }, save := c, before }

/-- The first character of the next line ends the word, and it is saved. -/
theorem pending_append (before : UInt8) (label : Bool) (text : List UInt8) {c : UInt8} (hc : LineChar c)
    (hspace : isspace c = false) :
    (Lexer.holding before (pending label) text).append c = ended before text c := by
  have ⟨hlt, hnewline, _, hescape⟩ := hc
  have hnewline : ofChar c ≠ newline := ofChar_ne_seven (c := 10) (by decide) hnewline
  have hescape : ofChar c ≠ backslash := ofChar_ne_seven (c := 92) (by decide) hescape
  have hput : NetWords.put (ofChar c) (pending label) = ([tokword, ofChar c], inside .word true) := by
    rw [put_line hc]
    simp [pending, NetWords.run, NetWords.word, hnewline, hescape, isblank_ofChar hspace, inside]
  have hsave : ∀ lexer : Lexer NetWords, lexer.what ≠ .none → lexer.out (ofChar c) = { lexer with save := c } := by
    intro lexer hwhat
    have hcontrol : iscontrol (ofChar c) = false := by
      rw [Bool.eq_false_iff, Ne, iscontrol_iff]
      have hrange := Lexer.ofChar_range hlt
      omega
    rw [Twin.out_of_not_control lexer hcontrol, if_neg hwhat, Lexer.toChar_ofChar]
  have hstart : (Lexer.holding before (pending label) text).start = Lexer.holding before (pending label) text := rfl
  rw [Lexer.append_eq, hstart, Lexer.holding, hput]
  have hword : ({ Lex.none with word := true } : Lex) ≠ .none := by decide
  exact hsave _ hword

/-- The lexer behind an empty line. -/
def emptyLine (before : UInt8) (text : List UInt8) : Lexer NetWords :=
  { words := .init, token := text, what := { Lex.none with word := true, phrase := true }, save := 0, before }

/-- The newline of an empty line ends the word and the phrase. -/
theorem empty_append (before : UInt8) (label : Bool) (text : List UInt8) :
    (Lexer.holding before (pending label) text).append 10 = emptyLine before text := by
  cases label <;> rfl

/-- The lexer at the colon behind a name. -/
def labelled (before : UInt8) (name : List UInt8) : Lexer NetWords :=
  { words := inside .eatws false, token := name, what := { Lex.none with label := true }, save := 0, before }

/-- A colon behind a name ends it. -/
theorem colon_append (before : UInt8) {name : List UInt8} (hlast : ∀ b ∈ name.getLast?, isspace b = false) :
    (Lexer.holding before (inside .word true) name).append 58 = labelled before name := by
  have hall : name.take (rtrimword before name) = name := by rw [rtrimword_text before hlast, List.take_length]
  have hstep : (Lexer.holding before (inside .word true) name).append 58 =
      labelled before (name.take (rtrimword before name)) := rfl
  rw [hstep, hall]

end HeaderWords

namespace HttpParser

open HeaderWords

variable {H : Type} [Handler H] {parser next : HttpParser H}

/-- A byte is read with the next token anyway. -/
theorem char_start (b : UInt8) : ({ parser with lexer := parser.lexer.start } : HttpParser H).char b = parser.char b := by
  unfold char
  rw [Lexer.start_append]

theorem chars_start {lexer : Lexer NetWords} (hstart : parser.lexer.start = lexer) {input : List UInt8} (hne : input ≠ []) :
    parser.chars input = ({ parser with lexer } : HttpParser H).chars input := by
  cases input with
  | nil => exact absurd rfl hne
  | cons b input => rw [chars, chars, ← hstart, char_start]

/-- Input of which nothing is reported only moves the lexer. -/
theorem chars_silent {input : List UInt8} (hnone : parser.lexer.reported input = []) :
    parser.chars input = (.more, [], { parser with lexer := parser.lexer.appends input }) := by
  induction input generalizing parser with
  | nil => rfl
  | cons b input ih =>
    have hparts := List.append_eq_nil_iff.mp hnone
    have hwhat : (parser.lexer.append b).what = .none := by
      have hflags : reports ((parser.lexer.append b).what, (parser.lexer.append b).lexertoken) = [] := hparts.1
      generalize (parser.lexer.append b).lexertoken = token at hflags
      generalize (parser.lexer.append b).what = what at hflags ⊢
      obtain ⟨label, word, phrase⟩ := what
      cases label <;> cases word <;> cases phrase <;> first | rfl | exact absurd hflags (by simp [reports])
    rw [chars, char_of_none hwhat]
    exact ih hparts.2

/-- Input that is collected goes into the token, and the header goes on. -/
theorem chars_collects {before : UInt8} {words words' : NetWords} {token input text : List UInt8}
    (hcollects : Lexer.Collects words words' input text) (hlexer : parser.lexer = Lexer.holding before words token) :
    parser.chars input = (.more, [], { parser with lexer := Lexer.holding before words' (token ++ text) }) := by
  have ⟨hnext, hnone⟩ := hcollects before token
  rw [← hlexer] at hnext hnone
  rw [chars_silent hnone, hnext]

section Lines

variable {before : UInt8} {token text name value : List UInt8} {label : Bool}

/-- A carriage return and a newline behind a text leave it to the next line. -/
theorem chars_crlf (hlast : ∀ b ∈ text.getLast?, isspace b = false)
    (hlexer : parser.lexer = Lexer.holding before (inside .word label) text) :
    parser.chars crlf = (.more, [], { parser with lexer := Lexer.holding before (pending label) text }) := by
  have hreturn := chars_collects (return_collects _) hlexer
  rw [List.append_nil] at hreturn
  change parser.chars ([13] ++ [10]) = _
  rw [chars_more_append hreturn]
  have hnewline := newline_append before label hlast
  have hwhat : ((Lexer.holding before (inside .word label) text).append 10).what = .none := by
    rw [hnewline]
    rfl
  have hchar : ({ parser with lexer := Lexer.holding before (inside .word label) text } : HttpParser H).char 10 =
      (.more, { parser with lexer := (Lexer.holding before (inside .word label) text).append 10 }) :=
    char_of_none hwhat
  rw [chars, hchar, hnewline]
  rfl

/-- A line is read with its end. -/
theorem chars_line (htext : LineText text) (hne : text ≠ []) (hlabel : label = true → 58 ∉ text.tail)
    (hlexer : parser.lexer = Lexer.holding before (inside .eatws label) []) :
    parser.chars (text ++ crlf) = (.more, [], { parser with lexer := Lexer.holding before (pending label) text }) := by
  have htoken := chars_collects (text_collects htext.chars htext.first hne hlabel) hlexer
  rw [List.nil_append] at htoken
  rw [chars_more_append htoken]
  exact chars_crlf htext.last rfl

/-- So is a value, which may be empty. -/
theorem chars_value (hvalue : LineText value)
    (hlexer : parser.lexer = Lexer.holding before (inside .eatws false) []) :
    parser.chars (value ++ crlf) = (.more, [], { parser with lexer := Lexer.holding before (pending false) value }) := by
  by_cases hne : value = []
  · have hreturn := chars_collects (return_collects _) hlexer
    rw [hne]
    change parser.chars ([13] ++ [10]) = _
    rw [chars_more_append hreturn]
    rfl
  · exact chars_line hvalue hne nofun hlexer

/-- The name of a field is set at its colon. -/
theorem char_colon (hname : NameText name) (hstate : parser.state ≠ .request)
    (hlexer : parser.lexer = Lexer.holding before (inside .word true) name) :
    parser.char 58 = (.more, { parser with lexer := labelled before name, name, state := .value }) := by
  have hlast : ∀ b ∈ name.getLast?, isspace b = false := by
    intro b hb
    exact (hname.chars b (List.mem_of_getLast? hb)).2.1
  have hzero : name.takeWhile (· ≠ 0) = name := by
    apply List.takeWhile_eq_self_iff.mpr
    intro b hb
    exact decide_eq_true (hname.chars b hb).2.2.2
  have hshort : name.take (maxline - 1) = name := by
    have hlen := hname.short
    apply List.take_of_length_le
    omega
  unfold char
  rw [hlexer, colon_append before hlast]
  change verdict .more (label _) = _
  rw [HttpParser.label, if_neg hstate]
  change ((.more : Verdict), ({ parser with
    lexer := labelled before name, name := (name.takeWhile (· ≠ 0)).take (maxline - 1), state := .value } : HttpParser H)) = _
  rw [hzero, hshort]

/-- A field line ends the word before it, and leaves its name and its value to the next line. -/
theorem chars_field {c : UInt8} {rest : List UInt8} (hname : NameText (c :: rest)) (hvalue : LineText value)
    (hlexer : parser.lexer = Lexer.holding before (pending label) token)
    (hword : ({ parser with lexer := ended before token c } : HttpParser H).word = (true, next))
    (hstate : next.state ≠ .request) :
    parser.chars (c :: rest ++ [58, 32] ++ value ++ crlf) = (.more, [],
      { next with lexer := Lexer.holding before (pending false) value, name := c :: rest, state := .value }) := by
  have ⟨hc, hspace, hcolon, hzero⟩ := hname.chars c (List.mem_cons_self ..)
  have hnext : next.lexer = ended before token c := by
    have hkeeps := word_lexer ({ parser with lexer := ended before token c } : HttpParser H)
    rw [hword] at hkeeps
    exact hkeeps.1
  have hchar : parser.char c = (.more, next) := by
    unfold char
    rw [hlexer, pending_append before label token hc hspace]
    change verdict .more (word _) = _
    rw [hword]
    rfl
  have hsaved : next.lexer.start = Lexer.holding before (inside .word true) [c] := by
    rw [hnext, Lexer.start]
    simp [ended, hzero, Lex.none, Lexer.holding]
  have hrest : Lexer.Collects (inside .word true) (inside .word true) rest rest := by
    apply words_collect
    · intro b hb
      exact (hname.chars b (List.mem_cons_of_mem c hb)).1
    · intro _ hb
      exact (hname.chars 58 (List.mem_cons_of_mem c hb)).2.2.1 rfl
  have hcolon : ({ next with lexer := Lexer.holding before (inside .word true) (c :: rest) } : HttpParser H).char 58 =
      (.more, { next with lexer := labelled before (c :: rest), name := c :: rest, state := .value }) :=
    char_colon hname hstate rfl
  have hinput : c :: rest ++ [58, 32] ++ value ++ crlf = c :: (rest ++ 58 :: ([32] ++ (value ++ crlf))) := by
    simp only [List.cons_append, List.append_assoc, List.nil_append]
  rw [hinput, chars, hchar]
  change next.chars _ = _
  rw [chars_start hsaved (by simp), chars_more_append (chars_collects hrest rfl)]
  change ({ next with lexer := Lexer.holding before (inside .word true) (c :: rest) } : HttpParser H).chars _ = _
  rw [chars, hcolon]
  change ({ next with lexer := labelled before (c :: rest), name := c :: rest, state := .value } : HttpParser H).chars _ = _
  have hlabelled : (labelled before (c :: rest)).start = Lexer.holding before (inside .eatws false) [] := rfl
  rw [chars_start hlabelled (by simp), chars_more_append (chars_collects space_collects rfl)]
  exact chars_value hvalue rfl

end Lines

end HttpParser

end Aug.Net
