import Aug.Net.HttpFraming
import Aug.Net.HttpLexing

/-!
# Written messages

A message is written as its line, its fields and, if it has a body, the content length and the body. The callbacks
for it are exactly those of the message unless the line has a colon behind its first character, a text has a NUL
or a name has a character that is not read as itself, or a part is no `int` in size.
-/

namespace Aug.Net

open Aug.Lib Aug.Util

/-- A message: its line, its fields, and a body with the numeral of its length. -/
structure Message where
  line : List UInt8
  fields : List (List UInt8 × List UInt8)
  body : Option (List UInt8 × List UInt8)
deriving DecidableEq, Repr

/-- `"Content-Length"`. -/
def contentLength : List UInt8 := [67, 111, 110, 116, 101, 110, 116, 45, 76, 101, 110, 103, 116, 104]

/-- A field as it is written. -/
def fieldLine (field : List UInt8 × List UInt8) : List UInt8 := field.1 ++ [58, 32] ++ field.2 ++ crlf

/-- The part of a text in front of a NUL, as callbacks see it. -/
def cut (text : List UInt8) : List UInt8 := text.takeWhile (· ≠ 0)

namespace Message

/-- The fields with the content length. -/
def lines (m : Message) : List (List UInt8 × List UInt8) :=
  m.fields ++ (m.body.map fun body => (contentLength, body.1)).toList

/-- The content of the body. -/
def content (m : Message) : List UInt8 := (m.body.map Prod.snd).getD []

/-- The message up to its empty line. -/
def header (m : Message) : List UInt8 := m.line ++ crlf ++ m.lines.flatMap fieldLine ++ crlf

/-- The message as it is written. -/
def source (m : Message) : List UInt8 := m.header ++ m.content

/-- The callbacks for the body. -/
def bodyEvents (m : Message) : List Event :=
  match m.body with
  | none => []
  | some (_, content) => .csize content.length :: if content = [] then [] else [.cdata content content.length]

/-- The callbacks for the message. -/
def events (m : Message) : List Event :=
  .request m.line :: m.fields.map (fun field => .field field.1 field.2) ++ m.bodyEvents ++ [.end_ true]

/-- Text that may be written in a line: 7-bit characters other than a carriage return, a newline and a backslash,
with no blank space around them. -/
structure Text (text : List UInt8) : Prop where
  chars : ∀ b ∈ text, b < 128 ∧ b ≠ 10 ∧ b ≠ 13 ∧ b ≠ 92
  first : ∀ b ∈ text.head?, isspace b = false
  last : ∀ b ∈ text.getLast?, isspace b = false

/-- A name of a field: no blanks, controls or colons, shorter than a line, and not that of the content length. -/
structure Name (name : List UInt8) : Prop where
  chars : ∀ b ∈ name, 32 < b ∧ b ≠ 127 ∧ b ≠ 58
  short : name.length < maxline
  other : iscsize name = false

/-- A message that is written as it should be. -/
structure Proper (m : Message) : Prop where
  line : Text m.line
  nonempty : m.line ≠ []
  names : ∀ field ∈ m.fields, Name field.1
  values : ∀ field ∈ m.fields, Text field.2
  numeral : ∀ body ∈ m.body, IsNumeral body.1 body.2.length

/-- The names have characters, which are read as themselves: no backslash, and no byte that reads as the end of the
input or as a control token. -/
def PlainNames (m : Message) : Prop := ∀ field ∈ m.fields, field.1 ≠ [] ∧ ∀ b ∈ field.1, b ≠ 92 ∧ b < 251

/-- A message whose callbacks are exact. -/
structure Readable (m : Message) : Prop where
  names : m.PlainNames
  colon : 58 ∉ m.line.tail
  line : 0 ∉ m.line
  values : ∀ field ∈ m.fields, 0 ∉ field.2
  header : m.header.length < 2 ^ 31
  content : m.content.length < 2 ^ 31

theorem Text.lineText {text : List UInt8} (h : Text text) : LineText text where
  chars b hb := by
    have ⟨hseven, hrest⟩ := h.chars b hb
    refine ⟨?_, hrest⟩
    rw [UInt8.lt_iff_toNat_lt] at hseven ⊢
    change b.toNat < 128 at hseven
    change b.toNat < 251
    omega
  first := h.first
  last := h.last

theorem Name.nameText {name : List UInt8} (h : Name name) (hne : name ≠ []) (hplain : ∀ b ∈ name, b ≠ 92 ∧ b < 251) :
    NameText name where
  nonempty := hne
  chars b hb := by
    have ⟨hcontrol, _, hcolon⟩ := h.chars b hb
    have ⟨hescape, hlt⟩ := hplain b hb
    have hvisible := UInt8.lt_iff_toNat_lt.mp hcontrol
    change 32 < b.toNat at hvisible
    have hne : ∀ c : UInt8, c.toNat ≤ 32 → b ≠ c := fun c hc heq => by rw [heq] at hvisible; omega
    have hspace : isspace b = false := by
      rw [Bool.eq_false_iff, Ne, isspace_range]
      omega
    exact ⟨⟨hlt, hne 10 (by decide), hne 13 (by decide), hescape⟩, hspace, hcolon, hne 0 (by decide)⟩
  short := h.short

/-- A numeral is a text of a line. -/
theorem lineText_numeral {text : List UInt8} {n : ℕ} (h : IsNumeral text n) : LineText text := by
  have hdigit : ∀ b ∈ text, LineChar b ∧ isspace b = false := by
    intro b hb
    have hrange := isdigit_range.mp (h.2.1 b hb)
    have hne : ∀ c : UInt8, c.toNat < 48 ∨ 57 < c.toNat → b ≠ c := fun c hc heq => by rw [heq] at hrange; omega
    have hspace : isspace b = false := by
      rw [Bool.eq_false_iff, Ne, isspace_range]
      omega
    refine ⟨⟨?_, hne 10 (by decide), hne 13 (by decide), hne 92 (by decide)⟩, hspace⟩
    rw [UInt8.lt_iff_toNat_lt]
    change b.toNat < 251
    omega
  exact ⟨fun b hb => (hdigit b hb).1, fun b hb => (hdigit b (List.mem_of_mem_head? hb)).2,
    fun b hb => (hdigit b (List.mem_of_getLast? hb)).2⟩

/-- A numeral has no NUL. -/
theorem cut_numeral {text : List UInt8} {n : ℕ} (h : IsNumeral text n) : cut text = text := by
  apply List.takeWhile_eq_self_iff.mpr
  intro b hb
  have hrange := isdigit_range.mp (h.2.1 b hb)
  have hne : b ≠ 0 := fun heq => by simp [heq] at hrange
  exact decide_eq_true hne

/-- The name of the content length is one of a field. -/
theorem contentLength_nameText : NameText contentLength := ⟨by decide +kernel, by decide +kernel, by decide +kernel⟩

end Message

namespace HttpParser

open HeaderWords Message

variable {before : UInt8} {parser : Recorder}

/-- The call for the word behind which the lexer is, when the next line begins. -/
inductive Pends (before : UInt8) : Recorder → Event → Prop
  | request {parser : Recorder} {label : Bool} {token : List UInt8}
    (hlexer : parser.lexer = Lexer.holding before (pending label) token) (hstate : parser.state = .request) :
    Pends before parser (.request (cut token))
  | field {parser : Recorder} {label : Bool} {token : List UInt8}
    (hlexer : parser.lexer = Lexer.holding before (pending label) token) (hstate : parser.state = .value)
    (hname : iscsize parser.name = false) : Pends before parser (.field parser.name (cut token))

/-- The call is made when the lexer has ended the word. -/
theorem Pends.word {event : Event} (h : Pends before parser event) :
    ∃ label token, parser.lexer = Lexer.holding before (pending label) token ∧
      ∀ lexer : Lexer NetWords, lexer.lexertoken = some (cut token) →
        ({ parser with lexer } : Recorder).word =
          (true, { parser with lexer, handler := parser.handler ++ [event], state := .name }) := by
  cases h with
  | request hlexer hstate =>
    refine ⟨_, _, hlexer, fun lexer htoken => ?_⟩
    unfold HttpParser.word
    dsimp only
    rw [hstate]
    simp [HttpParser.request, call, Handler.request, HttpParser.token, htoken]
  | field hlexer hstate hname =>
    refine ⟨_, _, hlexer, fun lexer htoken => ?_⟩
    unfold HttpParser.word HttpParser.value
    dsimp only
    rw [hstate]
    simp [hname, call, Handler.field, HttpParser.token, htoken]

/-- A field line makes the call for the word before it, and leaves its own. -/
theorem chars_fieldLine {event : Event} (h : Pends before parser event) {name value : List UInt8}
    (hname : NameText name) (hvalue : LineText value) :
    ∃ next : Recorder, parser.chars (fieldLine (name, value)) = (.more, [], next) ∧
      next.lexer = Lexer.holding before (pending false) value ∧ next.name = name ∧ next.state = .value ∧
      next.handler = parser.handler ++ [event] ∧ next.csize = parser.csize := by
  obtain ⟨label, token, hlexer, hword⟩ := h.word
  cases name with
  | nil => exact absurd rfl hname.nonempty
  | cons c rest =>
    have hchars := chars_field hname hvalue hlexer (hword (ended before token c) rfl) nofun
    exact ⟨_, hchars, rfl, rfl, rfl, rfl, rfl⟩

/-- Field lines make the calls for all but the last of them. -/
theorem chars_fields {event : Event} (h : Pends before parser event) {fields : List (List UInt8 × List UInt8)}
    (hfields : ∀ field ∈ fields, NameText field.1 ∧ LineText field.2 ∧ iscsize field.1 = false) :
    ∃ (next : Recorder) (last : Event), parser.chars (fields.flatMap fieldLine) = (.more, [], next) ∧
      Pends before next last ∧ next.csize = parser.csize ∧
      next.handler ++ [last] =
        parser.handler ++ [event] ++ fields.map fun field => .field field.1 (cut field.2) := by
  induction fields generalizing parser event with
  | nil => exact ⟨parser, event, rfl, h, rfl, by simp⟩
  | cons field fields ih =>
    have ⟨hname, hvalue, hother⟩ := hfields field (List.mem_cons_self ..)
    obtain ⟨middle, hchars, hlexer, hset, hstate, hhandler, hcsize⟩ := chars_fieldLine h hname hvalue
    have hpends : Pends before middle (.field field.1 (cut field.2)) := by
      have hfield := Pends.field hlexer hstate (by rw [hset]; exact hother)
      rwa [hset] at hfield
    obtain ⟨next, last, hrest, hlast, hkept, htrace⟩ :=
      ih hpends fun other hother => hfields other (List.mem_cons_of_mem field hother)
    refine ⟨next, last, ?_, hlast, hkept.trans hcsize, ?_⟩
    · rw [List.flatMap_cons, chars_more_append hchars, hrest]
    · rw [htrace, hhandler]
      simp

/-- The empty line makes the call for the last word, and ends the header. -/
theorem chars_emptyLine {next : Recorder} {label : Bool} {token : List UInt8}
    (hlexer : parser.lexer = Lexer.holding before (pending label) token)
    (hword : ({ parser with lexer := emptyLine before token } : Recorder).word = (true, next)) :
    parser.chars crlf = (.done, [], next.phrase.2) := by
  have hreturn := chars_collects (return_collects _) hlexer
  rw [List.append_nil] at hreturn
  have hphrase : next.phrase.1 = true := by
    cases next.phrase_cases with
    | inl h => rw [h.2]
    | inr h => rw [h.2]
  have hchar : ({ parser with lexer := Lexer.holding before (pending label) token } : Recorder).char 10 =
      (.done, next.phrase.2) := by
    unfold char
    dsimp only
    rw [empty_append]
    change (if (word _).1 then verdict .done (word _).2.phrase else _) = _
    rw [hword]
    simp [verdict, hphrase]
  change parser.chars ([13] ++ [10]) = _
  rw [chars_more_append hreturn, chars, hchar]

/-- What is called at the end of the header. -/
def headerEvents (m : Message) : List Event :=
  match m.body with
  | none => [.end_ true]
  | some (_, content) => .csize content.length :: if content = [] then [.end_ true] else []

/-- The calls for the header of a message, and what remains for its body. -/
theorem chars_header (before : UInt8) {m : Message} (hm : m.Proper) (hnames : m.PlainNames) (hcolon : 58 ∉ m.line.tail)
    (hlt : m.content.length < 2 ^ 32) :
    ∃ next : Recorder, (create before []).chars m.header = (.done, [], next) ∧
      next.handler = .request (cut m.line) :: m.fields.map (fun field => .field field.1 (cut field.2)) ++ headerEvents m ∧
      (m.content = [] → next.state = .request) ∧
      (m.content ≠ [] → next.state = .body ∧ next.csize = i32 m.content.length) := by
  have hline : (create before ([] : List Event)).chars (m.line ++ crlf) =
      (.more, [], { create before [] with lexer := Lexer.holding before (pending true) m.line }) :=
    chars_line hm.line.lineText hm.nonempty (fun _ => hcolon) rfl
  have hpends : Pends before { create before [] with lexer := Lexer.holding before (pending true) m.line }
      (.request (cut m.line)) := .request rfl rfl
  have hwritten : ∀ field ∈ m.fields, NameText field.1 ∧ LineText field.2 ∧ iscsize field.1 = false := by
    intro field hfield
    have hplain := hnames field hfield
    have hname := hm.names field hfield
    exact ⟨hname.nameText hplain.1 hplain.2, (hm.values field hfield).lineText, hname.other⟩
  obtain ⟨last, event, hfields, hlast, hcsize, htrace⟩ := chars_fields hpends hwritten
  have hcsize : last.csize = 0 := hcsize
  have htrace : last.handler ++ [event] =
      .request (cut m.line) :: m.fields.map fun field => .field field.1 (cut field.2) := htrace
  rw [← htrace]
  unfold Message.header lines headerEvents Message.content
  rw [List.append_assoc (m.line ++ crlf), chars_more_append hline]
  cases hbody : m.body with
  | none =>
    obtain ⟨label, token, hlexer, hword⟩ := hlast.word
    have hempty := chars_emptyLine hlexer (hword (emptyLine before token) rfl)
    simp only [Option.map_none, Option.toList_none, List.append_nil]
    rw [chars_more_append hfields, hempty]
    refine ⟨_, rfl, ?_, fun _ => ?_, fun h => absurd rfl h⟩
    · simp [phrase, hcsize, end_, call, Handler.end_]
    · simp [phrase, hcsize, end_, call, Handler.end_]
  | some body =>
    obtain ⟨digits, bytes⟩ := body
    have hnumeral : IsNumeral digits bytes.length := hm.numeral (digits, bytes) hbody
    have hsize : bytes.length < 2 ^ 32 := by
      unfold Message.content at hlt
      rwa [hbody] at hlt
    obtain ⟨middle, hchars, hlexer, hset, hstate, hhandler, hkept⟩ :=
      chars_fieldLine hlast contentLength_nameText (lineText_numeral hnumeral)
    have hword : ({ middle with lexer := emptyLine before digits } : Recorder).word =
        (true, { middle with
          lexer := emptyLine before digits
          handler := middle.handler ++ [.csize bytes.length]
          state := .name
          csize := i32 bytes.length }) := by
      have htoken : ({ middle with lexer := emptyLine before digits } : Recorder).token = digits := cut_numeral hnumeral
      have hname : iscsize middle.name = true := by
        rw [hset]
        decide
      unfold HttpParser.word HttpParser.value
      rw [htoken, hnumeral.converts hsize]
      dsimp only
      rw [hstate]
      simp [hname, call, Handler.csize]
    have hempty := chars_emptyLine hlexer hword
    simp only [Option.map_some, Option.toList_some, List.flatMap_append, List.flatMap_cons, List.flatMap_nil,
      List.append_nil, List.append_assoc, Option.getD_some]
    rw [chars_more_append hfields, chars_more_append hchars, hempty]
    have hzero : i32 bytes.length = 0 ↔ bytes = [] := by
      rw [i32_nat hsize, ← List.length_eq_zero_iff]
      split <;> omega
    refine ⟨_, rfl, ?_, fun hempty => ?_, fun hne => ?_⟩
    · by_cases hempty : bytes = []
      · simp [phrase, hzero.mpr hempty, if_pos hempty, end_, call, Handler.end_, hhandler]
      · simp [phrase, hzero, hempty, hhandler]
    · simp [phrase, hzero.mpr hempty, end_, call]
    · simp [phrase, hzero, hne]

/-- The callbacks as far as their texts are seen. -/
def cutEvents (m : Message) : List Event :=
  .request (cut m.line) :: m.fields.map (fun field => .field field.1 (cut field.2)) ++ m.bodyEvents ++ [.end_ true]

/-- Without content the calls are made at the end of the header. -/
theorem headerEvents_empty {m : Message} (hempty : m.content = []) :
    headerEvents m = m.bodyEvents ++ [.end_ true] := by
  unfold headerEvents Message.bodyEvents
  unfold Message.content at hempty
  cases hbody : m.body with
  | none => rfl
  | some body =>
    obtain ⟨digits, bytes⟩ := body
    rw [hbody] at hempty
    obtain rfl : bytes = [] := hempty
    rfl

/-- With content they are made after it. -/
theorem headerEvents_content {m : Message} (hne : m.content ≠ []) :
    headerEvents m ++ [.cdata m.content m.content.length] ++ [.end_ true] = m.bodyEvents ++ [.end_ true] := by
  unfold headerEvents Message.bodyEvents
  unfold Message.content at hne ⊢
  cases hbody : m.body with
  | none =>
    rw [hbody] at hne
    exact absurd rfl hne
  | some body =>
    obtain ⟨digits, bytes⟩ := body
    rw [hbody] at hne
    have hbytes : bytes ≠ [] := hne
    simp [hbytes]

/-- The last call is that of a message that is not committed. -/
def Abandoned (trace : List Event) : Prop := ∃ front, trace = front ++ [Event.end_ false]

/-- The calls for a message end with its commit. -/
theorem not_abandoned (m : Message) : ¬Abandoned m.events := by
  intro ⟨front, heq⟩
  have hlast := (List.append_inj' heq rfl).2
  cases hlast

/-- A size that is no `int` fails. -/
theorem consume_large {size : ℕ} (hle : 2 ^ 31 ≤ size) (hlt : size < 2 ^ 32) {buf : List UInt8}
    {next : Recorder → List UInt8 → ℤ × Recorder} :
    Abandoned (consume ((size : ℤ), parser) buf next).2.handler := by
  rw [consume_fail (i32_large hle hlt)]
  exact ⟨parser.handler, rfl⟩

section Append

variable (before : UInt8) {m : Message} (hm : m.Proper) (hnames : m.PlainNames) (hcolon : 58 ∉ m.line.tail)
  (hsize : m.source.length < 2 ^ 32)

include hm hnames hcolon hsize

/-- The first part of the buffer is the header, and the rest is the body. -/
theorem append_source : ∃ next : Recorder,
    (create before []).append m.source =
      consume ((m.header.length : ℤ), next) m.source
        (fun parser buf => consume (parser.body buf) buf (loop m.source.length)) ∧
      next.handler = .request (cut m.line) :: m.fields.map (fun field => .field field.1 (cut field.2)) ++ headerEvents m ∧
      (m.content ≠ [] → next.state = .body ∧ next.csize = i32 m.content.length) := by
  have hparts : m.source.length = m.header.length + m.content.length := List.length_append
  obtain ⟨next, hchars, htrace, _, hbody⟩ := chars_header before hm hnames hcolon (by omega)
  have hheader : (create before []).header m.source = ((m.header.length : ℤ), next) := by
    rw [header, Message.source, chars_done_append hchars]
    simp
  have hstate : (create before ([] : List Event)).state ≠ .body := by simp [create]
  refine ⟨next, ?_, htrace, hbody⟩
  rw [append, if_neg hstate, loop, hheader]

/-- The calls for a message whose sizes are taken as they are. -/
theorem append_small (hheader : m.header.length < 2 ^ 31) (hcontent : m.content.length < 2 ^ 31) :
    ((create before []).append m.source).2.handler = cutEvents m := by
  have hparts : m.source.length = m.header.length + m.content.length := List.length_append
  obtain ⟨next, happend, htrace, hbody⟩ := append_source before hm hnames hcolon hsize
  rw [happend]
  by_cases hempty : m.content = []
  · have hall : m.header.length = m.source.length := by rw [hparts, hempty]; rfl
    rw [hall, consume_all (by omega)]
    change next.handler = _
    rw [htrace, headerEvents_empty hempty, cutEvents, List.append_assoc]
  · obtain ⟨hstate, hcsize⟩ := hbody hempty
    have hpos : 0 < m.content.length := List.length_pos_iff.mpr hempty
    have hrest : m.source.drop m.header.length = m.content := List.drop_left
    have hu : u32 next.csize = m.content.length := by rw [hcsize, u32_i32 (by omega)]
    rw [consume_some hheader (by omega), hrest, body_of_le next (by rw [hcsize]; exact lt_irrefl _) (by omega), hu,
      consume_all hcontent]
    change next.handler ++ [.cdata m.content m.content.length] ++ [.end_ true] = _
    have hevents := headerEvents_content hempty
    rw [htrace, cutEvents, List.append_assoc _ m.bodyEvents, ← hevents]
    simp only [List.append_assoc]

/-- A message of which a part is too large is abandoned. -/
theorem append_too_large (hlarge : ¬(m.header.length < 2 ^ 31 ∧ m.content.length < 2 ^ 31)) :
    Abandoned ((create before []).append m.source).2.handler := by
  have hparts : m.source.length = m.header.length + m.content.length := List.length_append
  obtain ⟨next, happend, htrace, hbody⟩ := append_source before hm hnames hcolon hsize
  rw [happend]
  by_cases hheader : m.header.length < 2 ^ 31
  · have hcontent : 2 ^ 31 ≤ m.content.length := by omega
    have hne : m.content ≠ [] := by
      intro heq
      rw [heq] at hcontent
      exact absurd hcontent (by decide)
    obtain ⟨hstate, hcsize⟩ := hbody hne
    have hrest : m.source.drop m.header.length = m.content := List.drop_left
    rw [consume_some hheader (by omega), hrest]
    have hu : u32 next.csize = m.content.length := by rw [hcsize, u32_i32 (by omega)]
    rw [body_of_le next (by rw [hcsize]; exact lt_irrefl _) (by omega), hu]
    exact consume_large hcontent (by omega)
  · exact consume_large (not_lt.mp hheader) (by omega)

end Append

/-- A colon behind the first character of the line is refused as the end of a name. -/
theorem append_colon (before : UInt8) {m : Message} (hm : m.Proper) (hcolon : 58 ∈ m.line.tail) :
    Abandoned ((create before []).append m.source).2.handler := by
  obtain ⟨c, line, hline⟩ := List.exists_cons_of_ne_nil hm.nonempty
  rw [hline, List.tail_cons] at hcolon
  obtain ⟨front, rest, hsplit, hnot⟩ := List.eq_append_cons_of_mem hcolon
  have htext := hm.line.lineText
  have hchars : ∀ b ∈ c :: front, LineChar b := by
    intro b hb
    apply htext.chars b
    rw [hline, hsplit, ← List.cons_append]
    exact List.mem_append_left _ hb
  have hfirst : ∀ b ∈ (c :: front).head?, isspace b = false := by
    intro b hb
    apply htext.first b
    rw [hline]
    exact hb
  have hcollects : Lexer.Collects (inside .eatws true) (inside .word true) (c :: front) (c :: front) :=
    text_collects hchars hfirst (List.cons_ne_nil c front) fun _ => hnot
  have hfront : (create before ([] : List Event)).chars (c :: front) =
      (.more, [], { create before [] with lexer := Lexer.holding before (inside .word true) (c :: front) }) := by
    have hinit : (create before ([] : List Event)).lexer = Lexer.holding before (inside .eatws true) [] := rfl
    exact chars_collects hcollects hinit
  have hsource : ∃ later, m.source = (c :: front) ++ 58 :: later := by
    refine ⟨rest ++ crlf ++ m.lines.flatMap fieldLine ++ crlf ++ m.content, ?_⟩
    rw [Message.source, Message.header, hline, hsplit]
    simp only [List.cons_append, List.append_assoc]
  obtain ⟨later, hsource⟩ := hsource
  have hfail : ∃ next : Recorder, (create before ([] : List Event)).chars m.source = (.fail, later, next) := by
    rw [hsource, chars_more_append hfront]
    exact ⟨_, rfl⟩
  obtain ⟨next, hfail⟩ := hfail
  have hstate : (create before ([] : List Event)).state ≠ .body := nofun
  rw [append, if_neg hstate, loop, header_fail hfail, consume_fail (by decide)]
  exact ⟨next.handler, rfl⟩

/-- A text is seen as it is exactly if it has no NUL. -/
theorem cut_eq_iff {text : List UInt8} : cut text = text ↔ 0 ∉ text := by
  unfold cut
  rw [List.takeWhile_eq_self_iff]
  constructor
  · intro hall hzero
    exact absurd (hall 0 hzero) (by decide)
  · intro hzero b hb
    exact decide_eq_true fun heq => hzero (heq ▸ hb)

/-- The texts of the calls are exact if there is no NUL in any. -/
theorem cutEvents_eq_iff {m : Message} :
    cutEvents m = m.events ↔ 0 ∉ m.line ∧ ∀ field ∈ m.fields, 0 ∉ field.2 := by
  unfold cutEvents Message.events
  rw [List.append_cancel_right_eq, List.append_cancel_right_eq, List.cons.injEq, Event.request.injEq, cut_eq_iff,
    List.map_inj_left]
  simp only [Event.field.injEq, true_and, cut_eq_iff]

/-- `G /` with a value that has a colon, an empty value and a body of two bytes. -/
def sample : Message := ⟨[71, 32, 47], [([97], [98, 58, 32, 99]), ([100], [])], some ([50], [10, 58])⟩

end HttpParser

end Aug.Net
