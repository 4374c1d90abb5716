import Aug.Net.Http

/-!
# The HTTP parser byte by byte

A reference for the buffered parser. It reads one byte at a time: outside of a body with the
`switch` of the header, inside of a body as one byte of content. Its trace is what the trace of the
buffered parser becomes when the content is recorded byte by byte.
-/

namespace Aug.Net

open Aug.Lib Aug.Util

/-- A parser whose callbacks are recorded. -/
abbrev Recorder := HttpParser (List Event)

/-- The calls that stand for one: those for the single bytes of the content, or the call itself. -/
def Event.bytes : Event → List Event
  | .cdata buf size => (buf.take size).map fun b => .cdata [b] 1
  | event => [event]

/-- A trace after adjacent content has been concatenated; the content is kept as single bytes. -/
def merged (trace : List Event) : List Event := trace.flatMap Event.bytes

@[simp] theorem merged_append (trace trace' : List Event) :
    merged (trace ++ trace') = merged trace ++ merged trace' := List.flatMap_append

@[simp] theorem merged_nil : merged [] = [] := rfl

@[simp] theorem merged_request (line : List UInt8) : merged [.request line] = [.request line] := rfl

@[simp] theorem merged_field (name value : List UInt8) : merged [.field name value] = [.field name value] := rfl

@[simp] theorem merged_csize (size : ℕ) : merged [.csize size] = [.csize size] := rfl

@[simp] theorem merged_end (commit : Bool) : merged [.end_ commit] = [.end_ commit] := rfl

/-- The single bytes of content. -/
def content (buf : List UInt8) : List Event := buf.map fun b => .cdata [b] 1

@[simp] theorem merged_cdata (buf : List UInt8) (size : ℕ) : merged [.cdata buf size] = content (buf.take size) := by
  simp [merged, Event.bytes, content]

namespace HttpParser

/-- The parser with another trace. -/
def retrace (f : List Event → List Event) (parser : Recorder) : Recorder :=
  { parser with handler := f parser.handler }

/-- The reference step on one byte, with false where the parser has failed. -/
def feed (parser : Recorder) (b : UInt8) : Bool × Recorder :=
  if parser.state = .body then
    let parser := (parser.call (Handler.cdata [b] 1)).2
    (true, if parser.csize = 1 then (parser.end_ true).2 else { parser with csize := parser.csize - 1 })
  else
    match parser.char b with
    | (.fail, parser) => (false, (parser.end_ false).2)
    | (_, parser) => (true, parser)

/-- The reference run, up to the first failure. -/
def feeds (parser : Recorder) : List UInt8 → Bool × Recorder
  | [] => (true, parser)
  | b :: input => if (parser.feed b).1 then (parser.feed b).2.feeds input else parser.feed b

/-! ## The steps of the header -/

/-- A word either fails, or is the one thing that the phase expects. -/
theorem word_cases (parser : Recorder) :
    parser.word = (false, parser) ∨
    (parser.state = .request ∧ ∃ line, parser.word =
      (true, { parser with handler := parser.handler ++ [.request line], state := .name })) ∨
    (parser.state = .value ∧ ∃ name value, parser.word =
      (true, { parser with handler := parser.handler ++ [.field name value], state := .name })) ∨
    (parser.state = .value ∧ ∃ size < 2 ^ 32, strtoui parser.token = some size ∧ parser.word =
      (true, { parser with handler := parser.handler ++ [.csize size], state := .name, csize := i32 size })) := by
  unfold word
  cases hstate : parser.state with
  | request => exact .inr (.inl ⟨rfl, parser.token, rfl⟩)
  | name => exact .inl rfl
  | body => exact .inl rfl
  | value =>
    unfold value
    split_ifs with hname
    · cases hsize : strtoui parser.token with
      | none => simp
      | some size =>
        have hlt := strtoui_lt hsize
        exact .inr (.inr (.inr ⟨rfl, size, hlt, rfl, by simp [call, Handler.csize]⟩))
    · exact .inr (.inr (.inl ⟨rfl, parser.name, parser.token, rfl⟩))

theorem label_cases (parser : Recorder) :
    (parser.state = .request ∧ parser.label = (false, parser)) ∨
    (parser.state ≠ .request ∧ ∃ name, parser.label = (true, { parser with name, state := .value })) := by
  unfold label
  split_ifs with hstate
  · exact .inl ⟨hstate, rfl⟩
  · exact .inr ⟨hstate, _, rfl⟩

theorem phrase_cases (parser : Recorder) :
    (parser.csize ≠ 0 ∧ parser.phrase = (true, { parser with state := .body })) ∨
    (parser.csize = 0 ∧ parser.phrase = (true, { parser with
      handler := parser.handler ++ [.end_ true], state := .request, csize := 0 })) := by
  unfold phrase
  split_ifs with hcsize
  · exact .inl ⟨hcsize, rfl⟩
  · exact .inr ⟨not_not.mp hcsize, rfl⟩

/-- What the flags of one byte lead to. A phrase may come without a word. -/
theorem switch_cases (parser : Recorder) :
    parser.switch = (.fail, parser) ∨ parser.switch = (.more, parser) ∨
    (parser.state ≠ .request ∧ ∃ name, parser.switch = (.more, { parser with name, state := .value })) ∨
    (parser.word.1 = true ∧ parser.switch = (.more, parser.word.2)) ∨
    (parser.word.1 = true ∧ parser.switch = (.done, parser.word.2.phrase.2)) ∨
    (parser.lexer.what = { label := false, word := false, phrase := true } ∧
      parser.switch = (.done, parser.phrase.2)) := by
  have hword : parser.word.1 = true ∨ parser.word = (false, parser) := by
    rcases parser.word_cases with h | ⟨-, line, h⟩ | ⟨-, name, value, h⟩ | ⟨-, size, -, -, h⟩
    · exact .inr h
    · exact .inl (by rw [h])
    · exact .inl (by rw [h])
    · exact .inl (by rw [h])
  have hphrase : ∀ parser : Recorder, parser.phrase.1 = true := by
    intro parser
    rcases parser.phrase_cases with ⟨-, h⟩ | ⟨-, h⟩ <;> rw [h]
  unfold switch
  split
  case h_1 hwhat =>
    rcases parser.label_cases with ⟨-, h⟩ | ⟨hstate, name, h⟩
    · exact .inl (by rw [h]; rfl)
    · exact .inr (.inr (.inl ⟨hstate, name, by rw [h]; rfl⟩))
  case h_2 hwhat =>
    rcases hword with hword | hword
    · exact .inr (.inr (.inr (.inl ⟨hword, by simp [verdict, hword]⟩)))
    · exact .inl (by rw [hword]; rfl)
  case h_3 hwhat =>
    rcases hword with hword | hword
    · exact .inr (.inr (.inr (.inr (.inl ⟨hword, by simp [verdict, hword, hphrase]⟩))))
    · exact .inl (by simp [hword])
  case h_4 hwhat =>
    exact .inr (.inr (.inr (.inr (.inr ⟨hwhat, by simp [verdict, hphrase]⟩))))
  case h_5 => exact .inr (.inl rfl)

/-- The last byte of the content. -/
theorem feed_last {parser : Recorder} (hstate : parser.state = .body) (hcsize : parser.csize = 1) (b : UInt8) :
    parser.feed b = (true, { parser with
      handler := parser.handler ++ [.cdata [b] 1] ++ [.end_ true], state := .request, csize := 0 }) := by
  simp [feed, hstate, hcsize, call, Handler.cdata, end_, Handler.end_]

/-- Any other byte of the content. -/
theorem feed_body {parser : Recorder} (hstate : parser.state = .body) (hcsize : parser.csize ≠ 1) (b : UInt8) :
    parser.feed b = (true, { parser with
      handler := parser.handler ++ [.cdata [b] 1], csize := parser.csize - 1 }) := by
  simp [feed, hstate, hcsize, call, Handler.cdata]

/-- A failed header is ended without a commit. -/
theorem feed_fail {parser next : Recorder} {b : UInt8} (hstate : parser.state ≠ .body)
    (hchar : parser.char b = (.fail, next)) : parser.feed b = (false, (next.end_ false).2) := by
  rw [feed, if_neg hstate, hchar]

/-- One byte of the header. -/
theorem feed_char {parser next : Recorder} {b : UInt8} {verdict : Verdict} (hstate : parser.state ≠ .body)
    (hchar : parser.char b = (verdict, next)) (hverdict : verdict ≠ .fail) : parser.feed b = (true, next) := by
  rw [feed, if_neg hstate, hchar]
  cases verdict with
  | fail => exact absurd rfl hverdict
  | more => rfl
  | done => rfl

theorem feeds_cons {parser next : Recorder} {b : UInt8} (h : parser.feed b = (true, next))
    (input : List UInt8) : parser.feeds (b :: input) = next.feeds input := by
  rw [feeds, h, if_pos rfl]

theorem feeds_stop {parser next : Recorder} {b : UInt8} (h : parser.feed b = (false, next))
    (input : List UInt8) : parser.feeds (b :: input) = (false, next) := by
  rw [feeds, h, if_neg (by simp)]

/-! ## Traces -/

/-- A change of traces under which single calls are recorded as they are. -/
def Keeps (f : List Event → List Event) : Prop :=
  ∀ trace event, merged [event] = [event] → f (trace ++ [event]) = f trace ++ [event]

theorem keeps_merged : Keeps merged := by
  intro trace event hevent
  rw [merged_append, hevent]

theorem keeps_append (before : List Event) : Keeps (before ++ ·) := by
  intro trace event _
  exact (List.append_assoc before trace [event]).symm

section Retrace

variable {f : List Event → List Event}

theorem word_retrace (hf : Keeps f) (parser : Recorder) :
    (parser.retrace f).word = (parser.word.1, parser.word.2.retrace f) := by
  unfold word
  cases hstate : parser.state with
  | request => simp [retrace, hstate, request, call, Handler.request, token, hf _ _ (merged_request _)]
  | name => simp [retrace, hstate]
  | body => simp [retrace, hstate]
  | value =>
    by_cases hname : iscsize parser.name
    · cases hsize : strtoui parser.token with
      | none => simp_all [retrace, value, token]
      | some size =>
        simp_all [retrace, value, token, call, Handler.csize, hf _ _ (merged_csize _)]
    · simp [retrace, hstate, value, hname, token, call, Handler.field, hf _ _ (merged_field _ _)]

theorem end_retrace (hf : Keeps f) (commit : Bool) (parser : Recorder) :
    (parser.retrace f).end_ commit = ((parser.end_ commit).1, (parser.end_ commit).2.retrace f) := by
  simp [retrace, end_, call, Handler.end_, hf _ _ (merged_end _)]

theorem phrase_retrace (hf : Keeps f) (parser : Recorder) :
    (parser.retrace f).phrase = (parser.phrase.1, parser.phrase.2.retrace f) := by
  unfold phrase
  split_ifs with hcsize hcsize' hcsize'
  · rfl
  · exact absurd hcsize hcsize'
  · exact absurd hcsize' hcsize
  · exact end_retrace hf true parser

theorem label_retrace (parser : Recorder) :
    (parser.retrace f).label = (parser.label.1, parser.label.2.retrace f) := by
  unfold label
  by_cases hstate : parser.state = .request <;> simp [retrace, hstate, setname, token]

theorem switch_retrace (hf : Keeps f) (parser : Recorder) :
    (parser.retrace f).switch = (parser.switch.1, parser.switch.2.retrace f) := by
  have hlexer : (parser.retrace f).lexer = parser.lexer := rfl
  unfold switch
  rw [hlexer, label_retrace, word_retrace hf, phrase_retrace hf]
  obtain ⟨label, word, phrase⟩ := parser.lexer.what
  cases label <;> cases word <;> cases phrase <;> try rfl
  by_cases hword : parser.word.1 = true
  · simp only [if_pos hword, phrase_retrace hf]
    rfl
  · simp only [if_neg hword]

/-- The header is read in the same way whatever has been recorded before. -/
theorem char_retrace (hf : Keeps f) (b : UInt8) (parser : Recorder) :
    (parser.retrace f).char b = ((parser.char b).1, (parser.char b).2.retrace f) :=
  switch_retrace hf { parser with lexer := parser.lexer.append b }

end Retrace

theorem feed_retrace {f : List Event → List Event} (hf : Keeps f) (parser : Recorder) (b : UInt8) :
    (parser.retrace f).feed b = ((parser.feed b).1, (parser.feed b).2.retrace f) := by
  have hcdata : f (parser.handler ++ [.cdata [b] 1]) = f parser.handler ++ [.cdata [b] 1] :=
    hf _ _ (by simp [content])
  by_cases hstate : parser.state = .body
  · have hstate' : (parser.retrace f).state = .body := hstate
    by_cases hcsize : parser.csize = 1
    · rw [feed_last hstate hcsize, feed_last hstate' hcsize]
      simp [retrace, hf _ _ (merged_end _), hcdata, -List.append_assoc]
    · rw [feed_body hstate hcsize, feed_body hstate' hcsize]
      simp [retrace, hcdata]
  · have hstate' : (parser.retrace f).state ≠ .body := hstate
    have hchar' := char_retrace hf b parser
    rcases hchar : parser.char b with ⟨verdict, next⟩
    rw [hchar] at hchar'
    cases verdict with
    | fail => rw [feed_fail hstate hchar, feed_fail hstate' hchar', end_retrace hf]
    | more => rw [feed_char hstate hchar nofun, feed_char hstate' hchar' nofun]
    | done => rw [feed_char hstate hchar nofun, feed_char hstate' hchar' nofun]

theorem feeds_retrace {f : List Event → List Event} (hf : Keeps f) (parser : Recorder) (input : List UInt8) :
    (parser.retrace f).feeds input = ((parser.feeds input).1, (parser.feeds input).2.retrace f) := by
  induction input generalizing parser with
  | nil => rfl
  | cons b input ih =>
    rw [feeds, feeds, feed_retrace hf]
    split_ifs with hgo
    · exact ih _
    · rfl

/-- The parser with nothing recorded yet. -/
def fresh (parser : Recorder) : Recorder := parser.retrace fun _ => []

theorem fresh_retrace (parser : Recorder) : parser.fresh.retrace (parser.handler ++ ·) = parser := by
  simp [fresh, retrace]

/-- What is recorded later follows what has been recorded. -/
theorem feeds_fresh (parser : Recorder) (input : List UInt8) :
    (parser.feeds input).2.handler = parser.handler ++ (parser.fresh.feeds input).2.handler := by
  conv_lhs => rw [← fresh_retrace parser]
  rw [feeds_retrace (keeps_append _)]
  rfl

theorem char_fresh (parser : Recorder) (b : UInt8) :
    (parser.char b).2.handler = parser.handler ++ (parser.fresh.char b).2.handler := by
  conv_lhs => rw [← fresh_retrace parser]
  rw [char_retrace (keeps_append _)]
  rfl

theorem feeds_append (parser : Recorder) (input later : List UInt8) :
    parser.feeds (input ++ later) =
      if (parser.feeds input).1 then (parser.feeds input).2.feeds later else parser.feeds input := by
  induction input generalizing parser with
  | nil => rfl
  | cons b input ih =>
    rw [List.cons_append, feeds, feeds]
    split_ifs with hgo hrest
    · rw [ih, if_pos hrest]
    · rw [ih, if_neg hrest]
    · rfl

/-! ## Content lengths below `2 ^ 31` -/

/-- The remaining content is an `int`, and there is some exactly inside of a body. -/
structure Sane (parser : Recorder) : Prop where
  nonneg : 0 ≤ parser.csize
  lt : parser.csize < 2 ^ 31
  body : parser.state = .body → 0 < parser.csize
  request : parser.state = .request → parser.csize = 0

/-- Every content length in the trace is an `int`. -/
def Short (trace : List Event) : Prop := ∀ size, .csize size ∈ trace → size < 2 ^ 31

theorem Short.of_append {trace trace' : List Event} (h : Short (trace ++ trace')) : Short trace :=
  fun size hsize => h size (List.mem_append_left trace' hsize)

namespace Sane

variable {parser : Recorder}

theorem word (h : Sane parser) (hgo : parser.word.1 = true) (hshort : Short parser.word.2.handler) :
    Sane parser.word.2 ∧ parser.word.2.state = .name := by
  rcases parser.word_cases with hw | ⟨hstate, line, hw⟩ | ⟨hstate, name, value, hw⟩ | ⟨hstate, size, -, -, hw⟩
  · simp [hw] at hgo
  · rw [hw]
    exact ⟨⟨h.nonneg, h.lt, nofun, nofun⟩, rfl⟩
  · rw [hw]
    exact ⟨⟨h.nonneg, h.lt, nofun, nofun⟩, rfl⟩
  · rw [hw] at hshort ⊢
    have hsize : size < 2 ^ 31 := hshort size (by simp)
    have hint : i32 size = size := i32_of_range (by omega) (by omega)
    exact ⟨⟨by simp [hint], by simp only [hint]; omega, nofun, nofun⟩, rfl⟩

theorem phrase (h : Sane parser) : Sane parser.phrase.2 := by
  rcases parser.phrase_cases with ⟨hcsize, hp⟩ | ⟨hcsize, hp⟩
  · rw [hp]
    have hpos : 0 < parser.csize := lt_of_le_of_ne h.nonneg (Ne.symm hcsize)
    exact ⟨h.nonneg, h.lt, fun _ => hpos, nofun⟩
  · rw [hp]
    exact ⟨le_refl 0, by simp, nofun, fun _ => rfl⟩

/-- The header keeps the remaining content an `int`. -/
theorem switch (h : Sane parser) (hstate : parser.state ≠ .body) (hshort : Short parser.switch.2.handler) :
    Sane parser.switch.2 ∧ (parser.switch.1 = .more → parser.switch.2.state ≠ .body) := by
  rcases parser.switch_cases with hs | hs | ⟨-, name, hs⟩ | ⟨hgo, hs⟩ | ⟨hgo, hs⟩ | ⟨-, hs⟩
  · rw [hs]
    exact ⟨h, fun _ => hstate⟩
  · rw [hs]
    exact ⟨h, fun _ => hstate⟩
  · rw [hs]
    exact ⟨⟨h.nonneg, h.lt, nofun, nofun⟩, nofun⟩
  · rw [hs] at hshort ⊢
    obtain ⟨hsane, hname⟩ := h.word hgo hshort
    exact ⟨hsane, fun _ => by rw [hname]; nofun⟩
  · rw [hs] at hshort ⊢
    have hword : Short parser.word.2.handler := by
      rcases parser.word.2.phrase_cases with ⟨-, hp⟩ | ⟨-, hp⟩
      · rwa [hp] at hshort
      · rw [hp] at hshort
        exact hshort.of_append
    exact ⟨(h.word hgo hword).1.phrase, nofun⟩
  · rw [hs]
    exact ⟨h.phrase, nofun⟩

theorem char (h : Sane parser) (hstate : parser.state ≠ .body) (b : UInt8)
    (hshort : Short (parser.char b).2.handler) :
    Sane (parser.char b).2 ∧ ((parser.char b).1 = .more → (parser.char b).2.state ≠ .body) := by
  have hread : Sane { parser with lexer := parser.lexer.append b } :=
    ⟨h.nonneg, h.lt, h.body, h.request⟩
  exact hread.switch hstate hshort

theorem feed (h : Sane parser) (b : UInt8) (hshort : Short (parser.feed b).2.handler) :
    Sane (parser.feed b).2 := by
  by_cases hstate : parser.state = .body
  · have hpos := h.body hstate
    have hlt := h.lt
    by_cases hcsize : parser.csize = 1
    · rw [feed_last hstate hcsize]
      exact ⟨le_refl 0, by simp, nofun, fun _ => rfl⟩
    · rw [feed_body hstate hcsize]
      apply Sane.mk
      · simp only
        omega
      · simp only
        omega
      · simp only
        omega
      · simp [hstate]
  · rcases hchar : parser.char b with ⟨verdict, next⟩
    cases verdict with
    | fail =>
      rw [feed_fail hstate hchar]
      exact ⟨le_refl 0, by simp [end_, call], nofun, fun _ => rfl⟩
    | more =>
      rw [feed_char hstate hchar nofun] at hshort ⊢
      have hnext := (h.char hstate b (by rw [hchar]; exact hshort)).1
      rwa [hchar] at hnext
    | done =>
      rw [feed_char hstate hchar nofun] at hshort ⊢
      have hnext := (h.char hstate b (by rw [hchar]; exact hshort)).1
      rwa [hchar] at hnext

theorem create (before : UInt8) : Sane (HttpParser.create before []) :=
  ⟨le_refl 0, by simp [HttpParser.create], nofun, fun _ => rfl⟩

end Sane

/-! ## Parts of a buffer -/

theorem char_more_state {parser next : Recorder} {b : UInt8} (hstate : parser.state ≠ .body)
    (hchar : parser.char b = (.more, next)) : next.state ≠ .body := by
  unfold char at hchar
  generalize hread : { parser with lexer := parser.lexer.append b } = read at hchar
  have hread' : read.state ≠ .body := by rwa [← hread]
  rcases read.switch_cases with hs | hs | ⟨-, name, hs⟩ | ⟨hgo, hs⟩ | ⟨-, hs⟩ | ⟨-, hs⟩ <;>
    rw [hs, Prod.mk.injEq] at hchar
  · cases hchar.1
  · rwa [← hchar.2]
  · rw [← hchar.2]
    nofun
  · rw [← hchar.2]
    rcases read.word_cases with hw | ⟨-, line, hw⟩ | ⟨-, name, value, hw⟩ | ⟨-, size, -, -, hw⟩
    · simp [hw] at hgo
    · simp [hw]
    · simp [hw]
    · simp [hw]
  · cases hchar.1
  · cases hchar.1

/-- At the end of a header the message goes on with its body, or is over. -/
theorem char_done_state {parser next : Recorder} {b : UInt8} (hchar : parser.char b = (.done, next)) :
    next.state = .body ∨ next.state = .request := by
  have hphrase : ∀ read : Recorder, read.phrase.2.state = .body ∨ read.phrase.2.state = .request := by
    intro read
    rcases read.phrase_cases with ⟨-, h⟩ | ⟨-, h⟩ <;> simp [h]
  unfold char at hchar
  generalize { parser with lexer := parser.lexer.append b } = read at hchar
  rcases read.switch_cases with hs | hs | ⟨-, name, hs⟩ | ⟨-, hs⟩ | ⟨-, hs⟩ | ⟨-, hs⟩ <;>
    rw [hs, Prod.mk.injEq] at hchar
  · cases hchar.1
  · cases hchar.1
  · cases hchar.1
  · cases hchar.1
  · rw [← hchar.2]
    exact hphrase _
  · rw [← hchar.2]
    exact hphrase _

/-- A byte that fails reports nothing. -/
theorem char_fail_handler {parser next : Recorder} {b : UInt8} (hchar : parser.char b = (.fail, next)) :
    next.handler = parser.handler := by
  unfold char at hchar
  generalize hread : { parser with lexer := parser.lexer.append b } = read at hchar
  have hread' : read.handler = parser.handler := by rw [← hread]
  rcases read.switch_cases with hs | hs | ⟨-, name, hs⟩ | ⟨-, hs⟩ | ⟨-, hs⟩ | ⟨-, hs⟩ <;>
    rw [hs, Prod.mk.injEq] at hchar
  · rw [← hchar.2, hread']
  all_goals cases hchar.1

/-- The header part of a buffer fails, covers the buffer, or ends the header. -/
theorem chars_cases (parser : Recorder) (hstate : parser.state ≠ .body) (buf : List UInt8) :
    (∃ rest next, parser.chars buf = (.fail, rest, next) ∧
      parser.feeds buf = (false, (next.end_ false).2)) ∨
    (∃ next, parser.chars buf = (.more, [], next) ∧ next.state ≠ .body ∧ parser.feeds buf = (true, next)) ∨
    (∃ front b rest last next, buf = front ++ b :: rest ∧ parser.chars buf = (.done, rest, next) ∧
      parser.chars front = (.more, [], last) ∧ parser.feeds front = (true, last) ∧ last.state ≠ .body ∧
      last.char b = (.done, next)) := by
  induction buf generalizing parser with
  | nil => exact .inr (.inl ⟨parser, rfl, hstate, rfl⟩)
  | cons b buf ih =>
    rcases hchar : parser.char b with ⟨verdict, next⟩
    cases verdict with
    | fail =>
      apply Or.inl
      exists buf, next
      rw [chars, hchar, feeds_stop (feed_fail hstate hchar)]
      exact ⟨rfl, rfl⟩
    | more =>
      have hfeeds := feeds_cons (feed_char hstate hchar nofun)
      have hchars : ∀ input, parser.chars (b :: input) = next.chars input := by
        intro input
        rw [chars, hchar]
      simp only [hfeeds, hchars]
      rcases ih next (char_more_state hstate hchar) with h | h | ⟨front, c, rest, last, next', rfl, hdone, hmore, hlast⟩
      · exact .inl h
      · exact .inr (.inl h)
      · apply Or.inr
        apply Or.inr
        exists b :: front, c, rest, last, next'
        rw [hchars, hfeeds]
        exact ⟨rfl, hdone, hmore, hlast⟩
    | done =>
      apply Or.inr
      apply Or.inr
      exists [], b, buf, parser, next
      have hdone : parser.chars (b :: buf) = (.done, buf, next) := by rw [chars, hchar]
      exact ⟨rfl, hdone, rfl, rfl, hstate, hchar⟩

theorem chars_retrace {f : List Event → List Event} (hf : Keeps f) (parser : Recorder) (buf : List UInt8) :
    (parser.retrace f).chars buf =
      ((parser.chars buf).1, (parser.chars buf).2.1, (parser.chars buf).2.2.retrace f) := by
  induction buf generalizing parser with
  | nil => rfl
  | cons b buf ih =>
    rw [chars, chars, char_retrace hf]
    rcases parser.char b with ⟨_ | _ | _, next⟩
    · rfl
    · exact ih next
    · rfl

/-- Bytes that do not reach the end of the content. -/
theorem feeds_content (parser : Recorder) (hstate : parser.state = .body) {buf : List UInt8}
    (hlt : buf.length < parser.csize) : parser.feeds buf = (true,
      { parser with handler := parser.handler ++ content buf, csize := parser.csize - buf.length }) := by
  induction buf generalizing parser with
  | nil => simp [feeds, content]
  | cons b buf ih =>
    rw [List.length_cons] at hlt
    rw [feeds_cons (feed_body hstate (by omega) b), ih]
    · simp [content]
      omega
    · exact hstate
    · simp only
      omega

/-- Bytes that complete the content. -/
theorem feeds_complete (parser : Recorder) (hstate : parser.state = .body) (hpos : 0 < parser.csize)
    {buf : List UInt8} (hle : parser.csize ≤ buf.length) : parser.feeds buf =
      ({ parser with
        handler := parser.handler ++ content (buf.take parser.csize.toNat) ++ [.end_ true]
        state := .request
        csize := 0 } : Recorder).feeds (buf.drop parser.csize.toNat) := by
  induction buf generalizing parser with
  | nil =>
    simp only [List.length_nil] at hle
    omega
  | cons b buf ih =>
    rw [List.length_cons] at hle
    by_cases hlast : parser.csize = 1
    · rw [feeds_cons (feed_last hstate hlast b)]
      simp [hlast, content]
    · rw [feeds_cons (feed_body hstate hlast b), ih]
      · obtain ⟨n, hn⟩ := Nat.exists_eq_succ_of_ne_zero (n := parser.csize.toNat) (by omega)
        have hpred : (parser.csize - 1).toNat = n := by omega
        rw [hn, hpred]
        simp [content]
      · exact hstate
      · simp only
        omega
      · simp only
        omega

theorem consume_fail {H : Type} [Handler H] {size : ℤ} {parser : HttpParser H} {buf : List UInt8}
    {next : HttpParser H → List UInt8 → ℤ × HttpParser H} (h : i32 size < 0) :
    consume (size, parser) buf next = (i32 size, (parser.end_ false).2) := by
  rw [consume]
  exact if_pos h

theorem consume_all {H : Type} [Handler H] {parser : HttpParser H} {buf : List UInt8} {next : HttpParser H → List UInt8 → ℤ × HttpParser H}
    (h : buf.length < 2 ^ 31) : consume ((buf.length : ℤ), parser) buf next = (0, parser) := by
  have hint : i32 buf.length = buf.length := i32_of_range (by omega) (by omega)
  simp [consume, hint]

theorem consume_some {H : Type} [Handler H] {parser : HttpParser H} {buf : List UInt8} {size : ℕ}
    {next : HttpParser H → List UInt8 → ℤ × HttpParser H} (h : size < 2 ^ 31) (hne : size ≠ buf.length) :
    consume ((size : ℤ), parser) buf next = next parser (buf.drop size) := by
  have hint : i32 size = size := i32_of_range (by omega) (by omega)
  simp [consume, hint, hne]

/-- A size from `2 ^ 31` on is negative as an `int`. -/
theorem i32_large {size : ℕ} (hle : 2 ^ 31 ≤ size) (hlt : size < 2 ^ 32) : i32 size < 0 := by
  rw [i32_nat hlt, if_neg (by omega)]
  omega

theorem header_fail {H : Type} [Handler H] {parser next : HttpParser H} {buf rest : List UInt8}
    (h : parser.chars buf = (.fail, rest, next)) : parser.header buf = (-1, next) := by
  rw [header, h]
  rfl

theorem header_more {H : Type} [Handler H] {parser next : HttpParser H} {buf : List UInt8} (h : parser.chars buf = (.more, [], next)) :
    parser.header buf = ((buf.length : ℤ), next) := by
  rw [header, h]
  simp

theorem header_done {H : Type} [Handler H] {parser next : HttpParser H} {front rest : List UInt8} {b : UInt8}
    (h : parser.chars (front ++ b :: rest) = (.done, rest, next)) :
    parser.header (front ++ b :: rest) = (((front ++ [b]).length : ℤ), next) := by
  rw [header, h]
  simp
  omega

/-- A body for which the buffer looks too short. -/
theorem body_of_lt (parser : Recorder) {buf : List UInt8} (h : i32 buf.length < parser.csize) :
    parser.body buf = ((buf.length : ℤ), { parser with
      handler := parser.handler ++ [.cdata buf buf.length], csize := i32 (parser.csize - buf.length) }) := by
  rw [body, if_pos h]
  rfl

/-- A body for which the buffer looks long enough. -/
theorem body_of_le (parser : Recorder) {buf : List UInt8} (h : ¬i32 buf.length < parser.csize)
    (hsize : u32 parser.csize ≠ 0) : parser.body buf = ((u32 parser.csize : ℤ), { parser with
      handler := parser.handler ++ [.cdata buf (u32 parser.csize)] ++ [.end_ true]
      state := .request
      csize := 0 }) := by
  rw [body, if_neg h]
  simp only [if_neg hsize]
  rfl

/-- A message without a body that is treated as one with a body. -/
theorem body_of_zero (parser : Recorder) {buf : List UInt8} (h : ¬i32 buf.length < parser.csize)
    (hsize : u32 parser.csize = 0) : parser.body buf = (0, (parser.end_ true).2) := by
  rw [body, if_neg h]
  simp only [hsize, if_true]
  rfl

theorem chars_more_append {H : Type} [Handler H] {start parser : HttpParser H} {front : List UInt8}
    (hfront : start.chars front = (.more, [], parser)) (input : List UInt8) :
    start.chars (front ++ input) = parser.chars input := by
  induction front generalizing start with
  | nil =>
    rw [chars, Prod.mk.injEq, Prod.mk.injEq] at hfront
    rw [List.nil_append, hfront.2.2]
  | cons b front ih =>
    rw [chars] at hfront
    rw [List.cons_append, chars]
    rcases hchar : start.char b with ⟨_ | _ | _, next⟩
    · simp [hchar] at hfront
    · rw [hchar] at hfront
      exact ih hfront
    · simp [hchar] at hfront

/-- A header part records nothing that merging changes. -/
theorem merged_chars {start parser : Recorder} (hfresh : merged start.handler = start.handler)
    {buf rest : List UInt8} {verdict : Verdict} (h : start.chars buf = (verdict, rest, parser)) :
    merged parser.handler = parser.handler := by
  have hstart : start.retrace merged = start := by rw [retrace, hfresh]
  have hchars := chars_retrace keeps_merged start buf
  rw [hstart, h, Prod.mk.injEq, Prod.mk.injEq] at hchars
  exact (congrArg HttpParser.handler hchars.2.2).symm

/-- What the buffered parser records later follows what it has recorded. -/
def Extends (parser last : Recorder) : Prop := ∃ later, last.handler = parser.handler ++ later

theorem Extends.refl (parser : Recorder) : Extends parser parser := ⟨[], by simp⟩

theorem Extends.trans {parser next last : Recorder} (h : Extends parser next) (h' : Extends next last) :
    Extends parser last := by
  obtain ⟨later, hlater⟩ := h
  obtain ⟨later', hlater'⟩ := h'
  exists later ++ later'
  rw [hlater', hlater, List.append_assoc]

theorem extends_header (parser : Recorder) (buf : List UInt8) : Extends parser (parser.header buf).2 := by
  have hchars := chars_retrace (keeps_append parser.handler) parser.fresh buf
  rw [fresh_retrace] at hchars
  exists (parser.fresh.chars buf).2.2.handler
  rw [header, hchars]
  rfl

theorem extends_end (parser : Recorder) (commit : Bool) : Extends parser (parser.end_ commit).2 :=
  ⟨[.end_ commit], rfl⟩

theorem extends_body (parser : Recorder) (buf : List UInt8) : Extends parser (parser.body buf).2 := by
  by_cases hlt : i32 buf.length < parser.csize
  · rw [body_of_lt parser hlt]
    exact ⟨[.cdata buf buf.length], rfl⟩
  · by_cases hzero : u32 parser.csize = 0
    · rw [body_of_zero parser hlt hzero]
      exact extends_end parser true
    · rw [body_of_le parser hlt hzero]
      exact ⟨[.cdata buf (u32 parser.csize), .end_ true], by simp⟩

theorem extends_consume {parser : Recorder} {result : ℤ × Recorder} {buf : List UInt8}
    {next : Recorder → List UInt8 → ℤ × Recorder} (h : Extends parser result.2)
    (hnext : ∀ last rest, Extends last (next last rest).2) : Extends parser (consume result buf next).2 := by
  simp only [consume]
  split_ifs
  · exact h.trans (extends_end _ _)
  · exact h
  · exact h.trans (hnext _ _)

theorem extends_loop (rounds : ℕ) (parser : Recorder) (buf : List UInt8) :
    Extends parser (loop rounds parser buf).2 := by
  induction rounds generalizing parser buf with
  | zero => exact .refl parser
  | succ rounds ih =>
    apply extends_consume (extends_header parser buf)
    intro last rest
    exact extends_consume (extends_body last rest) ih

theorem extends_append (parser : Recorder) (buf : List UInt8) : Extends parser (parser.append buf).2 := by
  unfold append
  split_ifs
  · exact extends_consume (extends_body parser buf) (extends_loop _)
  · exact extends_loop _ parser buf

theorem extends_appends (parser : Recorder) (bufs : List (List UInt8)) :
    Extends parser (parser.appends bufs).2 := by
  induction bufs generalizing parser with
  | nil => exact .refl parser
  | cons buf bufs ih =>
    rw [appends]
    split_ifs
    · exact extends_append parser buf
    · exact (extends_append parser buf).trans (ih _)

/-- A header part of `2 ^ 31` bytes or more makes the call fail. -/
theorem append_large {start parser : Recorder} (hstate : start.state ≠ .body) {buf : List UInt8} {size : ℕ}
    (hheader : start.header buf = ((size : ℤ), parser)) (hlarge : 2 ^ 31 ≤ size) (hmax : size < 2 ^ 32)
    (later : List (List UInt8)) :
    (start.appends (buf :: later)).2.handler = parser.handler ++ [.end_ false] := by
  have hneg := i32_large hlarge hmax
  have happend : start.append buf = (i32 size, (parser.end_ false).2) := by
    rw [append, if_neg hstate, loop, hheader, consume_fail hneg]
  rw [appends, happend, if_pos hneg]
  rfl

end HttpParser

end Aug.Net
