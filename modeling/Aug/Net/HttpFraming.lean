import Aug.Net.HttpReference
import Mathlib.Data.List.TakeWhile

/-!
# Framing of the content

What the value of a content length, taken from its text, leads to. A text that is converted is
reported, but only the remaining count, which is an `int`, decides where the content ends. For a
numeral the content is framed as long as each part of a buffer handed to the body and the count
that remains are both below `2 ^ 31`, or the count is not and the part is as long as the count.
-/

namespace Aug.Net

open Aug.Lib Aug.Util

/-- The text is a decimal numeral. -/
def IsNumeral (text : List UInt8) (n : ℕ) : Prop :=
  text ≠ [] ∧ (∀ digit ∈ text, isdigit digit = true) ∧ numeral text = n

/-- The calls for the first message of a trace. -/
def message : List Event → List Event
  | [] => []
  | .end_ commit :: _ => [.end_ commit]
  | event :: trace => event :: message trace

/-- The calls of a header. -/
def Plain (trace : List Event) : Prop :=
  ∀ event ∈ trace, (∀ commit, event ≠ .end_ commit) ∧ ∀ buf size, event ≠ .cdata buf size

/-- The first message ends without a commit before any content. -/
def Rejected (trace : List Event) : Prop :=
  ∃ front, message trace = front ++ [.end_ false] ∧ Plain front

/-- Some content is longer than what is left of the caller's buffer. -/
def Overruns (trace : List Event) : Prop := ∃ buf size, .cdata buf size ∈ trace ∧ buf.length < size

namespace HttpParser

/-- The calls for a message with `n` bytes of content, whatever the buffers. -/
def framed (start : Recorder) (stream : List UInt8) (n : ℕ) : List Event :=
  match start.chars stream with
  | (.done, rest, next) =>
    if next.state = .body then
      next.handler ++ content (rest.take n) ++ if n ≤ rest.length then [.end_ true] else []
    else next.handler
  | (_, _, next) => next.handler

/-- The header is refused: it fails, or one buffer holds `2 ^ 31` bytes or more of it. -/
def Refused (parser : Recorder) : List (List UInt8) → Prop
  | [] => False
  | buf :: bufs =>
    match parser.chars buf with
    | (.fail, _, _) => True
    | (.more, _, next) => 2 ^ 31 ≤ buf.length ∨ next.Refused bufs
    | (.done, rest, next) => next.state = .body ∧ 2 ^ 31 ≤ buf.length - rest.length

/-- A part of `size` bytes suits `left` remaining bytes. -/
def Fits (left size : ℕ) : Prop := (left < 2 ^ 31 ∧ size < 2 ^ 31) ∨ (2 ^ 31 ≤ left ∧ left ≤ size)

/-- Every part up to the end of the content suits what remains there. -/
def FitsAll (left : ℕ) : List ℕ → Prop
  | [] => True
  | size :: sizes => Fits left size ∧ (size < left → FitsAll (left - size) sizes)

/-- The parts of the body suit the content length. -/
def Sized (parser : Recorder) : List (List UInt8) → Prop
  | [] => True
  | buf :: bufs =>
    match parser.chars buf with
    | (.fail, _, _) => True
    | (.more, _, next) => next.Sized bufs
    | (.done, rest, next) => next.state = .body →
        FitsAll (u32 next.csize) ((if rest = [] then [] else [rest.length]) ++ bufs.map List.length)

end HttpParser

/-! ## Numerals -/

theorem isdigit_range {b : UInt8} : isdigit b = true ↔ 48 ≤ b.toNat ∧ b.toNat ≤ 57 := by
  simp [isdigit, UInt8.le_iff_toNat_le]

theorem sign_digits {text : List UInt8} (h : ∀ digit ∈ text, isdigit digit = true) : sign text = (false, text) := by
  unfold sign
  split
  · exact absurd (h 45 (by simp)) (by decide)
  · exact absurd (h 43 (by simp)) (by decide)
  · rfl

/-- All of a numeral is converted. -/
theorem IsNumeral.strtoul {text : List UInt8} {n : ℕ} (h : IsNumeral text n) : Util.strtoul text =
    if 2 ^ 64 ≤ n then { value := 2 ^ 64 - 1, erange := true, stop := [] }
    else { value := n, erange := false, stop := [] } := by
  obtain ⟨hne, hdigits, hn⟩ := h
  have htake : text.takeWhile isdigit = text := List.takeWhile_eq_self_iff.mpr hdigits
  have hstop : text.dropWhile isdigit = [] := List.dropWhile_eq_nil_iff.mpr hdigits
  have hdrop : text.dropWhile isspace = text := by
    obtain ⟨c, rest, rfl⟩ := List.exists_cons_of_ne_nil hne
    have hc := isdigit_range.mp (hdigits c (by simp))
    have hspace : isspace c = false := by
      rw [Bool.eq_false_iff, Ne, isspace_range]
      omega
    rw [List.dropWhile_cons, hspace, if_neg (by simp)]
  simp [Util.strtoul, hdrop, sign_digits hdigits, htake, hstop, hne, hn]

/-- The conversion of a numeral is its value. -/
theorem IsNumeral.strtoui {text : List UInt8} {n size : ℕ} (h : IsNumeral text n)
    (hsize : strtoui text = some size) : size = n := by
  unfold Util.strtoui augStrtoul at hsize
  rw [h.strtoul] at hsize
  split_ifs at hsize <;> simp_all

/-- A numeral below `2 ^ 32` is converted. -/
theorem IsNumeral.converts {text : List UInt8} {n : ℕ} (h : IsNumeral text n) (hlt : n < 2 ^ 32) :
    Util.strtoui text = some n := by
  have hlong : ¬2 ^ 64 ≤ n := by omega
  have hmax : ¬2 ^ 32 - 1 < n := by omega
  have hvalue : augStrtoul text = some n := by
    rw [augStrtoul, h.strtoul, if_neg hlong]
    simp
  rw [Util.strtoui, hvalue]
  exact if_neg hmax

/-! ## Messages -/

theorem message_append {front : List Event} (h : ∀ commit, .end_ commit ∉ front) (trace : List Event) :
    message (front ++ trace) = front ++ message trace := by
  induction front with
  | nil => rfl
  | cons event front ih =>
    have htail : message (front ++ trace) = front ++ message trace :=
      ih fun commit hmem => h commit (List.mem_cons_of_mem event hmem)
    cases event with
    | end_ commit => exact absurd List.mem_cons_self (h commit)
    | request line => simp [message, htail]
    | field name value => simp [message, htail]
    | csize size => simp [message, htail]
    | cdata buf size => simp [message, htail]

theorem Plain.no_end {trace : List Event} (h : Plain trace) (commit : Bool) : .end_ commit ∉ trace :=
  fun hmem => (h _ hmem).1 commit rfl

theorem Plain.no_cdata {trace : List Event} (h : Plain trace) (buf : List UInt8) (size : ℕ) :
    .cdata buf size ∉ trace :=
  fun hmem => (h _ hmem).2 buf size rfl

theorem Plain.append {trace trace' : List Event} (h : Plain trace) (h' : Plain trace') :
    Plain (trace ++ trace') := by
  intro event hevent
  rcases List.mem_append.mp hevent with hmem | hmem
  · exact h event hmem
  · exact h' event hmem

namespace HttpParser

/-! ## The body -/

/-- The calls for `left` bytes of content taken from `data`. -/
def Delivers (trace : List Event) (left : ℕ) (data : List UInt8) : Prop :=
  merged (message trace) = content (data.take left) ++ (if left ≤ data.length then [.end_ true] else []) ∧
    ¬Overruns (message trace) ∧ .end_ false ∉ message trace

/-- Content that is too long for its buffer, or that is followed by a failure. -/
def Breaks (trace : List Event) : Prop :=
  (∃ buf size, .cdata buf size ∈ message trace) ∧ (Overruns (message trace) ∨ .end_ false ∈ message trace)

/-- How the trace goes on in a body with the data and the parts that are left. -/
def BodyTrace (parser : Recorder) (data : List UInt8) (sizes : List ℕ) (final : List Event) : Prop :=
  ∃ trace, final = parser.handler ++ trace ∧
    (FitsAll (u32 parser.csize) sizes → Delivers trace (u32 parser.csize) data) ∧
    (¬FitsAll (u32 parser.csize) sizes → Breaks trace)

/-- A parser inside of a body. -/
structure InBody (parser : Recorder) : Prop where
  state : parser.state = .body
  ge : -2 ^ 31 ≤ parser.csize
  lt : parser.csize < 2 ^ 31
  ne : parser.csize ≠ 0

namespace InBody

variable {parser : Recorder} {buf : List UInt8} {next : Recorder → List UInt8 → ℤ × Recorder}

/-- The count as it was declared. -/
theorem left (h : InBody parser) : 0 < u32 parser.csize ∧ u32 parser.csize < 2 ^ 32 ∧
    ((u32 parser.csize < 2 ^ 31 ∧ parser.csize = u32 parser.csize) ∨
      (2 ^ 31 ≤ u32 parser.csize ∧ parser.csize = u32 parser.csize - 2 ^ 32)) := by
  have hleft := u32_int h.ge h.lt
  have hge := h.ge
  have hlt := h.lt
  have hne := h.ne
  split_ifs at hleft <;> omega

/-- A part that suits the count and does not use it up. -/
theorem part_some (h : InBody parser) (hfits : Fits (u32 parser.csize) buf.length) (hlt : buf.length < u32 parser.csize) :
    consume (parser.body buf) buf next = (0, { parser with
      handler := parser.handler ++ [.cdata buf buf.length], csize := parser.csize - buf.length }) := by
  have hleft := h.left
  unfold Fits at hfits
  have hlen : i32 buf.length = buf.length := i32_of_range (by omega) (by omega)
  have hrest : i32 (parser.csize - buf.length) = parser.csize - buf.length := i32_of_range (by omega) (by omega)
  rw [body_of_lt parser (by rw [hlen]; omega), hrest, consume_all (by omega)]

/-- A part that suits the count and uses it up. -/
theorem part_all (h : InBody parser) (hfits : Fits (u32 parser.csize) buf.length) (hle : u32 parser.csize ≤ buf.length)
    (hmax : buf.length < 2 ^ 32) (hnext : ∀ last rest, Extends last (next last rest).2) :
    ∃ later, (consume (parser.body buf) buf next).2.handler =
      parser.handler ++ [.cdata buf (u32 parser.csize)] ++ [.end_ true] ++ later := by
  have hleft := h.left
  have hlen := i32_nat hmax
  unfold Fits at hfits
  have hge : ¬i32 buf.length < parser.csize := by
    split_ifs at hlen <;> omega
  rw [body_of_le parser hge (by omega)]
  exact extends_consume (.refl _) hnext

/-- A part that does not suit the count: the content is too long for the buffer, or the call fails
after it. -/
theorem part_broken (h : InBody parser) (hfits : ¬Fits (u32 parser.csize) buf.length)
    (hmax : buf.length < 2 ^ 32) (hnext : ∀ last rest, Extends last (next last rest).2) :
    ∃ size commit later, (consume (parser.body buf) buf next).2.handler =
      parser.handler ++ [.cdata buf size] ++ [.end_ commit] ++ later ∧ (buf.length < size ∨ commit = false) := by
  have hleft := h.left
  have hlen := i32_nat hmax
  unfold Fits at hfits
  by_cases hsmall : buf.length < 2 ^ 31
  · rw [if_pos hsmall] at hlen
    have hextends : Extends { parser with
        handler := parser.handler ++ [.cdata buf (u32 parser.csize)] ++ [.end_ true]
        state := .request
        csize := 0 } (consume (parser.body buf) buf next).2 := by
      rw [body_of_le parser (by omega) (by omega)]
      exact extends_consume (.refl _) hnext
    obtain ⟨later, hlater⟩ := hextends
    exact ⟨u32 parser.csize, true, later, hlater, .inl (by omega)⟩
  · rw [if_neg hsmall] at hlen
    have hneg : i32 buf.length < 0 := by omega
    rw [body_of_lt parser (by omega), consume_fail hneg]
    exact ⟨buf.length, false, [], by simp [end_, call, Handler.end_], .inr rfl⟩

end InBody

/-! ## Traces of a body -/

theorem message_cdata (buf : List UInt8) (size : ℕ) (trace : List Event) :
    message (.cdata buf size :: trace) = .cdata buf size :: message trace := rfl

theorem message_end (commit : Bool) (trace : List Event) : message (.end_ commit :: trace) = [.end_ commit] := rfl

theorem Delivers.cons {trace : List Event} {left : ℕ} {buf data : List UInt8} (hle : buf.length ≤ left)
    (h : Delivers trace (left - buf.length) data) :
    Delivers (.cdata buf buf.length :: trace) left (buf ++ data) := by
  obtain ⟨htrace, hover, hend⟩ := h
  rw [Delivers, message_cdata]
  constructor
  · rw [← List.singleton_append, merged_append, htrace, merged_cdata, List.take_length, List.take_append,
      List.take_of_length_le hle, List.length_append]
    simp only [content, List.map_append, List.append_assoc, Nat.sub_le_iff_le_add, Nat.add_comm]
  · constructor
    · rintro ⟨buf', size, hmem, hlt⟩
      rcases List.mem_cons.mp hmem with heq | hmem
      · simp only [Event.cdata.injEq] at heq
        obtain ⟨rfl, rfl⟩ := heq
        exact lt_irrefl _ hlt
      · exact hover ⟨buf', size, hmem, hlt⟩
    · simpa using hend

/-- The count is used up by a prefix of the buffer. -/
theorem Delivers.last {left : ℕ} {buf data : List UInt8} (hle : left ≤ buf.length) (later : List Event) :
    Delivers (.cdata buf left :: .end_ true :: later) left (buf ++ data) := by
  have hdata : left ≤ (buf ++ data).length := by
    rw [List.length_append]
    omega
  rw [Delivers, message_cdata, message_end, if_pos hdata, List.take_append_of_le_length hle]
  constructor
  · rw [← List.singleton_append, merged_append, merged_cdata, merged_end]
  · constructor
    · rintro ⟨buf', size, hmem, hlt⟩
      simp only [List.mem_cons, Event.cdata.injEq, reduceCtorEq, List.not_mem_nil, or_false] at hmem
      obtain ⟨rfl, rfl⟩ := hmem
      omega
    · simp

theorem Breaks.cons {trace : List Event} (buf : List UInt8) (size : ℕ) (h : Breaks trace) :
    Breaks (.cdata buf size :: trace) := by
  obtain ⟨-, hbreaks⟩ := h
  rw [Breaks, message_cdata]
  apply And.intro ⟨buf, size, List.mem_cons_self⟩
  rcases hbreaks with ⟨buf', size', hmem, hlt⟩ | hend
  · exact .inl ⟨buf', size', List.mem_cons_of_mem _ hmem, hlt⟩
  · exact .inr (List.mem_cons_of_mem _ hend)

/-- The trace goes on as the parts of the body say, if it does so after the first one. -/
theorem part_trace {parser : Recorder} (h : InBody parser) {buf : List UInt8} {bufs : List (List UInt8)}
    {next : Recorder → List UInt8 → ℤ × Recorder} (hmax : buf.length < 2 ^ 32)
    (hnext : ∀ last rest, Extends last (next last rest).2)
    (hbufs : ∀ last, InBody last →
      BodyTrace last bufs.flatten (bufs.map List.length) (last.appends bufs).2.handler)
    (result : ℤ × Recorder) (hresult : result = consume (parser.body buf) buf next) :
    BodyTrace parser (buf ++ bufs.flatten) (buf.length :: bufs.map List.length)
      (if result.1 < 0 then result else result.2.appends bufs).2.handler := by
  have hleft := h.left
  have hextends : Extends result.2 (if result.1 < 0 then result else result.2.appends bufs).2 := by
    split_ifs
    · exact .refl _
    · exact extends_appends _ _
  obtain ⟨later, hlater⟩ := hextends
  by_cases hfits : Fits (u32 parser.csize) buf.length
  · by_cases hlt : buf.length < u32 parser.csize
    · have hsome : consume (parser.body buf) buf next = _ := h.part_some hfits hlt
      have hlast : InBody { parser with
          handler := parser.handler ++ [.cdata buf buf.length], csize := parser.csize - buf.length } := by
        unfold Fits at hfits
        constructor
        · exact h.state
        · simp only
          omega
        · simp only
          omega
        · simp only
          omega
      have hcsize : u32 (parser.csize - buf.length) = u32 parser.csize - buf.length := by
        unfold Fits at hfits
        apply u32_eq
        · omega
        · omega
      obtain ⟨trace, htrace, hdelivers, hbreaks⟩ := hbufs _ hlast
      simp only [hcsize] at hdelivers hbreaks
      exists .cdata buf buf.length :: trace
      rw [hresult, hsome, if_neg (lt_irrefl 0), htrace]
      constructor
      · simp
      · constructor
        · rintro ⟨-, hrest⟩
          exact (hdelivers (hrest hlt)).cons hlt.le
        · intro hnot
          apply Breaks.cons
          apply hbreaks
          intro hrest
          exact hnot ⟨hfits, fun _ => hrest⟩
    · obtain ⟨later', hlater'⟩ := h.part_all hfits (not_lt.mp hlt) hmax hnext
      exists .cdata buf (u32 parser.csize) :: .end_ true :: (later' ++ later)
      rw [hlater, hresult, hlater']
      constructor
      · simp
      · constructor
        · intro _
          exact Delivers.last (not_lt.mp hlt) _
        · intro hnot
          exact absurd ⟨hfits, fun hlt' => absurd hlt' hlt⟩ hnot
  · obtain ⟨size, commit, later', hlater', hbad⟩ := h.part_broken hfits hmax hnext
    exists .cdata buf size :: .end_ commit :: (later' ++ later)
    rw [hlater, hresult, hlater']
    constructor
    · simp
    · constructor
      · rintro ⟨hfits', -⟩
        exact absurd hfits' hfits
      · intro _
        rw [Breaks, message_cdata, message_end]
        apply And.intro ⟨buf, size, List.mem_cons_self⟩
        rcases hbad with hlong | rfl
        · exact .inl ⟨buf, size, List.mem_cons_self, hlong⟩
        · exact .inr (by simp)

/-- The trace of a body. -/
theorem body_trace (bufs : List (List UInt8)) (hmax : ∀ buf ∈ bufs, buf.length < 2 ^ 32) (parser : Recorder)
    (h : InBody parser) :
    BodyTrace parser bufs.flatten (bufs.map List.length) (parser.appends bufs).2.handler := by
  induction bufs generalizing parser with
  | nil =>
    have hleft := h.left.1
    exists []
    constructor
    · simp [appends]
    · constructor
      · intro _
        simp [Delivers, message, content, Overruns]
        omega
      · intro hnot
        exact absurd trivial hnot
  | cons buf bufs ih =>
    have hbufs := ih fun buf' hbuf' => hmax buf' (List.mem_cons_of_mem _ hbuf')
    rw [List.flatten_cons, List.map_cons, appends, append, if_pos h.state]
    exact part_trace h (hmax buf List.mem_cons_self) (extends_loop _) hbufs _ rfl

/-! ## The header -/

/-- A parser inside of a header. -/
structure InHeader (parser : Recorder) : Prop where
  state : parser.state ≠ .body
  plain : Plain parser.handler
  ge : -2 ^ 31 ≤ parser.csize
  lt : parser.csize < 2 ^ 31

/-- What is left of the header once it has ended: a body, or the end of the message. -/
def Ended (parser : Recorder) : Prop :=
  (InBody parser ∧ Plain parser.handler) ∨
    (parser.state = .request ∧ ∃ front, parser.handler = front ++ [.end_ true] ∧ Plain front)

theorem plain_one {event : Event} (hend : ∀ commit, event ≠ .end_ commit)
    (hcdata : ∀ buf size, event ≠ .cdata buf size) : Plain [event] := by
  intro event' hmem
  rw [List.mem_singleton] at hmem
  rw [hmem]
  exact ⟨hend, hcdata⟩

namespace InHeader

variable {parser : Recorder}

theorem word (h : InHeader parser) : InHeader parser.word.2 := by
  rcases parser.word_cases with hw | ⟨-, line, hw⟩ | ⟨-, name, value, hw⟩ | ⟨-, size, -, -, hw⟩
  · rwa [hw]
  · rw [hw]
    exact ⟨nofun, h.plain.append (plain_one nofun nofun), h.ge, h.lt⟩
  · rw [hw]
    exact ⟨nofun, h.plain.append (plain_one nofun nofun), h.ge, h.lt⟩
  · have hrange := i32_range size
    rw [hw]
    constructor
    · nofun
    · exact h.plain.append (plain_one nofun nofun)
    · simp only
      exact hrange.1
    · simp only
      exact hrange.2

theorem phrase (h : InHeader parser) : Ended parser.phrase.2 := by
  rcases parser.phrase_cases with ⟨hcsize, hp⟩ | ⟨hcsize, hp⟩
  · rw [hp]
    exact .inl ⟨⟨rfl, h.ge, h.lt, hcsize⟩, h.plain⟩
  · rw [hp]
    exact .inr ⟨rfl, parser.handler, rfl, h.plain⟩

/-- One byte of the header stays in it, or ends it. -/
theorem char (h : InHeader parser) {b : UInt8} {next : Recorder} {verdict : Verdict}
    (hchar : parser.char b = (verdict, next)) :
    (verdict ≠ .done → InHeader next) ∧ (verdict = .done → Ended next) := by
  unfold HttpParser.char at hchar
  have hread : InHeader { parser with lexer := parser.lexer.append b } := ⟨h.state, h.plain, h.ge, h.lt⟩
  generalize { parser with lexer := parser.lexer.append b } = read at hchar hread
  rcases read.switch_cases with hs | hs | ⟨-, name, hs⟩ | ⟨-, hs⟩ | ⟨-, hs⟩ | ⟨-, hs⟩ <;>
    rw [hs, Prod.mk.injEq] at hchar <;> obtain ⟨rfl, rfl⟩ := hchar
  · exact ⟨fun _ => hread, nofun⟩
  · exact ⟨fun _ => hread, nofun⟩
  · exact ⟨fun _ => ⟨nofun, hread.plain, hread.ge, hread.lt⟩, nofun⟩
  · exact ⟨fun _ => hread.word, nofun⟩
  · exact ⟨fun hne => absurd rfl hne, fun _ => hread.word.phrase⟩
  · exact ⟨fun hne => absurd rfl hne, fun _ => hread.phrase⟩

theorem chars (h : InHeader parser) {buf rest : List UInt8} {next : Recorder} {verdict : Verdict}
    (hchars : parser.chars buf = (verdict, rest, next)) :
    (verdict ≠ .done → InHeader next) ∧ (verdict = .done → Ended next) := by
  induction buf generalizing parser with
  | nil =>
    rw [HttpParser.chars, Prod.mk.injEq, Prod.mk.injEq] at hchars
    obtain ⟨rfl, -, rfl⟩ := hchars
    exact ⟨fun _ => h, by simp⟩
  | cons b buf ih =>
    rw [HttpParser.chars] at hchars
    rcases hchar : parser.char b with ⟨_ | _ | _, last⟩
    · rw [hchar, Prod.mk.injEq, Prod.mk.injEq] at hchars
      obtain ⟨rfl, -, rfl⟩ := hchars
      exact h.char hchar
    · rw [hchar] at hchars
      exact ih ((h.char hchar).1 (by decide)) hchars
    · rw [hchar, Prod.mk.injEq, Prod.mk.injEq] at hchars
      obtain ⟨rfl, -, rfl⟩ := hchars
      exact h.char hchar

end InHeader

theorem merged_plain {trace : List Event} (h : Plain trace) : merged trace = trace := by
  induction trace with
  | nil => rfl
  | cons event trace ih =>
    have htail : merged trace = trace := ih fun event' hmem => h event' (List.mem_cons_of_mem event hmem)
    have hhead := (h event List.mem_cons_self).2
    rw [← List.singleton_append, merged_append, htail]
    cases event with
    | cdata buf size => exact absurd rfl (hhead buf size)
    | request line => rfl
    | field name value => rfl
    | csize size => rfl
    | end_ commit => rfl

/-- The calls for the rest of a stream whose header has been read up to `next`. -/
theorem framed_more {start next : Recorder} {front : List UInt8} (hfront : start.chars front = (.more, [], next))
    (stream : List UInt8) (n : ℕ) : framed start (front ++ stream) n = framed next stream n := by
  rw [framed, chars_more_append hfront, framed]

theorem chars_done_append {start next : Recorder} {buf rest : List UInt8}
    (h : start.chars buf = (.done, rest, next)) (later : List UInt8) :
    start.chars (buf ++ later) = (.done, rest ++ later, next) := by
  induction buf generalizing start with
  | nil => simp [HttpParser.chars] at h
  | cons b buf ih =>
    rw [HttpParser.chars] at h
    rw [List.cons_append, HttpParser.chars]
    rcases hchar : start.char b with ⟨_ | _ | _, last⟩
    · simp [hchar] at h
    · rw [hchar] at h
      exact ih h
    · simp only [hchar, Prod.mk.injEq, true_and] at h ⊢
      rw [h.1]
      exact ⟨rfl, h.2⟩

/-- The first message is as it should be for `n` bytes of content. -/
def Proper (start : Recorder) (stream : List UInt8) (n : ℕ) (final : List Event) : Prop :=
  merged (message final) = framed start stream n ∧ ¬Overruns (message final) ∧ .end_ false ∉ message final

/-- A complete header and the trace of a body make a trace of the stream. -/
theorem body_final {start next : Recorder} {stream rest : List UInt8} {sizes : List ℕ} {final : List Event}
    (hchars : start.chars stream = (.done, rest, next)) (hbody : InBody next) (hplain : Plain next.handler)
    (h : BodyTrace next rest sizes final) :
    (FitsAll (u32 next.csize) sizes → Proper start stream (u32 next.csize) final) ∧
      (¬FitsAll (u32 next.csize) sizes → Breaks final) := by
  obtain ⟨trace, rfl, hdelivers, hbreaks⟩ := h
  have hmessage := message_append hplain.no_end trace
  constructor
  · intro hfits
    obtain ⟨htrace, hover, hend⟩ := hdelivers hfits
    rw [Proper, hmessage]
    constructor
    · rw [merged_append, merged_plain hplain, htrace, framed, hchars]
      simp [hbody.state]
    · constructor
      · rintro ⟨buf, size, hmem, hlt⟩
        rcases List.mem_append.mp hmem with hmem | hmem
        · exact hplain.no_cdata buf size hmem
        · exact hover ⟨buf, size, hmem, hlt⟩
      · intro hmem
        rcases List.mem_append.mp hmem with hmem | hmem
        · exact hplain.no_end false hmem
        · exact hend hmem
  · intro hnot
    obtain ⟨⟨buf, size, hmem⟩, hbad⟩ := hbreaks hnot
    rw [Breaks, hmessage]
    apply And.intro ⟨buf, size, List.mem_append_right _ hmem⟩
    rcases hbad with ⟨buf', size', hmem', hlt⟩ | hend
    · exact .inl ⟨buf', size', List.mem_append_right _ hmem', hlt⟩
    · exact .inr (List.mem_append_right _ hend)

/-- A message without a body is over with its header. -/
theorem bare_final {start next : Recorder} {stream rest : List UInt8} {final : List Event} (n : ℕ)
    (hchars : start.chars stream = (.done, rest, next)) (hrequest : next.state = .request)
    {front : List Event} (hfront : next.handler = front ++ [.end_ true]) (hplain : Plain front)
    (hfinal : ∃ later, final = next.handler ++ later) : Proper start stream n final := by
  obtain ⟨later, rfl⟩ := hfinal
  have hmessage : message (next.handler ++ later) = front ++ [.end_ true] := by
    rw [hfront, List.append_assoc, message_append hplain.no_end]
    rfl
  rw [Proper, hmessage]
  constructor
  · rw [merged_append, merged_plain hplain, merged_end, framed, hchars]
    simp [hrequest, hfront]
  · constructor
    · rintro ⟨buf, size, hmem, -⟩
      rcases List.mem_append.mp hmem with hmem | hmem
      · exact hplain.no_cdata buf size hmem
      · simp at hmem
    · intro hmem
      rcases List.mem_append.mp hmem with hmem | hmem
      · exact hplain.no_end false hmem
      · simp at hmem

/-- What the buffers lead to: a refusal, the proper calls, or a break. -/
structure Framing (start : Recorder) (bufs : List (List UInt8)) (final : List Event) : Prop where
  refused : start.Refused bufs → ∃ front, final = front ++ [.end_ false] ∧ Plain front
  proper : ¬start.Refused bufs → start.Sized bufs →
    Proper start bufs.flatten (u32 (start.chars bufs.flatten).2.2.csize) final
  broken : ¬start.Refused bufs → ¬start.Sized bufs → Breaks final

section Buffers

variable {parser next : Recorder} {buf rest : List UInt8} {bufs : List (List UInt8)}

theorem refused_fail (h : parser.chars buf = (.fail, rest, next)) : parser.Refused (buf :: bufs) := by
  rw [Refused, h]
  trivial

theorem refused_more (h : parser.chars buf = (.more, rest, next)) :
    parser.Refused (buf :: bufs) ↔ 2 ^ 31 ≤ buf.length ∨ next.Refused bufs := by
  rw [Refused, h]

theorem refused_done (h : parser.chars buf = (.done, rest, next)) :
    parser.Refused (buf :: bufs) ↔ next.state = .body ∧ 2 ^ 31 ≤ buf.length - rest.length := by
  rw [Refused, h]

theorem sized_more (h : parser.chars buf = (.more, rest, next)) :
    parser.Sized (buf :: bufs) ↔ next.Sized bufs := by
  rw [Sized, h]

theorem sized_done (h : parser.chars buf = (.done, rest, next)) :
    parser.Sized (buf :: bufs) ↔ (next.state = .body →
      FitsAll (u32 next.csize) ((if rest = [] then [] else [rest.length]) ++ bufs.map List.length)) := by
  rw [Sized, h]

/-- The header ends inside of a buffer and the message has a body. -/
theorem done_trace (hstate : parser.state ≠ .body) (h : parser.chars buf = (.done, rest, next))
    (hbody : InBody next) {front : List UInt8} {b : UInt8} (hbuf : buf = front ++ b :: rest)
    (hsmall : (front ++ [b]).length < 2 ^ 31) (hmax : ∀ buf' ∈ buf :: bufs, buf'.length < 2 ^ 32) :
    BodyTrace next (rest ++ bufs.flatten) ((if rest = [] then [] else [rest.length]) ++ bufs.map List.length)
      (parser.appends (buf :: bufs)).2.handler := by
  have hbufs := body_trace bufs fun buf' hbuf' => hmax buf' (List.mem_cons_of_mem _ hbuf')
  have hlen := hmax buf List.mem_cons_self
  have hheader : parser.header buf = (((front ++ [b]).length : ℤ), next) := by
    rw [hbuf] at h ⊢
    exact header_done h
  have happend : parser.append buf =
      consume (((front ++ [b]).length : ℤ), next) buf fun last rest' =>
        consume (last.body rest') rest' (loop buf.length) := by
    rw [append, if_neg hstate, loop, hheader]
  cases rest with
  | nil =>
    rw [← hbuf] at happend hsmall
    rw [consume_all hsmall] at happend
    rw [appends, happend, if_neg (lt_irrefl 0)]
    exact hbufs next hbody
  | cons c rest =>
    have hsplit : buf = (front ++ [b]) ++ c :: rest := by rw [hbuf]; simp
    have hne : (front ++ [b]).length ≠ buf.length := by
      rw [hsplit]
      simp
    have hdrop : buf.drop (front ++ [b]).length = c :: rest := by
      rw [hsplit, List.drop_left]
    have hrest : (c :: rest).length < 2 ^ 32 := by
      rw [hsplit, List.length_append] at hlen
      omega
    rw [consume_some hsmall hne, hdrop] at happend
    rw [appends, if_neg (by simp)]
    exact part_trace hbody hrest (extends_loop _) hbufs _ happend

end Buffers

/-- Every stream in buffers is refused, framed or broken as its header and its parts say. -/
theorem framing (bufs : List (List UInt8)) (hmax : ∀ buf ∈ bufs, buf.length < 2 ^ 32) (parser : Recorder)
    (h : InHeader parser) : Framing parser bufs (parser.appends bufs).2.handler := by
  induction bufs generalizing parser with
  | nil =>
    have hmessage : message parser.handler = parser.handler := by
      have happend := message_append h.plain.no_end []
      rwa [List.append_nil, message, List.append_nil] at happend
    constructor
    · exact False.elim
    · intro _ _
      rw [appends, Proper, hmessage, merged_plain h.plain]
      refine ⟨rfl, ?_, h.plain.no_end false⟩
      rintro ⟨buf, size, hmem, -⟩
      exact h.plain.no_cdata buf size hmem
    · intro _ hnot
      exact absurd trivial hnot
  | cons buf bufs ih =>
    have hlen := hmax buf List.mem_cons_self
    rcases parser.chars_cases h.state buf with
      ⟨rest, next, hchars, -⟩ | ⟨next, hchars, hnext, -⟩ | ⟨front, b, rest, last, next, hbuf, hchars, -, -, -, -⟩
    · have hneg : i32 (-1) < 0 := by decide
      have hrefused : parser.Refused (buf :: bufs) := refused_fail hchars
      have happend : parser.append buf = (i32 (-1), (next.end_ false).2) := by
        rw [append, if_neg h.state, loop, header_fail hchars, consume_fail hneg]
      constructor
      · intro _
        exists next.handler
        rw [appends, happend, if_pos hneg]
        exact ⟨rfl, ((h.chars hchars).1 (by decide)).plain⟩
      · intro hnot
        exact absurd hrefused hnot
      · intro hnot
        exact absurd hrefused hnot
    · have hheader := (h.chars hchars).1 (by decide)
      by_cases hsmall : buf.length < 2 ^ 31
      · have happend : parser.append buf = (0, next) := by
          rw [append, if_neg h.state, loop, header_more hchars, consume_all hsmall]
        have hrest := ih (fun buf' hbuf' => hmax buf' (List.mem_cons_of_mem _ hbuf')) next hheader
        have hiff : parser.Refused (buf :: bufs) ↔ next.Refused bufs := by
          rw [refused_more hchars]
          exact or_iff_right (not_le.mpr hsmall)
        rw [appends, happend, if_neg (lt_irrefl 0)]
        constructor
        · rw [hiff]
          exact hrest.refused
        · rw [hiff, sized_more hchars, List.flatten_cons, Proper, framed_more hchars, chars_more_append hchars]
          exact hrest.proper
        · rw [hiff, sized_more hchars]
          exact hrest.broken
      · have hlarge := not_lt.mp hsmall
        have hrefused : parser.Refused (buf :: bufs) := (refused_more hchars).mpr (.inl hlarge)
        constructor
        · intro _
          exact ⟨next.handler, append_large h.state (header_more hchars) hlarge hlen bufs, hheader.plain⟩
        · intro hnot
          exact absurd hrefused hnot
        · intro hnot
          exact absurd hrefused hnot
    · have hcount : (front ++ [b]).length = buf.length - rest.length := by
        rw [hbuf]
        simp
        omega
      have hflat := chars_done_append hchars bufs.flatten
      have hheader : parser.header buf = (((front ++ [b]).length : ℤ), next) := by
        rw [hbuf] at hchars ⊢
        exact header_done hchars
      rcases (h.chars hchars).2 rfl with ⟨hbody, hplain⟩ | ⟨hrequest, events, hevents, hplain⟩
      · by_cases hsmall : (front ++ [b]).length < 2 ^ 31
        · have hiff : ¬parser.Refused (buf :: bufs) := by
            rw [refused_done hchars, ← hcount]
            omega
          have hfinal := body_final hflat hbody hplain (done_trace h.state hchars hbody hbuf hsmall hmax)
          constructor
          · intro hrefused
            exact absurd hrefused hiff
          · intro _ hsized
            rw [List.flatten_cons, hflat]
            exact hfinal.1 ((sized_done hchars).mp hsized hbody.state)
          · intro _ hsized
            apply hfinal.2
            intro hfits
            exact hsized ((sized_done hchars).mpr fun _ => hfits)
        · have hrefused : parser.Refused (buf :: bufs) :=
            (refused_done hchars).mpr ⟨hbody.state, by omega⟩
          constructor
          · intro _
            have hlength : (front ++ [b]).length < 2 ^ 32 := by omega
            exact ⟨next.handler, append_large h.state hheader (not_lt.mp hsmall) hlength bufs, hplain⟩
          · intro hnot
            exact absurd hrefused hnot
          · intro hnot
            exact absurd hrefused hnot
      · have hne : next.state ≠ .body := by
          rw [hrequest]
          decide
        have hextends : Extends next (parser.append buf).2 := by
          rw [append, if_neg h.state, loop, hheader]
          exact extends_consume (.refl _) fun last rest' => extends_consume (extends_body last rest') (extends_loop _)
        have hfinal : Extends next (parser.appends (buf :: bufs)).2 := by
          rw [appends]
          split_ifs
          · exact hextends
          · exact hextends.trans (extends_appends _ _)
        constructor
        · intro hrefused
          exact absurd ((refused_done hchars).mp hrefused).1 hne
        · intro _ _
          exact bare_final _ hflat hrequest hevents hplain hfinal
        · intro _ hsized
          exact absurd ((sized_done hchars).mpr fun hbody => absurd hbody hne) hsized

end HttpParser

open HttpParser

/-- The message is rejected, or its content length is a decimal numeral that is reported and the
content is as long as that. -/
def Framed (start : Recorder) (text : List UInt8) (bufs : List (List UInt8)) : Prop :=
  Rejected (start.appends bufs).2.handler ∨
    ∃ n, IsNumeral text n ∧ .csize n ∈ message (start.appends bufs).2.handler ∧
      merged (message (start.appends bufs).2.handler) = start.framed bufs.flatten n ∧
      ¬Overruns (message (start.appends bufs).2.handler)

/-- The byte `b` completes the value of a content length. -/
structure Declares (parser : Recorder) (b : UInt8) (text : List UInt8) : Prop where
  state : parser.state = .value
  name : iscsize parser.name = true
  label : (parser.lexer.append b).what.label = false
  word : (parser.lexer.append b).what.word = true
  text : text = (parser.lexer.append b).lexertoken.getD []

namespace HttpParser

theorem value_some (parser : Recorder) (hname : iscsize parser.name = true) {size : ℕ}
    (hsome : strtoui parser.token = some size) : parser.value =
      (true, { parser with handler := parser.handler ++ [.csize size], csize := i32 size }) := by
  rw [value, if_pos hname, hsome]
  simp only [call, Handler.csize]

theorem word_some (parser : Recorder) (hstate : parser.state = .value) (hname : iscsize parser.name = true) {size : ℕ}
    (hsome : strtoui parser.token = some size) : parser.word =
      (true, { parser with handler := parser.handler ++ [.csize size], state := .name, csize := i32 size }) := by
  simp only [word, hstate, value_some parser hname hsome, if_true]

theorem word_none (parser : Recorder) (hstate : parser.state = .value) (hname : iscsize parser.name = true)
    (hnone : strtoui parser.token = none) : parser.word = (false, parser) := by
  simp [word, hstate, value, hname, hnone]
/-- The `switch` where a word, or a word and a phrase, is complete. -/
theorem switch_word (parser : Recorder) (hlabel : parser.lexer.what.label = false)
    (hword : parser.lexer.what.word = true) : parser.switch =
      if parser.lexer.what.phrase then
        if parser.word.1 then verdict .done parser.word.2.phrase else (.fail, parser.word.2)
      else verdict .more parser.word := by
  unfold switch
  rcases hwhat : parser.lexer.what with ⟨label, word, phrase⟩
  rw [hwhat] at hlabel hword
  obtain rfl : label = false := hlabel
  obtain rfl : word = true := hword
  cases phrase <;> rfl

/-- A text that is refused fails the header. -/
theorem declares_none {parser : Recorder} {b : UInt8} {text : List UInt8} (h : Declares parser b text)
    (hnone : strtoui text = none) : (parser.char b).1 = .fail := by
  have htext := h.text
  have hswitch := switch_word { parser with lexer := parser.lexer.append b } h.label h.word
  have hfail := word_none { parser with lexer := parser.lexer.append b } h.state h.name (by rwa [token, ← htext])
  rw [char, hswitch, hfail]
  split_ifs with hphrase hgo
  · exact hgo.elim
  · rfl
  · rfl

/-- A text that is converted is reported and counted. -/
theorem declares_some {parser : Recorder} {b : UInt8} {text : List UInt8} (h : Declares parser b text) {size : ℕ}
    (hsome : strtoui text = some size) : (parser.char b).1 ≠ .fail ∧
      .csize size ∈ (parser.char b).2.handler ∧
      ((parser.char b).1 = .more ∨ (parser.char b).2.state = .body → (parser.char b).2.csize = i32 size) := by
  have htext := h.text
  have hswitch := switch_word { parser with lexer := parser.lexer.append b } h.label h.word
  have hdone := word_some { parser with lexer := parser.lexer.append b } h.state h.name (by rwa [token, ← htext])
  rw [char, hswitch, hdone]
  generalize hread : ({ parser with
    lexer := parser.lexer.append b
    handler := parser.handler ++ [.csize size]
    state := .name
    csize := i32 size } : Recorder) = read
  have hmem : .csize size ∈ read.handler := by
    rw [← hread]
    simp
  have hcsize : read.csize = i32 size := by rw [← hread]
  simp only [if_true]
  split_ifs with hphrase
  · rcases read.phrase_cases with ⟨-, hp⟩ | ⟨-, hp⟩
    · simp [verdict, hp, hmem, hcsize]
    · simp [verdict, hp, hmem]
  · simp [verdict, hmem, hcsize]

/-- A word keeps the count or reports a new one. -/
theorem word_count (parser : Recorder) : parser.word.2.csize = parser.csize ∨
    ∃ size, parser.word.2.handler = parser.handler ++ [.csize size] := by
  rcases parser.word_cases with hw | ⟨-, line, hw⟩ | ⟨-, name, value, hw⟩ | ⟨-, size, -, -, hw⟩
  · exact .inl (by rw [hw])
  · exact .inl (by rw [hw])
  · exact .inl (by rw [hw])
  · exact .inr ⟨size, by rw [hw]⟩

/-- A byte of the header keeps the count, reports a new one, or ends the message. -/
theorem char_count (parser : Recorder) (b : UInt8) : (parser.char b).2.csize = parser.csize ∨
    (∃ size later, (parser.char b).2.handler = parser.handler ++ .csize size :: later) ∨
    (parser.char b).2.state = .request ∧ (parser.char b).1 = .done := by
  have hphrase : ∀ read : Recorder, (read.phrase.2.csize = read.csize ∧ read.phrase.2.handler = read.handler) ∨
      read.phrase.2.state = .request := by
    intro read
    rcases read.phrase_cases with ⟨-, hp⟩ | ⟨-, hp⟩
    · exact .inl (by simp [hp])
    · exact .inr (by rw [hp])
  unfold char
  generalize hread : { parser with lexer := parser.lexer.append b } = read
  have hsame : read.csize = parser.csize ∧ read.handler = parser.handler := by
    rw [← hread]
    exact ⟨rfl, rfl⟩
  rw [← hsame.1, ← hsame.2]
  rcases read.switch_cases with hs | hs | ⟨-, name, hs⟩ | ⟨-, hs⟩ | ⟨-, hs⟩ | ⟨-, hs⟩ <;> rw [hs]
  · exact .inl rfl
  · exact .inl rfl
  · exact .inl rfl
  · rcases read.word_count with hsame' | ⟨size, hsize⟩
    · exact .inl hsame'
    · exact .inr (.inl ⟨size, [], hsize⟩)
  · rcases hphrase read.word.2 with ⟨hcsize, hhandler⟩ | hrequest
    · rcases read.word_count with hsame' | ⟨size, hsize⟩
      · exact .inl (hcsize.trans hsame')
      · exact .inr (.inl ⟨size, [], hhandler.trans hsize⟩)
    · exact .inr (.inr ⟨hrequest, rfl⟩)
  · rcases hphrase read with ⟨hcsize, -⟩ | hrequest
    · exact .inl hcsize
    · exact .inr (.inr ⟨hrequest, rfl⟩)

/-- A byte that does not report a count keeps it, up to the end of the message. -/
theorem char_keeps {parser last : Recorder} {b : UInt8} {verdict : Verdict} (hchar : parser.char b = (verdict, last))
    (honly : ∀ size, .csize size ∉ (parser.fresh.char b).2.handler) (hstate : last.state = .body ∨ verdict = .more) :
    last.csize = parser.csize := by
  have hhandler := char_fresh parser b
  have hcount := parser.char_count b
  rw [hchar] at hhandler hcount
  rcases hcount with hkeep | ⟨size, later, hsize⟩ | ⟨hrequest, hdone⟩
  · exact hkeep
  · rw [hhandler, List.append_right_inj] at hsize
    exact absurd (by rw [hsize]; simp) (honly size)
  · rcases hstate with hbody | hmore
    · rw [hbody] at hrequest
      cases hrequest
    · rw [hmore] at hdone
      cases hdone

/-- Without another content length the count is that of the body. -/
theorem chars_count {parser next : Recorder} {input rest : List UInt8}
    (hchars : parser.chars input = (.done, rest, next)) (hbody : next.state = .body)
    (honly : ∀ size, .csize size ∉ (parser.fresh.chars input).2.2.handler) : next.csize = parser.csize := by
  induction input generalizing parser with
  | nil => simp [chars] at hchars
  | cons b input ih =>
    have hfresh := char_retrace (keeps_append parser.handler) b parser.fresh
    rw [fresh_retrace] at hfresh
    rcases hchar : parser.fresh.char b with ⟨_ | _ | _, last⟩ <;>
      rw [hchar] at hfresh <;> rw [chars, hfresh] at hchars <;> rw [chars, hchar] at honly
    · simp at hchars
    · have hlast := chars_retrace (keeps_append last.handler) last.fresh input
      rw [fresh_retrace] at hlast
      have hsame : (last.retrace (parser.handler ++ ·)).fresh = last.fresh := rfl
      simp only [hlast, retrace, List.mem_append, not_or] at honly
      have hcsize := char_keeps hfresh (by rw [hchar]; exact fun size => (honly size).1) (.inr rfl)
      rw [← hcsize]
      exact ih hchars (by rw [hsame]; exact fun size => (honly size).2)
    · simp only [Prod.mk.injEq, true_and] at hchars
      rw [← hchars.2] at hbody ⊢
      exact char_keeps hfresh (by rw [hchar]; exact honly) (.inl hbody)

theorem refused_of_fail (parser : Recorder) {bufs : List (List UInt8)}
    (h : (parser.chars bufs.flatten).1 = .fail) (hstate : parser.state ≠ .body) : parser.Refused bufs := by
  induction bufs generalizing parser with
  | nil => simp [chars] at h
  | cons buf bufs ih =>
    rw [List.flatten_cons] at h
    rcases parser.chars_cases hstate buf with
      ⟨rest, next, hchars, -⟩ | ⟨next, hchars, hnext, -⟩ | ⟨front, b, rest, last, next, -, hchars, -, -, -, -⟩
    · exact refused_fail hchars
    · rw [chars_more_append hchars] at h
      exact (refused_more hchars).mpr (.inr (ih next h hnext))
    · rw [chars_done_append hchars] at h
      cases h

theorem not_mem_content {event : Event} (h : ∀ buf size, event ≠ .cdata buf size) (buf : List UInt8) :
    event ∉ content buf := by
  intro hmem
  obtain ⟨b, -, heq⟩ := List.mem_map.mp hmem
  exact h _ _ heq.symm

/-- The calls for a message have no failure. -/
theorem framed_no_failure {start : Recorder} (h : InHeader start) (stream : List UInt8) (n : ℕ) :
    .end_ false ∉ framed start stream n := by
  rcases hchars : start.chars stream with ⟨verdict, rest, next⟩
  have hends := h.chars hchars
  rw [framed, hchars]
  cases verdict with
  | fail => exact (hends.1 nofun).plain.no_end false
  | more => exact (hends.1 nofun).plain.no_end false
  | done =>
    rcases hends.2 rfl with ⟨hbody, hplain⟩ | ⟨hrequest, front, hfront, hplain⟩
    · have hplain' := hplain.no_end false
      have hcontent : .end_ false ∉ content (rest.take n) := not_mem_content (by simp) _
      simp only [hbody.state, if_true]
      split_ifs <;> simp [hplain', hcontent]
    · have hplain' := hplain.no_end false
      simp [hrequest, hfront, hplain']

/-- The calls of the header are among those for the message. -/
theorem mem_framed {start : Recorder} {stream : List UInt8} {event : Event}
    (h : event ∈ (start.chars stream).2.2.handler) (n : ℕ) : event ∈ framed start stream n := by
  rcases hchars : start.chars stream with ⟨_ | _ | _, rest, next⟩ <;> rw [hchars] at h <;> rw [framed, hchars]
  · exact h
  · exact h
  · simp only
    split_ifs <;> simp [h]

/-- Only the count of a body matters. -/
theorem framed_congr {start : Recorder} {stream : List UInt8} {n m : ℕ}
    (h : (start.chars stream).1 = .done → (start.chars stream).2.2.state = .body → n = m) :
    framed start stream n = framed start stream m := by
  rcases hchars : start.chars stream with ⟨_ | _ | _, rest, next⟩ <;> rw [hchars] at h <;> rw [framed, framed, hchars]
  by_cases hbody : next.state = .body
  · rw [h rfl hbody]
  · simp only [if_neg hbody]

/-- A declared content length is reported and is the count of the body. -/
theorem chars_declares {parser : Recorder} {b : UInt8} {text input : List UInt8} (h : Declares parser b text)
    {size : ℕ} (hsome : strtoui text = some size)
    (honly : (parser.char b).1 = .more →
      ∀ count, .csize count ∉ ((parser.char b).2.fresh.chars input).2.2.handler) :
    .csize size ∈ (parser.chars (b :: input)).2.2.handler ∧
      ((parser.chars (b :: input)).1 = .done → (parser.chars (b :: input)).2.2.state = .body →
        (parser.chars (b :: input)).2.2.csize = i32 size) := by
  obtain ⟨hgo, hmem, hcsize⟩ := declares_some h hsome
  rcases hchar : parser.char b with ⟨_ | _ | _, last⟩ <;> rw [hchar] at hgo hmem hcsize honly <;> rw [chars, hchar]
  · exact absurd rfl hgo
  · have hlast := chars_retrace (keeps_append last.handler) last.fresh input
    rw [fresh_retrace] at hlast
    constructor
    · simp only [hlast, retrace]
      exact List.mem_append_left _ hmem
    · intro hdone hbody
      rcases hchars : last.chars input with ⟨verdict, rest, next⟩
      simp only [hchars] at hdone hbody ⊢
      rw [hdone] at hchars
      rw [chars_count hchars hbody (honly rfl)]
      exact hcsize (.inl rfl)
  · exact ⟨hmem, fun _ hbody => hcsize (.inr hbody)⟩

end HttpParser

theorem mem_merged_end {trace : List Event} {commit : Bool} (h : .end_ commit ∈ trace) :
    .end_ commit ∈ merged trace :=
  List.mem_flatMap.mpr ⟨_, h, List.mem_cons_self⟩

theorem mem_of_merged_csize {trace : List Event} {size : ℕ} (h : .csize size ∈ merged trace) :
    .csize size ∈ trace := by
  obtain ⟨event, hevent, hmem⟩ := List.mem_flatMap.mp h
  cases event with
  | cdata buf count => exact absurd hmem (HttpParser.not_mem_content (by simp) (buf.take count))
  | csize count =>
    simp only [Event.bytes, List.mem_singleton] at hmem
    rwa [hmem]
  | request line => simp [Event.bytes] at hmem
  | field name value => simp [Event.bytes] at hmem
  | end_ commit => simp [Event.bytes] at hmem

/-- `"G\nContent-Length:"`. -/
def preamble : List UInt8 := [71, 10, 67, 111, 110, 116, 101, 110, 116, 45, 76, 101, 110, 103, 116, 104, 58]

/-- A new parser whose calls are recorded. -/
def recorder : Recorder := create 0 []

theorem inHeader_recorder : InHeader recorder :=
  ⟨nofun, by simp [Plain, recorder, create], by simp [recorder, create], by simp [recorder, create]⟩

end Aug.Net
