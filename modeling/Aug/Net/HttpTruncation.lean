import Aug.Net.HttpFragment
import Aug.Net.HttpReset

/-!
# Truncated messages

What `aug_finishhttp_BIN` makes of input that ends within a message. The bytes behind the last complete message are
those of the reference run, which goes along with any parser whose calls succeed. The end of the input is judged by
the phase, and by the flag of the lexer that says whether a line has just ended.
-/

namespace Aug.Net

open Aug.Lib Aug.Util

/-- A handler with a record of the calls that it gets. -/
structure Logged (H : Type) where
  handler : H
  trace : List Event
deriving DecidableEq, Repr

/-- Record a call, and make it. -/
def Logged.log {H : Type} (event : Event) (f : H → Bool × H) (logged : Logged H) : Bool × Logged H :=
  ((f logged.handler).1, { handler := (f logged.handler).2, trace := logged.trace ++ [event] })

/-- The calls are passed on. -/
instance {H : Type} [Handler H] : Handler (Logged H) where
  request line := Logged.log (.request line) (Handler.request line)
  field name value := Logged.log (.field name value) (Handler.field name value)
  csize size := Logged.log (.csize size) (Handler.csize size)
  cdata buf size := Logged.log (.cdata buf size) (Handler.cdata buf size)
  end_ commit := Logged.log (.end_ commit) (Handler.end_ commit)

namespace HttpParser

/-! ## Judging the end of the input -/

/-- The byte completes a message: it is the last of the content, or of the header where there is no content. -/
def Completes (parser : Recorder) (b : UInt8) : Prop :=
  parser.Bare b ∨ (parser.state = .body ∧ parser.csize = 1)

instance (parser : Recorder) (b : UInt8) : Decidable (parser.Completes b) :=
  inferInstanceAs (Decidable (_ ∨ _))

/-- The bytes behind the last complete message. -/
def unfinished (parser : Recorder) (since : List UInt8) : List UInt8 → List UInt8
  | [] => since
  | b :: input => (parser.feed b).2.unfinished (if parser.Completes b then [] else since ++ [b]) input

/-- The input ends within a message: there is something behind the last complete message that is not blank. -/
def Truncated (before : UInt8) (input : List UInt8) : Prop :=
  ∃ b ∈ (create before []).unfinished [] input, isspace b = false

instance (before : UInt8) (input : List UInt8) : Decidable (Truncated before input) :=
  inferInstanceAs (Decidable (∃ _ ∈ _, _))

variable {H : Type} [Handler H]

/-- The end of the input is an error, and the last report is that of an end without commit. -/
def Aborts (parser : HttpParser (Logged H)) : Prop :=
  parser.finish.1 < 0 ∧ ∃ calls, parser.finish.2.handler.trace = parser.handler.trace ++ calls ++ [.end_ false]

/-- The end of the input is none, and nothing is reported. -/
def Silent (parser : HttpParser (Logged H)) : Prop :=
  parser.finish.1 = 0 ∧ parser.finish.2.handler.trace = parser.handler.trace

/-- The end of the input is an error exactly if a message is truncated, and otherwise nothing happens. -/
def Detects (parser : HttpParser (Logged H)) (truncated : Prop) : Prop :=
  (parser.Aborts ↔ truncated) ∧ (¬truncated → parser.Silent)

/-- The text of the line that the lexer holds. -/
def held (parser : HttpParser H) : List UInt8 := parser.lexer.start.token.takeWhile (· ≠ 0)

/-- The handler takes the call, and the commit of the message if it has no content. -/
def Accepts (call : H → Bool × H) (csize : ℤ) (handler : H) : Prop :=
  (call handler).1 = true ∧ (csize = 0 → (Handler.end_ true (call handler).2).1 = true)

/-- The line that the lexer holds is taken as the last of a header: a request line, or a field with its name. -/
def LineTaken (parser : HttpParser H) : Prop :=
  match parser.state with
  | .request => Accepts (Handler.request parser.held) parser.csize parser.handler
  | .name => False
  | .value =>
    if iscsize parser.name then
      ∃ csize, strtoui parser.held = some csize ∧ Accepts (Handler.csize csize) (i32 csize) parser.handler
    else Accepts (Handler.field parser.name parser.held) parser.csize parser.handler
  | .body => False

/-- A line has just ended, and it is not taken. -/
def LineRefused (parser : HttpParser H) : Prop := parser.lexer.words.newline = true ∧ ¬parser.LineTaken

/-! ## The reference goes along -/

section Reference

variable {parser : HttpParser H}

theorem value_reference (hvalue : parser.value.1 = true) (trace : List Event) :
    ∃ trace', (parser.withHandler trace).value = (true, parser.value.2.withHandler trace') := by
  have htoken : (parser.withHandler trace).token = parser.token := rfl
  have hname : (parser.withHandler trace).name = parser.name := rfl
  unfold value at hvalue ⊢
  rw [htoken, hname]
  by_cases hcsize : iscsize parser.name
  · simp only [hcsize, if_true] at hvalue ⊢
    cases hsize : strtoui parser.token with
    | none =>
      rw [hsize] at hvalue
      cases hvalue
    | some size =>
      dsimp only
      generalize i32 size = csize
      exact ⟨_, rfl⟩
  · simp only [hcsize, Bool.false_eq_true, if_false]
    exact ⟨_, rfl⟩

/-- A word that succeeds is read alike. -/
theorem word_reference (hword : parser.word.1 = true) (trace : List Event) :
    ∃ trace', (parser.withHandler trace).word = (true, parser.word.2.withHandler trace') := by
  have hstate' : (parser.withHandler trace).state = parser.state := rfl
  unfold word at hword ⊢
  rw [hstate']
  cases hstate : parser.state with
  | request =>
    rw [hstate] at hword
    dsimp only at hword ⊢
    split at hword
    next hrequest =>
      rw [if_pos hrequest]
      exact ⟨_, rfl⟩
    next hrequest => exact absurd hword hrequest
  | name =>
    rw [hstate] at hword
    cases hword
  | value =>
    rw [hstate] at hword
    dsimp only at hword ⊢
    split at hword
    next hvalue =>
      cases value_reference hvalue trace with
      | intro trace' h =>
        rw [if_pos hvalue, h]
        exact ⟨trace', rfl⟩
    next hvalue => exact absurd hword hvalue
  | body =>
    rw [hstate] at hword
    cases hword

/-- So is a phrase. -/
theorem phrase_reference (parser : HttpParser H) (trace : List Event) :
    ∃ trace', (parser.withHandler trace).phrase = (true, parser.phrase.2.withHandler trace') := by
  have hcsize' : (parser.withHandler trace).csize = parser.csize := rfl
  unfold phrase
  rw [hcsize']
  split
  next => exact ⟨trace, rfl⟩
  next => exact ⟨_, rfl⟩

omit [Handler H] in
theorem label_reference (trace : List Event) :
    (parser.withHandler trace).label = (parser.label.1, parser.label.2.withHandler trace) := by
  have hstate' : (parser.withHandler trace).state = parser.state := rfl
  unfold label
  rw [hstate']
  split <;> rfl

/-- The flags of the lexer are looked at alike. -/
theorem switch_reference (hgo : parser.switch.1 ≠ .fail) (trace : List Event) :
    ∃ trace', (parser.withHandler trace).switch = (parser.switch.1, parser.switch.2.withHandler trace') := by
  have hwhat' : (parser.withHandler trace).lexer.what = parser.lexer.what := rfl
  have hverdict : ∀ {next : Verdict} {result : Bool × HttpParser H}, (verdict next result).1 ≠ .fail →
      result.1 = true := by
    intro next result h
    cases hresult : result.1 with
    | true => rfl
    | false =>
      rw [verdict, hresult] at h
      exact absurd rfl h
  unfold switch at hgo ⊢
  rw [hwhat']
  split
  next hwhat =>
    rw [label_reference]
    exact ⟨trace, rfl⟩
  next hwhat =>
    rw [hwhat] at hgo
    have hword := hverdict hgo
    cases word_reference hword trace with
    | intro trace' h =>
      rw [h, verdict, verdict, hword]
      exact ⟨trace', rfl⟩
  next hwhat =>
    rw [hwhat] at hgo
    dsimp only at hgo ⊢
    split at hgo
    next hword =>
      have hphrase := hverdict hgo
      cases word_reference hword trace with
      | intro trace' h =>
        cases phrase_reference parser.word.2 trace' with
        | intro trace'' h' =>
          rw [h, if_pos rfl, h', if_pos hword, verdict, verdict, hphrase]
          exact ⟨trace'', rfl⟩
    next => exact absurd rfl hgo
  next hwhat =>
    rw [hwhat] at hgo
    have hphrase := hverdict hgo
    cases phrase_reference parser trace with
    | intro trace' h =>
      rw [h, verdict, verdict, hphrase]
      exact ⟨trace', rfl⟩
  next => exact ⟨trace, rfl⟩

/-- A byte of the header is read alike. -/
theorem char_reference {b : UInt8} (hgo : (parser.char b).1 ≠ .fail) (trace : List Event) :
    ∃ trace', (parser.withHandler trace).char b = ((parser.char b).1, (parser.char b).2.withHandler trace') :=
  switch_reference hgo trace

end Reference

/-! ## The reference along a buffer -/

section Buffer

/-- The remaining content is an `int`, with some of it inside of a body, and none in front of a request line. -/
structure Counted (parser : HttpParser H) : Prop where
  ge : -2 ^ 31 ≤ parser.csize
  lt : parser.csize < 2 ^ 31
  body : parser.state = .body → parser.csize ≠ 0
  request : parser.state = .request → parser.csize = 0

omit [Handler H] in
theorem create_counted (before : UInt8) (handler : H) : (create before handler).Counted where
  ge := by simp [create]
  lt := by simp [create]
  body := nofun
  request _ := rfl

/-- A word keeps the content counted. -/
theorem Counted.word {parser : Recorder} (h : parser.Counted) : parser.word.2.Counted := by
  rcases parser.word_cases with hw | ⟨-, line, hw⟩ | ⟨-, name, value, hw⟩ | ⟨-, size, -, -, hw⟩
  · rw [hw]
    exact h
  · rw [hw]
    exact ⟨h.ge, h.lt, nofun, nofun⟩
  · rw [hw]
    exact ⟨h.ge, h.lt, nofun, nofun⟩
  · have hrange := i32_range size
    rw [hw]
    generalize i32 size = csize at hrange ⊢
    exact ⟨hrange.1, hrange.2, nofun, nofun⟩

/-- So does a phrase. -/
theorem Counted.phrase {parser : Recorder} (h : parser.Counted) : parser.phrase.2.Counted := by
  rcases parser.phrase_cases with ⟨hcsize, hp⟩ | ⟨-, hp⟩
  · rw [hp]
    exact ⟨h.ge, h.lt, fun _ => hcsize, nofun⟩
  · rw [hp]
    exact ⟨by simp, by simp, nofun, fun _ => rfl⟩

/-- So does a byte of the header. -/
theorem Counted.char {parser : Recorder} (h : parser.Counted) (b : UInt8) : (parser.char b).2.Counted := by
  have hread : Counted ({ parser with lexer := parser.lexer.append b } : Recorder) := ⟨h.ge, h.lt, h.body, h.request⟩
  unfold HttpParser.char
  generalize ({ parser with lexer := parser.lexer.append b } : Recorder) = read at hread ⊢
  rcases read.switch_cases with hs | hs | ⟨-, name, hs⟩ | ⟨-, hs⟩ | ⟨-, hs⟩ | ⟨-, hs⟩
  · rw [hs]
    exact hread
  · rw [hs]
    exact hread
  · rw [hs]
    exact ⟨hread.ge, hread.lt, nofun, nofun⟩
  · rw [hs]
    exact hread.word
  · rw [hs]
    exact hread.word.phrase
  · rw [hs]
    exact hread.phrase

/-- The header part of a buffer is read alike up to where it stops. -/
theorem chars_reference {parser next : HttpParser H} (hstate : parser.state ≠ .body) (hcounted : parser.Counted)
    {buf rest : List UInt8} {verdict : Verdict} (hchars : parser.chars buf = (verdict, rest, next))
    (hgo : verdict ≠ .fail) (trace : List Event) :
    ∃ front trace', buf = front ++ rest ∧
      (parser.withHandler trace).feeds front = (true, next.withHandler trace') ∧ next.Counted ∧
        (rest ≠ [] → next.state = .body ∨ next.state = .request) := by
  induction buf generalizing parser trace with
  | nil =>
    rw [chars, Prod.mk.injEq, Prod.mk.injEq] at hchars
    rcases hchars with ⟨-, rfl, rfl⟩
    exact ⟨[], trace, rfl, rfl, hcounted, fun h => absurd rfl h⟩
  | cons b buf ih =>
    have hreference := @char_reference H _ parser b
    have hcounted' : (parser.withHandler trace).Counted :=
      ⟨hcounted.ge, hcounted.lt, hcounted.body, hcounted.request⟩
    have hstate' : (parser.withHandler trace).state ≠ .body := hstate
    have hchar' := hcounted'.char b
    rw [chars] at hchars
    cases hchar : parser.char b with
    | mk verdict' last =>
      rw [hchar] at hchars hreference
      cases verdict' with
      | fail =>
        rw [Prod.mk.injEq] at hchars
        exact absurd hchars.1.symm hgo
      | more =>
        cases hreference (by simp) trace with
        | intro trace' h =>
          rw [h] at hchar'
          have hlast : last.state ≠ .body := char_more_state hstate' h
          have hlast' : last.Counted := ⟨hchar'.ge, hchar'.lt, hchar'.body, hchar'.request⟩
          rcases ih hlast hlast' hchars trace' with ⟨front, trace'', rfl, hfeeds, hrest⟩
          exists b :: front, trace''
          rw [feeds_cons (feed_char hstate' h (by simp))]
          exact ⟨rfl, hfeeds, hrest⟩
      | done =>
        rw [Prod.mk.injEq, Prod.mk.injEq] at hchars
        rcases hchars with ⟨-, rfl, rfl⟩
        cases hreference (by simp) trace with
        | intro trace' h =>
          rw [h] at hchar'
          exists [b], trace'
          rw [feeds_cons (feed_char hstate' h (by simp))]
          exact ⟨rfl, rfl, ⟨hchar'.ge, hchar'.lt, hchar'.body, hchar'.request⟩, fun _ => char_done_state h⟩

/-- A part of a call that succeeds is followed by the rest, or there is none. -/
theorem consume_goes {result : ℤ × HttpParser H} {buf : List UInt8} {next : HttpParser H → List UInt8 → ℤ × HttpParser H}
    (hgoes : 0 ≤ (consume result buf next).1) :
    0 ≤ i32 result.1 ∧ (i32 result.1 = buf.length ∧ (consume result buf next).2 = result.2 ∨
      i32 result.1 ≠ buf.length ∧ consume result buf next = next result.2 (buf.drop (i32 result.1).toNat)) := by
  unfold consume at hgoes ⊢
  dsimp only at hgoes ⊢
  split
  next hneg =>
    rw [if_pos hneg] at hgoes
    exact absurd hgoes (not_le.mpr hneg)
  next hpos =>
    apply And.intro (not_lt.mp hpos)
    split
    next hall => exact .inl ⟨hall, rfl⟩
    next hsome => exact .inr ⟨hsome, rfl⟩

/-- A header part that succeeds is read alike. -/
theorem header_reference {parser : HttpParser H} (hstate : parser.state ≠ .body) (hcounted : parser.Counted)
    {buf : List UInt8} (hbuf : buf.length < 2 ^ 32) (hgoes : 0 ≤ i32 (parser.header buf).1) (trace : List Event) :
    ∃ trace', (parser.withHandler trace).feeds (buf.take (i32 (parser.header buf).1).toNat) =
        (true, (parser.header buf).2.withHandler trace') ∧ (parser.header buf).2.Counted ∧
      (i32 (parser.header buf).1 ≠ buf.length →
        (parser.header buf).2.state = .body ∨ (parser.header buf).2.state = .request) := by
  rw [header] at hgoes ⊢
  cases hchars : parser.chars buf with
  | mk verdict last =>
    rw [hchars] at hgoes
    dsimp only at hgoes ⊢
    split at hgoes
    next => exact absurd hgoes (by decide)
    next hgo =>
      rcases chars_reference hstate hcounted hchars hgo trace with ⟨front, trace', rfl, hfeeds, hcounted', hrest⟩
      have hsize : (((front ++ last.1).length : ℤ) - last.1.length) = front.length := by
        rw [List.length_append]
        omega
      rw [List.length_append] at hbuf
      rw [hsize] at hgoes
      have hsmall : front.length < 2 ^ 31 := by
        by_contra hlarge
        exact absurd (i32_large (not_lt.mp hlarge) (by omega)) (not_lt.mpr hgoes)
      have hint : i32 front.length = front.length := i32_of_range (by omega) (by omega)
      rw [if_neg hgo, hsize, hint, Int.toNat_natCast, List.take_left]
      apply Exists.intro trace'
      apply And.intro hfeeds
      apply And.intro hcounted'
      intro hsome
      apply hrest
      intro hnone
      rw [hnone, List.append_nil] at hsome
      exact hsome rfl

/-- A body part that succeeds counts down, or it ends the message. -/
theorem body_goes {parser : HttpParser H} {buf : List UInt8} (hgoes : 0 ≤ i32 (parser.body buf).1) :
    (i32 buf.length < parser.csize ∧ ∃ handler, parser.body buf =
      ((buf.length : ℤ), { parser with handler, csize := i32 (parser.csize - buf.length) })) ∨
    (¬i32 buf.length < parser.csize ∧ ∃ handler, parser.body buf =
      ((u32 parser.csize : ℤ), { parser with handler, state := .request, csize := 0 })) := by
  have hneg : ¬0 ≤ i32 (-1) := by decide
  unfold body at hgoes ⊢
  dsimp only at hgoes ⊢
  split
  next hshort =>
    rw [if_pos hshort] at hgoes
    apply Or.inl
    apply And.intro hshort
    split at hgoes
    next hcdata =>
      rw [if_pos hcdata]
      exact ⟨_, rfl⟩
    next => exact absurd hgoes hneg
  next hlong =>
    rw [if_neg hlong] at hgoes
    apply Or.inr
    apply And.intro hlong
    generalize hresult : (if u32 parser.csize = 0 then (true, parser)
      else parser.call (Handler.cdata buf (u32 parser.csize))) = result at hgoes ⊢
    have hnext : ∃ handler, result.2 = { parser with handler } := by
      rw [← hresult]
      split
      next => exact ⟨parser.handler, rfl⟩
      next => exact ⟨_, rfl⟩
    cases hnext with
    | intro handler hnext =>
      rw [hnext] at hgoes ⊢
      split at hgoes
      next hcdata =>
        rw [if_pos hcdata]
        dsimp only at hgoes ⊢
        split at hgoes
        next hend =>
          rw [if_pos hend]
          exact ⟨_, rfl⟩
        next => exact absurd hgoes hneg
      next => exact absurd hgoes hneg

/-- A body part that succeeds is read alike. It may begin behind a header without content. -/
theorem body_reference {parser : HttpParser H} (hstate : parser.state = .body ∨ parser.state = .request)
    (hcounted : parser.Counted) {buf : List UInt8} (hbuf : buf.length < 2 ^ 32)
    (hgoes : 0 ≤ i32 (parser.body buf).1) (trace : List Event) :
    ∃ trace', (parser.withHandler trace).feeds (buf.take (i32 (parser.body buf).1).toNat) =
        (true, (parser.body buf).2.withHandler trace') ∧ (parser.body buf).2.Counted ∧
      (i32 (parser.body buf).1 ≠ buf.length → (parser.body buf).2.state ≠ .body) := by
  have hge := hcounted.ge
  have hlt := hcounted.lt
  have hsize : ∀ size < 2 ^ 32, 0 ≤ i32 (size : ℕ) → i32 size = size ∧ size < 2 ^ 31 := by
    intro size hsize hpos
    have hsmall : size < 2 ^ 31 := by
      by_contra hlarge
      exact absurd (i32_large (not_lt.mp hlarge) hsize) (not_lt.mpr hpos)
    exact ⟨i32_of_range (by omega) (by omega), hsmall⟩
  rcases body_goes hgoes with ⟨hshort, handler, hbody⟩ | ⟨hlong, handler, hbody⟩
  · rw [hbody] at hgoes ⊢
    have ⟨hint, hsmall⟩ := hsize _ hbuf hgoes
    rw [hint] at hshort
    have hrest : i32 (parser.csize - buf.length) = parser.csize - buf.length := i32_of_range (by omega) (by omega)
    have hin : parser.state = .body := by
      rcases hstate with hin | hrequest
      · exact hin
      · have hzero := hcounted.request hrequest
        omega
    have hfeeds := feeds_content (parser.withHandler trace) hin hshort
    rw [hint, hrest, Int.toNat_natCast, List.take_length, hfeeds]
    apply Exists.intro (trace ++ content buf)
    apply And.intro rfl
    constructor
    · constructor
      · change -2 ^ 31 ≤ parser.csize - buf.length
        omega
      · change parser.csize - buf.length < 2 ^ 31
        omega
      · intro _
        change parser.csize - buf.length ≠ 0
        omega
      · intro hrequest
        cases hin.symm.trans hrequest
    · intro hsome
      exact absurd rfl hsome
  · rw [hbody] at hgoes ⊢
    have hreset : Counted ({ parser with handler, state := .request, csize := 0 } : HttpParser H) :=
      ⟨by simp, by simp, nofun, fun _ => rfl⟩
    have ⟨hint, hsmall⟩ := hsize _ (u32_lt parser.csize) hgoes
    have hcsize : parser.csize = u32 parser.csize := by
      have hu := u32_int hge hlt
      split at hu
      · exact hu.symm
      · omega
    rw [hint, Int.toNat_natCast]
    rcases hstate with hin | hrequest
    · have hpos : 0 < parser.csize := by
        have hne := hcounted.body hin
        omega
      have hle : u32 parser.csize ≤ buf.length := by
        rw [i32_nat hbuf] at hlong
        split at hlong
        · omega
        · omega
      have htake : (buf.take (u32 parser.csize)).length = u32 parser.csize := List.length_take_of_le hle
      have hall : (parser.withHandler trace).csize ≤ (buf.take (u32 parser.csize)).length := by
        rw [htake]
        exact hcsize.le
      have hdrop : (buf.take (u32 parser.csize)).drop (parser.withHandler trace).csize.toNat = [] := by
        apply List.drop_of_length_le
        rw [htake]
        change u32 parser.csize ≤ parser.csize.toNat
        omega
      rw [feeds_complete (parser.withHandler trace) hin hpos hall, hdrop]
      exact ⟨_, rfl, hreset, fun _ => nofun⟩
    · have hzero := hcounted.request hrequest
      have hnone : u32 parser.csize = 0 := by omega
      have hsame : ({ parser with handler, state := .request, csize := 0 } : HttpParser H).withHandler trace =
          parser.withHandler trace := by
        rw [← hrequest, ← hzero]
        rfl
      rw [hnone, List.take_zero]
      exact ⟨trace, by rw [hsame]; rfl, hreset, fun _ => nofun⟩

/-- A body part and what follows it are read alike. -/
theorem consume_body {parser : HttpParser H} (hstate : parser.state = .body ∨ parser.state = .request)
    (hcounted : parser.Counted) {buf : List UInt8} (hbuf : buf.length < 2 ^ 32)
    {next : HttpParser H → List UInt8 → ℤ × HttpParser H} (hgoes : 0 ≤ (consume (parser.body buf) buf next).1)
    (hnext : ∀ (last : HttpParser H) (n : ℕ), last.state ≠ .body → last.Counted →
      0 ≤ (next last (buf.drop n)).1 → ∀ trace, ∃ trace',
        (last.withHandler trace).feeds (buf.drop n) = (true, (next last (buf.drop n)).2.withHandler trace') ∧
          (next last (buf.drop n)).2.Counted) (trace : List Event) :
    ∃ trace', (parser.withHandler trace).feeds buf =
        (true, (consume (parser.body buf) buf next).2.withHandler trace') ∧
      (consume (parser.body buf) buf next).2.Counted := by
  have ⟨hpos, hresult⟩ := consume_goes hgoes
  rcases body_reference hstate hcounted hbuf hpos trace with ⟨trace', hfeeds, hcounted', hout⟩
  rcases hresult with ⟨hall, hresult⟩ | ⟨hsome, hresult⟩
  · rw [hall, Int.toNat_natCast, List.take_length] at hfeeds
    rw [hresult]
    exact ⟨trace', hfeeds, hcounted'⟩
  · rw [hresult] at hgoes ⊢
    generalize (i32 (parser.body buf).1).toNat = size at hgoes hfeeds ⊢
    rcases hnext _ size (hout hsome) hcounted' hgoes trace' with ⟨trace'', hrest, hlast⟩
    apply Exists.intro trace''
    apply And.intro _ hlast
    rw [← hrest, ← List.take_append_drop size buf, feeds_append, hfeeds, List.take_append_drop]
    rfl

/-- The loop is read alike. -/
theorem loop_reference {rounds : ℕ} {parser : HttpParser H} (hstate : parser.state ≠ .body)
    (hcounted : parser.Counted) {buf : List UInt8} (hbuf : buf.length < 2 ^ 32)
    (hgoes : 0 ≤ (loop rounds parser buf).1) (trace : List Event) :
    ∃ trace', (parser.withHandler trace).feeds buf = (true, (loop rounds parser buf).2.withHandler trace') ∧
      (loop rounds parser buf).2.Counted := by
  induction rounds generalizing parser buf trace with
  | zero =>
    have hneg : ¬(0 : ℤ) ≤ -1 := by decide
    exact absurd hgoes hneg
  | succ rounds ih =>
    rw [loop] at hgoes ⊢
    obtain ⟨hpos, hresult⟩ := consume_goes hgoes
    rcases header_reference hstate hcounted hbuf hpos trace with ⟨trace', hfeeds, hcounted', hdone⟩
    rcases hresult with ⟨hall, hresult⟩ | ⟨hsome, hresult⟩
    · rw [hall, Int.toNat_natCast, List.take_length] at hfeeds
      rw [hresult]
      exact ⟨trace', hfeeds, hcounted'⟩
    · rw [hresult] at hgoes ⊢
      generalize (i32 (parser.header buf).1).toNat = size at hgoes hfeeds ⊢
      have hlength : (buf.drop size).length < 2 ^ 32 := by
        rw [List.length_drop]
        omega
      have hdrop : ∀ n, ((buf.drop size).drop n).length < 2 ^ 32 := by
        intro n
        rw [List.length_drop]
        omega
      have hnext : ∀ (last : HttpParser H) (n : ℕ), last.state ≠ .body → last.Counted →
          0 ≤ (loop rounds last ((buf.drop size).drop n)).1 → ∀ trace, ∃ trace',
            (last.withHandler trace).feeds ((buf.drop size).drop n) =
                (true, (loop rounds last ((buf.drop size).drop n)).2.withHandler trace') ∧
              (loop rounds last ((buf.drop size).drop n)).2.Counted := by
        intro last n hlast hcounted hgoes trace
        exact ih hlast hcounted (hdrop n) hgoes trace
      rcases consume_body (hdone hsome) hcounted' hlength hgoes hnext trace' with ⟨trace'', hrest, hlast⟩
      apply Exists.intro trace''
      apply And.intro _ hlast
      rw [← hrest, ← List.take_append_drop size buf, feeds_append, hfeeds, List.take_append_drop]
      rfl

/-- A call that succeeds is read alike. -/
theorem append_reference {parser : HttpParser H} (hcounted : parser.Counted) {buf : List UInt8}
    (hbuf : buf.length < 2 ^ 32) (hgoes : 0 ≤ (parser.append buf).1) (trace : List Event) :
    ∃ trace', (parser.withHandler trace).feeds buf = (true, (parser.append buf).2.withHandler trace') ∧
      (parser.append buf).2.Counted := by
  unfold append at hgoes ⊢
  split
  next hstate =>
    rw [if_pos hstate] at hgoes
    apply consume_body (.inl hstate) hcounted hbuf hgoes
    intro last n hlast hcounted hgoes trace
    apply loop_reference hlast hcounted _ hgoes trace
    rw [List.length_drop]
    omega
  next hstate =>
    rw [if_neg hstate] at hgoes
    exact loop_reference hstate hcounted hbuf hgoes trace

/-- So are successive calls. -/
theorem appends_reference {parser : HttpParser H} (hcounted : parser.Counted) {bufs : List (List UInt8)}
    (hbufs : ∀ buf ∈ bufs, buf.length < 2 ^ 32) (hgoes : 0 ≤ (parser.appends bufs).1) (trace : List Event) :
    ∃ trace', (parser.withHandler trace).feeds bufs.flatten = (true, (parser.appends bufs).2.withHandler trace') := by
  induction bufs generalizing parser trace with
  | nil => exact ⟨trace, rfl⟩
  | cons buf bufs ih =>
    rw [appends] at hgoes ⊢
    split
    next hfail =>
      rw [if_pos hfail] at hgoes
      exact absurd hfail (not_lt.mpr hgoes)
    next hgo =>
      rw [if_neg hgo] at hgoes
      have hbuf := hbufs buf (List.mem_cons_self ..)
      rcases append_reference hcounted hbuf (not_lt.mp hgo) trace with ⟨trace', hfeeds, hcounted'⟩
      have hrest := ih hcounted' (fun buf hbuf => hbufs buf (List.mem_cons_of_mem _ hbuf)) hgoes trace'
      cases hrest with
      | intro trace'' hrest =>
        apply Exists.intro trace''
        rw [List.flatten_cons, feeds_append, hfeeds]
        exact hrest

end Buffer

/-! ## Between two messages -/

section Between

variable {parser next : Recorder} {b : UInt8}

theorem feed_settled (h : parser.Settled) (hfeed : parser.feed b = (true, next)) : next.Settled := by
  by_cases hstate : parser.state = .body
  · by_cases hlast : parser.csize = 1
    · rw [feed_last hstate hlast, Prod.mk.injEq] at hfeed
      rw [← hfeed.2]
      exact { lexer := h.lexer, csize := fun _ => rfl }
    · rw [feed_body hstate hlast, Prod.mk.injEq] at hfeed
      rw [← hfeed.2]
      exact { lexer := h.lexer, csize := fun hrequest => nomatch hstate.symm.trans hrequest }
  · have hchar' := h.char b
    cases hchar : parser.char b with
    | mk verdict last =>
      rw [hchar] at hchar'
      cases verdict with
      | fail =>
        rw [feed_fail hstate hchar, Prod.mk.injEq] at hfeed
        exact absurd hfeed.1 Bool.false_ne_true
      | more =>
        rw [feed_char hstate hchar nofun, Prod.mk.injEq] at hfeed
        exact hfeed.2 ▸ hchar'
      | done =>
        rw [feed_char hstate hchar nofun, Prod.mk.injEq] at hfeed
        exact hfeed.2 ▸ hchar'

/-- Behind a complete message the parser is in front of a request line. -/
theorem completes_request (hcompletes : parser.Completes b) (hfeed : parser.feed b = (true, next)) :
    next.state = .request := by
  rcases hcompletes with ⟨hstate, hdone, hrequest⟩ | ⟨hstate, hlast⟩
  · cases hchar : parser.char b with
    | mk verdict last =>
      rw [hchar] at hdone hrequest
      obtain rfl : verdict = .done := hdone
      rw [feed_char hstate hchar nofun, Prod.mk.injEq] at hfeed
      rw [← hfeed.2]
      exact hrequest
  · rw [feed_last hstate hlast, Prod.mk.injEq] at hfeed
    rw [← hfeed.2]

/-- A blank leaves it there, unless it completes a message. -/
theorem blank_request (h : parser.Settled) (hstate : parser.state = .request) (hb : isspace b = true)
    (hcompletes : ¬parser.Completes b) (hfeed : parser.feed b = (true, next)) : next.state = .request := by
  have hout : parser.state ≠ .body := by
    rw [hstate]
    nofun
  rcases @Lexer.append_blank parser.lexer b hb with hwhat | hwhat
  · rw [feed_char hout (char_of_none hwhat) nofun, Prod.mk.injEq] at hfeed
    rw [← hfeed.2]
    exact hstate
  · apply absurd _ hcompletes
    apply Or.inl
    have hcsize := h.csize hstate
    have hchar : (parser.char b).1 = .done ∧ (parser.char b).2.state = .request := by
      simp [char, switch, hwhat, word, hstate, request, call, Handler.request, phrase, hcsize, verdict, end_,
        Handler.end_]
    exact ⟨hout, hchar⟩

/-- If nothing but blanks follows the last complete message, the parser is in front of a request line. -/
theorem unfinished_blank {last : Recorder} (h : parser.Settled) {since input : List UInt8}
    (hfeeds : parser.feeds input = (true, last))
    (hsince : (∀ b ∈ since, isspace b = true) → parser.state = .request)
    (hblank : ∀ b ∈ parser.unfinished since input, isspace b = true) : last.state = .request := by
  induction input generalizing parser since with
  | nil =>
    rw [feeds, Prod.mk.injEq] at hfeeds
    rw [← hfeeds.2]
    exact hsince hblank
  | cons b input ih =>
    cases hfeed : parser.feed b with
    | mk go next =>
      cases go with
      | false =>
        rw [feeds_stop hfeed, Prod.mk.injEq] at hfeeds
        exact absurd hfeeds.1 Bool.false_ne_true
      | true =>
        rw [feeds_cons hfeed] at hfeeds
        rw [unfinished, hfeed] at hblank
        apply ih (feed_settled h hfeed) hfeeds _ hblank
        intro hall
        split at hall
        next hcompletes => exact completes_request hcompletes hfeed
        next hcompletes =>
          have hstate := hsince fun b hb => hall b (List.mem_append_left _ hb)
          exact blank_request h hstate (hall b (by simp)) hcompletes hfeed

end Between

/-! ## The end of the input -/

section Finish

variable {parser : HttpParser H}

/-- The parser when it has read the newline at the end of the input. -/
def closed (parser : HttpParser H) : HttpParser H := { parser with lexer := parser.lexer.finish }

theorem finish_fail {next : HttpParser H} (hswitch : parser.closed.switch = (.fail, next)) :
    parser.finish = (-1, (next.end_ false).2) := by
  unfold closed at hswitch
  rw [finish, hswitch]

/-- A step that does not fail is judged by the phase behind it. -/
theorem finish_go {verdict : Verdict} {next : HttpParser H} (hswitch : parser.closed.switch = (verdict, next))
    (hgo : verdict ≠ .fail) :
    parser.finish = (0, if next.state = .request then next else (next.end_ false).2) := by
  unfold closed at hswitch
  rw [finish, hswitch]
  cases verdict with
  | fail => exact absurd rfl hgo
  | more =>
    dsimp only
    split <;> rfl
  | done =>
    dsimp only
    split <;> rfl

/-- Where no line has just ended, the end of the input is judged by the phase alone. -/
theorem finish_open (h : parser.lexer.words.newline = false) :
    parser.finish.1 = 0 ∧ (parser.state = .request → parser.finish.2.handler = parser.handler) := by
  have hswitch : parser.closed.switch = (.more, parser.closed) := char_of_none (Lexer.finish_none h)
  rw [finish_go hswitch nofun]
  apply And.intro rfl
  intro hstate
  have hstate' : parser.closed.state = .request := hstate
  rw [if_pos hstate']
  rfl

/-- A phrase fails only if the commit does. -/
theorem phrase_accepts (parser : HttpParser H) :
    parser.phrase.1 = true ↔ (parser.csize = 0 → (Handler.end_ true parser.handler).1 = true) := by
  unfold phrase
  split
  next hcsize => exact ⟨fun _ hzero => absurd hzero hcsize, fun _ => rfl⟩
  next hcsize => exact ⟨fun hend _ => hend, fun hend => hend (not_not.mp hcsize)⟩

/-- Where a line has just ended, it is the last of the header. -/
theorem closed_switch (hsound : parser.lexer.words.Sound) (h : parser.lexer.words.newline = true) :
    parser.closed.token = parser.held ∧ parser.closed.switch =
      if parser.closed.word.1 then verdict .done parser.closed.word.2.phrase else (.fail, parser.closed.word.2) := by
  have ⟨hwhat, htoken⟩ := Lexer.finish_line hsound h
  have hflags : ¬({ label := false, word := true, phrase := true } : Lex) = .none := by decide
  constructor
  · change (parser.lexer.finish.lexertoken).getD [] = parser.held
    rw [Lexer.lexertoken, hwhat, if_neg hflags, htoken]
    rfl
  · have hwhat' : parser.closed.lexer.what = { label := false, word := true, phrase := true } := hwhat
    rw [switch, hwhat']

/-- A call moves on to the next line of the header, and its phrase succeeds, exactly if the handler accepts both. -/
theorem call_accepts (f : H → Bool × H) (parser : HttpParser H) :
    ((if (parser.call f).1 then (true, { (parser.call f).2 with state := .name }) else parser.call f).1 = true ∧
      ((if (parser.call f).1 then (true, { (parser.call f).2 with state := .name }) else parser.call f).2.csize = 0 →
        (Handler.end_ true (if (parser.call f).1 then (true, { (parser.call f).2 with state := .name })
          else parser.call f).2.handler).1 = true)) ↔ Accepts f parser.csize parser.handler := by
  by_cases htaken : (parser.call f).1 = true
  · simp only [if_pos htaken]
    exact ⟨fun h => ⟨htaken, h.2⟩, fun h => ⟨trivial, h.2⟩⟩
  · simp only [if_neg htaken]
    exact ⟨fun h => absurd h.1 htaken, fun h => absurd h.1 htaken⟩

/-- The word and the phrase succeed exactly if the line is taken. -/
theorem lineTaken_iff (htoken : parser.closed.token = parser.held) :
    (parser.closed.word.1 = true ∧ parser.closed.word.2.phrase.1 = true) ↔ parser.LineTaken := by
  have hstate' : parser.closed.state = parser.state := rfl
  rw [phrase_accepts]
  unfold word LineTaken
  rw [hstate']
  cases hstate : parser.state with
  | request =>
    unfold request
    rw [htoken]
    exact call_accepts _ parser.closed
  | name => exact ⟨fun h => absurd h.1 Bool.false_ne_true, False.elim⟩
  | value =>
    by_cases hcsize : iscsize parser.name = true
    · have hname : iscsize parser.closed.name = true := hcsize
      rw [if_pos hcsize]
      cases hsize : strtoui parser.held with
      | none =>
        have hvalue : parser.closed.value = (false, parser.closed) := by
          rw [value, if_pos hname, htoken, hsize]
        rw [hvalue]
        constructor
        · intro h
          exact absurd h.1 Bool.false_ne_true
        · rintro ⟨csize, hsome, -⟩
          cases hsome
      | some size =>
        have hvalue : parser.closed.value =
            ({ parser.closed with csize := i32 size } : HttpParser H).call (Handler.csize size) := by
          rw [value, if_pos hname, htoken, hsize]
        have hcall := fun csize =>
          call_accepts (Handler.csize size) ({ parser.closed with csize := csize } : HttpParser H)
        rw [hvalue]
        constructor
        · intro h
          apply Exists.intro size
          apply And.intro rfl
          generalize i32 size = csize at h ⊢
          exact (hcall csize).mp h
        · rintro ⟨csize, hsome, haccepts⟩
          obtain rfl := Option.some.inj hsome
          generalize i32 size = csize at haccepts ⊢
          exact (hcall csize).mpr haccepts
    · have hname : ¬iscsize parser.closed.name = true := hcsize
      rw [if_neg hcsize]
      have hvalue : parser.closed.value = parser.closed.call (Handler.field parser.name parser.held) := by
        rw [value, if_neg hname, htoken]
        rfl
      rw [hvalue]
      exact call_accepts _ parser.closed
  | body => exact ⟨fun h => absurd h.1 Bool.false_ne_true, False.elim⟩

end Finish

/-! ## The calls at the end of the input -/

section Calls

variable {parser : HttpParser (Logged H)}

theorem value_calls (parser : HttpParser (Logged H)) : parser.handler.trace <+: parser.value.2.handler.trace := by
  unfold value
  split
  · split
    · exact List.prefix_rfl
    · exact List.prefix_append ..
  · exact List.prefix_append ..

/-- A word records its calls behind the others. -/
theorem word_calls (parser : HttpParser (Logged H)) : parser.handler.trace <+: parser.word.2.handler.trace := by
  unfold word
  cases parser.state with
  | request =>
    dsimp only
    split
    · exact List.prefix_append ..
    · exact List.prefix_append ..
  | name => exact List.prefix_rfl
  | value =>
    dsimp only
    split
    · exact value_calls parser
    · exact value_calls parser
  | body => exact List.prefix_rfl

/-- So does a phrase. -/
theorem phrase_calls (parser : HttpParser (Logged H)) :
    parser.handler.trace <+: parser.phrase.2.handler.trace := by
  unfold phrase
  split
  · exact List.prefix_rfl
  · exact List.prefix_append ..

/-- A request line is reported. -/
theorem word_reports (hstate : parser.state = .request) :
    parser.word.2.handler.trace = parser.handler.trace ++ [.request parser.token] := by
  rw [word, hstate]
  dsimp only
  split <;> rfl

/-- Where a line has just ended, the end of the input fails exactly if the line is not taken, and then its message is
ended without commit. -/
theorem finish_line (hsound : parser.lexer.words.Sound) (h : parser.lexer.words.newline = true) :
    (parser.finish.1 < 0 ↔ ¬parser.LineTaken) ∧ parser.closed.word.2.handler.trace <+: parser.finish.2.handler.trace ∧
      (parser.finish.1 < 0 → ∃ calls, parser.finish.2.handler.trace = parser.handler.trace ++ calls ++ [.end_ false]) := by
  have ⟨htoken, hswitch⟩ := closed_switch hsound h
  have htaken := lineTaken_iff htoken
  have hword := word_calls parser.closed
  have hphrase := phrase_calls parser.closed.word.2
  have hresult : ∀ next : HttpParser (Logged H), parser.handler.trace <+: next.handler.trace →
      ∃ calls, (next.end_ false).2.handler.trace = parser.handler.trace ++ calls ++ [.end_ false] := by
    rintro next ⟨calls, hcalls⟩
    exact ⟨calls, by rw [hcalls]; rfl⟩
  have hpos : ¬(0 : ℤ) < 0 := lt_irrefl 0
  have hneg : (-1 : ℤ) < 0 := by decide
  split_ifs at hswitch with hgo
  · unfold verdict at hswitch
    split_ifs at hswitch with hgo'
    · have hok : parser.LineTaken := htaken.mp ⟨hgo, hgo'⟩
      rw [finish_go hswitch nofun]
      constructor
      · exact ⟨fun h => absurd h hpos, fun hnot => absurd hok hnot⟩
      · constructor
        · split
          · exact hphrase
          · exact hphrase.trans (List.prefix_append ..)
        · exact fun h => absurd h hpos
    · have hnot : ¬parser.LineTaken := fun hok => hgo' (htaken.mpr hok).2
      rw [finish_fail hswitch]
      exact ⟨iff_of_true hneg hnot, hphrase.trans (List.prefix_append ..), fun _ => hresult _ (hword.trans hphrase)⟩
  · have hnot : ¬parser.LineTaken := fun hok => hgo (htaken.mpr hok).1
    rw [finish_fail hswitch]
    exact ⟨iff_of_true hneg hnot, List.prefix_append .., fun _ => hresult _ hword⟩

/-- The end of the input is an error exactly if a line has just ended and is refused. -/
theorem aborts_iff (hsound : parser.lexer.words.Sound) : parser.Aborts ↔ parser.LineRefused := by
  cases hnewline : parser.lexer.words.newline with
  | false =>
    have hzero := (finish_open hnewline).1
    constructor
    · intro haborts
      exact absurd haborts.1 (by rw [hzero]; decide)
    · intro hrefused
      cases hnewline.symm.trans hrefused.1
  | true =>
    have ⟨hiff, _, hcalls⟩ := finish_line hsound hnewline
    constructor
    · intro haborts
      exact ⟨hnewline, hiff.mp haborts.1⟩
    · intro hrefused
      have hneg := hiff.mpr hrefused.2
      exact ⟨hneg, hcalls hneg⟩

/-- In front of a request line nothing happens exactly if no line has just ended. -/
theorem silent_iff (hsound : parser.lexer.words.Sound) (hstate : parser.state = .request) :
    parser.Silent ↔ parser.lexer.words.newline = false := by
  cases hnewline : parser.lexer.words.newline with
  | false =>
    have ⟨hzero, hsame⟩ := finish_open hnewline
    exact iff_of_true ⟨hzero, congrArg Logged.trace (hsame hstate)⟩ rfl
  | true =>
    have ⟨_, hcalls, _⟩ := finish_line hsound hnewline
    have hstate' : parser.closed.state = .request := hstate
    rw [word_reports hstate'] at hcalls
    apply iff_of_false _ Bool.true_eq_false.mp
    intro hsilent
    have hlength := hcalls.length_le
    rw [hsilent.2, List.length_append] at hlength
    exact absurd hlength (by simp [closed])

end Calls

theorem appends_settled {parser : HttpParser H} (h : parser.Settled) (bufs : List (List UInt8)) :
    (parser.appends bufs).2.Settled := by
  induction bufs generalizing parser with
  | nil => exact h
  | cons buf bufs ih =>
    rw [appends]
    split
    · exact h.append buf
    · exact ih (h.append buf)

end HttpParser

end Aug.Net
