import Aug.Net.HttpReference

/-!
# Fragments of an HTTP stream

The calls that a stream leads to, whatever buffers it comes in. They are the calls of the reference
as long as no message without a body is followed by a further byte, and the sizes that the parser
returns as an `int` stay below `2 ^ 31`.
-/

namespace Aug.Net

open Aug.Lib Aug.Util

/-! ## Messages -/

/-- Where a trace stands: between two messages, inside of one with what its content should be and
is so far, or past a call that no message allows. -/
inductive Phase
  | closed
  | opened (csize got : ℕ)
  | broken
deriving DecidableEq, Repr

/-- One more call. -/
def Phase.step : Phase → Event → Phase
  | .closed, .request _ => .opened 0 0
  | .closed, .end_ false => .closed
  | .opened csize got, .field _ _ => .opened csize got
  | .opened _ got, .csize size => .opened size got
  | .opened csize got, .cdata _ size => if got + size ≤ csize then .opened csize (got + size) else .broken
  | .opened csize got, .end_ commit => if commit → got = csize then .closed else .broken
  | _, _ => .broken

/-- Where a trace ends up. -/
def phase (trace : List Event) : Phase := trace.foldl Phase.step .closed

/-- Every message of the trace has exactly one end: none is missing after complete content, and no
call lies between an end and the next request. -/
def OneEnd (trace : List Event) : Prop :=
  match phase trace with
  | .closed => True
  | .opened csize got => csize = 0 ∨ got < csize
  | .broken => False

instance (trace : List Event) : Decidable (OneEnd trace) := by
  unfold OneEnd
  cases phase trace <;> infer_instance

theorem phase_append (trace trace' : List Event) :
    phase (trace ++ trace') = trace'.foldl Phase.step (phase trace) := List.foldl_append

theorem foldl_broken (trace : List Event) : trace.foldl Phase.step .broken = .broken := by
  induction trace with
  | nil => rfl
  | cons event trace ih => exact ih

/-- A trace stays broken. -/
theorem not_oneEnd {trace : List Event} (later : List Event) (h : phase trace = .broken) :
    ¬OneEnd (trace ++ later) := by
  simp [OneEnd, phase_append, h, foldl_broken]

namespace HttpParser

/-! ## The streams that are parsed alike -/

/-- The byte completes a message that has no body. -/
def Bare (parser : Recorder) (b : UInt8) : Prop :=
  parser.state ≠ .body ∧ (parser.char b).1 = .done ∧ (parser.char b).2.state = .request

/-- The byte completes a message that has no request line. -/
def Orphan (parser : Recorder) (b : UInt8) : Prop :=
  parser.state = .request ∧
    (parser.lexer.append b).what = { label := false, word := false, phrase := true }

/-- A message without a body is the last thing in the stream. -/
def Last (parser : Recorder) : List UInt8 → Prop
  | [] => True
  | b :: input =>
    (parser.Bare b → input = []) ∧ ((parser.feed b).1 = true → (parser.feed b).2.Last input)

/-- Every message has a request line. -/
def Requested (parser : Recorder) : List UInt8 → Prop
  | [] => True
  | b :: input =>
    ¬parser.Orphan b ∧ ((parser.feed b).1 = true → (parser.feed b).2.Requested input)

instance (parser : Recorder) (b : UInt8) : Decidable (parser.Bare b) :=
  inferInstanceAs (Decidable (_ ∧ _ ∧ _))

instance (parser : Recorder) (b : UInt8) : Decidable (parser.Orphan b) :=
  inferInstanceAs (Decidable (_ ∧ _))

instance decidableLast : (input : List UInt8) → (parser : Recorder) → Decidable (parser.Last input)
  | [], _ => inferInstanceAs (Decidable True)
  | _ :: input, parser =>
    have := fun b => decidableLast input (parser.feed b).2
    inferInstanceAs (Decidable ((_ → _) ∧ (_ → _)))

instance decidableRequested : (input : List UInt8) → (parser : Recorder) → Decidable (parser.Requested input)
  | [], _ => inferInstanceAs (Decidable True)
  | _ :: input, parser =>
    have := fun b => decidableRequested input (parser.feed b).2
    inferInstanceAs (Decidable (¬_ ∧ (_ → _)))

/-- The header, of which `n` bytes have been read, is shorter than `2 ^ 31` bytes, and so is what
follows it. A header that fails may be longer, if nothing in it is reported after that many bytes. -/
def Small (parser : Recorder) (n : ℕ) : List UInt8 → Prop
  | [] => n < 2 ^ 31
  | b :: input =>
    match parser.char b with
    | (.fail, _) => True
    | (.done, _) => n + 1 < 2 ^ 31 ∧ input.length < 2 ^ 31
    | (.more, next) => (n < 2 ^ 31 ∨ next.handler = parser.handler) ∧ next.Small (n + 1) input

/-- Whatever buffers the stream comes in, the calls are those for the whole stream in one buffer, and
every message has one end. -/
def Independent (before : UInt8) (stream : List UInt8) : Prop :=
  ∀ bufs, bufs.flatten = stream →
    merged ((create before []).appends bufs).2.handler =
      merged ((create before []).appends [stream]).2.handler ∧
    OneEnd (merged ((create before []).appends bufs).2.handler)

/-! ## Conditions along a run -/

section Small

variable {parser next : Recorder} {n : ℕ} {b : UInt8} {input : List UInt8}

theorem small_fail (hchar : parser.char b = (.fail, next)) : parser.Small n (b :: input) := by
  rw [Small, hchar]
  trivial

theorem small_more (hchar : parser.char b = (.more, next)) : parser.Small n (b :: input) ↔
    (n < 2 ^ 31 ∨ next.handler = parser.handler) ∧ next.Small (n + 1) input := by
  rw [Small, hchar]

theorem small_done (hchar : parser.char b = (.done, next)) : parser.Small n (b :: input) ↔
    n + 1 < 2 ^ 31 ∧ input.length < 2 ^ 31 := by
  rw [Small, hchar]

end Small

theorem small_mono {parser : Recorder} {n m : ℕ} (hle : m ≤ n) {input : List UInt8} (h : parser.Small n input) :
    parser.Small m input := by
  induction input generalizing parser n m with
  | nil => exact lt_of_le_of_lt hle h
  | cons b input ih =>
    rcases hchar : parser.char b with ⟨_ | _ | _, next⟩
    · exact small_fail hchar
    · rw [small_more hchar] at h ⊢
      exact ⟨h.1.imp (lt_of_le_of_lt hle) id, ih (Nat.succ_le_succ hle) h.2⟩
    · rw [small_done hchar] at h ⊢
      exact ⟨lt_of_le_of_lt (Nat.succ_le_succ hle) h.1, h.2⟩

theorem small_of_length {parser : Recorder} {n : ℕ} {input : List UInt8} (h : n + input.length < 2 ^ 31) :
    parser.Small n input := by
  induction input generalizing parser n with
  | nil => exact h
  | cons b input ih =>
    rw [List.length_cons] at h
    rcases hchar : parser.char b with ⟨_ | _ | _, next⟩
    · exact small_fail hchar
    · rw [small_more hchar]
      exact ⟨.inl (by omega), ih (by omega)⟩
    · rw [small_done hchar]
      constructor <;> omega

/-- After `2 ^ 31` bytes a header can only fail, with no more calls but the end. -/
theorem small_late {parser : Recorder} (hstate : parser.state ≠ .body) {n : ℕ} (hn : 2 ^ 31 ≤ n)
    {input : List UInt8} (h : parser.Small n input) :
    ∃ last, parser.feeds input = (false, last) ∧ last.handler = parser.handler ++ [.end_ false] := by
  induction input generalizing parser n with
  | nil => exact absurd h (Nat.not_lt.mpr hn)
  | cons b input ih =>
    rcases hchar : parser.char b with ⟨_ | _ | _, next⟩
    · exists (next.end_ false).2
      rw [feeds_stop (feed_fail hstate hchar)]
      exact ⟨rfl, by simp [end_, call, Handler.end_, char_fail_handler hchar]⟩
    · rw [small_more hchar] at h
      rw [feeds_cons (feed_char hstate hchar (by simp)), ← h.1.resolve_left (by omega)]
      exact ih (char_more_state hstate hchar) (by omega) h.2
    · rw [small_done hchar] at h
      omega

/-- The header part of a buffer is counted. -/
theorem small_chars {parser next : Recorder} {front : List UInt8} (hchars : parser.chars front = (.more, [], next))
    {n : ℕ} {input : List UInt8} (h : parser.Small n (front ++ input)) :
    next.Small (n + front.length) input := by
  induction front generalizing parser n with
  | nil =>
    rw [chars, Prod.mk.injEq, Prod.mk.injEq] at hchars
    rw [← hchars.2.2]
    exact h
  | cons b front ih =>
    rw [chars] at hchars
    rcases hchar : parser.char b with ⟨_ | _ | _, last⟩
    · simp [hchar] at hchars
    · rw [hchar] at hchars
      rw [List.cons_append, small_more hchar] at h
      have hlast := ih hchars h.2
      rwa [Nat.add_assoc, Nat.add_comm 1] at hlast
    · simp [hchar] at hchars

/-- The sizes of a stream from its first byte on: of its first header and of what follows it. -/
def Bounded (parser : Recorder) (input : List UInt8) : Prop :=
  if parser.state = .body then input.length < 2 ^ 31 else parser.Small 0 input

/-- What the parser relies on for the rest of the stream. -/
structure Ok (parser : Recorder) (input : List UInt8) : Prop where
  sane : Sane parser
  short : Short (parser.feeds input).2.handler
  last : parser.Last input
  bounded : parser.Bounded input

theorem bounded_of_length {parser : Recorder} {input : List UInt8} (h : input.length < 2 ^ 31) :
    parser.Bounded input := by
  unfold Bounded
  split_ifs
  · exact h
  · exact small_of_length (by omega)

/-- The conditions hold on for what follows a byte. -/
theorem Ok.step {parser next : Recorder} {b : UInt8} {input : List UInt8} (h : Ok parser (b :: input))
    (hfeed : parser.feed b = (true, next)) : Ok next input := by
  have hshort := h.short
  rw [feeds_cons hfeed] at hshort
  have hlast := h.last.2
  rw [hfeed] at hlast
  have hnext : Short next.handler := by
    rw [feeds_fresh] at hshort
    exact hshort.of_append
  constructor
  · have hsane := h.sane.feed b (by rw [hfeed]; exact hnext)
    rwa [hfeed] at hsane
  · exact hshort
  · exact hlast rfl
  · have hbounded := h.bounded
    unfold Bounded at hbounded
    split_ifs at hbounded with hstate
    · rw [List.length_cons] at hbounded
      exact bounded_of_length (by omega)
    · rcases hchar : parser.char b with ⟨_ | _ | _, last⟩
      · rw [feed_fail hstate hchar] at hfeed
        simp at hfeed
      · rw [feed_char hstate hchar nofun, Prod.mk.injEq] at hfeed
        rw [small_more hchar] at hbounded
        rw [← hfeed.2, Bounded, if_neg (char_more_state hstate hchar)]
        exact small_mono (Nat.zero_le 1) hbounded.2
      · rw [small_done hchar] at hbounded
        exact bounded_of_length hbounded.2

theorem Ok.steps {parser next : Recorder} {front input : List UInt8} (h : Ok parser (front ++ input))
    (hfeeds : parser.feeds front = (true, next)) : Ok next input := by
  induction front generalizing parser with
  | nil =>
    rw [feeds, Prod.mk.injEq] at hfeeds
    rwa [← hfeeds.2]
  | cons b front ih =>
    rcases hfeed : parser.feed b with ⟨go, last⟩
    cases go with
    | false =>
      rw [feeds_stop hfeed] at hfeeds
      simp at hfeeds
    | true =>
      rw [feeds_cons hfeed] at hfeeds
      exact ih (h.step hfeed) hfeeds

/-! ## One buffer -/

/-- A body that the buffer does not complete. -/
theorem body_content (parser : Recorder) {buf : List UInt8} (hlt : buf.length < parser.csize)
    (hcsize : parser.csize < 2 ^ 31) : parser.body buf = ((buf.length : ℤ), { parser with
      handler := parser.handler ++ [.cdata buf buf.length], csize := parser.csize - buf.length }) := by
  have hlen : i32 buf.length = buf.length := i32_of_range (by omega) (by omega)
  have hrest : i32 (parser.csize - buf.length) = parser.csize - buf.length :=
    i32_of_range (by omega) (by omega)
  rw [body_of_lt parser (by rwa [hlen]), hrest]

/-- A body that the buffer completes. -/
theorem body_complete (parser : Recorder) {buf : List UInt8} (hpos : 0 < parser.csize)
    (hle : parser.csize ≤ buf.length) (hlen : buf.length < 2 ^ 31) :
    parser.body buf = ((parser.csize.toNat : ℤ), { parser with
      handler := parser.handler ++ [.cdata buf parser.csize.toNat] ++ [.end_ true]
      state := .request
      csize := 0 }) := by
  have hint : i32 buf.length = buf.length := i32_of_range (by omega) (by omega)
  have hsize : u32 parser.csize = parser.csize.toNat := u32_eq (by omega) (by omega)
  rw [body_of_le parser (by rw [hint]; omega) (by omega), hsize]

/-- The result for a buffer is that of the reference, and so is the rest of the trace once the parser
has failed. -/
def Agrees (result : ℤ × Recorder) (parser : Recorder) (buf later : List UInt8) : Prop :=
  (0 ≤ result.1 ∧ parser.feeds buf = (true, result.2.retrace merged)) ∨
    (result.1 < 0 ∧ ∃ last, parser.feeds (buf ++ later) = (false, last) ∧
      last.handler = merged result.2.handler)

theorem Agrees.ok {last parser : Recorder} {buf later : List UInt8}
    (h : parser.feeds buf = (true, last.retrace merged)) : Agrees (0, last) parser buf later :=
  .inl ⟨le_refl 0, h⟩

theorem Agrees.failed {size : ℤ} {last stop parser : Recorder} {buf later : List UInt8} (hsize : size < 0)
    (h : parser.feeds (buf ++ later) = (false, stop)) (hstop : stop.handler = merged last.handler) :
    Agrees (size, last) parser buf later :=
  .inr ⟨hsize, stop, h, hstop⟩

theorem Agrees.prepend {result : ℤ × Recorder} {parser next : Recorder} {front buf later : List UInt8}
    (hfront : parser.feeds front = (true, next)) (h : Agrees result next buf later) :
    Agrees result parser (front ++ buf) later := by
  have hfeeds : ∀ input, parser.feeds (front ++ input) = next.feeds input := by
    intro input
    rw [feeds_append, hfront, if_pos rfl]
  unfold Agrees
  rw [List.append_assoc, hfeeds, hfeeds]
  exact h

/-- The reference reads exactly the content and ends the message. -/
theorem feeds_exact {parser : Recorder} (hstate : parser.state = .body) (hpos : 0 < parser.csize)
    {front : List UInt8} (rest : List UInt8) (hfront : (front.length : ℤ) = parser.csize) :
    (parser.retrace merged).feeds front = (true, ({ parser with
      handler := parser.handler ++ [.cdata (front ++ rest) front.length] ++ [.end_ true]
      state := .request
      csize := 0 } : Recorder).retrace merged) := by
  have hsize : (parser.retrace merged).csize.toNat = front.length := by
    rw [show (parser.retrace merged).csize = parser.csize from rfl]
    omega
  rw [feeds_complete (parser.retrace merged) hstate hpos (le_of_eq hfront.symm), hsize]
  simp [feeds, retrace, merged_append, -List.append_assoc]

/-- The body part of a buffer agrees, if what follows it does. -/
theorem body_agrees {parser : Recorder} (hstate : parser.state = .body) {buf later : List UInt8}
    (hok : Ok (parser.retrace merged) (buf ++ later)) {next : Recorder → List UInt8 → ℤ × Recorder}
    (hnext : ∀ (last : Recorder) (rest : List UInt8), last.state ≠ .body → rest.length < buf.length →
      Ok (last.retrace merged) (rest ++ later) → Agrees (next last rest) (last.retrace merged) rest later) :
    Agrees (consume (parser.body buf) buf next) (parser.retrace merged) buf later := by
  have hlen : buf.length < 2 ^ 31 := by
    have hbounded := hok.bounded
    rw [Bounded, if_pos (show (parser.retrace merged).state = .body from hstate), List.length_append] at hbounded
    omega
  have hpos : 0 < parser.csize := hok.sane.body hstate
  have hcsize : parser.csize < 2 ^ 31 := hok.sane.lt
  by_cases hlt : buf.length < parser.csize
  · rw [body_content parser hlt hcsize, consume_all hlen]
    apply Agrees.ok
    rw [feeds_content (parser.retrace merged) hstate hlt]
    simp [retrace]
  · have hle : parser.csize ≤ buf.length := not_lt.mp hlt
    rw [body_complete parser hpos hle hlen]
    obtain ⟨front, rest, rfl, hfront⟩ : ∃ front rest, buf = front ++ rest ∧ (front.length : ℤ) = parser.csize := by
      exists buf.take parser.csize.toNat, buf.drop parser.csize.toNat
      rw [List.take_append_drop, List.length_take]
      exact ⟨rfl, by omega⟩
    have hsize : parser.csize.toNat = front.length := by omega
    have hfeeds := feeds_exact hstate hpos rest hfront
    rw [List.append_assoc] at hok
    have hrest := hok.steps hfeeds
    rw [hsize]
    cases rest with
    | nil =>
      rw [List.append_nil] at hlen hfeeds ⊢
      rw [consume_all hlen]
      exact .ok hfeeds
    | cons c rest =>
      rw [List.length_append, List.length_cons] at hlen
      rw [consume_some (by omega) (by simp), List.drop_left]
      apply Agrees.prepend hfeeds
      exact hnext _ _ (by simp) (by simp; omega) hrest

/-- The parser's own loop agrees with the reference. -/
theorem loop_agrees (rounds : ℕ) (parser : Recorder) (hstate : parser.state ≠ .body)
    {buf later : List UInt8} (hlen : buf.length < rounds) (hmax : buf.length < 2 ^ 32)
    (hok : Ok (parser.retrace merged) (buf ++ later)) :
    Agrees (loop rounds parser buf) (parser.retrace merged) buf later := by
  induction rounds generalizing parser buf with
  | zero => omega
  | succ rounds ih =>
    have hstate' : (parser.retrace merged).state ≠ .body := hstate
    have hbounded := hok.bounded
    rw [Bounded, if_neg hstate'] at hbounded
    have hmerged := chars_retrace keeps_merged parser buf
    rcases hchars : parser.chars buf with ⟨verdict, rest, next⟩
    rw [hchars] at hmerged
    rw [loop]
    rcases chars_cases (parser.retrace merged) hstate' buf with
      ⟨_, _, h, hfeeds⟩ | ⟨_, h, hnext, hfeeds⟩ | ⟨front, b, _, last, _, rfl, h, hfront, hfeeds, hlast, hchar⟩ <;>
      rw [h, Prod.mk.injEq, Prod.mk.injEq] at hmerged <;> obtain ⟨rfl, rfl, rfl⟩ := hmerged
    · -- the header fails
      have hneg : i32 (-1) < 0 := by decide
      rw [header_fail hchars, consume_fail hneg]
      have hstop : (parser.retrace merged).feeds (buf ++ later) = (false, ((next.retrace merged).end_ false).2) := by
        rw [feeds_append, hfeeds, if_neg (by simp)]
      apply Agrees.failed hneg hstop
      rw [end_retrace keeps_merged]
      rfl
    · -- the buffer ends inside the header
      rw [header_more hchars]
      by_cases hsmall : buf.length < 2 ^ 31
      · rw [consume_all hsmall]
        exact .ok hfeeds
      · have hlarge := i32_large (not_lt.mp hsmall) hmax
        obtain ⟨last, hlate, hlast⟩ := small_late hnext (by omega) (small_chars h hbounded)
        have hstop : (parser.retrace merged).feeds (buf ++ later) = (false, last) := by
          rw [feeds_append, hfeeds, if_pos rfl, hlate]
        rw [consume_fail hlarge]
        apply Agrees.failed hlarge hstop
        rw [hlast]
        simp [end_, call, Handler.end_, retrace]
    · -- the header ends inside the buffer
      rename_i rest
      have hfeed := feed_char hlast hchar (by simp)
      have hdone : (parser.retrace merged).feeds (front ++ [b]) = (true, next.retrace merged) := by
        rw [feeds_append, hfeeds, if_pos rfl, feeds_cons hfeed]
        rfl
      rw [List.append_assoc, List.cons_append] at hbounded hok
      have hsizes := (small_done hchar).mp (small_chars hfront hbounded)
      have hlength : (front ++ [b]).length = front.length + 1 := by simp
      rw [List.length_append, List.length_cons] at hlen hmax
      rw [header_done hchars, List.append_cons front b rest]
      cases rest with
      | nil =>
        rw [List.append_nil, consume_all (by omega)]
        exact .ok hdone
      | cons c rest =>
        have hbare := (hok.steps hfeeds).last.1
        have hbody : next.state = .body := by
          rcases char_done_state hchar with hbody | hrequest
          · exact hbody
          · exact absurd (hbare ⟨hlast, by rw [hchar], by rw [hchar]; exact hrequest⟩) (by simp)
        rw [consume_some (by omega) (by simp), List.drop_left]
        apply Agrees.prepend hdone
        apply body_agrees hbody ((hok.steps hfeeds).step hfeed)
        intro last' rest' hlast' hshorter hok'
        exact ih last' hlast' (by omega) (by omega) hok'

theorem append_agrees (parser : Recorder) {buf later : List UInt8} (hmax : buf.length < 2 ^ 32)
    (hok : Ok (parser.retrace merged) (buf ++ later)) :
    Agrees (parser.append buf) (parser.retrace merged) buf later := by
  unfold append
  split_ifs with hstate
  · apply body_agrees hstate hok
    intro last rest hlast hshorter hok'
    exact loop_agrees _ last hlast (by omega) (by omega) hok'
  · exact loop_agrees _ parser hstate (Nat.lt_succ_self _) hmax hok

/-- Whatever buffers a stream comes in, its trace is that of the reference. -/
theorem appends_feeds (parser : Recorder) (bufs : List (List UInt8)) (hmax : bufs.flatten.length < 2 ^ 32)
    (hok : Ok (parser.retrace merged) bufs.flatten) :
    merged (parser.appends bufs).2.handler = ((parser.retrace merged).feeds bufs.flatten).2.handler := by
  induction bufs generalizing parser with
  | nil => rfl
  | cons buf bufs ih =>
    rw [List.flatten_cons] at hok hmax ⊢
    rw [List.length_append] at hmax
    rw [appends]
    rcases append_agrees parser (by omega) hok with ⟨hgo, hfeeds⟩ | ⟨hfail, last, hfeeds, hlast⟩
    · rw [if_neg (not_lt.mpr hgo), ih _ (by omega) (hok.steps hfeeds), feeds_append, hfeeds, if_pos rfl]
    · rw [if_pos hfail, hfeeds, hlast]

/-! ## Ends -/

/-- The phase of the trace is the one that the state of the parser stands for. -/
def Tracks (parser : Recorder) : Prop :=
  match parser.state with
  | .request => phase parser.handler = .closed
  | .body => ∃ csize got, phase parser.handler = .opened csize got ∧ parser.csize = csize - got ∧ got < csize
  | _ => phase parser.handler = .opened parser.csize.toNat 0

theorem Tracks.word {parser : Recorder} (h : Tracks parser) (hsane : Sane parser) (hgo : parser.word.1 = true)
    (hshort : Short parser.word.2.handler) :
    phase parser.word.2.handler = .opened parser.word.2.csize.toNat 0 := by
  unfold Tracks at h
  rcases parser.word_cases with hw | ⟨hstate, line, hw⟩ | ⟨hstate, name, value, hw⟩ | ⟨hstate, size, -, -, hw⟩
  · simp [hw] at hgo
  · simp only [hstate] at h
    rw [hw]
    simp [phase_append, h, Phase.step, hsane.request hstate]
  · simp only [hstate] at h
    rw [hw]
    simp [phase_append, h, Phase.step]
  · simp only [hstate] at h
    rw [hw] at hshort ⊢
    have hsize : size < 2 ^ 31 := hshort size (by simp)
    have hint : i32 size = size := i32_of_range (by omega) (by omega)
    simp [phase_append, h, Phase.step, hint]

theorem Tracks.phrase {parser : Recorder} (hsane : Sane parser)
    (h : phase parser.handler = .opened parser.csize.toNat 0) : Tracks parser.phrase.2 := by
  have hnonneg := hsane.nonneg
  rcases parser.phrase_cases with ⟨hcsize, hp⟩ | ⟨hcsize, hp⟩
  · rw [hp]
    exact ⟨parser.csize.toNat, 0, h, by simp; omega, by omega⟩
  · rw [hp]
    simp [Tracks, phase_append, h, hcsize, Phase.step]

theorem Tracks.switch {parser : Recorder} (h : Tracks parser) (hsane : Sane parser)
    (hstate : parser.state ≠ .body) (hshort : Short parser.switch.2.handler)
    (horphan : ¬(parser.state = .request ∧
      parser.lexer.what = { label := false, word := false, phrase := true })) :
    Tracks parser.switch.2 := by
  have hopened : parser.state ≠ .request → phase parser.handler = .opened parser.csize.toNat 0 := by
    intro hrequest
    unfold Tracks at h
    cases hcase : parser.state with
    | request => exact absurd hcase hrequest
    | name => simpa [hcase] using h
    | value => simpa [hcase] using h
    | body => exact absurd hcase hstate
  have hword : Short parser.word.2.handler → parser.word.1 = true → Tracks parser.word.2 := by
    intro hshort' hgo
    have hphase := h.word hsane hgo hshort'
    have hname := (hsane.word hgo hshort').2
    simp only [Tracks, hname]
    exact hphase
  rcases parser.switch_cases with hs | hs | ⟨hrequest, name, hs⟩ | ⟨hgo, hs⟩ | ⟨hgo, hs⟩ | ⟨hwhat, hs⟩
  · rw [hs]
    exact h
  · rw [hs]
    exact h
  · rw [hs]
    exact hopened hrequest
  · rw [hs] at hshort ⊢
    exact hword hshort hgo
  · rw [hs] at hshort ⊢
    have hshort' : Short parser.word.2.handler := by
      rcases parser.word.2.phrase_cases with ⟨-, hp⟩ | ⟨-, hp⟩
      · rwa [hp] at hshort
      · rw [hp] at hshort
        exact hshort.of_append
    exact Tracks.phrase (hsane.word hgo hshort').1 (h.word hsane hgo hshort')
  · rw [hs]
    exact Tracks.phrase hsane (hopened fun hrequest => horphan ⟨hrequest, hwhat⟩)

/-- A failure may end any message, or be all there is of it. -/
theorem Tracks.fail {parser : Recorder} (h : Tracks parser) :
    phase (parser.handler ++ [.end_ false]) = .closed := by
  unfold Tracks at h
  rw [phase_append]
  cases hstate : parser.state with
  | request => simp_all [Phase.step]
  | name => simp_all [Phase.step]
  | value => simp_all [Phase.step]
  | body =>
    simp only [hstate] at h
    obtain ⟨csize, got, hphase, -⟩ := h
    simp [hphase, Phase.step]

theorem Tracks.feed {parser : Recorder} (h : Tracks parser) (hsane : Sane parser) (b : UInt8)
    (hshort : Short (parser.feed b).2.handler) (horphan : ¬parser.Orphan b) :
    if (parser.feed b).1 then Tracks (parser.feed b).2 else phase (parser.feed b).2.handler = .closed := by
  by_cases hstate : parser.state = .body
  · have hbody := h
    simp only [Tracks, hstate] at hbody
    obtain ⟨csize, got, hphase, hcsize, hlt⟩ := hbody
    by_cases hlast : parser.csize = 1
    · have hgot : got + 1 = csize := by omega
      rw [feed_last hstate hlast, if_pos rfl]
      simp [Tracks, phase_append, hphase, Phase.step, hgot]
    · have hgot : got + 1 < csize := by omega
      rw [feed_body hstate hlast, if_pos rfl]
      simp only [Tracks, hstate]
      exists csize, got + 1
      simp [phase_append, hphase, Phase.step, hgot, hgot.le]
      omega
  · rcases hchar : parser.char b with ⟨verdict, next⟩
    by_cases hverdict : verdict = .fail
    · rw [hverdict] at hchar
      rw [feed_fail hstate hchar, if_neg (by simp)]
      simp only [end_, call, Handler.end_, char_fail_handler hchar]
      exact h.fail
    · rw [feed_char hstate hchar hverdict] at hshort ⊢
      rw [if_pos rfl]
      have hread : Tracks { parser with lexer := parser.lexer.append b } := h
      have hsane' : Sane { parser with lexer := parser.lexer.append b } :=
        ⟨hsane.nonneg, hsane.lt, hsane.body, hsane.request⟩
      have hnext := hread.switch hsane' hstate
      unfold char at hchar
      rw [hchar] at hnext
      exact hnext hshort horphan

/-- A trace in step with its parser has an end for every message. -/
theorem Tracks.oneEnd {parser : Recorder} (h : Tracks parser) : OneEnd parser.handler := by
  unfold Tracks at h
  unfold OneEnd
  cases hstate : parser.state with
  | request => simp_all
  | body =>
    simp only [hstate] at h
    obtain ⟨csize, got, hphase, -, hlt⟩ := h
    simp [hphase, hlt]
  | name =>
    simp only [hstate] at h
    simp [h]
    omega
  | value =>
    simp only [hstate] at h
    simp [h]
    omega

/-- Along a stream that meets the conditions every message has one end. -/
theorem feeds_oneEnd {parser : Recorder} {input : List UInt8} (hsane : Sane parser)
    (hshort : Short (parser.feeds input).2.handler) (hrequested : parser.Requested input)
    (h : Tracks parser) : OneEnd (parser.feeds input).2.handler := by
  induction input generalizing parser with
  | nil => exact h.oneEnd
  | cons b input ih =>
    have hnext := h.feed hsane b
    have hsane' := hsane.feed b
    have hrequested' := hrequested.2
    rcases hfeed : parser.feed b with ⟨go, next⟩
    rw [hfeed] at hnext hsane' hrequested'
    cases go with
    | true =>
      rw [feeds_cons hfeed] at hshort ⊢
      have hshort' : Short next.handler := by
        rw [feeds_fresh] at hshort
        exact hshort.of_append
      exact ih (hsane' hshort') hshort (hrequested' rfl) (hnext hshort' hrequested.1)
    | false =>
      rw [feeds_stop hfeed] at hshort ⊢
      have hclosed : phase next.handler = .closed := hnext hshort hrequested.1
      simp [OneEnd, hclosed]

/-! ## Streams that are not parsed alike -/

theorem appends_append (parser : Recorder) (bufs later : List (List UInt8)) :
    parser.appends (bufs ++ later) =
      if (parser.appends bufs).1 < 0 then parser.appends bufs else (parser.appends bufs).2.appends later := by
  induction bufs generalizing parser with
  | nil => rfl
  | cons buf bufs ih =>
    rw [List.cons_append, appends, appends]
    by_cases hfail : (parser.append buf).1 < 0
    · rw [if_pos hfail, if_pos hfail, if_pos hfail]
    · rw [if_neg hfail, if_neg hfail, ih]

theorem appends_one (parser : Recorder) (buf : List UInt8) :
    (parser.appends [buf]).2 = (parser.append buf).2 := by
  rw [appends]
  split_ifs <;> rfl

/-- The stream in buffers of one byte each. -/
def singles (input : List UInt8) : List (List UInt8) := input.map fun b => [b]

theorem singles_flatten (input : List UInt8) : (singles input).flatten = input := by
  induction input with
  | nil => rfl
  | cons b input ih => simpa [singles] using ih

theorem sane_retrace {parser : Recorder} {f : List Event → List Event} :
    Sane (parser.retrace f) ↔ Sane parser :=
  ⟨fun h => ⟨h.nonneg, h.lt, h.body, h.request⟩, fun h => ⟨h.nonneg, h.lt, h.body, h.request⟩⟩

/-- What is reported for the front of the input is reported for the whole. -/
theorem Short.front {parser : Recorder} {front input : List UInt8}
    (h : Short (parser.feeds (front ++ input)).2.handler) : Short (parser.feeds front).2.handler := by
  rw [feeds_append] at h
  split_ifs at h with hgo
  · rw [feeds_fresh] at h
    exact h.of_append
  · exact h

/-- Nothing that follows a single byte can be parsed differently. -/
theorem ok_single {parser : Recorder} (hsane : Sane parser) {b : UInt8}
    (hshort : Short (parser.feeds [b]).2.handler) : Ok parser ([b] ++ []) :=
  ⟨hsane, hshort, ⟨fun _ => rfl, fun _ => trivial⟩, bounded_of_length (by simp)⟩

/-- One byte at a time the parser agrees with the reference on every stream. -/
theorem singles_agree (parser : Recorder) {input : List UInt8} (hsane : Sane parser)
    (hshort : Short ((parser.retrace merged).feeds input).2.handler) :
    (∃ last, parser.appends (singles input) = (0, last) ∧
      (parser.retrace merged).feeds input = (true, last.retrace merged)) ∨
    ((parser.appends (singles input)).1 < 0 ∧ ∃ last, (parser.retrace merged).feeds input = (false, last) ∧
      last.handler = merged (parser.appends (singles input)).2.handler) := by
  induction input generalizing parser with
  | nil => exact .inl ⟨parser, rfl, rfl⟩
  | cons b input ih =>
    have hfirst : Short ((parser.retrace merged).feeds [b]).2.handler :=
      Short.front (show Short ((parser.retrace merged).feeds ([b] ++ input)).2.handler from hshort)
    have hlen : [b].length < 2 ^ 32 := by simp
    have hcons : singles (b :: input) = [b] :: singles input := rfl
    have hsplit := feeds_append (parser.retrace merged) [b] input
    rw [List.singleton_append] at hsplit
    rw [hcons, appends, hsplit]
    rcases append_agrees parser hlen (ok_single (sane_retrace.mpr hsane) hfirst) with
      ⟨hgo, hfeeds⟩ | ⟨hfail, last, hfeeds, hlast⟩
    · rw [hsplit, hfeeds, if_pos rfl] at hshort
      rw [if_neg (not_lt.mpr hgo), hfeeds, if_pos rfl]
      have hnext := (ok_single (sane_retrace.mpr hsane) hfirst).steps hfeeds
      apply ih _ _ hshort
      exact sane_retrace.mp hnext.sane
    · rw [List.append_nil] at hfeeds
      rw [if_pos hfail, hfeeds, if_neg (by simp)]
      exact .inr ⟨hfail, last, rfl, hlast⟩

theorem singles_feeds (parser : Recorder) {input : List UInt8} (hsane : Sane parser)
    (hshort : Short ((parser.retrace merged).feeds input).2.handler) :
    merged (parser.appends (singles input)).2.handler = ((parser.retrace merged).feeds input).2.handler := by
  rcases singles_agree parser hsane hshort with ⟨last, h, hfeeds⟩ | ⟨-, last, hfeeds, hlast⟩
  · rw [h, hfeeds]
    rfl
  · rw [hfeeds, hlast]

/-- A message without a body, and a byte after it in the same buffer, have two ends. -/
theorem append_bare (parser : Recorder) {next : Recorder} {b : UInt8} (hstate : parser.state ≠ .body)
    (hchar : parser.char b = (.done, next)) (hcsize : next.csize = 0) (hclosed : phase (merged next.handler) = .closed) {rest : List UInt8} (hrest : rest ≠ []) :
    ∃ front later, merged (parser.append (b :: rest)).2.handler = front ++ later ∧ phase front = .broken := by
  have hchars : parser.chars (b :: rest) = (.done, rest, next) := by rw [chars, hchar]
  have hne : [b].length ≠ (b :: rest).length := by simpa using hrest
  have hlt : [b].length < 2 ^ 31 := by simp
  have hbody : ∃ front later, merged (next.body rest).2.handler = front ++ later ∧ phase front = .broken := by
    by_cases hlarge : i32 rest.length < next.csize
    · obtain ⟨c, rest', rfl⟩ := List.exists_cons_of_ne_nil hrest
      rw [body_of_lt next hlarge]
      exists merged next.handler ++ [.cdata [c] 1], content rest'
      simp [content, phase_append, hclosed, Phase.step]
    · have hzero : u32 next.csize = 0 := by
        rw [hcsize]
        rfl
      rw [body_of_zero next hlarge hzero]
      exists merged next.handler ++ [.end_ true], []
      simp [end_, call, Handler.end_, phase_append, hclosed, Phase.step]
  have hextends : Extends (next.body rest).2 (parser.append (b :: rest)).2 := by
    have hheader : parser.header (b :: rest) = (([b].length : ℤ), next) :=
      header_done (show parser.chars ([] ++ b :: rest) = _ from hchars)
    rw [append, if_neg hstate, loop, hheader, consume_some hlt hne]
    exact extends_consume (.refl _) (extends_loop _)
  obtain ⟨front, later, hfront, hbroken⟩ := hbody
  obtain ⟨later', hlater⟩ := hextends
  exists front, later ++ merged later'
  rw [hlater, merged_append, hfront, List.append_assoc]
  exact ⟨rfl, hbroken⟩

theorem short_next {parser next : Recorder} {b : UInt8} {input : List UInt8}
    (h : Short (parser.feeds (b :: input)).2.handler) (hfeed : parser.feed b = (true, next)) :
    Short (next.feeds input).2.handler ∧ Short next.handler := by
  rw [feeds_cons hfeed] at h
  have hnext := h
  rw [feeds_fresh] at hnext
  exact ⟨h, hnext.of_append⟩

/-- A message without a request line ends a second time. -/
theorem feed_orphan {parser : Recorder} (hsane : Sane parser) (htracks : Tracks parser) {b : UInt8}
    (h : parser.Orphan b) : ∃ next, parser.feed b = (true, next) ∧ phase next.handler = .broken := by
  obtain ⟨hstate, hwhat⟩ := h
  have hcsize : parser.csize = 0 := hsane.request hstate
  have hclosed : phase parser.handler = .closed := by simpa [Tracks, hstate] using htracks
  have hchar : parser.char b = (.done, { parser with
      lexer := parser.lexer.append b, handler := parser.handler ++ [.end_ true], state := .request, csize := 0 }) := by
    unfold char switch
    simp only [hwhat]
    simp [verdict, phrase, hcsize, end_, call, Handler.end_]
  have hne : parser.state ≠ .body := by
    rw [hstate]
    decide
  have hfeed := feed_char hne hchar (by simp)
  exact ⟨_, hfeed, by simp [phase_append, hclosed, Phase.step]⟩

theorem requested_of_oneEnd {parser : Recorder} {input : List UInt8} (hsane : Sane parser)
    (htracks : Tracks parser) (hshort : Short (parser.feeds input).2.handler)
    (h : OneEnd (parser.feeds input).2.handler) : parser.Requested input := by
  induction input generalizing parser with
  | nil => trivial
  | cons b input ih =>
    have horphan : ¬parser.Orphan b := by
      intro horphan
      obtain ⟨next, hfeed, hbroken⟩ := feed_orphan hsane htracks horphan
      rw [feeds_cons hfeed, feeds_fresh] at h
      exact not_oneEnd _ hbroken h
    apply And.intro horphan
    intro hgo
    have hnext := htracks.feed hsane b
    have hsane' := hsane.feed b
    rcases hfeed : parser.feed b with ⟨go, next⟩
    rw [hfeed] at hgo hnext hsane'
    obtain rfl : go = true := hgo
    obtain ⟨hshort', hhandler⟩ := short_next hshort hfeed
    rw [feeds_cons hfeed] at h
    exact ih (hsane' hhandler) (hnext hhandler horphan) hshort' h

/-- If every cut of the stream has one end for every message, no message without a body is followed
by a byte. The cut that shows it puts the last byte of the message and what follows in one buffer. -/
theorem last_of_oneEnd {start parser : Recorder} (hstart : Sane start) (front : List UInt8)
    {input : List UInt8} (hfront : (start.retrace merged).feeds front = (true, parser)) (hsane : Sane parser)
    (htracks : Tracks parser) (hrequested : parser.Requested input)
    (hshort : Short (parser.feeds input).2.handler)
    (h : ∀ bufs, bufs.flatten = front ++ input → OneEnd (merged (start.appends bufs).2.handler)) :
    parser.Last input := by
  induction input generalizing front parser with
  | nil => trivial
  | cons b input ih =>
    have hnext := htracks.feed hsane b
    have hsane' := hsane.feed b
    constructor
    · rintro ⟨hstate, hdone, hrequest⟩
      by_contra hinput
      have hfeed := feed_char hstate (show parser.char b = (.done, (parser.char b).2) from by rw [← hdone]) nofun
      obtain ⟨-, hhandler⟩ := short_next hshort hfeed
      rw [hfeed] at hnext hsane'
      have hcsize := (hsane' hhandler).request hrequest
      have hclosed := hnext hhandler hrequested.1
      simp only [if_true, Tracks, hrequest] at hclosed
      have hfrontshort : Short ((start.retrace merged).feeds front).2.handler := by
        rw [hfront]
        rw [feeds_fresh] at hshort
        exact hshort.of_append
      rcases singles_agree start hstart hfrontshort with ⟨last, happends, hfeeds⟩ | ⟨-, last, hfeeds, -⟩
      · rw [hfront, Prod.mk.injEq] at hfeeds
        obtain ⟨-, rfl⟩ := hfeeds
        have hchar := char_retrace keeps_merged b last
        rw [hchar] at hdone hcsize hclosed
        obtain ⟨front', later, htrace, hbroken⟩ := append_bare last hstate
          (show last.char b = (.done, (last.char b).2) from by rw [← hdone]) hcsize hclosed hinput
        have hcut := h (singles front ++ [b :: input]) (by simp [singles_flatten])
        rw [appends_append, happends, if_neg (lt_irrefl 0), appends_one, htrace] at hcut
        exact not_oneEnd later hbroken hcut
      · rw [hfront] at hfeeds
        simp at hfeeds
    · intro hgo
      rcases hfeed : parser.feed b with ⟨go, next⟩
      rw [hfeed] at hgo hnext hsane'
      obtain rfl : go = true := hgo
      obtain ⟨hshort', hhandler⟩ := short_next hshort hfeed
      have hrequested' := hrequested.2
      rw [hfeed] at hrequested'
      have hfront' : (start.retrace merged).feeds (front ++ [b]) = (true, next) := by
        rw [feeds_append, hfront, if_pos rfl, feeds_cons hfeed]
        rfl
      apply ih _ hfront' (hsane' hhandler) (hnext hhandler hrequested.1) (hrequested' rfl) hshort'
      intro bufs hbufs
      apply h bufs
      rw [hbufs, List.append_assoc, List.singleton_append]

/-- A byte of the header that does not end it is never reported as an end. -/
theorem char_more_handler {parser next : Recorder} {b : UInt8} (hchar : parser.char b = (.more, next)) :
    next.handler = parser.handler ∨ ∃ event, next.handler = parser.handler ++ [event] ∧ event ≠ .end_ false := by
  unfold char at hchar
  generalize hread : { parser with lexer := parser.lexer.append b } = read at hchar
  have hread' : read.handler = parser.handler := by rw [← hread]
  rcases read.switch_cases with hs | hs | ⟨-, name, hs⟩ | ⟨hgo, hs⟩ | ⟨-, hs⟩ | ⟨-, hs⟩ <;>
    rw [hs, Prod.mk.injEq] at hchar
  · cases hchar.1
  · exact .inl (by rw [← hchar.2, hread'])
  · exact .inl (by rw [← hchar.2, ← hread'])
  · rw [← hchar.2, ← hread']
    rcases read.word_cases with hw | ⟨-, line, hw⟩ | ⟨-, name, value, hw⟩ | ⟨-, size, -, -, hw⟩
    · simp [hw] at hgo
    · exact .inr ⟨.request line, by rw [hw], nofun⟩
    · exact .inr ⟨.field name value, by rw [hw], nofun⟩
    · exact .inr ⟨.csize size, by rw [hw], nofun⟩
  · cases hchar.1
  · cases hchar.1

/-- The end of a failed call is not what a byte of content leads to. -/
theorem feeds_ne_end {parser : Recorder} (hstate : parser.state = .body) (c : UInt8)
    (input : List UInt8) : (parser.feeds (c :: input)).2.handler ≠ parser.handler ++ [.end_ false] := by
  by_cases hlast : parser.csize = 1
  · rw [feeds_cons (feed_last hstate hlast c), feeds_fresh]
    simp
  · rw [feeds_cons (feed_body hstate hlast c), feeds_fresh]
    simp

/-- Content of `2 ^ 31` bytes or more in one buffer makes the call fail. -/
theorem append_content {parser : Recorder} (hstate : parser.state = .body) (hcsize : 0 ≤ parser.csize)
    {buf : List UInt8} (hlarge : 2 ^ 31 ≤ buf.length) (hmax : buf.length < 2 ^ 32) :
    (parser.append buf).2.handler = parser.handler ++ [.cdata buf buf.length] ++ [.end_ false] := by
  have hneg := i32_large hlarge hmax
  rw [append, if_pos hstate, body_of_lt parser (by omega), consume_fail hneg]
  rfl

/-- If every cut leads to the calls of the reference, the header that ends after `front` and what
follows it are small. The cut that shows it is made at the end of the header. -/
theorem sizes_of_trace {start next : Recorder} (hstart : start.state ≠ .body) {front input : List UInt8}
    (hheader : start.header front = ((front.length : ℤ), next)) (hsane : Sane next)
    (hself : merged next.handler = next.handler) (hnext : next.state = .body ∨ input = [])
    (hmax : front.length + input.length < 2 ^ 32)
    (h : ∀ bufs, bufs.flatten = front ++ input →
      merged (start.appends bufs).2.handler = (next.feeds input).2.handler) :
    front.length < 2 ^ 31 ∧ input.length < 2 ^ 31 := by
  have hcut := h [front, input] (by simp)
  have hfront : front.length < 2 ^ 31 := by
    by_contra hlarge
    rw [append_large hstart hheader (not_lt.mp hlarge) (by omega), merged_append, hself] at hcut
    cases input with
    | nil => simp [feeds] at hcut
    | cons c input => exact feeds_ne_end (hnext.resolve_right (by simp)) c input hcut.symm
  apply And.intro hfront
  by_contra hlarge
  have hbody : next.state = .body := by
    apply hnext.resolve_right
    rintro rfl
    simp at hlarge
  have hpos := hsane.body hbody
  have hlt := hsane.lt
  have happend : start.append front = (0, next) := by
    rw [append, if_neg hstart, loop, hheader, consume_all hfront]
  rw [appends, happend, if_neg (lt_irrefl 0), appends_one,
    append_content hbody hpos.le (not_lt.mp hlarge) (by omega),
    feeds_complete next hbody hpos (by omega), feeds_fresh] at hcut
  have hsplit : content input = content (input.take next.csize.toNat) ++ content (input.drop next.csize.toNat) := by
    rw [content, content, content, ← List.map_append, List.take_append_drop]
  obtain ⟨c, rest, hrest⟩ := List.exists_cons_of_ne_nil (l := input.drop next.csize.toNat) (by simp; omega)
  rw [merged_append, merged_append, hself, merged_cdata, merged_end, List.take_length, hsplit, hrest] at hcut
  simp only [List.append_assoc, List.append_right_inj] at hcut
  simp [content] at hcut

/-- If every cut of the stream leads to the calls of the reference, the sizes are small. The cuts
that show it are made at the end of the header, or after `2 ^ 31` bytes of it. -/
theorem small_of_trace {start parser : Recorder} (hstart : start.state ≠ .body)
    (hfresh : merged start.handler = start.handler) (front : List UInt8) {input : List UInt8}
    (hfront : start.chars front = (.more, [], parser)) (hstate : parser.state ≠ .body) (hsane : Sane parser)
    (hlast : parser.Last input)
    (hshort : Short (parser.feeds input).2.handler) (hmax : front.length + input.length < 2 ^ 32)
    (h : ∀ bufs, bufs.flatten = front ++ input →
      merged (start.appends bufs).2.handler = (parser.feeds input).2.handler) :
    parser.Small front.length input := by
  have hheader := header_more hfront
  have hself := merged_chars hfresh hfront
  induction input generalizing front parser with
  | nil =>
    by_contra hlarge
    have hcut := h [front] (by simp)
    rw [append_large hstart hheader (not_lt.mp hlarge) (by simpa using hmax), merged_append, hself] at hcut
    simp [feeds] at hcut
  | cons b input ih =>
    rw [List.length_cons] at hmax
    rcases hchar : parser.char b with ⟨_ | _ | _, next⟩
    · exact small_fail hchar
    · have hfeed := feed_char hstate hchar (by simp)
      obtain ⟨hshort', hhandler⟩ := short_next hshort hfeed
      rw [feeds_cons hfeed] at h
      rw [small_more hchar]
      constructor
      · by_contra hlarge
        obtain ⟨hlarge, hreported⟩ := not_or.mp hlarge
        have hcut := h [front, b :: input] (by simp)
        rw [append_large hstart hheader (not_lt.mp hlarge) (by omega), merged_append, hself, feeds_fresh] at hcut
        rcases char_more_handler hchar with hsame | ⟨event, hevent, hne⟩
        · exact hreported hsame
        · rw [hevent, List.append_assoc, List.append_right_inj] at hcut
          simp only [merged_end, List.cons_append, List.cons.injEq] at hcut
          exact hne hcut.1.symm
      · have hnext : start.chars (front ++ [b]) = (.more, [], next) := by
          rw [chars_more_append hfront, chars, hchar]
          rfl
        have hlength : (front ++ [b]).length = front.length + 1 := by simp
        have hsane' := hsane.feed b
        have hlast' := hlast.2
        rw [hfeed] at hsane' hlast'
        rw [← hlength]
        apply ih _ hnext (char_more_state hstate hchar) (hsane' hhandler) (hlast' rfl) hshort' (by omega) _
          (header_more hnext) (merged_chars hfresh hnext)
        intro bufs hbufs
        apply h bufs
        rw [hbufs, List.append_assoc, List.singleton_append]
    · have hfeed := feed_char hstate hchar (by simp)
      have hhandler := (short_next hshort hfeed).2
      have hdone : start.chars (front ++ [b]) = (.done, [], next) := by
        rw [chars_more_append hfront, chars, hchar]
      have hlength : (front ++ [b]).length = front.length + 1 := by simp
      have hsane' := hsane.feed b
      rw [hfeed] at hsane'
      have hnext : next.state = .body ∨ input = [] := by
        rcases char_done_state hchar with hbody | hrequest
        · exact .inl hbody
        · exact .inr (hlast.1 ⟨hstate, by rw [hchar], by rw [hchar]; exact hrequest⟩)
      rw [small_done hchar, ← hlength]
      apply sizes_of_trace hstart (header_done hdone) (hsane' hhandler) (merged_chars hfresh hdone) hnext
      · omega
      · intro bufs hbufs
        rw [← feeds_cons hfeed]
        apply h bufs
        rw [hbufs, List.append_assoc, List.singleton_append]

end HttpParser

open HttpParser

end Aug.Net
