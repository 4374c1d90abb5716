import Aug.Net.HttpReference
import Aug.Util.NetLexer

/-!
# The parser after a message

What is left in the parser of `http.c` when a call has failed or the input is finished. The phase and the
count of the body are reset, but the lexer is not: the parser goes on as a new one exactly if the lexer
happens to be fresh, which is up to the byte at which the header stopped.
-/

namespace Aug.Net

open Aug.Lib Aug.Util

/-- A call of the parser. -/
inductive HttpCall where
  | append (buf : List UInt8)
  | finish
deriving DecidableEq, Repr

namespace HttpParser

variable {H : Type} [Handler H]

/-- The result of a call and the parser after it. -/
def perform (parser : HttpParser H) : HttpCall → ℤ × HttpParser H
  | .append buf => parser.append buf
  | .finish => parser.finish

/-- Successive calls, with all their results. -/
def performs (parser : HttpParser H) : List HttpCall → List ℤ × HttpParser H
  | [] => ([], parser)
  | call :: calls =>
    let result := parser.perform call
    let rest := result.2.performs calls
    (result.1 :: rest.1, rest.2)

/-- The parser with another handler. -/
def withHandler {H' : Type} (parser : HttpParser H) (handler : H') : HttpParser H' :=
  { parser with handler := handler }

/-- Whatever follows, the handler and the caller see what they would see of a new parser. -/
def LikeNew (parser : HttpParser H) : Prop :=
  ∀ (H' : Type) [Handler H'] (handler : H') (calls : List HttpCall),
    ((parser.withHandler handler).performs calls).1 =
        ((create parser.lexer.before handler).performs calls).1 ∧
      ((parser.withHandler handler).performs calls).2.handler =
        ((create parser.lexer.before handler).performs calls).2.handler

/-- The header part of a buffer stops at the newline of an empty line, or it covers the buffer and leaves
the lexer fresh. -/
def HeaderRestarts (parser : HttpParser H) : List UInt8 → Prop
  | [] => parser.lexer.Fresh
  | b :: buf =>
    match parser.char b with
    | (.more, next) => next.HeaderRestarts buf
    | _ => parser.lexer.words.newline = true ∧ EndsLine b

/-- The last header that the loop reads up to a failure stops so. -/
def LoopRestarts : ℕ → HttpParser H → List UInt8 → Prop
  | 0, _, _ => True
  | rounds + 1, parser, buf =>
    let header := parser.header buf
    if i32 header.1 < 0 then parser.HeaderRestarts buf
    else
      let buf' := buf.drop (i32 header.1).toNat
      let body := header.2.body buf'
      if i32 body.1 < 0 then parser.HeaderRestarts buf
      else LoopRestarts rounds body.2 (buf'.drop (i32 body.1).toNat)

/-- The last header before the failure of a call stops so, and so does the header in front of a body that
the call begins with. The input may also be finished where nothing has been read. -/
def Restarts (parser : HttpParser H) : HttpCall → Prop
  | .append buf =>
    if parser.state = .body then
      let body := parser.body buf
      if i32 body.1 < 0 then parser.lexer.Fresh
      else LoopRestarts (buf.length + 1) body.2 (buf.drop (i32 body.1).toNat)
    else LoopRestarts (buf.length + 1) parser buf
  | .finish => parser.lexer.words.newline = true ∨ parser.lexer.Fresh

/-- The call has failed, or the input is finished. -/
def Stops (parser : HttpParser H) : HttpCall → Prop
  | .append buf => (parser.append buf).1 < 0
  | .finish => True

/-! ## The lexer of a parser -/

section Lexer

theorem end_lexer (parser : HttpParser H) (commit : Bool) : (parser.end_ commit).2.lexer = parser.lexer :=
  rfl

/-- A value leaves the lexer and the phase as they are. -/
theorem value_lexer (parser : HttpParser H) :
    parser.value.2.lexer = parser.lexer ∧ parser.value.2.state = parser.state := by
  unfold value
  split
  · split
    · exact ⟨rfl, rfl⟩
    · exact ⟨rfl, rfl⟩
  · exact ⟨rfl, rfl⟩

/-- A word leaves the lexer as it is, and a request line that fails leaves the phase. -/
theorem word_lexer (parser : HttpParser H) : parser.word.2.lexer = parser.lexer ∧
    (parser.word.2.state = .request → parser.state = .request ∧ parser.word.2.csize = parser.csize) := by
  unfold word
  cases hstate : parser.state with
  | request =>
    dsimp only
    split
    · exact ⟨rfl, nofun⟩
    · exact ⟨rfl, fun _ => ⟨rfl, rfl⟩⟩
  | name =>
    apply And.intro rfl
    intro hrequest
    cases hstate.symm.trans hrequest
  | value =>
    have hvalue := parser.value_lexer
    dsimp only
    split
    · exact ⟨hvalue.1, nofun⟩
    · apply And.intro hvalue.1
      intro hrequest
      cases hstate.symm.trans (hvalue.2.symm.trans hrequest)
  | body =>
    apply And.intro rfl
    intro hrequest
    cases hstate.symm.trans hrequest

/-- A phrase leaves the lexer as it is, and resets the count where it ends the message. -/
theorem phrase_lexer (parser : HttpParser H) : parser.phrase.2.lexer = parser.lexer ∧
    (parser.phrase.2.state = .request → parser.phrase.2.csize = 0) := by
  unfold phrase
  split
  · exact ⟨rfl, nofun⟩
  · exact ⟨rfl, fun _ => rfl⟩

omit [Handler H] in
/-- A label leaves the lexer as it is, and fails only in the first phase. -/
theorem label_lexer (parser : HttpParser H) : parser.label.2.lexer = parser.lexer ∧
    (parser.label.2.state = .request → parser.state = .request ∧ parser.label.2.csize = parser.csize) := by
  unfold label
  split
  next hstate => exact ⟨rfl, fun _ => ⟨hstate, rfl⟩⟩
  next => exact ⟨rfl, nofun⟩

/-- The flags of the lexer are looked at, and the lexer is left as it is. -/
theorem switch_lexer (parser : HttpParser H) : parser.switch.2.lexer = parser.lexer ∧
    (parser.switch.2.state = .request → parser.switch.2.csize = 0 ∨
      parser.state = .request ∧ parser.switch.2.csize = parser.csize) := by
  unfold switch
  split
  · exact ⟨parser.label_lexer.1, fun h => .inr (parser.label_lexer.2 h)⟩
  · exact ⟨parser.word_lexer.1, fun h => .inr (parser.word_lexer.2 h)⟩
  · dsimp only
    split
    · exact ⟨parser.word.2.phrase_lexer.1.trans parser.word_lexer.1,
        fun h => .inl (parser.word.2.phrase_lexer.2 h)⟩
    · exact ⟨parser.word_lexer.1, fun h => .inr (parser.word_lexer.2 h)⟩
  · exact ⟨parser.phrase_lexer.1, fun h => .inl (parser.phrase_lexer.2 h)⟩
  · exact ⟨rfl, fun h => .inr ⟨h, rfl⟩⟩

theorem char_lexer (parser : HttpParser H) (b : UInt8) : (parser.char b).2.lexer = parser.lexer.append b :=
  (switch_lexer _).1

/-- A byte without flags is only collected. -/
theorem char_of_none {parser : HttpParser H} {b : UInt8} (h : (parser.lexer.append b).what = .none) :
    parser.char b = (.more, { parser with lexer := parser.lexer.append b }) := by
  unfold char switch
  rw [h]
  rfl

/-- The body leaves the lexer as it is. -/
theorem body_lexer (parser : HttpParser H) (buf : List UInt8) :
    (parser.body buf).2.lexer = parser.lexer := by
  unfold body
  split
  · rfl
  · dsimp only
    split
    · rfl
    · split <;> rfl

/-- Only the newline at the end is read. -/
theorem finish_lexer (parser : HttpParser H) : parser.finish.2.lexer = parser.lexer.finish := by
  have hlexer := ({ parser with lexer := parser.lexer.finish } : HttpParser H).switch_lexer.1
  unfold finish
  split
  next hresult =>
    rw [hresult] at hlexer
    exact hlexer
  next hresult =>
    rw [hresult] at hlexer
    split
    next => exact hlexer
    next => exact hlexer

end Lexer

section Settled

/-- What holds of a parser at any time. -/
structure Settled (parser : HttpParser H) : Prop where
  lexer : parser.lexer.Settled
  csize : parser.state = .request → parser.csize = 0

omit [Handler H] in
theorem create_settled (before : UInt8) (handler : H) : (create before handler).Settled where
  lexer := Lexer.create_settled before
  csize _ := rfl

theorem end_settled {parser : HttpParser H} (h : parser.lexer.Settled) (commit : Bool) :
    (parser.end_ commit).2.Settled where
  lexer := h
  csize _ := rfl

namespace Settled

variable {parser : HttpParser H}

theorem switch (h : parser.Settled) : parser.switch.2.Settled where
  lexer := parser.switch_lexer.1 ▸ h.lexer
  csize hstate := by
    rcases parser.switch_lexer.2 hstate with hzero | ⟨hrequest, hcsize⟩
    · exact hzero
    · exact hcsize.trans (h.csize hrequest)

theorem char (h : parser.Settled) (b : UInt8) : (parser.char b).2.Settled :=
  Settled.switch { lexer := h.lexer.append b, csize := h.csize }

theorem chars (h : parser.Settled) (buf : List UInt8) : (parser.chars buf).2.2.Settled := by
  induction buf generalizing parser with
  | nil => exact h
  | cons b buf ih =>
    have hchar := h.char b
    rw [HttpParser.chars]
    cases hresult : parser.char b with
    | mk verdict next =>
      rw [hresult] at hchar
      cases verdict with
      | fail => exact hchar
      | more => exact ih hchar
      | done => exact hchar

theorem header (h : parser.Settled) (buf : List UInt8) : (parser.header buf).2.Settled := h.chars buf

/-- A body that does not fail counts down, and resets the count at its end. -/
theorem body (h : parser.Settled) {buf : List UInt8} (hsize : 0 ≤ i32 (parser.body buf).1) :
    (parser.body buf).2.Settled := by
  have hneg : ¬0 ≤ i32 (-1) := by decide
  have hlexer := parser.body_lexer buf
  refine ⟨hlexer ▸ h.lexer, ?_⟩
  unfold HttpParser.body at hsize ⊢
  split
  next hlt =>
    rw [if_pos hlt] at hsize
    intro hstate
    have hcsize := h.csize hstate
    dsimp only at hsize
    split at hsize
    · omega
    · exact absurd hsize hneg
  next hge =>
    rw [if_neg hge] at hsize
    dsimp only at hsize ⊢
    split
    next => exact fun _ => rfl
    next hzero =>
      rw [if_neg hzero] at hsize
      split
      next => exact fun _ => rfl
      next hfail =>
        rw [if_neg hfail] at hsize
        exact absurd hsize hneg

/-- A part of a call keeps the parser settled, and so does what follows it. -/
theorem consume {result : ℤ × HttpParser H} {buf : List UInt8} {next : HttpParser H → List UInt8 → ℤ × HttpParser H}
    (hlexer : result.2.lexer.Settled) (hresult : 0 ≤ i32 result.1 → result.2.Settled)
    (hnext : ∀ parser buf, parser.Settled → (next parser buf).2.Settled) :
    (HttpParser.consume result buf next).2.Settled := by
  unfold HttpParser.consume
  dsimp only
  split
  next => exact end_settled hlexer false
  next hsize =>
    have hsettled := hresult (not_lt.mp hsize)
    split
    · exact hsettled
    · exact hnext _ _ hsettled

theorem loop (rounds : ℕ) (h : parser.Settled) (buf : List UInt8) :
    (HttpParser.loop rounds parser buf).2.Settled := by
  induction rounds generalizing parser buf with
  | zero => exact h
  | succ rounds ih =>
    apply Settled.consume (h.header buf).lexer (fun _ => h.header buf)
    intro parser buf hparser
    apply Settled.consume _ (fun hsize => hparser.body hsize)
    · intro parser buf hparser
      exact ih hparser buf
    · exact parser.body_lexer buf ▸ hparser.lexer

theorem append (h : parser.Settled) (buf : List UInt8) : (parser.append buf).2.Settled := by
  unfold HttpParser.append
  split
  · apply Settled.consume _ (fun hsize => h.body hsize)
    · intro parser buf hparser
      exact hparser.loop _ buf
    · exact parser.body_lexer buf ▸ h.lexer
  · exact h.loop _ buf

/-- A finished parser is between two messages. -/
theorem finish (h : parser.Settled) : parser.finish.2.Settled ∧ parser.finish.2.state = .request := by
  have hswitch : ({ parser with lexer := parser.lexer.finish } : HttpParser H).switch.2.Settled :=
    Settled.switch { lexer := h.lexer.append 10, csize := h.csize }
  unfold HttpParser.finish
  split
  next hresult =>
    rw [hresult] at hswitch
    exact ⟨end_settled hswitch.lexer false, rfl⟩
  next hresult =>
    rw [hresult] at hswitch
    split
    next hstate => exact ⟨hswitch, hstate⟩
    next => exact ⟨end_settled hswitch.lexer false, rfl⟩

theorem perform (h : parser.Settled) (call : HttpCall) : (parser.perform call).2.Settled := by
  cases call with
  | append buf => exact h.append buf
  | finish => exact h.finish.1

theorem performs (h : parser.Settled) (calls : List HttpCall) : (parser.performs calls).2.Settled := by
  induction calls generalizing parser with
  | nil => exact h
  | cons call calls ih => exact ih (h.perform call)

end Settled

end Settled

/-! ## Where a call stops -/

section Stops

variable {parser : HttpParser H}

/-- The lexer after the header part of a buffer is fresh exactly if the part stops at the end of a
header. -/
theorem headerRestarts_iff (h : parser.Settled) (buf : List UInt8) :
    (parser.chars buf).2.2.lexer.Fresh ↔ parser.HeaderRestarts buf := by
  induction buf generalizing parser with
  | nil => rfl
  | cons b buf ih =>
    have hlexer := parser.char_lexer b
    have hnext := h.char b
    have hnone : (parser.lexer.append b).what = .none → (parser.char b).1 = .more := by
      intro hwhat
      rw [char_of_none hwhat]
    rw [chars, HeaderRestarts]
    cases hresult : parser.char b with
    | mk verdict next =>
      rw [hresult] at hlexer hnext hnone
      have hfresh := Lexer.fresh_append_iff h.lexer (b := b)
      rw [← hlexer] at hfresh hnone
      cases verdict with
      | fail => exact hfresh fun hwhat => Verdict.noConfusion (hnone hwhat)
      | more => exact ih hnext
      | done => exact hfresh fun hwhat => Verdict.noConfusion (hnone hwhat)

/-- What is left of a buffer is no longer than it. -/
theorem chars_rest (parser : HttpParser H) (buf : List UInt8) :
    (parser.chars buf).2.1.length ≤ buf.length ∧
      (buf ≠ [] → (parser.chars buf).2.1.length < buf.length) := by
  induction buf generalizing parser with
  | nil => exact ⟨le_rfl, fun h => absurd rfl h⟩
  | cons b buf ih =>
    have hlt : (parser.chars (b :: buf)).2.1.length < (b :: buf).length := by
      rw [chars]
      cases hresult : parser.char b with
      | mk verdict next =>
        cases verdict with
        | fail => exact Nat.lt_succ_self _
        | more => exact Nat.lt_succ_of_le (ih next).1
        | done => exact Nat.lt_succ_self _
    exact ⟨hlt.le, fun _ => hlt⟩

/-- The header part of a buffer fails, or its size is that of some of the buffer. -/
theorem header_size (parser : HttpParser H) (buf : List UInt8) :
    (parser.header buf).1 = -1 ∨
      ∃ size : ℕ, (parser.header buf).1 = size ∧ size ≤ buf.length ∧ (buf ≠ [] → 0 < size) := by
  have ⟨hle, hlt⟩ := parser.chars_rest buf
  unfold header
  dsimp only
  split
  next => exact .inl rfl
  next =>
    refine .inr ⟨buf.length - (parser.chars buf).2.1.length, ?_, Nat.sub_le _ _, ?_⟩
    · exact (Nat.cast_sub hle).symm
    · intro hbuf
      exact Nat.sub_pos_of_lt (hlt hbuf)

/-- A header part that goes on reads some of the buffer. -/
theorem header_reads {buf : List UInt8} (hbuf : buf.length < 2 ^ 32) (hpos : 0 ≤ i32 (parser.header buf).1)
    (hsome : i32 (parser.header buf).1 ≠ buf.length) :
    0 < (i32 (parser.header buf).1).toNat ∧ 0 < buf.length := by
  rcases parser.header_size buf with hfail | ⟨size, hsize, hle, hread⟩
  · rw [hfail] at hpos
    exact absurd hpos (by decide)
  · rw [hsize] at hpos hsome ⊢
    have hsmall : size < 2 ^ 31 := by
      by_contra hlarge
      exact absurd (i32_large (not_lt.mp hlarge) (by omega)) (not_lt.mpr hpos)
    rw [i32_of_range (by omega) (by omega)] at hsome ⊢
    have hne : buf ≠ [] := by
      rintro rfl
      rw [List.length_nil, Nat.le_zero] at hle
      exact hsome (by rw [hle]; rfl)
    have hreads := hread hne
    omega

/-- A part of a call fails and resets the parser, or what follows it fails. -/
theorem consume_stops {result : ℤ × HttpParser H} {buf : List UInt8}
    {next : HttpParser H → List UInt8 → ℤ × HttpParser H} (hstops : (consume result buf next).1 < 0) :
    (i32 result.1 < 0 ∧ (consume result buf next).2 = (result.2.end_ false).2) ∨
      (0 ≤ i32 result.1 ∧ i32 result.1 ≠ buf.length ∧
        consume result buf next = next result.2 (buf.drop (i32 result.1).toNat)) := by
  unfold consume at hstops ⊢
  dsimp only at hstops ⊢
  split
  next hneg => exact .inl ⟨hneg, rfl⟩
  next hpos =>
    rw [if_neg hpos] at hstops
    split
    next hall =>
      rw [if_pos hall] at hstops
      exact absurd hstops (lt_irrefl 0)
    next hsome => exact .inr ⟨not_lt.mp hpos, hsome, rfl⟩

/-- Where the loop fails, the parser is reset, and its lexer is fresh exactly if the last header stopped
at the end of an empty line. -/
theorem loop_stops {rounds : ℕ} (h : parser.Settled) {buf : List UInt8} (hrounds : buf.length < rounds)
    (hbuf : buf.length < 2 ^ 32) (hstops : (loop rounds parser buf).1 < 0) :
    (loop rounds parser buf).2.state = .request ∧
      ((loop rounds parser buf).2.lexer.Fresh ↔ LoopRestarts rounds parser buf) := by
  induction rounds generalizing parser buf with
  | zero => omega
  | succ rounds ih =>
    have hheader := headerRestarts_iff h buf
    rw [loop] at hstops ⊢
    rw [LoopRestarts]
    rcases consume_stops hstops with ⟨hneg, hresult⟩ | ⟨hpos, hsome, hresult⟩
    · rw [if_pos hneg, hresult]
      exact ⟨rfl, hheader⟩
    · rw [hresult] at hstops ⊢
      dsimp only
      rw [if_neg (not_lt.mpr hpos)]
      have hbody := body_lexer (parser.header buf).2 (buf.drop (i32 (parser.header buf).1).toNat)
      rcases consume_stops hstops with ⟨hneg, hresult'⟩ | ⟨hpos', hsome', hresult'⟩
      · rw [if_pos hneg, hresult']
        apply And.intro rfl
        rw [end_lexer, hbody]
        exact hheader
      · rw [hresult'] at hstops ⊢
        rw [if_neg (not_lt.mpr hpos')]
        have hread := header_reads hbuf hpos hsome
        apply ih ((h.header buf).body hpos')
        · simp only [List.length_drop]
          omega
        · simp only [List.length_drop]
          omega
        · exact hstops

/-- A call that stops leaves the parser between two messages, with a fresh lexer exactly if the last header
stopped at the end of an empty line. -/
theorem perform_stops (h : parser.Settled) {call : HttpCall}
    (hcall : ∀ buf, call = .append buf → buf.length < 2 ^ 32) (hstops : parser.Stops call) :
    (parser.perform call).2.state = .request ∧
      ((parser.perform call).2.lexer.Fresh ↔ parser.Restarts call) := by
  cases call with
  | append buf =>
    have hbuf := hcall buf rfl
    unfold perform Restarts
    unfold Stops at hstops
    dsimp only at hstops ⊢
    unfold append at hstops ⊢
    split
    next hstate =>
      rw [if_pos hstate] at hstops
      have hbody := parser.body_lexer buf
      rcases consume_stops hstops with ⟨hneg, hresult⟩ | ⟨hpos, -, hresult⟩
      · rw [if_pos hneg, hresult, end_lexer, hbody]
        exact ⟨rfl, Iff.rfl⟩
      · rw [hresult] at hstops ⊢
        rw [if_neg (not_lt.mpr hpos)]
        apply loop_stops (h.body hpos)
        · rw [List.length_drop]
          omega
        · rw [List.length_drop]
          omega
        · exact hstops
    next hstate =>
      rw [if_neg hstate] at hstops
      exact loop_stops h (Nat.lt_succ_self _) hbuf hstops
  | finish =>
    rw [perform, finish_lexer]
    exact ⟨h.finish.2, Lexer.fresh_finish_iff h.lexer⟩

end Stops

/-! ## Parsers that go on alike -/

section Like

/-- Two parsers differ in a name that is not looked at, and in a token that has been returned. -/
structure Like (parser parser' : HttpParser H) : Prop where
  handler : parser.handler = parser'.handler
  lexer : parser.lexer.start = parser'.lexer.start
  name : parser.state = .value → parser.name = parser'.name
  state : parser.state = parser'.state
  csize : parser.csize = parser'.csize

/-- The results are the same, and the parsers go on alike. -/
def LikeResult {α : Type} (result result' : α × HttpParser H) : Prop :=
  result.1 = result'.1 ∧ Like result.2 result'.2

variable {parser parser' : HttpParser H}

omit [Handler H] in
theorem Like.refl (parser : HttpParser H) : Like parser parser := ⟨rfl, rfl, fun _ => rfl, rfl, rfl⟩

omit [Handler H] in
/-- A parser whose name is not looked at. -/
theorem like_name (parser : HttpParser H) (name : List UInt8) (hstate : parser.state ≠ .value) :
    Like parser { parser with name := name } :=
  ⟨rfl, rfl, fun h => absurd h hstate, rfl, rfl⟩

omit [Handler H] in
/-- Parsers with the same lexer are equal, or no name is looked at. -/
theorem Like.cases (h : Like parser parser') (hlexer : parser.lexer = parser'.lexer) :
    parser' = parser ∨ parser.state ≠ .value ∧ parser' = { parser with name := parser'.name } := by
  obtain ⟨handler, lexer, name, state, csize⟩ := parser
  obtain ⟨handler', lexer', name', state', csize'⟩ := parser'
  obtain ⟨hhandler, -, hname, hstate, hcsize⟩ := h
  simp only at hhandler hname hstate hcsize hlexer
  subst hhandler hstate hcsize hlexer
  by_cases hvalue : state = .value
  · obtain rfl := hname hvalue
    exact .inl rfl
  · exact .inr ⟨hvalue, rfl⟩

omit [Handler H] in
/-- A callback has the same result in both. -/
theorem Like.call (h : Like parser parser') (f : H → Bool × H) :
    LikeResult (parser.call f) (parser'.call f) := by
  unfold HttpParser.call
  rw [h.handler]
  exact ⟨rfl, rfl, h.lexer, h.name, h.state, h.csize⟩

theorem Like.end_ (h : Like parser parser') (commit : Bool) :
    LikeResult (parser.end_ commit) (parser'.end_ commit) := by
  apply Like.call
  exact ⟨h.handler, h.lexer, nofun, rfl, rfl⟩

/-- The first word is a request line. -/
theorem word_request {parser : HttpParser H} (hstate : parser.state = .request) : parser.word =
    if parser.request.1 then (true, { parser.request.2 with state := .name }) else parser.request := by
  rw [word, hstate]

/-- A word without a name is refused. -/
theorem word_refused {parser : HttpParser H} (hstate : parser.state = .name ∨ parser.state = .body) :
    parser.word = (false, parser) := by
  rcases hstate with hstate | hstate <;> rw [word, hstate]

/-- A word does not look at a name that no value follows. -/
theorem like_word (parser : HttpParser H) (name : List UInt8) (hstate : parser.state ≠ .value) :
    LikeResult parser.word ({ parser with name := name } : HttpParser H).word := by
  have hlike := like_name parser name hstate
  by_cases hphase : parser.state = .request
  · have hcall : LikeResult parser.request ({ parser with name := name } : HttpParser H).request :=
      hlike.call (Handler.request parser.token)
    have hword' : ({ parser with name := name } : HttpParser H).word = _ := word_request hphase
    rw [word_request hphase, hword', ← hcall.1]
    split
    · exact ⟨rfl, hcall.2.handler, hcall.2.lexer, nofun, rfl, hcall.2.csize⟩
    · exact hcall
  · have hrefused : parser.state = .name ∨ parser.state = .body := by
      cases h : parser.state <;> simp_all
    have hword' : ({ parser with name := name } : HttpParser H).word = _ := word_refused hrefused
    rw [word_refused hrefused, hword']
    exact ⟨rfl, hlike⟩

omit [Handler H] in
/-- A label sets the name. -/
theorem like_label (parser : HttpParser H) (name : List UInt8) (hstate : parser.state ≠ .value) :
    LikeResult parser.label ({ parser with name := name } : HttpParser H).label := by
  unfold label
  dsimp only
  split
  · exact ⟨rfl, like_name parser name hstate⟩
  · exact ⟨rfl, Like.refl _⟩

theorem Like.phrase (h : Like parser parser') : LikeResult parser.phrase parser'.phrase := by
  unfold HttpParser.phrase
  rw [h.csize]
  split
  · exact ⟨rfl, h.handler, h.lexer, nofun, rfl, rfl⟩
  · exact h.end_ true

omit [Handler H] in
theorem LikeResult.verdict {next : Verdict} {result result' : Bool × HttpParser H} (h : LikeResult result result') :
    LikeResult (HttpParser.verdict next result) (HttpParser.verdict next result') := by
  refine ⟨?_, h.2⟩
  rw [HttpParser.verdict, HttpParser.verdict, h.1]

/-- Parsers with the same lexer take its flags alike. -/
theorem Like.switch (h : Like parser parser') (hlexer : parser.lexer = parser'.lexer) :
    LikeResult parser.switch parser'.switch := by
  rcases h.cases hlexer with heq | ⟨hstate, heq⟩
  · rw [heq]
    exact ⟨rfl, Like.refl _⟩
  · have hword := like_word parser parser'.name hstate
    have hlabel := like_label parser parser'.name hstate
    rw [← heq] at hword hlabel
    unfold HttpParser.switch
    rw [← hlexer]
    split
    · exact hlabel.verdict
    · exact hword.verdict
    · dsimp only
      rw [← hword.1]
      split
      · exact hword.2.phrase.verdict
      · exact ⟨rfl, hword.2⟩
    · exact h.phrase.verdict
    · exact ⟨rfl, h⟩

theorem Like.char (h : Like parser parser') (b : UInt8) : LikeResult (parser.char b) (parser'.char b) := by
  have hlexer : parser.lexer.append b = parser'.lexer.append b := by
    rw [← Lexer.start_append, h.lexer, Lexer.start_append]
  apply Like.switch
  · exact ⟨h.handler, congrArg Lexer.start hlexer, h.name, h.state, h.csize⟩
  · exact hlexer

theorem Like.chars (h : Like parser parser') (buf : List UInt8) :
    (parser.chars buf).1 = (parser'.chars buf).1 ∧ LikeResult (parser.chars buf).2 (parser'.chars buf).2 := by
  induction buf generalizing parser parser' with
  | nil => exact ⟨rfl, rfl, h⟩
  | cons b buf ih =>
    have hchar := h.char b
    rw [HttpParser.chars, HttpParser.chars]
    cases hresult : parser.char b with
    | mk verdict next =>
      cases hresult' : parser'.char b with
      | mk verdict' next' =>
        rw [hresult, hresult'] at hchar
        obtain ⟨rfl, hnext⟩ := hchar
        cases verdict with
        | fail => exact ⟨rfl, rfl, hnext⟩
        | more => exact ih hnext
        | done => exact ⟨rfl, rfl, hnext⟩

theorem Like.header (h : Like parser parser') (buf : List UInt8) :
    LikeResult (parser.header buf) (parser'.header buf) := by
  have ⟨hverdict, hrest, hnext⟩ := h.chars buf
  refine ⟨?_, hnext⟩
  rw [HttpParser.header, HttpParser.header]
  simp only [hverdict, hrest]

theorem Like.body (h : Like parser parser') (buf : List UInt8) :
    LikeResult (parser.body buf) (parser'.body buf) := by
  unfold HttpParser.body
  rw [← h.csize]
  split
  · have hless : Like ({ parser with csize := i32 (parser.csize - buf.length) } : HttpParser H)
        { parser' with csize := i32 (parser.csize - buf.length) } :=
      ⟨h.handler, h.lexer, h.name, h.state, rfl⟩
    have hcall := hless.call (Handler.cdata buf buf.length)
    refine ⟨?_, hcall.2⟩
    simp only [hcall.1]
  · have hcall : LikeResult
        (if u32 parser.csize = 0 then (true, parser) else parser.call (Handler.cdata buf (u32 parser.csize)))
        (if u32 parser.csize = 0 then (true, parser') else
          parser'.call (Handler.cdata buf (u32 parser.csize))) := by
      split
      · exact ⟨rfl, h⟩
      · exact h.call _
    dsimp only
    generalize (if u32 parser.csize = 0 then (true, parser) else _) = result at hcall ⊢
    generalize (if u32 parser.csize = 0 then (true, parser') else _) = result' at hcall ⊢
    rw [← hcall.1]
    split
    · have hend := hcall.2.end_ true
      refine ⟨?_, hend.2⟩
      simp only [hend.1]
    · exact ⟨rfl, hcall.2⟩

theorem LikeResult.consume {result result' : ℤ × HttpParser H} (h : LikeResult result result') (buf : List UInt8)
    {next : HttpParser H → List UInt8 → ℤ × HttpParser H}
    (hnext : ∀ parser parser' buf, Like parser parser' → LikeResult (next parser buf) (next parser' buf)) :
    LikeResult (HttpParser.consume result buf next) (HttpParser.consume result' buf next) := by
  unfold HttpParser.consume
  dsimp only
  rw [h.1]
  split
  · exact ⟨rfl, (h.2.end_ false).2⟩
  · split
    · exact ⟨rfl, h.2⟩
    · exact hnext _ _ _ h.2

theorem Like.loop (rounds : ℕ) (h : Like parser parser') (buf : List UInt8) :
    LikeResult (HttpParser.loop rounds parser buf) (HttpParser.loop rounds parser' buf) := by
  induction rounds generalizing parser parser' buf with
  | zero => exact ⟨rfl, h⟩
  | succ rounds ih =>
    apply (h.header buf).consume
    intro parser parser' buf h
    apply (h.body buf).consume
    intro parser parser' buf h
    exact ih h buf

theorem Like.append (h : Like parser parser') (buf : List UInt8) :
    LikeResult (parser.append buf) (parser'.append buf) := by
  unfold HttpParser.append
  rw [h.state]
  split
  · apply (h.body buf).consume
    intro parser parser' buf h
    exact h.loop _ buf
  · exact h.loop _ buf

theorem Like.finish (h : Like parser parser') : LikeResult parser.finish parser'.finish := by
  have hlexer : parser.lexer.finish = parser'.lexer.finish := by
    rw [Lexer.finish, Lexer.finish, ← Lexer.start_append, h.lexer, Lexer.start_append]
  have hlike : Like ({ parser with lexer := parser.lexer.finish } : HttpParser H)
      { parser' with lexer := parser'.lexer.finish } :=
    ⟨h.handler, congrArg Lexer.start hlexer, h.name, h.state, h.csize⟩
  have hswitch := hlike.switch hlexer
  unfold HttpParser.finish
  generalize ({ parser with lexer := parser.lexer.finish } : HttpParser H).switch = result at hswitch ⊢
  generalize ({ parser' with lexer := parser'.lexer.finish } : HttpParser H).switch = result' at hswitch ⊢
  obtain ⟨verdict, next⟩ := result
  obtain ⟨verdict', next'⟩ := result'
  obtain ⟨hverdict, hnext⟩ := hswitch
  simp only at hverdict hnext
  subst hverdict
  have hrest : LikeResult (if next.state = .request then ((0 : ℤ), next) else (0, (next.end_ false).2))
      (if next'.state = .request then (0, next') else (0, (next'.end_ false).2)) := by
    rw [hnext.state]
    split
    · exact ⟨rfl, hnext⟩
    · exact ⟨rfl, (hnext.end_ false).2⟩
  cases verdict with
  | fail => exact ⟨rfl, (hnext.end_ false).2⟩
  | more => exact hrest
  | done => exact hrest

theorem Like.perform (h : Like parser parser') (call : HttpCall) :
    LikeResult (parser.perform call) (parser'.perform call) := by
  cases call with
  | append buf => exact h.append buf
  | finish => exact h.finish

/-- Whatever the calls are, the results are the same and the parsers go on alike. -/
theorem Like.performs (h : Like parser parser') (calls : List HttpCall) :
    LikeResult (parser.performs calls) (parser'.performs calls) := by
  induction calls generalizing parser parser' with
  | nil => exact ⟨rfl, h⟩
  | cons call calls ih =>
    have hcall := h.perform call
    have hrest := ih hcall.2
    exact ⟨congrArg₂ List.cons hcall.1 hrest.1, hrest.2⟩

end Like

/-! ## The lexers that are told apart -/

/-- The recorder between two messages, with a lexer in front of its next byte. -/
def between (words : NetWords) (token name : List UInt8) (before : UInt8) : Recorder :=
  { handler := []
    lexer := { words, token, what := .none, save := 0, before }
    name := name
    state := .request
    csize := 0 }

section Between

variable (fn : NetFn) (escape label : Bool) (token name : List UInt8) (before : UInt8)

/-- A letter is collected, unless a line has ended. -/
theorem between_letter {c : UInt8} (hc : c = 120 ∨ c = 121) :
    (between ⟨fn, escape, label, false⟩ token name before).char c =
      (.more, between ⟨.word, false, label, false⟩ (token ++ [c]) name before) := by
  rcases hc with rfl | rfl <;> cases fn <;> cases escape <;> cases label <;> rfl

/-- A blank is collected inside of a word. -/
theorem between_blank : (between ⟨.word, false, label, false⟩ token name before).char 32 =
    (.more, between ⟨.word, false, label, false⟩ (token ++ [32]) name before) := by
  cases label <;> rfl

/-- An escaped newline is collected. -/
theorem between_escaped : (between ⟨fn, true, label, false⟩ token name before).char 10 =
    (.more, between ⟨.word, false, label, false⟩ (token ++ [10]) name before) := by
  cases fn <;> cases label <;> rfl

/-- A newline ends a line inside of a word. -/
theorem between_newline : (between ⟨.word, false, label, false⟩ token name before).char 10 =
    (.more, between ⟨.word, false, label, true⟩ (token.take (rtrimword before token)) name before) := by
  cases label <;> rfl

/-- A newline ends the line of a value that has not begun. -/
theorem between_empty : (between ⟨.eatws, false, false, false⟩ token name before).char 10 =
    (.more, between ⟨.word, false, false, true⟩ (token.take (rtrimword before token)) name before) := rfl

/-- An empty line ends the message. -/
theorem between_end : ∃ next, (between ⟨.word, false, label, true⟩ token name before).char 10 = (.done, next) ∧
    next.handler = [.request (token.takeWhile (· ≠ 0)), .end_ true] := by
  cases label <;> exact ⟨_, rfl, rfl⟩

/-- A letter after a line is a name without a label. -/
theorem between_unlabelled : ((between ⟨.word, false, label, true⟩ token name before).append
    [120, 10, 10]).2.handler = [.request (token.takeWhile (· ≠ 0)), .end_ false] := by
  cases label <;> rfl

/-- A message without a body takes up the buffer. -/
theorem append_message {parser next : Recorder} (hstate : parser.state ≠ .body) {buf : List UInt8}
    (hbuf : buf.length < 2 ^ 31) (hchars : parser.chars buf = (.done, [], next)) :
    parser.append buf = (0, next) := by
  have hheader : parser.header buf = ((buf.length : ℤ), next) := by
    rw [header, hchars]
    simp
  rw [append, if_neg hstate, loop, hheader, consume_all hbuf]

theorem trimmed_letter {c : UInt8} (hc : c = 120 ∨ c = 121) :
    (token ++ [c]).take (rtrimword before (token ++ [c])) = token ++ [c] := by
  have htrimmed : trimmed (token ++ [c]).reverse = (token ++ [c]).length := by
    rcases hc with rfl | rfl <;> simp [trimmed, isspace]
  have hall : rtrimword before (token ++ [c]) = (token ++ [c]).length := by
    rw [rtrimword, htrimmed]
    simp
  rw [hall, List.take_length]

/-- The bytes that are collected before a letter, and an empty line. -/
theorem between_word {words : NetWords} {front : List UInt8} {s : List UInt8}
    (hfront : (between words token name before).chars front =
      (.more, [], between ⟨fn, escape, label, false⟩ s name before))
    (hlen : front.length ≤ 1) {c : UInt8} (hc : c = 120 ∨ c = 121) :
    ((between words token name before).append (front ++ [c, 10, 10])).2.handler =
      [.request ((s ++ [c]).takeWhile (· ≠ 0)), .end_ true] := by
  obtain ⟨next, hend, hhandler⟩ := between_end label (s ++ [c]) name before
  have hchars : (between words token name before).chars (front ++ [c, 10, 10]) = (.done, [], next) := by
    rw [chars_more_append hfront]
    simp only [chars, between_letter fn escape label s name before hc, between_newline,
      trimmed_letter s before hc, hend]
  have hstate : (between words token name before).state ≠ .body := by simp [between]
  rw [append_message hstate (by simp; omega) hchars]
  exact hhandler

/-- A token with more before the letter is not the letter alone, for one of two letters. -/
theorem exists_letter {s : List UInt8} (hs : s ≠ []) :
    ∃ c : UInt8, (c = 120 ∨ c = 121) ∧ (s ++ [c]).takeWhile (· ≠ 0) ≠ [c] := by
  have hletter (c : UInt8) (hc : c ≠ 0) (hne : s.takeWhile (· ≠ 0) ≠ [c]) :
      (s ++ [c]).takeWhile (· ≠ 0) ≠ [c] := by
    have hone : [c].takeWhile (· ≠ 0) = [c] := by simp [hc]
    rw [List.takeWhile_append, hone]
    split
    next =>
      intro heq
      exact hs (List.append_left_eq_self.mp heq)
    next => exact hne
  by_cases hx : s.takeWhile (· ≠ 0) = [120]
  · exact ⟨121, .inr rfl, hletter 121 (by decide) (by rw [hx]; decide)⟩
  · exact ⟨120, .inl rfl, hletter 120 (by decide) hx⟩

/-- A lexer that is not fresh shows itself in the calls for one more buffer. -/
theorem exists_append_ne {words : NetWords} (hwords : words.Sound) (hne : ¬(words = .init ∧ token = [])) :
    ∃ buf, ((between words token name before).append buf).2.handler ≠
      ((between .init [] [] before).append buf).2.handler := by
  obtain ⟨fn, escape, label, newline⟩ := words
  -- A front that is collected here and skipped by a new lexer changes the request line.
  have hfront (front s : List UInt8) (fn' : NetFn) (escape' : Bool) (hs : s ≠ []) (hlen : front.length ≤ 1)
      (hchars : (between ⟨fn, escape, label, newline⟩ token name before).chars front =
        (.more, [], between ⟨fn', escape', label, false⟩ s name before))
      (hskip : (between .init [] [] before).chars front = (.more, [], between .init [] [] before)) :
      ∃ buf, ((between ⟨fn, escape, label, newline⟩ token name before).append buf).2.handler ≠
        ((between .init [] [] before).append buf).2.handler := by
    obtain ⟨c, hc, hne⟩ := exists_letter hs
    refine ⟨front ++ [c, 10, 10], ?_⟩
    have hletter : ([c] : List UInt8).takeWhile (· ≠ 0) = [c] := by
      rcases hc with rfl | rfl <;> rfl
    rw [between_word fn' escape' label token name before hchars hlen hc,
      between_word .eatws false true [] [] before hskip hlen hc, List.nil_append, hletter]
    intro heq
    exact hne (by simpa using heq)
  cases newline with
  | true =>
    obtain ⟨rfl, rfl⟩ := hwords rfl
    refine ⟨[120, 10, 10], ?_⟩
    have hnew : ((between .init [] [] before).append [120, 10, 10]).2.handler =
        [.request [120], .end_ true] := by
      have hskip : (between .init [] [] before).chars [] = (.more, [], between .init [] [] before) := rfl
      have hword := between_word .eatws false true [] [] before hskip (Nat.zero_le 1) (.inl (refl (120 : UInt8)))
      rwa [List.nil_append, List.nil_append] at hword
    rw [between_unlabelled, hnew]
    simp
  | false =>
    cases escape with
    | true =>
      apply hfront [10] (token ++ [10]) .word false (by simp) le_rfl
      · rw [chars, between_escaped]
        rfl
      · rfl
    | false =>
      cases fn with
      | word =>
        apply hfront [32] (token ++ [32]) .word false (by simp) le_rfl
        · rw [chars, between_blank]
          rfl
        · rfl
      | eatws =>
        cases label with
        | true => exact hfront [] token .eatws false (fun h => hne ⟨rfl, h⟩) (Nat.zero_le 1) rfl rfl
        | false =>
          obtain ⟨next, hend, hhandler⟩ := between_end false (token.take (rtrimword before token)) name before
          refine ⟨[10, 10], ?_⟩
          have hchars : (between ⟨.eatws, false, false, false⟩ token name before).chars [10, 10] =
              (.done, [], next) := by
            simp only [chars, between_empty, hend]
          have hstate : (between ⟨.eatws, false, false, false⟩ token name before).state ≠ .body := by simp [between]
          rw [append_message hstate (by decide) hchars, hhandler]
          have hnew : ((between .init [] [] before).append [10, 10]).2.handler = [] := rfl
          rw [hnew]
          exact List.cons_ne_nil _ _

end Between

/-! ## The parser after a message -/

section Reset

/-- A parser between two messages goes on as a new one exactly if its lexer is fresh. -/
theorem likeNew_iff {H : Type} [Handler H] {parser : HttpParser H} (h : parser.Settled)
    (hstate : parser.state = .request) : parser.LikeNew ↔ parser.lexer.Fresh := by
  have hcsize := h.csize hstate
  constructor
  · intro hnew
    by_contra hfresh
    have hsave := Lexer.start_save h.lexer
    have hwords : parser.lexer.start.words.Sound := parser.lexer.start_words' ▸ h.lexer.words
    have hne : ¬(parser.lexer.start.words = .init ∧ parser.lexer.start.token = []) := by
      rw [Lexer.start_words']
      exact fun hboth => hfresh ((Lexer.fresh_iff h.lexer).mpr hboth)
    obtain ⟨buf, hbuf⟩ := exists_append_ne parser.lexer.start.token parser.name parser.lexer.before hwords hne
    have hlexer : (between parser.lexer.start.words parser.lexer.start.token parser.name
        parser.lexer.before).lexer = parser.lexer.start := by
      have hwhat := parser.lexer.start_what
      have hbefore := parser.lexer.start_before
      generalize parser.lexer.start = next at hsave hwhat hbefore ⊢
      rw [between, ← hsave, ← hwhat, ← hbefore]
    have hbetween : Like (parser.withHandler ([] : List Event))
        (between parser.lexer.start.words parser.lexer.start.token parser.name parser.lexer.before) := by
      refine ⟨rfl, ?_, fun _ => rfl, hstate, hcsize⟩
      rw [hlexer]
      exact parser.lexer.start_start.symm
    have hone := (hnew (List Event) [] [.append buf]).2
    apply hbuf
    rw [← (hbetween.append buf).2.handler]
    exact hone
  · intro hfresh H' _ handler calls
    have hlike : Like (parser.withHandler handler) (create parser.lexer.before handler) := by
      refine ⟨rfl, ?_, ?_, hstate, hcsize⟩
      · exact hfresh
      · intro hvalue
        cases hstate.symm.trans hvalue
    have hperforms := hlike.performs calls
    exact ⟨hperforms.1, hperforms.2.handler⟩

end Reset

end HttpParser

end Aug.Net
