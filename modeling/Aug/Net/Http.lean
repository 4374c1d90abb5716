import Aug.Util.Lexer
import Aug.Util.Conv

/-!
# The HTTP parser

The functions of `http.c`. Header bytes go through the network lexer, whose flags drive the phase
of the parser; once a message with a content length has ended its header, bytes go to the handler
until the length is used up.
-/

namespace Aug.Net

open Aug.Lib Aug.Util

/-- `AUG_MAXLINE`. -/
def maxline : ℕ := 1024

/-- `aug_httphandler`. Each callback says whether it succeeded. The content comes as the rest of the
caller's buffer and a size. -/
class Handler (H : Type) where
  request : List UInt8 → H → Bool × H
  field : List UInt8 → List UInt8 → H → Bool × H
  csize : ℕ → H → Bool × H
  cdata : List UInt8 → ℕ → H → Bool × H
  end_ : Bool → H → Bool × H

/-- The phases of the parser. -/
inductive State
  | request
  | name
  | value
  | body
deriving DecidableEq, Repr

/-- `struct aug_httpparser_`. -/
structure HttpParser (H : Type) where
  handler : H
  lexer : Lexer NetWords
  name : List UInt8
  state : State
  csize : ℤ
deriving DecidableEq, Repr

/-- What one header byte led to. -/
inductive Verdict
  | fail
  | more
  | done
deriving DecidableEq, Repr

/-- `tolower`. -/
def tolower (b : UInt8) : UInt8 := if 65 ≤ b ∧ b ≤ 90 then b + 32 else b

/-- The test for the field that sets the content length: a letter of either case, then
`aug_strcasecmp` with `"ontent-Length"`. -/
def iscsize : List UInt8 → Bool
  | [] => false
  | c :: rest =>
    (c = 67 ∨ c = 99) ∧
      rest.map tolower = [111, 110, 116, 101, 110, 116, 45, 108, 101, 110, 103, 116, 104]

namespace HttpParser

variable {H : Type}

/-- `aug_createhttpparser`. -/
def create (before : UInt8) (handler : H) : HttpParser H :=
  { handler, lexer := .create before .init, name := [], state := .request, csize := 0 }

/-- `aug_lexertoken`, where the lexer has returned flags. -/
def token (parser : HttpParser H) : List UInt8 := parser.lexer.lexertoken.getD []

/-- Call the handler. -/
def call (f : H → Bool × H) (parser : HttpParser H) : Bool × HttpParser H :=
  let result := f parser.handler
  (result.1, { parser with handler := result.2 })

variable [Handler H]

/-- `request_`. -/
def request (parser : HttpParser H) : Bool × HttpParser H := parser.call (Handler.request parser.token)

/-- `name_`. -/
def setname (parser : HttpParser H) : HttpParser H := { parser with name := parser.token.take (maxline - 1) }

/-- `value_BIN_`. -/
def value (parser : HttpParser H) : Bool × HttpParser H :=
  if iscsize parser.name then
    match strtoui parser.token with
    | none => (false, parser)
    | some csize => { parser with csize := i32 csize }.call (Handler.csize csize)
  else parser.call (Handler.field parser.name parser.token)

/-- `end_`. -/
def end_ (commit : Bool) (parser : HttpParser H) : Bool × HttpParser H :=
  { parser with state := .request, csize := 0 }.call (Handler.end_ commit)

/-- `phrase_`. -/
def phrase (parser : HttpParser H) : Bool × HttpParser H :=
  if parser.csize ≠ 0 then (true, { parser with state := .body }) else parser.end_ true

/-- `label_`. -/
def label (parser : HttpParser H) : Bool × HttpParser H :=
  if parser.state = .request then (false, parser) else (true, { parser.setname with state := .value })

/-- `word_BIN_`. -/
def word (parser : HttpParser H) : Bool × HttpParser H :=
  match parser.state with
  | .request =>
    let result := parser.request
    if result.1 then (true, { result.2 with state := .name }) else result
  | .name => (false, parser)
  | .value =>
    let result := parser.value
    if result.1 then (true, { result.2 with state := .name }) else result
  | .body => (false, parser)

/-- The verdict on a step of the header. -/
def verdict (next : Verdict) (result : Bool × HttpParser H) : Verdict × HttpParser H :=
  (if result.1 then next else .fail, result.2)

/-- The `switch` of `header_BIN_` on the flags of the lexer. -/
def switch (parser : HttpParser H) : Verdict × HttpParser H :=
  match parser.lexer.what with
  | { label := true, word := false, phrase := false } => verdict .more parser.label
  | { label := false, word := true, phrase := false } => verdict .more parser.word
  | { label := false, word := true, phrase := true } =>
    let result := parser.word
    if result.1 then verdict .done result.2.phrase else (.fail, result.2)
  | { label := false, word := false, phrase := true } => verdict .done parser.phrase
  | _ => (.more, parser)

/-- One more byte of the header. -/
def char (b : UInt8) (parser : HttpParser H) : Verdict × HttpParser H :=
  { parser with lexer := parser.lexer.append b }.switch

/-- The loop of `header_BIN_`, which leaves the bytes it has not read. -/
def chars (parser : HttpParser H) : List UInt8 → Verdict × List UInt8 × HttpParser H
  | [] => (.more, [], parser)
  | b :: buf =>
    match parser.char b with
    | (.more, parser) => parser.chars buf
    | (verdict, parser) => (verdict, buf, parser)

/-- `header_BIN_`. -/
def header (parser : HttpParser H) (buf : List UInt8) : ℤ × HttpParser H :=
  let (verdict, rest, parser) := parser.chars buf
  (if verdict = .fail then -1 else buf.length - rest.length, parser)

/-- `body_`. -/
def body (parser : HttpParser H) (buf : List UInt8) : ℤ × HttpParser H :=
  if i32 buf.length < parser.csize then
    let result := { parser with csize := i32 (parser.csize - buf.length) }.call
      (Handler.cdata buf buf.length)
    (if result.1 then buf.length else -1, result.2)
  else
    let size := u32 parser.csize
    let result := if size = 0 then (true, parser) else parser.call (Handler.cdata buf size)
    if result.1 then
      let result := result.2.end_ true
      (if result.1 then size else -1, result.2)
    else (-1, result.2)

/-- What `aug_appendhttp_BIN` does with the result of either part: stop on a failure, which is not
committed, return at the end of the buffer, and go on after the consumed bytes otherwise. -/
def consume (result : ℤ × HttpParser H) (buf : List UInt8)
    (next : HttpParser H → List UInt8 → ℤ × HttpParser H) : ℤ × HttpParser H :=
  let size := i32 result.1
  if size < 0 then (size, (result.2.end_ false).2)
  else if size = buf.length then (0, result.2)
  else next result.2 (buf.drop size.toNat)

/-- The loop of `aug_appendhttp_BIN`. Each round consumes a header byte, so that rounds for one more
than the bytes of the buffer are enough. -/
def loop : ℕ → HttpParser H → List UInt8 → ℤ × HttpParser H
  | 0, parser, _ => (-1, parser)
  | rounds + 1, parser, buf =>
    consume (parser.header buf) buf fun parser buf => consume (parser.body buf) buf (loop rounds)

/-- `aug_appendhttp_BIN`. -/
def append (parser : HttpParser H) (buf : List UInt8) : ℤ × HttpParser H :=
  if parser.state = .body then consume (parser.body buf) buf (loop (buf.length + 1))
  else loop (buf.length + 1) parser buf

/-- Successive calls of `aug_appendhttp_BIN`, up to the first that fails. -/
def appends (parser : HttpParser H) : List (List UInt8) → ℤ × HttpParser H
  | [] => (0, parser)
  | buf :: bufs =>
    let result := parser.append buf
    if result.1 < 0 then result else result.2.appends bufs

/-- `aug_finishhttp_BIN`, which reads a newline. A message that is not over is not committed, but only a
step that fails is returned as an error. -/
def finish (parser : HttpParser H) : ℤ × HttpParser H :=
  match ({ parser with lexer := parser.lexer.finish } : HttpParser H).switch with
  | (.fail, parser) => (-1, (parser.end_ false).2)
  | (_, parser) => if parser.state = .request then (0, parser) else (0, (parser.end_ false).2)

end HttpParser

/-! ## Recorded callbacks -/

/-- A call of the handler. -/
inductive Event
  | request (line : List UInt8)
  | field (name value : List UInt8)
  | csize (size : ℕ)
  | cdata (buf : List UInt8) (size : ℕ)
  | end_ (commit : Bool)
deriving DecidableEq, Repr

/-- The handler that records its calls and always succeeds. -/
instance : Handler (List Event) where
  request line trace := (true, trace ++ [.request line])
  field name value trace := (true, trace ++ [.field name value])
  csize size trace := (true, trace ++ [.csize size])
  cdata buf size trace := (true, trace ++ [.cdata buf size])
  end_ commit trace := (true, trace ++ [.end_ commit])

end Aug.Net
