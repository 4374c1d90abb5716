import Aug.Mar.Archive
import Aug.Net.Http
import Mathlib.Data.List.TakeWhile

/-!
# The archive parser

The handler of `mar.c`, which makes an archive of each HTTP message, and the parser it drives. The answers
of the store and of the pool are given from the outside, one for each callback. What is asked of the store
is recorded with the calls of the client between which it happens.
-/

namespace Aug.Net

open Aug.Lib Aug.Mar

/-- The answers during one callback: whether there is memory for the request line and for its characters, the
archive that `aug_getmar` returns unless it is null, the pool of the archive, and the result of `aug_putmar`. -/
structure Answer where
  created : Bool
  copied : Bool
  mar : Option (Archive MemSeq)
  mpool : MPool
  put : Bool

/-- A call of the store or the release of an archive, and where the calls of the client begin, return, and give
up a message. -/
inductive StoreCall
  | append
  | finish
  | get (request : List UInt8)
  | size (csize : ℕ)
  | put (request : List UInt8) (mar : Option (Archive MemSeq))
  | cut
  | release
  | return_ (result : ℤ)

/-- The fields of `struct aug_marparser_` that the callbacks use, the answers to come, and the calls made. -/
structure MarHandler where
  answers : ℕ → Answer
  count : ℕ
  request : Option (List UInt8)
  mar : Option (Archive MemSeq)
  calls : List StoreCall
  asserted : Bool
  undefined : Bool

namespace MarHandler

/-- The answers for this callback. -/
def answer (handler : MarHandler) : Answer := handler.answers handler.count

/-- Go on to the answers for the next callback. -/
def next (handler : MarHandler) : MarHandler := { handler with count := handler.count + 1 }

/-- Record a call. -/
def record (call : StoreCall) (handler : MarHandler) : MarHandler :=
  { handler with calls := handler.calls ++ [call] }

/-- A string up to its terminator. -/
def cstring (chars : List UInt8) : CStr := ⟨chars.takeWhile (· ≠ 0), by
  intro h
  simpa using List.mem_takeWhile_imp h⟩

/-- Call the archive. The two assertions fail if there is no message. -/
def call (op : Op) (handler : MarHandler) : Bool × MarHandler :=
  match handler.request, handler.mar with
  | some _, some mar =>
    match op.call handler.answer.mpool mar with
    | some (.ok _, mar) => (true, { handler with mar := some mar })
    | some (.error _, mar) => (false, { handler with mar := some mar })
    | none => (false, { handler with undefined := true })
  | _, _ => (false, { handler with asserted := true })

/-- `request_`. The result of the copy is not looked at. -/
def open_ (line : List UInt8) (handler : MarHandler) : Bool × MarHandler :=
  if handler.request.isSome ∨ handler.mar.isSome then (false, { handler with asserted := true })
  else if !handler.answer.created then (false, handler.next)
  else
    match handler.answer.mar with
    | none => (false, handler.next)
    | some mar =>
      (true, { handler.next.record (.get line) with
        request := some (if handler.answer.copied then line else [])
        mar := some mar })

/-- `field_BIN_`. -/
def field (name value : List UInt8) (handler : MarHandler) : Bool × MarHandler :=
  let result := handler.call (.put (some (cstring name)) (cstring value).chars)
  (result.1, result.2.next)

/-- `csize_BIN_`. -/
def csize (size : ℕ) (handler : MarHandler) : Bool × MarHandler :=
  let result := (handler.record (.size size)).call (.truncate size)
  if result.1 then
    let result := result.2.call (.seek 0 0)
    (result.1, result.2.next)
  else (false, result.2.next)

/-- `cdata_BIN_`. -/
def cdata (buf : List UInt8) (size : ℕ) (handler : MarHandler) : Bool × MarHandler :=
  let result := handler.call (.write (buf.take size))
  (result.1, result.2.next)

/-- The release of the request line and of the archive. -/
def close (handler : MarHandler) : MarHandler :=
  if handler.mar.isSome then { handler.record .release with request := none, mar := none }
  else { handler with request := none }

/-- `end_`. -/
def end_ (commit : Bool) (handler : MarHandler) : Bool × MarHandler :=
  if commit then
    match handler.request with
    | none => (true, handler.next)
    | some request => (handler.answer.put, (handler.record (.put request handler.mar)).close.next)
  else (true, (handler.record .cut).close.next)

end MarHandler

instance : Handler MarHandler where
  request := MarHandler.open_
  field := MarHandler.field
  csize := MarHandler.csize
  cdata := MarHandler.cdata
  end_ := MarHandler.end_

/-- `struct aug_marparser_`. -/
abbrev MarParser := HttpParser MarHandler

namespace MarParser

/-- `aug_createmarparser`. -/
def create (before : UInt8) (answers : ℕ → Answer) : MarParser :=
  HttpParser.create before
    { answers, count := 0, request := none, mar := none, calls := [], asserted := false, undefined := false }

/-- Record the beginning or the return of a call of the client. -/
def mark (call : StoreCall) (parser : MarParser) : MarParser :=
  { parser with handler := parser.handler.record call }

/-- `aug_appendmar`. -/
def append (parser : MarParser) (buf : List UInt8) : ℤ × MarParser :=
  let result := HttpParser.append (parser.mark .append) buf
  (result.1, mark (.return_ result.1) result.2)

/-- `aug_finishmar`. -/
def finish (parser : MarParser) : ℤ × MarParser :=
  let result := HttpParser.finish (parser.mark .finish)
  (result.1, mark (.return_ result.1) result.2)

/-- The release of the archive by `aug_destroymarparser`. -/
def destroy (parser : MarParser) : MarHandler := parser.handler.close

end MarParser

/-- A call of the client. -/
inductive MarAction
  | append (buf : List UInt8)
  | finish

/-- One call. -/
def MarParser.step (parser : MarParser) : MarAction → Option MarParser
  | .append buf => some (parser.append buf).2
  | .finish => some parser.finish.2

end Aug.Net
