import Aug.Lib.KeyedList
import Aug.Lib.ZeroFill
import Aug.Mar.Archive

/-!
# The reference archive

What an archive is for, without its encoding: an ordered list of named values, unique up to the
case of the names, and an independent body that is read and written like a file at a position.
A position may lie past the end of the body; a write or truncation there fills the gap with
zeros.
-/

namespace Aug.Mar

open Aug.Lib

/-- A name without its case. -/
def CStr.fold (s : CStr) : List UInt8 := s.chars.map tolower

/-- A named value. -/
structure Field where
  name : CStr
  value : List UInt8
deriving DecidableEq

/-- Fields are identified by their names up to case. -/
def Field.key (field : Field) : List UInt8 := field.name.fold

/-- The encoded size of a field. -/
def Field.size (field : Field) : ℕ :=
  fieldsize (field.name.chars.length + 1) (field.value.length + 1)

/-- The abstract archive. -/
structure Reference where
  fields : KeyedList Field.key
  body : List UInt8
  pos : ℕ

namespace Reference

/-- A new archive. -/
def new : Reference := { fields := .empty, body := [], pos := 0 }

/-- The size of the encoded fields. -/
def hsize (ref : Reference) : ℕ := (ref.fields.entries.map Field.size).sum

/-- The size of the whole encoding. -/
def size (ref : Reference) : ℕ := leadersize + ref.hsize + ref.body.length

/-- The position a seek asks for, unless its origin is unknown. -/
def target (ref : Reference) (offset whence : ℤ) : Option ℤ :=
  if whence = 0 then some offset
  else if whence = 1 then some (ref.pos + offset)
  else if whence = 2 then some (ref.body.length + offset)
  else none

/-- Replace the value of the field at an ordinal. -/
def setValue (ref : Reference) (n : ℕ) (value : List UInt8) : Reference :=
  { ref with fields := ref.fields.update n (fun field => { field with value }) fun _ => rfl }

/-- The reference result of one call and the archive it leaves. -/
def step (ref : Reference) : Op → Except Failure Result × Reference
  | .clear => (.ok (.int ref.fields.entries.length), { ref with fields := .empty })
  | .deln n =>
    if n < ref.fields.entries.length then
      (.ok (.int 0), { ref with fields := ref.fields.erase n })
    else (.error .exnone, ref)
  | .delp name =>
    let n := ref.fields.ordinal name.fold
    if n < ref.fields.entries.length then
      (.ok (.int n), { ref with fields := ref.fields.erase n })
    else (.error .exnone, ref)
  | .getn n =>
    match ref.fields.entries[n]? with
    | some field => (.ok (.value (some field.value) field.value.length), ref)
    | none => (.ok (.value none 0), ref)
  | .getp name =>
    match ref.fields.entries[ref.fields.ordinal name.fold]? with
    | some field => (.ok (.value (some field.value) field.value.length), ref)
    | none => (.ok (.value none 0), ref)
  | .get n =>
    match ref.fields.entries[n]? with
    | some field => (.ok (.field (some field.name.chars) (some field.value) field.value.length), ref)
    | none => (.ok (.field none none 0), ref)
  | .putn n value =>
    if ref.fields.entries.length ≤ n then (.error .exnone, ref)
    else if maxvsize < value.length + 1 then
      (.error (.elimit "maximum field-value size exceeded"), ref)
    else (.ok (.int 0), ref.setValue n value)
  | .putp none _ | .put none _ => (.error (.enull "null field name"), ref)
  | .putp (some name) value | .put (some name) value =>
    if maxnsize < name.chars.length + 1 then
      (.error (.elimit "maximum field-name size exceeded"), ref)
    else if maxvsize < value.length + 1 then
      (.error (.elimit "maximum field-value size exceeded"), ref)
    else (.ok (.int (ref.fields.ordinal name.fold)),
      { ref with fields := ref.fields.put { name, value } })
  | .ntop n =>
    match ref.fields.entries[n]? with
    | some field => (.ok (.name field.name.chars), ref)
    | none => (.error .exnone, ref)
  | .pton name =>
    let n := ref.fields.ordinal name.fold
    if n < ref.fields.entries.length then (.ok (.int n), ref) else (.error .exnone, ref)
  | .seek offset whence =>
    match ref.target offset whence with
    | none => (.error (.einval ("invalid whence value [" ++ toString whence ++ "]")), ref)
    | some pos =>
      if pos < 0 then
        (.error (.erange ("negative file position [" ++ toString (i32 pos) ++ "]")), ref)
      else (.ok (.int pos), { ref with pos := pos.toNat })
  | .setcontent data => (.ok (.int 0), { ref with body := data })
  | .truncate size => (.ok (.int 0), { ref with body := resizeTo 0 ref.body size })
  | .write buf =>
    (.ok (.int buf.length), { ref with
      body := overwrite 0 ref.body ref.pos buf
      pos := ref.pos + buf.length })
  | .read len =>
    let bytes := readFrom ref.body ref.pos len
    (.ok (.bytes bytes), { ref with pos := ref.pos + bytes.length })

/-- The results of a sequence of calls and the archive they leave. -/
def run (ref : Reference) : List Op → List (Except Failure Result) × Reference
  | [] => ([], ref)
  | op :: ops =>
    let next := ref.step op
    let rest := next.2.run ops
    (next.1 :: rest.1, rest.2)

end Reference

/-- The arguments of a call fit the C types of its parameters. -/
def Op.Typed : Op → Prop
  | .putn _ value => value.length + 1 < 2 ^ 32
  | .putp name value | .put name value =>
    value.length + 1 < 2 ^ 32 ∧ ∀ s ∈ name, s.chars.length + 1 < 2 ^ 32
  | .seek offset _ => -2 ^ 63 ≤ offset ∧ offset < 2 ^ 63
  | .setcontent data => data.length < 2 ^ 32
  | .truncate size => size < 2 ^ 32
  | .write buf => buf.length < 2 ^ 32
  | _ => True

instance : DecidablePred Op.Typed
  | .putn _ _ | .setcontent _ | .truncate _ | .write _ => inferInstanceAs (Decidable (_ < _))
  | .putp _ _ | .put _ _ | .seek _ _ => inferInstanceAs (Decidable (_ ∧ _))
  | .clear | .deln _ | .delp _ | .getn _ | .getp _ | .get _ | .ntop _ | .pton _ | .read _ =>
    inferInstanceAs (Decidable True)

/-- A seek asks for a position that an `unsigned` holds. -/
def Op.SeekFits (ref : Reference) : Op → Prop
  | .seek offset whence => ∀ pos ∈ ref.target offset whence, pos < 2 ^ 32
  | _ => True

instance (ref : Reference) : DecidablePred (Op.SeekFits ref)
  | .seek offset whence => inferInstanceAs (Decidable (∀ pos ∈ ref.target offset whence, _))
  | .clear | .deln _ | .delp _ | .getn _ | .getp _ | .get _ | .putn _ _ | .putp _ _ | .put _ _
  | .ntop _ | .pton _ | .setcontent _ | .truncate _ | .write _ | .read _ => inferInstanceAs (Decidable True)

/-- Every call of a sequence is well typed and keeps the total size below `2 ^ 31`. -/
def Reference.Admits (ref : Reference) : List Op → Prop
  | [] => True
  | op :: ops => op.Typed ∧ (ref.step op).2.size < 2 ^ 31 ∧ (ref.step op).2.Admits ops

/-- Every seek of a sequence asks for a position that an `unsigned` holds. -/
def Reference.SeeksFit (ref : Reference) : List Op → Prop
  | [] => True
  | op :: ops => op.SeekFits ref ∧ (ref.step op).2.SeeksFit ops

instance Reference.decidableAdmits : (ref : Reference) → DecidablePred ref.Admits
  | _, [] => inferInstanceAs (Decidable True)
  | ref, op :: ops =>
    have := (ref.step op).2.decidableAdmits ops
    inferInstanceAs (Decidable (_ ∧ _ ∧ _))

instance Reference.decidableSeeksFit : (ref : Reference) → DecidablePred ref.SeeksFit
  | _, [] => inferInstanceAs (Decidable True)
  | ref, op :: ops =>
    have := (ref.step op).2.decidableSeeksFit ops
    inferInstanceAs (Decidable (_ ∧ _))

/-- The calls that work on the header. -/
def Op.isHeader : Op → Bool
  | .clear | .deln _ | .delp _ | .getn _ | .getp _ | .get _ | .putn _ _ | .putp _ _ | .put _ _
  | .ntop _ | .pton _ => true
  | .seek _ _ | .setcontent _ | .truncate _ | .write _ | .read _ => false

end Aug.Mar
