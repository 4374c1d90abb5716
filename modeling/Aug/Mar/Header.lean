import Aug.Mar.Format

/-!
# Header operations

The functions of `header_.c`. Fields are found by walking the header from its start, either a
number of fields or up to the first name that matches. A walk that leaves the sequence is
undefined.
-/

namespace Aug.Mar

open Aug.Lib

/-- `nsize_`. -/
def nsizeAt (mem : List UInt8) (field : ℕ) : Option ℕ := decodeBE 2 mem (field + nsizeoff)

/-- `vsize_`. -/
def vsizeAt (mem : List UInt8) (field : ℕ) : Option ℕ := decodeBE 2 mem (field + vsizeoff)

/-- `fieldsize_`. -/
def fieldsizeAt (mem : List UInt8) (field : ℕ) : Option ℕ := do
  let nsize ← nsizeAt mem field
  let vsize ← vsizeAt mem field
  pure (fieldsize nsize vsize)

/-- The walk of `offsetn_`: the pointer after `n` fields. -/
def walkn (mem : List UInt8) (ptr : ℕ) : ℕ → Option ℕ
  | 0 => some ptr
  | n + 1 => do
    let size ← fieldsizeAt mem ptr
    walkn mem (ptr + size) n

/-- `offsetn_`. -/
def offsetn (mem : List UInt8) (start n : ℕ) : Option ℕ := do
  let ptr ← walkn mem start n
  pure (u32 (ptr - start))

/-- The walk of `offsetp_`, at field `n` with `left` fields to go: the pointer where it stops
and the matching ordinal, or `fields` without a match. -/
def walkp (mem : List UInt8) (name : CStr) (fields : ℕ) : ℕ → ℕ → ℕ → Option (ℕ × ℕ)
  | 0, _, ptr => some (ptr, fields)
  | left + 1, n, ptr => do
    let nsize ← nsizeAt mem ptr
    let cmp ← strncasecmp nsize name.bytes (mem.drop (ptr + nameoff))
    if cmp = 0 then pure (ptr, n)
    else do
      let size ← fieldsizeAt mem ptr
      walkp mem name fields left (n + 1) (ptr + size)

/-- `offsetp_`: the offset and the ordinal it leaves in its last parameter. -/
def offsetp (mem : List UInt8) (start : ℕ) (name : CStr) (fields : ℕ) : Option (ℕ × ℕ) := do
  let (ptr, n) ← walkp mem name fields fields 0 start
  pure (u32 (ptr - start), n)

/-- The size of the field that `aug_putfieldp_BIN_` replaces; a new field has an original size of
zero. -/
def origsize (mem : List UInt8) (field inout fields : ℕ) : Option ℕ :=
  if inout = fields then some 0 else fieldsizeAt mem field

variable {σ : Type} [SeqImpl σ]

/-- Select the whole header and read its memory, as every function here does first. -/
def openheader : Call (Archive σ) Failure (ℕ × List UInt8) := do
  let mar ← Call.read
  Archive.onSeq (setregion leadersize mar.info.hsize)
  let ptr ← Archive.onSeq seqaddr
  let mem ← Archive.onSeq memory
  pure (ptr, mem)

/-- `aug_clearfields_BIN_`. -/
def clearfields (env : SeqImpl.Env σ) : Call (Archive σ) Failure ℤ := do
  let mar ← Call.read
  let info := mar.info
  Archive.onSeq (setregion leadersize info.hsize)
  let _ ← Archive.onSeq (resizeseq env 0)
  Archive.setInfo { info with fields := 0, hsize := 0 }
  pure (i32 info.fields)

/-- `aug_delfieldn_BIN_`. -/
def delfieldn (env : SeqImpl.Env σ) (n : ℕ) : Call (Archive σ) Failure Unit := do
  let mar ← Call.read
  let info := mar.info
  if info.fields ≤ n then Call.fail .exnone
  else do
    let (ptr, mem) ← openheader
    let offset ← Call.access (offsetn mem ptr n)
    let orig ← Call.access (fieldsizeAt mem (ptr + offset))
    Archive.onSeq (setregion (u32 (leadersize + offset)) orig)
    let _ ← Archive.onSeq (resizeseq env 0)
    Archive.setInfo { info with fields := u32 (info.fields - 1), hsize := u32 (info.hsize - orig) }

/-- `aug_delfieldp_BIN_`. -/
def delfieldp (env : SeqImpl.Env σ) (name : CStr) : Call (Archive σ) Failure ℤ := do
  let mar ← Call.read
  let info := mar.info
  let (ptr, mem) ← openheader
  let (offset, inout) ← Call.access (offsetp mem ptr name info.fields)
  if inout = info.fields then Call.fail .exnone
  else do
    let orig ← Call.access (fieldsizeAt mem (ptr + offset))
    Archive.onSeq (setregion (u32 (leadersize + offset)) orig)
    let _ ← Archive.onSeq (resizeseq env 0)
    Archive.setInfo { info with fields := u32 (info.fields - 1), hsize := u32 (info.hsize - orig) }
    pure (i32 inout)

/-- `aug_getfieldn_`: the value pointer and the size without the terminator. -/
def getfieldn (n : ℕ) : Call (Archive σ) Failure (Option ℕ × ℤ) := do
  let mar ← Call.read
  if mar.info.fields ≤ n then pure (none, 0)
  else do
    let (ptr, mem) ← openheader
    let offset ← Call.access (offsetn mem ptr n)
    let nsize ← Call.access (nsizeAt mem (ptr + offset))
    let vsize ← Call.access (vsizeAt mem (ptr + offset))
    pure (some (ptr + offset + valueoff nsize), vsize - 1)

/-- `aug_getfieldp_`. -/
def getfieldp (name : CStr) : Call (Archive σ) Failure (Option ℕ × ℤ) := do
  let mar ← Call.read
  let (ptr, mem) ← openheader
  let (offset, inout) ← Call.access (offsetp mem ptr name mar.info.fields)
  if inout = mar.info.fields then pure (none, 0)
  else do
    let nsize ← Call.access (nsizeAt mem (ptr + offset))
    let vsize ← Call.access (vsizeAt mem (ptr + offset))
    pure (some (ptr + offset + valueoff nsize), vsize - 1)

/-- The result of `aug_getfield_` (`struct aug_field`, with pointers into the sequence). -/
structure FieldPtr where
  name : Option ℕ
  value : Option ℕ
  size : ℕ
deriving DecidableEq, Repr

/-- `aug_getfield_`. -/
def getfield (n : ℕ) : Call (Archive σ) Failure FieldPtr := do
  let mar ← Call.read
  if mar.info.fields ≤ n then pure { name := none, value := none, size := 0 }
  else do
    let (ptr, mem) ← openheader
    let offset ← Call.access (offsetn mem ptr n)
    let nsize ← Call.access (nsizeAt mem (ptr + offset))
    let vsize ← Call.access (vsizeAt mem (ptr + offset))
    pure { name := some (ptr + offset + nameoff)
           value := some (ptr + offset + valueoff nsize)
           size := u32 (vsize - 1) }

/-- `aug_putfieldn_BIN_`. -/
def putfieldn (env : SeqImpl.Env σ) (n : ℕ) (value : List UInt8) : Call (Archive σ) Failure Unit := do
  let mar ← Call.read
  let info := mar.info
  let size := value.length
  if info.fields ≤ n then Call.fail .exnone
  else do
    let vsize := u32 (size + 1)
    if maxvsize < vsize then Call.fail (.elimit "maximum field-value size exceeded")
    else do
      let (ptr, mem) ← openheader
      let offset ← Call.access (offsetn mem ptr n)
      let nsize ← Call.access (nsizeAt mem (ptr + offset))
      let orig ← Call.access (vsizeAt mem (ptr + offset))
      Archive.onSeq (setregion (u32 (leadersize + offset)) (fieldsize nsize orig))
      let ptr ← Archive.onSeq (resizeseq env (fieldsize nsize vsize))
      Archive.onSeq (poke (ptr + vsizeoff) (encodeBE 2 vsize))
      Archive.onSeq (poke (ptr + valueoff nsize) value)
      Archive.onSeq (poke (ptr + valueoff nsize + size) [0])
      Archive.setInfo { info with hsize := u32 (info.hsize + (vsize - orig)) }

/-- `aug_putfieldp_BIN_`; the name pointer may be null. -/
def putfieldp (env : SeqImpl.Env σ) (name : Option CStr) (value : List UInt8) :
    Call (Archive σ) Failure ℤ := do
  let mar ← Call.read
  let info := mar.info
  let size := value.length
  match name with
  | none => Call.fail (.enull "null field name")
  | some name => do
    let nsize := u32 (name.chars.length + 1)
    let vsize := u32 (size + 1)
    if maxnsize < nsize then Call.fail (.elimit "maximum field-name size exceeded")
    else if maxvsize < vsize then Call.fail (.elimit "maximum field-value size exceeded")
    else do
      let fsize := fieldsize nsize vsize
      let (ptr, mem) ← openheader
      let (offset, inout) ← Call.access (offsetp mem ptr name info.fields)
      let orig ← Call.access (origsize mem (ptr + offset) inout info.fields)
      Archive.onSeq (setregion (u32 (leadersize + offset)) orig)
      let ptr ← Archive.onSeq (resizeseq env fsize)
      Archive.onSeq (poke (ptr + nsizeoff) (encodeBE 2 nsize))
      Archive.onSeq (poke (ptr + nameoff) (name.bytes.take nsize))
      Archive.onSeq (poke (ptr + vsizeoff) (encodeBE 2 vsize))
      Archive.onSeq (poke (ptr + valueoff nsize) value)
      Archive.onSeq (poke (ptr + valueoff nsize + size) [0])
      Archive.setInfo { info with
        fields := if inout = info.fields then u32 (info.fields + 1) else info.fields
        hsize := u32 (info.hsize + (fsize - orig)) }
      pure (i32 inout)

/-- `aug_fieldntop_`: a pointer to the name. -/
def fieldntop (n : ℕ) : Call (Archive σ) Failure ℕ := do
  let mar ← Call.read
  if mar.info.fields ≤ n then Call.fail .exnone
  else do
    let (ptr, mem) ← openheader
    let offset ← Call.access (offsetn mem ptr n)
    pure (ptr + offset + nameoff)

/-- `aug_fieldpton_`. -/
def fieldpton (name : CStr) : Call (Archive σ) Failure ℤ := do
  let mar ← Call.read
  let (ptr, mem) ← openheader
  let (_, inout) ← Call.access (offsetp mem ptr name mar.info.fields)
  if inout = mar.info.fields then Call.fail .exnone
  else pure (i32 inout)

end Aug.Mar
