import Aug.Mar.Format

/-!
# Body operations

The functions of `body_.c`. Every change of the body size goes through one resize of the
body's region, which zeroes what it adds.
-/

namespace Aug.Mar

open Aug.Lib

variable {σ : Type} [SeqImpl σ]

/-- `resize_BIN_`: a pointer to the body, resized unless it has the size already or is longer
and must not be truncated. -/
def resizebody (env : SeqImpl.Env σ) (bsize : ℕ) (trunc : Bool) : Call (Archive σ) Failure ℕ := do
  let mar ← Call.read
  let info := mar.info
  Archive.onSeq (setregion (u32 (bodyoff info.hsize)) info.bsize)
  if info.bsize = bsize ∨ (bsize < info.bsize ∧ trunc = false) then Archive.onSeq seqaddr
  else do
    let addr ← Archive.onSeq (resizeseq env bsize)
    if info.bsize < bsize then
      Archive.onSeq (poke (addr + info.bsize) (List.replicate (bsize - info.bsize) 0))
    else pure ()
    Archive.setInfo { info with bsize := bsize }
    pure addr

/-- `aug_setcontent_BIN_`. -/
def setcontent (env : SeqImpl.Env σ) (data : List UInt8) : Call (Archive σ) Failure Unit := do
  let addr ← resizebody env data.length true
  Archive.onSeq (poke addr data)

/-- `aug_truncate_BIN_`. -/
def truncate (env : SeqImpl.Env σ) (size : ℕ) : Call (Archive σ) Failure Unit := do
  let _ ← resizebody env size true
  pure ()

/-- `aug_write_BIN_`. -/
def writebody (env : SeqImpl.Env σ) (offset : ℕ) (buf : List UInt8) : Call (Archive σ) Failure ℤ := do
  let addr ← resizebody env (u32 (offset + buf.length)) false
  Archive.onSeq (poke (addr + offset) buf)
  pure buf.length

/-- `aug_getcontent_`. -/
def getcontent : Call (Archive σ) Failure ℕ := do
  let mar ← Call.read
  Archive.onSeq (setregion (u32 (bodyoff mar.info.hsize)) mar.info.bsize)
  Archive.onSeq seqaddr

/-- `aug_read_`: the bytes copied to the buffer; their number is the result. -/
def readbody (offset len : ℕ) : Call (Archive σ) Failure (List UInt8) := do
  let mar ← Call.read
  let bsize := mar.info.bsize
  if len = 0 ∨ bsize ≤ offset then pure []
  else do
    let addr ← getcontent
    let mem ← Archive.onSeq memory
    Call.access (load mem (addr + offset) (min len (bsize - offset)))

end Aug.Mar
