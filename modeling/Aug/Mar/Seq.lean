import Aug.Lib.Call
import Aug.Lib.Machine
import Aug.Lib.Memory

/-!
# Sequences and their memory back end

An archive lies in one byte sequence, reached through a table of operations. A region
(offset and length) is set before each resize; the bytes behind the region, the tail, keep
their place at the end of the sequence. Pointers are indices from the back end's base address.

Sizes are `unsigned`: sums and differences are taken in `ℤ` and converted where the source
stores or passes them.
-/

namespace Aug.Mar

open Aug.Lib

/-- What a failing function leaves in the error information. -/
inductive Failure
  /-- `aug_setexcept(AUG_EXNONE)`: there is no such item. -/
  | exnone
  /-- `aug_setctxerror` with an error of the library and its text. -/
  | elimit (desc : String)
  | enull (desc : String)
  | einval (desc : String)
  | erange (desc : String)
  | eperm (desc : String)
  /-- A null address or failed system call, recorded by nobody in this library. -/
  | system
deriving DecidableEq, Repr

/-- The operations of a back end (`struct impl_`). The environment `Env` of a resize is what the
allocator or the operating system answers during that call. -/
class SeqImpl (σ : Type) where
  Env : Type
  /-- Resize to the first size, keeping the last bytes (the second) at the end. -/
  resize : Env → ℕ → ℕ → Call σ Failure Unit
  /-- The memory that may be accessed from the base address, unless that address is null. -/
  addr : σ → Option (List UInt8)
  /-- Write through a pointer. -/
  poke : ℕ → List UInt8 → σ → Option σ
  size : σ → ℕ

/-- A sequence: a back end and the current region (`struct aug_seq_`). -/
structure Seq (σ : Type) where
  impl : σ
  offset : ℕ
  len : ℕ
deriving DecidableEq, Repr

variable {σ : Type} [SeqImpl σ]

/-- Run an operation of the back end. -/
def Seq.onImpl {α : Type} (x : Call σ Failure α) : Call (Seq σ) Failure α :=
  Call.zoom Seq.impl (fun impl seq => { seq with impl }) x

/-- `aug_resizeseq_BIN_`: resize the region and return a pointer to it. -/
def resizeseq (env : SeqImpl.Env σ) (size : ℕ) : Call (Seq σ) Failure ℕ := do
  let seq ← Call.read
  let total := SeqImpl.size seq.impl
  let tail := u32 (total - (seq.offset + seq.len))
  Seq.onImpl (SeqImpl.resize env (u32 (total + (size - seq.len))) tail)
  Call.modify fun seq => { seq with len := size }
  pure seq.offset

/-- `aug_setregion_`. -/
def setregion (offset len : ℕ) : Call (Seq σ) Failure Unit := do
  let seq ← Call.read
  let total := SeqImpl.size seq.impl
  if total < u32 (offset + len) then
    Call.fail (.erange ("sequence overrun by " ++
      toString (i32 (u32 (offset + len) - total)) ++ " bytes"))
  else Call.modify fun seq => { seq with offset, len }

/-- `aug_seqaddr_`: a pointer to the region. A null base address is null only at offset zero. -/
def seqaddr : Call (Seq σ) Failure ℕ := do
  let seq ← Call.read
  if SeqImpl.addr seq.impl = none ∧ seq.offset = 0 then Call.fail .system
  else pure seq.offset

/-- The memory behind a pointer of the sequence; a null base address may not be read. -/
def memory : Call (Seq σ) Failure (List UInt8) := do
  let seq ← Call.read
  Call.access (SeqImpl.addr seq.impl)

/-- Write bytes at a pointer of the sequence. -/
def poke (ptr : ℕ) (bytes : List UInt8) : Call (Seq σ) Failure Unit := do
  let seq ← Call.read
  let impl ← Call.access (SeqImpl.poke ptr bytes seq.impl)
  Call.modify fun seq => { seq with impl }

/-- A back end whose operations do what the archive relies on. `Starts` is a back end that has no
memory yet, `Holds` says which bytes a back end in use holds, and `Grants` that the environment
allows a size. A tail that does not fit the new size is copied out of the memory. -/
class LawfulSeq (σ : Type) extends SeqImpl σ where
  Starts : σ → Prop
  Holds : σ → List UInt8 → Prop
  Grants : Env → σ → ℕ → Prop
  starts_size {s : σ} : Starts s → size s = 0
  starts_addr {s : σ} : Starts s → addr s = none
  starts_resize {env : Env} {s : σ} {n : ℕ} : Starts s → n < 2 ^ 32 → Grants env s n →
    ∃ s' bs, (resize env n 0).Returns s () s' ∧ bs.length = n ∧ Holds s' bs
  size_of {s : σ} {bs : List UInt8} : Holds s bs → size s = bs.length
  addr_of {s : σ} {bs : List UInt8} : Holds s bs → ∃ slack, addr s = some (bs ++ slack)
  poke_of {s : σ} {a b c xs : List UInt8} : Holds s (a ++ (b ++ c)) → xs.length = b.length →
    ∃ s', poke a.length xs s = some s' ∧ Holds s' (a ++ (xs ++ c))
  resize_of {env : Env} {s : σ} {a b c : List UInt8} {n : ℕ} : Holds s (a ++ (b ++ c)) →
    (a ++ (b ++ c)).length < 2 ^ 32 → a.length + n + c.length < 2 ^ 32 →
    Grants env s (a.length + n + c.length) →
    ∃ s' b', (resize env (a.length + n + c.length) c.length).Returns s () s' ∧
      b'.length = n ∧ b.take n <+: b' ∧ Holds s' (a ++ (b' ++ c))
  resize_overrun {env : Env} {s : σ} {bs : List UInt8} {n tail : ℕ} : Holds s bs → n < tail →
    tail ≤ bs.length → (resize env n tail).Undefined s

/-! ## The memory back end -/

/-- `struct memseq_`: the allocated block, null at first, and the logical size. A shrink keeps
the block. -/
structure MemSeq where
  addr : Option (List UInt8)
  len : ℕ
deriving DecidableEq, Repr

/-- `aug_createseq_`. -/
def createseq : Seq MemSeq := { impl := { addr := none, len := 0 }, offset := 0, len := 0 }

/-- `realloc`: the cells in common are kept; new ones hold the given contents. -/
def realloc (block : List UInt8) (size : ℕ) (fresh : ℕ → UInt8) : List UInt8 :=
  block.take size ++ (List.range (size - block.length)).map fresh

/-- The allocator's answer: whether it grants a request, and what a grown block holds. -/
structure MPool where
  grant : ℕ → Bool
  fresh : ℕ → UInt8

/-- An allocator that always succeeds. -/
def MPool.always : MPool := { grant := fun _ => true, fresh := fun _ => 0 }

/-- `resizemem_`. -/
def resizemem (mpool : MPool) (size tail : ℕ) : Call MemSeq Failure Unit := do
  let memseq ← Call.read
  match memseq.addr with
  | none =>
    if mpool.grant size then Call.modify fun _ => { addr := some (List.replicate size 0), len := size }
    else Call.fail .system
  | some block =>
    if memseq.len < size then
      if mpool.grant size then do
        let grown := realloc block size mpool.fresh
        let zeroed ← Call.access (store grown memseq.len (List.replicate (size - memseq.len) 0))
        let moved ← Call.access (move zeroed (u32 (size - tail)) (u32 (memseq.len - tail)) tail)
        Call.modify fun _ => { addr := some moved, len := size }
      else Call.fail .system
    else if size < memseq.len then do
      let moved ← Call.access (move block (u32 (size - tail)) (u32 (memseq.len - tail)) tail)
      Call.modify fun _ => { addr := some moved, len := size }
    else pure ()

instance : SeqImpl MemSeq where
  Env := MPool
  resize := resizemem
  addr := MemSeq.addr
  poke ptr bytes memseq := (memseq.addr.bind (store · ptr bytes)).map
    fun block => { memseq with addr := some block }
  size := MemSeq.len

end Aug.Mar
