import Aug.Lib.BigEndian
import Aug.Mar.Seq

/-!
# The archive format

The sequence starts with a leader of sixteen bytes, followed by the header, which is a run of
fields, and the body. A field holds the sizes of its name and value, both counting a null
terminator, then the name and the value with their terminators.
-/

namespace Aug.Mar

open Aug.Lib

/-- `AUG_MAXNSIZE`. -/
def maxnsize : ℕ := 65535

/-- `AUG_MAXVSIZE`. -/
def maxvsize : ℕ := 65535

/-- `AUG_MAGIC` with its terminator. -/
def magic : List UInt8 := [109, 97, 114, 0]

/-- Offsets in the leader. -/
def magicoff : ℕ := 0
def protooff : ℕ := 4
def fieldsoff : ℕ := 6
def hsizeoff : ℕ := 8
def bsizeoff : ℕ := 12

/-- `AUG_LEADERSIZE`, where the header starts (`AUG_HEADER`). -/
def leadersize : ℕ := 16

/-- Offsets in a field. -/
def nsizeoff : ℕ := 0
def vsizeoff : ℕ := 2
def nameoff : ℕ := 4

/-- `AUG_VALUEOFF`. -/
def valueoff (nsize : ℕ) : ℕ := nameoff + nsize

/-- `AUG_FIELDSIZE`. -/
def fieldsize (nsize vsize : ℕ) : ℕ := valueoff nsize + vsize

/-- `AUG_BODY`. -/
def bodyoff (hsize : ℕ) : ℕ := leadersize + hsize

/-- The cached leader (`struct aug_info_`). -/
structure Info where
  proto : ℕ
  fields : ℕ
  hsize : ℕ
  bsize : ℕ
deriving DecidableEq, Repr

/-- The access mode bits of the open flags. -/
inductive Access
  | rdonly
  | wronly
  | rdwr
  | invalid
deriving DecidableEq, Repr

/-- The open flags an archive keeps. -/
structure Flags where
  access : Access
  append : Bool
deriving DecidableEq, Repr

/-- `READABLE_`. -/
def Flags.readable (flags : Flags) : Bool :=
  match flags.access with
  | .rdonly | .rdwr => true
  | .wronly | .invalid => false

/-- `WRITABLE_`. -/
def Flags.writable (flags : Flags) : Bool :=
  match flags.access with
  | .wronly | .rdwr => true
  | .rdonly | .invalid => false

/-- An archive (`struct impl_` of `mar.c`). -/
structure Archive (σ : Type) where
  seq : Seq σ
  info : Info
  flags : Flags
  offset : ℕ
deriving DecidableEq, Repr

/-- Run an operation of the sequence. -/
def Archive.onSeq {σ α : Type} (x : Call (Seq σ) Failure α) : Call (Archive σ) Failure α :=
  Call.zoom Archive.seq (fun seq mar => { mar with seq }) x

/-- Replace the cached leader. -/
def Archive.setInfo {σ : Type} (info : Info) : Call (Archive σ) Failure Unit :=
  Call.modify fun mar => { mar with info }

/-- A C string: the characters before the terminator. -/
structure CStr where
  chars : List UInt8
  nonul : (0 : UInt8) ∉ chars
deriving DecidableEq

/-- The memory a C string occupies. -/
def CStr.bytes (s : CStr) : List UInt8 := s.chars ++ [0]

/-- `tolower` in the C locale. -/
def tolower (c : UInt8) : UInt8 := if 65 ≤ c ∧ c ≤ 90 then c + 32 else c

/-- `strncasecmp` on the memory at two pointers. -/
def strncasecmp : ℕ → List UInt8 → List UInt8 → Option ℤ
  | 0, _, _ => some 0
  | n + 1, a :: as, b :: bs =>
    if tolower a ≠ tolower b then some ((tolower a).toNat - (tolower b).toNat)
    else if a = 0 then some 0
    else strncasecmp n as bs
  | _ + 1, _, _ => none

end Aug.Mar
