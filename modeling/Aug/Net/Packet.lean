import Mathlib.Data.List.Basic

/-!
# Packets

The packets of `packet.h` with the bytes of their node and data. A packet that is made by the program
holds a node up to its terminator; what follows in the array is not set.
-/

namespace Aug.Net

/-- `AUG_PKTGAP` to `AUG_PKTUSER`. -/
def pktgap : ℕ := 0
def pktup : ℕ := 1
def pktdown : ℕ := 2
def pkthbeat : ℕ := 3
def pktuser : ℕ := 4

/-- `struct aug_packet`. -/
structure Packet where
  proto : ℕ
  node : List UInt8
  inst : ℕ
  type : ℕ
  seqno : ℕ
  size : ℕ
  data : List UInt8
deriving DecidableEq

/-- `aug_setpacket`. -/
def setpacket (node : List UInt8) (inst type seqno : ℕ) (data : List UInt8) : Packet where
  proto := 1
  node := (node.takeWhile (· ≠ 0)).take 128
  inst := inst
  type := type
  seqno := seqno
  size := min data.length 366
  data := data.take 366

end Aug.Net
