import Mathlib.Data.Int.Notation
import Mathlib.Data.List.Basic

/-!
# URL coding

The escape writer and reader of `augutilpp/string.hpp` with the pairs of a query on top of them. A `char` is
signed, and it is the signed value that picks the two digits of an escape from the table `HEX`: a writer whose
index falls outside of the table has no result.
-/

namespace Aug.Utilpp

/-- `HEX`, with the terminator of the literal. -/
def hexTable : List UInt8 := [48, 49, 50, 51, 52, 53, 54, 55, 56, 57, 65, 66, 67, 68, 69, 70, 0]

/-- `HEX[index]`, which must be inside the table. -/
def hex (index : ℤ) : Option UInt8 := if 0 ≤ index then hexTable[index.toNat]? else none

/-- `std::isalnum` in the C locale. -/
def isalnum (ch : UInt8) : Bool :=
  (48 ≤ ch && ch ≤ 57) || (65 ≤ ch && ch ≤ 90) || (97 ≤ ch && ch ≤ 122)

/-- `std::isxdigit` in the C locale. -/
def isxdigit (ch : UInt8) : Bool :=
  (48 ≤ ch && ch ≤ 57) || (65 ≤ ch && ch ≤ 70) || (97 ≤ ch && ch ≤ 102)

/-- `std::toupper` in the C locale. -/
def toupper (ch : UInt8) : UInt8 := if 97 ≤ ch ∧ ch ≤ 122 then ch - 32 else ch

/-- `xdigitoi`. -/
def xdigitoi (ch : UInt8) : ℤ :=
  if 48 ≤ ch ∧ ch ≤ 57 then ch.toInt8.toInt - 48 else (toupper ch).toInt8.toInt - 65 + 10

/-- One round of `encodeurl`. -/
def encodechar (ch : UInt8) : Option (List UInt8) :=
  if isalnum ch then some [ch]
  else if ch = 32 then some [43]
  else if ch ∈ [45, 95, 46, 33, 126, 42, 39, 40, 41] then some [ch]
  else do return [37, ← hex (ch.toInt8.toInt.tdiv 16), ← hex (ch.toInt8.toInt.tmod 16)]

/-- `encodeurl`. -/
def encodeurl : List UInt8 → Option (List UInt8)
  | [] => some []
  | ch :: rest => do return (← encodechar ch) ++ (← encodeurl rest)

/-- The loop of `packurl`. -/
def packurlFrom : Bool → List (List UInt8 × List UInt8) → Option (List UInt8)
  | _, [] => some []
  | first, (x, y) :: rest => do
    return (if first then [] else [38]) ++ (← encodeurl x) ++ 61 :: (← encodeurl y) ++ (← packurlFrom false rest)

/-- `packurl`. -/
def packurl (v : List (List UInt8 × List UInt8)) : Option (List UInt8) := packurlFrom true v

/-- `decodeurl`. A `%` without two digits behind it stands for itself. -/
def decodeurl : List UInt8 → List UInt8
  | [] => []
  | 43 :: rest => 32 :: decodeurl rest
  | 37 :: hi :: lo :: rest =>
    if isxdigit hi && isxdigit lo then UInt8.ofInt (xdigitoi hi * 16 + xdigitoi lo) :: decodeurl rest
    else 37 :: decodeurl (hi :: lo :: rest)
  | ch :: rest => ch :: decodeurl rest

/-- `split2`, with nothing behind a delimiter that is not there. -/
def split2 (delim : UInt8) (s : List UInt8) : List UInt8 × List UInt8 :=
  (s.takeWhile (· ≠ delim), (s.dropWhile (· ≠ delim)).drop 1)

/-- `urlpairs`. -/
def urlpair (s : List UInt8) : List UInt8 × List UInt8 :=
  let xy := split2 61 s
  (decodeurl xy.1, decodeurl xy.2)

/-- `unpackurl`. -/
def unpackurl (s : List UInt8) : List (List UInt8 × List UInt8) := (s.splitOn 38).map urlpair

end Aug.Utilpp
