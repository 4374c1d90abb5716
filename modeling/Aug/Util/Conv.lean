import Aug.Util.Words

/-!
# Conversion of numbers

The functions of `conv.c` for base 10, over `strtoul` of the C library.
-/

namespace Aug.Util

/-- `isdigit`. -/
def isdigit (b : UInt8) : Bool := 48 ≤ b ∧ b ≤ 57

/-- The value of a string of digits. -/
def numeral (digits : List UInt8) : ℕ := digits.foldl (fun n d => 10 * n + (d.toNat - 48)) 0

/-- What `strtoul` leaves: the value, whether it set `ERANGE`, and the text at its end pointer. -/
structure Strtoul where
  value : ℕ
  erange : Bool
  stop : List UInt8
deriving DecidableEq, Repr

/-- The optional sign of a number. -/
def sign : List UInt8 → Bool × List UInt8
  | 45 :: src => (true, src)
  | 43 :: src => (false, src)
  | src => (false, src)

/-- `strtoul` in base 10 on a C string. Space and a sign are allowed in front; a negative number is
negated as an `unsigned long`; without digits the end pointer is the whole string. -/
def strtoul (src : List UInt8) : Strtoul :=
  let (negative, text) := sign (src.dropWhile isspace)
  let digits := text.takeWhile isdigit
  let n := numeral digits
  if digits = [] then { value := 0, erange := false, stop := src }
  else if 2 ^ 64 ≤ n then { value := 2 ^ 64 - 1, erange := true, stop := text.dropWhile isdigit }
  else
    { value := if negative then (2 ^ 64 - n) % 2 ^ 64 else n
      erange := false
      stop := text.dropWhile isdigit }

/-- `aug_strtoul`. -/
def augStrtoul (src : List UInt8) : Option ℕ :=
  let ul := strtoul src
  if ul.erange then none else if ul.stop ≠ [] then none else some ul.value

/-- `aug_strtoui`. -/
def strtoui (src : List UInt8) : Option ℕ :=
  match augStrtoul src with
  | none => none
  | some ul => if 2 ^ 32 - 1 < ul then none else some ul

/-- A result of the conversion is an `unsigned`. -/
theorem strtoui_lt {src : List UInt8} {n : ℕ} (h : strtoui src = some n) : n < 2 ^ 32 := by
  unfold strtoui at h
  cases hul : augStrtoul src with
  | none => simp [hul] at h
  | some ul =>
    simp only [hul] at h
    split_ifs at h with hmax
    simp only [Option.some.injEq] at h
    omega

end Aug.Util
