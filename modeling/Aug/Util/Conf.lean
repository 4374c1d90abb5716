import Aug.Util.Words

/-!
# Configuration files

The reader of `file.c`. Its output function keeps the label and the text of a line in two strings, which a
label token swaps, and calls back with both at the end of the line.
-/

namespace Aug.Util

/-- The strings that the callback is called with. -/
abbrev Pair := List UInt8 × List UInt8

/-- `struct state_`, with the calls of the callback so far. -/
structure Conf where
  key : List UInt8
  value : List UInt8
  last : ℤ
  result : ℤ
  calls : List Pair
deriving DecidableEq, Repr

namespace Conf

/-- `init_`. -/
def init : Conf := { key := [], value := [], last := tokphrase, result := 0, calls := [] }

/-- A call with `aug_xstr` of both strings, which ends at the first NUL. -/
def pair (st : Conf) : Pair := (st.key.takeWhile (· ≠ 0), st.value.takeWhile (· ≠ 0))

section Callback

variable (cb : List Pair → ℤ)

/-- `out_`, where the result of the callback may depend on all of its calls. The tokens that it asserts on do
not come from shell words. -/
def out (st : Conf) (what : ℤ) : Conf :=
  if st.result < 0 then st
  else if what = tokphrase then
    if st.last = tokphrase then { st with last := what }
    else if st.key.length ≠ 0 then
      let calls := st.calls ++ [st.pair]
      { key := [], value := [], last := what, result := cb calls, calls }
    else { st with last := what, result := -1 }
  else if what = toklabel then { st with key := st.value, value := st.key, last := what }
  else if what = tokword then { st with last := what }
  else
    let value := if st.last = tokword then st.value ++ [32] else st.value
    { st with value := value ++ [toChar what], last := what }

/-- What the words send, in order. -/
def outs (st : Conf) (whats : List ℤ) : Conf := whats.foldl (out cb) st

/-- The loop of `aug_freadconf`, and the newline behind the last character. -/
def fread : List UInt8 → ShellWords → Conf → Conf
  | [], words, st => st.outs cb (ShellWords.put newline words).1
  | b :: rest, words, st =>
    let (whats, words) := ShellWords.put b.toNat words
    let st := st.outs cb whats
    if st.result < 0 then st else fread rest words st

/-- `aug_freadconf`, on a file that can be read to its end. -/
def freadconf (file : List UInt8) : Conf := fread cb file (ShellWords.init true) init

end Callback

end Conf

end Aug.Util
