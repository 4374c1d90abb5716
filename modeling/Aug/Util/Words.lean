import Aug.Lib.Machine

/-!
# Word machines

The functions of `networds.c` and `shellwords.c`. A machine reads one `int` at a time and sends
`int`s to its output function: characters and control tokens, which are small negative numbers.
A step returns what was sent, in order, and the next machine.
-/

namespace Aug.Util

/-- `EOF`. -/
def eof : ℤ := -1

/-- `AUG_TOKLABEL` and the other control tokens. -/
def toklabel : ℤ := -2
def tokword : ℤ := -3
def tokphrase : ℤ := -4
def tokrtrim : ℤ := -5

/-- `'\n'`. -/
def newline : ℤ := 10

/-- `'\r'`. -/
def return' : ℤ := 13

/-- `'\\'`. -/
def backslash : ℤ := 92

/-- The other line spaces: `'\t'`, `'\v'`, `'\f'`, `'\r'` and `' '`. -/
def isblank (ch : ℤ) : Bool := ch = 9 ∨ ch = 11 ∨ ch = 12 ∨ ch = 13 ∨ ch = 32

/-- `isspace` on a character, in the C locale. -/
def isspace (b : UInt8) : Bool := (9 ≤ b ∧ b ≤ 13) ∨ b = 32

theorem isspace_range {b : UInt8} :
    isspace b = true ↔ (9 ≤ b.toNat ∧ b.toNat ≤ 13) ∨ b.toNat = 32 := by
  simp [isspace, UInt8.le_iff_toNat_le, ← UInt8.toNat_inj]

theorem isblank_of_not_space {b : UInt8} (hspace : isspace b = false) : isblank b.toNat = false := by
  have hrange := @isspace_range b
  simp only [hspace, Bool.false_eq_true, false_iff] at hrange
  simp only [isblank, decide_eq_false_iff_not]
  omega

/-- A `char` as `int`, where `char` is signed. -/
def ofChar (b : UInt8) : ℤ := if b < 128 then b.toNat else (b.toNat : ℤ) - 256

/-- An `int` stored as a `char`. -/
def toChar (ch : ℤ) : UInt8 := UInt8.ofNat (ch % 256).toNat

theorem toChar_toNat (ch : ℤ) : (toChar ch).toNat = (ch % 256).toNat := by
  rw [toChar, UInt8.toNat_ofNat']
  omega

theorem toChar_byte (b : UInt8) : toChar b.toNat = b := by
  have hb := b.toNat_lt
  rw [← UInt8.toNat_inj, toChar_toNat]
  omega

/-- A machine that splits its input into words. -/
class Words (W : Type) where
  put : ℤ → W → List ℤ × W

/-! ## Header words -/

/-- The state functions of `networds.c`. -/
inductive NetFn
  | eatws
  | word
deriving DecidableEq, Repr

/-- `struct aug_words` as `networds.c` uses it. -/
structure NetWords where
  fn : NetFn
  escape : Bool
  label : Bool
  newline : Bool
deriving DecidableEq, Repr

namespace NetWords

/-- `aug_initnetwords`. -/
def init : NetWords := { fn := .eatws, escape := false, label := true, newline := false }

/-- `word_`. -/
def word (ch : ℤ) (st : NetWords) : List ℤ × NetWords :=
  if st.newline then
    let st := { st with newline := false }
    if ch = Util.newline then ([tokword, tokphrase], init)
    else if isblank ch then ([32], { st with fn := .eatws })
    else if ch = backslash then ([tokword], { st with escape := true, label := true })
    else ([tokword, ch], { st with label := true })
  else if st.escape then ([ch], { st with escape := false })
  else if ch = Util.newline then ([tokrtrim], { st with newline := true })
  else if ch = backslash then ([], { st with escape := true })
  else if st.label ∧ ch = 58 then ([tokrtrim, toklabel], { st with fn := .eatws, label := false })
  else ([ch], st)

/-- `eatws_`. -/
def eatws (ch : ℤ) (st : NetWords) : List ℤ × NetWords :=
  if st.escape then ([ch], { st with fn := .word, escape := false })
  else if ch = Util.newline then
    if st.label then ([], st) else word ch { st with fn := .word }
  else if isblank ch then ([], st)
  else if ch = backslash then ([], { st with escape := true })
  else ([ch], { st with fn := .word })

/-- Call the current state function. -/
def run (ch : ℤ) (st : NetWords) : List ℤ × NetWords :=
  match st.fn with
  | .eatws => eatws ch st
  | .word => word ch st

/-- `aug_putnetwords`. -/
def put (ch : ℤ) (st : NetWords) : List ℤ × NetWords :=
  if ch = eof then run Util.newline st
  else if ch = return' then ([], st)
  else run ch st

end NetWords

instance : Words NetWords := ⟨NetWords.put⟩

/-! ## Shell words -/

/-- The state functions of `shellwords.c`. -/
inductive ShellFn
  | eatws
  | bare
  | dquot
  | squot
  | comment
deriving DecidableEq, Repr

/-- `struct aug_words` as `shellwords.c` uses it. -/
structure ShellWords where
  fn : ShellFn
  escape : Bool
  label : Bool
  pairs : Bool
deriving DecidableEq, Repr

namespace ShellWords

/-- `aug_initshellwords`. -/
def init (pairs : Bool) : ShellWords := { fn := .eatws, escape := false, label := pairs, pairs }

/-- `eatws_`. -/
def eatws (ch : ℤ) (st : ShellWords) : List ℤ × ShellWords :=
  if st.escape then
    let st := { st with escape := false }
    if ch = newline then ([], st) else ([ch], { st with fn := .bare })
  else if ch = newline ∨ ch = 59 then ([tokphrase], st)
  else if isblank ch then ([], st)
  else if ch = 34 then ([], { st with fn := .dquot })
  else if ch = 35 then ([], { st with fn := .comment })
  else if ch = 39 then ([], { st with fn := .squot })
  else if ch = backslash then ([], { st with escape := true })
  else ([ch], { st with fn := .bare })

/-- The end of a bare word. -/
def endword (st : ShellWords) : ShellWords := { st with fn := .eatws, label := st.label || st.pairs }

/-- `bare_`. -/
def bare (ch : ℤ) (st : ShellWords) : List ℤ × ShellWords :=
  if st.escape then
    let st := { st with escape := false }
    if ch = newline then ([], st) else ([ch], st)
  else if ch = newline ∨ ch = 59 then
    let (outs, st) := eatws ch (endword st)
    (tokword :: outs, st)
  else if isblank ch then ([tokword], endword st)
  else if ch = 34 then ([], { st with fn := .dquot })
  else if ch = 39 then ([], { st with fn := .squot })
  else if ch = backslash then ([], { st with escape := true })
  else if st.label ∧ ch = 61 then ([toklabel], { st with fn := .eatws, label := false })
  else ([ch], st)

/-- `dquot_`. -/
def dquot (ch : ℤ) (st : ShellWords) : List ℤ × ShellWords :=
  if st.escape then
    let st := { st with escape := false }
    if ch = newline then ([], st)
    else if ch = 34 ∨ ch = backslash then ([ch], st)
    else ([backslash, ch], st)
  else if ch = 34 then ([], { st with fn := .bare })
  else if ch = backslash then ([], { st with escape := true })
  else ([ch], st)

/-- `squot_`. -/
def squot (ch : ℤ) (st : ShellWords) : List ℤ × ShellWords :=
  if ch = 39 then ([], { st with fn := .bare }) else ([ch], st)

/-- `comment_`. -/
def comment (ch : ℤ) (st : ShellWords) : List ℤ × ShellWords :=
  if ch = newline then eatws ch { st with fn := .eatws } else ([], st)

/-- Call the current state function. -/
def run (ch : ℤ) (st : ShellWords) : List ℤ × ShellWords :=
  match st.fn with
  | .eatws => eatws ch st
  | .bare => bare ch st
  | .dquot => dquot ch st
  | .squot => squot ch st
  | .comment => comment ch st

/-- `aug_putshellwords`. -/
def put (ch : ℤ) (st : ShellWords) : List ℤ × ShellWords :=
  if ch = eof then run newline st
  else if ch = return' then ([], st)
  else run ch st

end ShellWords

instance : Words ShellWords := ⟨ShellWords.put⟩

/-! ## Trimming -/

/-- The scan of `aug_rtrimword`: the size without the trailing space, on the reversed characters. -/
def trimmed : List UInt8 → ℕ
  | [] => 0
  | b :: rest => if isspace b then trimmed rest else rest.length + 1

/-- `aug_rtrimword`; where everything was trimmed it looks at the character `before` the buffer. -/
def rtrimword (before : UInt8) (src : List UInt8) : ℕ :=
  let i := trimmed src.reverse
  if i < src.length ∧ (if i = 0 then before else src.getD (i - 1) 0) = 92 then i + 1 else i

end Aug.Util
