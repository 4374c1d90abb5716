import Aug.Util.Words

/-!
# Lexers

The functions of `lexer.c`. A lexer feeds a word machine and collects its output in a token.
Control tokens become the flags that the append returns; a character sent after one in the same
step is saved for the next token.
-/

namespace Aug.Util

/-- `AUG_LEXLABEL`, `AUG_LEXWORD` and `AUG_LEXPHRASE`. -/
structure Lex where
  label : Bool
  word : Bool
  phrase : Bool
deriving DecidableEq, Repr

/-- No flag. -/
def Lex.none : Lex := { label := false, word := false, phrase := false }

/-- A lexer (`struct aug_lexer_`) over a word machine. The character `before` is what lies in
front of the token's buffer. -/
structure Lexer (W : Type) where
  words : W
  token : List UInt8
  what : Lex
  save : UInt8
  before : UInt8
deriving DecidableEq, Repr

namespace Lexer

variable {W : Type}

/-- `createlexer_`. -/
def create (before : UInt8) (words : W) : Lexer W :=
  { words, token := [], what := .none, save := 0, before }

/-- `out_`. -/
def out (what : ℤ) (lexer : Lexer W) : Lexer W :=
  if what = toklabel then { lexer with what := { lexer.what with label := true } }
  else if what = tokword then { lexer with what := { lexer.what with word := true } }
  else if what = tokphrase then { lexer with what := { lexer.what with phrase := true } }
  else if what = tokrtrim then
    { lexer with token := lexer.token.take (rtrimword lexer.before lexer.token) }
  else if lexer.what ≠ .none then { lexer with save := toChar what }
  else { lexer with token := lexer.token ++ [toChar what] }

/-- Send a machine's output in order. -/
def outs (whats : List ℤ) (lexer : Lexer W) : Lexer W := whats.foldl (fun lexer what => lexer.out what) lexer

/-- The first half of `aug_appendlexer`: once a token has been returned, begin the next one. -/
def start (lexer : Lexer W) : Lexer W :=
  if lexer.what = .none then lexer
  else { lexer with
    token := if lexer.save = 0 then [] else [lexer.save]
    what := .none
    save := 0 }

variable [Words W]

/-- `aug_appendlexer`; the flags it returns are those of the lexer it leaves. -/
def append (ch : UInt8) (lexer : Lexer W) : Lexer W :=
  let lexer := lexer.start
  let step := Words.put (ofChar ch) lexer.words
  { lexer with words := step.2 }.outs step.1

/-- `aug_finishlexer`. -/
def finish (lexer : Lexer W) : Lexer W := lexer.append 10

/-- The C string that `aug_lexertoken` points to, unless it is null. -/
def lexertoken (lexer : Lexer W) : Option (List UInt8) :=
  if lexer.what = .none then none else some (lexer.token.takeWhile (· ≠ 0))

end Lexer

end Aug.Util
