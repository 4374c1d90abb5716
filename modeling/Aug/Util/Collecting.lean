import Aug.Util.LexerTransparency
import Aug.Util.NetLexer

/-!
# Collecting

What lexers report to their callers, and the input that a lexer only collects: it goes into the token, possibly
without the characters that quote it, and nothing is reported.
-/

namespace Aug.Util

/-- What a lexer reports to its caller. -/
inductive Report
  | label (token : List UInt8)
  | word (token : List UInt8)
  | phrase
deriving DecidableEq, Repr

/-- The reports of one append: its flags, each with the token there is then. -/
def reports (result : Lex × Option (List UInt8)) : List Report :=
  (if result.1.label then [.label (result.2.getD [])] else []) ++
    (if result.1.word then [.word (result.2.getD [])] else []) ++ if result.1.phrase then [.phrase] else []

namespace Lexer

section Appends

variable {W : Type} [Words W] (lexer : Lexer W)

/-- The lexer after its input. -/
def appends (input : List UInt8) : Lexer W := input.foldl (fun lexer b => lexer.append b) lexer

/-- The reports of its input. -/
def reported (input : List UInt8) : List Report := (lexer.run input).flatMap reports

theorem appends_append (input rest : List UInt8) :
    lexer.appends (input ++ rest) = (lexer.appends input).appends rest := List.foldl_append

theorem reported_append (input rest : List UInt8) :
    lexer.reported (input ++ rest) = lexer.reported input ++ (lexer.appends input).reported rest := by
  induction input generalizing lexer with
  | nil => rfl
  | cons b input ih =>
    have hrest := ih (lexer.append b)
    simp only [reported, run, List.cons_append, List.flatMap_cons, List.append_assoc] at hrest ⊢
    rw [hrest]
    rfl

/-- The input begins with the next token anyway. -/
theorem reported_start (input : List UInt8) : lexer.start.reported input = lexer.reported input := by
  cases input with
  | nil => rfl
  | cons b input => simp only [reported, run, start_append]

theorem appends_start (input : List UInt8) :
    (lexer.start.appends input).start = (lexer.appends input).start := by
  cases input with
  | nil => exact lexer.start_start
  | cons b input => simp only [appends, List.foldl_cons, start_append]

end Appends

section Collect

variable {W : Type}

/-- A lexer that has collected a token and reported nothing. -/
def holding (before : UInt8) (st : W) (token : List UInt8) : Lexer W :=
  { words := st, token, what := .none, save := 0, before }

variable [Words W]

/-- The characters of the input are collected as the text, and nothing is reported. -/
def Collects (st next : W) (input text : List UInt8) : Prop :=
  ∀ (before : UInt8) (token : List UInt8),
    (holding before st token).appends input = holding before next (token ++ text) ∧
      (holding before st token).reported input = []

/-- A byte that reads as no control token. -/
theorem ofChar_range {b : UInt8} (hb : b < 251) : ofChar b < -5 ∨ -2 < ofChar b := by
  have hlt := UInt8.lt_iff_toNat_lt.mp hb
  change b.toNat < 251 at hlt
  unfold ofChar
  split <;> omega

/-- A byte that is stored as it was read. -/
theorem toChar_ofChar (b : UInt8) : toChar (ofChar b) = b := by
  have hb := b.toNat_lt
  rw [← UInt8.toNat_inj, toChar_toNat, ofChar]
  split <;> omega

omit [Words W] in
/-- A character that reads as no control token is collected as it was sent. -/
theorem out_text {before : UInt8} {st : W} {token : List UInt8} {b : UInt8} (hb : b < 251) :
    (holding before st token).out (ofChar b) = holding before st (token ++ [b]) := by
  rw [out_char (ofChar_range hb) rfl, toChar_ofChar]
  rfl

omit [Words W] in
/-- So are several. -/
theorem outs_text {before : UInt8} {st : W} {token text : List UInt8} (htext : ∀ b ∈ text, b < 251) :
    (holding before st token).outs (text.map ofChar) = holding before st (token ++ text) := by
  induction text generalizing token with
  | nil => rw [List.append_nil]; rfl
  | cons b text ih =>
    have hb := htext b (List.mem_cons_self ..)
    rw [List.map_cons, outs_cons, out_text hb, ih fun c hc => htext c (List.mem_cons_of_mem b hc),
      List.append_assoc]
    rfl

namespace Collects

variable {st next last : W} {input rest text more : List UInt8} {b : UInt8}

theorem nil : Collects st st [] [] := by
  intro before token
  rw [List.append_nil]
  exact ⟨rfl, rfl⟩

theorem append (hfirst : Collects st next input text) (hrest : Collects next last rest more) :
    Collects st last (input ++ rest) (text ++ more) := by
  intro before token
  have ⟨hnext, hnone⟩ := hfirst before token
  have ⟨hlast, hnothing⟩ := hrest before (token ++ text)
  rw [appends_append, reported_append, hnext, hnone, hlast, hnothing, List.append_assoc]
  exact ⟨rfl, rfl⟩

/-- A character that the machine passes on or drops. -/
theorem one (hput : Words.put (ofChar b) st = (text.map ofChar, next)) (htext : ∀ c ∈ text, c < 251) :
    Collects st next [b] text := by
  intro before token
  have hstep : (holding before st token).append b = holding before next (token ++ text) := by
    have hstart : (holding before st token).start = holding before st token := rfl
    rw [Lexer.append, hstart]
    change ({ holding before st token with words := (Words.put (ofChar b) st).2 } : Lexer W).outs
      (Words.put (ofChar b) st).1 = _
    rw [hput]
    exact outs_text htext
  change (holding before st token).append b = _ ∧
    reports (((holding before st token).append b).what, ((holding before st token).append b).lexertoken) ++ [] = []
  rw [hstep]
  exact ⟨rfl, rfl⟩

/-- Characters of which each is collected alone. -/
theorem each {encode : UInt8 → List UInt8} (htext : ∀ b ∈ text, Collects st st (encode b) [b]) :
    Collects st st (text.flatMap encode) text := by
  induction text with
  | nil => exact nil
  | cons b text ih =>
    have hrest := ih fun c hc => htext c (List.mem_cons_of_mem b hc)
    exact (htext b (List.mem_cons_self ..)).append hrest

end Collects

end Collect

end Lexer

end Aug.Util
