import Aug.Util.Lexer
import Mathlib.Data.List.Forall2

/-!
# Replacing 8-bit characters by letters

Two runs of a lexer whose inputs differ only where one has an 8-bit character and the other a
letter. The machines treat both as ordinary characters, unless the character is one of the last
five: sign-extended, those are the control tokens and the end of the file. As long as no such
character is read, except inside a comment, the runs return the same flags, and their tokens
differ only at the replaced characters.
-/

namespace Aug.Util

/-- A letter. -/
def isletter (b : UInt8) : Bool := (65 ≤ b ∧ b ≤ 90) ∨ (97 ≤ b ∧ b ≤ 122)

/-- The second character is the first, or a letter in place of an 8-bit character. -/
def Replaced (b b' : UInt8) : Prop := if b < 128 then b' = b else isletter b' = true

instance (b b' : UInt8) : Decidable (Replaced b b') :=
  inferInstanceAs (Decidable (if b < 128 then b' = b else isletter b' = true))

/-- The control tokens. -/
def iscontrol (what : ℤ) : Bool :=
  what = toklabel ∨ what = tokword ∨ what = tokphrase ∨ what = tokrtrim

/-- An `int` that no machine gives a meaning: an 8-bit character above the control tokens, or a
letter. -/
def Ordinary (ch : ℤ) : Prop :=
  (-128 ≤ ch ∧ ch ≤ -6) ∨ (65 ≤ ch ∧ ch ≤ 90) ∨ (97 ≤ ch ∧ ch ≤ 122)

/-- What two machines send: the same control token or 7-bit character, or a letter in place of an
8-bit character. -/
def Swapped (what what' : ℤ) : Prop :=
  (what = what' ∧ (iscontrol what = true ∨ (0 ≤ what ∧ what < 128))) ∨
    ((-128 ≤ what ∧ what ≤ -6) ∧ ((65 ≤ what' ∧ what' ≤ 90) ∨ (97 ≤ what' ∧ what' ≤ 122)))

/-! ## Characters -/

theorem isletter_range {b : UInt8} (h : isletter b = true) :
    (65 ≤ b.toNat ∧ b.toNat ≤ 90) ∨ (97 ≤ b.toNat ∧ b.toNat ≤ 122) := by
  simpa [isletter, UInt8.le_iff_toNat_le] using h

theorem lt_iff_toNat {b : UInt8} : b < 128 ↔ b.toNat < 128 := by
  simp [UInt8.lt_iff_toNat_lt]

theorem isletter_of_range {b : UInt8}
    (h : (65 ≤ b.toNat ∧ b.toNat ≤ 90) ∨ (97 ≤ b.toNat ∧ b.toNat ≤ 122)) : isletter b = true := by
  simpa [isletter, UInt8.le_iff_toNat_le] using h

namespace Replaced

variable {b b' : UInt8}

theorem seven (h : b.toNat < 128) : Replaced b b := by
  rw [Replaced, if_pos (lt_iff_toNat.mpr h)]

theorem high (h : 128 ≤ b.toNat) (h' : isletter b' = true) : Replaced b b' := by
  rw [Replaced, if_neg (by rw [lt_iff_toNat]; omega)]
  exact h'

/-- Either the characters agree, or an 8-bit character stands against a letter. -/
theorem cases_on (h : Replaced b b') :
    (b.toNat < 128 ∧ b' = b) ∨ (128 ≤ b.toNat ∧
      ((65 ≤ b'.toNat ∧ b'.toNat ≤ 90) ∨ (97 ≤ b'.toNat ∧ b'.toNat ≤ 122))) := by
  unfold Replaced at h
  split at h
  case isTrue hb => exact .inl ⟨lt_iff_toNat.mp hb, h⟩
  case isFalse hb => exact .inr ⟨Nat.not_lt.mp (mt lt_iff_toNat.mpr hb), isletter_range h⟩

/-- The characters agree in every test for a 7-bit character other than a letter. -/
theorem eq_iff (h : Replaced b b') {c : UInt8} (hc : c.toNat < 65) : b = c ↔ b' = c := by
  rcases h.cases_on with ⟨-, rfl⟩ | ⟨hb, hb'⟩
  · exact Iff.rfl
  · constructor
    · rintro rfl
      omega
    · rintro rfl
      omega

theorem backslash_iff (h : Replaced b b') : b = 92 ↔ b' = 92 := by
  rcases h.cases_on with ⟨-, rfl⟩ | ⟨hb, hb'⟩
  · exact Iff.rfl
  · constructor
    · rintro rfl
      simp at hb
    · rintro rfl
      simp at hb'

theorem isspace_eq (h : Replaced b b') : isspace b = isspace b' := by
  rcases h.cases_on with ⟨-, rfl⟩ | ⟨hb, hb'⟩
  · rfl
  · rw [Bool.eq_iff_iff, isspace_range, isspace_range]
    omega

end Replaced

/-! ## Machines -/

/-- A machine that treats all ordinary characters alike. `passes` says which characters are read
as such, or not read at all, in a state. -/
class TransparentWords (W : Type) extends Words W where
  passes : W → UInt8 → Prop
  put_seven {st : W} {ch : ℤ} : 0 ≤ ch → ch < 128 →
    ∀ what ∈ (put ch st).1, iscontrol what = true ∨ (0 ≤ what ∧ what < 128)
  put_passes {st : W} {b : UInt8} {ch : ℤ} : 128 ≤ b.toNat → passes st b →
    (65 ≤ ch ∧ ch ≤ 90) ∨ (97 ≤ ch ∧ ch ≤ 122) →
    List.Forall₂ Swapped (put (ofChar b) st).1 (put ch st).1 ∧ (put (ofChar b) st).2 = (put ch st).2

/-- An ordinary `int` is none of those that a machine looks for. -/
theorem Ordinary.ne {ch : ℤ} (h : Ordinary ch) : ch ≠ eof ∧ ch ≠ newline ∧ ch ≠ return' ∧
    ch ≠ backslash ∧ isblank ch = false ∧ ch ≠ 34 ∧ ch ≠ 35 ∧ ch ≠ 39 ∧ ch ≠ 58 ∧ ch ≠ 59 ∧ ch ≠ 61 := by
  unfold Ordinary at h
  simp only [eof, newline, return', backslash, isblank, decide_eq_false_iff_not]
  omega

theorem ofChar_high {b : UInt8} (hb : 128 ≤ b.toNat) : ofChar b = (b.toNat : ℤ) - 256 := by
  rw [ofChar, if_neg (by rw [lt_iff_toNat]; omega)]

theorem swapped_control {what : ℤ} (h : iscontrol what = true) : Swapped what what := .inl ⟨rfl, .inl h⟩

/-- An 8-bit character that is not read as a control token is swapped with any letter. -/
theorem swapped_high {b : UInt8} {ch : ℤ} (hb : 128 ≤ b.toNat) (hlt : b.toNat < 251)
    (hch : (65 ≤ ch ∧ ch ≤ 90) ∨ (97 ≤ ch ∧ ch ≤ 122)) : Swapped (ofChar b) ch := by
  rw [ofChar_high hb]
  exact .inr ⟨by omega, hch⟩

theorem ordinary_high {b : UInt8} (hb : 128 ≤ b.toNat) (hlt : b.toNat < 251) : Ordinary (ofChar b) := by
  rw [ofChar_high hb]
  exact .inl (by omega)

/-- What a machine sends when it is fed the 7-bit character `ch`. -/
def Sent (ch : ℤ) (outs : List ℤ) : Prop :=
  ∀ what ∈ outs, iscontrol what = true ∨ what = ch ∨ what = 32 ∨ what = backslash

theorem Sent.seven {ch : ℤ} {outs : List ℤ} (h : Sent ch outs) (h0 : 0 ≤ ch) (h7 : ch < 128) :
    ∀ what ∈ outs, iscontrol what = true ∨ (0 ≤ what ∧ what < 128) := by
  intro what hwhat
  rcases h what hwhat with hcontrol | rfl | rfl | rfl
  · exact .inl hcontrol
  · exact .inr ⟨h0, h7⟩
  · exact .inr (by decide)
  · exact .inr (by decide)

theorem sent_nil {ch : ℤ} : Sent ch [] := by simp [Sent]

theorem sent_self {ch : ℤ} : Sent ch [ch] := by simp [Sent]

theorem Sent.control {ch what : ℤ} {outs : List ℤ} (hwhat : iscontrol what = true) (h : Sent ch outs) :
    Sent ch (what :: outs) := by
  intro out hout
  rcases List.mem_cons.mp hout with rfl | hout
  · exact .inl hwhat
  · exact h out hout

namespace NetWords

theorem word_sent (ch : ℤ) (st : NetWords) : Sent ch (word ch st).1 := by
  unfold word
  split_ifs
  · exact .control rfl (.control rfl sent_nil)
  · simp [Sent]
  · exact .control rfl sent_nil
  · exact .control rfl sent_self
  · exact sent_self
  · exact .control rfl sent_nil
  · exact sent_nil
  · exact .control rfl (.control rfl sent_nil)
  · exact sent_self

theorem eatws_sent (ch : ℤ) (st : NetWords) : Sent ch (eatws ch st).1 := by
  unfold eatws
  split_ifs
  · exact sent_self
  · exact sent_nil
  · exact word_sent _ _
  · exact sent_nil
  · exact sent_nil
  · exact sent_self

theorem run_sent (ch : ℤ) (st : NetWords) : Sent ch (run ch st).1 := by
  unfold run
  cases st.fn with
  | eatws => exact eatws_sent ch st
  | word => exact word_sent ch st

/-- On an ordinary character the machine sends it, after the end of a word where there is one. -/
theorem run_ordinary (st : NetWords) : ∃ outs next, (∀ what ∈ outs, Swapped what what) ∧
    ∀ ch, Ordinary ch → run ch st = (outs ++ [ch], next) := by
  obtain ⟨fn, escape, label, newline⟩ := st
  cases fn with
  | eatws =>
    exists [], ⟨.word, false, label, newline⟩
    apply And.intro (by simp)
    intro ch hch
    obtain ⟨-, hnewline, -, hback, hblank, -⟩ := hch.ne
    cases escape <;> simp [run, eatws, hnewline, hback, hblank]
  | word =>
    cases newline with
    | true =>
      exists [tokword], ⟨.word, escape, true, false⟩
      apply And.intro (by simp [swapped_control, iscontrol])
      intro ch hch
      obtain ⟨-, hnewline, -, hback, hblank, -⟩ := hch.ne
      simp [run, word, hnewline, hback, hblank]
    | false =>
      exists [], ⟨.word, false, label, false⟩
      apply And.intro (by simp)
      intro ch hch
      obtain ⟨-, hnewline, -, hback, -, -, -, -, hcolon, -⟩ := hch.ne
      cases escape <;> simp [run, word, hnewline, hback, hcolon]

theorem put_seven {st : NetWords} {ch : ℤ} (h0 : 0 ≤ ch) (h7 : ch < 128) :
    ∀ what ∈ (put ch st).1, iscontrol what = true ∨ (0 ≤ what ∧ what < 128) := by
  have heof : ch ≠ eof := by
    unfold eof
    omega
  unfold put
  rw [if_neg heof]
  split_ifs
  · simp
  · exact (run_sent ch st).seven h0 h7

theorem put_ordinary (st : NetWords) {ch : ℤ} (hch : Ordinary ch) : put ch st = run ch st := by
  obtain ⟨heof, -, hreturn, -⟩ := hch.ne
  rw [put, if_neg heof, if_neg hreturn]

end NetWords

/-- Two outputs that end in swapped characters. -/
theorem swapped_append {outs : List ℤ} {what what' : ℤ} (houts : ∀ what ∈ outs, Swapped what what)
    (h : Swapped what what') : List.Forall₂ Swapped (outs ++ [what]) (outs ++ [what']) := by
  apply List.rel_append
  · exact List.forall₂_same.mpr houts
  · exact .cons h .nil

instance : TransparentWords NetWords where
  passes _ b := b.toNat < 251
  put_seven := NetWords.put_seven
  put_passes {st b ch} hb hlt hch := by
    have hordinary : Ordinary ch := .inr hch
    have hhigh := ordinary_high hb hlt
    obtain ⟨outs, next, houts, hrun⟩ := NetWords.run_ordinary st
    simp only [Words.put]
    rw [NetWords.put_ordinary st hhigh, NetWords.put_ordinary st hordinary, hrun _ hhigh, hrun _ hordinary]
    exact ⟨swapped_append houts (swapped_high hb hlt hch), rfl⟩

namespace ShellWords

theorem eatws_sent (ch : ℤ) (st : ShellWords) : Sent ch (eatws ch st).1 := by
  unfold eatws
  split_ifs
  · exact sent_nil
  · exact sent_self
  · exact .control rfl sent_nil
  · exact sent_nil
  · exact sent_nil
  · exact sent_nil
  · exact sent_nil
  · exact sent_nil
  · exact sent_self

theorem bare_sent (ch : ℤ) (st : ShellWords) : Sent ch (bare ch st).1 := by
  unfold bare
  split_ifs
  · exact sent_nil
  · exact sent_self
  · exact .control rfl (eatws_sent ch st.endword)
  · exact .control rfl sent_nil
  · exact sent_nil
  · exact sent_nil
  · exact sent_nil
  · exact .control rfl sent_nil
  · exact sent_self

theorem dquot_sent (ch : ℤ) (st : ShellWords) : Sent ch (dquot ch st).1 := by
  unfold dquot
  split_ifs
  · exact sent_nil
  · exact sent_self
  · simp [Sent]
  · exact sent_nil
  · exact sent_nil
  · exact sent_self

theorem run_sent (ch : ℤ) (st : ShellWords) : Sent ch (run ch st).1 := by
  unfold run
  cases st.fn with
  | eatws => exact eatws_sent ch st
  | bare => exact bare_sent ch st
  | dquot => exact dquot_sent ch st
  | squot =>
    unfold squot
    split_ifs
    · exact sent_nil
    · exact sent_self
  | comment =>
    unfold comment
    split_ifs
    · exact eatws_sent ch _
    · exact sent_nil

theorem put_seven {st : ShellWords} {ch : ℤ} (h0 : 0 ≤ ch) (h7 : ch < 128) :
    ∀ what ∈ (put ch st).1, iscontrol what = true ∨ (0 ≤ what ∧ what < 128) := by
  have heof : ch ≠ eof := by
    unfold eof
    omega
  unfold put
  rw [if_neg heof]
  split_ifs
  · simp
  · exact (run_sent ch st).seven h0 h7

theorem put_ordinary (st : ShellWords) {ch : ℤ} (hch : Ordinary ch) : put ch st = run ch st := by
  obtain ⟨heof, -, hreturn, -⟩ := hch.ne
  rw [put, if_neg heof, if_neg hreturn]

/-- Outside a comment an ordinary character is sent, after the backslash of a failed escape. -/
theorem run_ordinary (st : ShellWords) (hfn : st.fn ≠ .comment) : ∃ outs next,
    (∀ what ∈ outs, Swapped what what) ∧ ∀ ch, Ordinary ch → run ch st = (outs ++ [ch], next) := by
  obtain ⟨fn, escape, label, pairs⟩ := st
  cases fn with
  | eatws =>
    exists [], ⟨.bare, false, label, pairs⟩
    apply And.intro (by simp)
    intro ch hch
    obtain ⟨-, hnewline, -, hback, hblank, hdquot, hhash, hsquot, -, hsemi, -⟩ := hch.ne
    cases escape <;> simp [run, eatws, hnewline, hback, hblank, hdquot, hhash, hsquot, hsemi]
  | bare =>
    exists [], ⟨.bare, false, label, pairs⟩
    apply And.intro (by simp)
    intro ch hch
    obtain ⟨-, hnewline, -, hback, hblank, hdquot, -, hsquot, -, hsemi, hequal⟩ := hch.ne
    cases escape <;> simp [run, bare, hnewline, hback, hblank, hdquot, hsquot, hsemi, hequal]
  | dquot =>
    exists (if escape then [backslash] else []), ⟨.dquot, false, label, pairs⟩
    apply And.intro (by cases escape <;> simp [Swapped, backslash])
    intro ch hch
    obtain ⟨-, hnewline, -, hback, -, hdquot, -⟩ := hch.ne
    cases escape <;> simp [run, dquot, hnewline, hback, hdquot]
  | squot =>
    exists [], ⟨.squot, escape, label, pairs⟩
    apply And.intro (by simp)
    intro ch hch
    obtain ⟨-, -, -, -, -, -, -, hsquot, -⟩ := hch.ne
    simp [run, squot, hsquot]
  | comment => exact absurd rfl hfn

/-- Inside a comment everything but the end of the line is skipped. -/
theorem put_comment {st : ShellWords} {ch : ℤ} (hfn : st.fn = .comment) (hnewline : ch ≠ newline)
    (heof : ch ≠ eof) : put ch st = ([], st) := by
  unfold put
  rw [if_neg heof]
  split_ifs
  · rfl
  · simp [run, hfn, comment, hnewline]

end ShellWords

/-- The 8-bit characters that are not the end of the file. -/
theorem ofChar_ne {b : UInt8} (hb : 128 ≤ b.toNat) (hlast : b ≠ 255) :
    ofChar b ≠ newline ∧ ofChar b ≠ eof := by
  have hmax : b.toNat ≠ 255 := fun h => hlast (UInt8.toNat_inj.mp h)
  have hlt := b.toNat_lt
  rw [ofChar_high hb]
  constructor
  · simp only [newline, ne_eq]
    omega
  · simp only [eof, ne_eq]
    omega

instance : TransparentWords ShellWords where
  passes st b := b.toNat < 251 ∨ (st.fn = .comment ∧ b ≠ 255)
  put_seven := ShellWords.put_seven
  put_passes {st b ch} hb hpasses hch := by
    have hordinary : Ordinary ch := .inr hch
    by_cases hfn : st.fn = .comment
    · have hlast : b ≠ 255 := by
        rcases hpasses with hlt | ⟨-, hlast⟩
        · rintro rfl
          simp at hlt
        · exact hlast
      obtain ⟨hnewline, heof⟩ := ofChar_ne hb hlast
      simp only [Words.put]
      rw [ShellWords.put_comment hfn hnewline heof,
        ShellWords.put_comment hfn hordinary.ne.2.1 hordinary.ne.1]
      exact ⟨.nil, rfl⟩
    · have hlt : b.toNat < 251 := hpasses.resolve_right fun h => hfn h.1
      have hhigh := ordinary_high hb hlt
      obtain ⟨outs, next, houts, hrun⟩ := ShellWords.run_ordinary st hfn
      simp only [Words.put]
      rw [ShellWords.put_ordinary st hhigh, ShellWords.put_ordinary st hordinary, hrun _ hhigh,
        hrun _ hordinary]
      exact ⟨swapped_append houts (swapped_high hb hlt hch), rfl⟩

/-! ## Lexers -/

/-- Two lexers in one state, up to the replaced characters. -/
structure Twin {W : Type} (lexer lexer' : Lexer W) : Prop where
  words : lexer.words = lexer'.words
  what : lexer.what = lexer'.what
  before : lexer.before = lexer'.before
  save : Replaced lexer.save lexer'.save
  token : List.Forall₂ Replaced lexer.token lexer'.token

theorem trimmed_eq {src src' : List UInt8} (h : List.Forall₂ Replaced src src') :
    trimmed src = trimmed src' := by
  induction h with
  | nil => rfl
  | cons hb hrest ih => rw [trimmed, trimmed, hb.isspace_eq, ih, hrest.length_eq]

theorem getD_backslash {src src' : List UInt8} (h : List.Forall₂ Replaced src src') (i : ℕ) :
    src.getD i 0 = 92 ↔ src'.getD i 0 = 92 := by
  induction h generalizing i with
  | nil => exact Iff.rfl
  | cons hb _ ih =>
    cases i with
    | zero => exact hb.backslash_iff
    | succ i => exact ih i

/-- Trimming does not look at the replaced characters. -/
theorem rtrimword_eq {before : UInt8} {src src' : List UInt8} (h : List.Forall₂ Replaced src src') :
    rtrimword before src = rtrimword before src' := by
  have hbackslash : (if trimmed src.reverse = 0 then before else src.getD (trimmed src.reverse - 1) 0) = 92 ↔
      (if trimmed src.reverse = 0 then before else src'.getD (trimmed src.reverse - 1) 0) = 92 := by
    split_ifs
    · exact Iff.rfl
    · exact getD_backslash h _
  unfold rtrimword
  rw [← trimmed_eq (List.rel_reverse h), ← h.length_eq]
  simp only [hbackslash]

/-- The control tokens are four successive numbers. -/
theorem iscontrol_iff {what : ℤ} : iscontrol what = true ↔ -5 ≤ what ∧ what ≤ -2 := by
  unfold iscontrol toklabel tokword tokphrase tokrtrim
  rw [decide_eq_true_eq]
  omega

/-- Swapped outputs are stored as replaced characters. -/
theorem toChar_swapped {what what' : ℤ} (h : Swapped what what') (hcontrol : iscontrol what = false) :
    iscontrol what' = false ∧ Replaced (toChar what) (toChar what') := by
  rcases h with ⟨rfl, hcontrol' | ⟨h0, h7⟩⟩ | ⟨hhigh, hletter⟩
  · rw [hcontrol] at hcontrol'
    contradiction
  · apply And.intro hcontrol
    apply Replaced.seven
    rw [toChar_toNat]
    omega
  · apply And.intro
    · rw [Bool.eq_false_iff, Ne, iscontrol_iff]
      omega
    · apply Replaced.high
      · rw [toChar_toNat]
        omega
      · apply isletter_of_range
        rw [toChar_toNat]
        omega

namespace Twin

variable {W : Type} {lexer lexer' : Lexer W}

theorem start (h : Twin lexer lexer') : Twin lexer.start lexer'.start := by
  unfold Lexer.start
  rw [← h.what]
  have hzero : Replaced 0 0 := by decide
  split_ifs with hwhat hsave hsave' hsave'
  · exact h
  · exact ⟨h.words, rfl, h.before, hzero, .nil⟩
  · exact absurd ((h.save.eq_iff (by decide)).mp hsave) hsave'
  · exact absurd ((h.save.eq_iff (by decide)).mpr hsave') hsave
  · exact ⟨h.words, rfl, h.before, hzero, .cons h.save .nil⟩

/-- A control token has the same effect on both lexers. -/
theorem out_control (h : Twin lexer lexer') {what : ℤ} (hcontrol : iscontrol what = true) :
    Twin (lexer.out what) (lexer'.out what) := by
  unfold Lexer.out
  rw [← h.what, ← h.before, ← rtrimword_eq h.token]
  split_ifs with hlabel hword hphrase hrtrim hwhat
  · exact ⟨h.words, rfl, rfl, h.save, h.token⟩
  · exact ⟨h.words, rfl, rfl, h.save, h.token⟩
  · exact ⟨h.words, rfl, rfl, h.save, h.token⟩
  · exact ⟨h.words, rfl, rfl, h.save, List.forall₂_take _ h.token⟩
  all_goals simp [iscontrol, hlabel, hword, hphrase, hrtrim] at hcontrol

/-- Any other output is stored, in the token or for the next one. -/
theorem out_of_not_control (lexer : Lexer W) {what : ℤ} (hcontrol : iscontrol what = false) :
    lexer.out what = if lexer.what = .none then { lexer with token := lexer.token ++ [toChar what] }
      else { lexer with save := toChar what } := by
  simp only [iscontrol, decide_eq_false_iff_not, not_or] at hcontrol
  obtain ⟨hlabel, hword, hphrase, hrtrim⟩ := hcontrol
  rw [Lexer.out, if_neg hlabel, if_neg hword, if_neg hphrase, if_neg hrtrim, ite_not]

theorem out (h : Twin lexer lexer') {what what' : ℤ} (hswapped : Swapped what what') :
    Twin (lexer.out what) (lexer'.out what') := by
  cases hcontrol : iscontrol what with
  | true =>
    rcases hswapped with ⟨rfl, -⟩ | ⟨hhigh, -⟩
    · exact h.out_control hcontrol
    · rw [iscontrol_iff] at hcontrol
      omega
  | false =>
    obtain ⟨hcontrol', hreplaced⟩ := toChar_swapped hswapped hcontrol
    rw [out_of_not_control lexer hcontrol, out_of_not_control lexer' hcontrol', ← h.what]
    split_ifs
    · exact ⟨h.words, rfl, h.before, h.save, List.rel_append h.token (.cons hreplaced .nil)⟩
    · exact ⟨h.words, rfl, h.before, hreplaced, h.token⟩

theorem outs (h : Twin lexer lexer') {whats whats' : List ℤ} (hswapped : List.Forall₂ Swapped whats whats') :
    Twin (lexer.outs whats) (lexer'.outs whats') := by
  induction hswapped generalizing lexer lexer' with
  | nil => exact h
  | cons hwhat _ ih => exact ih (h.out hwhat)

end Twin

/-- Every machine answers replaced characters with swapped outputs, in the states that let them
pass. -/
theorem put_replaced {W : Type} [TransparentWords W] {st : W} {b b' : UInt8} (hb : Replaced b b')
    (hpasses : b < 128 ∨ TransparentWords.passes st b) :
    List.Forall₂ Swapped (Words.put (ofChar b) st).1 (Words.put (ofChar b') st).1 ∧
      (Words.put (ofChar b) st).2 = (Words.put (ofChar b') st).2 := by
  rcases hb.cases_on with ⟨hseven, rfl⟩ | ⟨hhigh, hletter⟩
  · apply And.intro _ rfl
    rw [List.forall₂_same]
    intro what hwhat
    have hchar : ofChar b' = b'.toNat := if_pos (lt_iff_toNat.mpr hseven)
    exact .inl ⟨rfl, TransparentWords.put_seven (by omega) (by omega) what hwhat⟩
  · have hnot : ¬b < 128 := by
      rw [lt_iff_toNat]
      omega
    have hchar : ofChar b' = b'.toNat := if_pos (lt_iff_toNat.mpr (by omega))
    exact TransparentWords.put_passes hhigh (hpasses.resolve_left hnot) (by omega)

namespace Twin

variable {W : Type} [TransparentWords W] {lexer lexer' : Lexer W}

theorem append (h : Twin lexer lexer') {b b' : UInt8} (hb : Replaced b b')
    (hpasses : b < 128 ∨ TransparentWords.passes lexer.start.words b) :
    Twin (lexer.append b) (lexer'.append b') := by
  have hstart := h.start
  have hput := put_replaced hb hpasses
  generalize hwords : Words.put (ofChar b') lexer.start.words = step at hput
  rw [hstart.words] at hwords
  unfold Lexer.append
  simp only [hwords]
  apply Twin.outs _ hput.1
  exact ⟨hput.2, hstart.what, hstart.before, hstart.save, hstart.token⟩

end Twin

/-- The C strings of twins are equal up to the replaced characters. -/
theorem takeWhile_replaced {token token' : List UInt8} (h : List.Forall₂ Replaced token token') :
    List.Forall₂ Replaced (token.takeWhile (· ≠ 0)) (token'.takeWhile (· ≠ 0)) := by
  induction h with
  | nil => exact .nil
  | cons hb _ ih =>
    have hzero := hb.eq_iff (c := 0) (by decide)
    rw [List.takeWhile_cons, List.takeWhile_cons]
    simp only [ne_eq, hzero]
    split_ifs
    · exact .cons hb ih
    · exact .nil

theorem Twin.lexertoken {W : Type} {lexer lexer' : Lexer W} (h : Twin lexer lexer') :
    Option.Rel (List.Forall₂ Replaced) lexer.lexertoken lexer'.lexertoken := by
  unfold Lexer.lexertoken
  rw [← h.what]
  split_ifs
  · exact .none
  · exact .some (takeWhile_replaced h.token)

/-! ## Runs -/

/-- The flags that successive appends return, each with the token there is then. -/
def Lexer.run {W : Type} [Words W] (lexer : Lexer W) : List UInt8 → List (Lex × Option (List UInt8))
  | [] => []
  | b :: input => ((lexer.append b).what, (lexer.append b).lexertoken) :: (lexer.append b).run input

/-- Every 8-bit character of the input passes in the state in which it is read. -/
def Lexer.Passes {W : Type} [TransparentWords W] (lexer : Lexer W) : List UInt8 → Prop
  | [] => True
  | b :: input =>
    (b < 128 ∨ TransparentWords.passes lexer.words b) ∧ (lexer.append b).Passes input

/-- Two results of an append: the same flags, and tokens that are equal up to the replaced
characters. -/
def SameFlags (result result' : Lex × Option (List UInt8)) : Prop :=
  result.1 = result'.1 ∧ Option.Rel (List.Forall₂ Replaced) result.2 result'.2

theorem Lexer.start_words {W : Type} (lexer : Lexer W) : lexer.start.words = lexer.words := by
  unfold Lexer.start
  split_ifs <;> rfl

/-- Twins stay twins along any input whose 8-bit characters pass. -/
theorem Twin.run {W : Type} [TransparentWords W] {lexer lexer' : Lexer W} (h : Twin lexer lexer')
    {input input' : List UInt8} (hinput : List.Forall₂ Replaced input input') (hpasses : lexer.Passes input) :
    List.Forall₂ SameFlags (lexer.run input) (lexer'.run input') := by
  induction hinput generalizing lexer lexer' with
  | nil => exact .nil
  | cons hb _ ih =>
    have hnext := h.append hb (by rw [Lexer.start_words]; exact hpasses.1)
    exact .cons ⟨hnext.what, hnext.lexertoken⟩ (ih hnext hpasses.2)

/-- A new lexer is its own twin. -/
theorem Twin.create {W : Type} (before : UInt8) (words : W) :
    Twin (Lexer.create before words) (Lexer.create before words) :=
  ⟨rfl, rfl, rfl, by simp [Lexer.create]; decide, .nil⟩

end Aug.Util
