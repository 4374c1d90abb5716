import Aug.Util.Lexer

/-!
# The network lexer

What one byte does to a lexer over the header words of `networds.c`. A lexer is fresh if it goes on as a
new one; after a token this is so exactly if the token was ended by the newline of an empty line.
-/

namespace Aug.Util

/-- The byte is read as a newline: it is one, or it reads as `EOF` where `char` is signed. -/
def EndsLine (b : UInt8) : Prop := b = 10 ∨ b = 255

instance (b : UInt8) : Decidable (EndsLine b) := inferInstanceAs (Decidable (_ ∨ _))

namespace NetWords

/-- A line has ended only inside of a word, with nothing escaped. -/
def Sound (st : NetWords) : Prop := st.newline = true → st.fn = .word ∧ st.escape = false

theorem init_sound : init.Sound := nofun

/-- Every character keeps the machine sound. -/
theorem put_sound {st : NetWords} (h : st.Sound) (ch : ℤ) : (put ch st).2.Sound := by
  obtain ⟨fn, escape, label, newline⟩ := st
  unfold Sound at h
  cases fn <;> cases newline <;> simp [put, run, word, eatws, init, Sound] at h ⊢ <;> grind

/-- A step that ends in the initial state read the newline of an empty line, or left it. -/
theorem put_init {st : NetWords} (h : st.Sound) {ch : ℤ} (hinit : (put ch st).2 = init) :
    (st.newline = true ∧ (ch = Util.newline ∨ ch = eof)) ∨ (put ch st).1 = [] ∨ (put ch st).1 = [32] := by
  obtain ⟨fn, escape, label, newline⟩ := st
  unfold Sound at h
  cases fn <;> cases newline <;> simp [put, run, word, eatws, init] at h hinit ⊢ <;> grind

/-- The newline of an empty line ends a word and a phrase. -/
theorem put_end {st : NetWords} (h : st.Sound) (hnewline : st.newline = true) {ch : ℤ}
    (hch : ch = Util.newline ∨ ch = eof) : put ch st = ([tokword, tokphrase], init) := by
  obtain ⟨fn, escape, label, newline⟩ := st
  obtain ⟨rfl, rfl⟩ := h hnewline
  obtain rfl := hnewline
  rcases hch with rfl | rfl <;> rfl

/-- A blank is dropped, collected or trimmed, or it is the newline of an empty line. -/
theorem put_blank (st : NetWords) {ch : ℤ} (hch : (9 ≤ ch ∧ ch ≤ 13) ∨ ch = 32) :
    (put ch st).1 = [tokword, tokphrase] ∨ (put ch st).1 = [] ∨ (put ch st).1 = [tokrtrim] ∨
      (put ch st).1 = [32] ∨ (put ch st).1 = [ch] := by
  have heof : ch ≠ eof := by unfold eof; omega
  have hescape : ch ≠ backslash := by unfold backslash; omega
  have hcolon : ch ≠ 58 := by omega
  have hblank : ch ≠ Util.newline → isblank ch = true := by
    unfold Util.newline isblank
    simp only [decide_eq_true_eq]
    omega
  cases st with
  | mk fn escape label newline =>
    cases fn <;> cases newline <;> simp only [put, run, word, eatws, if_neg heof, if_neg hescape] <;> grind

end NetWords

theorem ofChar_endsLine {b : UInt8} : EndsLine b ↔ ofChar b = newline ∨ ofChar b = eof := by
  have hb := b.toNat_lt
  simp only [EndsLine, ofChar, newline, eof, ← UInt8.toNat_inj, UInt8.lt_iff_toNat_lt]
  split <;> simp_all <;> omega

namespace Lexer

section Start

variable {W : Type} (lexer : Lexer W)

theorem start_of_none {lexer : Lexer W} (h : lexer.what = .none) : lexer.start = lexer := if_pos h

theorem start_token {lexer : Lexer W} (h : lexer.what ≠ .none) :
    lexer.start.token = if lexer.save = 0 then [] else [lexer.save] := by
  rw [start, if_neg h]

@[simp] theorem start_what : lexer.start.what = .none := by
  unfold start
  split
  next h => exact h
  next => rfl

@[simp] theorem start_start : lexer.start.start = lexer.start := start_of_none lexer.start_what

@[simp] theorem start_words' : lexer.start.words = lexer.words := by
  unfold start
  split <;> rfl

@[simp] theorem start_before : lexer.start.before = lexer.before := by
  unfold start
  split <;> rfl

/-- An append begins with the next token anyway. -/
theorem start_append [Words W] (b : UInt8) : lexer.start.append b = lexer.append b := by
  rw [append, append, start_start]

end Start

section Out

variable {W : Type} {lexer : Lexer W}

/-- A character is saved only behind a control token. -/
theorem out_save {what : ℤ} (h : lexer.what = .none → lexer.save = 0) :
    (lexer.out what).what = .none → (lexer.out what).save = 0 := by
  intro hwhat
  simp only [out] at hwhat ⊢
  split_ifs at hwhat ⊢ <;> simp_all [Lex.none]

theorem outs_save {whats : List ℤ} (h : lexer.what = .none → lexer.save = 0) :
    (lexer.outs whats).what = .none → (lexer.outs whats).save = 0 := by
  induction whats generalizing lexer with
  | nil => exact h
  | cons what whats ih => exact ih (out_save h)

@[simp] theorem outs_nil : lexer.outs [] = lexer := rfl

@[simp] theorem outs_cons (what : ℤ) (whats : List ℤ) :
    lexer.outs (what :: whats) = (lexer.out what).outs whats := rfl

@[simp] theorem out_word : lexer.out tokword = { lexer with what := { lexer.what with word := true } } := rfl

@[simp] theorem out_phrase :
    lexer.out tokphrase = { lexer with what := { lexer.what with phrase := true } } := rfl

@[simp] theorem out_rtrim :
    lexer.out tokrtrim = { lexer with token := lexer.token.take (rtrimword lexer.before lexer.token) } := rfl

/-- A character that is no control token is collected. -/
theorem out_char {what : ℤ} (hwhat : what < -5 ∨ -2 < what) (hnone : lexer.what = .none) :
    lexer.out what = { lexer with token := lexer.token ++ [toChar what] } := by
  have hlabel : what ≠ toklabel := by unfold toklabel; omega
  have hword : what ≠ tokword := by unfold tokword; omega
  have hphrase : what ≠ tokphrase := by unfold tokphrase; omega
  have hrtrim : what ≠ tokrtrim := by unfold tokrtrim; omega
  rw [out, if_neg hlabel, if_neg hword, if_neg hphrase, if_neg hrtrim, if_neg (not_not.mpr hnone)]

@[simp] theorem out_words (what : ℤ) : (lexer.out what).words = lexer.words := by
  unfold out
  split_ifs <;> rfl

@[simp] theorem out_before (what : ℤ) : (lexer.out what).before = lexer.before := by
  unfold out
  split_ifs <;> rfl

@[simp] theorem outs_words (whats : List ℤ) : (lexer.outs whats).words = lexer.words := by
  induction whats generalizing lexer with
  | nil => rfl
  | cons what whats ih => exact ih.trans (out_words what)

@[simp] theorem outs_before (whats : List ℤ) : (lexer.outs whats).before = lexer.before := by
  induction whats generalizing lexer with
  | nil => rfl
  | cons what whats ih => exact ih.trans (out_before what)

end Out

/-- What holds of a lexer over header words at any time. -/
structure Settled (lexer : Lexer NetWords) : Prop where
  words : lexer.words.Sound
  save : lexer.what = .none → lexer.save = 0

/-- The lexer goes on as a new one. -/
def Fresh (lexer : Lexer NetWords) : Prop := lexer.start = .create lexer.before .init

theorem create_settled (before : UInt8) : Settled (.create before .init) where
  words := NetWords.init_sound
  save _ := rfl

theorem start_save {lexer : Lexer NetWords} (h : lexer.Settled) : lexer.start.save = 0 := by
  unfold start
  split
  next hwhat => exact h.save hwhat
  next => rfl

/-- Every byte keeps the lexer settled. -/
theorem Settled.append {lexer : Lexer NetWords} (h : lexer.Settled) (b : UInt8) :
    (lexer.append b).Settled where
  words := by
    simp only [Lexer.append, outs_words]
    exact NetWords.put_sound (lexer.start_words' ▸ h.words) _
  save := outs_save fun _ => start_save h

theorem append_eq (lexer : Lexer NetWords) (b : UInt8) : lexer.append b =
    ({ lexer.start with words := (NetWords.put (ofChar b) lexer.words).2 } : Lexer NetWords).outs
      (NetWords.put (ofChar b) lexer.words).1 := by
  simp [append, Words.put]

theorem append_words (lexer : Lexer NetWords) (b : UInt8) :
    (lexer.append b).words = (NetWords.put (ofChar b) lexer.words).2 := by
  simp [append, Words.put]

theorem append_before (lexer : Lexer NetWords) (b : UInt8) : (lexer.append b).before = lexer.before := by
  simp [append]

/-- A fresh lexer has an initial machine and no characters. -/
theorem fresh_iff {lexer : Lexer NetWords} (h : lexer.Settled) :
    lexer.Fresh ↔ lexer.words = .init ∧ lexer.start.token = [] := by
  have hsave := start_save h
  have hwhat := lexer.start_what
  have hwords := lexer.start_words'
  have hbefore := lexer.start_before
  unfold Fresh
  generalize lexer.start = next at *
  obtain ⟨words, token, what, save, before⟩ := next
  simp only at hsave hwhat hwords hbefore
  subst hsave hwhat hwords hbefore
  simp [create]

/-- After a token the lexer is fresh exactly if an empty line has ended. -/
theorem fresh_append_iff {lexer : Lexer NetWords} (h : lexer.Settled) {b : UInt8}
    (hwhat : (lexer.append b).what ≠ .none) :
    (lexer.append b).Fresh ↔ lexer.words.newline = true ∧ EndsLine b := by
  constructor
  · intro hfresh
    have hinit := ((fresh_iff (h.append b)).mp hfresh).1
    rw [append_words] at hinit
    rcases NetWords.put_init h.words hinit with ⟨hnewline, hch⟩ | hnone | hblank
    · exact ⟨hnewline, ofChar_endsLine.mpr hch⟩
    · exact absurd (by simp [append_eq, hnone]) hwhat
    · exact absurd (by simp [append_eq, hblank, out_char]) hwhat
  · rintro ⟨hnewline, hb⟩
    have hput := NetWords.put_end h.words hnewline (ofChar_endsLine.mp hb)
    have hsave := start_save h
    have hnext : (lexer.append b).save = 0 := by
      rw [append_eq, hput]
      exact hsave
    rw [fresh_iff (h.append b), append_words, hput, start_token hwhat, if_pos hnext]
    exact ⟨rfl, rfl⟩

/-- The newline at the end of the input makes the lexer fresh exactly if an empty line ends there, or if
it was fresh. -/
theorem fresh_finish_iff {lexer : Lexer NetWords} (h : lexer.Settled) :
    lexer.finish.Fresh ↔ lexer.words.newline = true ∨ lexer.Fresh := by
  have hten : ofChar 10 = newline := by decide
  cases hnewline : lexer.words.newline with
  | true =>
    have hput := NetWords.put_end h.words hnewline (.inl hten)
    have hwhat : (lexer.append 10).what ≠ .none := by
      rw [append_eq, hput]
      simp [Lex.none]
    simpa [finish, hnewline, EndsLine] using fresh_append_iff h hwhat
  | false =>
    have hput : NetWords.put newline lexer.words = ([], .init) ∧ lexer.words = .init ∨
        (NetWords.put newline lexer.words).2 ≠ .init ∧ lexer.words ≠ .init := by
      rcases hwords : lexer.words with ⟨fn, escape, label, newline⟩
      obtain rfl : newline = false := by simpa [hwords] using hnewline
      cases fn <;> cases escape <;> cases label <;> decide
    rw [finish, fresh_iff (h.append 10), fresh_iff h, append_words, hten]
    rcases hput with ⟨hput, hinit⟩ | ⟨hput, hinit⟩
    · have hsame : lexer.append 10 = lexer.start := by
        rw [append_eq, hten, hput, ← hinit, ← lexer.start_words']
        rfl
      rw [hput, hsame, start_start, hinit]
      simp
    · simp [hput, hinit]

/-- A blank has no flags, or it ends a word and a phrase. -/
theorem append_blank {lexer : Lexer NetWords} {b : UInt8} (hb : isspace b = true) :
    (lexer.append b).what = .none ∨ (lexer.append b).what = { label := false, word := true, phrase := true } := by
  have hrange := isspace_range.mp hb
  have hlow : b < 128 := by
    rw [UInt8.lt_iff_toNat_lt]
    have hsize : (128 : UInt8).toNat = 128 := rfl
    omega
  have hch : ofChar b = b.toNat := if_pos hlow
  have hblank : (9 ≤ (b.toNat : ℤ) ∧ (b.toNat : ℤ) ≤ 13) ∨ (b.toNat : ℤ) = 32 := by omega
  rw [append_eq, hch]
  rcases NetWords.put_blank lexer.words hblank with h | h | h | h | h
  · apply Or.inr
    rw [h]
    simp [Lex.none]
  all_goals
    apply Or.inl
    rw [h]
    simp
  · rw [out_char (by omega)]
    simp
  · rw [out_char (by omega)]
    simp

/-- Where no line has just ended the newline at the end of the input has no flags. -/
theorem finish_none {lexer : Lexer NetWords} (h : lexer.words.newline = false) : lexer.finish.what = .none := by
  have hten : ofChar 10 = newline := by decide
  have hput : (NetWords.put newline lexer.words).1 = [] ∨ (NetWords.put newline lexer.words).1 = [tokrtrim] ∨
      (NetWords.put newline lexer.words).1 = [newline] := by
    cases hwords : lexer.words with
    | mk fn escape label ended =>
      obtain rfl : ended = false := by simpa [hwords] using h
      cases fn <;> cases escape <;> cases label <;> decide
  rw [finish, append_eq, hten]
  rcases hput with hput | hput | hput
  · rw [hput]
    simp
  · rw [hput]
    simp
  · rw [hput, outs_cons, out_char (by unfold newline; omega)]
    · simp
    · simp

/-- Where a line has just ended it ends the word and the phrase. -/
theorem finish_line {lexer : Lexer NetWords} (hsound : lexer.words.Sound) (h : lexer.words.newline = true) :
    lexer.finish.what = { label := false, word := true, phrase := true } ∧
      lexer.finish.token = lexer.start.token := by
  have hten : ofChar 10 = newline := by decide
  rw [finish, append_eq, hten, NetWords.put_end hsound h (.inl rfl)]
  simp [Lex.none]

end Lexer

end Aug.Util
