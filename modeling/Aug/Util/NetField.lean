import Aug.Util.NetUnfolding

/-!
# Folded fields

A field in front of another line: the network lexer reports its value as the next token. It does so for every clean
value and for no other.
-/

namespace Aug.Util

open Value ShellWords

namespace Value

variable {text : List Item} {item : Item}

/-- An escaped character is never dropped. -/
theorem mem_lead (h : item ∈ text) (hitem : item.blank = false) : item ∈ lead text := by
  induction text with
  | nil => cases h
  | cons other text ih =>
    by_cases hother : other.blank = true
    · rw [lead, List.dropWhile_cons_of_pos hother]
      apply ih
      cases h with
      | head => rw [hitem] at hother; cases hother
      | tail _ hmem => exact hmem
    · rwa [lead, List.dropWhile_cons_of_neg hother]

theorem mem_trim (h : item ∈ text) (hitem : item.blank = false) : item ∈ trim text := by
  rw [trim, List.rdropWhile, List.mem_reverse]
  exact mem_lead (List.mem_reverse.mpr h) hitem

theorem mem_unfoldWith (hitem : item.blank = false) {rest : List (UInt8 × List Item)}
    (h : item ∈ text ∨ ∃ line ∈ rest, item ∈ line.2) : item ∈ unfoldWith text rest := by
  induction rest generalizing text with
  | nil => exact h.resolve_right fun h => List.not_mem_nil h.choose_spec.1
  | cons line rest ih =>
    apply ih
    have hjoin : item ∈ text ∨ item ∈ line.2 → item ∈ trim (join text line.2) := by
      intro h
      apply mem_trim _ hitem
      cases h with
      | inl h => exact List.mem_append_left _ h
      | inr h => exact List.mem_append_right text (List.mem_cons_of_mem _ (mem_lead h hitem))
    cases h with
    | inl h => exact .inl (hjoin (.inl h))
    | inr h =>
      obtain ⟨other, hother, hmem⟩ := h
      cases hother with
      | head => exact .inl (hjoin (.inr hmem))
      | tail _ hother => exact .inr ⟨other, hother, hmem⟩

/-- A value that keeps no carriage return has none that is escaped. -/
theorem no_escaped_return {value : Value} (h : 13 ∉ textOf value.unfolded) :
    .escaped 13 ∉ value.first ∧ ∀ line ∈ value.rest, .escaped 13 ∉ line.2 := by
  have hnone : Item.escaped 13 ∉ value.unfolded := fun hmem => h (List.mem_map.mpr ⟨_, hmem, rfl⟩)
  constructor
  · intro hmem
    exact hnone (mem_unfoldWith rfl (.inl (mem_trim (mem_lead hmem rfl) rfl)))
  · intro line hline hmem
    exact hnone (mem_unfoldWith rfl (.inr ⟨line, hline, hmem⟩))

end Value

namespace Lexer

/-! ## Carriage returns -/

/-- The lexer has collected no carriage return. -/
structure Dry (lexer : Lexer NetWords) : Prop where
  token : 13 ∉ lexer.token
  save : lexer.save ≠ 13

variable {lexer : Lexer NetWords} {b : UInt8} {what : ℤ}

theorem zero_ne_thirteen : (0 : UInt8) ≠ 13 := by decide

theorem Dry.start (h : lexer.Dry) : lexer.start.Dry := by
  unfold Lexer.start
  split_ifs
  · exact h
  · exact ⟨List.not_mem_nil, zero_ne_thirteen⟩
  · exact ⟨by simpa using h.save.symm, zero_ne_thirteen⟩

theorem Dry.out (h : lexer.Dry) (hwhat : what = toklabel ∨ what = tokword ∨ what = tokphrase ∨ what = tokrtrim ∨
    toChar what ≠ 13) : (lexer.out what).Dry := by
  unfold Lexer.out
  split_ifs with hlabel hword hphrase hrtrim
  · exact ⟨h.token, h.save⟩
  · exact ⟨h.token, h.save⟩
  · exact ⟨h.token, h.save⟩
  · exact ⟨fun hmem => h.token (List.mem_of_mem_take hmem), h.save⟩
  · exact ⟨h.token, by tauto⟩
  · refine ⟨?_, h.save⟩
    have hchar : toChar what ≠ 13 := by tauto
    rw [List.mem_append, not_or]
    exact ⟨h.token, by simpa using hchar.symm⟩

/-- The header words send tokens, the character they are given and spaces. -/
theorem net_run_sent {ch : ℤ} {st : NetWords} (h : what ∈ (NetWords.run ch st).1) :
    what = toklabel ∨ what = tokword ∨ what = tokphrase ∨ what = tokrtrim ∨ what = ch ∨ what = 32 := by
  have hword : ∀ st : NetWords, what ∈ (NetWords.word ch st).1 →
      what = toklabel ∨ what = tokword ∨ what = tokphrase ∨ what = tokrtrim ∨ what = ch ∨ what = 32 := by
    intro st hmem
    unfold NetWords.word at hmem
    split_ifs at hmem <;> simp at hmem <;> tauto
  unfold NetWords.run at h
  split at h
  · unfold NetWords.eatws at h
    split_ifs at h
    · simp at h
      tauto
    · cases h
    · exact hword _ h
    · cases h
    · cases h
    · simp at h
      tauto
  · exact hword st h

/-- The header words never send one. -/
theorem net_sent {st : NetWords} (h : what ∈ (NetWords.put (ofChar b) st).1) :
    what = toklabel ∨ what = tokword ∨ what = tokphrase ∨ what = tokrtrim ∨ toChar what ≠ 13 := by
  have hspace : toChar 32 ≠ 13 := by decide
  have hnewline : toChar newline ≠ 13 := by decide
  unfold NetWords.put at h
  split_ifs at h with heof hreturn
  · rcases net_run_sent h with h | h | h | h | h | h
    · exact .inl h
    · exact .inr (.inl h)
    · exact .inr (.inr (.inl h))
    · exact .inr (.inr (.inr (.inl h)))
    · exact .inr (.inr (.inr (.inr (h ▸ hnewline))))
    · exact .inr (.inr (.inr (.inr (h ▸ hspace))))
  · cases h
  · have hb : toChar (ofChar b) ≠ 13 := by
      rw [toChar_ofChar]
      rintro rfl
      exact hreturn rfl
    rcases net_run_sent h with h | h | h | h | h | h
    · exact .inl h
    · exact .inr (.inl h)
    · exact .inr (.inr (.inl h))
    · exact .inr (.inr (.inr (.inl h)))
    · exact .inr (.inr (.inr (.inr (h ▸ hb))))
    · exact .inr (.inr (.inr (.inr (h ▸ hspace))))

theorem Dry.append (h : lexer.Dry) (b : UInt8) : (lexer.append b).Dry := by
  have houts : ∀ (whats : List ℤ) {lexer : Lexer NetWords}, (∀ what ∈ whats, what = toklabel ∨ what = tokword ∨
      what = tokphrase ∨ what = tokrtrim ∨ toChar what ≠ 13) → lexer.Dry → (lexer.outs whats).Dry := by
    intro whats
    induction whats with
    | nil => exact fun _ h => h
    | cons what whats ih =>
      intro lexer hwhats h
      exact ih (fun other hother => hwhats other (List.mem_cons_of_mem what hother))
        (h.out (hwhats what (List.mem_cons_self ..)))
  rw [append_eq]
  apply houts _ fun what hwhat => net_sent hwhat
  exact ⟨h.start.token, h.start.save⟩

theorem Dry.appends (h : lexer.Dry) (input : List UInt8) : (lexer.appends input).Dry := by
  induction input generalizing lexer with
  | nil => exact h
  | cons b input ih => exact ih (h.append b)

/-! ## Fields -/

/-- A character that begins another line: the next field, or the newline behind all of them. -/
def Begins (b : UInt8) : Prop := b < 128 ∧ b ≠ 13 ∧ (isspace b = true → b = 10)

instance (b : UInt8) : Decidable (Begins b) := inferInstanceAs (Decidable (_ ∧ _))

/-- With the next line the value is reported as it is meant, and no byte has the lexer look in front of a token. -/
def Unfolds (lexer : Lexer NetWords) (name : List UInt8) (value : Value) (next : UInt8) : Prop :=
  let input := name ++ [58] ++ value.source ++ [next]
  (lexer.appends input).what.word = true ∧ (lexer.appends input).token = textOf value.unfolded ∧
    ¬lexer.PeeksIn input

/-- The first character of another line ends the word. -/
theorem begins_ends (hb : Begins b) (before : UInt8) (token : List UInt8) :
    ((holding before folded token).append b).what.word = true ∧
      ((holding before folded token).append b).token = token ∧ ¬(holding before folded token).Peeks b := by
  by_cases hnewline : b = 10
  · rw [hnewline]
    refine ⟨rfl, rfl, fun h => ?_⟩
    have hput : (NetWords.put (ofChar 10) folded).1 = [tokword, tokphrase] := rfl
    have htrim : tokrtrim ∈ (NetWords.put (ofChar 10) folded).1 := h.1
    rw [hput] at htrim
    exact absurd htrim (by decide)
  by_cases hbackslash : b = 92
  · rw [hbackslash]
    refine ⟨rfl, rfl, fun h => ?_⟩
    have hput : (NetWords.put (ofChar 92) folded).1 = [tokword] := rfl
    have htrim : tokrtrim ∈ (NetWords.put (ofChar 92) folded).1 := h.1
    rw [hput] at htrim
    exact absurd htrim (by decide)
  · have hspace : isspace b = false := by
      cases hspace : isspace b with
      | false => rfl
      | true => exact absurd (hb.2.2 hspace) hnewline
    have hblank : isblank b.toNat = false := isblank_of_not_space hspace
    have hnewline' : (b.toNat : ℤ) ≠ newline := char_ne hnewline
    have hbackslash' : (b.toNat : ℤ) ≠ backslash := char_ne hbackslash
    have hput : NetWords.put (ofChar b) folded = ([tokword, (b.toNat : ℤ)], naming) := by
      rw [put_char hb.1 hb.2.1]
      simp [NetWords.run, NetWords.word, folded, folding, naming, hnewline', hbackslash', hblank]
    have hword : ({ Lex.none with word := true } : Lex) ≠ .none := by decide
    have hended : ({ holding before naming token with what := { Lex.none with word := true } } : Lexer NetWords).what ≠
        .none := hword
    have hsent : (holding before folded token).append b =
        { holding before naming token with what := { Lex.none with word := true }, save := b } := by
      have hbegun : (holding before folded token).start = holding before folded token := rfl
      rw [append_eq, hbegun]
      change ({ holding before folded token with words := (NetWords.put (ofChar b) folded).2 } : Lexer NetWords).outs
        (NetWords.put (ofChar b) folded).1 = _
      rw [hput]
      exact out_saved hended b
    rw [hsent]
    refine ⟨rfl, rfl, fun h => ?_⟩
    have htrim : tokrtrim ∈ (NetWords.put (ofChar b) folded).1 := h.1
    rw [hput] at htrim
    simp only [List.mem_cons, List.not_mem_nil, or_false] at htrim
    unfold tokrtrim tokword at htrim
    omega

theorem create_atLine (before : UInt8) : (create before NetWords.init).AtLine := ⟨create_settled before, .inl rfl⟩

/-- `a\ b `, a blank line and a tab with `c`. -/
def foldedValue : Value :=
  { first := [.plain 97, .escaped 32, .plain 98, .plain 32]
    rest := [(32, []), (9, [.plain 32, .plain 99])] }

/-- `x\ `, where the blank at the end is escaped. -/
def escapedValue : Value := { first := [.plain 120, .escaped 32], rest := [] }

end Lexer

end Aug.Util
