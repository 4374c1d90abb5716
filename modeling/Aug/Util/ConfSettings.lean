import Aug.Util.ConfLines

/-!
# Settings without a second label

A line whose words cannot be taken for labels is sent as its key, the label, its words and a phrase, whatever the
lines before it were. The reader then calls back with the key and the joined words.
-/

namespace Aug.Util

open Piece ShellWords

/-- An unquoted delimiter behind the first part of a word. -/
def Part.Delimits (parts : List Part) : Prop := .bare 61 ∈ (parts.dropWhile (· = .continued)).tail

instance (parts : List Part) : Decidable (Part.Delimits parts) := inferInstanceAs (Decidable (_ ∈ _))

/-- A setting with words that the reader can pass on: none has a NUL or a carriage return, and none but the first
has a delimiter. -/
structure Setting.Clear (setting : Setting) : Prop where
  text : ∀ entry ∈ setting.words, 0 ∉ Part.textOf entry.1 ∧ 13 ∉ Part.textOf entry.1
  plain : ∀ entry ∈ setting.words.tail, ¬Part.Delimits entry.1

namespace ShellWords

variable {label : Bool} {fn : ShellFn} {part : Part} {parts : List Part} {gap : List UInt8}

/-- A part of a word, where it neither begins a comment nor ends a label. -/
theorem part_sends (hallowed : part.Allowed) (hreturn : 13 ∉ part.text) (hcomment : fn = .eatws → part ≠ .bare 35)
    (hlabel : fn = .bare → label = true → part ≠ .bare 61) (hfn : fn = .eatws ∨ fn = .bare) :
    Sends (pairing fn label) part.source (chars part.text)
      (pairing (if part = .continued then fn else .bare) label) := by
  cases part with
  | bare b =>
    apply bare_sends hallowed
    · intro heatws heq
      exact hcomment heatws (heq ▸ rfl)
    · intro hbare htrue heq
      exact hlabel hbare htrue (heq ▸ rfl)
    · exact hfn
  | escaped b => exact escaped_sends hallowed (fun heq => hreturn (List.mem_singleton.mpr heq.symm)) hfn
  | continued => exact continued_sends hfn
  | single text => exact single_sends hallowed hreturn hfn
  | double parts => exact double_sends hallowed hreturn hfn

/-- The parts behind the first one. -/
theorem parts_send (hallowed : ∀ part ∈ parts, part.Allowed) (hreturn : 13 ∉ Part.textOf parts)
    (hlabel : label = true → .bare 61 ∉ parts) :
    Sends (pairing .bare label) (Part.sourceOf parts) (chars (Part.textOf parts)) (pairing .bare label) := by
  apply Sends.each
  intro part hpart
  have hpartreturn : 13 ∉ part.text := fun hmem => hreturn (List.mem_flatMap.mpr ⟨part, hpart, hmem⟩)
  have hone : Sends (pairing .bare label) part.source (chars part.text)
      (pairing (if part = .continued then .bare else .bare) label) :=
    part_sends (hallowed part hpart) hpartreturn nofun (fun _ htrue heq => hlabel htrue (heq ▸ hpart)) (.inr rfl)
  rwa [ite_self] at hone

/-- A word, from its first part on. -/
theorem word_sends (hnonempty : Part.textOf parts ≠ []) (hallowed : ∀ part ∈ parts, part.Allowed)
    (hbegins : (parts.dropWhile (· = .continued)).head? ≠ some (.bare 35)) (hreturn : 13 ∉ Part.textOf parts)
    (hlabel : label = true → ¬Part.Delimits parts) :
    Sends (pairing .eatws label) (Part.sourceOf parts) (chars (Part.textOf parts)) (pairing .bare label) := by
  induction parts with
  | nil => exact absurd rfl hnonempty
  | cons part parts ih =>
    have ⟨hpart, hrest⟩ := List.forall_mem_cons.mp hallowed
    rw [Part.textOf_cons, List.mem_append, not_or] at hreturn
    by_cases hcontinued : part = .continued
    · rw [hcontinued] at hnonempty hbegins hlabel ⊢
      exact (continued_sends (.inl rfl)).append (ih hnonempty hrest hbegins hreturn.2 hlabel)
    · have hdrop : (part :: parts).dropWhile (· = .continued) = part :: parts := by
        rw [List.dropWhile_cons_of_neg]
        simpa using hcontinued
      rw [Part.Delimits, hdrop] at hlabel
      rw [hdrop] at hbegins
      have hfirst : Sends (pairing .eatws label) part.source (chars part.text)
          (pairing (if part = .continued then .eatws else .bare) label) :=
        part_sends hpart hreturn.1 (fun _ heq => hbegins (heq ▸ rfl)) nofun (.inl rfl)
      rw [if_neg hcontinued] at hfirst
      have hall := hfirst.append (parts_send hrest hreturn.2 hlabel)
      rwa [← chars_append] at hall

/-- Blank space before a word. -/
theorem gap_sends (hblank : Blank gap) : Sends (pairing .eatws label) gap [] (pairing .eatws label) := by
  induction gap with
  | nil => exact .nil
  | cons b gap ih =>
    have hrest := ih fun c hc => hblank c (List.mem_cons_of_mem b hc)
    have ⟨hspace, hnewline⟩ := hblank b (List.mem_cons_self ..)
    have hone : Sends (pairing .eatws label) [b] [] (pairing .eatws label) := by
      rcases blank_cases hspace hnewline with rfl | rfl | rfl | rfl | rfl <;> rfl
    exact hone.append hrest

/-- Blank space behind a word ends it, but for carriage returns. -/
theorem gap_ends (hblank : Blank gap) : Sends (pairing .bare label) gap [tokword] (pairing .eatws true) ∨
    Sends (pairing .bare label) gap [] (pairing .bare label) ∧ ¬Separates gap := by
  induction gap with
  | nil => exact .inr ⟨.nil, fun h => List.not_mem_nil h.choose_spec.1⟩
  | cons b gap ih =>
    have hrest : Blank gap := fun c hc => hblank c (List.mem_cons_of_mem b hc)
    have ⟨hspace, hnewline⟩ := hblank b (List.mem_cons_self ..)
    by_cases hreturn : b = 13
    · rw [hreturn]
      cases ih hrest with
      | inl h => exact .inl (return_sends.append h)
      | inr h =>
        apply Or.inr
        apply And.intro (return_sends.append h.1)
        intro ⟨c, hc, hne⟩
        exact h.2 ⟨c, (List.mem_cons.mp hc).resolve_left hne, hne⟩
    · have hone : Sends (pairing .bare label) [b] [tokword] (pairing .eatws true) := by
        rcases blank_cases hspace hnewline with rfl | rfl | rfl | rfl | rfl
        · cases label <;> rfl
        · cases label <;> rfl
        · cases label <;> rfl
        · exact absurd rfl hreturn
        · cases label <;> rfl
      exact .inl (hone.append (gap_sends hrest))

/-- The newline behind a word. -/
theorem newline_sends : Sends (pairing .bare label) [10] [tokword, tokphrase] (pairing .eatws true) := by
  cases label <;> rfl

/-- The words behind the first one. -/
theorem words_tail {first : List Part × List UInt8} {words : List (List Part × List UInt8)}
    (h : Setting.Words (first :: words)) : Setting.Words words where
  word entry hentry := h.word entry (List.mem_cons_of_mem first hentry)
  blank entry hentry := h.blank entry (List.mem_cons_of_mem first hentry)
  separated entry hentry := by
    cases words with
    | nil => cases hentry
    | cons second words => exact h.separated entry (List.mem_cons_of_mem first hentry)

/-- Several words and the newline behind them, where the label has been read. -/
theorem words_send {first : List Part × List UInt8} {words : List (List Part × List UInt8)}
    (hwords : Setting.Words (first :: words)) (hreturn : ∀ entry ∈ first :: words, 13 ∉ Part.textOf entry.1)
    (hfirst : label = true → ¬Part.Delimits first.1) (hplain : ∀ entry ∈ words, ¬Part.Delimits entry.1) :
    Sends (pairing .eatws label) (Setting.wordsOf (first :: words) ++ [10])
      ((first :: words).flatMap (fun entry => chars (Part.textOf entry.1) ++ [tokword]) ++ [tokphrase])
      (pairing .eatws true) := by
  induction words generalizing first label with
  | nil =>
    have hword := hwords.word first (List.mem_cons_self ..)
    have hone := word_sends hword.nonempty hword.allowed hword.begins (hreturn first (List.mem_cons_self ..)) hfirst
    have hend : Sends (pairing .bare label) (first.2 ++ [10]) [tokword, tokphrase] (pairing .eatws true) := by
      cases @gap_ends label _ (hwords.blank first (List.mem_cons_self ..)) with
      | inl h => exact h.append rfl
      | inr h => exact h.1.append newline_sends
    have hall := hone.append hend
    simpa only [Setting.wordsOf, List.flatMap_cons, List.flatMap_nil, List.append_nil, List.append_assoc,
      List.cons_append, List.nil_append] using hall
  | cons second words ih =>
    have hword := hwords.word first (List.mem_cons_self ..)
    have hone := word_sends hword.nonempty hword.allowed hword.begins (hreturn first (List.mem_cons_self ..)) hfirst
    have hseparates := hwords.separated first (List.mem_cons_self ..)
    have hgap : Sends (pairing .bare label) first.2 [tokword] (pairing .eatws true) :=
      (gap_ends (hwords.blank first (List.mem_cons_self ..))).resolve_right fun h => h.2 hseparates
    have hrest := @ih true second (words_tail hwords) (fun entry hentry => hreturn entry (List.mem_cons_of_mem first hentry))
      (fun _ => hplain second (List.mem_cons_self ..)) fun entry hentry => hplain entry (List.mem_cons_of_mem second hentry)
    have hall := (hone.append hgap).append hrest
    simpa only [Setting.wordsOf, List.flatMap_cons, List.append_assoc] using hall

/-- The key of a setting is a word without a delimiter. -/
theorem key_sends {setting : Setting} (hvalid : setting.Valid) :
    Sends (pairing .eatws true) (setting.lead ++ setting.key ++ [61] ++ setting.gap)
      (chars setting.key ++ [toklabel]) (pairing .eatws false) := by
  have htext : Part.textOf (setting.key.map .bare) = setting.key := by
    simp [Part.textOf, List.flatMap_map, Part.text]
  have hsource : Part.sourceOf (setting.key.map .bare) = setting.key := by
    simp [Part.sourceOf, List.flatMap_map, Part.source]
  have hdrop : (setting.key.map Part.bare).dropWhile (· = .continued) = setting.key.map .bare := by
    cases setting.key <;> simp
  have hreturn : 13 ∉ setting.key := fun hmem => by
    have hspace := (hvalid.key 13 hmem).1.1
    simp [isspace] at hspace
  have hplain : ¬Part.Delimits (setting.key.map .bare) := by
    rw [Part.Delimits, hdrop]
    intro hmem
    obtain ⟨b, hb, heq⟩ := List.mem_map.mp (List.mem_of_mem_tail hmem)
    rw [Part.bare.injEq] at heq
    exact (hvalid.key b hb).2.1 heq
  have hword : Sends (pairing .eatws true) (Part.sourceOf (setting.key.map .bare))
      (chars (Part.textOf (setting.key.map .bare))) (pairing .bare true) := by
    apply word_sends
    · rw [htext]
      exact hvalid.named
    · intro part hpart
      obtain ⟨b, hb, rfl⟩ := List.mem_map.mp hpart
      exact (hvalid.key b hb).1
    · rw [hdrop, List.head?_map]
      intro heq
      obtain ⟨b, hb, hbare⟩ := Option.map_eq_some_iff.mp heq
      rw [Part.bare.injEq] at hbare
      exact hvalid.begins (hbare ▸ hb)
    · rw [htext]
      exact hreturn
    · intro _
      exact hplain
  rw [htext, hsource] at hword
  have hlabel : Sends (pairing .bare true) [61] [toklabel] (pairing .eatws false) := rfl
  have hall := (((gap_sends hvalid.lead).append hword).append hlabel).append (gap_sends hvalid.gap)
  simpa only [List.append_nil, List.nil_append] using hall

/-- A clear setting is sent as it is meant. -/
theorem setting_sends {setting : Setting} (hvalid : setting.Valid) (hclear : setting.Clear) :
    Sends (pairing .eatws true) (setting.source ++ [10])
      (chars setting.key ++ [toklabel] ++
        (setting.words.flatMap (fun entry => chars (Part.textOf entry.1) ++ [tokword]) ++ [tokphrase]))
      (pairing .eatws true) := by
  have hkey := key_sends hvalid
  cases hwords : setting.words with
  | nil => exact absurd hwords hvalid.some
  | cons first words =>
    have hall := hvalid.words
    have htext := hclear.text
    have hplain := hclear.plain
    rw [hwords] at hall htext hplain
    have hrest := @words_send false first words hall (fun entry hentry => (htext entry hentry).2) nofun hplain
    rw [Setting.source, hwords, List.append_assoc]
    exact hkey.append hrest

/-- A line without a setting is a phrase alone. -/
theorem line_sends {line : ConfLine} (hvalid : line.Valid) (hnone : line.setting? = none) :
    Sends (pairing .eatws true) (line.source ++ [10]) [tokphrase] (pairing .eatws true) := by
  cases line with
  | setting setting => cases hnone
  | blank gap => exact (gap_sends hvalid).append rfl
  | comment lead text =>
    have hcomment : ∀ text : List UInt8, 10 ∉ text → Sends (pairing .comment true) (text ++ [10]) [tokphrase]
        (pairing .eatws true) := by
      intro text hnewline
      induction text with
      | nil => rfl
      | cons b text ih =>
        rw [List.mem_cons, not_or] at hnewline
        have hone : Sends (pairing .comment true) [b] [] (pairing .comment true) := by
          by_cases hreturn : b = 13
          · rw [hreturn]
            exact return_sends
          · have hne : (b.toNat : ℤ) ≠ newline := char_ne (Ne.symm hnewline.1)
            apply Sends.run hreturn
            simp [pairing, run, ShellWords.comment, hne]
        exact hone.append (ih hnewline.2)
    have hbegin : Sends (pairing .eatws true) [35] [] (pairing .comment true) := rfl
    have hall := ((gap_sends hvalid.1).append hbegin).append (hcomment text hvalid.2)
    simpa only [ConfLine.source, List.append_assoc, List.cons_append, List.nil_append] using hall

end ShellWords

end Aug.Util
