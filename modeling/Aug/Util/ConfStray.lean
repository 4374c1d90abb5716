import Aug.Util.ConfReading

/-!
# Settings with a second label

A delimiter that the reader takes for the end of a second label is lost: with it, what is put out until the next
phrase is shorter than the key and the value of the setting.
-/

namespace Aug.Util

open ShellWords

namespace ShellWords

variable {words next : ShellWords} {input rest : List UInt8} {whats more : List ℤ} {n m : ℕ} {label : Bool}
  {fn : ShellFn} {parts : List Part} {gap : List UInt8}

/-- The characters among some tokens, and the spaces before further words. -/
def weight (whats : List ℤ) : ℕ := whats.countP (· ≠ toklabel)

theorem weight_append : weight (whats ++ more) = weight whats + weight more := List.countP_append

theorem weight_chars (text : List UInt8) : weight (chars text) = text.length := by
  rw [weight, chars, List.countP_map, List.countP_eq_length]
  intro b _
  have hne : (b.toNat : ℤ) ≠ toklabel := by unfold toklabel; omega
  simpa using hne

theorem phrase_not_mem_chars (text : List UInt8) : tokphrase ∉ chars text := by
  intro hmem
  obtain ⟨b, -, heq⟩ := List.mem_map.mp hmem
  unfold tokphrase at heq
  omega

/-- For the input a phrase is sent, and no more than so many characters before it. -/
def Falls (words : ShellWords) (input : List UInt8) (n : ℕ) : Prop :=
  ∃ before ending more next, Sends words input (before ++ ending ++ more) next ∧ tokphrase ∉ before ∧
    weight before ≤ n ∧ (ending = [tokphrase] ∨ ending = [tokword, tokphrase])

namespace Falls

theorem mono (h : Falls words input n) (hle : n ≤ m) : Falls words input m := by
  obtain ⟨before, ending, more, next, hsends, hphrase, hweight, hending⟩ := h
  exact ⟨before, ending, more, next, hsends, hphrase, hweight.trans hle, hending⟩

/-- What is sent first counts. -/
theorem prepend (h : Sends words input whats next) (hphrase : tokphrase ∉ whats) (hrest : Falls next rest n) :
    Falls words (input ++ rest) (weight whats + n) := by
  obtain ⟨before, ending, more, last, hsends, hnone, hweight, hending⟩ := hrest
  refine ⟨whats ++ before, ending, more, last, ?_, ?_, ?_, hending⟩
  · have hall := h.append hsends
    simpa only [List.append_assoc] using hall
  · rw [List.mem_append, not_or]
    exact ⟨hphrase, hnone⟩
  · rw [weight_append]
    exact Nat.add_le_add_left hweight _

/-- What comes behind the phrase does not. -/
theorem append (h : Falls words input n) (rest : List UInt8) : Falls words (input ++ rest) n := by
  obtain ⟨before, ending, more, next, hsends, hphrase, hweight, hending⟩ := h
  have hall := hsends.append (show Sends next rest (feed rest next).1 (feed rest next).2 from rfl)
  rw [List.append_assoc] at hall
  exact ⟨before, ending, _, _, hall, hphrase, hweight, hending⟩

/-- A comment ends with the next newline. -/
theorem comment (hnewline : 10 ∈ input) : Falls (pairing .comment label) input 0 := by
  induction input with
  | nil => cases hnewline
  | cons b input ih =>
    by_cases hb : b = 10
    · rw [hb]
      have hone : Falls (pairing .comment label) [10] 0 :=
        ⟨[], [tokphrase], [], pairing .eatws label, rfl, List.not_mem_nil, Nat.le_refl _, .inl rfl⟩
      exact hone.append input
    · have hone : Sends (pairing .comment label) [b] [] (pairing .comment label) := by
        by_cases hreturn : b = 13
        · rw [hreturn]
          exact return_sends
        · have hne : (b.toNat : ℤ) ≠ newline := char_ne hb
          apply Sends.run hreturn
          simp [pairing, run, ShellWords.comment, hne]
      have hall := prepend hone List.not_mem_nil (ih ((List.mem_cons.mp hnewline).resolve_left (Ne.symm hb)))
      exact hall

/-- The end of the line. -/
theorem ends (hblank : Blank gap) (hfn : fn = .eatws ∨ fn = .bare) : Falls (pairing fn label) (gap ++ [10]) 0 := by
  cases hfn with
  | inl h =>
    rw [h]
    exact ⟨[], [tokphrase], [], pairing .eatws label, (gap_sends hblank).append rfl, List.not_mem_nil,
      Nat.le_refl _, .inl rfl⟩
  | inr h =>
    rw [h]
    refine ⟨[], [tokword, tokphrase], [], pairing .eatws true, ?_, List.not_mem_nil, Nat.le_refl _, .inr rfl⟩
    cases @gap_ends label _ hblank with
    | inl h => exact h.append rfl
    | inr h => exact h.1.append newline_sends

/-- Blank space before another word. -/
theorem between (hblank : Blank gap) (hseparates : Separates gap) (hfn : fn = .eatws ∨ fn = .bare)
    (hrest : ∀ label, Falls (pairing .eatws label) rest n) : Falls (pairing fn label) (gap ++ rest) (1 + n) := by
  cases hfn with
  | inl h =>
    rw [h]
    have hall := prepend (gap_sends hblank) List.not_mem_nil (hrest label)
    exact hall.mono (Nat.add_le_add_right (Nat.zero_le 1) n)
  | inr h =>
    rw [h]
    have hgap : Sends (pairing .bare label) gap [tokword] (pairing .eatws true) :=
      (gap_ends hblank).resolve_right fun h => h.2 hseparates
    exact prepend hgap (by decide) (hrest true)

/-- The parts of a word send no more than their text, wherever the reader has got to. -/
theorem within (hallowed : ∀ part ∈ parts, part.Allowed) (hreturn : 13 ∉ Part.textOf parts)
    (hfn : fn = .eatws ∨ fn = .bare) (hnewline : 10 ∈ rest)
    (hrest : ∀ {fn} label, fn = .eatws ∨ fn = .bare → Falls (pairing fn label) rest n) :
    Falls (pairing fn label) (Part.sourceOf parts ++ rest) ((Part.textOf parts).length + n) := by
  induction parts generalizing fn label with
  | nil =>
    apply (hrest label hfn).mono
    exact Nat.le_add_left n _
  | cons part parts ih =>
    have ⟨hpart, hlater⟩ := List.forall_mem_cons.mp hallowed
    rw [Part.textOf_cons, List.mem_append, not_or] at hreturn
    rw [Part.textOf_cons, Part.sourceOf_cons_append, List.length_append, Nat.add_assoc]
    by_cases hcomment : fn = .eatws ∧ part = .bare 35
    · rw [hcomment.1, hcomment.2]
      have hbegin : Sends (pairing .eatws label) [35] [] (pairing .comment label) := rfl
      have hall := prepend hbegin List.not_mem_nil
        (Falls.comment (List.mem_append_right (Part.sourceOf parts) hnewline))
      exact hall.mono (Nat.zero_le _)
    by_cases hlabel : fn = .bare ∧ label = true ∧ part = .bare 61
    · rw [hlabel.1, hlabel.2.1, hlabel.2.2]
      have hbegin : Sends (pairing .bare true) [61] [toklabel] (pairing .eatws false) := rfl
      have hall := prepend hbegin (by decide) (@ih false .eatws hlater hreturn.2 (.inl rfl))
      exact hall.mono (Nat.add_le_add_right (Nat.zero_le _) _)
    · have hone : Sends (pairing fn label) part.source (chars part.text)
          (pairing (if part = .continued then fn else .bare) label) :=
        part_sends hpart hreturn.1 (fun heatws heq => hcomment ⟨heatws, heq⟩)
          (fun hbare htrue heq => hlabel ⟨hbare, htrue, heq⟩) hfn
      have hnext : (if part = .continued then fn else .bare) = .eatws ∨
          (if part = .continued then fn else .bare) = .bare := by
        split
        · exact hfn
        · exact .inr rfl
      have hall := prepend hone (phrase_not_mem_chars _) (ih hlater hreturn.2 hnext)
      rwa [weight_chars] at hall

/-- Behind the first part of a word a delimiter is lost, where labels are looked for. -/
theorem strays (hallowed : ∀ part ∈ parts, part.Allowed) (hreturn : 13 ∉ Part.textOf parts)
    (hstray : .bare 61 ∈ parts) (hnewline : 10 ∈ rest)
    (hrest : ∀ {fn} label, fn = .eatws ∨ fn = .bare → Falls (pairing fn label) rest n)
    (hm : m + 1 = (Part.textOf parts).length + n) :
    Falls (pairing .bare true) (Part.sourceOf parts ++ rest) m := by
  induction parts generalizing m with
  | nil => cases hstray
  | cons part parts ih =>
    have ⟨hpart, hlater⟩ := List.forall_mem_cons.mp hallowed
    rw [Part.textOf_cons, List.mem_append, not_or] at hreturn
    rw [Part.textOf_cons, List.length_append] at hm
    rw [Part.sourceOf_cons_append]
    by_cases hbare : part = .bare 61
    · rw [hbare] at hm ⊢
      have hbegin : Sends (pairing .bare true) [61] [toklabel] (pairing .eatws false) := rfl
      have hall := prepend hbegin (by decide) (Falls.within hlater hreturn.2 (.inl rfl) hnewline hrest)
      apply hall.mono
      change 0 + _ ≤ m
      change m + 1 = 1 + _ + n at hm
      omega
    · have hone : Sends (pairing .bare true) part.source (chars part.text)
          (pairing (if part = .continued then .bare else .bare) true) :=
        part_sends hpart hreturn.1 nofun (fun _ _ heq => hbare heq) (.inr rfl)
      rw [ite_self] at hone
      have hmem : .bare 61 ∈ parts := (List.mem_cons.mp hstray).resolve_left (Ne.symm hbare)
      have hpos : 0 < (Part.textOf parts).length := Part.textOf_pos hmem
      obtain ⟨k, hk⟩ : ∃ k, k + 1 = (Part.textOf parts).length + n := ⟨(Part.textOf parts).length + n - 1, by omega⟩
      have hall := prepend hone (phrase_not_mem_chars _) (ih hlater hreturn.2 hmem hk)
      rw [weight_chars] at hall
      apply hall.mono
      omega

/-- A word with a delimiter behind its first part. -/
theorem delimits (hallowed : ∀ part ∈ parts, part.Allowed)
    (hbegins : (parts.dropWhile (· = .continued)).head? ≠ some (.bare 35)) (hreturn : 13 ∉ Part.textOf parts)
    (hstray : Part.Delimits parts) (hnewline : 10 ∈ rest)
    (hrest : ∀ {fn} label, fn = .eatws ∨ fn = .bare → Falls (pairing fn label) rest n)
    (hm : m + 1 = (Part.textOf parts).length + n) : Falls (pairing .eatws true) (Part.sourceOf parts ++ rest) m := by
  induction parts with
  | nil => cases hstray
  | cons part parts ih =>
    have ⟨hpart, hlater⟩ := List.forall_mem_cons.mp hallowed
    rw [Part.textOf_cons, List.mem_append, not_or] at hreturn
    rw [Part.textOf_cons, List.length_append] at hm
    rw [Part.sourceOf_cons_append]
    by_cases hcontinued : part = .continued
    · rw [hcontinued] at hbegins hstray hm ⊢
      have hnext : Sends (pairing .eatws true) [92, 10] [] (pairing .eatws true) := continued_sends (.inl rfl)
      have hall := prepend hnext List.not_mem_nil (ih hlater hbegins hreturn.2 hstray
        (by rw [hm]; exact congrArg (· + n) (Nat.zero_add _)))
      exact hall.mono (Nat.le_of_eq (Nat.zero_add m))
    · have hdrop : (part :: parts).dropWhile (· = .continued) = part :: parts := by
        rw [List.dropWhile_cons_of_neg]
        simpa using hcontinued
      rw [Part.Delimits, hdrop] at hstray
      rw [hdrop] at hbegins
      have hone : Sends (pairing .eatws true) part.source (chars part.text)
          (pairing (if part = .continued then .eatws else .bare) true) :=
        part_sends hpart hreturn.1 (fun _ heq => hbegins (heq ▸ rfl)) (by simp) (.inl rfl)
      rw [if_neg hcontinued] at hone
      have hpos : 0 < (Part.textOf parts).length := Part.textOf_pos hstray
      have hk : (Part.textOf parts).length + n - 1 + 1 = (Part.textOf parts).length + n := by omega
      have hall := prepend hone (phrase_not_mem_chars _) (strays hlater hreturn.2 hstray hnewline hrest hk)
      rw [weight_chars] at hall
      apply hall.mono
      omega

section Line

variable {first : List Part × List UInt8} {words : List (List Part × List UInt8)}

/-- What stands behind the first word. -/
theorem behind (hwords : Setting.Words (first :: words)) (hreturn : ∀ entry ∈ words, 13 ∉ Part.textOf entry.1)
    (hfn : fn = .eatws ∨ fn = .bare) : Falls (pairing fn label) (first.2 ++ (Setting.wordsOf words ++ [10]))
      (words.flatMap fun entry => 32 :: Part.textOf entry.1).length := by
  induction words generalizing first fn label with
  | nil => exact ends (hwords.blank first (List.mem_cons_self ..)) hfn
  | cons second words ih =>
    have hlater := words_tail hwords
    have hword := hlater.word second (List.mem_cons_self ..)
    have hlength : ((second :: words).flatMap fun entry => 32 :: Part.textOf entry.1).length =
        1 + ((Part.textOf second.1).length + (words.flatMap fun entry => 32 :: Part.textOf entry.1).length) := by
      simp only [List.flatMap_cons, List.length_append, List.length_cons]
      omega
    rw [Setting.wordsOf_cons_append, hlength]
    apply between (hwords.blank first (List.mem_cons_self ..)) (hwords.separated first (List.mem_cons_self ..)) hfn
    intro label
    apply within hword.allowed (hreturn second (List.mem_cons_self ..)) (.inl rfl) (by simp)
    intro fn label hfn
    exact ih hlater (fun entry hentry => hreturn entry (List.mem_cons_of_mem second hentry)) hfn

/-- Several words and the newline behind them, with a delimiter that is taken for the end of a label. -/
theorem stray_line (hwords : Setting.Words (first :: words))
    (hreturn : ∀ entry ∈ first :: words, 13 ∉ Part.textOf entry.1)
    (hstray : label = true ∧ Part.Delimits first.1 ∨ ∃ entry ∈ words, Part.Delimits entry.1)
    (hm : m + 1 = (Setting.joined (first :: words)).length) :
    Falls (pairing .eatws label) (Setting.wordsOf (first :: words) ++ [10]) m := by
  induction words generalizing first label m with
  | nil =>
    have hword := hwords.word first (List.mem_cons_self ..)
    have hfirst := hstray.resolve_right fun h => List.not_mem_nil h.choose_spec.1
    rw [Conf.joined_cons] at hm
    rw [hfirst.1, Setting.wordsOf_cons_append]
    exact delimits hword.allowed hword.begins (hreturn first (List.mem_cons_self ..)) hfirst.2 (by simp)
      (fun _ hfn => behind hwords nofun hfn) (by simpa using hm)
  | cons second words ih =>
    have hword := hwords.word first (List.mem_cons_self ..)
    have hlater : ∀ entry ∈ second :: words, 13 ∉ Part.textOf entry.1 :=
      fun entry hentry => hreturn entry (List.mem_cons_of_mem first hentry)
    rw [Setting.wordsOf_cons_append]
    by_cases hfirst : label = true ∧ Part.Delimits first.1
    · rw [Conf.joined_cons, List.length_append] at hm
      rw [hfirst.1]
      exact delimits hword.allowed hword.begins (hreturn first (List.mem_cons_self ..)) hfirst.2 (by simp)
        (fun _ hfn => behind hwords hlater hfn) hm
    · have hsecond : true = true ∧ Part.Delimits second.1 ∨ ∃ entry ∈ words, Part.Delimits entry.1 := by
        obtain ⟨entry, hentry, hdelimits⟩ := hstray.resolve_left hfirst
        cases List.mem_cons.mp hentry with
        | inl h => exact .inl ⟨rfl, h ▸ hdelimits⟩
        | inr h => exact .inr ⟨entry, h, hdelimits⟩
      have hone := word_sends hword.nonempty hword.allowed hword.begins (hreturn first (List.mem_cons_self ..))
        fun htrue hdelimits => hfirst ⟨htrue, hdelimits⟩
      have hgap : Sends (pairing .bare label) first.2 [tokword] (pairing .eatws true) :=
        (gap_ends (hwords.blank first (List.mem_cons_self ..))).resolve_right
          fun h => h.2 (hwords.separated first (List.mem_cons_self ..))
      have hpos : 0 < (Part.textOf second.1).length :=
        List.length_pos_of_ne_nil (hwords.word second (List.mem_cons_of_mem first (List.mem_cons_self ..))).nonempty
      have hjoined := congrArg List.length (Conf.joined_cons second words)
      have hk : (Setting.joined (second :: words)).length - 1 + 1 = (Setting.joined (second :: words)).length := by
        rw [List.length_append] at hjoined
        omega
      have hrest := ih (words_tail hwords) hlater hsecond hk
      have hall := prepend hone (phrase_not_mem_chars _) (prepend hgap (by decide) hrest)
      apply hall.mono
      rw [Conf.joined_cons, List.length_append, List.flatMap_cons, List.length_append, List.length_cons] at hm
      rw [List.length_append] at hjoined
      rw [weight_chars]
      change _ + (1 + _) ≤ m
      omega

end Line

end Falls

end ShellWords

end Aug.Util
