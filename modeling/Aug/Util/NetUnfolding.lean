import Aug.Util.NetTrimming
import Aug.Util.ShellQuoting

/-!
# The value of a field

What the network lexer makes of a field whose value is written on any number of lines. The token is the value with
the blanks dropped, and `aug_rtrimword` stays inside of the token, exactly if the value is clean.
-/

namespace Aug.Util

open Value ShellWords

namespace Lexer

/-! ## Looks in front of the buffer -/

/-- The byte has the token trimmed, and there are blanks only. -/
def Peeks (lexer : Lexer NetWords) (b : UInt8) : Prop :=
  tokrtrim ∈ (NetWords.put (ofChar b) lexer.words).1 ∧ Looks lexer.start.token

/-- One of the bytes does. -/
def PeeksIn (lexer : Lexer NetWords) : List UInt8 → Prop
  | [] => False
  | b :: input => lexer.Peeks b ∨ (lexer.append b).PeeksIn input

theorem peeksIn_append (lexer : Lexer NetWords) (input rest : List UInt8) :
    lexer.PeeksIn (input ++ rest) ↔ lexer.PeeksIn input ∨ (lexer.appends input).PeeksIn rest := by
  induction input generalizing lexer with
  | nil => exact (or_iff_right id).symm
  | cons b input ih =>
    change lexer.Peeks b ∨ (lexer.append b).PeeksIn (input ++ rest) ↔ _
    rw [ih, ← or_assoc]
    rfl

/-- It makes no difference whether the next token has begun. -/
theorem peeksIn_start (lexer : Lexer NetWords) (input : List UInt8) :
    lexer.start.PeeksIn input ↔ lexer.PeeksIn input := by
  cases input with
  | nil => rfl
  | cons b input => rw [PeeksIn, PeeksIn, start_append, Peeks, Peeks, start_start, start_words']

/-- The input is collected as the text, without a look in front of the buffer. -/
structure Gathers (st next : NetWords) (input text : List UInt8) : Prop where
  collects : Collects st next input text
  inside : ∀ before token, ¬(holding before st token).PeeksIn input

namespace Gathers

variable {st next last : NetWords} {input rest text more : List UInt8} {b : UInt8}

theorem nil : Gathers st st [] [] := ⟨.nil, fun _ _ => id⟩

theorem append (hfirst : Gathers st next input text) (hrest : Gathers next last rest more) :
    Gathers st last (input ++ rest) (text ++ more) where
  collects := hfirst.collects.append hrest.collects
  inside before token := by
    rw [peeksIn_append, not_or, (hfirst.collects before token).1]
    exact ⟨hfirst.inside before token, hrest.inside before _⟩

/-- A character that the machine passes on or drops. -/
theorem one (hput : NetWords.put (ofChar b) st = (text.map ofChar, next)) (htext : ∀ c ∈ text, c < 251) :
    Gathers st next [b] text where
  collects := .one hput htext
  inside before token := by
    rintro (⟨htrim, -⟩ | hnone)
    · change tokrtrim ∈ (NetWords.put (ofChar b) st).1 at htrim
      rw [hput] at htrim
      obtain ⟨c, hc, heq⟩ := List.mem_map.mp htrim
      have hrange := ofChar_range (htext c hc)
      rw [heq] at hrange
      revert hrange
      decide
    · exact hnone

end Gathers

/-! ## Lines of a value -/

/-- The header words within a value. -/
def folding (fn : NetFn) : NetWords := { fn, escape := false, label := false, newline := false }

/-- The header words behind a line. -/
def folded : NetWords := { folding .word with newline := true }

section Lines

variable {b : UInt8} {item : Item} {line : List Item} {st : NetWords}

/-- A 7-bit character other than the carriage return is run. -/
theorem put_char (hb : b < 128) (hreturn : b ≠ 13) : NetWords.put (ofChar b) st = NetWords.run b.toNat st := by
  have hvalue : ofChar b = b.toNat := if_pos hb
  have hne : (b.toNat : ℤ) ≠ return' := char_ne hreturn
  have heof : (b.toNat : ℤ) ≠ eof := by
    unfold eof
    omega
  rw [NetWords.put, hvalue, if_neg heof, if_neg hne]

theorem chars_of (hb : b < 128) : ([b].map ofChar : List ℤ) = [(b.toNat : ℤ)] := by
  rw [List.map_singleton, ofChar, if_pos hb]

theorem lt_token (hb : b < 128) : ∀ c ∈ [b], c < 251 := by
  intro c hc
  rw [List.mem_singleton.mp hc]
  have hlt := UInt8.lt_iff_toNat_lt.mp hb
  change b.toNat < 128 at hlt
  apply UInt8.lt_iff_toNat_lt.mpr
  change b.toNat < 251
  omega

/-- A blank in front of a line is dropped. -/
theorem blank_gathers (hspace : isspace b = true) (hnewline : b ≠ 10) :
    Gathers (folding .eatws) (folding .eatws) [b] [] := by
  have hnone : ∀ c ∈ ([] : List UInt8), c < 251 := nofun
  rcases blank_cases hspace hnewline with rfl | rfl | rfl | rfl | rfl <;> exact Gathers.one rfl hnone

/-- So is a carriage return anywhere. -/
theorem return_gathers : Gathers st st [13] [] := Gathers.one rfl nofun

/-- Another character begins the line or stands in it. -/
theorem plain_gathers {fn : NetFn} (hb : b < 128) (hnewline : b ≠ 10) (hbackslash : b ≠ 92) (hreturn : b ≠ 13)
    (hfn : fn = .eatws → isspace b = false) : Gathers (folding fn) (folding .word) [b] [b] := by
  have hnewline' : (b.toNat : ℤ) ≠ newline := char_ne hnewline
  have hbackslash' : (b.toNat : ℤ) ≠ backslash := char_ne hbackslash
  apply Gathers.one _ (lt_token hb)
  rw [put_char hb hreturn, chars_of hb]
  cases fn with
  | eatws =>
    have hblank : isblank b.toNat = false := isblank_of_not_space (hfn rfl)
    simp [folding, NetWords.run, NetWords.eatws, hnewline', hbackslash', hblank]
  | word => simp [folding, NetWords.run, NetWords.word, hnewline', hbackslash']

/-- A character behind a backslash stands for itself. -/
theorem escaped_gathers (fn : NetFn) (hb : b < 128) (hreturn : b ≠ 13) :
    Gathers (folding fn) (folding .word) [92, b] [b] := by
  have hescape : Gathers (folding fn) { folding fn with escape := true } [92] [] := by
    cases fn <;> exact Gathers.one rfl nofun
  have hliteral : Gathers { folding fn with escape := true } (folding .word) [b] [b] := by
    apply Gathers.one _ (lt_token hb)
    rw [put_char hb hreturn, chars_of hb]
    cases fn <;> rfl
  exact hescape.append hliteral

/-- A line from its first character on. -/
theorem word_gathers (hallowed : ∀ item ∈ line, item.Allowed) (hreturn : .escaped 13 ∉ line) :
    Gathers (folding .word) (folding .word) (line.flatMap Item.source) (textOf (visible line)) := by
  induction line with
  | nil => exact .nil
  | cons item line ih =>
    have hitem := hallowed item (List.mem_cons_self ..)
    rw [List.mem_cons, not_or] at hreturn
    have hrest := ih (fun other hother => hallowed other (List.mem_cons_of_mem item hother)) hreturn.2
    cases item with
    | plain b =>
      by_cases hb : b = 13
      · rw [hb]
        exact return_gathers.append hrest
      · have hvisible : visible (.plain b :: line) = .plain b :: visible line :=
          List.filter_cons_of_pos (by simpa using hb)
        rw [hvisible]
        exact (@plain_gathers b .word hitem.1 hitem.2.1 hitem.2.2 hb nofun).append hrest
    | escaped b =>
      have hb : b ≠ 13 := fun heq => hreturn.1 (heq ▸ rfl)
      exact (escaped_gathers .word hitem hb).append hrest

/-- A line with its leading blanks. -/
theorem line_gathers (hallowed : ∀ item ∈ line, item.Allowed) (hreturn : .escaped 13 ∉ line) :
    ∃ fn, Gathers (folding .eatws) (folding fn) (line.flatMap Item.source) (textOf (lead (visible line))) := by
  induction line with
  | nil => exact ⟨.eatws, .nil⟩
  | cons item line ih =>
    have ⟨hitem, hlater⟩ := List.forall_mem_cons.mp hallowed
    rw [List.mem_cons, not_or] at hreturn
    rw [lead_visible]
    cases item with
    | plain b =>
      by_cases hblank : isspace b = true
      · have ⟨fn, hrest⟩ := ih hlater hreturn.2
        have hlead : lead (.plain b :: line) = lead line := List.dropWhile_cons_of_pos hblank
        rw [lead_visible] at hrest
        rw [hlead]
        exact ⟨fn, (blank_gathers hblank hitem.2.1).append hrest⟩
      · have hb : b ≠ 13 := fun heq => hblank (heq ▸ rfl)
        have hlead : lead (.plain b :: line) = .plain b :: line := List.dropWhile_cons_of_neg hblank
        have hvisible : visible (.plain b :: line) = .plain b :: visible line :=
          List.filter_cons_of_pos (by simpa using hb)
        rw [hlead, hvisible]
        exact ⟨.word, (plain_gathers hitem.1 hitem.2.1 hitem.2.2 hb fun _ => by simpa using hblank).append
          (word_gathers hlater hreturn.2)⟩
    | escaped b =>
      have hb : b ≠ 13 := fun heq => hreturn.1 (heq ▸ rfl)
      exact ⟨.word, (escaped_gathers .eatws hitem hb).append (word_gathers hlater hreturn.2)⟩

/-- The newline trims the token. -/
theorem newline_cuts (fn : NetFn) (before : UInt8) (token : List UInt8) :
    (holding before (folding fn) token).append 10 = holding before folded (cut before token) ∧
      ((holding before (folding fn) token).Peeks 10 ↔ Looks token) := by
  have hput : NetWords.put (ofChar 10) (folding fn) = ([tokrtrim], folded) := by cases fn <;> rfl
  constructor
  · cases fn <;> rfl
  · change tokrtrim ∈ (NetWords.put (ofChar 10) (folding fn)).1 ∧ Looks token ↔ Looks token
    rw [hput]
    exact and_iff_right (List.mem_singleton.mpr rfl)

/-- The blank of a further line is a space in the token. -/
theorem fold_gathers (hb : b = 9 ∨ b = 11 ∨ b = 12 ∨ b = 32) : Gathers folded (folding .eatws) [b] [32] := by
  apply Gathers.one
  · rcases hb with rfl | rfl | rfl | rfl <;> rfl
  · decide +kernel

/-- A line and its newline. -/
theorem line_cuts {fn : NetFn} {input text : List UInt8} (h : Gathers st (folding fn) input text)
    (before : UInt8) (token : List UInt8) :
    (holding before st token).appends (input ++ [10]) = holding before folded (cut before (token ++ text)) ∧
      ((holding before st token).PeeksIn (input ++ [10]) ↔ Looks (token ++ text)) := by
  have ⟨hcut, hpeeks⟩ := newline_cuts fn before (token ++ text)
  have hcollects := (h.collects before token).1
  constructor
  · rw [appends_append, hcollects]
    exact hcut
  · rw [peeksIn_append, hcollects, or_iff_right (h.inside before token), ← hpeeks]
    exact or_iff_left id

/-- Further lines. -/
theorem rest_cuts {rest : List (UInt8 × List Item)}
    (hallowed : ∀ line ∈ rest, (∀ item ∈ line.2, item.Allowed) ∧ (line.1 = 9 ∨ line.1 = 11 ∨ line.1 = 12 ∨ line.1 = 32))
    (hreturn : ∀ line ∈ rest, .escaped 13 ∉ line.2) (before : UInt8) (token : List UInt8) :
    let source := rest.flatMap fun line => line.1 :: line.2.flatMap Item.source ++ [10]
    let seen := rest.map fun line => (line.1, visible line.2)
    (holding before folded token).appends source = holding before folded (cutWith before token seen) ∧
      ((holding before folded token).PeeksIn source ↔ LooksWith before token seen) := by
  induction rest generalizing token with
  | nil => exact ⟨rfl, Iff.rfl⟩
  | cons line rest ih =>
    have ⟨hitems, hblank⟩ := hallowed line (List.mem_cons_self ..)
    have ⟨fn, hline⟩ := line_gathers hitems (hreturn line (List.mem_cons_self ..))
    have ⟨hcut, hpeeks⟩ := line_cuts ((fold_gathers hblank).append hline) before token
    have ⟨hrest, hrestpeeks⟩ := ih (fun other hother => hallowed other (List.mem_cons_of_mem line hother))
      (fun other hother => hreturn other (List.mem_cons_of_mem line hother))
      (cut before (token ++ 32 :: textOf (lead (visible line.2))))
    constructor
    · rw [List.flatMap_cons, appends_append]
      change ((holding before folded token).appends ([line.1] ++ line.2.flatMap Item.source ++ [10])).appends _ = _
      rw [hcut]
      exact hrest
    · rw [List.flatMap_cons, peeksIn_append]
      change (holding before folded token).PeeksIn ([line.1] ++ line.2.flatMap Item.source ++ [10]) ∨
        ((holding before folded token).appends ([line.1] ++ line.2.flatMap Item.source ++ [10])).PeeksIn _ ↔ _
      rw [hcut, hpeeks]
      exact or_congr Iff.rfl hrestpeeks

/-- A value from its first line on. -/
theorem value_cuts {value : Value} (hvalid : value.Valid) (hfirst : .escaped 13 ∉ value.first)
    (hrest : ∀ line ∈ value.rest, .escaped 13 ∉ line.2) (before : UInt8) :
    (holding before (folding .eatws) []).appends value.source = holding before folded
        (cutWith before (cut before (textOf (lead value.seen.first))) value.seen.rest) ∧
      ((holding before (folding .eatws) []).PeeksIn value.source ↔ Looks (textOf (lead value.seen.first)) ∨
        LooksWith before (cut before (textOf (lead value.seen.first))) value.seen.rest) := by
  have ⟨fn, hline⟩ := line_gathers hvalid.first hfirst
  have ⟨hcut, hpeeks⟩ := line_cuts hline before []
  have ⟨hlater, hlaterpeeks⟩ := rest_cuts hvalid.rest hrest before (cut before (textOf (lead value.seen.first)))
  rw [Value.source, appends_append, peeksIn_append, hcut, hpeeks]
  exact ⟨hlater, or_congr Iff.rfl hlaterpeeks⟩

end Lines

/-! ## Names -/

/-- The lexer is in front of a line that begins a field. -/
structure AtLine (lexer : Lexer NetWords) : Prop where
  settled : lexer.Settled
  words : lexer.words = .init ∨ lexer.words.fn = .word ∧ lexer.words.escape = false ∧ lexer.words.newline = true

/-- A character of a field name: a printable one that is no colon and no backslash. -/
def NameChar (b : UInt8) : Prop := 33 ≤ b ∧ b < 127 ∧ b ≠ 58 ∧ b ≠ 92

instance (b : UInt8) : Decidable (NameChar b) := inferInstanceAs (Decidable (_ ∧ _))

/-- The header words within a name. -/
def naming : NetWords := { fn := .word, escape := false, label := true, newline := false }

section Names

variable {lexer : Lexer NetWords} {b : UInt8}

/-- The lexer is behind a character of a name. -/
structure Naming (lexer : Lexer NetWords) (b : UInt8) : Prop where
  settled : lexer.Settled
  words : lexer.words = naming
  token : ∃ front, lexer.start.token = front ++ [b]

/-- What a character of a name is not. -/
theorem nameChar_ne (hb : NameChar b) : b < 128 ∧ b ≠ 13 ∧ b ≠ 0 ∧ isspace b = false := by
  have hlow := UInt8.le_iff_toNat_le.mp hb.1
  have hhigh := UInt8.lt_iff_toNat_lt.mp hb.2.1
  change 33 ≤ b.toNat at hlow
  change b.toNat < 127 at hhigh
  refine ⟨UInt8.lt_iff_toNat_lt.mpr ?_, ?_, ?_, ?_⟩
  · change b.toNat < 128
    omega
  · rintro rfl
    exact absurd hlow (by decide)
  · rintro rfl
    exact absurd hlow (by decide)
  · have hrange := @isspace_range b
    cases hspace : isspace b with
    | false => rfl
    | true =>
      have hcases := hrange.mp hspace
      omega

/-- It is run as a character of a name. -/
theorem name_run (hb : NameChar b) : NetWords.put (ofChar b) .init = ([(b.toNat : ℤ)], naming) ∧
    NetWords.put (ofChar b) naming = ([(b.toNat : ℤ)], naming) ∧ ∀ st : NetWords, st.fn = .word → st.escape = false →
      st.newline = true → NetWords.put (ofChar b) st = ([tokword, (b.toNat : ℤ)], naming) := by
  have ⟨hseven, hreturn, _, hspace⟩ := nameChar_ne hb
  have hnewline : (b.toNat : ℤ) ≠ newline := char_ne fun heq : b = 10 => by simp [heq, isspace] at hspace
  have hbackslash : (b.toNat : ℤ) ≠ backslash := char_ne hb.2.2.2
  have hcolon : (b.toNat : ℤ) ≠ 58 := char_ne hb.2.2.1
  have hblank : isblank b.toNat = false := isblank_of_not_space hspace
  rw [put_char hseven hreturn, put_char hseven hreturn]
  refine ⟨?_, ?_, ?_⟩
  · simp [NetWords.run, NetWords.init, NetWords.eatws, naming, hnewline, hbackslash, hblank]
  · simp [NetWords.run, NetWords.word, naming, hnewline, hbackslash, hcolon]
  · rintro ⟨fn, escape, label, ending⟩ rfl rfl rfl
    rw [put_char hseven hreturn]
    simp [NetWords.run, NetWords.word, naming, hnewline, hbackslash, hblank]

/-- A character that is only passed on is collected. -/
theorem append_collects {st : NetWords} (hput : NetWords.put (ofChar b) lexer.words = ([(b.toNat : ℤ)], st)) :
    (lexer.append b).start.token = lexer.start.token ++ [b] := by
  have hrange : (b.toNat : ℤ) < -5 ∨ -2 < (b.toNat : ℤ) := by omega
  have hwhat : ({ lexer.start with words := st } : Lexer NetWords).what = .none := lexer.start_what
  rw [append_eq, hput, outs_cons, outs_nil, out_char hrange hwhat, toChar_byte]
  have hnext : ({ lexer.start with words := st, token := lexer.start.token ++ [b] } : Lexer NetWords).what = .none :=
    hwhat
  exact congrArg Lexer.token (start_of_none hnext)

/-- A character behind a control token is saved for the next token. -/
theorem out_saved {lexer : Lexer NetWords} (h : lexer.what ≠ .none) (b : UInt8) :
    lexer.out b.toNat = { lexer with save := b } := by
  have hlabel : (b.toNat : ℤ) ≠ toklabel := by unfold toklabel; omega
  have hword : (b.toNat : ℤ) ≠ tokword := by unfold tokword; omega
  have hphrase : (b.toNat : ℤ) ≠ tokphrase := by unfold tokphrase; omega
  have hrtrim : (b.toNat : ℤ) ≠ tokrtrim := by unfold tokrtrim; omega
  rw [out, if_neg hlabel, if_neg hword, if_neg hphrase, if_neg hrtrim, if_pos h, toChar_byte]

/-- The first character of a name. -/
theorem AtLine.name (h : lexer.AtLine) (hb : NameChar b) : (lexer.append b).Naming b ∧ ¬lexer.Peeks b := by
  have ⟨hinit, _, hline⟩ := name_run hb
  cases h.words with
  | inl hwords =>
    rw [← hwords] at hinit
    constructor
    · refine ⟨h.settled.append b, ?_, ?_⟩
      · rw [append_words, hinit]
      · exact ⟨_, append_collects hinit⟩
    · rintro ⟨htrim, -⟩
      rw [hinit, List.mem_singleton] at htrim
      unfold tokrtrim at htrim
      omega
  | inr hwords =>
    have hput := hline lexer.words hwords.1 hwords.2.1 hwords.2.2
    constructor
    · refine ⟨h.settled.append b, ?_, [], ?_⟩
      · rw [append_words, hput]
      · have hended : ({ lexer.start with words := naming, what := { lexer.start.what with word := true } } :
            Lexer NetWords).what ≠ .none := fun heq => Bool.noConfusion (congrArg Lex.word heq)
        have hsent : lexer.append b =
            { lexer.start with words := naming, what := { lexer.start.what with word := true }, save := b } := by
          rw [append_eq, hput, outs_cons, outs_cons, outs_nil, out_word]
          exact out_saved hended b
        have hsaved : ({ lexer.start with words := naming, what := { lexer.start.what with word := true }, save := b } :
            Lexer NetWords).what ≠ .none := hended
        rw [hsent, start_token hsaved]
        exact if_neg (nameChar_ne hb).2.2.1
    · rintro ⟨htrim, -⟩
      rw [hput] at htrim
      simp only [List.mem_cons, List.not_mem_nil, or_false] at htrim
      unfold tokrtrim tokword at htrim
      omega

/-- The characters behind it. -/
theorem Naming.name {c : UInt8} (h : lexer.Naming c) (hb : NameChar b) :
    (lexer.append b).Naming b ∧ ¬lexer.Peeks b := by
  have ⟨_, hnaming, _⟩ := name_run hb
  rw [← h.words] at hnaming
  constructor
  · refine ⟨h.settled.append b, ?_, _, append_collects hnaming⟩
    rw [append_words, hnaming, h.words]
  · rintro ⟨htrim, -⟩
    rw [hnaming, List.mem_singleton] at htrim
    unfold tokrtrim at htrim
    omega

/-- The colon ends the name, and the value begins with an empty token. -/
theorem Naming.colon (h : lexer.Naming b) (hb : NameChar b) :
    (lexer.append 58).start = holding lexer.before (folding .eatws) [] ∧ ¬lexer.Peeks 58 := by
  have hput : NetWords.put (ofChar 58) lexer.words = ([tokrtrim, toklabel], folding .eatws) := by
    rw [h.words]
    rfl
  have hsave := start_save h.settled
  constructor
  · have hsent : lexer.append 58 = ({ lexer.start with words := folding .eatws } : Lexer NetWords).outs
        [tokrtrim, toklabel] := by rw [append_eq, hput]
    have hwhat := lexer.start_what
    have hbefore := lexer.start_before
    rw [hsent, ← hbefore]
    generalize lexer.start = next at *
    obtain ⟨words, token, what, save, before⟩ := next
    simp only at hsave hwhat
    rw [hsave, hwhat]
    rfl
  · rintro ⟨-, hlooks⟩
    obtain ⟨front, hfront⟩ := h.token
    have hspace := (nameChar_ne hb).2.2.2
    rw [hfront, Looks, trimmed_eq_zero] at hlooks
    rw [hlooks.2 b (by simp)] at hspace
    cases hspace

/-- The rest of a name and a colon. -/
theorem Naming.label (h : lexer.Naming b) (hb : NameChar b) {name : List UInt8} (hname : ∀ c ∈ name, NameChar c) :
    (lexer.appends (name ++ [58])).start = holding lexer.before (folding .eatws) [] ∧
      ¬lexer.PeeksIn (name ++ [58]) := by
  induction name generalizing lexer b with
  | nil =>
    have ⟨hcolon, hpeeks⟩ := h.colon hb
    exact ⟨hcolon, fun h => h.elim hpeeks id⟩
  | cons c name ih =>
    have hc := hname c (List.mem_cons_self ..)
    have ⟨hnext, hpeeks⟩ := h.name hc
    have ⟨hrest, hrestpeeks⟩ := ih hnext hc fun d hd => hname d (List.mem_cons_of_mem c hd)
    rw [append_before] at hrest
    exact ⟨hrest, fun h => h.elim hpeeks hrestpeeks⟩

/-- A name and a colon. -/
theorem AtLine.label (h : lexer.AtLine) {name : List UInt8} (hname : ∀ b ∈ name, NameChar b) (hnamed : name ≠ []) :
    (lexer.appends (name ++ [58])).start = holding lexer.before (folding .eatws) [] ∧
      ¬lexer.PeeksIn (name ++ [58]) := by
  cases name with
  | nil => exact absurd rfl hnamed
  | cons b name =>
    have hb := hname b (List.mem_cons_self ..)
    have ⟨hnext, hpeeks⟩ := h.name hb
    have ⟨hrest, hrestpeeks⟩ := hnext.label hb fun c hc => hname c (List.mem_cons_of_mem b hc)
    rw [append_before] at hrest
    exact ⟨hrest, fun h => h.elim hpeeks hrestpeeks⟩

end Names

end Lexer

end Aug.Util
