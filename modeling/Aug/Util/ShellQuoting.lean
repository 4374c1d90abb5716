import Aug.Util.Collecting
import Mathlib.Data.FinEnum
import Mathlib.Data.List.TakeWhile

/-!
# Shell quoting

A word is written as pieces, each in one of the quoting styles of `shellwords.c`. The shell lexer reads a line
of written words back: it reports the words in order and then a phrase, and goes on as a new lexer.
-/

namespace Aug.Util

/-- A part of a word in one of the quoting styles. -/
inductive Piece
  | escaped (b : UInt8)
  | single (text : List UInt8)
  | double (text : List UInt8)
  | bare (b : UInt8)
deriving DecidableEq, Repr

namespace Piece

/-- The characters that a piece stands for. -/
def text : Piece → List UInt8
  | escaped b => [b]
  | single text => text
  | double text => text
  | bare b => [b]

/-- A character within double quotes. -/
def doubled (b : UInt8) : List UInt8 := if b = 34 ∨ b = 92 then [92, b] else [b]

/-- The characters that a piece is written with. -/
def source : Piece → List UInt8
  | escaped b => [92, b]
  | single text => 39 :: text ++ [39]
  | double text => 34 :: text.flatMap doubled ++ [34]
  | bare b => [b]

/-- A 7-bit character other than NUL and carriage return. -/
def WordChar (b : UInt8) : Prop := b < 128 ∧ b ≠ 0 ∧ b ≠ 13

instance (b : UInt8) : Decidable (WordChar b) := inferInstanceAs (Decidable (_ ∧ _))

/-- A character without a meaning of its own inside of a bare word. -/
def Plain (b : UInt8) : Prop := isspace b = false ∧ b ≠ 34 ∧ b ≠ 39 ∧ b ≠ 59 ∧ b ≠ 92

instance (b : UInt8) : Decidable (Plain b) := inferInstanceAs (Decidable (_ ∧ _))

/-- A piece that is written as its style allows. -/
def Allowed : Piece → Prop
  | escaped b => WordChar b ∧ b ≠ 10
  | single text => (∀ b ∈ text, WordChar b) ∧ 39 ∉ text
  | double text => ∀ b ∈ text, WordChar b
  | bare b => WordChar b ∧ Plain b

instance (piece : Piece) : Decidable piece.Allowed := by
  cases piece <;> unfold Allowed <;> infer_instance

end Piece

/-- A written word has a piece, and it does not begin as a comment. -/
structure Written (pieces : List Piece) : Prop where
  nonempty : pieces ≠ []
  allowed : ∀ piece ∈ pieces, piece.Allowed
  begins : pieces.head? ≠ some (.bare 35)

/-- Blank space within a line. -/
def Blank (gap : List UInt8) : Prop := ∀ b ∈ gap, isspace b = true ∧ b ≠ 10

/-- The carriage return is ignored, so it separates no words by itself. -/
def Separates (gap : List UInt8) : Prop := ∃ b ∈ gap, b ≠ 13

/-- A line of written words, each with the blank space behind it, separated from the next one. -/
structure Line (entries : List (List Piece × List UInt8)) : Prop where
  written : ∀ entry ∈ entries, Written entry.1
  blank : ∀ entry ∈ entries, Blank entry.2
  separated : ∀ entry ∈ entries.dropLast, Separates entry.2

/-- The word that pieces stand for. -/
def wordOf (pieces : List Piece) : List UInt8 := pieces.flatMap Piece.text

/-- The characters of the line without its newline. -/
def sourceOf (entries : List (List Piece × List UInt8)) : List UInt8 :=
  entries.flatMap fun entry => entry.1.flatMap Piece.source ++ entry.2

namespace ShellWords

open Lexer Piece

/-- The machine without pairs in one of its states. -/
def at' (fn : ShellFn) : ShellWords := { init false with fn }

/-- A character that is no end of the input and no carriage return is run. -/
theorem put_wordChar {b : UInt8} (hb : WordChar b) (st : ShellWords) :
    put (ofChar b) st = run b.toNat st := by
  have ⟨hlt, _, hreturn⟩ := hb
  have hvalue : ofChar b = b.toNat := if_pos hlt
  have hne : (b.toNat : ℤ) ≠ return' := by
    intro heq
    apply hreturn
    rw [← UInt8.toNat_inj]
    unfold return' at heq
    change b.toNat = 13
    omega
  have heof : (b.toNat : ℤ) ≠ eof := by
    unfold eof
    omega
  rw [put, hvalue, if_neg heof, if_neg hne]

/-- A character is one of the code as it is a byte. -/
theorem char_ne {b c : UInt8} (h : b ≠ c) : (b.toNat : ℤ) ≠ c.toNat := by
  intro heq
  apply h
  rw [← UInt8.toNat_inj]
  omega

variable {b : UInt8}

/-- A character that is passed on. -/
theorem passes {st next : ShellWords} (hb : WordChar b) (hrun : run b.toNat st = ([(b.toNat : ℤ)], next)) :
    Collects st next [b] [b] := by
  apply Collects.one
  · have hvalue : ofChar b = b.toNat := if_pos hb.1
    change put (ofChar b) st = _
    rw [put_wordChar hb, hrun, List.map_singleton, hvalue]
  · intro c hc
    rw [List.mem_singleton.mp hc]
    have hlt := UInt8.lt_iff_toNat_lt.mp hb.1
    change b.toNat < 128 at hlt
    apply UInt8.lt_iff_toNat_lt.mpr
    change b.toNat < 251
    omega

/-- A character that only changes the state. -/
theorem drops {st next : ShellWords} (hput : put (ofChar b) st = ([], next)) : Collects st next [b] [] :=
  Collects.one hput nofun

/-- A backslash quotes the next character. -/
theorem escaped_collects {fn : ShellFn} (hb : WordChar b) (hnewline : b ≠ 10) (hfn : fn = .eatws ∨ fn = .bare) :
    Collects (at' fn) (at' .bare) [92, b] [b] := by
  have hne : (b.toNat : ℤ) ≠ newline := char_ne hnewline
  have hbegin : Collects (at' fn) { at' fn with escape := true } [92] [] := by
    apply drops
    cases hfn with
    | inl h => rw [h]; rfl
    | inr h => rw [h]; rfl
  have hliteral : Collects { at' fn with escape := true } (at' .bare) [b] [b] := by
    apply passes hb
    cases hfn with
    | inl h => simp [h, at', run, eatws, hne, init]
    | inr h => simp [h, at', run, bare, hne, init]
  exact hbegin.append hliteral

/-- Single quotes quote a text without single quotes. -/
theorem single_collects {fn : ShellFn} {text : List UInt8} (htext : ∀ b ∈ text, WordChar b) (hquote : 39 ∉ text)
    (hfn : fn = .eatws ∨ fn = .bare) : Collects (at' fn) (at' .bare) (39 :: text ++ [39]) text := by
  have hopen : Collects (at' fn) (at' .squot) [39] [] := by
    apply drops
    cases hfn with
    | inl h => rw [h]; rfl
    | inr h => rw [h]; rfl
  have hinside : Collects (at' .squot) (at' .squot) (text.flatMap fun b => [b]) text := by
    apply Collects.each
    intro b hb
    have hother : b ≠ 39 := fun heq => hquote (heq ▸ hb)
    have hne : (b.toNat : ℤ) ≠ 39 := char_ne hother
    apply passes (htext b hb)
    simp [at', run, squot, hne]
  have hclose : Collects (at' .squot) (at' .bare) [39] [] := drops rfl
  rw [List.flatMap_singleton'] at hinside
  have hall := (hopen.append hinside).append hclose
  rwa [List.append_nil] at hall

/-- Double quotes quote a text whose double quotes and backslashes are escaped. -/
theorem double_collects {fn : ShellFn} {text : List UInt8} (htext : ∀ b ∈ text, WordChar b)
    (hfn : fn = .eatws ∨ fn = .bare) :
    Collects (at' fn) (at' .bare) (34 :: text.flatMap doubled ++ [34]) text := by
  have hopen : Collects (at' fn) (at' .dquot) [34] [] := by
    apply drops
    cases hfn with
    | inl h => rw [h]; rfl
    | inr h => rw [h]; rfl
  have hinside : Collects (at' .dquot) (at' .dquot) (text.flatMap doubled) text := by
    apply Collects.each
    intro b hb
    unfold doubled
    split
    case isTrue hspecial =>
      have hbegin : Collects (at' .dquot) { at' .dquot with escape := true } [92] [] := drops rfl
      have hliteral : Collects { at' .dquot with escape := true } (at' .dquot) [b] [b] := by
        apply passes (htext b hb)
        cases hspecial with
        | inl h => rw [h]; rfl
        | inr h => rw [h]; rfl
      exact hbegin.append hliteral
    case isFalse hplain =>
      have hquote : (b.toNat : ℤ) ≠ 34 := char_ne fun heq => hplain (.inl heq)
      have hbackslash : (b.toNat : ℤ) ≠ backslash := char_ne fun heq => hplain (.inr heq)
      apply passes (htext b hb)
      simp [at', run, dquot, init, hquote, hbackslash]
  have hclose : Collects (at' .dquot) (at' .bare) [34] [] := drops rfl
  have hall := (hopen.append hinside).append hclose
  rwa [List.append_nil] at hall

/-- A plain character stands for itself, but for the one that begins a comment. -/
theorem bare_collects {fn : ShellFn} (hb : WordChar b) (hplain : Plain b)
    (hfn : fn = .eatws ∧ b ≠ 35 ∨ fn = .bare) : Collects (at' fn) (at' .bare) [b] [b] := by
  have ⟨hspace, hdouble, hsingle, hend, hescape⟩ := hplain
  have hnewline : (b.toNat : ℤ) ≠ newline := by
    have hten : b ≠ 10 := fun heq => by simp [heq, isspace] at hspace
    exact char_ne hten
  have hblank : isblank b.toNat = false := isblank_of_not_space hspace
  have hdouble : (b.toNat : ℤ) ≠ 34 := char_ne hdouble
  have hsingle : (b.toNat : ℤ) ≠ 39 := char_ne hsingle
  have hend : (b.toNat : ℤ) ≠ 59 := char_ne hend
  have hescape : (b.toNat : ℤ) ≠ backslash := char_ne hescape
  apply passes hb
  cases hfn with
  | inl h =>
    have hcomment : (b.toNat : ℤ) ≠ 35 := char_ne h.2
    simp [h.1, at', run, eatws, init, hnewline, hblank, hdouble, hsingle, hend, hescape, hcomment]
  | inr h => simp [h, at', run, ShellWords.bare, init, hnewline, hblank, hdouble, hsingle, hend, hescape]

/-- A piece is read back. -/
theorem piece_collects {fn : ShellFn} {piece : Piece} (hallowed : piece.Allowed)
    (hfn : fn = .eatws ∧ piece ≠ .bare 35 ∨ fn = .bare) :
    Collects (at' fn) (at' .bare) piece.source piece.text := by
  have hstate : fn = .eatws ∨ fn = .bare := hfn.imp_left And.left
  cases piece with
  | escaped b => exact escaped_collects hallowed.1 hallowed.2 hstate
  | single text => exact single_collects hallowed.1 hallowed.2 hstate
  | double text => exact double_collects hallowed hstate
  | bare b => exact bare_collects hallowed.1 hallowed.2 (hfn.imp_left fun h => ⟨h.1, fun heq => h.2 (heq ▸ rfl)⟩)

/-- So are the pieces behind the first one. -/
theorem pieces_collect {pieces : List Piece} (hallowed : ∀ piece ∈ pieces, piece.Allowed) :
    Collects (at' .bare) (at' .bare) (pieces.flatMap source) (wordOf pieces) := by
  induction pieces with
  | nil => exact Collects.nil
  | cons piece pieces ih =>
    have hrest := ih fun other hother => hallowed other (List.mem_cons_of_mem piece hother)
    exact (piece_collects (hallowed piece (List.mem_cons_self ..)) (.inr rfl)).append hrest

/-- A written word is read back. -/
theorem word_collects {pieces : List Piece} (hwritten : Written pieces) :
    Collects (at' .eatws) (at' .bare) (pieces.flatMap source) (wordOf pieces) := by
  cases pieces with
  | nil => exact absurd rfl hwritten.nonempty
  | cons piece pieces =>
    have hfirst : piece ≠ .bare 35 := fun heq => hwritten.begins (heq ▸ rfl)
    have hrest := pieces_collect fun other hother => hwritten.allowed other (List.mem_cons_of_mem piece hother)
    exact (piece_collects (hwritten.allowed piece (List.mem_cons_self ..)) (.inl ⟨rfl, hfirst⟩)).append hrest

/-- The line spaces. -/
theorem blank_cases (hspace : isspace b = true) (hnewline : b ≠ 10) : b = 9 ∨ b = 11 ∨ b = 12 ∨ b = 13 ∨ b = 32 := by
  have hrange := isspace_range.mp hspace
  simp only [ne_eq, ← UInt8.toNat_inj] at hnewline ⊢
  change b.toNat ≠ 10 at hnewline
  change b.toNat = 9 ∨ b.toNat = 11 ∨ b.toNat = 12 ∨ b.toNat = 13 ∨ b.toNat = 32
  omega

/-- Blank space before a word is dropped. -/
theorem gap_collects {gap : List UInt8} (hblank : Blank gap) : Collects (at' .eatws) (at' .eatws) gap [] := by
  induction gap with
  | nil => exact Collects.nil
  | cons b gap ih =>
    have hrest := ih fun c hc => hblank c (List.mem_cons_of_mem b hc)
    have ⟨hspace, hnewline⟩ := hblank b (List.mem_cons_self ..)
    have hdropped : Collects (at' .eatws) (at' .eatws) [b] [] := by
      rcases blank_cases hspace hnewline with rfl | rfl | rfl | rfl | rfl <;> exact drops rfl
    exact hdropped.append hrest

/-- Carriage returns in a word are dropped. -/
theorem returns_collect {gap : List UInt8} (hreturns : ∀ b ∈ gap, b = 13) :
    Collects (at' .bare) (at' .bare) gap [] := by
  induction gap with
  | nil => exact Collects.nil
  | cons b gap ih =>
    have hrest := ih fun c hc => hreturns c (List.mem_cons_of_mem b hc)
    have hdropped : Collects (at' .bare) (at' .bare) [b] [] := by
      rw [hreturns b (List.mem_cons_self ..)]
      exact drops rfl
    exact hdropped.append hrest

/-- A gap that separates has its first other character behind carriage returns. -/
theorem separates_split {gap : List UInt8} (hseparates : Separates gap) :
    ∃ returns b rest, gap = returns ++ b :: rest ∧ (∀ c ∈ returns, c = 13) ∧ b ≠ 13 := by
  induction gap with
  | nil =>
    have ⟨b, hb, _⟩ := hseparates
    exact absurd hb List.not_mem_nil
  | cons b gap ih =>
    by_cases hreturn : b = 13
    · have hlater : Separates gap := by
        have ⟨c, hc, hne⟩ := hseparates
        cases List.mem_cons.mp hc with
        | inl h => exact absurd (h.trans hreturn) hne
        | inr h => exact ⟨c, h, hne⟩
      have ⟨returns, c, rest, hgap, hall, hne⟩ := ih hlater
      refine ⟨b :: returns, c, rest, by rw [hgap]; rfl, ?_, hne⟩
      intro d hd
      cases List.mem_cons.mp hd with
      | inl h => exact h.trans hreturn
      | inr h => exact hall d h
    · exact ⟨[], b, gap, rfl, nofun, hreturn⟩

/-- A text without a NUL is the string that the caller sees. -/
theorem cstring_text {text : List UInt8} (htext : ∀ b ∈ text, b ≠ 0) : text.takeWhile (· ≠ 0) = text := by
  apply List.takeWhile_eq_self_iff.mpr
  intro b hb
  exact decide_eq_true (htext b hb)

section Ends

variable (before : UInt8) {token : List UInt8} (htoken : ∀ b ∈ token, b ≠ 0)

include htoken

/-- Blank space ends a word. -/
theorem blank_ends (hspace : isspace b = true) (hnewline : b ≠ 10) (hreturn : b ≠ 13) :
    ((holding before (at' .bare) token).append b).start = holding before (at' .eatws) [] ∧
      (holding before (at' .bare) token).reported [b] = [.word token] := by
  have hstring := cstring_text htoken
  have hreported : [Report.word (token.takeWhile (· ≠ 0))] = [.word token] := by rw [hstring]
  rcases blank_cases hspace hnewline with rfl | rfl | rfl | rfl | rfl
  · exact ⟨rfl, hreported⟩
  · exact ⟨rfl, hreported⟩
  · exact ⟨rfl, hreported⟩
  · exact absurd rfl hreturn
  · exact ⟨rfl, hreported⟩

/-- A newline ends a word and the phrase. -/
theorem newline_ends :
    ((holding before (at' .bare) token).append 10).start = create before (init false) ∧
      (holding before (at' .bare) token).reported [10] = [.word token, .phrase] := by
  have hreported : [Report.word (token.takeWhile (· ≠ 0)), .phrase] = [.word token, .phrase] := by
    rw [cstring_text htoken]
  exact ⟨rfl, hreported⟩

end Ends

end ShellWords

namespace Lexer

open ShellWords

/-- The input is reported so, and the lexer then goes on as a new one. -/
def Reads (before : UInt8) (lexer : Lexer ShellWords) (input : List UInt8) (all : List Report) : Prop :=
  lexer.reported input = all ∧ (lexer.appends input).start = create before (init false)

section Reads

variable {before b : UInt8} {token input rest text : List UInt8} {st next : ShellWords} {lexer later : Lexer ShellWords}
  {all some : List Report}

/-- Input that is collected leaves the reports to the rest. -/
theorem Collects.reads (h : Collects st next input text) (hrest : Reads before (holding before next (token ++ text)) rest all) :
    Reads before (holding before st token) (input ++ rest) all := by
  have ⟨hnext, hnone⟩ := h before token
  unfold Reads
  rw [reported_append, appends_append, hnext, hnone]
  exact hrest

/-- A character that ends a token gives its reports, and the rest is read with the next token. -/
theorem Reads.cons (h : (lexer.append b).start = later ∧ lexer.reported [b] = some) (hrest : Reads before later rest all) :
    Reads before lexer (b :: rest) (some ++ all) := by
  have ⟨hstart, hsome⟩ := h
  have ⟨hreported, hfinal⟩ := hrest
  constructor
  · change lexer.reported ([b] ++ rest) = _
    rw [reported_append, hsome]
    change some ++ (lexer.append b).reported rest = _
    rw [← reported_start, hstart, hreported]
  · change ((lexer.append b).appends rest).start = _
    rw [← appends_start, hstart, hfinal]

end Reads

/-- A word has no NUL. -/
theorem wordOf_ne_zero {pieces : List Piece} (hwritten : Written pieces) : ∀ b ∈ wordOf pieces, b ≠ 0 := by
  intro b hb
  obtain ⟨piece, hpiece, htext⟩ := List.mem_flatMap.mp hb
  have hallowed := hwritten.allowed piece hpiece
  cases piece with
  | escaped c =>
    rw [List.mem_singleton.mp htext]
    exact hallowed.1.2.1
  | single text => exact (hallowed.1 b htext).2.1
  | double text => exact (hallowed b htext).2.1
  | bare c =>
    rw [List.mem_singleton.mp htext]
    exact hallowed.1.2.1

/-- A line is read as its words and a phrase. -/
theorem line_reads (before : UInt8) {entries : List (List Piece × List UInt8)} (hline : Line entries) :
    Reads before (holding before (at' .eatws) []) (sourceOf entries ++ [10])
      (entries.map (fun entry => .word (wordOf entry.1)) ++ [.phrase]) := by
  induction entries with
  | nil => exact ⟨rfl, rfl⟩
  | cons entry entries ih =>
    have hwritten := hline.written entry (List.mem_cons_self ..)
    have hblank := hline.blank entry (List.mem_cons_self ..)
    have hsource : sourceOf (entry :: entries) ++ [10] =
        entry.1.flatMap Piece.source ++ (entry.2 ++ (sourceOf entries ++ [10])) := by
      simp only [sourceOf, List.flatMap_cons, List.append_assoc]
    have hchars := wordOf_ne_zero hwritten
    rw [hsource, List.map_cons, List.cons_append]
    apply (word_collects hwritten).reads
    rw [List.nil_append]
    by_cases hseparates : Separates entry.2
    · have ⟨returns, b, rest, hgap, hreturns, hreturn⟩ := separates_split hseparates
      have hb : b ∈ entry.2 := by simp [hgap]
      have hrest : Blank rest := fun c hc => hblank c (by simp [hgap, hc])
      have hlater : Line entries :=
        { written := fun other hother => hline.written other (List.mem_cons_of_mem entry hother)
          blank := fun other hother => hline.blank other (List.mem_cons_of_mem entry hother)
          separated := by
            intro other hother
            apply hline.separated other
            cases entries with
            | nil => exact absurd hother List.not_mem_nil
            | cons second entries => exact List.mem_cons_of_mem entry hother }
      rw [hgap, List.append_assoc]
      apply (returns_collect hreturns).reads
      rw [List.append_nil, List.cons_append]
      have hends := blank_ends before hchars (hblank b hb).1 (hblank b hb).2 hreturn
      exact Reads.cons hends ((gap_collects hrest).reads (ih hlater))
    · have hreturns : ∀ b ∈ entry.2, b = 13 := by
        intro b hb
        by_contra hne
        exact hseparates ⟨b, hb, hne⟩
      have hlast : entries = [] := by
        cases entries with
        | nil => rfl
        | cons second entries => exact absurd (hline.separated entry (List.mem_cons_self ..)) hseparates
      rw [hlast]
      apply (returns_collect hreturns).reads
      rw [List.append_nil]
      have hnewline := newline_ends before hchars
      exact ⟨hnewline.2, hnewline.1⟩

end Lexer

end Aug.Util
