import Aug.Util.NetValue

/-!
# Trimming that differs

Where the characters are not trimmed like the text that they stand for, the two stay different, whatever the
further lines are: the blanks behind the last character that was there then are never equally many again.
-/

namespace Aug.Util

namespace Value

variable {before : UInt8} {text back blanks law token : List Item} {item last : Item}

theorem textOf_append (text back : List Item) : textOf (text ++ back) = textOf text ++ textOf back := List.map_append

/-! ## The last character that is not a blank -/

/-- A text is blank, or it ends with a character that is not, and blanks. -/
theorem blank_or_last (text : List Item) : (text.rdropWhile Item.space = [] ∧ ∀ item ∈ text, item.space = true) ∨
    ∃ front last, text.rdropWhile Item.space = front ++ [last] ∧ last.space = false := by
  by_cases h : text.rdropWhile Item.space = []
  · exact .inl ⟨h, List.rdropWhile_eq_nil_iff.mp h⟩
  · have hlast := List.rdropWhile_last_not Item.space text h
    exact .inr ⟨_, _, (List.dropLast_append_getLast h).symm, by simpa using hlast⟩

theorem ends_blank (text : List Item) : ∀ item ∈ text.rtakeWhile Item.space, item.space = true :=
  fun _ hitem => List.mem_rtakeWhile_imp hitem

/-- Behind a character that is not a blank there is a last one. -/
theorem exists_last (hitem : item.space = false) (back : List Item) : ∃ middle last blanks,
    item :: back = middle ++ [last] ++ blanks ∧ last.space = false ∧ (∀ other ∈ blanks, other.space = true) ∧
      ∃ more, middle ++ [last] = item :: more := by
  cases blank_or_last (item :: back) with
  | inl h =>
    rw [h.2 item (List.mem_cons_self ..)] at hitem
    cases hitem
  | inr h =>
    have ⟨middle, last, hsplit, hlast⟩ := h
    have hall : middle ++ [last] ++ (item :: back).rtakeWhile Item.space = item :: back := by
      rw [← hsplit]
      exact List.rdropWhile_append_rtakeWhile
    refine ⟨middle, last, _, hall.symm, hlast, ends_blank _, ?_⟩
    cases middle with
    | nil => exact ⟨[], congrArg (fun item => [item]) (List.cons.inj hall).1⟩
    | cons first middle =>
      have hfirst := (List.cons.inj hall).1
      rw [hfirst]
      exact ⟨middle ++ [last], rfl⟩

/-- A text that is not blank has a first character that is not. -/
theorem exists_first (h : ¬∀ item ∈ text, item.space = true) : ∃ blanks item back,
    text = blanks ++ item :: back ∧ (∀ other ∈ blanks, other.space = true) ∧ item.space = false := by
  induction text with
  | nil => exact absurd nofun h
  | cons item text ih =>
    cases hitem : item.space with
    | false => exact ⟨[], item, text, rfl, nofun, hitem⟩
    | true =>
      have hrest : ¬∀ other ∈ text, other.space = true := fun hall => h (List.forall_mem_cons.mpr ⟨hitem, hall⟩)
      have ⟨blanks, other, back, hsplit, hblanks, hother⟩ := ih hrest
      exact ⟨item :: blanks, other, back, congrArg _ hsplit, List.forall_mem_cons.mpr ⟨hitem, hblanks⟩, hother⟩

/-- Trimming never reaches such a character. -/
theorem trim_behind (hitem : item.space = false) (text back : List Item) :
    ∃ more, trim (text ++ item :: back) = text ++ item :: more := by
  have ⟨middle, last, blanks, hsplit, hlast, _, more, hmore⟩ := exists_last hitem back
  refine ⟨more ++ trim blanks, ?_⟩
  rw [hsplit, ← List.append_assoc, ← List.append_assoc, trim_append_blanks hlast, List.append_assoc text, hmore]
  simp

/-- Neither do the characters lose it. -/
theorem cut_behind (hitem : item.space = false) (text back : List Item) :
    ∃ more, cut before (textOf (text ++ item :: back)) = textOf (text ++ item :: more) := by
  have ⟨middle, last, blanks, hsplit, hlast, hblanks, more, hmore⟩ := exists_last hitem back
  refine ⟨more ++ if last.char = 92 then blanks.take 1 else [], ?_⟩
  rw [hsplit, ← List.append_assoc, ← List.append_assoc, cut_eq hlast hblanks, List.append_assoc text, hmore]
  simp

/-! ## Texts that have become different -/

/-- Behind the last character that both had, the text and the characters have different numbers of blanks: only
these so far, or some in front of the next character. -/
inductive Diverged (law token : List Item) : Prop
  | ends (text : List Item) (last : Item) (kept cut : List Item) :
    last.space = false → law = text ++ [last] ++ kept → token = text ++ [last] ++ cut →
    (∀ item ∈ kept, item.space = true) → (∀ item ∈ cut, item.space = true) → trim kept = kept →
    (if last.char = 92 then cut.length = 1 ∧ kept.length ≠ 1 else cut = [] ∧ kept ≠ []) → Diverged law token
  | apart (text : List Item) (kept cut : List Item) (item other : Item) (back more : List Item) :
    law = text ++ kept ++ item :: back → token = text ++ cut ++ other :: more →
    (∀ item ∈ kept, item.space = true) → (∀ item ∈ cut, item.space = true) →
    item.space = false → other.space = false → kept.length ≠ cut.length → Diverged law token

/-- The number of blanks that a text begins with. -/
theorem leading_blanks (hblanks : ∀ item ∈ blanks, item.space = true) (hitem : item.space = false)
    (back : List Item) : ((textOf (blanks ++ item :: back)).takeWhile isspace).length = blanks.length := by
  induction blanks with
  | nil =>
    have hchar : ¬isspace item.char = true := by
      rw [show isspace item.char = item.space from rfl, hitem]
      exact Bool.false_ne_true
    rw [textOf, List.nil_append, List.map_cons, List.takeWhile_cons_of_neg hchar]
    rfl
  | cons first blanks ih =>
    have hfirst : isspace first.char = true := hblanks first (List.mem_cons_self ..)
    have hrest := ih fun other hother => hblanks other (List.mem_cons_of_mem first hother)
    rw [textOf, List.cons_append, List.map_cons, List.takeWhile_cons_of_pos hfirst, List.length_cons]
    exact congrArg (· + 1) hrest

/-- They are different. -/
theorem Diverged.ne (h : Diverged law token) : textOf token ≠ textOf law := by
  intro heq
  cases h with
  | ends text last kept cut _ hlaw htoken _ _ _ hcount =>
    have hlength := congrArg List.length heq
    rw [hlaw, htoken] at hlength
    simp only [textOf, List.length_map, List.length_append] at hlength
    split at hcount
    · omega
    · have hpos := List.length_pos_of_ne_nil hcount.2
      rw [hcount.1] at hlength
      simp only [List.length_nil] at hlength
      omega
  | apart text kept cut item other back more hlaw htoken hkept hcut hitem hother hcount =>
    have hsame : textOf (cut ++ other :: more) = textOf (kept ++ item :: back) := by
      rw [hlaw, htoken, List.append_assoc, List.append_assoc, textOf_append, textOf_append text] at heq
      exact List.append_cancel_left heq
    have hleft := leading_blanks hcut hother more
    rw [hsame, leading_blanks hkept hitem back] at hleft
    exact hcount hleft

theorem trim_trim (text : List Item) : trim (trim text) = trim text := List.rdropWhile_idempotent ..

theorem trim_space {text : List Item} (h : ∀ item ∈ text, item.space = true) : ∀ item ∈ trim text, item.space = true :=
  fun item hitem => h item ((List.rdropWhile_prefix _ text).subset hitem)

/-- A line is trimmed to nothing, or to more than the space in front of it. -/
theorem trim_line (line : List Item) : trim (.plain 32 :: line) = [] ∨ 2 ≤ (trim (.plain 32 :: line)).length := by
  have hline := trim_append [.plain 32] line
  rw [List.singleton_append] at hline
  rw [hline]
  split
  case isTrue => exact .inl rfl
  case isFalse hsome =>
    have hpos := List.length_pos_of_ne_nil hsome
    rw [List.singleton_append, List.length_cons]
    exact .inr (Nat.succ_le_succ hpos)

/-- A further line leaves them different. -/
theorem Diverged.step (h : Diverged law token) (line : List Item) :
    ∃ next, cut before (textOf (token ++ .plain 32 :: line)) = textOf next ∧
      Diverged (trim (law ++ .plain 32 :: line)) next := by
  cases h with
  | apart text kept cut item other back more hlaw htoken hkept hcut hitem hother hcount =>
    have ⟨back', hback⟩ := trim_behind hitem (text ++ kept) (back ++ .plain 32 :: line)
    have ⟨more', hmore⟩ := @cut_behind before other hother (text ++ cut) (more ++ .plain 32 :: line)
    rw [hlaw, htoken, List.append_assoc, List.cons_append, List.append_assoc _ (item :: back), List.cons_append,
      hback, hmore]
    exact ⟨_, rfl, .apart text kept cut item other back' more' rfl rfl hkept hcut hitem hother hcount⟩
  | ends text last kept cut hlast hlaw htoken hkept hcut htrim hcount =>
    have hlength : kept.length ≠ cut.length := by
      split at hcount
      · omega
      · have hpos := List.length_pos_of_ne_nil hcount.2
        rw [hcount.1, List.length_nil]
        omega
    have hlawline : law ++ .plain 32 :: line = text ++ [last] ++ (kept ++ .plain 32 :: line) := by
      rw [hlaw, List.append_assoc]
    have htokenline : token ++ .plain 32 :: line = text ++ [last] ++ (cut ++ .plain 32 :: line) := by
      rw [htoken, List.append_assoc]
    rw [hlawline, htokenline]
    by_cases hblank : ∀ item ∈ Item.plain 32 :: line, item.space = true
    · have hkeptline : ∀ item ∈ kept ++ .plain 32 :: line, item.space = true :=
        List.forall_mem_append.mpr ⟨hkept, hblank⟩
      have hcutline : ∀ item ∈ cut ++ .plain 32 :: line, item.space = true :=
        List.forall_mem_append.mpr ⟨hcut, hblank⟩
      rw [cut_eq hlast hcutline, trim_append_blanks hlast]
      refine ⟨_, rfl, .ends text last _ _ hlast rfl rfl (trim_space hkeptline) ?_ (trim_trim _) ?_⟩
      · intro item hitem
        split at hitem
        · exact hcutline item (List.mem_of_mem_take hitem)
        · cases hitem
      · rw [trim_append, htrim]
        split at hcount
        case isTrue hquoted =>
          rw [if_pos hquoted, if_pos hquoted]
          constructor
          · rw [List.length_take, List.length_append, hcount.1]
            omega
          · cases trim_line line with
            | inl hnone =>
              rw [if_pos hnone]
              exact hcount.2
            | inr htwo =>
              have hsome : trim (.plain 32 :: line) ≠ [] := List.ne_nil_of_length_pos (by omega)
              rw [if_neg hsome, List.length_append]
              omega
        case isFalse hquoted =>
          rw [if_neg hquoted, if_neg hquoted]
          apply And.intro rfl
          split
          · exact hcount.2
          · exact List.append_ne_nil_of_left_ne_nil hcount.2 _
    · have ⟨blanks, item, back, hsplit, hblanks, hitem⟩ := exists_first hblank
      have hlawback : text ++ [last] ++ (kept ++ .plain 32 :: line) =
          text ++ [last] ++ (kept ++ blanks) ++ item :: back := by
        simp only [hsplit, List.append_assoc]
      have htokenback : text ++ [last] ++ (cut ++ .plain 32 :: line) =
          text ++ [last] ++ (cut ++ blanks) ++ item :: back := by
        simp only [hsplit, List.append_assoc]
      have ⟨back', hback⟩ := trim_behind hitem (text ++ [last] ++ (kept ++ blanks)) back
      have ⟨more', hmore⟩ := @cut_behind before item hitem (text ++ [last] ++ (cut ++ blanks)) back
      rw [hlawback, htokenback, hback, hmore]
      refine ⟨_, rfl, .apart (text ++ [last]) (kept ++ blanks) (cut ++ blanks) item item back' more' rfl rfl ?_ ?_
        hitem hitem ?_⟩
      · exact List.forall_mem_append.mpr ⟨hkept, hblanks⟩
      · exact List.forall_mem_append.mpr ⟨hcut, hblanks⟩
      · rw [List.length_append, List.length_append]
        omega

/-! ## One line -/

/-- A text that is trimmed alike is trimmed as it should be. -/
theorem alike_cut (h : Alike text) : cut before (textOf text) = textOf (trim text) ∧ ¬Looks (textOf text) := by
  have hsplit : text.rdropWhile Item.space ++ text.rtakeWhile Item.space = text :=
    List.rdropWhile_append_rtakeWhile
  rw [looks_iff]
  cases blank_or_last text with
  | inl hblank =>
    have hnone : text = [] := by
      rw [hblank.1, List.nil_append] at hsplit
      cases h with
      | inl h => rw [← hsplit, h]
      | inr h =>
        obtain ⟨last, hlast, -⟩ := h
        rw [hblank.1] at hlast
        cases hlast
    rw [hnone]
    exact ⟨rfl, fun h => h.1 rfl⟩
  | inr hsome =>
    obtain ⟨front, last, hfront, hlast⟩ := hsome
    have hblanks := ends_blank text
    constructor
    · unfold Alike at h
      rw [hfront] at hsplit h
      have hkept : (if last.char = 92 then (text.rtakeWhile Item.space).take 1 else []) =
          trim (text.rtakeWhile Item.space) := by
        cases h with
        | inl hnone =>
          rw [hnone]
          exact ite_self _
        | inr hsome =>
          obtain ⟨other, hother, hlength⟩ := hsome
          rw [List.getLast?_concat, Option.some.injEq] at hother
          rw [← hother] at hlength
          split at hlength
          case isTrue hquoted =>
            have hfirst := List.prefix_iff_eq_take.mp (List.rdropWhile_prefix Item.blank (text.rtakeWhile Item.space))
            change trim _ = List.take (trim _).length _ at hfirst
            rw [if_pos hquoted, hfirst, hlength]
          case isFalse hquoted => rw [if_neg hquoted, List.length_eq_zero_iff.mp hlength]
      rw [← hsplit, cut_eq hlast hblanks, trim_append_blanks hlast, hkept]
    · intro hall
      have hmem : last ∈ text := by
        rw [← hsplit, hfront]
        simp
      rw [hall.2 last hmem] at hlast
      cases hlast

/-- Otherwise the trimming looks in front of the buffer, or the characters become different. -/
theorem not_alike (h : ¬Alike text) : Looks (textOf text) ∨
    ∃ token, cut before (textOf text) = textOf token ∧ Diverged (trim text) token := by
  have hsplit : text.rdropWhile Item.space ++ text.rtakeWhile Item.space = text :=
    List.rdropWhile_append_rtakeWhile
  cases blank_or_last text with
  | inl hblank =>
    left
    refine looks_iff.mpr ⟨?_, hblank.2⟩
    rintro rfl
    exact h (.inl rfl)
  | inr hsome =>
    right
    obtain ⟨front, last, hfront, hlast⟩ := hsome
    have hblanks := ends_blank text
    unfold Alike at h
    rw [hfront] at hsplit h
    rw [not_or] at h
    have hlength : (trim (text.rtakeWhile Item.space)).length ≠ if last.char = 92 then 1 else 0 := by
      intro hlength
      exact h.2 ⟨last, List.getLast?_concat, hlength⟩
    have hpos := List.length_pos_of_ne_nil h.1
    refine ⟨_, (congrArg (fun text => cut before (textOf text)) hsplit.symm).trans (cut_eq hlast hblanks), ?_⟩
    have htrim : trim text = front ++ [last] ++ trim (text.rtakeWhile Item.space) :=
      (congrArg trim hsplit.symm).trans (trim_append_blanks hlast _ _)
    rw [htrim]
    refine .ends front last _ _ hlast rfl rfl (trim_space hblanks) ?_ (trim_trim _) ?_
    · intro item hitem
      split at hitem
      · exact hblanks item (List.mem_of_mem_take hitem)
      · cases hitem
    · split at hlength
      case isTrue hquoted =>
        rw [if_pos hquoted, if_pos hquoted, List.length_take]
        exact ⟨Nat.min_eq_left hpos, hlength⟩
      case isFalse hquoted =>
        rw [if_neg hquoted, if_neg hquoted]
        exact ⟨rfl, fun hnone => hlength (List.length_eq_zero_iff.mpr hnone)⟩

/-! ## Further lines -/

theorem textOf_join (text line : List Item) : textOf text ++ 32 :: textOf (lead line) = textOf (join text line) :=
  (textOf_append text (.plain 32 :: lead line)).symm

/-- Once they have become different, they are different in the end. -/
theorem Diverged.unfold (h : Diverged law token) (rest : List (UInt8 × List Item)) :
    cutWith before (textOf token) rest ≠ textOf (unfoldWith law rest) := by
  induction rest generalizing law token with
  | nil => exact h.ne
  | cons line rest ih =>
    have ⟨next, hcut, hnext⟩ := @Diverged.step before law token h (lead line.2)
    have hrest := ih hnext
    rw [← hcut] at hrest
    change cutWith before (cut before (textOf token ++ 32 :: textOf (lead line.2))) rest ≠ _
    rw [textOf_join]
    exact hrest

/-- Further lines are unfolded as they should be, without a look in front of the buffer, exactly if they are
trimmed alike. -/
theorem unfold_iff (text : List Item) (rest : List (UInt8 × List Item)) :
    cutWith before (textOf text) rest = textOf (unfoldWith text rest) ∧ ¬LooksWith before (textOf text) rest ↔
      AlikeWith text rest := by
  induction rest generalizing text with
  | nil => exact ⟨fun _ => trivial, fun _ => ⟨rfl, id⟩⟩
  | cons line rest ih =>
    change cutWith before (cut before (textOf text ++ 32 :: textOf (lead line.2))) rest =
        textOf (unfoldWith (trim (join text line.2)) rest) ∧
      ¬(Looks (textOf text ++ 32 :: textOf (lead line.2)) ∨
        LooksWith before (cut before (textOf text ++ 32 :: textOf (lead line.2))) rest) ↔
          Alike (join text line.2) ∧ AlikeWith (trim (join text line.2)) rest
    rw [textOf_join]
    by_cases halike : Alike (join text line.2)
    · have ⟨hcut, hlooks⟩ := @alike_cut before _ halike
      rw [hcut, ← ih, or_iff_right hlooks]
      exact ⟨fun h => ⟨halike, h⟩, fun h => h.2⟩
    · apply iff_of_false _ fun h => halike h.1
      rintro ⟨heq, hlooks⟩
      cases @not_alike before _ halike with
      | inl h => exact hlooks (.inl h)
      | inr h =>
        obtain ⟨token, hcut, hdiverged⟩ := h
        rw [hcut] at heq
        exact hdiverged.unfold rest heq

/-- So it is for a value. -/
theorem value_iff (value : Value) :
    cutWith before (cut before (textOf (lead value.first))) value.rest = textOf value.unfolded ∧
        ¬(Looks (textOf (lead value.first)) ∨
          LooksWith before (cut before (textOf (lead value.first))) value.rest) ↔
      Alike (lead value.first) ∧ AlikeWith (trim (lead value.first)) value.rest := by
  by_cases halike : Alike (lead value.first)
  · have ⟨hcut, hlooks⟩ := @alike_cut before _ halike
    rw [hcut, ← @unfold_iff before, or_iff_right hlooks]
    exact ⟨fun h => ⟨halike, h⟩, fun h => h.2⟩
  · apply iff_of_false _ fun h => halike h.1
    rintro ⟨heq, hlooks⟩
    cases @not_alike before _ halike with
    | inl h => exact hlooks (.inl h)
    | inr h =>
      obtain ⟨token, hcut, hdiverged⟩ := h
      rw [hcut] at heq
      exact hdiverged.unfold value.rest heq

/-! ## Carriage returns -/

/-- What is dropped anyway may be left out before. -/
theorem dropWhile_filter {α : Type*} {p q : α → Bool} (h : ∀ x, q x = false → p x = true) (list : List α) :
    (list.filter q).dropWhile p = (list.dropWhile p).filter q := by
  induction list with
  | nil => rfl
  | cons x list ih =>
    by_cases hp : p x = true
    · rw [List.dropWhile_cons_of_pos hp, List.filter_cons]
      split
      · rw [List.dropWhile_cons_of_pos hp, ih]
      · exact ih
    · have hq : q x = true := by
        cases hq : q x with
        | true => rfl
        | false => exact absurd (h x hq) hp
      rw [List.dropWhile_cons_of_neg hp, List.filter_cons_of_pos hq, List.dropWhile_cons_of_neg hp]

/-- A carriage return is a blank. -/
theorem return_blank (item : Item) (h : decide (item ≠ .plain 13) = false) : item.blank = true := by
  have heq : item = .plain 13 := by simpa using h
  rw [heq]
  rfl

theorem lead_visible (line : List Item) : lead (visible line) = visible (lead line) :=
  dropWhile_filter return_blank line

theorem trim_visible (text : List Item) : trim (visible text) = visible (trim text) := by
  rw [trim, trim, List.rdropWhile, List.rdropWhile, visible, visible, ← List.filter_reverse,
    dropWhile_filter return_blank, List.filter_reverse]

theorem join_visible (text line : List Item) : join (visible text) (visible line) = visible (join text line) := by
  rw [join, join, lead_visible, visible, visible, visible, List.filter_append, List.filter_cons_of_pos (by decide)]

/-- The carriage returns may be left out before or after the unfolding. -/
theorem unfolded_seen (value : Value) : value.seen.unfolded = visible value.unfolded := by
  have hrest : ∀ (rest : List (UInt8 × List Item)) (text : List Item),
      unfoldWith (visible text) (rest.map fun line => (line.1, visible line.2)) = visible (unfoldWith text rest) := by
    intro rest
    induction rest with
    | nil => exact fun _ => rfl
    | cons line rest ih =>
      intro text
      change unfoldWith (trim (join (visible text) (visible line.2))) _ = visible (unfoldWith (trim (join text line.2)) rest)
      rw [join_visible, trim_visible, ih]
  change unfoldWith (trim (lead (visible value.first))) (value.rest.map fun line => (line.1, visible line.2)) = _
  rw [lead_visible, trim_visible, hrest]
  rfl

/-- A text without carriage returns is as it is seen. -/
theorem visible_eq (h : 13 ∉ textOf text) : visible text = text := by
  apply List.filter_eq_self.mpr
  intro item hitem
  apply decide_eq_true
  rintro rfl
  exact h (List.mem_map.mpr ⟨_, hitem, rfl⟩)

end Value

end Aug.Util
