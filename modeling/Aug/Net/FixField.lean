import Aug.Net.FixHeader

/-!
# The fields of a FIX message

`aug_fixfield` over a buffer of the given size, and the loop that calls it until the body is used up. The
tag is converted from its last digit to the first, in 32 bits; the number of its digits, which says where
the value begins, is an `unsigned` too.
-/

namespace Aug.Net

open Aug.Lib Aug.Util Call

/-- `struct aug_fixfield_`, with the value as its place in the buffer. -/
structure FixField where
  tag : ℕ
  value : ℕ
  size : ℕ
deriving DecidableEq

/-- The errors of `aug_fixfield`, all of them `AUG_EPARSE`. -/
inductive FixFieldError where
  | digits (digits : ℕ)
  | nondigit (ch : UInt8)
  | tag
  | delimiter (tag : ℤ)
deriving DecidableEq

/-- A step of `aug_fixfield`, which writes the field as it finds it. -/
abbrev FixFieldCall := Call FixField FixFieldError

namespace FixField

/-- Examine a byte of the buffer. -/
def char (buf : List UInt8) (it : ℕ) : FixFieldCall UInt8 := access buf[it]?

/-- The search for a delimiter in the bytes up to the end. -/
def find (buf : List UInt8) (delim : UInt8) (it : ℕ) : ℕ → FixFieldCall (Option ℕ)
  | 0 => pure none
  | size + 1 => do
    let ch ← char buf it
    if ch = delim then pure (some it) else find buf delim (it + 1) size

/-- The loop of `fixtoui_` over the digits, from the last one to the first. -/
def convert (buf : List UInt8) : ℕ → ℕ → ℕ → FixFieldCall ℕ
  | 0, _, value => pure value
  | it + 1, fact, value => do
    let ch ← char buf it
    if isdigit ch then convert buf it (u32 (fact * 10)) (u32 (value + (ch.toNat - 48 : ℕ) * fact))
    else fail (.nondigit ch)

/-- `fixtoui_`: the number of digits, and the value where the delimiter was found. -/
def fixtoui (buf : List UInt8) (dst : ℕ) (delim : UInt8) : FixFieldCall (ℕ × ℕ) := do
  match ← find buf delim 0 buf.length with
  | none => pure (0, dst)
  | some it =>
    let digits := u32 it
    if Fix.maxDigits < digits then fail (.digits digits)
    else
      let value ← convert buf it 1 0
      pure (digits, value)

/-- `aug_fixfield`: the number of bytes consumed. The tag is not initialised, but it is not read where
there are no digits. -/
def fixfield (buf : List UInt8) : FixFieldCall ℕ := do
  let (digits, tag) ← fixtoui buf 0 61
  if digits = 0 then fail .tag
  else
    modify fun field => { field with tag }
    let it := digits + 1
    modify fun field => { field with value := it }
    match ← find buf Fix.soh it (buf.length - it) with
    | none => fail (.delimiter (i32 tag))
    | some it =>
      modify fun field => { field with size := u32 ((it : ℤ) - field.value) }
      pure (it + 1)

variable {buf front back rest tag : List UInt8} {field last : FixField} {delim ch : UInt8} {it n : ℕ}

theorem char_returns (h : buf = front ++ ch :: back) : Returns (char buf front.length) field ch field := by
  apply returns_access
  rw [h, List.getElem?_append_right (Nat.le_refl _), Nat.sub_self, List.getElem?_cons_zero]

/-- A search that meets no delimiter stays in the buffer. -/
theorem find_none (hbuf : buf = front ++ back) (hback : delim ∉ back) :
    Returns (find buf delim front.length back.length) field none field := by
  induction back generalizing front with
  | nil => exact returns_pure none field
  | cons ch back ih =>
    apply (char_returns hbuf).bind
    rw [if_neg (Ne.symm (List.ne_of_not_mem_cons hback))]
    have hrest := @ih (front ++ [ch]) (by rw [hbuf, List.append_assoc]; rfl) (List.not_mem_of_not_mem_cons hback)
    rwa [List.length_append, List.length_singleton] at hrest

/-- A search ends at the first delimiter. -/
theorem find_some {middle : List UInt8} (hbuf : buf = front ++ (middle ++ delim :: back)) (hmiddle : delim ∉ middle) :
    Returns (find buf delim front.length (middle.length + 1 + n)) field (some (front.length + middle.length)) field := by
  induction middle generalizing front with
  | nil =>
    rw [List.length_nil, Nat.zero_add, Nat.add_comm 1]
    apply (char_returns hbuf).bind
    rw [if_pos rfl]
    exact returns_pure _ field
  | cons ch middle ih =>
    rw [List.length_cons, Nat.add_right_comm _ 1 n]
    apply (char_returns hbuf).bind
    rw [if_neg (Ne.symm (List.ne_of_not_mem_cons hmiddle))]
    have hrest := @ih (front ++ [ch]) (by rw [hbuf, List.append_assoc]; rfl) (List.not_mem_of_not_mem_cons hmiddle)
    rwa [List.length_append, List.length_singleton, Nat.add_assoc front.length 1, Nat.add_comm 1 middle.length] at hrest

/-- The digits in front are converted modulo `2 ^ 32`. -/
theorem convert_returns (fact value : ℕ) (hbuf : buf = tag ++ rest) (hdigits : ∀ digit ∈ tag, isdigit digit = true)
    (hvalue : value < 2 ^ 32) :
    Returns (convert buf tag.length fact value) field ((value + numeral tag * fact) % 2 ^ 32) field := by
  induction tag using List.reverseRecOn generalizing fact value rest with
  | nil =>
    have hzero : (value + numeral [] * fact) % 2 ^ 32 = value := by
      rw [numeral, List.foldl_nil, Nat.zero_mul, Nat.add_zero, Nat.mod_eq_of_lt hvalue]
    rw [hzero]
    exact returns_pure value field
  | append_singleton tag digit ih =>
    rw [List.append_assoc] at hbuf
    rw [List.length_append, List.length_singleton]
    apply (char_returns hbuf).bind
    rw [if_pos (hdigits digit (List.mem_append_right _ List.mem_cons_self))]
    rw [← Fix.convert_sum]
    exact ih _ _ hbuf (fun d hd => hdigits d (List.mem_append_left _ hd)) (u32_lt _)

/-- A character that is no digit ends the conversion. -/
theorem convert_fails (fact value : ℕ) (hbuf : buf = tag ++ rest) (htag : ¬∀ digit ∈ tag, isdigit digit = true) :
    ∃ e, Fails (convert buf tag.length fact value) field e field := by
  induction tag using List.reverseRecOn generalizing fact value rest with
  | nil => exact absurd (List.forall_mem_nil _) htag
  | append_singleton tag digit ih =>
    rw [List.append_assoc] at hbuf
    rw [List.length_append, List.length_singleton]
    by_cases hdigit : isdigit digit = true
    · have hrest : ¬∀ d ∈ tag, isdigit d = true := by
        intro hall
        apply htag
        intro d hd
        cases List.mem_append.mp hd with
        | inl hleft => exact hall d hleft
        | inr hright => rwa [List.mem_singleton.mp hright]
      obtain ⟨e, he⟩ := ih (u32 (fact * 10)) (u32 (value + (digit.toNat - 48 : ℕ) * fact)) hbuf hrest
      apply Exists.intro e
      apply (char_returns hbuf).bind_fails
      rwa [if_pos hdigit]
    · apply Exists.intro
      apply (char_returns hbuf).bind_fails
      rw [if_neg hdigit]
      exact fails_fail _ field

/-- Without a delimiter there are no digits. -/
theorem fixtoui_none (hdelim : delim ∉ buf) : Returns (fixtoui buf n delim) field (0, n) field := by
  apply (@find_none buf [] buf field delim rfl hdelim).bind
  exact returns_pure _ field

/-- The digits in front of the delimiter are converted if they are no more than ten, by their number in 32 bits. -/
theorem fixtoui_returns (hbuf : buf = tag ++ delim :: rest) (htag : delim ∉ tag)
    (hdigits : ∀ digit ∈ tag, isdigit digit = true) (hmost : u32 tag.length ≤ Fix.maxDigits) :
    Returns (fixtoui buf n delim) field (u32 tag.length, numeral tag % 2 ^ 32) field := by
  have hfind := @find_some buf [] rest field delim rest.length tag hbuf htag
  have hlength : tag.length + 1 + rest.length = buf.length := by
    rw [hbuf, List.length_append, List.length_cons]
    omega
  rw [hlength, List.length_nil, Nat.zero_add] at hfind
  have hconvert := @convert_returns buf (delim :: rest) tag field 1 0 hbuf hdigits (by norm_num)
  rw [Nat.zero_add, Nat.mul_one] at hconvert
  apply hfind.bind
  dsimp only
  rw [if_neg (Nat.not_lt.mpr hmost)]
  exact hconvert.bind (returns_pure _ field)

/-- Too many digits, and a character that is none, are errors. -/
theorem fixtoui_fails (hbuf : buf = tag ++ delim :: rest) (htag : delim ∉ tag)
    (h : Fix.maxDigits < u32 tag.length ∨ ¬∀ digit ∈ tag, isdigit digit = true) :
    ∃ e, Fails (fixtoui buf n delim) field e field := by
  have hfind := @find_some buf [] rest field delim rest.length tag hbuf htag
  have hlength : tag.length + 1 + rest.length = buf.length := by
    rw [hbuf, List.length_append, List.length_cons]
    omega
  rw [hlength, List.length_nil, Nat.zero_add] at hfind
  by_cases hmost : Fix.maxDigits < u32 tag.length
  · apply Exists.intro
    apply hfind.bind_fails
    dsimp only
    rw [if_pos hmost]
    exact fails_fail _ field
  · obtain ⟨e, he⟩ := @convert_fails buf (delim :: rest) tag field 1 0 hbuf (h.resolve_left hmost)
    apply Exists.intro e
    apply hfind.bind_fails
    dsimp only
    rw [if_neg hmost]
    exact he.bind

/-- Up to its first delimiter a list is as it is in front of it. -/
theorem takeWhile_soh {value : List UInt8} (hvalue : Fix.soh ∉ value) :
    (value ++ Fix.soh :: rest).takeWhile (fun ch => decide (ch ≠ Fix.soh)) = value := by
  have hpos : ∀ ch ∈ value, decide (ch ≠ Fix.soh) = true := by
    intro ch hch
    rw [decide_eq_true_eq]
    rintro rfl
    exact hvalue hch
  rw [List.takeWhile_append_of_pos hpos, List.takeWhile_cons_of_neg (by simp), List.append_nil]

/-- A call that has its tag looks for the end of the value behind as many digits as it has counted. -/
theorem fixfield_after {digits value : ℕ} (hfixtoui : Returns (fixtoui buf 0 61) field (digits, value) field)
    (hdigits : digits ≠ 0) (hbuf : buf = front ++ back) (hfront : front.length = digits + 1) :
    (∃ middle rest, back = middle ++ Fix.soh :: rest ∧ Fix.soh ∉ middle ∧
      Returns (fixfield buf) field (digits + 1 + middle.length + 1)
        { tag := value, value := digits + 1, size := u32 middle.length }) ∨
    (Fix.soh ∉ back ∧ ∃ e last, Fails (fixfield buf) field e last) := by
  have hleft : buf.length - (digits + 1) = back.length := by
    rw [hbuf, List.length_append, hfront, Nat.add_sub_cancel_left]
  by_cases hsoh : Fix.soh ∈ back
  · obtain ⟨middle, rest, hback, hmiddle⟩ := List.eq_append_cons_of_mem hsoh
    apply Or.inl
    apply Exists.intro middle
    apply Exists.intro rest
    apply And.intro hback
    apply And.intro hmiddle
    have hfind := @find_some buf front rest { field with tag := value, value := digits + 1 } Fix.soh rest.length middle
      (by rw [hbuf, hback]) hmiddle
    have hlength : middle.length + 1 + rest.length = back.length := by
      rw [hback, List.length_append, List.length_cons]
      omega
    have hsize : u32 (((digits + 1 + middle.length : ℕ) : ℤ) - (digits + 1 : ℕ)) = u32 middle.length := by
      congr 1
      omega
    rw [hlength, hfront, ← hleft] at hfind
    apply hfixtoui.bind
    dsimp only
    rw [if_neg hdigits]
    apply (returns_modify _ field).bind
    apply (returns_modify _ _).bind
    apply hfind.bind
    apply (returns_modify _ _).bind
    rw [hsize]
    exact returns_pure _ _
  · apply Or.inr
    apply And.intro hsoh
    apply Exists.intro
    apply Exists.intro
    apply hfixtoui.bind_fails
    dsimp only
    rw [if_neg hdigits]
    apply (returns_modify _ field).bind_fails
    apply (returns_modify _ _).bind_fails
    have hfind := @find_none buf front back { field with tag := value, value := digits + 1 } Fix.soh hbuf hsoh
    rw [hfront, ← hleft] at hfind
    apply hfind.bind_fails
    exact fails_fail _ _

end FixField

/-- A field as it is written: a tag of digits and a value without a delimiter. -/
structure FixFieldText where
  tag : List UInt8
  value : List UInt8
  nonempty : tag ≠ []
  decimal : ∀ digit ∈ tag, isdigit digit = true
  undelimited : Fix.soh ∉ value

namespace FixFieldText

/-- `tag=value` and the delimiter. -/
def bytes (text : FixFieldText) : List UInt8 := text.tag ++ 61 :: (text.value ++ [Fix.soh])

/-- The tag is a number of 32 bits. -/
def Fits (text : FixFieldText) : Prop := numeral text.tag < 2 ^ 32

/-- What is to be found of a field. -/
def field (text : FixFieldText) : FixField where
  tag := numeral text.tag
  value := text.tag.length + 1
  size := text.value.length

end FixFieldText

namespace FixField

variable {buf rest : List UInt8} {field : FixField} {text : FixFieldText}

theorem bytes_append (text : FixFieldText) (rest : List UInt8) :
    text.bytes ++ rest = text.tag ++ 61 :: (text.value ++ Fix.soh :: rest) := by
  rw [FixFieldText.bytes, List.append_assoc, List.cons_append, List.append_assoc]
  rfl

theorem not_mem_digits {ch : UInt8} {digits : List UInt8} (hdigits : ∀ digit ∈ digits, isdigit digit = true)
    (hch : isdigit ch = false) : ch ∉ digits := by
  intro hmem
  rw [hdigits ch hmem] at hch
  exact nomatch hch

/-- The number of digits in 32 bits is no more than it is. -/
theorem u32_le (n : ℕ) : u32 n ≤ n := by
  rw [Fix.u32_mod]
  exact Nat.mod_le n _

/-- A tag of at most ten digits is read, in 32 bits. -/
theorem fixfield_short (hshort : text.tag.length ≤ Fix.maxDigits) :
    Returns (fixfield (text.bytes ++ rest)) field text.bytes.length
      { tag := numeral text.tag % 2 ^ 32, value := text.tag.length + 1, size := u32 text.value.length } := by
  have hlength : u32 text.tag.length = text.tag.length := by
    rw [Fix.maxDigits] at hshort
    exact u32_of_lt (by omega)
  have hbuf := bytes_append text rest
  have hfixtoui := @fixtoui_returns _ _ text.tag field 61 0 hbuf (not_mem_digits text.decimal rfl) text.decimal
    (by rwa [hlength])
  rw [hlength] at hfixtoui
  have hpos : text.tag.length ≠ 0 := mt List.length_eq_zero_iff.mp text.nonempty
  have hsplit : text.bytes ++ rest = (text.tag ++ [61]) ++ (text.value ++ Fix.soh :: rest) := by
    rw [hbuf, List.append_assoc]
    rfl
  cases fixfield_after hfixtoui hpos hsplit (by rw [List.length_append, List.length_singleton]) with
  | inl hfound =>
    obtain ⟨middle, others, hback, hmiddle, hreturns⟩ := hfound
    have hvalue : middle = text.value := by
      have htake := congrArg (List.takeWhile fun ch => decide (ch ≠ Fix.soh)) hback
      rw [takeWhile_soh text.undelimited, takeWhile_soh hmiddle] at htake
      exact htake.symm
    have hbytes : text.bytes.length = text.tag.length + 1 + middle.length + 1 := by
      rw [hvalue, FixFieldText.bytes, List.length_append, List.length_cons, List.length_append, List.length_singleton]
      omega
    rw [hbytes, ← hvalue]
    exact hreturns
  | inr hnone => exact absurd (List.mem_append_right _ List.mem_cons_self) hnone.1

/-- A longer tag whose number of digits is misread puts the value where it is not. -/
theorem fixfield_long (hlong : Fix.maxDigits < text.tag.length) (hpos : u32 text.tag.length ≠ 0)
    (hmost : u32 text.tag.length ≤ Fix.maxDigits) :
    ∃ n last, Returns (fixfield (text.bytes ++ rest)) field n last ∧ 0 < n ∧ last.value ≠ text.tag.length + 1 := by
  have hbuf := bytes_append text rest
  have hfixtoui := @fixtoui_returns _ _ text.tag field 61 0 hbuf (not_mem_digits text.decimal rfl) text.decimal hmost
  have hless : u32 text.tag.length + 1 ≤ text.tag.length := by omega
  have hsplit : text.bytes ++ rest = text.tag.take (u32 text.tag.length + 1) ++
      (text.tag.drop (u32 text.tag.length + 1) ++ 61 :: (text.value ++ Fix.soh :: rest)) := by
    rw [← List.append_assoc, List.take_append_drop]
    exact hbuf
  cases fixfield_after hfixtoui hpos hsplit (by rw [List.length_take, Nat.min_eq_left hless]) with
  | inl hfound =>
    obtain ⟨middle, others, hback, hmiddle, hreturns⟩ := hfound
    apply Exists.intro
    apply Exists.intro
    apply And.intro hreturns
    apply And.intro (Nat.succ_pos _)
    dsimp only
    omega
  | inr hnone =>
    exact absurd (List.mem_append_right _ (List.mem_cons_of_mem _ (List.mem_append_right _ List.mem_cons_self))) hnone.1

/-- A longer tag whose number of digits is none of one to ten in 32 bits is refused. -/
theorem fixfield_refuses (h : u32 text.tag.length = 0 ∨ Fix.maxDigits < u32 text.tag.length) :
    ∃ e last, Fails (fixfield (text.bytes ++ rest)) field e last := by
  have hbuf := bytes_append text rest
  have htag : 61 ∉ text.tag := not_mem_digits text.decimal rfl
  cases h with
  | inl hzero =>
    have hfixtoui := @fixtoui_returns _ _ text.tag field 61 0 hbuf htag text.decimal (by rw [hzero]; exact Nat.zero_le _)
    rw [hzero] at hfixtoui
    apply Exists.intro
    apply Exists.intro
    apply hfixtoui.bind_fails
    exact fails_fail _ field
  | inr hmany =>
    obtain ⟨e, he⟩ := @fixtoui_fails _ _ text.tag field 61 0 hbuf htag (Or.inl hmany)
    exact ⟨e, field, he.bind⟩

/-- Where no field is in front the call fails. -/
theorem fixfield_malformed (h : ¬∃ (text : FixFieldText) (rest : List UInt8), buf = text.bytes ++ rest) :
    ∃ e last, Fails (fixfield buf) field e last := by
  by_cases hequals : (61 : UInt8) ∈ buf
  case neg =>
    apply Exists.intro
    apply Exists.intro
    apply (fixtoui_none hequals).bind_fails
    exact fails_fail _ field
  obtain ⟨tag, back, hbuf, htag⟩ := List.eq_append_cons_of_mem hequals
  by_cases hbad : Fix.maxDigits < u32 tag.length ∨ ¬∀ digit ∈ tag, isdigit digit = true
  · obtain ⟨e, he⟩ := @fixtoui_fails _ _ tag field 61 0 hbuf htag hbad
    exact ⟨e, field, he.bind⟩
  rw [not_or, not_not, not_lt] at hbad
  obtain ⟨hmost, hdecimal⟩ := hbad
  have hfixtoui := @fixtoui_returns _ _ tag field 61 0 hbuf htag hdecimal hmost
  by_cases hzero : u32 tag.length = 0
  · rw [hzero] at hfixtoui
    apply Exists.intro
    apply Exists.intro
    apply hfixtoui.bind_fails
    exact fails_fail _ field
  have hless := u32_le tag.length
  have hfront : ((tag ++ [61]).take (u32 tag.length + 1)).length = u32 tag.length + 1 := by
    rw [List.length_take, List.length_append, List.length_singleton]
    omega
  have hsplit : buf = (tag ++ [61]).take (u32 tag.length + 1) ++ ((tag ++ [61]).drop (u32 tag.length + 1) ++ back) := by
    rw [← List.append_assoc, List.take_append_drop, hbuf, List.append_assoc]
    rfl
  cases fixfield_after hfixtoui hzero hsplit hfront with
  | inr hnone => exact hnone.2
  | inl hfound =>
    -- the end of a value behind the tag would make a field of what is in front
    obtain ⟨middle, others, hback, -, -⟩ := hfound
    have hmem : Fix.soh ∈ (tag ++ [61]).drop (u32 tag.length + 1) ++ back := by
      rw [hback]
      exact List.mem_append_right _ List.mem_cons_self
    have hsoh : Fix.soh ∈ back := by
      apply (List.mem_append.mp hmem).resolve_left
      intro hleft
      cases List.mem_append.mp (List.mem_of_mem_drop hleft) with
      | inl hdigit => exact not_mem_digits hdecimal rfl hdigit
      | inr hone => exact absurd (List.mem_singleton.mp hone) (by decide)
    obtain ⟨value, rest, hrest, hvalue⟩ := List.eq_append_cons_of_mem hsoh
    have hnonempty : tag ≠ [] := by
      rintro rfl
      exact hzero rfl
    apply absurd _ h
    apply Exists.intro ⟨tag, value, hnonempty, hdecimal, hvalue⟩
    apply Exists.intro rest
    rw [bytes_append, hbuf, hrest]

/-- Every call is defined, and one that returns has consumed something. -/
theorem fixfield_runs (buf : List UInt8) (field : FixField) :
    Runs (fixfield buf) field fun result _ => ∀ n, result = .ok n → 0 < n := by
  have hfails {e : FixFieldError} {last : FixField} (h : Fails (fixfield buf) field e last) :
      Runs (fixfield buf) field fun result _ => ∀ n, result = .ok n → 0 < n :=
    h.runs fun n hn => nomatch hn
  by_cases h : ∃ (text : FixFieldText) (rest : List UInt8), buf = text.bytes ++ rest
  · obtain ⟨text, rest, rfl⟩ := h
    by_cases hshort : text.tag.length ≤ Fix.maxDigits
    · apply (@fixfield_short rest field text hshort).runs
      rintro n ⟨⟩
      rw [FixFieldText.bytes, List.length_append, List.length_cons]
      omega
    by_cases hrefused : u32 text.tag.length = 0 ∨ Fix.maxDigits < u32 text.tag.length
    · obtain ⟨e, last, he⟩ := @fixfield_refuses rest field text hrefused
      exact hfails he
    · rw [not_or, not_lt] at hrefused
      obtain ⟨n, last, hreturns, hpos, -⟩ :=
        @fixfield_long rest field text (Nat.lt_of_not_le hshort) hrefused.1 hrefused.2
      apply hreturns.runs
      rintro n ⟨⟩
      exact hpos
  · obtain ⟨e, last, he⟩ := @fixfield_malformed buf field h
    exact hfails he

/-- A call that returns has consumed something. -/
theorem fixfield_pos {last : FixField} {n : ℕ} (h : fixfield buf field = some (.ok n, last)) : 0 < n :=
  (fixfield_runs buf field).holds h n rfl

/-- The calls on a body until it is used up or one of them fails: what is in the field behind each, and the
failure. -/
def iterate (field : FixField) (body : List UInt8) : Option (List FixField × Option FixFieldError) :=
  if body = [] then some ([], none)
  else
    match _hcall : fixfield body field with
    | none => none
    | some (.error e, _) => some ([], some e)
    | some (.ok n, last) => (iterate last (body.drop n)).map fun result => (last :: result.1, result.2)
termination_by body.length
decreasing_by
  have hpos := fixfield_pos _hcall
  have hbody := List.length_pos_of_ne_nil ‹_›
  rw [List.length_drop]
  omega

variable {last : FixField} {e : FixFieldError} {n : ℕ}

theorem iterate_nil (field : FixField) : iterate field [] = some ([], none) := by
  rw [iterate, if_pos rfl]

theorem iterate_fails (hbuf : buf ≠ []) (h : Fails (fixfield buf) field e last) :
    iterate field buf = some ([], some e) := by
  have hcall : fixfield buf field = some (.error e, last) := h
  rw [iterate, if_neg hbuf]
  split <;> simp_all

theorem iterate_returns (hbuf : buf ≠ []) (h : Returns (fixfield buf) field n last) :
    iterate field buf = (iterate last (buf.drop n)).map fun result => (last :: result.1, result.2) := by
  have hcall : fixfield buf field = some (.ok n, last) := h
  rw [iterate, if_neg hbuf]
  split <;> simp_all

/-- The calls are all defined. -/
theorem iterate_defined (field : FixField) (body : List UInt8) : ∃ result, iterate field body = some result := by
  induction hsize : body.length using Nat.strong_induction_on generalizing field body with
  | _ size ih
  by_cases hbody : body = []
  · rw [hbody]
    exact ⟨_, iterate_nil field⟩
  obtain ⟨result, last, hcall, hpos⟩ := fixfield_runs body field
  cases result with
  | error e => exact ⟨_, iterate_fails hbody hcall⟩
  | ok n =>
    have hless : (body.drop n).length < size := by
      have hn := hpos n rfl
      have hlength := List.length_pos_of_ne_nil hbody
      rw [List.length_drop]
      omega
    obtain ⟨others, hothers⟩ := ih _ hless last (body.drop n) rfl
    rw [iterate_returns hbody hcall, hothers]
    exact ⟨_, rfl⟩

theorem bytes_ne (text : FixFieldText) (rest : List UInt8) : text.bytes ++ rest ≠ [] := by
  rw [bytes_append]
  exact List.append_ne_nil_of_right_ne_nil _ (List.cons_ne_nil _ _)

/-- A field is in front in one way only. -/
theorem bytes_inj {other : FixFieldText} {back : List UInt8} (h : text.bytes ++ rest = other.bytes ++ back) :
    text.tag = other.tag := by
  have htake := congrArg (List.takeWhile isdigit) h
  rw [bytes_append, bytes_append, List.takeWhile_append_of_pos text.decimal, List.takeWhile_append_of_pos other.decimal,
    List.takeWhile_cons_of_neg (by decide), List.takeWhile_cons_of_neg (by decide), List.append_nil, List.append_nil] at htake
  exact htake

/-- The iteration is as it is promised to be. Behind any fields in front whose tags are numbers of 32 bits, it
has yielded these, at the end of the body it is over, and where no such field follows it fails. -/
def Promised (field : FixField) (body : List UInt8) : Prop :=
  ∀ (fields : List FixFieldText) (rest : List UInt8), body = fields.flatMap FixFieldText.bytes ++ rest →
    (∀ text ∈ fields, text.Fits) →
    ∃ more failure, iterate field body = some (fields.map FixFieldText.field ++ more, failure) ∧
      (rest = [] → more = [] ∧ failure = none) ∧
      (rest ≠ [] → (¬∃ (text : FixFieldText) (back : List UInt8), rest = text.bytes ++ back ∧ text.Fits) →
        more = [] ∧ ∃ e, failure = some e)

/-- A tag of 32 bits has at most ten digits and its value is no longer than an `unsigned` says; a larger tag
has more than ten digits, and their number modulo `2 ^ 32` is none of one to ten. -/
def Readable (text : FixFieldText) : Prop :=
  (text.Fits → text.tag.length ≤ 10 ∧ text.value.length < 2 ^ 32) ∧
    (¬text.Fits → 10 < text.tag.length ∧ (u32 text.tag.length = 0 ∨ 10 < u32 text.tag.length))

/-- The fields that the iteration is to come to are readable: those of a front and the one behind them. -/
def Honest (body : List UInt8) : Prop :=
  ∀ (fields : List FixFieldText) (text : FixFieldText) (rest : List UInt8),
    body = fields.flatMap FixFieldText.bytes ++ (text.bytes ++ rest) → (∀ other ∈ fields, other.Fits) → Readable text

/-- A readable field of 32 bits is yielded. -/
theorem iterate_readable (hfits : text.Fits) (hreadable : Readable text) :
    iterate field (text.bytes ++ rest) =
      (iterate text.field rest).map fun result => (text.field :: result.1, result.2) := by
  have hboth := hreadable.1 hfits
  have hcall := @fixfield_short rest field text hboth.1
  have hfield : (⟨numeral text.tag % 2 ^ 32, text.tag.length + 1, u32 text.value.length⟩ : FixField) = text.field := by
    rw [Nat.mod_eq_of_lt hfits, u32_of_lt hboth.2]
    rfl
  rw [hfield] at hcall
  rw [iterate_returns (bytes_ne text rest) hcall, List.drop_left]

/-- Where readable fields are met the iteration keeps its promise. -/
theorem promised_of_honest {body : List UInt8} (h : Honest body) : Promised field body := by
  intro fields
  induction fields generalizing field body with
  | nil =>
    intro rest hbody _
    rw [List.flatMap_nil, List.nil_append] at hbody
    subst hbody
    obtain ⟨⟨more, failure⟩, hiterate⟩ := iterate_defined field body
    apply Exists.intro more
    apply Exists.intro failure
    apply And.intro hiterate
    constructor
    · rintro rfl
      rw [iterate_nil, Option.some.injEq, Prod.mk.injEq] at hiterate
      exact ⟨hiterate.1.symm, hiterate.2.symm⟩
    · intro hne hnone
      have hfails : ∃ e last, Fails (fixfield body) field e last := by
        by_cases hfield : ∃ (text : FixFieldText) (rest : List UInt8), body = text.bytes ++ rest
        · obtain ⟨text, rest, rfl⟩ := hfield
          have hlarge : ¬text.Fits := fun hfits => hnone ⟨text, rest, rfl, hfits⟩
          exact fixfield_refuses ((h [] text rest rfl (List.forall_mem_nil _)).2 hlarge).2
        · exact fixfield_malformed hfield
      obtain ⟨e, last, hcall⟩ := hfails
      rw [iterate_fails hne hcall, Option.some.injEq, Prod.mk.injEq] at hiterate
      exact ⟨hiterate.1.symm, e, hiterate.2.symm⟩
  | cons text fields ih =>
    intro rest hbody hfits
    rw [List.flatMap_cons, List.append_assoc] at hbody
    subst hbody
    have hfirst : text.Fits := hfits text List.mem_cons_self
    have hreadable := h [] text _ rfl (List.forall_mem_nil _)
    have hrest : Honest (fields.flatMap FixFieldText.bytes ++ rest) := by
      intro others next back hback hothers
      apply h (text :: others) next back
      · rw [hback, List.flatMap_cons, List.append_assoc]
      · exact List.forall_mem_cons.mpr ⟨hfirst, hothers⟩
    obtain ⟨more, failure, hiterate, hends⟩ :=
      @ih text.field _ hrest rest rfl (fun other hother => hfits other (List.mem_cons_of_mem _ hother))
    apply Exists.intro more
    apply Exists.intro failure
    apply And.intro _ hends
    rw [iterate_readable hfirst hreadable, hiterate]
    rfl

/-- Where the promise is kept the field in front is readable. -/
theorem readable_front (h : Promised field (text.bytes ++ rest)) : Readable text := by
  constructor
  · intro hfits
    obtain ⟨more, failure, hiterate, -⟩ := h [text] rest (by simp) (by simpa using hfits)
    rw [List.map_singleton, List.singleton_append] at hiterate
    by_cases hshort : text.tag.length ≤ Fix.maxDigits
    · apply And.intro hshort
      rw [iterate_returns (bytes_ne text rest) (fixfield_short hshort)] at hiterate
      obtain ⟨result, -, hresult⟩ := Option.map_eq_some_iff.mp hiterate
      have hfield := (List.cons.inj (congrArg Prod.fst hresult)).1
      have hsize : u32 text.value.length = text.value.length := congrArg FixField.size hfield
      rw [← hsize]
      exact u32_lt _
    by_cases hrefused : u32 text.tag.length = 0 ∨ Fix.maxDigits < u32 text.tag.length
    · obtain ⟨e, last, he⟩ := @fixfield_refuses rest field text hrefused
      rw [iterate_fails (bytes_ne text rest) he, Option.some.injEq, Prod.mk.injEq] at hiterate
      exact absurd hiterate.1.symm (List.cons_ne_nil _ _)
    · rw [not_or, not_lt] at hrefused
      obtain ⟨n, last, hcall, -, hvalue⟩ :=
        @fixfield_long rest field text (Nat.lt_of_not_le hshort) hrefused.1 hrefused.2
      rw [iterate_returns (bytes_ne text rest) hcall] at hiterate
      obtain ⟨result, -, hresult⟩ := Option.map_eq_some_iff.mp hiterate
      have hfield := (List.cons.inj (congrArg Prod.fst hresult)).1
      exact absurd (congrArg FixField.value hfield) hvalue
  · intro hlarge
    have hnone : ¬∃ (other : FixFieldText) (back : List UInt8), text.bytes ++ rest = other.bytes ++ back ∧ other.Fits := by
      rintro ⟨other, back, hsame, hfits⟩
      apply hlarge
      rw [FixFieldText.Fits, bytes_inj hsame]
      exact hfits
    obtain ⟨more, failure, hiterate, -, hends⟩ := h [] (text.bytes ++ rest) rfl (List.forall_mem_nil _)
    obtain ⟨rfl, e, rfl⟩ := hends (bytes_ne text rest) hnone
    have hnever {n : ℕ} {last : FixField} : ¬Returns (fixfield (text.bytes ++ rest)) field n last := by
      intro hcall
      rw [iterate_returns (bytes_ne text rest) hcall] at hiterate
      obtain ⟨result, -, hresult⟩ := Option.map_eq_some_iff.mp hiterate
      exact List.cons_ne_nil _ _ (congrArg Prod.fst hresult)
    have hlong : Fix.maxDigits < text.tag.length := Nat.lt_of_not_le fun hshort => hnever (fixfield_short hshort)
    apply And.intro hlong
    rw [or_iff_not_imp_left]
    intro hpos
    apply Nat.lt_of_not_le
    intro hmost
    obtain ⟨n, last, hcall, -⟩ := @fixfield_long rest field text hlong hpos hmost
    exact hnever hcall

/-- The iteration keeps its promise on a body if and only if every field that it is to come to is readable. -/
theorem fixfield_iff (field : FixField) (body : List UInt8) : Promised field body ↔ Honest body := by
  constructor
  · intro h fields
    induction fields generalizing field body with
    | nil =>
      intro text rest hbody _
      rw [List.flatMap_nil, List.nil_append] at hbody
      rw [hbody] at h
      exact readable_front h
    | cons first fields ih =>
      intro text rest hbody hfits
      rw [List.flatMap_cons, List.append_assoc] at hbody
      subst hbody
      have hfirst : first.Fits := hfits first List.mem_cons_self
      have hreadable := readable_front h
      apply ih first.field (fields.flatMap FixFieldText.bytes ++ (text.bytes ++ rest)) _ text rest rfl
        (fun other hother => hfits other (List.mem_cons_of_mem _ hother))
      intro others back hback hothers
      obtain ⟨more, failure, hiterate, hends⟩ := h (first :: others) back
        (by rw [hback, List.flatMap_cons, List.append_assoc]) (List.forall_mem_cons.mpr ⟨hfirst, hothers⟩)
      rw [iterate_readable hfirst hreadable] at hiterate
      obtain ⟨result, hresult, hpair⟩ := Option.map_eq_some_iff.mp hiterate
      rw [Prod.mk.injEq] at hpair
      apply Exists.intro more
      apply Exists.intro failure
      apply And.intro _ hends
      rw [hresult, Option.some.injEq]
      exact Prod.ext (List.cons.inj hpair.1).2 hpair.2
  · exact promised_of_honest

/-- The field `4294967296=` is read as one with the tag zero. -/
theorem fixfield_wraps : ¬∀ (field : FixField) (body : List UInt8), Promised field body := by
  intro h
  have hdecimal : ∀ digit ∈ ([52, 50, 57, 52, 57, 54, 55, 50, 57, 54] : List UInt8), isdigit digit = true := by
    decide +kernel
  have hreadable := @readable_front [] ⟨0, 0, 0⟩ ⟨_, [], by decide, hdecimal, List.not_mem_nil⟩ (h _ _)
  have hlarge : ¬numeral [52, 50, 57, 52, 57, 54, 55, 50, 57, 54] < 2 ^ 32 := by decide
  exact absurd (hreadable.2 hlarge).1 (Nat.lt_irrefl 10)

end FixField

end Aug.Net
