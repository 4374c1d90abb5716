import Mathlib.Tactic.IntervalCases
import Aug.Utilpp.Url

/-!
# URL coding round trip

A character below 128 has an escape, the reader takes the escape back to the character whatever follows, and
neither `&` nor `=` occurs in it. What is written for a string is therefore read back in one pass, and the pairs
of a query are told apart by their delimiters alone. A character from 128 on is negative as a `char`, so that
one of its two indices leaves the table.
-/

namespace Aug.Utilpp

variable {ch : UInt8} {s out : List UInt8}

/-- No character is negative as a `char`. -/
def Plain (s : List UInt8) : Prop := ∀ ch ∈ s, ch < 128

instance : Decidable (Plain s) := inferInstanceAs (Decidable (∀ ch ∈ s, ch < 128))

/-- The value of a `char`. -/
theorem toInt_char (ch : UInt8) : ch.toInt8.toInt = if ch < 128 then (ch.toNat : ℤ) else ch.toNat - 256 := by
  have hvalue : ch.toInt8.toInt = if 2 * ch.toNat < 256 then (ch.toNat : ℤ) else ch.toNat - 256 := by
    exact BitVec.toInt_eq_toNat_cond ch.toBitVec
  have hlow : 2 * ch.toNat < 256 ↔ ch < 128 := by
    rw [UInt8.lt_iff_toNat_lt]
    change 2 * ch.toNat < 256 ↔ ch.toNat < 128
    omega
  simp only [hvalue, hlow]

/-- An index below 16 picks a digit, from which the reader gets the index back. -/
theorem hex_digit (n : ℕ) (hn : n < 16) :
    ∃ d, hex n = some d ∧ isxdigit d = true ∧ xdigitoi d = n ∧ d ≠ 38 ∧ d ≠ 61 := by
  interval_cases n <;> exact ⟨_, rfl, rfl, rfl, by decide, by decide⟩

/-- A negative index is outside of the table. -/
theorem hex_negative {index : ℤ} (hneg : index < 0) : hex index = none := if_neg (not_le.mpr hneg)

/-- The reader copies whatever is neither `+` nor `%`. -/
theorem decodeurl_copy (hplus : ch ≠ 43) (hpercent : ch ≠ 37) (rest : List UInt8) :
    decodeurl (ch :: rest) = ch :: decodeurl rest := by
  rw [decodeurl]
  · exact hplus
  · intro _ _ _ h
    exact absurd h hpercent

/-- What is written for one character. -/
structure Escape (ch : UInt8) (out : List UInt8) : Prop where
  ampersand : 38 ∉ out
  equals : 61 ∉ out
  read : ∀ rest, decodeurl (out ++ rest) = ch :: decodeurl rest

/-- A character that stands for itself. -/
theorem escape_self (hplus : ch ≠ 43) (hpercent : ch ≠ 37) (hamp : ch ≠ 38) (hequals : ch ≠ 61) :
    Escape ch [ch] where
  ampersand := by simpa using hamp.symm
  equals := by simpa using hequals.symm
  read := decodeurl_copy hplus hpercent

/-- A character written with two digits. -/
theorem escape_digits (hlow : ch < 128) :
    ∃ hi lo, hex (ch.toInt8.toInt.tdiv 16) = some hi ∧ hex (ch.toInt8.toInt.tmod 16) = some lo ∧
      Escape ch [37, hi, lo] := by
  have hch : ch.toNat < 128 := by simpa [UInt8.lt_iff_toNat_lt] using hlow
  have hvalue : ch.toInt8.toInt = (ch.toNat : ℤ) := by rw [toInt_char, if_pos hlow]
  obtain ⟨hi, hhi, hhiDigit, hhiValue, hhiAmp, hhiEquals⟩ := hex_digit (ch.toNat / 16) (by omega)
  obtain ⟨lo, hlo, hloDigit, hloValue, hloAmp, hloEquals⟩ := hex_digit (ch.toNat % 16) (by omega)
  refine ⟨hi, lo, ?_, ?_, ?_⟩
  · rw [hvalue, ← hhi]
    rfl
  · rw [hvalue, ← hlo]
    rfl
  · constructor
    · simp [hhiAmp.symm, hloAmp.symm]
    · simp [hhiEquals.symm, hloEquals.symm]
    · intro rest
      have hsum : ((ch.toNat / 16 : ℕ) : ℤ) * 16 + ((ch.toNat % 16 : ℕ) : ℤ) = ch.toNat := by omega
      have hback : UInt8.ofInt (ch.toNat : ℤ) = ch := by
        have hmod : ((ch.toNat : ℤ) % 2 ^ 8).toNat = ch.toNat := by omega
        rw [UInt8.ofInt, hmod, UInt8.ofNat_toNat]
      simp only [List.cons_append, List.nil_append, decodeurl, hhiDigit, hloDigit, hhiValue, hloValue, hsum, hback,
        Bool.and_self, if_true]

/-- Every character below 128 has an escape. -/
theorem encodechar_low (hlow : ch < 128) : ∃ out, encodechar ch = some out ∧ Escape ch out := by
  obtain ⟨hi, lo, hhi, hlo, hescape⟩ := escape_digits hlow
  by_cases halnum : isalnum ch = true
  · refine ⟨[ch], by simp [encodechar, halnum], ?_⟩
    apply escape_self <;> rintro rfl <;> exact absurd halnum (by decide)
  by_cases hspace : ch = 32
  · subst hspace
    exact ⟨[43], rfl, by decide, by decide, fun rest => rfl⟩
  by_cases hmark : ch ∈ [45, 95, 46, 33, 126, 42, 39, 40, (41 : UInt8)]
  · refine ⟨[ch], by simp only [encodechar, halnum, hspace, hmark, if_true, if_false, Bool.false_eq_true], ?_⟩
    apply escape_self <;> rintro rfl <;> exact absurd hmark (by decide)
  · refine ⟨[37, hi, lo], ?_, hescape⟩
    simp [encodechar, halnum, hspace, hmark, hhi, hlo]

/-- No character from 128 on has one. -/
theorem encodechar_high (hhigh : ¬ch < 128) : encodechar ch = none := by
  have hch : 128 ≤ ch.toNat := by simpa [UInt8.lt_iff_toNat_lt] using hhigh
  have hvalue : ch.toInt8.toInt = ch.toNat - 256 := by rw [toInt_char, if_neg hhigh]
  have halnum : isalnum ch = false := by
    simp only [isalnum, Bool.or_eq_false_iff, Bool.and_eq_false_iff, decide_eq_false_iff_not, UInt8.le_iff_toNat_le]
    simp
    omega
  have hother : ch ∉ [32, 45, 95, 46, 33, 126, 42, 39, 40, (41 : UInt8)] := by
    intro hmem
    have hlow : ∀ mark ∈ [32, 45, 95, 46, 33, 126, 42, 39, 40, (41 : UInt8)], mark < 128 := by decide +kernel
    exact hhigh (hlow ch hmem)
  have hspace : ch ≠ 32 := List.ne_of_not_mem_cons hother
  have hmark : ch ∉ [45, 95, 46, 33, 126, 42, 39, 40, (41 : UInt8)] := List.not_mem_of_not_mem_cons hother
  have hnegative : ch.toInt8.toInt.tdiv 16 < 0 ∨ ch.toInt8.toInt.tmod 16 < 0 := by
    have hparts := Int.mul_tdiv_add_tmod ch.toInt8.toInt 16
    have hbyte := ch.toNat_lt
    omega
  rcases hnegative with hneg | hneg
  · simp [encodechar, halnum, hspace, hmark, hex_negative hneg]
  · simp [encodechar, halnum, hspace, hmark, hex_negative hneg]

/-- What is written for a string is apart from both delimiters and is read back whatever follows. -/
structure Written (s out : List UInt8) : Prop where
  ampersand : 38 ∉ out
  equals : 61 ∉ out
  read : decodeurl out = s

/-- A string is written exactly when no character is negative. -/
theorem encodeurl_isSome (s : List UInt8) : (encodeurl s).isSome ↔ Plain s := by
  induction s with
  | nil => simp [encodeurl, Plain]
  | cons ch rest ih =>
    have hcons : Plain (ch :: rest) ↔ ch < 128 ∧ Plain rest := List.forall_mem_cons
    rw [hcons, ← ih]
    by_cases hlow : ch < 128
    · obtain ⟨out, hout, -⟩ := encodechar_low hlow
      cases hrest : encodeurl rest <;> simp [encodeurl, hout, hrest, hlow]
    · simp [encodeurl, encodechar_high hlow, hlow]

/-- Whatever is written for a string is read back. -/
theorem encodeurl_written {s out : List UInt8} (h : encodeurl s = some out) : Written s out := by
  induction s generalizing out with
  | nil =>
    cases h
    exact ⟨by simp, by simp, rfl⟩
  | cons ch rest ih =>
    simp only [encodeurl, Option.pure_def, Option.bind_eq_bind, Option.bind_eq_some_iff, Option.some.injEq] at h
    obtain ⟨first, hfirst, others, hothers, rfl⟩ := h
    have hlow : ch < 128 := by
      by_contra hhigh
      rw [encodechar_high hhigh] at hfirst
      cases hfirst
    obtain ⟨escape, hescape, happly⟩ := encodechar_low hlow
    cases hfirst.symm.trans hescape
    have hrest := ih hothers
    constructor
    · simpa using ⟨happly.ampersand, hrest.ampersand⟩
    · simpa using ⟨happly.equals, hrest.equals⟩
    · rw [happly.read, hrest.read]

/-- The string of one pair. -/
structure PairWritten (xy : List UInt8 × List UInt8) (out : List UInt8) : Prop where
  ampersand : 38 ∉ out
  read : urlpair out = xy

/-- A key and a value with `=` between them are read back as a pair. -/
theorem pair_written {x y outx outy : List UInt8} (hx : Written x outx) (hy : Written y outy) :
    PairWritten (x, y) (outx ++ 61 :: outy) where
  ampersand := by simpa using ⟨hx.ampersand, hy.ampersand⟩
  read := by
    have hkey : ∀ ch ∈ outx, (decide (ch ≠ 61)) = true := by
      intro ch hch
      exact decide_eq_true fun heq => hx.equals (heq ▸ hch)
    have htake : (outx ++ 61 :: outy).takeWhile (· ≠ 61) = outx := by
      rw [List.takeWhile_append_of_pos hkey]
      simp
    have hdrop : (outx ++ 61 :: outy).dropWhile (· ≠ 61) = 61 :: outy := by
      rw [List.dropWhile_append_of_pos hkey]
      simp
    simp only [urlpair, split2, htake, hdrop, List.drop_succ_cons, List.drop_zero, hx.read, hy.read]

/-- The keys and values of a list of pairs are plain. -/
def PlainPairs (v : List (List UInt8 × List UInt8)) : Prop := ∀ xy ∈ v, Plain xy.1 ∧ Plain xy.2

instance (v : List (List UInt8 × List UInt8)) : Decidable (PlainPairs v) :=
  inferInstanceAs (Decidable (∀ xy ∈ v, Plain xy.1 ∧ Plain xy.2))

/-- A list of pairs is packed exactly when all of it is plain. -/
theorem packurlFrom_isSome (first : Bool) (v : List (List UInt8 × List UInt8)) :
    (packurlFrom first v).isSome ↔ PlainPairs v := by
  induction v generalizing first with
  | nil => simp [packurlFrom, PlainPairs]
  | cons xy rest ih =>
    have hcons : PlainPairs (xy :: rest) ↔ (Plain xy.1 ∧ Plain xy.2) ∧ PlainPairs rest := List.forall_mem_cons
    rw [hcons, ← ih false, ← encodeurl_isSome, ← encodeurl_isSome]
    cases hx : encodeurl xy.1 <;> cases hy : encodeurl xy.2 <;> cases hrest : packurlFrom false rest <;>
      simp [packurlFrom, hx, hy, hrest]

/-- A joined list is its first part and the others with the delimiter in front of each. -/
theorem intercalate_flatMap (first : List UInt8) (others : List (List UInt8)) :
    [38].intercalate (first :: others) = first ++ others.flatMap (38 :: ·) := by
  induction others generalizing first with
  | nil => simp
  | cons second others ih => rw [List.intercalate_cons_cons, ih second, List.flatMap_cons, List.append_assoc]; rfl

/-- The packed string is the strings of the pairs with `&` in front of every one but the first. -/
theorem packurlFrom_split {first : Bool} {v : List (List UInt8 × List UInt8)} {out : List UInt8}
    (h : packurlFrom first v = some out) :
    ∃ parts : List (List UInt8), parts.map urlpair = v ∧ (∀ part ∈ parts, 38 ∉ part) ∧
      out = if first then [38].intercalate parts else parts.flatMap (38 :: ·) := by
  induction v generalizing first out with
  | nil =>
    cases h
    exact ⟨[], rfl, by simp, by cases first <;> rfl⟩
  | cons xy rest ih =>
    simp only [packurlFrom, Option.pure_def, Option.bind_eq_bind, Option.bind_eq_some_iff, Option.some.injEq] at h
    obtain ⟨outx, hx, outy, hy, others, hothers, rfl⟩ := h
    obtain ⟨parts, hread, hamp, rfl⟩ := ih hothers
    have hpair := pair_written (encodeurl_written hx) (encodeurl_written hy)
    refine ⟨(outx ++ 61 :: outy) :: parts, by rw [List.map_cons, hpair.read, hread],
      List.forall_mem_cons.mpr ⟨hpair.ampersand, hamp⟩, ?_⟩
    cases first with
    | false => simp
    | true => simp [intercalate_flatMap]

/-- Whatever is packed for a list that is not empty is unpacked to the list. -/
theorem packurl_read {v : List (List UInt8 × List UInt8)} {out : List UInt8} (hne : v ≠ [])
    (h : packurl v = some out) : unpackurl out = v := by
  obtain ⟨parts, hread, hamp, hout⟩ := packurlFrom_split h
  have hpartsNe : parts ≠ [] := by
    rintro rfl
    exact hne hread.symm
  rw [unpackurl, hout, if_pos rfl, List.splitOn_intercalate 38 hamp hpartsNe, hread]

/-- A string comes back from its escapes exactly when none of its characters is negative as a `char`, and so does
a list of pairs that is not empty: the table is then indexed inside its bounds alone. -/
theorem url_round_trip (s : List UInt8) (v : List (List UInt8 × List UInt8)) (hne : v ≠ []) :
    ((encodeurl s).map decodeurl = some s ↔ Plain s) ∧ ((packurl v).map unpackurl = some v ↔ PlainPairs v) := by
  constructor
  · rw [← encodeurl_isSome]
    cases h : encodeurl s with
    | none => simp
    | some out => simp [(encodeurl_written h).read]
  · rw [← packurlFrom_isSome true v]
    cases h : packurl v with
    | none => simpa [packurl] using h
    | some out =>
      have hread := packurl_read hne h
      rw [packurl] at h
      simp [hread, h]

/-- A key and a value with the delimiters and the escape in them. -/
theorem url_round_trip_delimiters :
    (packurl [([38, 61], [37, 43, 32]), ([], [37])]).map unpackurl = some [([38, 61], [37, 43, 32]), ([], [37])] :=
  (url_round_trip [37] [([38, 61], [37, 43, 32]), ([], [37])] (List.cons_ne_nil _ _)).2.mpr (by decide +kernel)

/-- The two bytes of an accented letter are negative as `char`: the table is read in front of its first digit. -/
theorem url_negative : ¬((∀ s : List UInt8, (encodeurl s).map decodeurl = some s) ∧
    ∀ v : List (List UInt8 × List UInt8), v ≠ [] → (packurl v).map unpackurl = some v) := by
  intro h
  exact absurd (h.1 [195, 169]) (by decide)

end Aug.Utilpp
