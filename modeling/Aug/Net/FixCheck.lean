import Aug.Net.FixHeader

/-!
# Checking a FIX message

`aug_checkfix` over a buffer of the given size. The head is compared from the front, the checksum field
from the end, and neither is looked for before it is compared, so an access outside of the buffer makes
the check undefined. What a sound message is comes from the standard alone, and is compared with the check.
-/

namespace Aug.Net

open Aug.Lib Aug.Util Call

/-- `struct aug_fixstd_`, with the body as its place in the buffer. -/
structure FixStd where
  fixver : List UInt8
  body : ℕ
  size : ℕ
deriving DecidableEq

/-- The errors of a check, all of them `AUG_EPARSE`. -/
inductive FixCheckError where
  | parse (message : String)
  | nondigit (digits : List UInt8)
  | checksum (sum expected : ℕ)
deriving DecidableEq

/-- A step of the check, which writes the fields as it finds them. -/
abbrev FixCheck := Call FixStd FixCheckError

namespace FixCheck

/-- `BEGINSTRING_PREFIX_`. -/
def beginstringPrefix : List UInt8 := [56, 61]

/-- `BODYLENGTH_PREFIX_`. -/
def bodylengthPrefix : List UInt8 := [57, 61]

/-- The part of `CHECKSUM_PREFIX_` that is compared: the size of the prefix is taken from `9=`. -/
def checksumPrefix : List UInt8 := [49, 48]

/-- `AUG_FIXVERLEN`. -/
def fixverlen : ℕ := 7

/-- The bytes of a buffer from a place on. -/
def slice (buf : List UInt8) (ptr size : ℕ) : List UInt8 := (buf.drop ptr).take size

/-- Examine several bytes of the buffer. -/
def load (buf : List UInt8) (ptr size : ℕ) : FixCheck (List UInt8) :=
  access (if ptr + size ≤ buf.length then some (slice buf ptr size) else none)

/-- Examine a byte of the buffer. -/
def char (buf : List UInt8) (ptr : ℕ) : FixCheck UInt8 := access buf[ptr]?

/-- The loop over the body length, from what is left of the buffer: the place behind the delimiter. -/
def behind (ptr : ℕ) : List UInt8 → FixCheck ℕ
  | [] => access none
  | ch :: rest => if Fix.soh = ch then pure (ptr + 1) else behind (ptr + 1) rest

/-- `getsum_`. -/
def getsum (buf : List UInt8) : FixCheck ℕ := do
  let cu ← char buf (buf.length - 2)
  let ct ← char buf (buf.length - 3)
  let ch ← char buf (buf.length - 4)
  if !isdigit cu || !isdigit ct || !isdigit ch then fail (.nondigit (slice buf (buf.length - 4) 3))
  else pure ((cu.toNat - 48) + (ct.toNat - 48) * 10 + (ch.toNat - 48) * 100)

/-- `aug_checksum`, with characters that are signed. -/
def checksum (buf : List UInt8) : ℕ := buf.foldl (fun sum ch => u64 (sum + ch.toInt8.toInt)) 0 % 256

/-- The end of `aug_checkfix`, at the checksum field. -/
def tail (buf : List UInt8) : FixCheck Unit := do
  let tag ← load buf (buf.length - Fix.tailSize) checksumPrefix.length
  if tag ≠ checksumPrefix then fail (.parse "invalid checksum tag")
  else
    let delim ← char buf (buf.length - 1)
    if Fix.soh ≠ delim then fail (.parse "checksum field delimiter not found")
    else
      let sum1 ← getsum buf
      let sum2 := checksum (buf.take (buf.length - Fix.tailSize))
      if sum1 ≠ sum2 then fail (.checksum sum1 sum2) else pure ()

/-- `aug_checkfix`. Where the checksum field is compared the buffer has more than twelve bytes. -/
def checkfix (buf : List UInt8) : FixCheck Unit := do
  let tag ← load buf 0 beginstringPrefix.length
  if tag ≠ beginstringPrefix then fail (.parse "invalid beginstring tag")
  else
    let fixver ← load buf 2 fixverlen
    modify fun std => { std with fixver := fixver ++ [0] }
    let delim ← char buf 9
    if Fix.soh ≠ delim then fail (.parse "beginstring field delimiter not found")
    else
      let tag ← load buf 10 bodylengthPrefix.length
      if tag ≠ bodylengthPrefix then fail (.parse "invalid bodylength tag")
      else
        let body ← behind 12 (buf.drop 12)
        modify fun std => { std with body, size := u64 ((buf.length : ℤ) - Fix.tailSize - body) }
        tail buf

end FixCheck

/-- The parts of a message: the version, the digits of the length, the body and the digits of the sum. -/
structure FixText where
  version : List UInt8
  digits : List UInt8
  body : List UInt8
  sum : List UInt8

namespace FixText

/-- The fields in front of the body. -/
def head (text : FixText) : List UInt8 := [56, 61] ++ text.version ++ [1] ++ [57, 61] ++ text.digits ++ [1]

/-- What the checksum is taken of. -/
def summed (text : FixText) : List UInt8 := text.head ++ text.body

/-- `8=<7 characters>|9=<digits>|body10=<3 digits>|`. -/
def bytes (text : FixText) : List UInt8 := text.summed ++ ([49, 48, 61] ++ text.sum ++ [1])

/-- The parts are as the standard says, and the length and the sum are right. -/
structure Sound (text : FixText) : Prop where
  version : text.version.length = 7
  digits : text.digits ≠ []
  decimal : ∀ digit ∈ text.digits, isdigit digit = true
  length : numeral text.digits = text.body.length
  sum : text.sum.length = 3
  sumDecimal : ∀ digit ∈ text.sum, isdigit digit = true
  checksum : numeral text.sum = (text.summed.map UInt8.toNat).sum % 256

end FixText

namespace FixCheck

variable {buf front rest : List UInt8} {std : FixStd} {ptr size : ℕ}

theorem load_returns (h : ptr + size ≤ buf.length) : Returns (load buf ptr size) std (slice buf ptr size) std := by
  apply returns_access
  rw [if_pos h]

theorem load_undefined (h : ¬ptr + size ≤ buf.length) : Undefined (load buf ptr size) std := by
  rw [load, if_neg h]
  exact undefined_access std

theorem char_returns (h : ptr < buf.length) : Returns (char buf ptr) std buf[ptr] std :=
  returns_access (List.getElem?_eq_getElem h) std

theorem char_undefined (h : ¬ptr < buf.length) : Undefined (char buf ptr) std := by
  rw [char, List.getElem?_eq_none (Nat.le_of_not_lt h)]
  exact undefined_access std

/-- The body begins behind the first delimiter. -/
theorem behind_returns (hfront : Fix.soh ∉ front) :
    Returns (behind ptr (front ++ Fix.soh :: rest)) std (ptr + front.length + 1) std := by
  induction front generalizing ptr with
  | nil =>
    rw [List.nil_append, behind, if_pos rfl]
    exact returns_pure _ std
  | cons ch front ih =>
    rw [List.cons_append, behind, if_neg (List.ne_of_not_mem_cons hfront), List.length_cons]
    have hrest := @ih (ptr + 1) (List.not_mem_of_not_mem_cons hfront)
    rwa [Nat.add_right_comm ptr 1, Nat.add_assoc ptr] at hrest

/-- Without a delimiter the loop leaves the buffer. -/
theorem behind_undefined (hrest : Fix.soh ∉ rest) : Undefined (behind ptr rest) std := by
  induction rest generalizing ptr with
  | nil => exact undefined_access std
  | cons ch rest ih =>
    rw [behind, if_neg (List.ne_of_not_mem_cons hrest)]
    exact ih (List.not_mem_of_not_mem_cons hrest)

/-- A signed character is the byte modulo 256. -/
theorem toInt8_emod (ch : UInt8) : ch.toInt8.toInt % 256 = ch.toNat % 256 := by
  have h : ch.toInt8.toInt = Int.bmod ch.toNat 256 := BitVec.toInt_eq_toNat_bmod ch.toBitVec
  rw [h]
  exact Int.bmod_emod

/-- The sum of the signed characters is the sum of the bytes modulo 256. -/
theorem checksum_eq (buf : List UInt8) : checksum buf = (buf.map UInt8.toNat).sum % 256 := by
  have hfold (sum : ℕ) : (buf.foldl (fun sum ch => u64 (sum + ch.toInt8.toInt)) sum) % 256 =
      (sum + (buf.map UInt8.toNat).sum) % 256 := by
    induction buf generalizing sum with
    | nil => rfl
    | cons ch buf ih =>
      have hch := toInt8_emod ch
      have hsum : u64 (sum + ch.toInt8.toInt) % 256 = (sum + ch.toNat) % 256 := by
        unfold u64
        omega
      rw [List.foldl_cons, ih, List.map_cons, List.sum_cons, Nat.add_mod, hsum, ← Nat.add_mod, Nat.add_assoc]
  rw [checksum, hfold 0, Nat.zero_add]

/-- A part of the check is undefined unless it is `reached` that it stays in the buffer; then it returns
with the fields in `last` where what it compares has `passed`, and fails elsewhere. -/
def Judged (x : FixCheck Unit) (std : FixStd) (reached passed : Prop) (last : FixStd) : Prop :=
  (¬reached ∧ Undefined x std) ∨ (reached ∧ ¬passed ∧ ∃ e last, Fails x std e last) ∨
    (reached ∧ passed ∧ Returns x std () last)

variable {reached passed same : Prop} {x : FixCheck Unit} {last mid : FixStd}

theorem Judged.congr {reached' passed' : Prop} (h : Judged x std reached passed last) (hreached : reached ↔ reached')
    (hpassed : reached → (passed ↔ passed')) : Judged x std reached' passed' last := by
  rw [Judged, ← hreached]
  cases h with
  | inl hundefined => exact Or.inl hundefined
  | inr h =>
    cases h with
    | inl hfails => exact Or.inr (Or.inl ⟨hfails.1, mt (hpassed hfails.1).mpr hfails.2.1, hfails.2.2⟩)
    | inr hreturns => exact Or.inr (Or.inr ⟨hreturns.1, (hpassed hreturns.1).mp hreturns.2.1, hreturns.2.2⟩)

theorem judged_returns (h : Returns x std () last) : Judged x std True True last :=
  Or.inr (Or.inr ⟨trivial, trivial, h⟩)

theorem judged_fails {e : FixCheckError} (h : Fails x std e mid) : Judged x std True False last :=
  Or.inr (Or.inl ⟨trivial, not_false, e, mid, h⟩)

/-- Behind a statement that returns the check goes on. -/
theorem Judged.after {α : Type} {first : FixCheck α} {f : α → FixCheck Unit} {a : α} (hfirst : Returns first std a mid)
    (h : Judged (f a) mid reached passed last) : Judged (first >>= f) std reached passed last := by
  cases h with
  | inl hundefined => exact Or.inl ⟨hundefined.1, hfirst.bind_undefined hundefined.2⟩
  | inr h =>
    cases h with
    | inl hfails =>
      obtain ⟨hreached, hpassed, e, last, hlast⟩ := hfails
      exact Or.inr (Or.inl ⟨hreached, hpassed, e, last, hfirst.bind_fails hlast⟩)
    | inr hreturns => exact Or.inr (Or.inr ⟨hreturns.1, hreturns.2.1, hfirst.bind hreturns.2.2⟩)

/-- Bytes are examined if the buffer has them. -/
theorem Judged.load {f : List UInt8 → FixCheck Unit}
    (h : ptr + size ≤ buf.length → Judged (f (slice buf ptr size)) std reached passed last) :
    Judged (FixCheck.load buf ptr size >>= f) std (ptr + size ≤ buf.length ∧ reached) passed last := by
  by_cases henough : ptr + size ≤ buf.length
  · apply ((h henough).after (load_returns henough)).congr
    · exact (and_iff_right henough).symm
    · exact fun _ => Iff.rfl
  · exact Or.inl ⟨fun hboth => henough hboth.1, (load_undefined henough).bind⟩

/-- A byte is examined if the buffer has it. -/
theorem Judged.char {f : UInt8 → FixCheck Unit}
    (h : ∀ hptr : ptr < buf.length, Judged (f buf[ptr]) std reached passed last) :
    Judged (FixCheck.char buf ptr >>= f) std (ptr < buf.length ∧ reached) passed last := by
  by_cases henough : ptr < buf.length
  · apply ((h henough).after (char_returns henough)).congr
    · exact (and_iff_right henough).symm
    · exact fun _ => Iff.rfl
  · exact Or.inl ⟨fun hboth => henough hboth.1, (char_undefined henough).bind⟩

/-- A comparison ends the check unless it is of the same. -/
theorem Judged.guard {differs : Prop} [Decidable differs] {e : FixCheckError} (hdiffers : differs ↔ ¬same)
    (h : same → Judged x std reached passed last) :
    Judged (if differs then fail e else x) std (same → reached) (same ∧ passed) last := by
  by_cases hsame : same
  · rw [if_neg (fun hnot => hdiffers.mp hnot hsame)]
    apply (h hsame).congr
    · exact ⟨fun hreached _ => hreached, fun hreached => hreached hsame⟩
    · exact fun _ => (and_iff_right hsame).symm
  · rw [if_pos (hdiffers.mpr hsame)]
    apply (judged_fails (fails_fail e std)).congr
    · exact ⟨fun _ h => absurd h hsame, fun _ => trivial⟩
    · exact fun _ => ⟨False.elim, fun hboth => hsame hboth.1⟩

/-- A delimiter is compared with the byte that is there. -/
theorem soh_differs (hptr : ptr < buf.length) : Fix.soh ≠ buf[ptr] ↔ ¬buf[ptr]? = some Fix.soh := by
  rw [List.getElem?_eq_getElem hptr, Option.some.injEq]
  exact not_congr eq_comm

/-- What the check compares from the end of a buffer. -/
structure Closed (buf : List UInt8) : Prop where
  tag : slice buf (buf.length - 7) 2 = checksumPrefix
  delim : buf[buf.length - 1]? = some Fix.soh
  decimal : ∀ digit ∈ slice buf (buf.length - 4) 3, isdigit digit = true
  sum : numeral (slice buf (buf.length - 4) 3) = ((buf.take (buf.length - 7)).map UInt8.toNat).sum % 256

/-- The characters in front of the last one. -/
theorem slice_three (h : 7 ≤ buf.length) :
    slice buf (buf.length - 4) 3 = [buf[buf.length - 4], buf[buf.length - 3], buf[buf.length - 2]] := by
  have hfour : buf.length - 4 + 1 = buf.length - 3 := by omega
  have hthree : buf.length - 3 + 1 = buf.length - 2 := by omega
  rw [slice, List.drop_eq_getElem_cons (by omega), List.take_succ_cons]
  simp only [hfour]
  rw [List.drop_eq_getElem_cons (by omega), List.take_succ_cons]
  simp only [hthree]
  rw [List.drop_eq_getElem_cons (by omega), List.take_succ_cons, List.take_zero]

/-- The sum in the message is the number that its three characters write, if they are digits. -/
theorem getsum_ends (h : 7 ≤ buf.length) :
    ((∀ digit ∈ slice buf (buf.length - 4) 3, isdigit digit = true) ∧
      Returns (getsum buf) std (numeral (slice buf (buf.length - 4) 3)) std) ∨
    ((¬∀ digit ∈ slice buf (buf.length - 4) 3, isdigit digit = true) ∧
      Fails (getsum buf) std (.nondigit (slice buf (buf.length - 4) 3)) std) := by
  have hread {β : Type} {x : UInt8 → UInt8 → UInt8 → FixCheck β} {result : Except FixCheckError β}
      (hx : x buf[buf.length - 2] buf[buf.length - 3] buf[buf.length - 4] std = some (result, std)) :
      (do
        let cu ← char buf (buf.length - 2)
        let ct ← char buf (buf.length - 3)
        let ch ← char buf (buf.length - 4)
        x cu ct ch : FixCheck β) std = some (result, std) := by
    cases result with
    | ok value =>
      exact (char_returns (by omega)).bind ((char_returns (by omega)).bind ((char_returns (by omega)).bind hx))
    | error e =>
      exact (char_returns (by omega)).bind_fails
        ((char_returns (by omega)).bind_fails ((char_returns (by omega)).bind_fails hx))
  have hdigits : (∀ digit ∈ slice buf (buf.length - 4) 3, isdigit digit = true) ↔
      isdigit buf[buf.length - 4] = true ∧ isdigit buf[buf.length - 3] = true ∧ isdigit buf[buf.length - 2] = true := by
    simp [slice_three h]
  by_cases hall : ∀ digit ∈ slice buf (buf.length - 4) 3, isdigit digit = true
  · apply Or.inl
    apply And.intro hall
    apply hread
    have hsplit := hdigits.mp hall
    rw [hsplit.1, hsplit.2.1, hsplit.2.2, slice_three h]
    have hvalue : numeral [buf[buf.length - 4], buf[buf.length - 3], buf[buf.length - 2]] =
        (buf[buf.length - 2].toNat - 48) + (buf[buf.length - 3].toNat - 48) * 10 +
          (buf[buf.length - 4].toNat - 48) * 100 := by
      simp only [numeral, List.foldl_cons, List.foldl_nil]
      ring
    rw [hvalue]
    exact returns_pure _ std
  · apply Or.inr
    apply And.intro hall
    apply hread
    rw [hdigits] at hall
    have hbad : (!isdigit buf[buf.length - 2] || !isdigit buf[buf.length - 3] || !isdigit buf[buf.length - 4]) = true := by
      grind
    rw [if_pos hbad]
    exact fails_fail _ std

/-- The end of the check stays in the buffer, and compares all of its end. -/
theorem tail_judged (h : 7 ≤ buf.length) : Judged (tail buf) std True (Closed buf) std := by
  have hsum : Judged (do
      let sum1 ← getsum buf
      let sum2 := checksum (buf.take (buf.length - Fix.tailSize))
      if sum1 ≠ sum2 then fail (.checksum sum1 sum2) else pure ()) std True
      ((∀ digit ∈ slice buf (buf.length - 4) 3, isdigit digit = true) ∧
        numeral (slice buf (buf.length - 4) 3) = checksum (buf.take (buf.length - Fix.tailSize))) std := by
    cases @getsum_ends buf std h with
    | inl hgood =>
      apply ((Judged.guard (Iff.rfl) fun _ => judged_returns (returns_pure () std)).after hgood.2).congr
      · exact ⟨fun _ => trivial, fun _ _ => trivial⟩
      · intro _
        rw [and_true, and_iff_right hgood.1]
    | inr hbad =>
      apply (judged_fails hbad.2.bind).congr Iff.rfl
      exact fun _ => ⟨False.elim, fun hboth => hbad.1 hboth.1⟩
  apply (Judged.load fun _ => Judged.guard Iff.rfl fun _ =>
    Judged.char fun hptr => Judged.guard (soh_differs hptr) fun _ => hsum).congr
  · have hload : buf.length - Fix.tailSize + checksumPrefix.length ≤ buf.length := by
      simp [Fix.tailSize, checksumPrefix]
      omega
    have hlast : buf.length - 1 < buf.length := by omega
    simp [hload, hlast]
  · intro _
    rw [checksum_eq]
    constructor
    · rintro ⟨htag, hdelim, hdecimal, hvalue⟩
      exact ⟨htag, hdelim, hdecimal, hvalue⟩
    · rintro ⟨htag, hdelim, hdecimal, hvalue⟩
      exact ⟨htag, hdelim, hdecimal, hvalue⟩

/-- What the check compares in front of the body length. -/
structure Opened (buf : List UInt8) : Prop where
  tag : slice buf 0 2 = beginstringPrefix
  delim : buf[9]? = some Fix.soh
  length : slice buf 10 2 = bodylengthPrefix

/-- The buffer has every byte that is examined before a comparison fails. -/
def Reached (buf : List UInt8) : Prop :=
  2 ≤ buf.length ∧ (slice buf 0 2 = beginstringPrefix →
    10 ≤ buf.length ∧ (buf[9]? = some Fix.soh →
      12 ≤ buf.length ∧ (slice buf 10 2 = bodylengthPrefix → Fix.soh ∈ buf.drop 12)))

/-- What is between the tag of the body length and the next delimiter. -/
def lengthText (buf : List UInt8) : List UInt8 := (buf.drop 12).takeWhile fun ch => ch ≠ Fix.soh

/-- What the check does not look at: the separator of the checksum field, and whether the body length is a
number and that of the body. -/
structure Exact (buf : List UInt8) : Prop where
  separator : buf[buf.length - 5]? = some 61
  digits : lengthText buf ≠ []
  decimal : ∀ digit ∈ lengthText buf, isdigit digit = true
  length : 12 + (lengthText buf).length + 1 + numeral (lengthText buf) + 7 = buf.length

/-- The fields that a check finds. -/
def found (buf : List UInt8) : FixStd where
  fixver := slice buf 2 fixverlen ++ [0]
  body := 12 + (lengthText buf).length + 1
  size := u64 ((buf.length : ℤ) - Fix.tailSize - (12 + (lengthText buf).length + 1 : ℕ))

/-- Up to the first delimiter a list has none. -/
theorem split_soh (h : Fix.soh ∈ rest) :
    ∃ last, rest = (rest.takeWhile fun ch => ch ≠ Fix.soh) ++ Fix.soh :: last ∧
      Fix.soh ∉ rest.takeWhile fun ch => ch ≠ Fix.soh := by
  induction rest with
  | nil => exact absurd h List.not_mem_nil
  | cons ch rest ih =>
    by_cases hch : ch = Fix.soh
    · apply Exists.intro rest
      simp [hch]
    · obtain ⟨last, hrest, hnot⟩ := ih (List.mem_of_ne_of_mem (Ne.symm hch) h)
      apply Exists.intro last
      rw [List.takeWhile_cons_of_pos (by simp [hch])]
      apply And.intro
      · rw [List.cons_append, ← hrest]
      · exact List.not_mem_cons_of_ne_of_not_mem (Ne.symm hch) hnot

/-- The body begins behind the text of its length. -/
theorem behind_drop (h : Fix.soh ∈ buf.drop 12) :
    Returns (behind 12 (buf.drop 12)) std (12 + (lengthText buf).length + 1) std := by
  obtain ⟨last, hrest, hnot⟩ := split_soh h
  have hbehind : Returns (behind 12 (lengthText buf ++ Fix.soh :: last)) std
      (12 + (lengthText buf).length + 1) std := behind_returns hnot
  rwa [lengthText, ← hrest] at hbehind

theorem length_of_soh (h : Fix.soh ∈ buf.drop 12) : 12 < buf.length := by
  have hpos := List.length_pos_of_mem h
  rw [List.length_drop] at hpos
  omega

/-- The check is undefined where it leaves the buffer, and returns where all that it compares is right. -/
theorem checkfix_judged (buf : List UInt8) (std : FixStd) :
    Judged (checkfix buf) std (Reached buf) (Opened buf ∧ Closed buf) (found buf) := by
  have hlength (named : FixStd) (hnamed : named.fixver = slice buf 2 fixverlen ++ [0]) : Judged (do
      let body ← behind 12 (buf.drop 12)
      modify fun std => { std with body, size := u64 ((buf.length : ℤ) - Fix.tailSize - body) }
      tail buf) named (Fix.soh ∈ buf.drop 12) (Closed buf) (found buf) := by
    by_cases hmem : Fix.soh ∈ buf.drop 12
    · have hlong := length_of_soh hmem
      have htail := @tail_judged buf (found buf) (by omega)
      have hmodify : Returns (modify fun std => { std with body := 12 + (lengthText buf).length + 1
                                                           size := (found buf).size } : FixCheck Unit)
          named () (found buf) := by
        rw [found, ← hnamed]
        exact returns_modify _ named
      apply ((htail.after hmodify).after (behind_drop hmem)).congr
      · exact (iff_true_intro hmem).symm
      · exact fun _ => Iff.rfl
    · exact Or.inl ⟨hmem, (behind_undefined hmem).bind⟩
  apply (Judged.load fun _ => Judged.guard Iff.rfl fun _ =>
    Judged.load fun _ => (Judged.char fun hptr => Judged.guard (soh_differs hptr) fun _ =>
      Judged.load fun _ => Judged.guard Iff.rfl fun _ => hlength _ rfl).after (returns_modify _ std)).congr
  · have hten : (2 + fixverlen ≤ buf.length ∧ 9 < buf.length ∧ (buf[9]? = some Fix.soh →
        10 + bodylengthPrefix.length ≤ buf.length ∧
          (slice buf 10 bodylengthPrefix.length = bodylengthPrefix → Fix.soh ∈ buf.drop 12))) ↔
        10 ≤ buf.length ∧ (buf[9]? = some Fix.soh →
          12 ≤ buf.length ∧ (slice buf 10 2 = bodylengthPrefix → Fix.soh ∈ buf.drop 12)) := by
      rw [← and_assoc]
      apply and_congr_left
      intro _
      rw [fixverlen]
      omega
    exact and_congr Iff.rfl (imp_congr Iff.rfl hten)
  · intro _
    constructor
    · rintro ⟨htag, hdelim, hnext, hclosed⟩
      exact ⟨⟨htag, hdelim, hnext⟩, hclosed⟩
    · rintro ⟨⟨htag, hdelim, hnext⟩, hclosed⟩
      exact ⟨htag, hdelim, hnext, hclosed⟩

theorem Judged.undefined_iff (h : Judged x std reached passed last) : Undefined x std ↔ ¬reached := by
  cases h with
  | inl hundefined => exact iff_of_true hundefined.2 hundefined.1
  | inr h =>
    cases h with
    | inl hfails =>
      obtain ⟨hreached, -, e, last, hlast⟩ := hfails
      exact iff_of_false (fun hx => Option.some_ne_none _ (hlast.symm.trans hx)) (not_not.mpr hreached)
    | inr hreturns => exact iff_of_false (fun hx => Option.some_ne_none _ (hreturns.2.2.symm.trans hx)) (not_not.mpr hreturns.1)

theorem Judged.returns_iff (h : Judged x std reached passed last) (other : FixStd) :
    Returns x std () other ↔ (reached ∧ passed) ∧ other = last := by
  cases h with
  | inl hundefined =>
    apply iff_of_false
    · exact fun hx => Option.some_ne_none _ (hx.symm.trans hundefined.2)
    · exact fun hall => hundefined.1 hall.1.1
  | inr h =>
    cases h with
    | inl hfails =>
      obtain ⟨-, hpassed, e, reason, hlast⟩ := hfails
      apply iff_of_false
      · intro hx
        have hsame := Option.some.inj (hx.symm.trans hlast)
        exact nomatch congrArg Prod.fst hsame
      · exact fun hall => hpassed hall.1.2
    | inr hreturns =>
      obtain ⟨hreached, hpassed, hlast⟩ := hreturns
      constructor
      · intro hx
        have hsame := Option.some.inj (hx.symm.trans hlast)
        exact ⟨⟨hreached, hpassed⟩, congrArg Prod.snd hsame⟩
      · intro hall
        rw [hall.2]
        exact hlast

/-- A slice that is known to be behind a front. -/
theorem slice_of_append {front middle back : List UInt8} (hbuf : buf = front ++ (middle ++ back))
    (hptr : ptr = front.length) (hsize : size = middle.length) : slice buf ptr size = middle := by
  rw [slice, hbuf, hptr, List.drop_left, hsize, List.take_left]

theorem get_of_append {front back : List UInt8} {ch : UInt8} (hbuf : buf = front ++ ch :: back)
    (hptr : ptr = front.length) : buf[ptr]? = some ch := by
  rw [hbuf, hptr, List.getElem?_append_right (Nat.le_refl _), Nat.sub_self, List.getElem?_cons_zero]

/-- A slice and what is behind it. -/
theorem slice_drop (buf : List UInt8) (ptr size : ℕ) : slice buf ptr size ++ buf.drop (ptr + size) = buf.drop ptr := by
  rw [slice, ← List.drop_drop, List.take_append_drop]

end FixCheck

namespace FixText

open FixCheck

variable {text : FixText}

theorem head_length (h : text.Sound) : text.head.length = 12 + text.digits.length + 1 := by
  simp [head, h.version]
  omega

theorem bytes_length (h : text.Sound) :
    text.bytes.length = 12 + text.digits.length + 1 + text.body.length + 7 := by
  simp [bytes, summed, head_length h, h.sum]
  omega

theorem summed_length (h : text.Sound) : text.summed.length = text.bytes.length - 7 := by
  simp [bytes, h.sum]

/-- Behind the tags in front is the length with its delimiter. -/
theorem bytes_drop (h : text.Sound) :
    text.bytes.drop 12 = text.digits ++ Fix.soh :: (text.body ++ ([49, 48, 61] ++ text.sum ++ [1])) := by
  have hfront : ([56, 61] ++ text.version ++ [1] ++ [57, 61]).length = 12 := by simp [h.version]
  have hbytes : text.bytes = ([56, 61] ++ text.version ++ [1] ++ [57, 61]) ++
      (text.digits ++ Fix.soh :: (text.body ++ ([49, 48, 61] ++ text.sum ++ [1]))) := by
    simp [bytes, summed, head, Fix.soh]
  rw [hbytes, ← hfront, List.drop_left]

/-- The text of the length ends at its delimiter. -/
theorem lengthText_bytes (h : text.Sound) : lengthText text.bytes = text.digits := by
  have hpos : ∀ digit ∈ text.digits, decide (digit ≠ Fix.soh) = true := by
    intro digit hdigit
    have hdecimal := h.decimal digit hdigit
    rw [decide_eq_true_eq]
    rintro rfl
    simp [isdigit, Fix.soh] at hdecimal
  rw [lengthText, bytes_drop h, List.takeWhile_append_of_pos hpos, List.takeWhile_cons_of_neg (by simp), List.append_nil]

/-- Every comparison of the check holds of a sound message. -/
theorem bytes_opened (h : text.Sound) : Opened text.bytes := by
  constructor
  · apply @slice_of_append _ _ _ [] [56, 61] (text.bytes.drop 2) _ rfl rfl
    simp [bytes, summed, head]
  · apply @get_of_append _ _ ([56, 61] ++ text.version)
    · simp only [bytes, summed, head, List.append_assoc]
      rfl
    · simp [h.version]
  · apply @slice_of_append _ _ _ ([56, 61] ++ text.version ++ [1]) [57, 61]
    · simp only [bytes, summed, head, List.append_assoc]
      rfl
    · simp [h.version]
    · rfl

/-- The end of a sound message compares as well. -/
theorem bytes_closed (h : text.Sound) : Closed text.bytes := by
  have hlength := bytes_length h
  have hsummed := summed_length h
  have hsum : slice text.bytes (text.bytes.length - 4) 3 = text.sum := by
    apply @slice_of_append _ _ _ (text.summed ++ [49, 48, 61]) text.sum [1]
    · simp only [bytes, List.append_assoc]
    · rw [List.length_append, hsummed, List.length_cons, List.length_cons, List.length_singleton]
      omega
    · exact h.sum.symm
  constructor
  · apply @slice_of_append _ _ _ text.summed [49, 48] ([61] ++ text.sum ++ [1])
    · simp [bytes]
    · exact hsummed.symm
    · rfl
  · apply @get_of_append _ _ (text.summed ++ ([49, 48, 61] ++ text.sum)) []
    · simp [bytes, Fix.soh]
    · simp [hsummed, h.sum]
      omega
  · rw [hsum]
    exact h.sumDecimal
  · rw [hsum, h.checksum, ← hsummed, bytes, List.take_left]

theorem bytes_exact (h : text.Sound) : Exact text.bytes := by
  have hlength := bytes_length h
  have hsummed := summed_length h
  constructor
  · apply @get_of_append _ _ (text.summed ++ [49, 48]) (text.sum ++ [1])
    · simp [bytes]
    · rw [List.length_append, hsummed, List.length_cons, List.length_singleton]
      omega
  · rw [lengthText_bytes h]
    exact h.digits
  · rw [lengthText_bytes h]
    exact h.decimal
  · rw [lengthText_bytes h, h.length]
    exact hlength.symm

/-- In a sound message every comparison finds its bytes. -/
theorem bytes_reached (h : text.Sound) : Reached text.bytes := by
  have hlength := bytes_length h
  have hmem : Fix.soh ∈ text.bytes.drop 12 := by
    rw [bytes_drop h]
    exact List.mem_append_right _ List.mem_cons_self
  exact ⟨by omega, fun _ => ⟨by omega, fun _ => ⟨by omega, fun _ => hmem⟩⟩⟩

end FixText

namespace FixCheck

variable {buf : List UInt8} {std : FixStd} {ptr size : ℕ} {ch : UInt8}

theorem slice_length (h : ptr + size ≤ buf.length) : (slice buf ptr size).length = size := by
  rw [slice, List.length_take, List.length_drop]
  omega

theorem drop_of_get (h : buf[ptr]? = some ch) : buf.drop ptr = ch :: buf.drop (ptr + 1) := by
  obtain ⟨hptr, hch⟩ := List.getElem?_eq_some_iff.mp h
  rw [List.drop_eq_getElem_cons hptr, hch]

/-- A slice that is known, and what is behind it. -/
theorem drop_of_slice {middle : List UInt8} (next : ℕ) (h : slice buf ptr size = middle) (hnext : ptr + size = next) :
    buf.drop ptr = middle ++ buf.drop next := by
  rw [← slice_drop buf ptr size, h, hnext]

/-- The parts of a buffer. -/
def parts (buf : List UInt8) : FixText where
  version := slice buf 2 7
  digits := lengthText buf
  body := slice buf (12 + (lengthText buf).length + 1) (numeral (lengthText buf))
  sum := slice buf (buf.length - 4) 3

/-- The end of a buffer whose comparisons hold, with the separator. -/
theorem drop_closed (hlong : 7 ≤ buf.length) (hclosed : Closed buf) (hseparator : buf[buf.length - 5]? = some 61) :
    buf.drop (buf.length - 7) = [49, 48, 61] ++ slice buf (buf.length - 4) 3 ++ [1] := by
  have htag := drop_of_slice (buf.length - 5) hclosed.tag (by omega)
  have hmiddle := drop_of_get hseparator
  have hsum := @drop_of_slice buf (buf.length - 4) 3 _ (buf.length - 1) rfl (by omega)
  have hlast := drop_of_get hclosed.delim
  have hfour : buf.length - 5 + 1 = buf.length - 4 := by omega
  have hend : buf.length - 1 + 1 = buf.length := by omega
  rw [htag, hmiddle, hfour, hsum, hlast, hend, List.drop_length]
  simp [checksumPrefix, Fix.soh]

/-- A buffer whose comparisons hold, and what the check leaves out as well, is a message of these parts. -/
theorem parts_bytes (hopened : Opened buf) (hclosed : Closed buf) (hmem : Fix.soh ∈ buf.drop 12) (hexact : Exact buf) :
    (parts buf).bytes = buf := by
  have hfit := hexact.length
  have hdrop : buf.drop 12 = lengthText buf ++ Fix.soh :: buf.drop (12 + (lengthText buf).length + 1) := by
    obtain ⟨last, hrest, -⟩ := split_soh hmem
    have hlast : buf.drop (12 + (lengthText buf).length + 1) = last := by
      rw [Nat.add_assoc 12, ← List.drop_drop, hrest, ← List.drop_drop, lengthText, List.drop_left, List.drop_one, List.tail_cons]
    rw [hlast]
    exact hrest
  have htag := drop_of_slice 2 hopened.tag rfl
  have hversion := @drop_of_slice buf 2 7 _ 9 rfl rfl
  have hdelim := drop_of_get hopened.delim
  have hnext := drop_of_slice 12 hopened.length rfl
  have hbody := @drop_of_slice buf (12 + (lengthText buf).length + 1) (numeral (lengthText buf)) _ (buf.length - 7) rfl
    (by omega)
  have hend := drop_closed (by omega) hclosed hexact.separator
  rw [List.drop_zero] at htag
  calc (parts buf).bytes
    _ = [56, 61] ++ (slice buf 2 7 ++ (1 :: ([57, 61] ++ (lengthText buf ++ 1 ::
        (slice buf (12 + (lengthText buf).length + 1) (numeral (lengthText buf)) ++
          ([49, 48, 61] ++ slice buf (buf.length - 4) 3 ++ [1])))))) := by
      simp [FixText.bytes, FixText.summed, FixText.head, parts]
    _ = buf := by
      rw [← hend, ← hbody]
      change _ ++ (_ ++ (1 :: ([57, 61] ++ (lengthText buf ++ Fix.soh :: _)))) = _
      rw [← hdrop]
      change _ ++ (_ ++ (1 :: (bodylengthPrefix ++ _))) = _
      rw [← hnext]
      change _ ++ (_ ++ (Fix.soh :: buf.drop (9 + 1))) = _
      rw [← hdelim, ← hversion]
      exact htag.symm

theorem parts_sound (hopened : Opened buf) (hclosed : Closed buf) (hmem : Fix.soh ∈ buf.drop 12) (hexact : Exact buf) :
    (parts buf).Sound := by
  have hbytes := parts_bytes hopened hclosed hmem hexact
  have hfit := hexact.length
  have hsum : (parts buf).sum.length = 3 := slice_length (by omega)
  have hsummed : (parts buf).summed = buf.take (buf.length - 7) := by
    have htake : (parts buf).bytes.take (parts buf).summed.length = (parts buf).summed := List.take_left
    have hlength : (parts buf).summed.length = buf.length - 7 := by
      have hall := congrArg List.length hbytes
      rw [FixText.bytes, List.length_append, List.length_append, List.length_append, hsum] at hall
      simp at hall
      omega
    rw [hbytes, hlength] at htake
    exact htake.symm
  constructor
  · exact slice_length (by omega)
  · exact hexact.digits
  · exact hexact.decimal
  · have hbody : (parts buf).body.length = numeral (lengthText buf) := slice_length (by omega)
    exact hbody.symm
  · exact hsum
  · exact hclosed.decimal
  · rw [hsummed]
    exact hclosed.sum

/-- The check is as it is promised to be: it stays in the buffer, accepts the sound messages and no others,
and returns the body of one that it accepts. -/
structure Promised (buf : List UInt8) (std : FixStd) : Prop where
  inside : ¬Undefined (checkfix buf) std
  accepts : (∃ last, Returns (checkfix buf) std () last) ↔ ∃ text : FixText, text.Sound ∧ text.bytes = buf
  body : ∀ last (text : FixText), Returns (checkfix buf) std () last → text.Sound → text.bytes = buf →
    last = { fixver := text.version ++ [0], body := text.head.length, size := text.body.length }

/-- Every comparison that is made finds its bytes, and a buffer that passes all of them has a separator in its
checksum field and a length that is a number and that of the body. -/
def Honest (buf : List UInt8) : Prop := Reached buf ∧ (Opened buf → Closed buf → Exact buf)

/-- The fields that are found in a sound message. -/
theorem found_bytes {text : FixText} (h : text.Sound) (hsize : text.bytes.length < 2 ^ 64) :
    found text.bytes = { fixver := text.version ++ [0], body := text.head.length, size := text.body.length } := by
  have hlength := FixText.bytes_length h
  have hver : slice text.bytes 2 fixverlen = text.version := by
    apply @slice_of_append _ _ _ [56, 61] text.version
    · simp only [FixText.bytes, FixText.summed, FixText.head, List.append_assoc]
      rfl
    · rfl
    · exact h.version.symm
  have hbody : u64 ((text.bytes.length : ℤ) - Fix.tailSize - (12 + text.digits.length + 1 : ℕ)) = text.body.length := by
    rw [hlength, Fix.tailSize]
    unfold u64
    omega
  rw [found, hver, FixText.lengthText_bytes h, hbody, FixText.head_length h]

/-- The check keeps its promise on the honest buffers and on no others. -/
theorem checkfix_iff (buf : List UInt8) (std : FixStd) (hsize : buf.length < 2 ^ 64) :
    Promised buf std ↔ Honest buf := by
  have hjudged := checkfix_judged buf std
  constructor
  · intro h
    have hreached : Reached buf := not_not.mp (mt hjudged.undefined_iff.mpr h.inside)
    apply And.intro hreached
    intro hopened hclosed
    obtain ⟨text, htext, hbytes⟩ := h.accepts.mp ⟨_, (hjudged.returns_iff _).mpr ⟨⟨hreached, hopened, hclosed⟩, rfl⟩⟩
    rw [← hbytes]
    exact FixText.bytes_exact htext
  · rintro ⟨hreached, hexact⟩
    constructor
    · rw [hjudged.undefined_iff]
      exact not_not.mpr hreached
    · constructor
      · rintro ⟨last, hlast⟩
        obtain ⟨⟨-, hopened, hclosed⟩, -⟩ := (hjudged.returns_iff last).mp hlast
        have hmem := ((((hreached.2 hopened.tag).2 hopened.delim).2) hopened.length)
        exact ⟨parts buf, parts_sound hopened hclosed hmem (hexact hopened hclosed),
          parts_bytes hopened hclosed hmem (hexact hopened hclosed)⟩
      · rintro ⟨text, htext, rfl⟩
        exact ⟨_, (hjudged.returns_iff _).mpr ⟨⟨hreached, FixText.bytes_opened htext, FixText.bytes_closed htext⟩, rfl⟩⟩
    · rintro last text hlast htext rfl
      rw [((hjudged.returns_iff last).mp hlast).2]
      exact found_bytes htext hsize

/-- The message that the comments of the check go through, with the separator of its checksum field given. -/
def logon (separator : UInt8) : List UInt8 :=
  [56, 61, 70, 73, 88, 46, 52, 46, 50, 1, 57, 61, 53, 1, 51, 53, 61, 68, 1, 49, 48, separator, 49, 56, 49, 1]

theorem logon_opened (separator : UInt8) : Opened (logon separator) := ⟨rfl, rfl, rfl⟩

theorem logon_closed (separator : UInt8) : Closed (logon separator) := by
  constructor
  · rfl
  · rfl
  · change ∀ digit ∈ [49, 56, 49], isdigit digit = true
    decide +kernel
  · have hsummed : (logon separator).take 19 =
        [56, 61, 70, 73, 88, 46, 52, 46, 50, 1, 57, 61, 53, 1, 51, 53, 61, 68, 1] := rfl
    change numeral [49, 56, 49] = (((logon separator).take 19).map UInt8.toNat).sum % 256
    rw [hsummed]
    decide

theorem logon_reached (separator : UInt8) : Reached (logon separator) := by
  have hlength : (logon separator).length = 26 := rfl
  have hmem : Fix.soh ∈ (logon separator).drop 12 := by simp [logon, Fix.soh]
  exact ⟨by omega, fun _ => ⟨by omega, fun _ => ⟨by omega, fun _ => hmem⟩⟩⟩

/-- The message as it should be is checked as promised. -/
theorem checkfix_iff_logon : Promised (logon 61) ⟨[], 0, 0⟩ := by
  have hlength : (logon 61).length = 26 := rfl
  apply (checkfix_iff (logon 61) ⟨[], 0, 0⟩ (by omega)).mpr
  apply And.intro (logon_reached 61)
  intro _ _
  exact ⟨rfl, by decide +kernel, by decide +kernel, by decide +kernel⟩

/-- A message whose checksum field has an `X` for its separator is accepted. -/
theorem checkfix_accepts_separator : ¬Promised (logon 88) ⟨[], 0, 0⟩ := by
  intro h
  have hreturns := ((checkfix_judged (logon 88) ⟨[], 0, 0⟩).returns_iff _).mpr
    ⟨⟨logon_reached 88, logon_opened 88, logon_closed 88⟩, rfl⟩
  obtain ⟨text, htext, hbytes⟩ := h.accepts.mp ⟨_, hreturns⟩
  have hseparator := (FixText.bytes_exact htext).separator
  rw [hbytes] at hseparator
  exact absurd hseparator (by decide)

end FixCheck

end Aug.Net
