import Aug.Util.TmSpec

/-!
# What a time specification is read as

`aug_strtmspec` on strings with numbers of any length, where the arithmetic of `int` is taken modulo `2 ^ 32`.
A component is what is written before its letter, unless a number has become a negative `int`: only upper
limits are tested.
-/

namespace Aug.Util

open Aug.Lib

section Wrapping

/-- The loop of `aug_strtmspec`, with numbers that wrap. -/
def scantmspecmod (tms : TmSpec) (x : ℤ) : List UInt8 → Option TmSpec
  | [] => some tms
  | ch :: s =>
    if 48 ≤ ch ∧ ch ≤ 57 then scantmspecmod tms (i32 (i32 (x * 10) + (ch.toNat - 48))) s
    else if ch = 72 then scantmspecmod { tms with hour := x } 0 s
    else if ch = 77 then scantmspecmod { tms with min := x } 0 s
    else if ch = 100 then scantmspecmod { tms with mday := x } 0 s
    else if ch = 109 then scantmspecmod { tms with mon := x } 0 s
    else if ch = 119 then scantmspecmod { tms with wday := x } 0 s
    else none

/-- The conversion of a component that counts from one, which wraps at the least `int`. -/
def zerobasedmod (x : ℤ) : Option ℤ := if x = -1 then some x else if x = 0 then none else some (i32 (x - 1))

/-- What `aug_strtmspec` does with the components it has read. -/
def checktmspecmod (tms : TmSpec) : Option TmSpec := do
  let mday ← zerobasedmod tms.mday
  let mon ← zerobasedmod tms.mon
  let wday := if 7 = tms.wday then 0 else tms.wday
  if tms.min < 60 ∧ tms.hour < 24 ∧ mday < 31 ∧ mon < 12 ∧ wday < 7 then
    return { tms with mday, mon, wday }
  else none

/-- No component has been read. -/
def unset : TmSpec := { min := -1, hour := -1, mday := -1, mon := -1, wday := -1 }

/-- `aug_strtmspec`, with arithmetic modulo `2 ^ 32`. -/
def strtmspecmod (s : List UInt8) : Option TmSpec := (scantmspecmod unset 0 s).bind checktmspecmod

end Wrapping

section Components

/-- The components of a specification. -/
inductive TmPart
  | min
  | hour
  | mday
  | mon
  | wday
deriving DecidableEq, Repr

namespace TmPart

/-- The component with a letter. -/
def ofLetter (ch : UInt8) : Option TmPart :=
  if ch = 72 then some hour
  else if ch = 77 then some min
  else if ch = 100 then some mday
  else if ch = 109 then some mon
  else if ch = 119 then some wday
  else none

/-- The component in a specification. -/
def get (tms : TmSpec) : TmPart → ℤ
  | min => tms.min
  | hour => tms.hour
  | mday => tms.mday
  | mon => tms.mon
  | wday => tms.wday

/-- The number of its values. -/
def limit : TmPart → ℤ
  | min => 60
  | hour => 24
  | mday => 31
  | mon => 12
  | wday => 7

/-- The value of a number that is written: days and months count from one, and Sunday may be seven. -/
def value (n : ℕ) : TmPart → ℤ
  | min | hour => i32 n
  | mday | mon => i32 ((n : ℤ) - 1)
  | wday => if 7 = i32 n then 0 else i32 n

/-- A number that is refused: one that is too great, or a day or a month of zero. -/
def Refuses (n : ℕ) : TmPart → Prop
  | min => 60 ≤ n ∧ n < 2 ^ 31
  | hour => 24 ≤ n ∧ n < 2 ^ 31
  | mday => n = 0 ∨ 32 ≤ n ∧ n ≤ 2 ^ 31
  | mon => n = 0 ∨ 13 ≤ n ∧ n ≤ 2 ^ 31
  | wday => 8 ≤ n ∧ n < 2 ^ 31

end TmPart

/-- The components that a string writes, each with the decimal number before its letter, where every other
character is a digit and the number before the first one is given. -/
def decimals (x : ℕ) : List UInt8 → Option (List (TmPart × ℕ))
  | [] => some []
  | ch :: s =>
    if 48 ≤ ch ∧ ch ≤ 57 then decimals (x * 10 + (ch.toNat - 48)) s
    else do
      let part ← TmPart.ofLetter ch
      let parts ← decimals 0 s
      pure ((part, x) :: parts)

/-- The last number of a component. -/
def lastOf (part : TmPart) : List (TmPart × ℕ) → Option ℕ
  | [] => none
  | (other, n) :: parts => (lastOf part parts).or (if other = part then some n else none)

/-- The number that a string writes for a component. -/
def written (s : List UInt8) (part : TmPart) : Option ℕ := (decimals 0 s).bind (lastOf part)

/-- A component is unset where the string does not mention it, and else what is written, in its range. -/
def Reads (tms : TmSpec) (part : TmPart) : Option ℕ → Prop
  | none => part.get tms = -1
  | some n => (0 ≤ part.get tms ∧ part.get tms < part.limit) ∧ part.get tms = part.value n

/-- If the string is accepted, its components are what it writes. -/
def Honest (s : List UInt8) : Prop :=
  ∀ tms, strtmspecmod s = some tms → ∀ part, Reads tms part (written s part)

/-- The string has a character without a meaning, or a number that is refused. -/
def Refused (s : List UInt8) : Prop :=
  decimals 0 s = none ∨ ∃ part n, written s part = some n ∧ part.Refuses (n % 2 ^ 32)

end Components

section Scan

variable {s : List UInt8} {tms out : TmSpec}

/-- Put a number into a component. -/
def TmPart.set (x : ℤ) (tms : TmSpec) : TmPart → TmSpec
  | min => { tms with min := x }
  | hour => { tms with hour := x }
  | mday => { tms with mday := x }
  | mon => { tms with mon := x }
  | wday => { tms with wday := x }

/-- Put in the numbers in order. -/
def assign (tms : TmSpec) (parts : List (TmPart × ℕ)) : TmSpec :=
  parts.foldl (fun tms (part, n) => part.set (i32 n) tms) tms

theorem i32_mul_i32 (x y : ℤ) : i32 (i32 x * y) = i32 (x * y) := Int.bmod_mul_bmod

theorem i32_add_i32 (x y : ℤ) : i32 (i32 x + y) = i32 (x + y) := Int.bmod_add_bmod

/-- A number that wraps at each digit wraps as a whole. -/
theorem i32_digit (x : ℕ) (d : ℕ) : i32 (i32 (i32 x * 10) + d) = i32 ((x * 10 + d : ℕ) : ℤ) := by
  have hcast : ((x * 10 + d : ℕ) : ℤ) = x * 10 + d := by omega
  rw [i32_add_i32, hcast, ← i32_add_i32 (_ * _), i32_mul_i32, i32_add_i32]

/-- The loop puts in the numbers that are written. -/
theorem scantmspecmod_eq (tms : TmSpec) (x : ℕ) (s : List UInt8) :
    scantmspecmod tms (i32 x) s = (decimals x s).map (assign tms) := by
  induction s generalizing tms x with
  | nil => rfl
  | cons ch s ih =>
    have hzero : i32 ((0 : ℕ) : ℤ) = 0 := i32_of_range (by omega) (by omega)
    rw [scantmspecmod, decimals]
    by_cases hdigit : 48 ≤ ch ∧ ch ≤ 57
    · have hlow : 48 ≤ ch.toNat := UInt8.le_iff_toNat_le.mp hdigit.1
      have hcast : ((ch.toNat : ℤ) - 48) = ((ch.toNat - 48 : ℕ) : ℤ) := by omega
      rw [if_pos hdigit, if_pos hdigit, hcast, i32_digit, ih]
    · rw [if_neg hdigit, if_neg hdigit, ← hzero]
      simp only [ih]
      have hnext : ∀ part : TmPart, (decimals 0 s).map (assign (part.set (i32 x) tms)) =
          ((decimals 0 s).map fun parts => (part, x) :: parts).map (assign tms) := by
        intro part
        rw [Option.map_map]
        rfl
      generalize i32 x = v at hnext ⊢
      unfold TmPart.ofLetter
      split_ifs
      · exact (hnext .hour).trans (by cases decimals 0 s <;> rfl)
      · exact (hnext .min).trans (by cases decimals 0 s <;> rfl)
      · exact (hnext .mday).trans (by cases decimals 0 s <;> rfl)
      · exact (hnext .mon).trans (by cases decimals 0 s <;> rfl)
      · exact (hnext .wday).trans (by cases decimals 0 s <;> rfl)
      · rfl

/-- A component is read where it was put. -/
theorem TmPart.get_set (part other : TmPart) (x : ℤ) (tms : TmSpec) :
    part.get (other.set x tms) = if other = part then x else part.get tms := by
  cases other <;> cases part <;> rfl

theorem assign_cons (tms : TmSpec) (part : TmPart) (n : ℕ) (parts : List (TmPart × ℕ)) :
    assign tms ((part, n) :: parts) = assign (part.set (i32 n) tms) parts :=
  List.foldl_cons ..

/-- The last number of a component is the one that stays. -/
theorem get_assign (part : TmPart) (tms : TmSpec) (parts : List (TmPart × ℕ)) :
    part.get (assign tms parts) = ((lastOf part parts).map fun n : ℕ => i32 n).getD (part.get tms) := by
  induction parts generalizing tms with
  | nil => rfl
  | cons first parts ih =>
    obtain ⟨other, n⟩ := first
    rw [assign_cons, ih, lastOf, TmPart.get_set]
    cases lastOf part parts with
    | some m => rw [Option.some_or, Option.map_some, Option.getD_some, Option.getD_some]
    | none =>
      rw [Option.none_or, Option.map_none, Option.getD_none]
      by_cases hsame : other = part
      · rw [if_pos hsame, if_pos hsame, Option.map_some, Option.getD_some]
      · rw [if_neg hsame, if_neg hsame, Option.map_none, Option.getD_none]

/-- What becomes of a component that has been read. -/
def TmPart.convert (x : ℤ) : TmPart → ℤ
  | min | hour => x
  | mday | mon => if x = -1 then x else i32 (x - 1)
  | wday => if 7 = x then 0 else x

/-- It passes the tests. -/
def TmPart.Accepts (part : TmPart) (x : ℤ) : Prop :=
  (part = .mday ∨ part = .mon → x ≠ 0) ∧ part.convert x < part.limit

/-- A component that counts from one is converted unless it is zero. -/
theorem zerobasedmod_some {x y : ℤ} : zerobasedmod x = some y ↔ x ≠ 0 ∧ TmPart.mday.convert x = y := by
  unfold zerobasedmod
  by_cases hfree : x = -1
  · rw [if_pos hfree, Option.some.injEq, TmPart.convert, if_pos hfree]
    exact ⟨fun h => ⟨by omega, h⟩, And.right⟩
  · rw [if_neg hfree]
    by_cases hzero : x = 0
    · rw [if_pos hzero]
      exact iff_of_false nofun fun h => h.1 hzero
    · rw [if_neg hzero, Option.some.injEq, TmPart.convert, if_neg hfree]
      exact ⟨fun h => ⟨hzero, h⟩, And.right⟩

/-- The tests pass a specification if they pass all of its components, and convert each of them. -/
theorem checktmspecmod_some : checktmspecmod tms = some out ↔
    ∀ part : TmPart, part.Accepts (part.get tms) ∧ part.get out = part.convert (part.get tms) := by
  unfold checktmspecmod
  simp only [Option.bind_eq_bind, Option.bind_eq_some_iff, zerobasedmod_some]
  constructor
  · rintro ⟨mday, ⟨hmday, rfl⟩, mon, ⟨hmon, rfl⟩, hcheck⟩
    generalize hconverted : (if 7 = tms.wday then 0 else tms.wday) = wday at hcheck
    split_ifs at hcheck with hrange
    obtain ⟨hmin, hhour, hday, hmonth, hwday⟩ := hrange
    cases hcheck
    have hseven : TmPart.wday.convert tms.wday = wday := hconverted
    intro part
    cases part with
    | min => exact ⟨⟨nofun, hmin⟩, rfl⟩
    | hour => exact ⟨⟨nofun, hhour⟩, rfl⟩
    | mday => exact ⟨⟨fun _ => hmday, hday⟩, rfl⟩
    | mon => exact ⟨⟨fun _ => hmon, hmonth⟩, rfl⟩
    | wday => exact ⟨⟨nofun, lt_of_eq_of_lt hseven hwday⟩, hseven.symm⟩
  · intro h
    obtain ⟨⟨-, hmin⟩, hmineq⟩ := h .min
    obtain ⟨⟨-, hhour⟩, hhoureq⟩ := h .hour
    obtain ⟨⟨hmday, hday⟩, hmdayeq⟩ := h .mday
    obtain ⟨⟨hmon, hmonth⟩, hmoneq⟩ := h .mon
    obtain ⟨⟨-, hwday⟩, hwdayeq⟩ := h .wday
    refine ⟨_, ⟨hmday (.inl rfl), rfl⟩, _, ⟨hmon (.inr rfl), rfl⟩, ?_⟩
    refine (if_pos ⟨hmin, hhour, hday, hmonth, hwday⟩).trans ?_
    cases out
    exact congrArg some (TmSpec.mk.injEq .. ▸ ⟨hmineq.symm, hhoureq.symm, hmdayeq.symm, hmoneq.symm, hwdayeq.symm⟩)

end Scan

section Read

variable {s : List UInt8}

/-- An `int` that a number wraps to. -/
theorem i32_mod (n : ℕ) :
    i32 n = if n % 2 ^ 32 < 2 ^ 31 then ((n % 2 ^ 32 : ℕ) : ℤ) else ((n % 2 ^ 32 : ℕ) : ℤ) - 2 ^ 32 := by
  unfold i32
  rw [Int.bmod_def]
  push_cast
  split_ifs <;> omega

/-- One less than it, which wraps at the least `int`. -/
theorem i32_pred (n : ℕ) : i32 ((n : ℤ) - 1) = if n % 2 ^ 32 = 2 ^ 31 then 2 ^ 31 - 1 else i32 n - 1 := by
  rw [i32_mod]
  unfold i32
  rw [Int.bmod_def]
  push_cast
  split_ifs <;> omega

theorem i32_i32_pred (n : ℕ) : i32 (i32 n - 1) = i32 ((n : ℤ) - 1) := by
  rw [sub_eq_add_neg, i32_add_i32, ← sub_eq_add_neg]

/-- What becomes of a number that is written. -/
theorem convert_i32 (part : TmPart) (n : ℕ) :
    part.convert (i32 n) = if (part = .mday ∨ part = .mon) ∧ i32 n = -1 then -1 else part.value n := by
  have hpred := i32_i32_pred n
  unfold TmPart.convert TmPart.value
  generalize i32 n = v at hpred ⊢
  generalize i32 ((n : ℤ) - 1) = w at hpred ⊢
  cases part with
  | min => simp
  | hour => simp
  | mday =>
    dsimp only
    rw [hpred]
    by_cases hfree : v = -1
    · rw [if_pos hfree, if_pos ⟨.inl rfl, hfree⟩, hfree]
    · rw [if_neg hfree, if_neg (fun h => hfree h.2)]
  | mon =>
    dsimp only
    rw [hpred]
    by_cases hfree : v = -1
    · rw [if_pos hfree, if_pos ⟨.inr rfl, hfree⟩, hfree]
    · rw [if_neg hfree, if_neg (fun h => hfree h.2)]
  | wday => simp

/-- What has been read is accepted unless the number is refused. -/
theorem accepts_iff (part : TmPart) (n : ℕ) : part.Accepts (i32 n) ↔ ¬part.Refuses (n % 2 ^ 32) := by
  have hmod : n % 2 ^ 32 < 2 ^ 32 := Nat.mod_lt _ (by decide)
  have hvalue := i32_mod n
  have hpred := i32_pred n
  rw [TmPart.Accepts, convert_i32]
  unfold TmPart.value TmPart.limit TmPart.Refuses
  generalize i32 n = v at hvalue hpred ⊢
  generalize i32 ((n : ℤ) - 1) = w at hpred ⊢
  generalize n % 2 ^ 32 = m at hmod hvalue hpred ⊢
  cases part <;> simp <;> split_ifs at * <;> omega

/-- An accepted number is in range if and only if it has not become negative. -/
theorem convert_iff (part : TmPart) (n : ℕ) (h : part.Accepts (i32 n)) :
    ((0 ≤ part.convert (i32 n) ∧ part.convert (i32 n) < part.limit) ∧ part.convert (i32 n) = part.value n) ↔
      n % 2 ^ 32 < 2 ^ 31 := by
  have hmod : n % 2 ^ 32 < 2 ^ 32 := Nat.mod_lt _ (by decide)
  have hvalue := i32_mod n
  have hpred := i32_pred n
  rw [TmPart.Accepts, convert_i32] at h
  rw [convert_i32]
  unfold TmPart.value TmPart.limit at *
  generalize i32 n = v at hvalue hpred h ⊢
  generalize i32 ((n : ℤ) - 1) = w at hpred h ⊢
  generalize n % 2 ^ 32 = m at hmod hvalue hpred ⊢
  cases part <;> simp at h ⊢ <;> split_ifs at * <;> omega

/-- A component that is not mentioned is accepted as it is. -/
theorem accepts_unset (part : TmPart) : part.Accepts (-1) ∧ part.convert (-1) = -1 := by
  unfold TmPart.Accepts
  cases part <;> decide

/-- What the loop leaves of a component. -/
def readOf (n : Option ℕ) : ℤ := (n.map fun n : ℕ => i32 n).getD (-1)

theorem readOf_some (n : ℕ) : readOf (some n) = i32 n := by
  rw [readOf, Option.map_some, Option.getD_some]

variable {tms : TmSpec}

/-- A string is accepted if it has no other characters and all its components are accepted, and it gives what
becomes of them. -/
theorem strtmspecmod_eq_some : strtmspecmod s = some tms ↔ decimals 0 s ≠ none ∧
    ∀ part : TmPart, part.Accepts (readOf (written s part)) ∧ part.get tms = part.convert (readOf (written s part)) := by
  have hzero : i32 ((0 : ℕ) : ℤ) = 0 := i32_of_range (by omega) (by omega)
  rw [strtmspecmod, ← hzero, scantmspecmod_eq]
  unfold written
  cases hparts : decimals 0 s with
  | none => exact iff_of_false nofun fun h => h.1 rfl
  | some parts =>
    have hread : ∀ part : TmPart, part.get (assign unset parts) = readOf (lastOf part parts) := by
      intro part
      rw [get_assign, readOf]
      cases part <;> rfl
    rw [Option.map_some, Option.bind_some, checktmspecmod_some]
    simp only [hread]
    exact ⟨fun h => ⟨Option.some_ne_none parts, h⟩, And.right⟩

/-- A string is refused for its characters, or for a component that is not accepted. -/
theorem refused_iff : Refused s ↔
    decimals 0 s = none ∨ ∃ part : TmPart, ¬part.Accepts (readOf (written s part)) := by
  apply or_congr_right
  constructor
  · rintro ⟨part, n, hn, hrefuses⟩
    refine ⟨part, fun haccepts => ?_⟩
    rw [hn, readOf_some] at haccepts
    exact (accepts_iff part n).mp haccepts hrefuses
  · rintro ⟨part, hnot⟩
    cases hn : written s part with
    | none =>
      rw [hn] at hnot
      exact absurd (accepts_unset part).1 hnot
    | some n =>
      rw [hn, readOf_some] at hnot
      exact ⟨part, n, hn, not_not.mp fun hfine => hnot ((accepts_iff part n).mpr hfine)⟩

/-- What is accepted is what is written if and only if the string is refused, or no number that it writes for a
component becomes negative. -/
theorem honest_iff (s : List UInt8) :
    Honest s ↔ Refused s ∨ ∀ part n, written s part = some n → n % 2 ^ 32 < 2 ^ 31 := by
  rw [refused_iff]
  constructor
  · intro h
    by_cases hrefused : decimals 0 s = none ∨ ∃ part : TmPart, ¬part.Accepts (readOf (written s part))
    · exact .inl hrefused
    · obtain ⟨hparts, haccepts⟩ := not_or.mp hrefused
      have haccepts : ∀ part : TmPart, part.Accepts (readOf (written s part)) := by
        intro part
        by_contra hnot
        exact haccepts ⟨part, hnot⟩
      have hsome : strtmspecmod s = some
          { min := TmPart.min.convert (readOf (written s .min))
            hour := TmPart.hour.convert (readOf (written s .hour))
            mday := TmPart.mday.convert (readOf (written s .mday))
            mon := TmPart.mon.convert (readOf (written s .mon))
            wday := TmPart.wday.convert (readOf (written s .wday)) } := by
        refine strtmspecmod_eq_some.mpr ⟨hparts, fun part => ⟨haccepts part, ?_⟩⟩
        cases part <;> rfl
      right
      intro part n hn
      have hreads := h _ hsome part
      have hget := ((strtmspecmod_eq_some.mp hsome).2 part).2
      have hpart := haccepts part
      rw [hn] at hreads
      rw [hn, readOf_some] at hget hpart
      unfold Reads at hreads
      rw [hget] at hreads
      exact (convert_iff part n hpart).mp hreads
  · intro h tms htms part
    obtain ⟨hparts, hall⟩ := strtmspecmod_eq_some.mp htms
    obtain ⟨hpart, hget⟩ := hall part
    cases h with
    | inl hrefused =>
      cases hrefused with
      | inl hnone => exact absurd hnone hparts
      | inr hnot =>
        obtain ⟨other, hnot⟩ := hnot
        exact absurd (hall other).1 hnot
    | inr hless =>
      cases hn : written s part with
      | none =>
        rw [hn] at hget
        exact hget.trans (accepts_unset part).2
      | some n =>
        rw [hn, readOf_some] at hpart hget
        unfold Reads
        rw [hget]
        exact (convert_iff part n hpart).mpr (hless part n hn)

/-- `4294967291M` is accepted as a minute of minus five. -/
theorem negative_minute : ¬Honest [52, 50, 57, 52, 57, 54, 55, 50, 57, 49, 77] := by
  intro h
  have haccepted : strtmspecmod [52, 50, 57, 52, 57, 54, 55, 50, 57, 49, 77] = some ⟨-5, -1, -1, -1, -1⟩ := by
    decide +kernel
  have hwritten : written [52, 50, 57, 52, 57, 54, 55, 50, 57, 49, 77] .min = some 4294967291 := by decide +kernel
  have hreads := h _ haccepted .min
  rw [hwritten] at hreads
  exact absurd hreads.1.1 (by decide)

/-! ## Without overflow -/

/-- The components are unset or read from numbers that are an `int`. -/
def InRange (tms : TmSpec) : Prop := ∀ part : TmPart, -1 ≤ part.get tms ∧ part.get tms < 2 ^ 31

theorem InRange.set {x : ℤ} (h : InRange tms) (hx : 0 ≤ x ∧ x < 2 ^ 31) (part : TmPart) : InRange (part.set x tms) := by
  intro other
  rw [TmPart.get_set]
  split_ifs
  · exact ⟨by omega, hx.2⟩
  · exact h other

/-- While no number overflows, the loop reads the same. -/
theorem scantmspecmod_of_some {x : ℤ} {result : Option TmSpec} (hx : 0 ≤ x ∧ x < 2 ^ 31) (htms : InRange tms)
    (h : scantmspec tms x s = some result) : scantmspecmod tms x s = result ∧ ∀ out ∈ result, InRange out := by
  have hzero : (0 : ℤ) ≤ 0 ∧ (0 : ℤ) < 2 ^ 31 := ⟨le_rfl, by omega⟩
  induction s generalizing tms x with
  | nil =>
    cases h
    refine ⟨rfl, ?_⟩
    rintro _ ⟨⟩
    exact htms
  | cons ch s ih =>
    unfold scantmspec at h
    unfold scantmspecmod
    split_ifs at h ⊢ with hdigit hfits
    · have hlow : 48 ≤ ch.toNat := UInt8.le_iff_toNat_le.mp hdigit.1
      have hten : i32 (x * 10) = x * 10 := i32_of_range (by omega) (by omega)
      have hsum : i32 (x * 10 + (ch.toNat - 48)) = x * 10 + (ch.toNat - 48) := i32_of_range (by omega) (by omega)
      rw [hten, hsum]
      exact ih ⟨by omega, hfits⟩ htms h
    · exact ih hzero (htms.set hx .hour) h
    · exact ih hzero (htms.set hx .min) h
    · exact ih hzero (htms.set hx .mday) h
    · exact ih hzero (htms.set hx .mon) h
    · exact ih hzero (htms.set hx .wday) h
    · cases h
      exact ⟨rfl, nofun⟩

theorem zerobasedmod_of_range {x : ℤ} (hx : -1 ≤ x ∧ x < 2 ^ 31) : zerobasedmod x = zerobased x := by
  have hpred : i32 (x - 1) = x - 1 := i32_of_range (by omega) (by omega)
  rw [zerobasedmod, hpred, zerobased]

/-- Where no number overflows, the arithmetic makes no difference. -/
theorem strtmspecmod_of_some {result : Option TmSpec} (h : strtmspec s = some result) : strtmspecmod s = result := by
  obtain ⟨read, hscan, hresult⟩ := Option.map_eq_some_iff.mp h
  have hunset : InRange unset := by
    intro part
    cases part <;> exact ⟨le_rfl, by decide⟩
  obtain ⟨hmod, hrange⟩ := scantmspecmod_of_some ⟨le_rfl, by omega⟩ hunset hscan
  rw [strtmspecmod, hmod, ← hresult]
  cases read with
  | none => rfl
  | some out =>
    have hmday : zerobasedmod out.mday = zerobased out.mday := zerobasedmod_of_range (hrange out rfl .mday)
    have hmon : zerobasedmod out.mon = zerobased out.mon := zerobasedmod_of_range (hrange out rfl .mon)
    rw [Option.bind_some, Option.bind_some, checktmspecmod, checktmspec]
    rw [hmday, hmon]

end Read

end Aug.Util
