import Aug.Lib.Carry
import Aug.Util.TmSpec
import Mathlib.Tactic.IntervalCases

/-!
# The next time of a specification

A time of a specification is a date and a time of the day whose fixed components are those of the
specification. With the rule of leap years that the calendar has, the cascade of `nextmtime` gives the least
such time after the current one: each component goes on where it can, and carries to the next larger one
where it cannot.
-/

namespace Aug.Util

open Aug.Lib

section Component

/-- The values of a component below `n`: the fixed one, or any. -/
def Component (n fixed : ℤ) : Set ℤ := {v | 0 ≤ v ∧ v < n ∧ (Fixed fixed → v = fixed)}

/-- The first value of a component. -/
def first (fixed : ℤ) : ℤ := if Fixed fixed then fixed else 0

/-- A component has a value. -/
def ComponentFits (n fixed : ℤ) : Prop := 0 < n ∧ (Fixed fixed → 0 ≤ fixed ∧ fixed < n)

/-- The first value is the least. -/
theorem first_least {n x : ℤ} (hfits : ComponentFits n x) : IsLeast (Component n x) (first x) := by
  have ⟨hpos, hfixed⟩ := hfits
  unfold first
  split
  case isTrue h => exact ⟨⟨(hfixed h).1, (hfixed h).2, fun _ => rfl⟩, fun v hv => (hv.2.2 h).ge⟩
  case isFalse h => exact ⟨⟨le_refl _, hpos, fun hx => absurd hx h⟩, fun v hv => hv.1⟩

variable {α : Type*} [LinearOrder α] {S : Set α} {n x : α → ℤ} {a a' : α} {v : ℤ}

/-- A component that is free goes on to the next value. -/
theorem isNext_step (ha : a ∈ S) (hfree : ¬Fixed (x a)) (hv : 0 ≤ v) (hlt : v + 1 < n a) :
    IsNext (allowedPairs S fun a => Component (n a) (x a)) (toLex (a, v)) (toLex (a, v + 1)) := by
  apply isNext_stay ha
  constructor
  · exact ⟨⟨by omega, hlt, fun h => absurd h hfree⟩, by omega⟩
  · intro w hw
    have hw : v < w := hw.2
    omega

/-- A fixed component goes on to its value. -/
theorem isNext_fixed (ha : a ∈ S) (hfits : ComponentFits (n a) (x a)) (hfixed : Fixed (x a)) (hlt : v < x a) :
    IsNext (allowedPairs S fun a => Component (n a) (x a)) (toLex (a, v)) (toLex (a, first (x a))) := by
  have hleast := first_least hfits
  apply isNext_stay ha
  constructor
  · exact ⟨hleast.1, by rwa [first, if_pos hfixed]⟩
  · intro w hw
    exact hleast.2 hw.1

/-- A component without a greater value carries. -/
theorem isNext_wrap (hfits : ComponentFits (n a') (x a')) (hup : IsNext S a a')
    (hlast : Fixed (x a) ∧ x a ≤ v ∨ n a ≤ v + 1) :
    IsNext (allowedPairs S fun a => Component (n a) (x a)) (toLex (a, v)) (toLex (a', first (x a'))) := by
  apply isNext_carry _ hup (first_least hfits)
  intro _ w ⟨_, hlt, hsame⟩
  cases hlast with
  | inl h => rw [hsame h.1]; exact not_lt.mpr h.2
  | inr h => omega

/-- What is not allowed leaves the rest to begin again. -/
theorem isNext_skip (hfits : ComponentFits (n a') (x a')) (ha : a ∉ S) (hup : IsNext S a a') :
    IsNext (allowedPairs S fun a => Component (n a) (x a)) (toLex (a, v)) (toLex (a', first (x a'))) :=
  isNext_carry (fun h => absurd h ha) hup (first_least hfits)

end Component

section Levels

variable (leap : ℤ → Bool) (tms : TmSpec)

/-- A specification whose fixed components are in their ranges. -/
structure TmSpec.Ranged (tms : TmSpec) : Prop where
  min : ComponentFits 60 tms.min
  hour : ComponentFits 24 tms.hour
  mday : ComponentFits 31 tms.mday
  mon : ComponentFits 12 tms.mon

/-- The number of the days of a month of a year. -/
def monthLength (ym : ℤ ×ₗ ℤ) : ℤ := mdays leap (ofLex ym).2 ((ofLex ym).1 + 1900)

/-- The fixed day of the month, clamped to its length. -/
def clamped (ym : ℤ ×ₗ ℤ) : ℤ := if Fixed tms.mday then min tms.mday (monthLength leap ym - 1) else -1

/-- The months of a specification. -/
def months : Set (ℤ ×ₗ ℤ) := allowedPairs Set.univ fun _ => Component 12 tms.mon

/-- The dates of a specification. -/
def dates : Set ((ℤ ×ₗ ℤ) ×ₗ ℤ) :=
  allowedPairs (months tms) fun ym => Component (monthLength leap ym) (clamped leap tms ym)

/-- The hours of a specification. -/
def hours : Set (((ℤ ×ₗ ℤ) ×ₗ ℤ) ×ₗ ℤ) := allowedPairs (dates leap tms) fun _ => Component 24 tms.hour

/-- The minutes of a specification. -/
def minutes : Set ((((ℤ ×ₗ ℤ) ×ₗ ℤ) ×ₗ ℤ) ×ₗ ℤ) :=
  allowedPairs (hours leap tms) fun _ => Component 60 tms.min

/-- The month of a time. -/
def monthOf (tm : Tm) : ℤ ×ₗ ℤ := toLex (tm.year, tm.mon)

/-- The date of a time, whose day of the month is clamped. -/
def dateOf (tm : Tm) : (ℤ ×ₗ ℤ) ×ₗ ℤ := toLex (monthOf tm, mday leap tm)

/-- The date and the hour of a time. -/
def hourOf (tm : Tm) : ((ℤ ×ₗ ℤ) ×ₗ ℤ) ×ₗ ℤ := toLex (dateOf leap tm, tm.hour)

/-- The date, the hour and the minute of a time. -/
def minuteOf (tm : Tm) : (((ℤ ×ₗ ℤ) ×ₗ ℤ) ×ₗ ℤ) ×ₗ ℤ := toLex (hourOf leap tm, tm.min)

end Levels

section Length

variable (leap : ℤ → Bool) {tms : TmSpec}

/-- A month has at least 28 days and at most 31. -/
theorem mdays_bounds {mon : ℤ} (year : ℤ) (hmon : 0 ≤ mon) (hlt : mon < 12) :
    28 ≤ mdays leap mon year ∧ mdays leap mon year ≤ 31 := by
  have hdays : 28 ≤ monthDays mon ∧ monthDays mon ≤ 31 := by interval_cases mon <;> decide
  unfold mdays
  split <;> omega

/-- A month of the specification is one of the year. -/
theorem months_bounds {ym : ℤ ×ₗ ℤ} (hmem : ym ∈ months tms) : 0 ≤ (ofLex ym).2 ∧ (ofLex ym).2 < 12 :=
  ⟨hmem.2.1, hmem.2.2.1⟩

/-- The clamped day is fixed where the day is. -/
theorem clamped_fixed (hspec : tms.Ranged) {ym : ℤ ×ₗ ℤ} (hmem : ym ∈ months tms) :
    Fixed (clamped leap tms ym) ↔ Fixed tms.mday := by
  have ⟨hlow, hhigh⟩ := months_bounds hmem
  have hbounds : 28 ≤ monthLength leap ym ∧ _ := mdays_bounds leap _ hlow hhigh
  have hday := hspec.mday.2
  unfold clamped
  split
  case isTrue h =>
    have ⟨hnonneg, _⟩ := hday h
    have hmin : (0 : ℤ) ≤ min tms.mday (monthLength leap ym - 1) := le_min hnonneg (by omega)
    refine iff_of_true (fun hneg => ?_) h
    omega
  case isFalse h => exact iff_of_false (fun hneg => hneg rfl) h

/-- The clamped day is one of the month. -/
theorem clamped_fits (hspec : tms.Ranged) {ym : ℤ ×ₗ ℤ} (hmem : ym ∈ months tms) :
    ComponentFits (monthLength leap ym) (clamped leap tms ym) := by
  have ⟨hlow, hhigh⟩ := months_bounds hmem
  have hbounds : 28 ≤ monthLength leap ym ∧ _ := mdays_bounds leap _ hlow hhigh
  constructor
  · omega
  · intro hfixed
    have hday := (clamped_fixed leap hspec hmem).mp hfixed
    have ⟨hnonneg, _⟩ := hspec.mday.2 hday
    rw [clamped, if_pos hday]
    omega

/-- Counting goes back to zero at the limit. -/
theorem tmod_succ {v n : ℤ} (hv : 0 ≤ v) (hlt : v < n) : (v + 1).tmod n = if v + 1 = n then 0 else v + 1 := by
  split
  case isTrue h => rw [h, Int.tmod_self]
  case isFalse h => exact Int.tmod_eq_of_lt (by omega) (by omega)

end Length

section Carries

variable (leap : ℤ → Bool) {tms : TmSpec} {out : Tm}

/-- The day of the month that the cascade carries along: the fixed one before it is clamped, or one of the
month. -/
def DayKept (leap : ℤ → Bool) (tms : TmSpec) (out : Tm) : Prop :=
  (Fixed tms.mday → out.mday = tms.mday) ∧ (¬Fixed tms.mday → 0 ≤ out.mday ∧ out.mday < monthLength leap (monthOf out))

theorem mday_eq (tm : Tm) : mday leap tm = min tm.mday (monthLength leap (monthOf tm) - 1) := by
  simp only [mday, monthLength, monthOf, ofLex_toLex]
  split <;> omega

/-- A kept day that is fixed shows as the clamped one. -/
theorem mday_kept (hkept : DayKept leap tms out) (hfixed : Fixed tms.mday) :
    mday leap out = clamped leap tms (monthOf out) := by
  rw [mday_eq leap, hkept.1 hfixed, clamped, if_pos hfixed]

/-- A kept day that is free shows as it is. -/
theorem mday_free (hkept : DayKept leap tms out) (hfree : ¬Fixed tms.mday) : mday leap out = out.mday := by
  have hday := hkept.2 hfree
  rw [mday_eq leap]
  omega

/-- `nextmon` gives the next month. -/
theorem nextmon_next (hspec : tms.Ranged) (hmon : out.mon ∈ Component 12 tms.mon) :
    IsNext (months tms) (monthOf out) (monthOf (nextmon out tms)) := by
  have hyear : IsNext Set.univ out.year (out.year + 1) := ⟨⟨trivial, by omega⟩, fun y hy => hy.2⟩
  have ⟨hlow, hhigh, hsame⟩ := hmon
  unfold nextmon
  split
  case isTrue h =>
    have hfirst : first tms.mon = out.mon := by rw [first, if_pos h, hsame h]
    have hwrap := isNext_wrap (n := fun _ => 12) (x := fun _ => tms.mon) hspec.mon hyear
      (.inl ⟨h, (hsame h).ge⟩)
    rwa [hfirst] at hwrap
  case isFalse h =>
    simp only [tmod_succ hlow hhigh]
    by_cases hlast : out.mon + 1 = 12
    · have hwrap := isNext_wrap (n := fun _ => 12) (x := fun _ => tms.mon) hspec.mon hyear
        (.inr hlast.ge)
      rw [first, if_neg h] at hwrap
      simp only [if_pos hlast, if_true]
      exact hwrap
    · have hstep := isNext_step (S := Set.univ) (n := fun _ => 12) (x := fun _ => tms.mon) (Set.mem_univ out.year)
        h hlow (by omega)
      have hzero : (0 : ℤ) ≠ out.mon + 1 := by omega
      simp only [if_neg hlast, if_neg hzero]
      exact hstep

/-- `nextmon` leaves the day of the month and the time of the day. -/
theorem nextmon_rest : (nextmon out tms).mday = out.mday ∧ (nextmon out tms).hour = out.hour ∧
    (nextmon out tms).min = out.min := by
  unfold nextmon
  dsimp only
  split_ifs <;> exact ⟨rfl, rfl, rfl⟩

/-- A month begins with the first day that the specification allows. -/
theorem mday_first (hspec : tms.Ranged) (hmem : monthOf out ∈ months tms) (hday : out.mday = first tms.mday) :
    mday leap out = first (clamped leap tms (monthOf out)) := by
  have ⟨hlow, hhigh⟩ := months_bounds hmem
  have hbounds : 28 ≤ monthLength leap (monthOf out) ∧ _ := mdays_bounds leap _ hlow hhigh
  rw [mday_eq leap, hday]
  by_cases h : Fixed tms.mday
  · rw [first, first, if_pos h, if_pos ((clamped_fixed leap hspec hmem).mpr h), clamped, if_pos h]
  · rw [first, first, if_neg h, if_neg (fun hfixed => h ((clamped_fixed leap hspec hmem).mp hfixed))]
    omega

/-- The next month begins with the first day that the specification allows. -/
theorem nextmon_first (hspec : tms.Ranged) (hmon : out.mon ∈ Component 12 tms.mon)
    (hday : out.mday = first tms.mday) :
    mday leap (nextmon out tms) = first (clamped leap tms (monthOf (nextmon out tms))) :=
  mday_first leap hspec (nextmon_next hspec hmon).1.1 (nextmon_rest.1.trans hday)

/-- `nextmday` gives the next date. -/
theorem nextmday_next (hspec : tms.Ranged) (hmem : dateOf leap out ∈ dates leap tms)
    (hkept : DayKept leap tms out) :
    IsNext (dates leap tms) (dateOf leap out) (dateOf leap (nextmday leap out tms)) := by
  have hmonth : monthOf out ∈ months tms := hmem.1
  have hmon : out.mon ∈ Component 12 tms.mon := hmonth.2
  unfold nextmday
  split
  case isTrue h =>
    have hup := nextmon_next hspec hmon
    have hfixed := (clamped_fixed leap hspec hmonth).mpr h
    have hfirst : out.mday = first tms.mday := by rw [hkept.1 h, first, if_pos h]
    have hwrap := isNext_wrap (clamped_fits leap hspec hup.1.1) hup
      (.inl ⟨hfixed, (mday_kept leap hkept h).ge⟩)
    rwa [← nextmon_first leap hspec hmon hfirst] at hwrap
  case isFalse h =>
    have hfree : ¬Fixed (clamped leap tms (monthOf out)) := fun hx => h ((clamped_fixed leap hspec hmonth).mp hx)
    have ⟨hlow, hhigh⟩ := hkept.2 h
    have hlen : mdays leap out.mon (out.year + 1900) = monthLength leap (monthOf out) := rfl
    simp only [hlen, tmod_succ hlow hhigh]
    rw [dateOf, mday_free leap hkept h]
    by_cases hlast : out.mday + 1 = monthLength leap (monthOf out)
    · simp only [if_pos hlast, if_true]
      have hup : IsNext (months tms) (monthOf out) (monthOf (nextmon { out with mday := 0 } tms)) :=
        nextmon_next hspec hmon
      have hwrap := isNext_wrap (clamped_fits leap hspec hup.1.1) hup (.inr hlast.ge)
      have hfirst : mday leap (nextmon { out with mday := 0 } tms) = _ :=
        nextmon_first leap hspec hmon (if_neg h).symm
      rwa [← hfirst] at hwrap
    · have hzero : (0 : ℤ) ≠ out.mday + 1 := by omega
      simp only [if_neg hlast, if_neg hzero]
      have hshown : mday leap { out with mday := out.mday + 1 } = out.mday + 1 := by
        rw [mday_eq leap]
        apply min_eq_left
        change out.mday + 1 ≤ monthLength leap (monthOf out) - 1
        omega
      rw [dateOf, hshown]
      exact isNext_step hmonth hfree hlow (by omega)

/-- `nextmday` leaves the time of the day. -/
theorem nextmday_rest : (nextmday leap out tms).hour = out.hour ∧ (nextmday leap out tms).min = out.min := by
  unfold nextmday
  dsimp only
  split_ifs
  · exact nextmon_rest.2
  · exact nextmon_rest.2
  · exact ⟨rfl, rfl⟩

/-- `nextmhour` gives the next hour. -/
theorem nextmhour_next (hspec : tms.Ranged) (hmem : hourOf leap out ∈ hours leap tms)
    (hkept : DayKept leap tms out) :
    IsNext (hours leap tms) (hourOf leap out) (hourOf leap (nextmhour leap out tms)) := by
  have hdate : dateOf leap out ∈ dates leap tms := hmem.1
  have hvalue : out.hour ∈ Component 24 tms.hour := hmem.2
  have ⟨hlow, hhigh, hsame⟩ := hvalue
  unfold nextmhour
  split
  case isTrue h =>
    have hfirst : first tms.hour = (nextmday leap out tms).hour := by
      rw [first, if_pos h, (nextmday_rest leap).1, hsame h]
    have hwrap := isNext_wrap (n := fun _ => 24) (x := fun _ => tms.hour) hspec.hour
      (nextmday_next leap hspec hdate hkept) (.inl ⟨h, (hsame h).ge⟩)
    rwa [hfirst] at hwrap
  case isFalse h =>
    simp only [tmod_succ hlow hhigh]
    by_cases hlast : out.hour + 1 = 24
    · simp only [if_pos hlast, if_true]
      have hfirst : first tms.hour = (nextmday leap { out with hour := 0 } tms).hour := by
        rw [first, if_neg h, (nextmday_rest leap).1]
      have hup : IsNext (dates leap tms) (dateOf leap out) (dateOf leap (nextmday leap { out with hour := 0 } tms)) :=
        nextmday_next leap hspec hdate hkept
      have hwrap := isNext_wrap (n := fun _ => 24) (x := fun _ => tms.hour) hspec.hour hup (.inr hlast.ge)
      rwa [hfirst] at hwrap
    · have hzero : (0 : ℤ) ≠ out.hour + 1 := by omega
      simp only [if_neg hlast, if_neg hzero]
      exact isNext_step (n := fun _ => 24) (x := fun _ => tms.hour) hdate h hlow (by omega)

/-- `nextmhour` leaves the minute. -/
theorem nextmhour_rest : (nextmhour leap out tms).min = out.min := by
  unfold nextmhour
  dsimp only
  split_ifs
  · exact (nextmday_rest leap).2
  · exact (nextmday_rest leap).2
  · rfl

/-- `nextmmin` gives the next minute. -/
theorem nextmmin_next (hspec : tms.Ranged) (hmem : minuteOf leap out ∈ minutes leap tms)
    (hkept : DayKept leap tms out) :
    IsNext (minutes leap tms) (minuteOf leap out) (minuteOf leap (nextmmin leap out tms)) := by
  have hhour : hourOf leap out ∈ hours leap tms := hmem.1
  have hvalue : out.min ∈ Component 60 tms.min := hmem.2
  have ⟨hlow, hhigh, hsame⟩ := hvalue
  unfold nextmmin
  split
  case isTrue h =>
    have hfirst : first tms.min = (nextmhour leap out tms).min := by
      rw [first, if_pos h, nextmhour_rest leap, hsame h]
    have hwrap := isNext_wrap (n := fun _ => 60) (x := fun _ => tms.min) hspec.min
      (nextmhour_next leap hspec hhour hkept) (.inl ⟨h, (hsame h).ge⟩)
    rwa [hfirst] at hwrap
  case isFalse h =>
    simp only [tmod_succ hlow hhigh]
    by_cases hlast : out.min + 1 = 60
    · simp only [if_pos hlast, if_true]
      have hfirst : first tms.min = (nextmhour leap { out with min := 0 } tms).min := by
        rw [first, if_neg h, nextmhour_rest leap]
      have hup : IsNext (hours leap tms) (hourOf leap out) (hourOf leap (nextmhour leap { out with min := 0 } tms)) :=
        nextmhour_next leap hspec hhour hkept
      have hwrap := isNext_wrap (n := fun _ => 60) (x := fun _ => tms.min) hspec.min hup (.inr hlast.ge)
      rwa [hfirst] at hwrap
    · have hzero : (0 : ℤ) ≠ out.min + 1 := by omega
      simp only [if_neg hlast, if_neg hzero]
      exact isNext_step (n := fun _ => 60) (x := fun _ => tms.min) hhour h hlow (by omega)

end Carries

section Cascade

variable (leap : ℤ → Bool) {tms : TmSpec} {tm out : Tm}

/-- From the minutes on, the cascade gives the next time after the current minute of an hour that the
specification allows. -/
theorem frommin_next (hspec : tms.Ranged) (hlow : 0 ≤ tm.min) (hhigh : tm.min < 60) (hpos : 0 < tm.sec)
    (hsec : out.sec = 0) (hmin : out.min = first tms.min) (hmem : hourOf leap out ∈ hours leap tms)
    (hkept : DayKept leap tms out) :
    IsNext (minutes leap tms) (toLex (hourOf leap out, tm.min)) (minuteOf leap (frommin leap tm tms out)) := by
  unfold frommin fromsec
  split
  case isTrue h =>
    split
    case isTrue hne =>
      split
      case isTrue hlt =>
        have hfirst : first tms.min = (nextmhour leap out tms).min := by rw [nextmhour_rest leap, hmin]
        have hle : tms.min ≤ tm.min := by
          rw [hmin, first, if_pos h] at hlt
          exact hlt.le
        have hwrap := isNext_wrap (n := fun _ => 60) (x := fun _ => tms.min) hspec.min
          (nextmhour_next leap hspec hmem hkept) (.inl ⟨h, hle⟩)
        rwa [hfirst] at hwrap
      case isFalse hge =>
        have hlt : tm.min < tms.min := by
          rw [hmin, first, if_pos h] at hne hge
          omega
        have hfixed := isNext_fixed (n := fun _ => 60) (x := fun _ => tms.min) hmem hspec.min h hlt
        rwa [← hmin] at hfixed
    case isFalse heq =>
      have hsame : tm.min = out.min := (not_not.mp heq).symm
      rw [if_pos (by rw [hsec]; exact hpos), hsame]
      have hvalue : out.min ∈ Component 60 tms.min := ⟨by omega, by omega, fun _ => by rw [hmin, first, if_pos h]⟩
      exact nextmmin_next leap hspec ⟨hmem, hvalue⟩ hkept
  case isFalse h =>
    rw [if_pos (by rw [hsec]; exact hpos)]
    have hvalue : tm.min ∈ Component 60 tms.min := ⟨hlow, hhigh, fun hx => absurd hx h⟩
    have hminute : minuteOf leap { out with min := tm.min } ∈ minutes leap tms := ⟨hmem, hvalue⟩
    exact nextmmin_next leap hspec hminute hkept

/-- From the hours on, the cascade gives the next time after the current hour and minute of a date that the
specification allows. -/
theorem fromhour_next (hspec : tms.Ranged) (hhour : 0 ≤ tm.hour ∧ tm.hour < 24)
    (htmmin : 0 ≤ tm.min ∧ tm.min < 60) (hpos : 0 < tm.sec) (hsec : out.sec = 0)
    (hmin : out.min = first tms.min) (hfirst : out.hour = first tms.hour)
    (hmem : dateOf leap out ∈ dates leap tms) (hkept : DayKept leap tms out) :
    IsNext (minutes leap tms) (toLex (toLex (dateOf leap out, tm.hour), tm.min))
      (minuteOf leap (fromhour leap tm tms out)) := by
  unfold fromhour
  split
  case isTrue h =>
    have hvalue : out.hour = tms.hour := by rw [hfirst, first, if_pos h]
    split
    case isTrue hne =>
      have hskip : toLex (dateOf leap out, tm.hour) ∉ hours leap tms := by
        intro ⟨_, hcomponent⟩
        exact hne (hvalue.trans (hcomponent.2.2 h).symm)
      split
      case isTrue hlt =>
        have hup := isNext_wrap (n := fun _ => 24) (x := fun _ => tms.hour) (v := tm.hour) hspec.hour
          (nextmday_next leap hspec hmem hkept) (.inl ⟨h, by omega⟩)
        have hcarried : first tms.hour = (nextmday leap out tms).hour := by rw [(nextmday_rest leap).1, hfirst]
        rw [hcarried] at hup
        have hnext := isNext_skip (n := fun _ => 60) (x := fun _ => tms.min) (v := tm.min) hspec.min hskip hup
        have hkeeps : (nextmday leap out tms).min = out.min := (nextmday_rest leap).2
        rwa [← hmin, ← hkeeps] at hnext
      case isFalse hge =>
        have hup := isNext_fixed (n := fun _ => 24) (x := fun _ => tms.hour) (v := tm.hour) hmem hspec.hour h
          (by omega)
        rw [← hfirst] at hup
        have hnext := isNext_skip (n := fun _ => 60) (x := fun _ => tms.min) (v := tm.min) hspec.min hskip hup
        rwa [← hmin] at hnext
    case isFalse heq =>
      have hsame : tm.hour = out.hour := (not_not.mp heq).symm
      have hcomponent : out.hour ∈ Component 24 tms.hour := ⟨by omega, by omega, fun _ => hvalue⟩
      rw [hsame]
      exact frommin_next leap hspec htmmin.1 htmmin.2 hpos hsec hmin ⟨hmem, hcomponent⟩ hkept
  case isFalse h =>
    have hcomponent : tm.hour ∈ Component 24 tms.hour := ⟨hhour.1, hhour.2, fun hx => absurd hx h⟩
    have hstarts : hourOf leap { out with hour := tm.hour } ∈ hours leap tms := ⟨hmem, hcomponent⟩
    exact frommin_next leap hspec htmmin.1 htmmin.2 hpos hsec hmin hstarts hkept

/-- What follows a date that is none of the specification's begins with the first time of the next one. -/
theorem isNext_date (hspec : tms.Ranged) {date : (ℤ ×ₗ ℤ) ×ₗ ℤ} {hour min : ℤ} (hskip : date ∉ dates leap tms)
    (hup : IsNext (dates leap tms) date (dateOf leap out)) (hhour : out.hour = first tms.hour)
    (hmin : out.min = first tms.min) :
    IsNext (minutes leap tms) (toLex (toLex (date, hour), min)) (minuteOf leap out) := by
  have hnext := isNext_skip (n := fun _ => 24) (x := fun _ => tms.hour) (v := hour) hspec.hour hskip hup
  rw [← hhour] at hnext
  have hskipped : toLex (date, hour) ∉ hours leap tms := fun hmem => hskip hmem.1
  have hminute := isNext_skip (n := fun _ => 60) (x := fun _ => tms.min) (v := min) hspec.min hskipped hnext
  rwa [← hmin] at hminute

/-- From the day of the month on, the cascade gives the next time after the current day, hour and minute of a
month that the specification allows. -/
theorem frommday_next (hspec : tms.Ranged) (htmday : 0 ≤ tm.mday ∧ tm.mday < monthLength leap (monthOf out))
    (hhour : 0 ≤ tm.hour ∧ tm.hour < 24) (htmmin : 0 ≤ tm.min ∧ tm.min < 60) (hpos : 0 < tm.sec)
    (hsec : out.sec = 0) (hmin : out.min = first tms.min) (hfirst : out.hour = first tms.hour)
    (hday : out.mday = first tms.mday) (hmem : monthOf out ∈ months tms) :
    IsNext (minutes leap tms) (toLex (toLex (toLex (monthOf out, tm.mday), tm.hour), tm.min))
      (minuteOf leap (frommday leap tm tms out)) := by
  unfold frommday
  split
  case isTrue h =>
    have hfixed := (clamped_fixed leap hspec hmem).mpr h
    have hkept : DayKept leap tms out := ⟨fun _ => by rw [hday, first, if_pos h], fun hfree => absurd h hfree⟩
    have hshown := mday_kept leap hkept h
    have hfits := clamped_fits leap hspec hmem
    dsimp only
    split
    case isTrue hne =>
      have hskip : toLex (monthOf out, tm.mday) ∉ dates leap tms := by
        intro ⟨_, hcomponent⟩
        exact hne (hshown.trans (hcomponent.2.2 hfixed).symm)
      split
      case isTrue hlt =>
        have ⟨_, hkeeps, hkeepsmin⟩ : (nextmon out tms).mday = out.mday ∧ (nextmon out tms).hour = out.hour ∧
            (nextmon out tms).min = out.min := nextmon_rest
        have hup := isNext_wrap (v := tm.mday) (clamped_fits leap hspec (nextmon_next hspec hmem.2).1.1)
          (nextmon_next hspec hmem.2) (.inl ⟨hfixed, by omega⟩)
        rw [← nextmon_first leap hspec hmem.2 hday] at hup
        exact isNext_date leap hspec hskip hup (hkeeps.trans hfirst) (hkeepsmin.trans hmin)
      case isFalse hge =>
        have hup := isNext_fixed (v := tm.mday) hmem hfits hfixed (by omega)
        rw [← mday_first leap hspec hmem hday] at hup
        exact isNext_date leap hspec hskip hup hfirst hmin
    case isFalse heq =>
      have hsame : tm.mday = mday leap out := (not_not.mp heq).symm
      have hcomponent : mday leap out ∈ Component (monthLength leap (monthOf out)) (clamped leap tms (monthOf out)) := by
        rw [hshown]
        exact ⟨(hfits.2 hfixed).1, (hfits.2 hfixed).2, fun _ => rfl⟩
      rw [hsame]
      exact fromhour_next leap hspec hhour htmmin hpos hsec hmin hfirst ⟨hmem, hcomponent⟩ hkept
  case isFalse h =>
    have hkept : DayKept leap tms { out with mday := tm.mday } := ⟨fun hx => absurd hx h, fun _ => htmday⟩
    have hshown : mday leap { out with mday := tm.mday } = tm.mday := mday_free leap hkept h
    have hcomponent : tm.mday ∈ Component (monthLength leap (monthOf out)) (clamped leap tms (monthOf out)) :=
      ⟨htmday.1, htmday.2, fun hx => absurd ((clamped_fixed leap hspec hmem).mp hx) h⟩
    have hdate : dateOf leap { out with mday := tm.mday } = toLex (monthOf out, tm.mday) := by
      rw [dateOf, hshown]
      rfl
    rw [← hdate]
    exact fromhour_next leap hspec hhour htmmin hpos hsec hmin hfirst (by rw [hdate]; exact ⟨hmem, hcomponent⟩) hkept

/-- From the month on, the cascade gives the next time after the current one. -/
theorem frommon_next (hspec : tms.Ranged) (htmmon : 0 ≤ tm.mon ∧ tm.mon < 12)
    (htmday : 0 ≤ tm.mday ∧ tm.mday < monthLength leap (monthOf tm))
    (hhour : 0 ≤ tm.hour ∧ tm.hour < 24) (htmmin : 0 ≤ tm.min ∧ tm.min < 60) (hpos : 0 < tm.sec) :
    IsNext (minutes leap tms) (toLex (toLex (toLex (monthOf tm, tm.mday), tm.hour), tm.min))
      (minuteOf leap (frommon leap tm tms (defaults tm tms))) := by
  have hyear : IsNext Set.univ tm.year (tm.year + 1) := ⟨⟨trivial, by omega⟩, fun y hy => hy.2⟩
  unfold frommon
  split
  case isTrue h =>
    have hmon : (defaults tm tms).mon = tms.mon := if_pos h
    have hvalue : first tms.mon = tms.mon := if_pos h
    split
    case isTrue hne =>
      have hskip : toLex (monthOf tm, tm.mday) ∉ dates leap tms := by
        intro ⟨⟨_, hcomponent⟩, _⟩
        exact hne (hmon.trans (hcomponent.2.2 h).symm)
      have hskipped : monthOf tm ∉ months tms := by
        intro ⟨_, hcomponent⟩
        exact hne (hmon.trans (hcomponent.2.2 h).symm)
      have hnext : ∀ {next : Tm}, IsNext (months tms) (monthOf tm) (monthOf next) → next.mday = first tms.mday →
          IsNext (dates leap tms) (toLex (monthOf tm, tm.mday)) (dateOf leap next) := by
        intro next hup hday
        have hdate := isNext_skip (v := tm.mday) (clamped_fits leap hspec hup.1.1) hskipped hup
        rwa [← mday_first leap hspec hup.1.1 hday] at hdate
      split
      case isTrue hlt =>
        have hup := isNext_wrap (n := fun _ => 12) (x := fun _ => tms.mon) (v := tm.mon) hspec.mon hyear
          (.inl ⟨h, by omega⟩)
        exact isNext_date leap hspec hskip (hnext hup rfl) rfl rfl
      case isFalse hge =>
        have hup := isNext_fixed (n := fun _ => 12) (x := fun _ => tms.mon) (v := tm.mon) (Set.mem_univ tm.year)
          hspec.mon h (by omega)
        exact isNext_date leap hspec hskip (hnext hup rfl) rfl rfl
    case isFalse heq =>
      have hsame : monthOf (defaults tm tms) = monthOf tm := by rw [monthOf, not_not.mp heq]; rfl
      rw [← hsame] at htmday ⊢
      have hfixed : tm.mon = tms.mon := (not_not.mp heq).symm.trans hmon
      have hmem : monthOf (defaults tm tms) ∈ months tms := by
        rw [hsame]
        exact ⟨trivial, htmmon.1, htmmon.2, fun _ => hfixed⟩
      exact frommday_next leap hspec htmday hhour htmmin hpos rfl rfl rfl rfl hmem
  case isFalse h =>
    have hmem : monthOf { defaults tm tms with mon := tm.mon } ∈ months tms :=
      ⟨trivial, htmmon.1, htmmon.2, fun hx => absurd hx h⟩
    exact frommday_next leap hspec htmday hhour htmmin hpos rfl rfl rfl rfl hmem

/-- `nextmtime` gives the next time. -/
theorem nextmtime_next (hspec : tms.Ranged) (htmmon : 0 ≤ tm.mon ∧ tm.mon < 12)
    (htmday : 0 ≤ tm.mday ∧ tm.mday < monthLength leap (monthOf tm))
    (hhour : 0 ≤ tm.hour ∧ tm.hour < 24) (htmmin : 0 ≤ tm.min ∧ tm.min < 60) (hpos : 0 < tm.sec) :
    IsNext (minutes leap tms) (toLex (toLex (toLex (monthOf tm, tm.mday), tm.hour), tm.min))
      (toLex (toLex (toLex (monthOf (nextmtime leap tm tms), (nextmtime leap tm tms).mday),
        (nextmtime leap tm tms).hour), (nextmtime leap tm tms).min)) :=
  frommon_next leap hspec htmmon htmday hhour htmmin hpos

/-- The components that the cascade does not look at. -/
def Untouched (out next : Tm) : Prop := next.sec = out.sec ∧ next.wday = out.wday ∧ next.isdst = out.isdst

theorem nextmon_untouched : Untouched out (nextmon out tms) := by
  unfold nextmon
  dsimp only
  split_ifs <;> exact ⟨rfl, rfl, rfl⟩

theorem nextmday_untouched : Untouched out (nextmday leap out tms) := by
  unfold nextmday
  dsimp only
  split_ifs
  · exact nextmon_untouched
  · exact nextmon_untouched
  · exact ⟨rfl, rfl, rfl⟩

theorem nextmhour_untouched : Untouched out (nextmhour leap out tms) := by
  unfold nextmhour
  dsimp only
  split_ifs
  · exact nextmday_untouched leap
  · exact nextmday_untouched leap
  · exact ⟨rfl, rfl, rfl⟩

theorem nextmmin_untouched : Untouched out (nextmmin leap out tms) := by
  unfold nextmmin
  dsimp only
  split_ifs
  · exact nextmhour_untouched leap
  · exact nextmhour_untouched leap
  · exact ⟨rfl, rfl, rfl⟩

theorem fromsec_untouched : Untouched out (fromsec leap tm tms out) := by
  unfold fromsec
  split_ifs
  · exact nextmmin_untouched leap
  · exact ⟨rfl, rfl, rfl⟩

theorem frommin_untouched : Untouched out (frommin leap tm tms out) := by
  unfold frommin
  split_ifs
  · exact nextmhour_untouched leap
  · exact ⟨rfl, rfl, rfl⟩
  · exact fromsec_untouched leap
  · exact fromsec_untouched leap

theorem fromhour_untouched : Untouched out (fromhour leap tm tms out) := by
  unfold fromhour
  split_ifs
  · exact nextmday_untouched leap
  · exact ⟨rfl, rfl, rfl⟩
  · exact frommin_untouched leap
  · exact frommin_untouched leap

theorem frommday_untouched : Untouched out (frommday leap tm tms out) := by
  unfold frommday
  dsimp only
  split_ifs
  · exact nextmon_untouched
  · exact ⟨rfl, rfl, rfl⟩
  · exact fromhour_untouched leap
  · exact fromhour_untouched leap

/-- The seconds are zero, and so is the day of the week. -/
theorem nextmtime_untouched : Untouched (defaults tm tms) (nextmtime leap tm tms) := by
  have hfrom : Untouched (defaults tm tms) (frommon leap tm tms (defaults tm tms)) := by
    unfold frommon
    split_ifs
    · exact ⟨rfl, rfl, rfl⟩
    · exact ⟨rfl, rfl, rfl⟩
    · exact frommday_untouched leap
    · exact frommday_untouched leap
  exact hfrom

end Cascade

section Calendar

/-- The rule of leap years of the Gregorian calendar. -/
def gregorian (year : ℤ) : Bool := 4 ∣ year ∧ (¬100 ∣ year ∨ 400 ∣ year)

/-- A broken-down time of the Gregorian calendar, with a leap second at most. -/
structure Tm.Valid (tm : Tm) : Prop where
  sec : 0 ≤ tm.sec ∧ tm.sec ≤ 60
  min : 0 ≤ tm.min ∧ tm.min < 60
  hour : 0 ≤ tm.hour ∧ tm.hour < 24
  mon : 0 ≤ tm.mon ∧ tm.mon < 12
  mday : 1 ≤ tm.mday ∧ tm.mday ≤ mdays gregorian tm.mon (tm.year + 1900)

/-- A time has the fixed components of a specification, the day of the month clamped to the length of the
month. -/
structure Tm.Matches (tm : Tm) (tms : TmSpec) : Prop where
  min : Fixed tms.min → tm.min = tms.min
  hour : Fixed tms.hour → tm.hour = tms.hour
  mday : Fixed tms.mday → tm.mday = Min.min (tms.mday + 1) (mdays gregorian tm.mon (tm.year + 1900))
  mon : Fixed tms.mon → tm.mon = tms.mon

/-- The place of a time in the order of times. -/
def Tm.clock (tm : Tm) : ((((ℤ ×ₗ ℤ) ×ₗ ℤ) ×ₗ ℤ) ×ₗ ℤ) ×ₗ ℤ :=
  toLex (toLex (toLex (toLex (toLex (tm.year, tm.mon), tm.mday), tm.hour), tm.min), tm.sec)

/-- A valid whole minute that a specification allows. -/
def TmSpec.Allows (tms : TmSpec) (tm : Tm) : Prop := tm.Valid ∧ tm.sec = 0 ∧ tm.Matches tms

/-- The least whole minute after a time that the specification allows. -/
structure TmSpec.NextDue (tms : TmSpec) (tm next : Tm) : Prop where
  allowed : tms.Allows next
  later : tm.clock < next.clock
  least : ∀ other, tms.Allows other → tm.clock < other.clock → next.clock ≤ other.clock

variable {tms : TmSpec} {tm next : Tm}

/-- The minute of a time whose days of the month count from one. -/
def Tm.minute (tm : Tm) : (((ℤ ×ₗ ℤ) ×ₗ ℤ) ×ₗ ℤ) ×ₗ ℤ :=
  toLex (toLex (toLex (monthOf tm, tm.mday - 1), tm.hour), tm.min)

/-- A whole minute is after a time if it is after its minute. -/
theorem clock_lt_iff (hsec : 0 ≤ tm.sec) (hwhole : next.sec = 0) :
    tm.clock < next.clock ↔ tm.minute < next.minute := by
  have hnot : ¬tm.sec < next.sec := by omega
  simp only [Tm.clock, Tm.minute, monthOf, Prod.Lex.toLex_lt_toLex, EmbeddingLike.apply_eq_iff_eq,
    Prod.mk.injEq, hnot, and_false, or_false, sub_lt_sub_iff_right, sub_left_inj]

/-- Whole minutes are ordered as minutes. -/
theorem clock_le_iff (hwhole : tm.sec = 0) (hnext : next.sec = 0) :
    tm.clock ≤ next.clock ↔ tm.minute ≤ next.minute := by
  have hsame : tm.clock = next.clock ↔ tm.minute = next.minute := by
    simp only [Tm.clock, Tm.minute, monthOf, EmbeddingLike.apply_eq_iff_eq, Prod.mk.injEq, hwhole, hnext,
      sub_left_inj, and_true]
  rw [le_iff_lt_or_eq, le_iff_lt_or_eq, clock_lt_iff (le_of_eq hwhole.symm) hnext, hsame]

/-- The whole minutes of a specification are those of its sets. -/
theorem allows_iff (hspec : tms.Ranged) (hwhole : tm.sec = 0) :
    tms.Allows tm ↔ tm.minute ∈ minutes gregorian tms := by
  constructor
  · intro ⟨hvalid, _, hmatches⟩
    have hmonth : monthOf tm ∈ months tms := ⟨trivial, hvalid.mon.1, hvalid.mon.2, hmatches.mon⟩
    have hday : tm.mday - 1 ∈ Component (monthLength gregorian (monthOf tm)) (clamped gregorian tms (monthOf tm)) := by
      have hbounds := hvalid.mday
      have hlen : mdays gregorian tm.mon (tm.year + 1900) = monthLength gregorian (monthOf tm) := rfl
      refine ⟨by omega, by omega, fun hfixed => ?_⟩
      have hfixed := (clamped_fixed gregorian hspec hmonth).mp hfixed
      have hsame := hmatches.mday hfixed
      rw [clamped, if_pos hfixed]
      omega
    exact ⟨⟨⟨hmonth, hday⟩, hvalid.hour.1, hvalid.hour.2, hmatches.hour⟩, hvalid.min.1, hvalid.min.2,
      hmatches.min⟩
  · intro ⟨⟨⟨hmonth, hday⟩, hhour⟩, hmin⟩
    have hday : 0 ≤ tm.mday - 1 ∧ tm.mday - 1 < monthLength gregorian (monthOf tm) ∧
      (Fixed (clamped gregorian tms (monthOf tm)) → tm.mday - 1 = clamped gregorian tms (monthOf tm)) := hday
    have hlen : mdays gregorian tm.mon (tm.year + 1900) = monthLength gregorian (monthOf tm) := rfl
    have hvalid : tm.Valid :=
      { sec := by omega
        min := ⟨hmin.1, hmin.2.1⟩
        hour := ⟨hhour.1, hhour.2.1⟩
        mon := ⟨hmonth.2.1, hmonth.2.2.1⟩
        mday := by omega }
    refine ⟨hvalid, hwhole, hmin.2.2, hhour.2.2, fun hfixed => ?_, hmonth.2.2.2⟩
    have hsame := hday.2.2 ((clamped_fixed gregorian hspec hmonth).mpr hfixed)
    rw [clamped, if_pos hfixed] at hsame
    omega

/-- With the rule of the calendar, the cascade gives the next time of the specification. -/
theorem nexttimeBy_gregorian (hspec : tms.Ranged) (hwday : tms.wday = -1) (hvalid : tm.Valid) :
    ∃ next, nexttimeBy gregorian tm tms = some next ∧ tms.NextDue tm next := by
  have hfree : ¬Fixed tms.wday := not_not.mpr hwday.symm
  have hsec := hvalid.sec
  have hday := hvalid.mday
  unfold nexttimeBy
  rw [if_neg (fun h => hfree h.1)]
  simp only [if_neg hfree]
  refine ⟨_, rfl, ?_⟩
  generalize hstart : ({ tm with sec := if 0 = tm.sec then 1 else tm.sec, mday := tm.mday - 1 } : Tm) = start
  have hpos : 0 < start.sec := by
    rw [← hstart]
    dsimp only
    split <;> omega
  have hmon : 0 ≤ start.mon ∧ start.mon < 12 := by
    rw [← hstart]
    exact hvalid.mon
  have hmday : 0 ≤ start.mday ∧ start.mday < monthLength gregorian (monthOf start) := by
    rw [← hstart]
    change 0 ≤ tm.mday - 1 ∧ tm.mday - 1 < mdays gregorian tm.mon (tm.year + 1900)
    omega
  have hhour : 0 ≤ start.hour ∧ start.hour < 24 := by
    rw [← hstart]
    exact hvalid.hour
  have hmin : 0 ≤ start.min ∧ start.min < 60 := by
    rw [← hstart]
    exact hvalid.min
  have hnext := nextmtime_next gregorian hspec hmon hmday hhour hmin hpos
  have hminute : toLex (toLex (toLex (monthOf start, start.mday), start.hour), start.min) = tm.minute := by
    rw [← hstart]
    rfl
  rw [hminute] at hnext
  have hwhole : (nextmtime gregorian start tms).sec = 0 := (nextmtime_untouched gregorian).1
  generalize nextmtime gregorian start tms = reached at hnext hwhole ⊢
  generalize hresult : ({ reached with mday := reached.mday + 1 } : Tm) = result
  have hplace : result.minute =
      toLex (toLex (toLex (monthOf reached, reached.mday), reached.hour), reached.min) := by
    rw [← hresult, Tm.minute, add_sub_cancel_right]
    rfl
  have hwhole : result.sec = 0 := by
    rw [← hresult]
    exact hwhole
  rw [← hplace] at hnext
  constructor
  · exact (allows_iff hspec hwhole).mpr hnext.1.1
  · exact (clock_lt_iff hsec.1 hwhole).mpr hnext.1.2
  · intro other hallowed hlater
    have hother := hallowed.2.1
    apply (clock_le_iff hwhole hother).mpr
    exact hnext.2 ⟨(allows_iff hspec hother).mp hallowed, (clock_lt_iff hsec.1 hother).mp hlater⟩

end Calendar

end Aug.Util
