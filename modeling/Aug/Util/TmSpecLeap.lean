import Aug.Util.TmSpecNext
import Mathlib.Tactic.SplitIfs

/-!
# The rule of leap years

The rule of the program has the years that are no multiple of four as leap years. It is wrong for every year
but the centuries that are no leap years, and the next time is wrong exactly if it depends on the length of
the February of such a year.
-/

namespace Aug.Util

section Rule

/-- The rule of the program is wrong for a year. -/
def Misjudged (year : ℤ) : Prop := ¬100 ∣ year ∨ 400 ∣ year

instance (year : ℤ) : Decidable (Misjudged year) := inferInstanceAs (Decidable (_ ∨ _))

/-- The two rules agree on the other years alone. -/
theorem isleap_eq_iff {year : ℤ} : isleap year = gregorian year ↔ ¬Misjudged year := by
  have hmod : ∀ {n : ℤ}, 0 = year.tmod n ↔ n ∣ year := eq_comm.trans (Int.dvd_iff_tmod_eq_zero ..).symm
  have hrule : isleap year = decide (¬4 ∣ year ∧ (¬100 ∣ year ∨ 400 ∣ year)) := by
    unfold isleap
    simp only [ne_eq, hmod, eq_comm (b := (0 : ℤ))]
  rw [hrule, gregorian, Misjudged, decide_eq_decide]
  omega

/-- After a year on which the rules agree, or after a leap year, comes one on which they do not. -/
theorem misjudged_succ {year : ℤ} (h : ¬Misjudged year ∨ gregorian year) : Misjudged (year + 1) := by
  unfold Misjudged gregorian at *
  rw [decide_eq_true_iff] at h
  omega

variable {mon year : ℤ}

/-- The rules agree on every month but February. -/
theorem mdays_agree (h : mon ≠ 1 ∨ ¬Misjudged year) : mdays isleap mon year = mdays gregorian mon year := by
  unfold mdays
  cases h with
  | inl hmon => rw [if_neg (fun hx => hmon hx.1.symm), if_neg (fun hx => hmon hx.1.symm)]
  | inr hyear => rw [isleap_eq_iff.mpr hyear]

/-- A February on which the rules do not agree has a day more in one of them. -/
theorem mdays_february (h : Misjudged year) :
    mdays isleap 1 year = 28 ∧ mdays gregorian 1 year = 29 ∧ gregorian year ∨
      mdays isleap 1 year = 29 ∧ mdays gregorian 1 year = 28 ∧ ¬gregorian year := by
  have hne : isleap year ≠ gregorian year := fun heq => isleap_eq_iff.mp heq h
  have hdays : monthDays 1 = 28 := rfl
  unfold mdays
  cases hrule : gregorian year <;> cases hours : isleap year <;> simp_all

/-- Nor is any other year a leap year. -/
theorem mdays_common (h : ¬Misjudged year) : mdays gregorian 1 year = 28 := by
  have hcommon : gregorian year = false := by
    unfold Misjudged at h
    rw [gregorian, decide_eq_false_iff_not]
    omega
  rw [mdays, hcommon]
  rfl

end Rule

section Hours

/-- The hour has no later minute that the specification allows. -/
def LastMinute (tm : Tm) (tms : TmSpec) : Prop :=
  Fixed tms.min ∧ tms.min ≤ tm.min ∨ ¬Fixed tms.min ∧ tm.min = 59

instance (tm : Tm) (tms : TmSpec) : Decidable (LastMinute tm tms) := inferInstanceAs (Decidable (_ ∨ _))

/-- The day has no later time that the specification allows. -/
def Passed (tm : Tm) (tms : TmSpec) : Prop :=
  Fixed tms.hour ∧ tms.hour < tm.hour ∨
    (Fixed tms.hour ∧ tms.hour = tm.hour ∨ ¬Fixed tms.hour ∧ tm.hour = 23) ∧ LastMinute tm tms

instance (tm : Tm) (tms : TmSpec) : Decidable (Passed tm tms) := inferInstanceAs (Decidable (_ ∨ _))

variable {tm : Tm} (tms : TmSpec)

/-- A time whose hour and minute are the first ones. -/
structure Begins (tms : TmSpec) (out : Tm) : Prop where
  sec : out.sec = 0
  min : out.min = first tms.min
  hour : out.hour = first tms.hour

/-- From the minutes on, the cascade stays in the hour if it has a later minute. -/
theorem frommin_cases (hmin : 0 ≤ tm.min ∧ tm.min < 60) (hpos : 0 < tm.sec) :
    ∃ m, ∀ (leap : ℤ → Bool) (out : Tm), out.sec = 0 → out.min = first tms.min → frommin leap tm tms out =
      if LastMinute tm tms then nextmhour leap out tms else { out with min := m } := by
  by_cases h : Fixed tms.min
  · have hiff : LastMinute tm tms ↔ tms.min ≤ tm.min := by simp [LastMinute, h]
    refine ⟨tms.min, fun leap out hsec hfirst => ?_⟩
    rw [first, if_pos h] at hfirst
    have hlater : out.sec < tm.sec := by omega
    have hstay : ({ out with min := tms.min } : Tm) = out := by rw [← hfirst]
    simp only [frommin, fromsec, nextmmin, if_pos h, if_pos hlater, hfirst, hstay, hiff]
    split_ifs <;> first | rfl | omega
  · have hiff : LastMinute tm tms ↔ tm.min = 59 := by simp [LastMinute, h]
    by_cases hlast : tm.min = 59
    · refine ⟨0, fun leap out hsec hfirst => ?_⟩
      rw [first, if_neg h] at hfirst
      have hlater : out.sec < tm.sec := by omega
      have hwrap : (0 : ℤ) = (59 + 1 : ℤ).tmod 60 := by decide
      have hback : ({ out with min := 0 } : Tm) = out := by rw [← hfirst]
      rw [if_pos (hiff.mpr hlast)]
      simp only [frommin, fromsec, nextmmin, if_neg h, if_pos hlater, hlast, if_true, ← hwrap, hback]
    · refine ⟨tm.min + 1, fun leap out hsec hfirst => ?_⟩
      have hlater : out.sec < tm.sec := by omega
      have hne : (0 : ℤ) ≠ tm.min + 1 := by omega
      have hnext : tm.min + 1 ≠ 60 := by omega
      rw [if_neg (fun hx => hlast (hiff.mp hx))]
      simp only [frommin, fromsec, nextmmin, if_neg h, if_pos hlater, tmod_succ hmin.1 hmin.2,
        if_neg hnext, if_neg hne]

/-- From the hours on, the cascade stays on the date if the time of the day has not passed. -/
theorem fromhour_cases (hhour : 0 ≤ tm.hour ∧ tm.hour < 24) (hmin : 0 ≤ tm.min ∧ tm.min < 60) (hpos : 0 < tm.sec) :
    ∃ h m, ∀ (leap : ℤ → Bool) (out : Tm), Begins tms out → fromhour leap tm tms out =
      if Passed tm tms then nextmday leap out tms else { out with hour := h, min := m } := by
  obtain ⟨m, hm⟩ := frommin_cases tms hmin hpos
  by_cases hfixed : Fixed tms.hour
  · by_cases hsame : tms.hour = tm.hour
    · have hiff : Passed tm tms ↔ LastMinute tm tms := by simp [Passed, hfixed, ← hsame]
      refine ⟨tms.hour, m, fun leap out hbegins => ?_⟩
      have hvalue := hbegins.hour
      rw [first, if_pos hfixed] at hvalue
      have hstay : ({ out with hour := tms.hour, min := m } : Tm) = { out with min := m } := by rw [← hvalue]
      have hne : ¬out.hour ≠ tm.hour := not_not.mpr (hvalue.trans hsame)
      simp only [fromhour, nextmhour, if_pos hfixed, if_neg hne, hm leap out hbegins.sec hbegins.min, hiff, hstay]
    · have hiff : Passed tm tms ↔ tms.hour < tm.hour := by simp [Passed, hfixed, hsame]
      refine ⟨tms.hour, first tms.min, fun leap out hbegins => ?_⟩
      have hvalue := hbegins.hour
      rw [first, if_pos hfixed] at hvalue
      have hstay : ({ out with hour := tms.hour, min := first tms.min } : Tm) = out := by
        rw [← hvalue, ← hbegins.min]
      simp only [fromhour, if_pos hfixed, hvalue, ne_eq, hsame, not_false_eq_true, if_true, hiff, hstay]
  · have hiff : Passed tm tms ↔ tm.hour = 23 ∧ LastMinute tm tms := by simp [Passed, hfixed]
    by_cases hlast : LastMinute tm tms
    · by_cases hday : tm.hour = 23
      · refine ⟨0, 0, fun leap out hbegins => ?_⟩
        have hvalue := hbegins.hour
        rw [first, if_neg hfixed] at hvalue
        have hwrap : (0 : ℤ) = (23 + 1 : ℤ).tmod 24 := by decide
        have hback : ({ out with hour := 0 } : Tm) = out := by rw [← hvalue]
        rw [if_pos (hiff.mpr ⟨hday, hlast⟩)]
        simp only [fromhour, nextmhour, if_neg hfixed, hday, hm leap { out with hour := 23 } hbegins.sec hbegins.min,
          if_pos hlast, ← hwrap, if_true, hback]
      · refine ⟨tm.hour + 1, first tms.min, fun leap out hbegins => ?_⟩
        have hne : (0 : ℤ) ≠ tm.hour + 1 := by omega
        have hnext : tm.hour + 1 ≠ 24 := by omega
        rw [if_neg (fun hx => hday (hiff.mp hx).1)]
        simp only [fromhour, nextmhour, if_neg hfixed, hm leap { out with hour := tm.hour } hbegins.sec hbegins.min,
          if_pos hlast, tmod_succ hhour.1 hhour.2, if_neg hnext, if_neg hne, ← hbegins.min]
    · refine ⟨tm.hour, m, fun leap out hbegins => ?_⟩
      rw [if_neg (fun hx => hlast (hiff.mp hx).2)]
      simp only [fromhour, if_neg hfixed, hm leap { out with hour := tm.hour } hbegins.sec hbegins.min,
        if_neg hlast]

end Hours

section Dates

/-- The next time depends on the length of the February of a misjudged year. -/
def Misled (tm : Tm) (tms : TmSpec) : Prop :=
  let year := tm.year + 1900
  if Fixed tms.mday then
    28 ≤ tms.mday ∧
      if tms.mon = 1 then
        tm.mon < 1 ∧ Misjudged year ∨ 1 < tm.mon ∧ Misjudged (year + 1) ∨
          tm.mon = 1 ∧ (Misjudged year ∨ tm.mday = 28 ∧ Passed tm tms)
      else
        ¬Fixed tms.mon ∧ Misjudged year ∧
          (tm.mon = 0 ∧ (tms.mday + 1 < tm.mday ∨ tm.mday = tms.mday + 1 ∧ Passed tm tms) ∨
            tm.mon = 1 ∧ ¬(tm.mday = 29 ∧ Passed tm tms))
  else
    (tms.mon = 1 ∨ ¬Fixed tms.mon) ∧ tm.mon = 1 ∧ Misjudged year ∧ (tm.mday = 29 ∨ tm.mday = 28 ∧ Passed tm tms)

instance (tm : Tm) (tms : TmSpec) : Decidable (Misled tm tms) :=
  inferInstanceAs (Decidable (if Fixed tms.mday then _ else _))

/-- A time whose day of the month is clamped. -/
def shown (leap : ℤ → Bool) (out : Tm) : Tm := { out with mday := mday leap out }

variable {tm out : Tm} {tms : TmSpec} {h m : ℤ}

/-- A late day of the February of a misjudged year is not shown the same. -/
theorem mday_eq_iff : mday isleap out = mday gregorian out ↔
    ¬(out.mon = 1 ∧ 28 ≤ out.mday ∧ Misjudged (out.year + 1900)) := by
  have hshape : ∀ leap : ℤ → Bool, mday leap out = min out.mday (mdays leap out.mon (out.year + 1900) - 1) :=
    fun leap => mday_eq leap out
  rw [hshape, hshape]
  by_cases hagree : out.mon ≠ 1 ∨ ¬Misjudged (out.year + 1900)
  · rw [mdays_agree hagree]
    exact iff_of_true rfl (fun hx => hagree.elim (fun hmon => hmon hx.1) (fun hyear => hyear hx.2.2))
  · have ⟨hmon, hyear⟩ := not_or.mp hagree
    have hmon := not_not.mp hmon
    have hyear := not_not.mp hyear
    rw [hmon]
    have hlens := mdays_february hyear
    simp only [hyear, and_true, true_and]
    omega

/-- Nor is the time. -/
theorem shown_eq_iff : shown isleap out = shown gregorian out ↔
    ¬(out.mon = 1 ∧ 28 ≤ out.mday ∧ Misjudged (out.year + 1900)) := by
  rw [← mday_eq_iff]
  constructor
  · exact congrArg Tm.mday
  · intro hsame
    rw [shown, shown, hsame]

/-- What the cascade does with a fixed day of the month. -/
theorem frommday_fixed {leap : ℤ → Bool} (hfixed : Fixed tms.mday)
    (hcases : fromhour leap tm tms out = if Passed tm tms then nextmday leap out tms else { out with hour := h, min := m }) :
    frommday leap tm tms out =
      if mday leap out < tm.mday ∨ mday leap out = tm.mday ∧ Passed tm tms then nextmon out tms
      else if mday leap out = tm.mday then { out with hour := h, min := m } else out := by
  have hnext : nextmday leap out tms = nextmon out tms := if_pos hfixed
  simp only [frommday, if_pos hfixed, hcases, hnext]
  split_ifs <;> first | rfl | omega | grind

/-- What the cascade does with a free one. -/
theorem frommday_free {leap : ℤ → Bool} (hfree : ¬Fixed tms.mday) :
    frommday leap tm tms out = fromhour leap tm tms { out with mday := tm.mday } := if_neg hfree

/-- The month after a time, and its year. -/
theorem nextmon_cases (tms : TmSpec) (hmon : 0 ≤ out.mon ∧ out.mon < 12) :
    Fixed tms.mon ∧ (nextmon out tms).mon = out.mon ∧ (nextmon out tms).year = out.year + 1 ∨
      ¬Fixed tms.mon ∧ out.mon + 1 < 12 ∧ (nextmon out tms).mon = out.mon + 1 ∧ (nextmon out tms).year = out.year ∨
      ¬Fixed tms.mon ∧ out.mon + 1 = 12 ∧ (nextmon out tms).mon = 0 ∧ (nextmon out tms).year = out.year + 1 := by
  unfold nextmon
  by_cases hfixed : Fixed tms.mon
  · rw [if_pos hfixed]
    exact .inl ⟨hfixed, rfl, rfl⟩
  · rw [if_neg hfixed]
    simp only [tmod_succ hmon.1 hmon.2]
    by_cases hlast : out.mon + 1 = 12
    · simp only [if_pos hlast, if_true]
      exact .inr (.inr ⟨hfixed, hlast, trivial, trivial⟩)
    · have hne : (0 : ℤ) ≠ out.mon + 1 := by omega
      simp only [if_neg hlast, if_neg hne]
      exact .inr (.inl ⟨hfixed, by omega, trivial, trivial⟩)

/-- The next month is not shown the same if it is a late day of the February of a misjudged year. -/
theorem nextmon_agree (hmon : 0 ≤ out.mon ∧ out.mon < 12) :
    shown isleap (nextmon out tms) = shown gregorian (nextmon out tms) ↔
      ¬(28 ≤ out.mday ∧ (Fixed tms.mon ∧ out.mon = 1 ∧ Misjudged (out.year + 1900 + 1) ∨
        ¬Fixed tms.mon ∧ out.mon = 0 ∧ Misjudged (out.year + 1900))) := by
  rw [shown_eq_iff, nextmon_rest.1]
  have hyear : out.year + 1 + 1900 = out.year + 1900 + 1 := by omega
  rcases nextmon_cases tms hmon with ⟨hfixed, hm, hy⟩ | ⟨hfree, hlt, hm, hy⟩ | ⟨hfree, hlast, hm, hy⟩
  · rw [hm, hy, hyear]
    simp only [hfixed, true_and, not_true_eq_false, false_and, or_false]
    tauto
  · have hiff : out.mon + 1 = 1 ↔ out.mon = 0 := by omega
    rw [hm, hy, hiff]
    simp only [hfree, false_and, not_false_eq_true, true_and, false_or]
    tauto
  · have hne : out.mon ≠ 0 := by omega
    rw [hm]
    simp only [hfree, hne, false_and, and_false, or_false, zero_ne_one]

/-- The next month is another one. -/
theorem nextmon_ne (tms : TmSpec) (hmon : 0 ≤ out.mon ∧ out.mon < 12) :
    ¬((nextmon out tms).mon = out.mon ∧ (nextmon out tms).year = out.year) := by
  have hcases := nextmon_cases tms hmon
  omega

section Fixed

variable (hfixed : Fixed tms.mday) (hday : out.mday = tms.mday) (hmon : 0 ≤ out.mon ∧ out.mon < 12)
  (htm : tm.mday < mdays gregorian out.mon (out.year + 1900))
  (hcases : ∀ leap, fromhour leap tm tms out =
    if Passed tm tms then nextmday leap out tms else { out with hour := h, min := m })

include hfixed hday hmon htm hcases

/-- The rules give different times if the month is the February of a misjudged year, unless it has passed. -/
theorem frommday_february (hfeb : out.mon = 1) (hlate : 28 ≤ tms.mday) (hyear : Misjudged (out.year + 1900)) :
    shown isleap (frommday isleap tm tms out) = shown gregorian (frommday gregorian tm tms out) ↔
      ¬Fixed tms.mon ∧ tm.mday = 28 ∧ Passed tm tms := by
  have hshape : ∀ leap : ℤ → Bool, mday leap out = min out.mday (mdays leap out.mon (out.year + 1900) - 1) :=
    fun leap => mday_eq leap out
  have hours := hshape isleap
  have htheirs := hshape gregorian
  rw [hfeb, hday] at hours htheirs
  rw [hfeb] at htm
  have hlens := mdays_february hyear
  rw [frommday_fixed hfixed (hcases _), frommday_fixed hfixed (hcases _)]
  by_cases hnow : tm.mday = 28 ∧ Passed tm tms
  · have hleap : gregorian (out.year + 1900) := by
      cases hlens with
      | inl hleap => exact hleap.2.2
      | inr hcommon => omega
    have hpast : mday isleap out < tm.mday ∧ mday gregorian out = tm.mday := by omega
    rw [if_pos (.inl hpast.1), if_pos (.inr ⟨hpast.2, hnow.2⟩), nextmon_agree hmon, hday]
    simp [hlate, hfeb, misjudged_succ (.inr hleap), hnow]
  · refine iff_of_false (fun heq => ?_) (fun hx => hnow hx.2)
    have hother := nextmon_ne tms hmon
    have hmday : mday isleap out ≠ mday gregorian out := by omega
    have hboth : ¬((mday isleap out < tm.mday ∨ mday isleap out = tm.mday ∧ Passed tm tms) ∧
        (mday gregorian out < tm.mday ∨ mday gregorian out = tm.mday ∧ Passed tm tms)) := by
      intro ⟨hours, htheirs⟩
      cases htheirs with
      | inl hlt => omega
      | inr hx => exact hnow ⟨by omega, hx.2⟩
    have hstay : ∀ {day : ℤ}, (if day = tm.mday then { out with hour := h, min := m } else out).mon = out.mon ∧
        (if day = tm.mday then { out with hour := h, min := m } else out).year = out.year := by
      intro day
      split <;> exact ⟨rfl, rfl⟩
    have hstays : ∀ {day : ℤ} {leap : ℤ → Bool},
        mday leap (if day = tm.mday then { out with hour := h, min := m } else out) = mday leap out := by
      intro day leap
      split <;> rfl
    have hmonth := congrArg Tm.mon heq
    have hyears := congrArg Tm.year heq
    have hdays := congrArg Tm.mday heq
    simp only [shown] at hmonth hyears hdays
    -- one of the two goes on to the next month, or both stay on different days
    by_cases hpast : mday isleap out < tm.mday ∨ mday isleap out = tm.mday ∧ Passed tm tms
    · rw [if_pos hpast, if_neg (fun hx => hboth ⟨hpast, hx⟩), hstay.1] at hmonth
      rw [if_pos hpast, if_neg (fun hx => hboth ⟨hpast, hx⟩), hstay.2] at hyears
      exact hother ⟨hmonth, hyears⟩
    · rw [if_neg hpast] at hmonth hyears hdays
      rw [hstay.1] at hmonth
      rw [hstay.2] at hyears
      rw [hstays] at hdays
      split at hmonth
      case isTrue hnext =>
        rw [if_pos hnext] at hyears
        exact hother ⟨hmonth.symm, hyears.symm⟩
      case isFalse hnext =>
        rw [if_neg hnext, hstays] at hdays
        exact hmday hdays

/-- With a fixed day of the month, the rules give the same time in the month of the current one unless the
February of a misjudged year matters. -/
theorem frommday_fixed_agree (hrange : tms.mday < 31) :
    shown isleap (frommday isleap tm tms out) = shown gregorian (frommday gregorian tm tms out) ↔
      ¬(28 ≤ tms.mday ∧
        (Fixed tms.mon ∧ out.mon = 1 ∧ (Misjudged (out.year + 1900) ∨ tm.mday = 27 ∧ Passed tm tms) ∨
          ¬Fixed tms.mon ∧ Misjudged (out.year + 1900) ∧
            (out.mon = 0 ∧ (tms.mday < tm.mday ∨ tm.mday = tms.mday ∧ Passed tm tms) ∨
              out.mon = 1 ∧ ¬(tm.mday = 28 ∧ Passed tm tms)))) := by
  by_cases hsame : out.mon = 1 ∧ 28 ≤ out.mday ∧ Misjudged (out.year + 1900)
  · have ⟨hfeb, hlate, hyear⟩ := hsame
    rw [hday] at hlate
    rw [frommday_february hfixed hday hmon htm hcases hfeb hlate hyear]
    simp [hlate, hfeb, hyear]
    tauto
  · have hshown : mday gregorian out = min out.mday (mdays gregorian out.mon (out.year + 1900) - 1) := mday_eq gregorian out
    have hfebruary : out.mon = 1 → 28 ≤ tms.mday → ¬Misjudged (out.year + 1900) ∧ mday gregorian out = 27 ∧ tm.mday ≤ 27 := by
      intro hfeb hlate
      have hyear : ¬Misjudged (out.year + 1900) := fun hx => hsame ⟨hfeb, by omega, hx⟩
      rw [hfeb, mdays_common hyear] at hshown htm
      exact ⟨hyear, by omega, by omega⟩
    have hjanuary : out.mon = 0 → mday gregorian out = tms.mday := by
      intro hjan
      have hlen : mdays gregorian 0 (out.year + 1900) = 31 := rfl
      rw [hjan, hlen] at hshown
      omega
    rw [frommday_fixed hfixed (hcases _), frommday_fixed hfixed (hcases _), mday_eq_iff.mpr hsame]
    by_cases hpast : mday gregorian out < tm.mday ∨ mday gregorian out = tm.mday ∧ Passed tm tms
    · rw [if_pos hpast, nextmon_agree hmon, hday]
      apply not_congr
      apply and_congr_right
      intro hlate
      by_cases hfeb : out.mon = 1
      · have ⟨hyear, hlast, hle⟩ := hfebruary hfeb hlate
        have hnow : tm.mday = 27 ∧ Passed tm tms := by
          cases hpast with
          | inl hlt => omega
          | inr hx => exact ⟨by omega, hx.2⟩
        simp [hfeb, hyear, hnow, misjudged_succ (.inl hyear)]
      · by_cases hjan : out.mon = 0
        · have hvalue := hjanuary hjan
          rw [hvalue, eq_comm (b := tm.mday)] at hpast
          have hnow : tms.mday < tm.mday ∨ tm.mday = tms.mday ∧ Passed tm tms := hpast
          simp [hjan, hnow]
        · simp [hfeb, hjan]
    · rw [if_neg hpast]
      have hequal : ∀ {next : Tm}, next.mon = out.mon → next.mday = out.mday → next.year = out.year →
          shown isleap next = shown gregorian next := by
        intro next hm hd hy
        rw [shown_eq_iff, hm, hd, hy]
        exact hsame
      refine iff_of_true (by split <;> exact hequal rfl rfl rfl) ?_
      intro ⟨hlate, hmisled⟩
      rcases hmisled with ⟨_, hfeb, hyear⟩ | ⟨_, hyear, hjan | hfeb⟩
      · have ⟨hcommon, hlast, _⟩ := hfebruary hfeb hlate
        cases hyear with
        | inl hx => exact hcommon hx
        | inr hx => exact hpast (.inr ⟨hlast.trans hx.1.symm, hx.2⟩)
      · rw [hjanuary hjan.1, eq_comm (b := tm.mday)] at hpast
        exact hpast hjan.2
      · exact (hfebruary hfeb.1 hlate).1 hyear

end Fixed

section Free

variable (hfree : ¬Fixed tms.mday) (hday : out.mday = tm.mday) (hmon : 0 ≤ out.mon ∧ out.mon < 12)
  (htm : 0 ≤ tm.mday ∧ tm.mday < mdays gregorian out.mon (out.year + 1900))

include hfree hday hmon htm

/-- The next days are the same unless they depend on the end of the February of a misjudged year. -/
theorem nextmday_agree : shown isleap (nextmday isleap out tms) = shown gregorian (nextmday gregorian out tms) ↔
    ¬(out.mon = 1 ∧ Misjudged (out.year + 1900) ∧ 27 ≤ tm.mday) := by
  have hform : ∀ (leap : ℤ → Bool) (day : ℤ), (tm.mday + 1).tmod (mdays leap out.mon (out.year + 1900)) = day →
      nextmday leap out tms =
        if 0 = day then nextmon { out with mday := day } tms else { out with mday := day } := by
    intro leap day hvalue
    simp only [nextmday, if_neg hfree, hday, hvalue]
  by_cases hagree : out.mon ≠ 1 ∨ ¬Misjudged (out.year + 1900)
  · refine iff_of_true ?_ (fun hx => hagree.elim (fun hne => hne hx.1) (fun hcommon => hcommon hx.2.1))
    have hsame := mdays_agree hagree
    rw [hform _ _ (congrArg _ hsame), hform _ _ rfl, shown_eq_iff]
    intro ⟨hfeb, hlate, hyear⟩
    split at hfeb
    case isTrue hzero =>
      rw [if_pos hzero, nextmon_rest.1] at hlate
      change 28 ≤ (tm.mday + 1).tmod _ at hlate
      omega
    case isFalse hzero =>
      rw [if_neg hzero] at hyear
      exact hagree.elim (fun hne => hne hfeb) (fun hcommon => hcommon hyear)
  · have hfeb := not_not.mp (not_or.mp hagree).1
    have hyear := not_not.mp (not_or.mp hagree).2
    have hlens := mdays_february hyear
    rw [← hfeb] at hlens
    have hnext : ∀ {a b : ℤ}, ¬(shown isleap (nextmon { out with mday := a } tms) = shown gregorian { out with mday := b }) ∧
        ¬(shown isleap { out with mday := b } = shown gregorian (nextmon { out with mday := a } tms)) := by
      intro a b
      have hne : ¬((nextmon { out with mday := a } tms).mon = out.mon ∧ (nextmon { out with mday := a } tms).year = out.year) :=
        nextmon_ne tms hmon
      constructor
      · intro heq
        have hmonth := congrArg Tm.mon heq
        have hyears := congrArg Tm.year heq
        exact hne ⟨hmonth, hyears⟩
      · intro heq
        have hmonth := congrArg Tm.mon heq
        have hyears := congrArg Tm.year heq
        exact hne ⟨hmonth.symm, hyears.symm⟩
    rw [iff_true_intro hfeb, iff_true_intro hyear, true_and, true_and, not_le]
    by_cases hearly : tm.mday < 27
    · refine iff_of_true ?_ hearly
      have hvalue : ∀ leap : ℤ → Bool, (tm.mday + 1).tmod (mdays leap out.mon (out.year + 1900)) = tm.mday + 1 := by
        intro leap
        have hlong := (mdays_bounds leap (out.year + 1900) hmon.1 hmon.2).1
        exact Int.tmod_eq_of_lt (by omega) (by omega)
      have hne : ¬0 = tm.mday + 1 := by omega
      rw [hform _ _ (hvalue _), hform _ _ (hvalue _), if_neg hne, shown_eq_iff]
      intro ⟨_, hlate, _⟩
      change 28 ≤ tm.mday + 1 at hlate
      omega
    · refine iff_of_false ?_ hearly
      rcases hlens with ⟨hours, htheirs, _⟩ | ⟨hours, htheirs, _⟩
      · by_cases hlast : tm.mday = 28
        · rw [hform _ 1 (by rw [hours, hlast]; decide), hform _ 0 (by rw [htheirs, hlast]; decide)]
          exact hnext.2
        · have hday : tm.mday = 27 := by omega
          rw [hform _ 0 (by rw [hours, hday]; decide), hform _ 28 (by rw [htheirs, hday]; decide)]
          exact hnext.1
      · have hday : tm.mday = 27 := by omega
        rw [hform _ 28 (by rw [hours, hday]; decide), hform _ 0 (by rw [htheirs, hday]; decide)]
        exact hnext.2

/-- With a free day of the month, the rules give the same time in the month of the current one unless it is at
the end of the February of a misjudged year. -/
theorem fromhour_free_agree
    (hcases : ∀ leap, fromhour leap tm tms out =
      if Passed tm tms then nextmday leap out tms else { out with hour := h, min := m }) :
    shown isleap (fromhour isleap tm tms out) = shown gregorian (fromhour gregorian tm tms out) ↔
      ¬(out.mon = 1 ∧ Misjudged (out.year + 1900) ∧ (tm.mday = 28 ∨ tm.mday = 27 ∧ Passed tm tms)) := by
  have hlens : out.mon = 1 → Misjudged (out.year + 1900) → tm.mday ≤ 28 := by
    intro hfeb hyear
    rw [hfeb] at htm
    have hlens := mdays_february hyear
    omega
  rw [hcases, hcases]
  by_cases hpast : Passed tm tms
  · rw [if_pos hpast, if_pos hpast, nextmday_agree hfree hday hmon htm]
    apply not_congr
    refine and_congr_right fun hfeb => and_congr_right fun hyear => ?_
    have hle := hlens hfeb hyear
    simp only [hpast, and_true]
    omega
  · rw [if_neg hpast, if_neg hpast, shown_eq_iff]
    change ¬(out.mon = 1 ∧ 28 ≤ out.mday ∧ Misjudged (out.year + 1900)) ↔ _
    apply not_congr
    refine and_congr_right fun hfeb => ?_
    rw [and_comm, hday]
    refine and_congr_right fun hyear => ?_
    have hle := hlens hfeb hyear
    simp only [hpast, and_false, or_false]
    omega

end Free

section Cascade

variable (hspec : tms.Ranged) (htmmon : 0 ≤ tm.mon ∧ tm.mon < 12)
  (htm : 0 ≤ tm.mday ∧ tm.mday < mdays gregorian tm.mon (tm.year + 1900))
  (hhour : 0 ≤ tm.hour ∧ tm.hour < 24) (hmin : 0 ≤ tm.min ∧ tm.min < 60) (hpos : 0 < tm.sec)

include hspec htmmon htm hhour hmin hpos

/-- In the month of the current time, the rules give the same time unless the February of a misjudged year
matters. -/
theorem frommday_agree (hbegins : Begins tms out) (hmon : out.mon = tm.mon) (hyear : out.year = tm.year)
    (hday : out.mday = first tms.mday) :
    shown isleap (frommday isleap tm tms out) = shown gregorian (frommday gregorian tm tms out) ↔
      ¬if Fixed tms.mday then
        28 ≤ tms.mday ∧
          (Fixed tms.mon ∧ tm.mon = 1 ∧ (Misjudged (tm.year + 1900) ∨ tm.mday = 27 ∧ Passed tm tms) ∨
            ¬Fixed tms.mon ∧ Misjudged (tm.year + 1900) ∧
              (tm.mon = 0 ∧ (tms.mday < tm.mday ∨ tm.mday = tms.mday ∧ Passed tm tms) ∨
                tm.mon = 1 ∧ ¬(tm.mday = 28 ∧ Passed tm tms)))
      else tm.mon = 1 ∧ Misjudged (tm.year + 1900) ∧ (tm.mday = 28 ∨ tm.mday = 27 ∧ Passed tm tms) := by
  obtain ⟨h, m, hcases⟩ := fromhour_cases tms hhour hmin hpos
  rw [← hmon] at htmmon
  rw [← hmon, ← hyear] at htm ⊢
  by_cases hfixed : Fixed tms.mday
  · have hvalue : out.mday = tms.mday := by rw [hday, first, if_pos hfixed]
    rw [if_pos hfixed]
    exact frommday_fixed_agree hfixed hvalue htmmon htm.2 (fun leap => hcases leap out hbegins) (hspec.mday.2 hfixed).2
  · rw [if_neg hfixed, frommday_free hfixed, frommday_free hfixed]
    have hstarts : Begins tms { out with mday := tm.mday } := ⟨hbegins.sec, hbegins.min, hbegins.hour⟩
    exact fromhour_free_agree hfixed rfl htmmon htm (fun leap => hcases leap _ hstarts)

/-- The rules give the same time unless it depends on the February of a misjudged year. -/
theorem nextmtime_agree : nextmtime isleap tm tms = nextmtime gregorian tm tms ↔
    ¬Misled { tm with mday := tm.mday + 1 } tms := by
  change shown isleap (frommon isleap tm tms (defaults tm tms)) =
    shown gregorian (frommon gregorian tm tms (defaults tm tms)) ↔ _
  have hpassed : Passed { tm with mday := tm.mday + 1 } tms ↔ Passed tm tms := Iff.rfl
  have hday29 : tm.mday + 1 = 29 ↔ tm.mday = 28 := by omega
  have hday28 : tm.mday + 1 = 28 ↔ tm.mday = 27 := by omega
  simp only [Misled, hpassed, hday29, hday28, add_lt_add_iff_right, add_left_inj]
  by_cases hfixed : Fixed tms.mon
  · have hmon : (defaults tm tms).mon = tms.mon := if_pos hfixed
    simp only [frommon, if_pos hfixed]
    by_cases hsame : tms.mon = tm.mon
    · have hne : ¬(defaults tm tms).mon ≠ tm.mon := not_not.mpr (hmon.trans hsame)
      simp only [if_neg hne]
      rw [frommday_agree hspec htmmon htm hhour hmin hpos ⟨rfl, rfl, rfl⟩ (hmon.trans hsame) rfl rfl]
      have hone : Fixed 1 := by decide
      apply not_congr
      by_cases hfeb : tm.mon = 1
      · simp [hsame, hfeb, hone]
      · simp [hsame, hfeb]
    · have hother : tms.mon = 1 → tm.mon ≠ 1 := fun hx hy => hsame (hx.trans hy.symm)
      have hne : tms.mon ≠ tm.mon := hsame
      simp only [hmon, if_pos hne]
      have hshown : ∀ {out : Tm}, out.mon = tms.mon → out.mday = first tms.mday →
          (shown isleap out = shown gregorian out ↔
            ¬(tms.mon = 1 ∧ (Fixed tms.mday ∧ 28 ≤ tms.mday) ∧ Misjudged (out.year + 1900))) := by
        intro out hm hd
        have hlate : 28 ≤ first tms.mday ↔ Fixed tms.mday ∧ 28 ≤ tms.mday := by
          unfold first
          split
          case isTrue h => simp [h]
          case isFalse h => simp [h]
        rw [shown_eq_iff, hm, hd, hlate]
      have hyear : tm.year + 1 + 1900 = tm.year + 1900 + 1 := by omega
      by_cases hfeb : tms.mon = 1
      · have hmonth := hother hfeb
        by_cases hlt : tms.mon < tm.mon
        · rw [if_pos hlt, hshown rfl rfl]
          rw [hfeb] at hlt
          have hnot : ¬tm.mon < 1 := by omega
          change ¬(_ ∧ _ ∧ Misjudged (tm.year + 1 + 1900)) ↔ _
          by_cases hx : Fixed tms.mday <;> simp [hfeb, hx, hmonth, hlt, hnot, hyear]
        · rw [if_neg hlt, hshown hmon rfl]
          rw [hfeb] at hlt
          have hnot : tm.mon < 1 := by omega
          change ¬(_ ∧ _ ∧ Misjudged (tm.year + 1900)) ↔ _
          by_cases hx : Fixed tms.mday <;> simp [hfeb, hx, hmonth, hlt, hnot]
      · refine iff_of_true ?_ (by simp [hfeb, hfixed])
        split
        · exact (hshown rfl rfl).mpr fun hx => hfeb hx.1
        · exact (hshown hmon rfl).mpr fun hx => hfeb hx.1
  · simp only [frommon, if_neg hfixed]
    have hbegins : Begins tms { defaults tm tms with mon := tm.mon } := ⟨rfl, rfl, rfl⟩
    rw [frommday_agree hspec htmmon htm hhour hmin hpos hbegins rfl rfl rfl]
    have hne : tms.mon ≠ 1 := fun heq => hfixed (by rw [heq]; decide)
    simp only [hfixed, hne, false_and, false_or, not_false_eq_true, true_and, if_false, or_true]

end Cascade

end Dates

section Accepted

/-- A component that has been read is a number, or it is not fixed. -/
def NumberOrFree (x : ℤ) : Prop := Fixed x → 0 ≤ x

/-- The components that the loop of `strtmspec` reads are numbers. -/
theorem scantmspec_read {s : List UInt8} {tms out : TmSpec} {x : ℤ} (hx : 0 ≤ x)
    (hread : NumberOrFree tms.min ∧ NumberOrFree tms.hour ∧ NumberOrFree tms.mday ∧ NumberOrFree tms.mon)
    (hscan : scantmspec tms x s = some (some out)) :
    NumberOrFree out.min ∧ NumberOrFree out.hour ∧ NumberOrFree out.mday ∧ NumberOrFree out.mon := by
  induction s generalizing tms x with
  | nil =>
    cases hscan
    exact hread
  | cons ch s ih =>
    have hnumber : NumberOrFree x := fun _ => hx
    have ⟨hmin, hhour, hmday, hmon⟩ := hread
    unfold scantmspec at hscan
    split_ifs at hscan with hdigit
    · have hvalue := UInt8.le_iff_toNat_le.mp hdigit.1
      change 48 ≤ ch.toNat at hvalue
      exact ih (by omega) hread hscan
    · apply ih le_rfl _ hscan
      exact ⟨hmin, hnumber, hmday, hmon⟩
    · apply ih le_rfl _ hscan
      exact ⟨hnumber, hhour, hmday, hmon⟩
    · apply ih le_rfl _ hscan
      exact ⟨hmin, hhour, hnumber, hmon⟩
    · apply ih le_rfl _ hscan
      exact ⟨hmin, hhour, hmday, hnumber⟩
    · apply ih le_rfl _ hscan
      exact hread
    · cases hscan

/-- The conversion of a component that has been read gives one. -/
theorem zerobased_read {x y : ℤ} (hread : NumberOrFree x) (hconv : zerobased x = some y) : NumberOrFree y := by
  unfold zerobased at hconv
  split_ifs at hconv with hfree hzero
  · cases hconv
    exact fun hfixed => absurd hfree.symm hfixed
  · cases hconv
    have := hread (fun hx => hfree hx.symm)
    intro _
    omega

/-- The fixed components of a specification that is accepted are in their ranges. -/
theorem strtmspec_ranged {s : List UInt8} {tms : TmSpec} (haccepted : strtmspec s = some (some tms)) : tms.Ranged := by
  unfold strtmspec at haccepted
  obtain ⟨result, hscan, hresult⟩ := Option.map_eq_some_iff.mp haccepted
  obtain ⟨out, rfl, hcheck⟩ := Option.bind_eq_some_iff.mp hresult
  have hunset : NumberOrFree (-1) := fun h => absurd rfl h
  have ⟨hmin, hhour, hmday, hmon⟩ := scantmspec_read le_rfl ⟨hunset, hunset, hunset, hunset⟩ hscan
  unfold checktmspec at hcheck
  obtain ⟨day, hday, hcheck⟩ := Option.bind_eq_some_iff.mp hcheck
  obtain ⟨month, hmonth, hcheck⟩ := Option.bind_eq_some_iff.mp hcheck
  have hday := zerobased_read hmday hday
  have hmonth := zerobased_read hmon hmonth
  have hranged : ∀ {wday : ℤ}, (if out.min < 60 ∧ out.hour < 24 ∧ day < 31 ∧ month < 12 ∧ wday < 7 then
      some { out with mday := day, mon := month, wday := wday } else none) = some tms → tms.Ranged := by
    intro wday hcheck
    split at hcheck
    case isTrue hrange =>
      cases hcheck
      exact ⟨⟨by decide, fun h => ⟨hmin h, hrange.1⟩⟩, ⟨by decide, fun h => ⟨hhour h, hrange.2.1⟩⟩,
        ⟨by decide, fun h => ⟨hday h, hrange.2.2.1⟩⟩, ⟨by decide, fun h => ⟨hmonth h, hrange.2.2.2.1⟩⟩⟩
    case isFalse => cases hcheck
  exact hranged hcheck

end Accepted

section Due

variable {s : List UInt8} {tms : TmSpec} {tm : Tm}

end Due

end Aug.Util
