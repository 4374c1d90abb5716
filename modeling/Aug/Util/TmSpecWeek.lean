import Aug.Util.TmSpecNext

/-!
# The next time of a weekly specification

Days are counted through, so that those of one weekday are seven apart. The cascade of `nextwtime` counts days
on from the current month, and the result is put into a month by carrying its days once.
-/

namespace Aug.Util

open Aug.Lib

section Counting

variable {α : Type*} [LinearOrder α] {S : Set α} {a up : α} {n x v : ℤ}

/-- A component goes on by one where it is free, and carries at its limit and where it is fixed. -/
theorem isNext_counter (hfits : ComponentFits n x) (hv : v ∈ Component n x) (ha : a ∈ S) (hup : IsNext S a up) :
    IsNext (allowedPairs S fun _ => Component n x) (toLex (a, v))
      (if Fixed x ∨ v + 1 = n then toLex (up, first x) else toLex (a, v + 1)) := by
  obtain ⟨hlow, hhigh, hsame⟩ := hv
  split_ifs with hcarry
  · have hlast : Fixed x ∧ x ≤ v ∨ n ≤ v + 1 := hcarry.imp (fun hfixed => ⟨hfixed, (hsame hfixed).ge⟩) Eq.ge
    exact isNext_wrap (n := fun _ => n) (x := fun _ => x) hfits hup hlast
  · obtain ⟨hfree, hne⟩ := not_or.mp hcarry
    exact isNext_step (n := fun _ => n) (x := fun _ => x) ha hfree hlow (by omega)

end Counting

section Week

variable (tms : TmSpec)

/-- A weekly specification whose fixed components are in their ranges. -/
structure TmSpec.Weekly (tms : TmSpec) : Prop where
  wday : 0 ≤ tms.wday ∧ tms.wday < 7
  min : ComponentFits 60 tms.min
  hour : ComponentFits 24 tms.hour
  mday : tms.mday = -1
  mon : tms.mon = -1

/-- The days of a specification, where day zero is a Monday. -/
def weekdays : Set ℤ := {day | (day + 1) % 7 = tms.wday}

/-- The hours of a weekly specification. -/
def weekHours : Set (ℤ ×ₗ ℤ) := allowedPairs (weekdays tms) fun _ => Component 24 tms.hour

/-- The minutes of a weekly specification. -/
def weekMinutes : Set ((ℤ ×ₗ ℤ) ×ₗ ℤ) := allowedPairs (weekHours tms) fun _ => Component 60 tms.min

/-- The day and the hour of a time whose month starts with a day. -/
def weekHourOf (start : ℤ) (tm : Tm) : ℤ ×ₗ ℤ := toLex (start + tm.mday, tm.hour)

/-- The day, the hour and the minute of a time whose month starts with a day. -/
def weekMinuteOf (start : ℤ) (tm : Tm) : (ℤ ×ₗ ℤ) ×ₗ ℤ := toLex (weekHourOf start tm, tm.min)

variable {tms : TmSpec} {start : ℤ} {out tm : Tm}

theorem mem_weekdays {day : ℤ} : day ∈ weekdays tms ↔ (day + 1) % 7 = tms.wday := Iff.rfl

/-- The weekday of a weekly specification is fixed. -/
theorem TmSpec.Weekly.fixed (hspec : tms.Weekly) : Fixed tms.wday := by
  have hwday := hspec.wday
  unfold Fixed
  omega

/-- `nextwday` gives the next day of the week. -/
theorem nextwday_next (hspec : tms.Weekly) (hmem : start + out.mday ∈ weekdays tms) :
    IsNext (weekdays tms) (start + out.mday) (start + (nextwday out tms).mday) := by
  have hnext : (nextwday out tms).mday = out.mday + 7 := by rw [nextwday, if_pos hspec.fixed]
  rw [mem_weekdays] at hmem
  rw [hnext]
  constructor
  · exact ⟨mem_weekdays.mpr (by omega), by omega⟩
  · intro day hday
    have hlater : start + out.mday < day := hday.2
    have hday := mem_weekdays.mp hday.1
    omega

/-- `nextwhour` gives the next hour. -/
theorem nextwhour_next (hspec : tms.Weekly) (hmem : weekHourOf start out ∈ weekHours tms) :
    IsNext (weekHours tms) (weekHourOf start out) (weekHourOf start (nextwhour out tms)) := by
  have hday : start + out.mday ∈ weekdays tms := hmem.1
  have hvalue : out.hour ∈ Component 24 tms.hour := hmem.2
  have ⟨hlow, hhigh, hsame⟩ := hvalue
  have hnext := isNext_counter hspec.hour hvalue hday (nextwday_next hspec hday)
  unfold nextwhour
  by_cases hfixed : Fixed tms.hour
  · have hfirst : first tms.hour = out.hour := by rw [first, if_pos hfixed, hsame hfixed]
    rw [if_pos (.inl hfixed), hfirst] at hnext
    rw [if_pos hfixed]
    exact hnext
  · simp only [if_neg hfixed, tmod_succ hlow hhigh]
    by_cases hlast : out.hour + 1 = 24
    · rw [if_pos (.inr hlast), first, if_neg hfixed] at hnext
      simp only [if_pos hlast, if_true]
      exact hnext
    · rw [if_neg (not_or.mpr ⟨hfixed, hlast⟩)] at hnext
      have hzero : (0 : ℤ) ≠ out.hour + 1 := by omega
      simp only [if_neg hlast, if_neg hzero]
      exact hnext

/-- `nextwhour` leaves the minute. -/
theorem nextwhour_rest : (nextwhour out tms).min = out.min := by
  unfold nextwhour
  dsimp only
  split_ifs <;> rfl

/-- `nextwmin` gives the next minute. -/
theorem nextwmin_next (hspec : tms.Weekly) (hmem : weekMinuteOf start out ∈ weekMinutes tms) :
    IsNext (weekMinutes tms) (weekMinuteOf start out) (weekMinuteOf start (nextwmin out tms)) := by
  have hhour : weekHourOf start out ∈ weekHours tms := hmem.1
  have hvalue : out.min ∈ Component 60 tms.min := hmem.2
  have ⟨hlow, hhigh, hsame⟩ := hvalue
  unfold nextwmin
  by_cases hfixed : Fixed tms.min
  · have hnext := isNext_counter hspec.min hvalue hhour (nextwhour_next hspec hhour)
    have hfirst : first tms.min = (nextwhour out tms).min := by
      rw [first, if_pos hfixed, nextwhour_rest, hsame hfixed]
    rw [if_pos (.inl hfixed), hfirst] at hnext
    rw [if_pos hfixed]
    exact hnext
  · have hup : IsNext (weekHours tms) (weekHourOf start out) (weekHourOf start (nextwhour { out with min := 0 } tms)) :=
      nextwhour_next hspec hhour
    have hnext := isNext_counter hspec.min hvalue hhour hup
    simp only [if_neg hfixed, tmod_succ hlow hhigh]
    by_cases hlast : out.min + 1 = 60
    · have hfirst : first tms.min = (nextwhour { out with min := 0 } tms).min := by
        rw [first, if_neg hfixed, nextwhour_rest]
      rw [if_pos (.inr hlast), hfirst] at hnext
      simp only [if_pos hlast, if_true]
      exact hnext
    · rw [if_neg (not_or.mpr ⟨hfixed, hlast⟩)] at hnext
      have hzero : (0 : ℤ) ≠ out.min + 1 := by omega
      simp only [if_neg hlast, if_neg hzero]
      exact hnext

/-- From the minutes on, the cascade gives the next time after the current minute of an hour that the
specification allows. -/
theorem fromwmin_next (hspec : tms.Weekly) (hmin : 0 ≤ tm.min ∧ tm.min < 60) (hpos : 0 < tm.sec)
    (hsec : out.sec = 0) (hfirst : out.min = first tms.min) (hmem : weekHourOf start out ∈ weekHours tms) :
    IsNext (weekMinutes tms) (toLex (weekHourOf start out, tm.min)) (weekMinuteOf start
      (if Fixed tms.min ∧ out.min ≠ tm.min then if out.min < tm.min then nextwhour out tms else out
      else if out.sec < tm.sec then nextwmin { out with min := tm.min } tms else { out with min := tm.min })) := by
  by_cases hfixed : Fixed tms.min ∧ out.min ≠ tm.min
  · have hvalue : out.min = tms.min := by rw [hfirst, first, if_pos hfixed.1]
    rw [if_pos hfixed]
    by_cases hlt : out.min < tm.min
    · have hup := isNext_wrap (n := fun _ => 60) (x := fun _ => tms.min) (v := tm.min) hspec.min
        (nextwhour_next hspec hmem) (.inl ⟨hfixed.1, by omega⟩)
      have hcarried : first tms.min = (nextwhour out tms).min := by rw [nextwhour_rest, hfirst]
      rw [hcarried] at hup
      rw [if_pos hlt]
      exact hup
    · have hne := hfixed.2
      have hup := isNext_fixed (n := fun _ => 60) (x := fun _ => tms.min) (v := tm.min) hmem hspec.min hfixed.1
        (by omega)
      rw [← hfirst] at hup
      rw [if_neg hlt]
      exact hup
  · have hvalue : tm.min ∈ Component 60 tms.min := by
      refine ⟨hmin.1, hmin.2, fun hx => ?_⟩
      by_contra hne
      apply hfixed
      rw [hfirst, first, if_pos hx]
      exact ⟨hx, Ne.symm hne⟩
    have hminute : weekMinuteOf start { out with min := tm.min } ∈ weekMinutes tms := ⟨hmem, hvalue⟩
    rw [if_neg hfixed, if_pos (by rw [hsec]; exact hpos)]
    exact nextwmin_next hspec hminute

/-- What follows a day or an hour that the specification does not allow begins with the first minute. -/
theorem isNext_weekHour (hspec : tms.Weekly) {hour : ℤ ×ₗ ℤ} {min : ℤ} (hskip : hour ∉ weekHours tms)
    (hup : IsNext (weekHours tms) hour (weekHourOf start out)) (hfirst : out.min = first tms.min) :
    IsNext (weekMinutes tms) (toLex (hour, min)) (weekMinuteOf start out) := by
  have hnext := isNext_skip (n := fun _ => 60) (x := fun _ => tms.min) (v := min) hspec.min hskip hup
  rwa [← hfirst] at hnext

/-- The first day of the specification from a day on that is none of it. -/
theorem isNext_weekday (hspec : tms.Weekly) {day wday : ℤ} (hwday : wday = (day + 1) % 7)
    (hne : (7 + tms.wday - wday).tmod 7 ≠ 0) :
    day ∉ weekdays tms ∧ IsNext (weekdays tms) day (day + (7 + tms.wday - wday).tmod 7) := by
  have hrange := hspec.wday
  have htmod : (7 + tms.wday - wday).tmod 7 = (7 + tms.wday - wday) % 7 := Int.tmod_eq_emod_of_nonneg (by omega)
  rw [htmod] at hne ⊢
  rw [mem_weekdays]
  refine ⟨by omega, ⟨mem_weekdays.mpr (by omega), by omega⟩, ?_⟩
  intro other hother
  have hlater : day < other := hother.2
  have hday := mem_weekdays.mp hother.1
  omega

/-- `nextwtime` gives the next time. -/
theorem nextwtime_next (hspec : tms.Weekly) (hhour : 0 ≤ tm.hour ∧ tm.hour < 24) (hmin : 0 ≤ tm.min ∧ tm.min < 60)
    (hpos : 0 < tm.sec) (hwday : tm.wday = (start + tm.mday + 1) % 7) :
    IsNext (weekMinutes tms) (toLex (toLex (start + tm.mday, tm.hour), tm.min))
      (weekMinuteOf start (nextwtime tm tms)) := by
  generalize hout : ({ defaults tm tms with mday := tm.mday, mon := tm.mon } : Tm) = out
  have hsec : out.sec = 0 := by rw [← hout]; rfl
  have hday : out.mday = tm.mday := by rw [← hout]
  have houthour : out.hour = first tms.hour := by rw [← hout]; rfl
  have houtmin : out.min = first tms.min := by rw [← hout]; rfl
  unfold nextwtime
  rw [hout]
  dsimp only
  rw [if_pos hspec.fixed]
  by_cases hwdays : (7 + tms.wday - tm.wday).tmod 7 ≠ 0
  · obtain ⟨hskip, hnext⟩ := isNext_weekday hspec hwday hwdays
    have hhours := isNext_skip (n := fun _ => 24) (x := fun _ => tms.hour) (v := tm.hour) hspec.hour hskip hnext
    rw [← houthour, add_assoc, ← hday] at hhours
    rw [if_pos hwdays, ← hday]
    exact isNext_weekHour hspec (fun hmem => hskip (hday ▸ hmem.1)) hhours houtmin
  · have hmem : start + out.mday ∈ weekdays tms := by
      have hrange := hspec.wday
      have htmod : (7 + tms.wday - tm.wday).tmod 7 = (7 + tms.wday - tm.wday) % 7 :=
        Int.tmod_eq_emod_of_nonneg (by omega)
      rw [mem_weekdays, hday]
      omega
    rw [if_neg hwdays, ← hday]
    by_cases hfixed : Fixed tms.hour ∧ out.hour ≠ tm.hour
    · have hvalue : out.hour = tms.hour := by rw [houthour, first, if_pos hfixed.1]
      have hskip : toLex (start + out.mday, tm.hour) ∉ weekHours tms := by
        rintro ⟨-, hcomponent⟩
        exact hfixed.2 (hvalue.trans (hcomponent.2.2 hfixed.1).symm)
      rw [if_pos hfixed]
      by_cases hlt : out.hour < tm.hour
      · have hup := isNext_wrap (n := fun _ => 24) (x := fun _ => tms.hour) (v := tm.hour) hspec.hour
          (nextwday_next hspec hmem) (.inl ⟨hfixed.1, by omega⟩)
        rw [← houthour] at hup
        rw [if_pos hlt]
        exact isNext_weekHour hspec hskip hup houtmin
      · have hne := hfixed.2
        have hup := isNext_fixed (n := fun _ => 24) (x := fun _ => tms.hour) (v := tm.hour) hmem hspec.hour hfixed.1
          (by omega)
        rw [← houthour] at hup
        rw [if_neg hlt]
        exact isNext_weekHour hspec hskip hup houtmin
    · have hvalue : tm.hour ∈ Component 24 tms.hour := by
        refine ⟨hhour.1, hhour.2, fun hx => ?_⟩
        by_contra hne
        apply hfixed
        rw [houthour, first, if_pos hx]
        exact ⟨hx, Ne.symm hne⟩
      have hstarts : weekHourOf start { out with hour := tm.hour } ∈ weekHours tms := ⟨hmem, hvalue⟩
      rw [if_neg hfixed]
      have hnext := fromwmin_next hspec hmin hpos (by exact hsec) (by exact houtmin) hstarts
      dsimp only at hnext
      exact hnext

/-- What the cascade leaves, and how far the days go. -/
structure Within (out next : Tm) : Prop where
  mon : next.mon = out.mon
  year : next.year = out.year
  sec : next.sec = out.sec
  low : out.mday ≤ next.mday
  high : next.mday ≤ out.mday + 7

theorem Within.refl (out : Tm) : Within out out := ⟨rfl, rfl, rfl, le_rfl, by omega⟩

theorem nextwday_within (hspec : tms.Weekly) (out : Tm) : Within out (nextwday out tms) := by
  rw [nextwday, if_pos hspec.fixed]
  exact ⟨rfl, rfl, rfl, by dsimp only; omega, le_rfl⟩

theorem nextwhour_within (hspec : tms.Weekly) (out : Tm) : Within out (nextwhour out tms) := by
  have hday := nextwday_within hspec out
  unfold nextwhour
  dsimp only
  split_ifs
  · exact hday
  · exact ⟨hday.mon, hday.year, hday.sec, hday.low, hday.high⟩
  · exact ⟨rfl, rfl, rfl, le_rfl, by dsimp only; omega⟩

theorem nextwmin_within (hspec : tms.Weekly) (out : Tm) : Within out (nextwmin out tms) := by
  unfold nextwmin
  dsimp only
  split_ifs
  · exact nextwhour_within hspec out
  · have hhour := nextwhour_within hspec { out with min := (out.min + 1).tmod 60 }
    exact ⟨hhour.mon, hhour.year, hhour.sec, hhour.low, hhour.high⟩
  · exact ⟨rfl, rfl, rfl, le_rfl, by dsimp only; omega⟩

/-- The next time is in the same month, with the seconds at zero, while its days are counted on. -/
theorem nextwtime_within (hspec : tms.Weekly) (hwday : tm.wday = (start + tm.mday + 1) % 7) :
    Within { tm with sec := 0 } (nextwtime tm tms) := by
  have htmod : (7 + tms.wday - tm.wday).tmod 7 = (7 + tms.wday - tm.wday) % 7 := by
    have hrange := hspec.wday
    exact Int.tmod_eq_emod_of_nonneg (by omega)
  have hfrom : ∀ {out next : Tm}, Within out next → out.mon = tm.mon → out.year = tm.year → out.sec = 0 →
      out.mday = tm.mday → Within { tm with sec := 0 } next := by
    intro out next h hmon hyear hsec hday
    exact ⟨h.mon.trans hmon, h.year.trans hyear, h.sec.trans hsec, hday ▸ h.low, hday ▸ h.high⟩
  unfold nextwtime
  rw [if_pos hspec.fixed]
  dsimp only
  split_ifs
  · exact ⟨rfl, rfl, rfl, by dsimp only; omega, by dsimp only; omega⟩
  · exact hfrom (nextwday_within hspec _) rfl rfl rfl rfl
  · exact hfrom (.refl _) rfl rfl rfl rfl
  · exact hfrom (nextwhour_within hspec _) rfl rfl rfl rfl
  · exact hfrom (.refl _) rfl rfl rfl rfl
  · exact hfrom (nextwmin_within hspec _) rfl rfl rfl rfl
  · exact hfrom (.refl _) rfl rfl rfl rfl

end Week

section Calendar

/-- The days from the first day of the year one to the first day of a year. -/
def yearStart (year : ℤ) : ℤ := (year - 1) * 365 + (year - 1) / 4 - (year - 1) / 100 + (year - 1) / 400

/-- The days from the first day of a year to the first day of a month. -/
def monthStart (mon year : ℤ) : ℤ := ((List.range mon.toNat).map fun m : ℕ => mdays gregorian m year).sum

/-- The number of a day, where the days of the month may be counted beyond it. -/
def Tm.day (tm : Tm) : ℤ := yearStart (tm.year + 1900) + monthStart tm.mon (tm.year + 1900) + (tm.mday - 1)

/-- The day of the week. The first day of the year one is a Monday. -/
def Tm.weekday (tm : Tm) : ℤ := (tm.day + 1) % 7

/-- The first of January 1970 is a Thursday. -/
example : Tm.weekday ⟨0, 0, 0, 1, 0, 70, 0, 0⟩ = 4 := by decide

/-- The place of a time in the order of times. -/
def Tm.instant (tm : Tm) : ((ℤ ×ₗ ℤ) ×ₗ ℤ) ×ₗ ℤ := toLex (toLex (toLex (tm.day, tm.hour), tm.min), tm.sec)

/-- A time with its day of the month inside of the month. -/
structure Tm.Normalises (tm next : Tm) : Prop where
  valid : next.Valid
  day : next.day = tm.day
  hour : next.hour = tm.hour
  min : next.min = tm.min
  sec : next.sec = tm.sec

/-- A valid whole minute on the weekday and with the fixed components of a specification. -/
structure TmSpec.AllowsWeekly (tms : TmSpec) (tm : Tm) : Prop where
  valid : tm.Valid
  sec : tm.sec = 0
  wday : tm.weekday = tms.wday
  hour : Fixed tms.hour → tm.hour = tms.hour
  min : Fixed tms.min → tm.min = tms.min

/-- The least such minute after a time. -/
structure TmSpec.NextWeekly (tms : TmSpec) (tm next : Tm) : Prop where
  allowed : tms.AllowsWeekly next
  later : tm.instant < next.instant
  least : ∀ other, tms.AllowsWeekly other → tm.instant < other.instant → next.instant ≤ other.instant

/-- Carry the days of a month into the next one. -/
def Tm.carry (tm : Tm) : Tm :=
  let days := mdays gregorian tm.mon (tm.year + 1900)
  if tm.mday ≤ days then tm
  else if tm.mon = 11 then { tm with mday := tm.mday - days, mon := 0, year := tm.year + 1 }
  else { tm with mday := tm.mday - days, mon := tm.mon + 1 }

theorem monthStart_succ {mon : ℤ} (year : ℤ) (hmon : 0 ≤ mon) :
    monthStart (mon + 1) year = monthStart mon year + mdays gregorian mon year := by
  have hnat : (mon + 1).toNat = mon.toNat + 1 := by omega
  have hcast : ((mon.toNat : ℕ) : ℤ) = mon := Int.toNat_of_nonneg hmon
  rw [monthStart, monthStart, hnat, List.range_succ, List.map_append, List.sum_append, List.map_singleton,
    List.sum_singleton, hcast]

/-- A year has 365 days, or one more. -/
theorem monthStart_year (year : ℤ) : monthStart 12 year = if gregorian year then 366 else 365 := by
  have hdays : ∀ mon, mdays gregorian mon year = if 1 = mon ∧ gregorian year then 29 else monthDays mon := fun _ => rfl
  unfold monthStart
  simp only [hdays]
  cases gregorian year <;> rfl

theorem yearStart_succ (year : ℤ) : yearStart (year + 1) = yearStart year + monthStart 12 year := by
  rw [monthStart_year]
  unfold yearStart gregorian
  split_ifs with hleap
  · rw [decide_eq_true_iff] at hleap
    omega
  · rw [decide_eq_true_iff] at hleap
    omega

/-- Carrying leaves the day what it is. -/
theorem day_carry {tm : Tm} (hmon : 0 ≤ tm.mon) : tm.carry.day = tm.day := by
  unfold Tm.carry
  dsimp only
  split_ifs with hin hlast
  · rfl
  · have hyear := yearStart_succ (tm.year + 1900)
    have hmonth := @monthStart_succ 11 (tm.year + 1900) (by decide)
    have hzero : monthStart 0 (tm.year + 1 + 1900) = 0 := rfl
    have hnext : tm.year + 1 + 1900 = tm.year + 1900 + 1 := by omega
    unfold Tm.day
    dsimp only
    rw [hzero, hnext, hyear, hlast]
    have hsucc : (11 : ℤ) + 1 = 12 := rfl
    rw [hsucc] at hmonth
    omega
  · have hmonth := monthStart_succ (tm.year + 1900) hmon
    unfold Tm.day
    dsimp only
    rw [hmonth]
    omega

/-- A time whose days go on for less than a month after its own is put into the next one. -/
theorem carry_normalises {tm : Tm} (hsec : tm.sec = 0) (hmin : 0 ≤ tm.min ∧ tm.min < 60)
    (hhour : 0 ≤ tm.hour ∧ tm.hour < 24) (hmon : 0 ≤ tm.mon ∧ tm.mon < 12)
    (hmday : 1 ≤ tm.mday ∧ tm.mday ≤ mdays gregorian tm.mon (tm.year + 1900) + 28) : tm.Normalises tm.carry := by
  have hrest : tm.carry.hour = tm.hour ∧ tm.carry.min = tm.min ∧ tm.carry.sec = tm.sec := by
    unfold Tm.carry
    dsimp only
    split_ifs <;> exact ⟨rfl, rfl, rfl⟩
  have hmonth : (0 ≤ tm.carry.mon ∧ tm.carry.mon < 12) ∧
      1 ≤ tm.carry.mday ∧ tm.carry.mday ≤ mdays gregorian tm.carry.mon (tm.carry.year + 1900) := by
    unfold Tm.carry
    dsimp only
    split_ifs with hin hlast
    · exact ⟨hmon, hmday.1, hin⟩
    · have hbounds := @mdays_bounds gregorian 0 (tm.year + 1 + 1900) le_rfl (by decide)
      dsimp only
      exact ⟨by decide, by omega, by omega⟩
    · have hbounds := @mdays_bounds gregorian (tm.mon + 1) (tm.year + 1900) (by omega) (by omega)
      dsimp only
      exact ⟨by omega, by omega, by omega⟩
  refine ⟨?_, day_carry hmon.1, hrest.1, hrest.2.1, hrest.2.2⟩
  exact {
    sec := by rw [hrest.2.2, hsec]; exact ⟨le_rfl, by decide⟩
    min := by rwa [hrest.2.1]
    hour := by rwa [hrest.1]
    mon := hmonth.1
    mday := hmonth.2 }

variable {tms : TmSpec} {tm next : Tm}

/-- A whole minute is after a time if it is after its minute. -/
theorem instant_lt_iff {other : Tm} (hsec : 0 ≤ tm.sec) (hwhole : other.sec = 0) : tm.instant < other.instant ↔
    toLex (toLex (tm.day, tm.hour), tm.min) < toLex (toLex (other.day, other.hour), other.min) := by
  simp only [Tm.instant, Prod.Lex.toLex_lt_toLex, EmbeddingLike.apply_eq_iff_eq, Prod.mk.injEq]
  omega

/-- Whole minutes are ordered as minutes. -/
theorem instant_le_iff {other : Tm} (hwhole : tm.sec = 0) (hother : other.sec = 0) : tm.instant ≤ other.instant ↔
    toLex (toLex (tm.day, tm.hour), tm.min) ≤ toLex (toLex (other.day, other.hour), other.min) := by
  simp only [Tm.instant, Prod.Lex.toLex_le_toLex, Prod.Lex.toLex_lt_toLex, EmbeddingLike.apply_eq_iff_eq,
    Prod.mk.injEq]
  omega

/-- A minute that a specification allows is one of its minutes. -/
theorem TmSpec.AllowsWeekly.mem (h : tms.AllowsWeekly tm) :
    toLex (toLex (tm.day, tm.hour), tm.min) ∈ weekMinutes tms :=
  ⟨⟨mem_weekdays.mpr h.wday, h.valid.hour.1, h.valid.hour.2, h.hour⟩, h.valid.min.1, h.valid.min.2, h.min⟩

/-- A weekly specification gives the next time on its weekday, once the day of the month is normalised. -/
theorem nexttime_weekly (hspec : tms.Weekly) (hvalid : tm.Valid) (hwday : tm.wday = tm.weekday) :
    ∃ result, nexttime tm tms = some result ∧ (∃ next, result.Normalises next) ∧
      ∀ next, result.Normalises next → tms.NextWeekly tm next := by
  have hsec := hvalid.sec
  have hday := hvalid.mday
  have hnone : ¬(Fixed tms.mday ∨ Fixed tms.mon) :=
    not_or.mpr ⟨not_not.mpr hspec.mday.symm, not_not.mpr hspec.mon.symm⟩
  generalize hmonth : yearStart (tm.year + 1900) + monthStart tm.mon (tm.year + 1900) = start
  generalize hzero : ({ tm with sec := if 0 = tm.sec then 1 else tm.sec, mday := tm.mday - 1 } : Tm) = zero
  have hpos : 0 < zero.sec := by
    rw [← hzero]
    dsimp only
    split <;> omega
  have hplace : start + zero.mday = tm.day := by
    rw [← hzero, Tm.day, hmonth]
  have hwdayzero : zero.wday = (start + zero.mday + 1) % 7 := by
    rw [hplace, ← hzero]
    exact hwday
  have hhour : zero.hour = tm.hour := by rw [← hzero]
  have hmin : zero.min = tm.min := by rw [← hzero]
  have hnext := nextwtime_next hspec (hhour ▸ hvalid.hour) (hmin ▸ hvalid.min) hpos hwdayzero
  have hwithin := nextwtime_within hspec hwdayzero
  rw [hplace, hhour, hmin] at hnext
  generalize hresult : nextwtime zero tms = reached at hnext hwithin
  obtain ⟨hmon, hyear, hwhole, hlow, hhigh⟩ := hwithin
  have hmon : reached.mon = tm.mon := by rw [hmon, ← hzero]
  have hyear : reached.year = tm.year := by rw [hyear, ← hzero]
  have hmday : zero.mday = tm.mday - 1 := by rw [← hzero]
  have hreached : ({ reached with mday := reached.mday + 1 } : Tm).day = start + reached.mday := by
    rw [Tm.day]
    dsimp only
    rw [hmon, hyear, hmonth, add_sub_cancel_right]
  refine ⟨{ reached with mday := reached.mday + 1 }, ?_, ⟨_, carry_normalises hwhole ?_ ?_ ?_ ?_⟩, ?_⟩
  · rw [nexttime, nexttimeBy, if_neg (fun h => hnone h.2)]
    simp only [hzero, if_pos hspec.fixed, hresult]
  · exact ⟨hnext.1.1.2.1, hnext.1.1.2.2.1⟩
  · exact ⟨hnext.1.1.1.2.1, hnext.1.1.1.2.2.1⟩
  · dsimp only
    rw [hmon]
    exact hvalid.mon
  · dsimp only at hlow hhigh ⊢
    rw [hmon, hyear]
    omega
  · intro next hnorm
    have hall : next.sec = 0 := hnorm.sec.trans hwhole
    have hsame : toLex (toLex (next.day, next.hour), next.min) = weekMinuteOf start reached := by
      rw [hnorm.day, hnorm.hour, hnorm.min, hreached]
      rfl
    rw [← hsame] at hnext
    constructor
    · obtain ⟨⟨⟨hwday, hhours⟩, hmins⟩, _⟩ := hnext.1
      exact ⟨hnorm.valid, hall, hwday, hhours.2.2, hmins.2.2⟩
    · exact (instant_lt_iff hsec.1 hall).mpr hnext.1.2
    · intro other hother hlater
      apply (instant_le_iff hall hother.sec).mpr
      exact hnext.2 ⟨hother.mem, (instant_lt_iff hsec.1 hother.sec).mp hlater⟩

/-- The last evening of 2009, a Thursday. -/
def newYearsEve : Tm := ⟨10, 45, 23, 31, 11, 109, 4, 0⟩

/-- Half past any hour on a Sunday. -/
def sundays : TmSpec := ⟨30, -1, -1, -1, 0⟩

theorem nexttime_weekly_newYearsEve : nexttime newYearsEve sundays = some ⟨0, 30, 0, 34, 11, 109, 0, -1⟩ ∧
    ∀ next, Tm.Normalises ⟨0, 30, 0, 34, 11, 109, 0, -1⟩ next → sundays.NextWeekly newYearsEve next := by
  have hspec : sundays.Weekly := ⟨by decide, ⟨by decide, fun _ => by decide⟩, ⟨by decide, fun h => absurd rfl h⟩, rfl, rfl⟩
  have hvalid : newYearsEve.Valid := ⟨by decide, by decide, by decide, by decide, by decide⟩
  obtain ⟨result, hresult, -, hnext⟩ := nexttime_weekly hspec hvalid (by decide)
  have hvalue : nexttime newYearsEve sundays = some ⟨0, 30, 0, 34, 11, 109, 0, -1⟩ := by decide
  rw [hvalue] at hresult
  cases hresult
  exact ⟨hvalue, hnext⟩

end Calendar

end Aug.Util
