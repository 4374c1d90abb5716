import Aug.Lib.Machine
import Mathlib.Data.List.Basic

/-!
# Time specifications

The next time of `tmspec.c` on broken-down times. The cascade is written for any rule of leap years; the
program uses the rule `isleap`.
-/

namespace Aug.Util

/-- The fields of a `struct tm` that are set or looked at. -/
structure Tm where
  sec : ℤ
  min : ℤ
  hour : ℤ
  mday : ℤ
  mon : ℤ
  year : ℤ
  wday : ℤ
  isdst : ℤ
deriving DecidableEq, Repr

/-- `struct aug_tmspec`; a component of `-1` is not fixed. -/
structure TmSpec where
  min : ℤ
  hour : ℤ
  mday : ℤ
  mon : ℤ
  wday : ℤ
deriving DecidableEq, Repr

/-- `FIXED_`. -/
def Fixed (x : ℤ) : Prop := -1 ≠ x

instance (x : ℤ) : Decidable (Fixed x) := inferInstanceAs (Decidable (_ ≠ _))

/-- `MDAYS_`, for a month within the year. -/
def monthDays (mon : ℤ) : ℤ := [31, 28, 31, 30, 31, 30, 31, 31, 30, 31, 30, 31].getD mon.toNat 0

/-- `isleap_`. -/
def isleap (year : ℤ) : Bool := year.tmod 4 ≠ 0 ∧ (0 ≠ year.tmod 100 ∨ 0 = year.tmod 400)

section Month

variable (leap : ℤ → Bool)

/-- `mdays_`. -/
def mdays (mon year : ℤ) : ℤ := if 1 = mon ∧ leap year then 29 else monthDays mon

/-- `mday_`. -/
def mday (tm : Tm) : ℤ :=
  let last := mdays leap tm.mon (tm.year + 1900) - 1
  if last < tm.mday then last else tm.mday

/-- `nextmon_`. -/
def nextmon (tm : Tm) (tms : TmSpec) : Tm :=
  if Fixed tms.mon then { tm with year := tm.year + 1 }
  else
    let tm := { tm with mon := (tm.mon + 1).tmod 12 }
    if 0 = tm.mon then { tm with year := tm.year + 1 } else tm

/-- `nextmday_`. -/
def nextmday (tm : Tm) (tms : TmSpec) : Tm :=
  if Fixed tms.mday then nextmon tm tms
  else
    let n := mdays leap tm.mon (tm.year + 1900)
    let tm := { tm with mday := (tm.mday + 1).tmod n }
    if 0 = tm.mday then nextmon tm tms else tm

/-- `nextmhour_`. -/
def nextmhour (tm : Tm) (tms : TmSpec) : Tm :=
  if Fixed tms.hour then nextmday leap tm tms
  else
    let tm := { tm with hour := (tm.hour + 1).tmod 24 }
    if 0 = tm.hour then nextmday leap tm tms else tm

/-- `nextmmin_`. -/
def nextmmin (tm : Tm) (tms : TmSpec) : Tm :=
  if Fixed tms.min then nextmhour leap tm tms
  else
    let tm := { tm with min := (tm.min + 1).tmod 60 }
    if 0 = tm.min then nextmhour leap tm tms else tm

/-- The part of `nextmtime_` from the seconds on. -/
def fromsec (tm : Tm) (tms : TmSpec) (out : Tm) : Tm :=
  if out.sec < tm.sec then nextmmin leap out tms else out

/-- The part of `nextmtime_` from the minutes on. -/
def frommin (tm : Tm) (tms : TmSpec) (out : Tm) : Tm :=
  if Fixed tms.min then
    if out.min ≠ tm.min then
      if out.min < tm.min then nextmhour leap out tms else out
    else fromsec leap tm tms out
  else fromsec leap tm tms { out with min := tm.min }

/-- The part of `nextmtime_` from the hours on. -/
def fromhour (tm : Tm) (tms : TmSpec) (out : Tm) : Tm :=
  if Fixed tms.hour then
    if out.hour ≠ tm.hour then
      if out.hour < tm.hour then nextmday leap out tms else out
    else frommin leap tm tms out
  else frommin leap tm tms { out with hour := tm.hour }

/-- The part of `nextmtime_` from the day of the month on. -/
def frommday (tm : Tm) (tms : TmSpec) (out : Tm) : Tm :=
  if Fixed tms.mday then
    let mday := mday leap out
    if mday ≠ tm.mday then
      if mday < tm.mday then nextmon out tms else out
    else fromhour leap tm tms out
  else fromhour leap tm tms { out with mday := tm.mday }

/-- The part of `nextmtime_` from the month on. -/
def frommon (tm : Tm) (tms : TmSpec) (out : Tm) : Tm :=
  if Fixed tms.mon then
    if out.mon ≠ tm.mon then
      if out.mon < tm.mon then { out with year := out.year + 1 } else out
    else frommday leap tm tms out
  else frommday leap tm tms { out with mon := tm.mon }

/-- The fixed components and the year, with zero for the others. -/
def defaults (tm : Tm) (tms : TmSpec) : Tm where
  sec := 0
  min := if Fixed tms.min then tms.min else 0
  hour := if Fixed tms.hour then tms.hour else 0
  mday := if Fixed tms.mday then tms.mday else 0
  mon := if Fixed tms.mon then tms.mon else 0
  year := tm.year
  wday := 0
  isdst := -1

/-- `nextmtime_`. -/
def nextmtime (tm : Tm) (tms : TmSpec) : Tm :=
  let out := frommon leap tm tms (defaults tm tms)
  { out with mday := mday leap out }

end Month

section Week

/-- `nextwday_`. -/
def nextwday (tm : Tm) (tms : TmSpec) : Tm :=
  { tm with mday := tm.mday + if Fixed tms.wday then 7 else 1 }

/-- `nextwhour_`. -/
def nextwhour (tm : Tm) (tms : TmSpec) : Tm :=
  if Fixed tms.hour then nextwday tm tms
  else
    let tm := { tm with hour := (tm.hour + 1).tmod 24 }
    if 0 = tm.hour then nextwday tm tms else tm

/-- `nextwmin_`. -/
def nextwmin (tm : Tm) (tms : TmSpec) : Tm :=
  if Fixed tms.min then nextwhour tm tms
  else
    let tm := { tm with min := (tm.min + 1).tmod 60 }
    if 0 = tm.min then nextwhour tm tms else tm

/-- `nextwtime_`. -/
def nextwtime (tm : Tm) (tms : TmSpec) : Tm :=
  let out : Tm :=
    { defaults tm tms with mday := tm.mday, mon := tm.mon }
  let wdays := if Fixed tms.wday then (7 + tms.wday - tm.wday).tmod 7 else 0
  if wdays ≠ 0 then { out with mday := out.mday + wdays }
  else if Fixed tms.hour ∧ out.hour ≠ tm.hour then
    if out.hour < tm.hour then nextwday out tms else out
  else
    let out := { out with hour := tm.hour }
    if Fixed tms.min ∧ out.min ≠ tm.min then
      if out.min < tm.min then nextwhour out tms else out
    else
      let out := { out with min := tm.min }
      if out.sec < tm.sec then nextwmin out tms else out

end Week

/-- `aug_nexttime` with a rule of leap years. -/
def nexttimeBy (leap : ℤ → Bool) (tm : Tm) (tms : TmSpec) : Option Tm :=
  if Fixed tms.wday ∧ (Fixed tms.mday ∨ Fixed tms.mon) then none
  else
    let tm := { tm with sec := if 0 = tm.sec then 1 else tm.sec, mday := tm.mday - 1 }
    let tm := if Fixed tms.wday then nextwtime tm tms else nextmtime leap tm tms
    some { tm with mday := tm.mday + 1 }

/-- `aug_nexttime`. -/
def nexttime (tm : Tm) (tms : TmSpec) : Option Tm := nexttimeBy isleap tm tms

section Parse

/-- The loop of `aug_strtmspec`. A number that is no `int` is undefined, and so is the result of `none`;
a character without a meaning gives a null pointer. -/
def scantmspec (tms : TmSpec) (x : ℤ) : List UInt8 → Option (Option TmSpec)
  | [] => some (some tms)
  | ch :: s =>
    if 48 ≤ ch ∧ ch ≤ 57 then
      if x * 10 + (ch.toNat - 48) < 2 ^ 31 then scantmspec tms (x * 10 + (ch.toNat - 48)) s else none
    else if ch = 72 then scantmspec { tms with hour := x } 0 s
    else if ch = 77 then scantmspec { tms with min := x } 0 s
    else if ch = 100 then scantmspec { tms with mday := x } 0 s
    else if ch = 109 then scantmspec { tms with mon := x } 0 s
    else if ch = 119 then scantmspec { tms with wday := x } 0 s
    else some none

/-- The conversion of a component that counts from one, where it is fixed. -/
def zerobased (x : ℤ) : Option ℤ := if x = -1 then some x else if x = 0 then none else some (x - 1)

/-- What `aug_strtmspec` does with the components it has read. -/
def checktmspec (tms : TmSpec) : Option TmSpec := do
  let mday ← zerobased tms.mday
  let mon ← zerobased tms.mon
  let wday := if 7 = tms.wday then 0 else tms.wday
  if tms.min < 60 ∧ tms.hour < 24 ∧ mday < 31 ∧ mon < 12 ∧ wday < 7 then
    return { tms with mday, mon, wday }
  else none

/-- `aug_strtmspec`. -/
def strtmspec (s : List UInt8) : Option (Option TmSpec) :=
  (scantmspec { min := -1, hour := -1, mday := -1, mon := -1, wday := -1 } 0 s).map (·.bind checktmspec)

end Parse

end Aug.Util
