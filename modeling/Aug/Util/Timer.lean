import Aug.Sys.Time
import Mathlib.Data.List.Basic

/-!
# Timers

The timer list of `timer.c` as a system: `aug_processexpired` is cut at its callbacks, in which any
timer may be set, reset or cancelled. A clock that fails gives no reading.
-/

namespace Aug.Util

open Aug.Sys

/-- A timer with its callback. -/
structure Timer (C : Type) where
  id : ℤ
  ms : ℕ
  tv : Timeval
  cb : C
deriving DecidableEq, Repr

/-- What the clock may return. -/
abbrev Reading := { tv : Timeval // tv.Normal }

/-- Where `aug_processexpired` is: not called, in the callback of a timer that it has removed from the
list, or in front of the test for the next timer. The time is the one it started at. -/
inductive Process (C : Type)
  | idle
  | callback (now : Timeval) (it : Timer C)
  | loop (now : Timeval)
deriving DecidableEq, Repr

/-- The timers with the counter of `aug_nextid` and the last time to the next expiry. -/
structure Timers (C : Type) where
  list : List (Timer C)
  counter : ℤ
  process : Process C
  next : Timeval
deriving DecidableEq, Repr

/-- A call, the return from a callback with the period that it leaves, or the next round of the loop. -/
inductive TimerAction (C : Type)
  | nextid
  | settimer (id : ℤ) (ms : ℕ) (cb : C) (reading : Option Reading) (created : Bool)
  | resettimer (id : ℤ) (ms : ℕ) (reading : Option Reading)
  | canceltimer (id : ℤ)
  | processexpired (force : Bool) (reading : Option Reading)
  | return' (ms : ℕ) (reading : Option Reading)
  | expire

namespace Timers

variable {C : Type}

/-- `aug_createtimers`. -/
def create : Timers C where
  list := []
  counter := 1
  process := .idle
  next := ⟨0, 0⟩

/-- `inserttimer_`. -/
def inserttimer (timer : Timer C) : List (Timer C) → List (Timer C)
  | [] => [timer]
  | it :: list => if timer.tv.lt it.tv then timer :: it :: list else it :: inserttimer timer list

/-- `setexpiry_`. -/
def setexpiry (reading : Option Reading) (ms : ℕ) : Option Timeval :=
  reading.map fun tv => tv.1.tvadd (.mstotv ms)

/-- `expired_`, with an epsilon of five thousand microseconds. -/
def expired (now tv : Timeval) : Bool := tv.lt (Timeval.tvadd ⟨0, 5000⟩ now)

/-- `aug_nextid`: the id, and the counter after it. -/
def nextid (counter : ℤ) : ℤ × ℤ :=
  if counter = 2147483647 then (2147483647, 1) else (counter, counter + 1)

/-- `aug_canceltimer`. -/
def canceltimer (id : ℤ) (timers : Timers C) : Timers C × ℤ :=
  match timers.list.find? (·.id == id) with
  | some _ => ({ timers with list := timers.list.eraseP (·.id == id) }, 0)
  | none => (timers, -1)

/-- `aug_settimer`. -/
def settimer (id : ℤ) (ms : ℕ) (cb : C) (reading : Option Reading) (created : Bool) (timers : Timers C) :
    Timers C × ℤ :=
  let (id, timers) :=
    if id ≤ 0 then ((nextid timers.counter).1, { timers with counter := (nextid timers.counter).2 })
    else (id, (timers.canceltimer id).1)
  match setexpiry reading ms, created with
  | some tv, true => ({ timers with list := inserttimer { id, ms, tv, cb } timers.list }, id)
  | _, _ => (timers, -1)

/-- `aug_resettimer`. -/
def resettimer (id : ℤ) (ms : ℕ) (reading : Option Reading) (timers : Timers C) : Timers C × ℤ :=
  match timers.list.find? (·.id == id) with
  | some it =>
    let rest := timers.list.eraseP (·.id == id)
    let ms := if ms = 0 then it.ms else ms
    match setexpiry reading ms with
    | some tv => ({ timers with list := inserttimer { it with ms, tv } rest }, 0)
    | none => ({ timers with list := rest }, -1)
  | none => (timers, -1)

/-- The test of the loop in `aug_processexpired`: remove the first timer if it has expired, or leave with
the time to its expiry. -/
def expire (now : Timeval) (timers : Timers C) : Timers C :=
  match timers.list with
  | [] => { timers with process := .idle, next := ⟨0, 0⟩ }
  | it :: list =>
    if expired now it.tv then { timers with list, process := .callback now it }
    else { timers with process := .idle, next := it.tv.tvsub now }

/-- The start of `aug_processexpired`. -/
def processexpired (force : Bool) (reading : Option Reading) (timers : Timers C) : Timers C :=
  match timers.list with
  | [] => { timers with next := ⟨0, 0⟩ }
  | it :: list =>
    match reading with
    | some now =>
      expire now.1 { timers with list := (if force then { it with tv := now.1 } else it) :: list }
    | none => timers

/-- What follows a callback in `aug_processexpired`: without a new expiry the timer is lost. -/
def reschedule (now : Timeval) (it : Timer C) (ms : ℕ) (reading : Option Reading) (timers : Timers C) :
    Timers C :=
  let timers := { timers with process := .loop now }
  if ms = 0 then timers
  else
    match setexpiry reading ms with
    | some tv => { timers with list := inserttimer { it with ms, tv } timers.list }
    | none => timers

/-- One action. Timers are set, reset and cancelled outside of `aug_processexpired` and in callbacks. -/
def step (timers : Timers C) : TimerAction C → Option (Timers C)
  | .nextid => some { timers with counter := (nextid timers.counter).2 }
  | .settimer id ms cb reading created =>
    match timers.process with
    | .loop _ => none
    | _ => some (timers.settimer id ms cb reading created).1
  | .resettimer id ms reading =>
    match timers.process with
    | .loop _ => none
    | _ => some (timers.resettimer id ms reading).1
  | .canceltimer id =>
    match timers.process with
    | .loop _ => none
    | _ => some (timers.canceltimer id).1
  | .processexpired force reading =>
    match timers.process with
    | .idle => some (timers.processexpired force reading)
    | _ => none
  | .return' ms reading =>
    match timers.process with
    | .callback now it => some (timers.reschedule now it ms reading)
    | _ => none
  | .expire =>
    match timers.process with
    | .loop now => some (timers.expire now)
    | _ => none

end Timers

end Aug.Util
