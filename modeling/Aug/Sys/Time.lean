import Aug.Lib.Machine

/-!
# Time values

The arithmetic of `time.c` on pairs of seconds and microseconds. A carry is made only above a million
microseconds, so that a sum may have a million of them.
-/

namespace Aug.Sys

/-- `struct aug_timeval`. -/
structure Timeval where
  sec : ℤ
  usec : ℤ
deriving DecidableEq, Repr

namespace Timeval

/-- `timercmp` with the less-than operator. -/
def lt (a b : Timeval) : Bool :=
  if a.sec = b.sec then a.usec < b.usec else a.sec < b.sec

/-- `aug_mstotv`. -/
def mstotv (ms : ℕ) : Timeval where
  sec := (ms / 1000 : ℕ)
  usec := ((ms % 1000) * 1000 : ℕ)

/-- `aug_tvadd`. -/
def tvadd (dst src : Timeval) : Timeval :=
  let sec := dst.sec + src.sec
  let usec := dst.usec + src.usec
  if 1000000 < usec then { sec := sec + 1, usec := usec - 1000000 } else { sec, usec }

/-- `aug_tvsub`. -/
def tvsub (dst src : Timeval) : Timeval :=
  if dst.lt src then { sec := 0, usec := 0 }
  else
    let sec := dst.sec - src.sec
    let usec := dst.usec - src.usec
    if usec < 0 then { sec := sec - 1, usec := usec + 1000000 } else { sec, usec }

/-- `aug_tvtoms`. -/
def tvtoms (tv : Timeval) : ℕ := Aug.Lib.u32 (tv.sec * 1000 + (tv.usec + 500).tdiv 1000)

/-- The time in microseconds. -/
def time (tv : Timeval) : ℤ := tv.sec * 1000000 + tv.usec

/-- The microseconds are at most a full second. -/
def Normal (tv : Timeval) : Prop := 0 ≤ tv.usec ∧ tv.usec ≤ 1000000

/-- What is not less comes no earlier in the order of `timercmp`. -/
theorem not_lt_trans {a b c : Timeval} (hba : b.lt a = false) (hcb : c.lt b = false) : c.lt a = false := by
  simp only [lt] at hba hcb ⊢
  split_ifs at hba hcb ⊢ <;> simp only [decide_eq_false_iff_not] at hba hcb ⊢ <;> omega

theorem not_lt_of_lt {a b : Timeval} (h : a.lt b = true) : b.lt a = false := by
  simp only [lt] at h ⊢
  split_ifs at h ⊢ <;> simp only [decide_eq_true_eq, decide_eq_false_iff_not] at h ⊢ <;> omega

/-- The order of `timercmp` is the order of time. -/
theorem time_le {a b : Timeval} (ha : a.Normal) (hb : b.Normal) (h : b.lt a = false) : a.time ≤ b.time := by
  obtain ⟨-, ha⟩ := ha
  obtain ⟨hb, -⟩ := hb
  simp only [lt] at h
  unfold time
  split_ifs at h <;> simp only [decide_eq_false_iff_not] at h <;> omega

/-- The sum is at the sum of the times. -/
theorem time_tvadd (dst src : Timeval) : (dst.tvadd src).time = dst.time + src.time := by
  simp only [tvadd, time]
  split_ifs <;> dsimp only <;> omega

/-- The one carry is enough. -/
theorem normal_tvadd {dst src : Timeval} (hdst : dst.Normal) (hsrc : src.Normal) :
    (dst.tvadd src).Normal := by
  unfold Normal at hdst hsrc
  simp only [tvadd, Normal]
  split_ifs <;> dsimp only <;> omega

/-- A difference is zero where the time is later, and exact elsewhere. -/
theorem time_tvsub {a b : Timeval} (ha : a.Normal) (hb : b.Normal) : (a.tvsub b).time = max 0 (a.time - b.time) := by
  cases hlt : a.lt b with
  | true =>
    have hle := time_le ha hb (not_lt_of_lt hlt)
    rw [tvsub, hlt, if_pos rfl, max_eq_left (by omega)]
    rfl
  | false =>
    have hle := time_le hb ha hlt
    rw [tvsub, hlt, if_neg Bool.false_ne_true, max_eq_right (by omega)]
    simp only [time]
    split_ifs <;> dsimp only <;> omega

theorem normal_tvsub {a b : Timeval} (ha : a.Normal) (hb : b.Normal) : (a.tvsub b).Normal := by
  unfold Normal at ha hb
  simp only [tvsub, Normal]
  split_ifs <;> dsimp only <;> omega

theorem normal_mstotv (ms : ℕ) : (mstotv ms).Normal := by
  simp only [Normal, mstotv]
  omega

theorem time_mstotv (ms : ℕ) : (mstotv ms).time = ms * 1000 := by
  simp only [time, mstotv]
  omega

end Timeval

end Aug.Sys
