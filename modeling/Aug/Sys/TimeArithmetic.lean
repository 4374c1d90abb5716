import Aug.Sys.Time

/-!
# Exact time arithmetic

Results of `aug_tvadd` and `aug_tvsub` are passed to them again over the whole life of a server. They stay
normalised and exact, and `timercmp` puts them in the order of time, as long as no two times are added whose
microseconds are a whole second together, or whose seconds are too many for a `long`.
-/

namespace Aug.Sys

namespace Timeval

/-- A time that is not negative, with less than a second of microseconds and with seconds that fit a `long`. -/
structure Normalised (tv : Timeval) : Prop where
  sec : 0 ≤ tv.sec
  long : tv.sec < 2 ^ 63
  usec : 0 ≤ tv.usec
  second : tv.usec < 1000000

instance (tv : Timeval) : Decidable tv.Normalised :=
  decidable_of_iff ((0 ≤ tv.sec ∧ tv.sec < 2 ^ 63) ∧ 0 ≤ tv.usec ∧ tv.usec < 1000000)
    ⟨fun h => ⟨h.1.1, h.1.2, h.2.1, h.2.2⟩, fun h => ⟨⟨h.sec, h.long⟩, h.usec, h.second⟩⟩

/-- `aug_tvadd`, which is undefined where the seconds overflow. -/
def tvaddl (dst src : Timeval) : Option Timeval :=
  if dst.sec + src.sec < 2 ^ 63 ∧ (dst.tvadd src).sec < 2 ^ 63 then some (dst.tvadd src) else none

variable {a b c tv : Timeval}

/-- Normalised times are told apart by the time. -/
theorem Normalised.ext (ha : a.Normalised) (hb : b.Normalised) (h : a.time = b.time) : a = b := by
  obtain ⟨_, _, haf, hal⟩ := ha
  obtain ⟨_, _, hbf, hbl⟩ := hb
  unfold time at h
  have hsec : a.sec = b.sec := by omega
  have husec : a.usec = b.usec := by omega
  cases a
  cases b
  exact congrArg₂ Timeval.mk hsec husec

/-- `timercmp` compares the times. -/
theorem Normalised.lt_iff (ha : a.Normalised) (hb : b.Normalised) : a.lt b = true ↔ a.time < b.time := by
  obtain ⟨_, _, haf, hal⟩ := ha
  obtain ⟨_, _, hbf, hbl⟩ := hb
  unfold lt time
  split_ifs with hsec
  · rw [decide_eq_true_iff]
    omega
  · rw [decide_eq_true_iff]
    omega

/-- The microseconds of a sum are less than a second unless they were a second exactly. -/
theorem tvadd_second (ha : a.Normalised) (hb : b.Normalised) :
    (a.tvadd b).usec < 1000000 ↔ a.usec + b.usec ≠ 1000000 := by
  have hal := ha.second
  have hbl := hb.second
  unfold tvadd
  dsimp only
  split_ifs with hcarry
  · dsimp only
    omega
  · dsimp only
    omega

/-- An addition is defined and normalised unless the microseconds are a second exactly or the time is too
great. -/
theorem tvaddl_normalised_iff (ha : a.Normalised) (hb : b.Normalised) :
    (∃ tv, a.tvaddl b = some tv ∧ tv.Normalised) ↔
      a.usec + b.usec ≠ 1000000 ∧ a.time + b.time < 2 ^ 63 * 1000000 := by
  have htime := time_tvadd a b
  have husec := @normal_tvadd a b ⟨ha.usec, ha.second.le⟩ ⟨hb.usec, hb.second.le⟩
  have hsecond := tvadd_second ha hb
  have hsec : 0 ≤ a.sec + b.sec ∧ a.sec + b.sec ≤ (a.tvadd b).sec := by
    have haf := ha.sec
    have hbf := hb.sec
    unfold tvadd
    dsimp only
    split_ifs <;> dsimp only <;> omega
  constructor
  · rintro ⟨tv, htv, hnormal⟩
    unfold tvaddl at htv
    split_ifs at htv with hfits
    cases htv
    have hlong := hnormal.long
    have hless := hnormal.second
    unfold time at htime ⊢
    exact ⟨hsecond.mp hless, by omega⟩
  · rintro ⟨hne, hless⟩
    have hlt := hsecond.mpr hne
    have hlong : (a.tvadd b).sec < 2 ^ 63 := by
      obtain ⟨hfirst, _⟩ := husec
      unfold time at htime hless
      omega
    refine ⟨a.tvadd b, if_pos ⟨by omega, hlong⟩, ?_⟩
    exact ⟨by omega, hlong, husec.1, hlt⟩

/-- The result of an addition is at the sum of the times. -/
theorem time_tvaddl (h : a.tvaddl b = some tv) : tv.time = a.time + b.time := by
  unfold tvaddl at h
  split_ifs at h
  cases h
  exact time_tvadd a b

/-- A difference is zero where the time is later, and exact elsewhere. -/
theorem tvsub_spec (ha : a.Normalised) (hb : b.Normalised) :
    (a.tvsub b).Normalised ∧ (a.tvsub b).time = max 0 (a.time - b.time) := by
  have hlt := ha.lt_iff hb
  obtain ⟨haf, hal, hau, has⟩ := ha
  obtain ⟨hbf, hbl, hbu, hbs⟩ := hb
  unfold tvsub
  split_ifs with hless
  · have htime := hlt.mp hless
    rw [max_eq_left (by omega)]
    exact ⟨⟨le_rfl, by decide, le_rfl, by decide⟩, rfl⟩
  · have htime : b.time ≤ a.time := not_lt.mp fun h => hless (hlt.mpr h)
    rw [max_eq_right (by omega)]
    unfold time at htime ⊢
    dsimp only
    split_ifs with hborrow
    · dsimp only
      exact ⟨⟨by dsimp only; omega, by dsimp only; omega, by dsimp only; omega, by dsimp only; omega⟩, by omega⟩
    · dsimp only
      exact ⟨⟨by dsimp only; omega, by dsimp only; omega, by dsimp only; omega, by dsimp only; omega⟩, by omega⟩

/-- The milliseconds of an `unsigned` are a normalised time. -/
theorem normalised_mstotv {ms : ℕ} (h : ms < 2 ^ 32) : (mstotv ms).Normalised := by
  refine ⟨?_, ?_, ?_, ?_⟩ <;> unfold mstotv <;> dsimp only <;> omega

end Timeval

/-! ## Results passed on -/

/-- A time that is computed from other times. -/
inductive TimeSum
  | time (tv : { tv : Timeval // tv.Normalised })
  | mstotv (ms : { ms : ℕ // ms < 2 ^ 32 })
  | tvadd (dst src : TimeSum)
  | tvsub (dst src : TimeSum)

namespace TimeSum

/-- What the functions compute. -/
def eval : TimeSum → Option Timeval
  | time tv => some tv.1
  | mstotv ms => some (.mstotv ms.1)
  | tvadd dst src => do
    let dst ← dst.eval
    let src ← src.eval
    dst.tvaddl src
  | tvsub dst src => do
    let dst ← dst.eval
    let src ← src.eval
    pure (dst.tvsub src)

/-- The time in microseconds, where a difference is never negative. -/
def real : TimeSum → ℤ
  | time tv => tv.1.time
  | mstotv ms => ms.1 * 1000
  | tvadd dst src => dst.real + src.real
  | tvsub dst src => max 0 (dst.real - src.real)

/-- The result is normalised and exact, and `timercmp` compares it with any other time as time does. -/
def Exact (sum : TimeSum) : Prop :=
  ∃ tv, sum.eval = some tv ∧ tv.Normalised ∧ tv.time = sum.real ∧
    ∀ other : Timeval, other.Normalised →
      (tv.lt other = true ↔ tv.time < other.time) ∧ (other.lt tv = true ↔ other.time < tv.time)

/-- Every result on the way is exact, and what was added can be subtracted again. -/
def Faithful : TimeSum → Prop
  | time tv => Exact (time tv)
  | mstotv ms => Exact (mstotv ms)
  | tvadd dst src =>
    dst.Faithful ∧ src.Faithful ∧ Exact (tvadd dst src) ∧ (tvsub (tvadd dst src) src).eval = dst.eval
  | tvsub dst src => dst.Faithful ∧ src.Faithful ∧ Exact (tvsub dst src)

/-- No two times are added whose microseconds are a whole second, or whose seconds are too many. -/
def Carries : TimeSum → Prop
  | time _ | mstotv _ => True
  | tvadd dst src =>
    dst.Carries ∧ src.Carries ∧ ∀ a ∈ dst.eval, ∀ b ∈ src.eval,
      a.usec + b.usec ≠ 1000000 ∧ a.time + b.time < 2 ^ 63 * 1000000
  | tvsub dst src => dst.Carries ∧ src.Carries

variable {dst src sum : TimeSum} {a b tv : Timeval}

/-- A result that is normalised is compared as time is. -/
theorem exact_of_normalised (heval : sum.eval = some tv) (hnormal : tv.Normalised) (htime : tv.time = sum.real) :
    sum.Exact := by
  refine ⟨tv, heval, hnormal, htime, ?_⟩
  intro other hother
  exact ⟨hnormal.lt_iff hother, hother.lt_iff hnormal⟩

/-- A faithful sum is exact. -/
theorem Faithful.exact (h : sum.Faithful) : sum.Exact := by
  cases sum with
  | time tv => exact h
  | mstotv ms => exact h
  | tvadd dst src => exact h.2.2.1
  | tvsub dst src => exact h.2.2

theorem eval_tvadd (hdst : dst.eval = some a) (hsrc : src.eval = some b) : (tvadd dst src).eval = a.tvaddl b := by
  rw [eval, hdst, hsrc]
  rfl

theorem eval_tvsub (hdst : dst.eval = some a) (hsrc : src.eval = some b) :
    (tvsub dst src).eval = some (a.tvsub b) := by
  rw [eval, hdst, hsrc]
  rfl

/-- What was added can be subtracted again. -/
theorem tvsub_tvadd (hdst : dst.eval = some a) (hsrc : src.eval = some b) (ha : a.Normalised) (hb : b.Normalised)
    (hadd : a.tvaddl b = some tv) (htv : tv.Normalised) : (tvsub (tvadd dst src) src).eval = dst.eval := by
  have htime := Timeval.time_tvaddl hadd
  obtain ⟨hnormal, hsub⟩ := Timeval.tvsub_spec htv hb
  rw [eval_tvsub ((eval_tvadd hdst hsrc).trans hadd) hsrc, hdst]
  apply congrArg some
  apply hnormal.ext ha
  have hpos : 0 ≤ a.time := by
    have hsec := ha.sec
    have husec := ha.usec
    unfold Timeval.time
    omega
  rw [hsub, htime, add_sub_cancel_right, max_eq_right hpos]

/-- Every result on the way is exact if and only if no addition is one of the two kinds. -/
theorem faithful_iff_carries (sum : TimeSum) : sum.Faithful ↔ sum.Carries := by
  induction sum with
  | time tv =>
    exact ⟨fun _ => trivial, fun _ => exact_of_normalised rfl tv.2 rfl⟩
  | mstotv ms =>
    exact ⟨fun _ => trivial,
      fun _ => exact_of_normalised rfl (Timeval.normalised_mstotv ms.2) (Timeval.time_mstotv ms.1)⟩
  | tvadd dst src ihdst ihsrc =>
    constructor
    · rintro ⟨hdst, hsrc, ⟨tv, htv, hnormal, -, -⟩, -⟩
      refine ⟨ihdst.mp hdst, ihsrc.mp hsrc, ?_⟩
      intro a ha b hb
      obtain ⟨_, ha', hanormal, -, -⟩ := hdst.exact
      obtain ⟨_, hb', hbnormal, -, -⟩ := hsrc.exact
      cases ha'.symm.trans ha
      cases hb'.symm.trans hb
      exact (Timeval.tvaddl_normalised_iff hanormal hbnormal).mp ⟨tv, (eval_tvadd ha hb).symm.trans htv, hnormal⟩
    · rintro ⟨hdst, hsrc, hcarry⟩
      have hdst := ihdst.mpr hdst
      have hsrc := ihsrc.mpr hsrc
      obtain ⟨a, ha, hanormal, hatime, -⟩ := hdst.exact
      obtain ⟨b, hb, hbnormal, hbtime, -⟩ := hsrc.exact
      obtain ⟨tv, htv, hnormal⟩ := (Timeval.tvaddl_normalised_iff hanormal hbnormal).mpr (hcarry a ha b hb)
      refine ⟨hdst, hsrc, ?_, tvsub_tvadd ha hb hanormal hbnormal htv hnormal⟩
      apply exact_of_normalised ((eval_tvadd ha hb).trans htv) hnormal
      rw [Timeval.time_tvaddl htv, hatime, hbtime]
      rfl
  | tvsub dst src ihdst ihsrc =>
    constructor
    · rintro ⟨hdst, hsrc, -⟩
      exact ⟨ihdst.mp hdst, ihsrc.mp hsrc⟩
    · rintro ⟨hdst, hsrc⟩
      have hdst := ihdst.mpr hdst
      have hsrc := ihsrc.mpr hsrc
      obtain ⟨a, ha, hanormal, hatime, -⟩ := hdst.exact
      obtain ⟨b, hb, hbnormal, hbtime, -⟩ := hsrc.exact
      obtain ⟨hnormal, htime⟩ := Timeval.tvsub_spec hanormal hbnormal
      refine ⟨hdst, hsrc, exact_of_normalised (eval_tvsub ha hb) hnormal ?_⟩
      rw [htime, hatime, hbtime]
      rfl

/-- Half a second. -/
def half : TimeSum := .time ⟨⟨0, 500000⟩, by decide⟩

/-- Two halves are not carried into a second. -/
theorem half_tvadd_half : ¬∀ sum : TimeSum, sum.Faithful := by
  intro h
  obtain ⟨-, -, ⟨tv, htv, hnormal, -⟩, -⟩ := h (.tvadd half half)
  have hmillion : (tvadd half half).eval = some ⟨0, 1000000⟩ := by decide
  rw [hmillion] at htv
  cases htv
  exact absurd hnormal.second (by decide)

end TimeSum

end Aug.Sys
