import Mathlib.Data.UInt
import Mathlib.Logic.Function.Basic
import Mathlib.Tactic.IntervalCases

/-!
# The muxer

The muxer of `muxer.c` over `select`: the descriptors that are waited for, and those that the last wait
has left. The highest descriptor with an event is kept next to them, since a wait looks no further.
-/

namespace Aug.Sys

/-- `AUG_MDEVENTRD` to `AUG_MDEVENTALL`. -/
def mdeventrd : UInt16 := 1
def mdeventwr : UInt16 := 2
def mdeventex : UInt16 := 4
def mdeventrdwr : UInt16 := mdeventrd ||| mdeventwr
def mdeventall : UInt16 := mdeventrdwr ||| mdeventex

/-- `struct set_`. -/
structure FdSets where
  rd : ℕ → Bool
  wr : ℕ → Bool
  ex : ℕ → Bool

/-- `struct aug_muxer_`. -/
structure Muxer where
  in_ : FdSets
  out : FdSets
  maxfd : ℤ

/-- Why a mask is refused: `EMFILE` or `AUG_EINVAL`. -/
inductive MuxerError where
  | emfile
  | einval
deriving DecidableEq, Repr

namespace FdSets

/-- `zeroset_`. -/
def zero : FdSets := ⟨fun _ => false, fun _ => false, fun _ => false⟩

/-- `external_`. -/
def external (p : FdSets) (md : ℕ) : UInt16 :=
  (if p.rd md then mdeventrd else 0) ||| (if p.wr md then mdeventwr else 0) |||
    (if p.ex md then mdeventex else 0)

/-- One of the sets in `setmdevents_`. -/
def setevent (event set unset : UInt16) (fds : ℕ → Bool) (md : ℕ) : ℕ → Bool :=
  if set &&& event ≠ 0 then Function.update fds md true
  else if unset &&& event ≠ 0 then Function.update fds md false
  else fds

/-- `setmdevents_`. -/
def setmdevents (p : FdSets) (md : ℕ) (mask : UInt16) : FdSets :=
  let cur := p.external md
  let set := ~~~cur &&& mask
  let unset := cur &&& ~~~mask
  { rd := setevent mdeventrd set unset p.rd md
    wr := setevent mdeventwr set unset p.wr md
    ex := setevent mdeventex set unset p.ex md }

/-- Some event of the descriptor is in the sets. -/
def isset (p : FdSets) (md : ℕ) : Bool := p.rd md || p.wr md || p.ex md

/-- The scan down from a descriptor to one that has events, or below all of them. -/
def highest (p : FdSets) : ℕ → ℤ
  | 0 => if p.isset 0 then 0 else -1
  | md + 1 => if p.isset (md + 1) then md + 1 else p.highest md

end FdSets

namespace Muxer

/-- `aug_createmuxer`. -/
def create : Muxer := ⟨.zero, .zero, -1⟩

/-- `aug_setmdeventmask`, with `FD_SETSIZE` as given by the system. -/
def setmdeventmask (setsize : ℕ) (muxer : Muxer) (md : ℕ) (mask : UInt16) : Except MuxerError Muxer :=
  if setsize ≤ md then .error .emfile
  else if mask &&& ~~~mdeventall ≠ 0 then .error .einval
  else
    let in_ := muxer.in_.setmdevents md mask
    .ok { muxer with in_, maxfd := if muxer.maxfd ≤ md then in_.highest md else muxer.maxfd }

/-- `aug_waitmdevents_I`: the call to `select` leaves some sets, whether it fails or not. -/
def waitmdevents (muxer : Muxer) (out : FdSets) : Muxer := { muxer with out }

/-- `aug_getmdeventmask`. -/
def getmdeventmask (muxer : Muxer) (md : ℕ) : UInt16 := muxer.in_.external md

/-- `aug_getmdevents`. -/
def getmdevents (muxer : Muxer) (md : ℕ) : UInt16 := muxer.out.external md

end Muxer

section Events

/-- An event is in a mask if its bit is. -/
theorem and_event (mask : UInt16) {k : ℕ} (hk : k < 16) :
    mask &&& .ofNat (2 ^ k) ≠ 0 ↔ mask.toBitVec.getLsbD k := by
  have htwo : (UInt16.ofNat (2 ^ k)).toBitVec = BitVec.twoPow 16 k := by
    apply BitVec.eq_of_toNat_eq
    simp [BitVec.toNat_twoPow]
  have hpos : BitVec.twoPow 16 k ≠ 0#16 := by
    intro hzero
    have hbit := congrArg (·.getLsbD k) hzero
    simp [hk] at hbit
  rw [Ne, ← UInt16.toBitVec_inj, UInt16.toBitVec_and, htwo, BitVec.and_twoPow]
  split
  next hbit => simpa [hbit] using hpos
  next hbit => simp [hbit]

/-- A mask without other bits is what is kept of it. -/
theorem eq_and_of_and_not {mask keep : UInt16} (hmask : mask &&& ~~~keep = 0) : mask = mask &&& keep := by
  apply UInt16.toBitVec_inj.mp
  apply BitVec.eq_of_getLsbD_eq
  intro i hi
  have hbit := congrArg (·.toBitVec.getLsbD i) hmask
  simp only [UInt16.toBitVec_and, BitVec.getLsbD_and, UInt16.toBitVec_not, BitVec.getLsbD_not, hi] at hbit ⊢
  revert hbit
  cases mask.toBitVec.getLsbD i <;> cases keep.toBitVec.getLsbD i <;> simp

/-- A mask of events is put together from them. -/
theorem mask_of_events {mask : UInt16} (hmask : mask &&& ~~~mdeventall = 0) :
    (if mask &&& mdeventrd ≠ 0 then mdeventrd else 0) |||
      (if mask &&& mdeventwr ≠ 0 then mdeventwr else 0) |||
      (if mask &&& mdeventex ≠ 0 then mdeventex else 0) = mask := by
  have hsmall : mask.toNat < 2 ^ 3 := by
    rw [eq_and_of_and_not hmask, UInt16.toNat_and]
    exact Nat.and_lt_two_pow _ (by decide)
  obtain ⟨n, hn, rfl⟩ : ∃ n, n < 8 ∧ mask = UInt16.ofNat n := ⟨mask.toNat, hsmall, by simp⟩
  interval_cases n <;> decide

end Events

namespace FdSets

/-- The current mask holds an event if the descriptor is in its set. -/
theorem external_and (p : FdSets) (md : ℕ) :
    ((p.external md &&& mdeventrd ≠ 0) ↔ p.rd md) ∧ ((p.external md &&& mdeventwr ≠ 0) ↔ p.wr md) ∧
      ((p.external md &&& mdeventex ≠ 0) ↔ p.ex md) := by
  unfold external
  cases p.rd md <;> cases p.wr md <;> cases p.ex md <;> decide

/-- A set changes at the descriptor alone, where it follows the mask. -/
theorem setevent_eq (mask : UInt16) {cur : UInt16} {k : ℕ} (hk : k < 16) {fds : ℕ → Bool} {md : ℕ}
    (hcur : cur &&& .ofNat (2 ^ k) ≠ 0 ↔ fds md) :
    setevent (.ofNat (2 ^ k)) (~~~cur &&& mask) (cur &&& ~~~mask) fds md =
      Function.update fds md (mask &&& .ofNat (2 ^ k) ≠ 0) := by
  rw [and_event cur hk] at hcur
  simp only [setevent, and_event _ hk, UInt16.toBitVec_and, UInt16.toBitVec_not, BitVec.getLsbD_and,
    BitVec.getLsbD_not, hk]
  cases hbit : mask.toBitVec.getLsbD k <;> cases hold : cur.toBitVec.getLsbD k <;>
    simp_all

/-- The sets of the descriptor follow the mask, and those of other descriptors are kept. -/
theorem setmdevents_eq (p : FdSets) (md : ℕ) (mask : UInt16) :
    p.setmdevents md mask =
      { rd := Function.update p.rd md (mask &&& mdeventrd ≠ 0)
        wr := Function.update p.wr md (mask &&& mdeventwr ≠ 0)
        ex := Function.update p.ex md (mask &&& mdeventex ≠ 0) } := by
  have ⟨hrd, hwr, hex⟩ := p.external_and md
  have hrd' := setevent_eq mask (k := 0) (by decide) hrd
  have hwr' := setevent_eq mask (k := 1) (by decide) hwr
  have hex' := setevent_eq mask (k := 2) (by decide) hex
  rw [setmdevents, FdSets.mk.injEq]
  exact ⟨hrd', hwr', hex'⟩

/-- The mask is read back from the sets. -/
theorem external_setmdevents {p : FdSets} {md : ℕ} {mask : UInt16} (hmask : mask &&& ~~~mdeventall = 0) :
    (p.setmdevents md mask).external md = mask := by
  rw [setmdevents_eq]
  simpa [external] using mask_of_events hmask

/-- Other descriptors are not touched. -/
theorem external_setmdevents_of_ne {p : FdSets} {md other : ℕ} {mask : UInt16} (hother : other ≠ md) :
    (p.setmdevents md mask).external other = p.external other := by
  rw [setmdevents_eq]
  simp [external, hother]

theorem isset_setmdevents_of_ne {p : FdSets} {md other : ℕ} {mask : UInt16} (hother : other ≠ md) :
    (p.setmdevents md mask).isset other = p.isset other := by
  rw [setmdevents_eq]
  simp [isset, hother]

/-- The scan stops no lower than a descriptor with events. -/
theorem le_highest {p : FdSets} {fd md : ℕ} (hle : fd ≤ md) (hset : p.isset fd) : (fd : ℤ) ≤ p.highest md := by
  induction md with
  | zero =>
    obtain rfl : fd = 0 := by omega
    simp [highest, hset]
  | succ md ih =>
    rw [highest]
    split
    next => exact_mod_cast hle
    next hunset =>
      have hne : fd ≠ md + 1 := by
        rintro rfl
        exact hunset hset
      exact ih (by omega)

end FdSets

namespace Muxer

/-- A wait looks at every descriptor that has events. -/
def Covers (muxer : Muxer) : Prop := ∀ fd, muxer.in_.isset fd → (fd : ℤ) ≤ muxer.maxfd

/-- No descriptor has events in a new muxer. -/
theorem create_covers : create.Covers := by
  intro fd hset
  cases hset

variable {setsize md : ℕ} {mask : UInt16} {muxer next : Muxer}

/-- What a mask update does, if it succeeds. -/
theorem setmdeventmask_ok (h : setmdeventmask setsize muxer md mask = .ok next) :
    md < setsize ∧ mask &&& ~~~mdeventall = 0 ∧ next.in_ = muxer.in_.setmdevents md mask ∧
      next.out = muxer.out ∧ (muxer.Covers → next.Covers) := by
  unfold setmdeventmask at h
  split at h
  next => cases h
  next hsize =>
    split at h
    next => cases h
    next hmask =>
      obtain rfl := Except.ok.inj h
      refine ⟨Nat.lt_of_not_le hsize, not_not.mp hmask, rfl, rfl, ?_⟩
      intro hcovers fd hset
      change _ ≤ ite _ _ _
      split
      next hmax =>
        apply FdSets.le_highest _ hset
        by_cases hfd : fd = md
        · exact hfd.le
        · have hold := hcovers fd (FdSets.isset_setmdevents_of_ne hfd ▸ hset)
          omega
      next hmax =>
        by_cases hfd : fd = md
        · omega
        · exact hcovers fd (FdSets.isset_setmdevents_of_ne hfd ▸ hset)

/-- The mask of no events is never refused for a descriptor within the limit. -/
theorem setmdeventmask_zero (muxer : Muxer) (hmd : md < setsize) : ∃ next, setmdeventmask setsize muxer md 0 = .ok next := by
  simp [setmdeventmask, Nat.not_le.mpr hmd]

/-- After an update the mask of the descriptor is the new one, and other masks are kept. -/
theorem getmdeventmask_setmdeventmask (h : setmdeventmask setsize muxer md mask = .ok next) :
    next.getmdeventmask md = mask ∧ ∀ other ≠ md, next.getmdeventmask other = muxer.getmdeventmask other := by
  obtain ⟨-, hmask, hin, -⟩ := setmdeventmask_ok h
  rw [getmdeventmask, hin]
  constructor
  · exact FdSets.external_setmdevents hmask
  · intro other hother
    rw [getmdeventmask, hin, FdSets.external_setmdevents_of_ne hother, getmdeventmask]

/-- A descriptor with a mask has events in the sets. -/
theorem isset_of_getmdeventmask (h : muxer.getmdeventmask md ≠ 0) : muxer.in_.isset md := by
  rw [getmdeventmask, FdSets.external] at h
  rw [FdSets.isset]
  cases hrd : muxer.in_.rd md <;> cases hwr : muxer.in_.wr md <;> cases hex : muxer.in_.ex md <;>
    simp_all

end Muxer

end Aug.Sys
