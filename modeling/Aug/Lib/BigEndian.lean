import Mathlib.Data.List.Basic
import Mathlib.Data.List.Induction
import Mathlib.Tactic.Ring

/-!
# Big-endian numbers in a byte memory

Encoding writes the low `width` base-256 digits of a number, most significant first, and
decoding reads that many bytes at an index, where they lie inside the memory.
-/

namespace Aug.Lib

/-- The `width` low digits of `n`, most significant first. -/
def encodeBE : (width : ℕ) → ℕ → List UInt8
  | 0, _ => []
  | width + 1, n => encodeBE width (n / 256) ++ [UInt8.ofNat n]

/-- The number written by a list of digits. -/
def valueBE (bytes : List UInt8) : ℕ := bytes.foldl (fun acc b => acc * 256 + b.toNat) 0

/-- Read `width` bytes at `i`; undefined where they do not all exist. -/
def decodeBE (width : ℕ) (mem : List UInt8) (i : ℕ) : Option ℕ :=
  let bytes := (mem.drop i).take width
  if bytes.length = width then some (valueBE bytes) else none

@[simp] theorem encodeBE_length (width n : ℕ) : (encodeBE width n).length = width := by
  induction width generalizing n with
  | zero => rfl
  | succ width ih => simp [encodeBE, ih]

/-- Appending a digit scales the number already written. -/
theorem valueBE_concat (bytes : List UInt8) (b : UInt8) :
    valueBE (bytes ++ [b]) = valueBE bytes * 256 + b.toNat := by
  simp [valueBE]

/-- The digits of `n` write `n` again, up to the width. -/
theorem valueBE_encodeBE (width n : ℕ) : valueBE (encodeBE width n) = n % 256 ^ width := by
  induction width generalizing n with
  | zero => simp [encodeBE, valueBE, Nat.mod_one]
  | succ width ih =>
    rw [encodeBE, valueBE_concat, ih]
    have hlow : (UInt8.ofNat n).toNat = n % 256 := by simp
    rw [hlow, pow_succ', Nat.mod_mul]
    ring

/-- Digits above the width are not written. -/
theorem encodeBE_mod (width n : ℕ) : encodeBE width (n % 256 ^ width) = encodeBE width n := by
  induction width generalizing n with
  | zero => rfl
  | succ width ih =>
    have hlow : UInt8.ofNat (n % 256 ^ (width + 1)) = UInt8.ofNat n := by
      apply UInt8.toNat_inj.mp
      rw [UInt8.toNat_ofNat', UInt8.toNat_ofNat', pow_succ', Nat.mod_mul_right_mod]
    rw [encodeBE, encodeBE, pow_succ', Nat.mod_mul_right_div_self, ih, ← pow_succ', hlow]

/-- The upper digits are written before the lower ones. -/
theorem encodeBE_add (upper lower n : ℕ) :
    encodeBE (upper + lower) n = encodeBE upper (n / 256 ^ lower) ++ encodeBE lower n := by
  induction lower generalizing n with
  | zero => rw [pow_zero, Nat.div_one, encodeBE, List.append_nil, Nat.add_zero]
  | succ lower ih => rw [← Nat.add_assoc, encodeBE, encodeBE, ih, List.append_assoc, Nat.div_div_eq_div_mul, ← pow_succ']

/-- A list of digits is below the power of its length. -/
theorem valueBE_lt (bytes : List UInt8) : valueBE bytes < 256 ^ bytes.length := by
  induction bytes using List.reverseRecOn with
  | nil => simp [valueBE]
  | append_singleton bytes b ih =>
    have hb : b.toNat < 256 := b.toNat_lt
    rw [valueBE_concat, List.length_append, List.length_singleton, pow_succ]
    omega

/-- Digits are written again by the number they write. -/
theorem encodeBE_valueBE (bytes : List UInt8) : encodeBE bytes.length (valueBE bytes) = bytes := by
  induction bytes using List.reverseRecOn with
  | nil => rfl
  | append_singleton bytes b ih =>
    have hb : b.toNat < 256 := b.toNat_lt
    have hhigh : (valueBE bytes * 256 + b.toNat) / 256 = valueBE bytes := by omega
    have hlow : UInt8.ofNat (valueBE bytes * 256 + b.toNat) = b := by
      apply UInt8.toNat_inj.mp
      rw [UInt8.toNat_ofNat']
      omega
    rw [valueBE_concat, List.length_append, List.length_singleton, encodeBE, hhigh, hlow, ih]

/-- A number that fits its width is read back where it was written. -/
theorem decodeBE_encodeBE (width n : ℕ) (front back : List UInt8) (h : n < 256 ^ width) :
    decodeBE width (front ++ (encodeBE width n ++ back)) front.length = some n := by
  have hbytes : ((front ++ (encodeBE width n ++ back)).drop front.length).take width =
      encodeBE width n := by
    rw [List.drop_left, List.take_left' (encodeBE_length width n)]
  rw [decodeBE, hbytes]
  simp [valueBE_encodeBE, Nat.mod_eq_of_lt h]

/-- A number that is read lies in the memory, -/
theorem decodeBE_le {width i x : ℕ} {mem : List UInt8} (hwidth : 0 < width) (h : decodeBE width mem i = some x) :
    i + width ≤ mem.length := by
  unfold decodeBE at h
  simp only [List.length_take, List.length_drop] at h
  split at h
  · omega
  · cases h

/-- and fits its width. -/
theorem decodeBE_lt {width i x : ℕ} {mem : List UInt8} (h : decodeBE width mem i = some x) : x < 256 ^ width := by
  unfold decodeBE at h
  dsimp only at h
  split at h
  · rename_i hlen
    cases h
    exact lt_of_lt_of_eq (valueBE_lt _) (congrArg (256 ^ ·) hlen)
  · cases h

/-- It is there in a longer memory. -/
theorem decodeBE_append {width i x : ℕ} {mem : List UInt8} (more : List UInt8) (h : decodeBE width mem i = some x) :
    decodeBE width (mem ++ more) i = some x := by
  cases width with
  | zero => exact h
  | succ width =>
    have hle := decodeBE_le (Nat.succ_pos width) h
    unfold decodeBE at h ⊢
    rwa [List.drop_append_of_le_length (by omega), List.take_append_of_le_length (by simp; omega)]

end Aug.Lib
