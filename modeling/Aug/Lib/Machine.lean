import Mathlib.Data.Int.ModEq

/-!
# Fixed-width C integers

Values of an `unsigned` are natural numbers below `2 ^ 32` and values of an `int` are
integers in the symmetric range. Arithmetic is done in `ℤ` and converted back where the
program stores or compares the result.
-/

namespace Aug.Lib

/-- Conversion to `unsigned`. -/
def u32 (z : ℤ) : ℕ := (z % 2 ^ 32).toNat

/-- Conversion to a 64-bit `size_t`. -/
def u64 (z : ℤ) : ℕ := (z % 2 ^ 64).toNat

/-- Conversion to `int`. -/
def i32 (z : ℤ) : ℤ := Int.bmod z (2 ^ 32)

/-- Conversion to a 64-bit signed integer. -/
def i64 (z : ℤ) : ℤ := Int.bmod z (2 ^ 64)

/-- A value in range is its own `unsigned`. -/
theorem u32_of_lt {n : ℕ} (h : n < 2 ^ 32) : u32 n = n := by
  unfold u32
  omega

/-- The form used after arithmetic in `ℤ`. -/
theorem u32_eq {z : ℤ} {n : ℕ} (hz : z = n) (h : n < 2 ^ 32) : u32 z = n := by
  rw [hz, u32_of_lt h]

/-- A value in range is its own `size_t`. -/
theorem u64_of_lt {n : ℕ} (h : n < 2 ^ 64) : u64 n = n := by
  unfold u64
  omega

/-- The form used after arithmetic in `ℤ`. -/
theorem u64_eq {z : ℤ} {n : ℕ} (hz : z = n) (h : n < 2 ^ 64) : u64 z = n := by
  rw [hz, u64_of_lt h]

theorem u32_lt (z : ℤ) : u32 z < 2 ^ 32 := by
  unfold u32
  omega

/-- A value in range is its own `int`. -/
theorem i32_of_range {z : ℤ} (hl : -2 ^ 31 ≤ z) (hu : z < 2 ^ 31) : i32 z = z := by
  unfold i32
  apply Int.bmod_eq_of_le <;> omega

/-- An `unsigned` as an `int`. -/
theorem i32_nat {n : ℕ} (h : n < 2 ^ 32) : i32 n = if n < 2 ^ 31 then (n : ℤ) else n - 2 ^ 32 := by
  unfold i32
  rw [Int.bmod_def]
  split_ifs <;> omega

theorem i32_range (z : ℤ) : -2 ^ 31 ≤ i32 z ∧ i32 z < 2 ^ 31 := by
  unfold i32
  rw [Int.bmod_def]
  split_ifs <;> omega

/-- An `unsigned` survives the conversion to `int` and back. -/
theorem u32_i32 {n : ℕ} (h : n < 2 ^ 32) : u32 (i32 n) = n := by
  rw [i32_nat h]
  unfold u32
  split_ifs <;> omega

/-- An `int` as an `unsigned`. -/
theorem u32_int {z : ℤ} (hl : -2 ^ 31 ≤ z) (hu : z < 2 ^ 31) : (u32 z : ℤ) = if 0 ≤ z then z else z + 2 ^ 32 := by
  unfold u32
  split_ifs <;> omega

theorem i64_of_range {z : ℤ} (hl : -2 ^ 63 ≤ z) (hu : z < 2 ^ 63) : i64 z = z := by
  unfold i64
  apply Int.bmod_eq_of_le <;> omega

end Aug.Lib
