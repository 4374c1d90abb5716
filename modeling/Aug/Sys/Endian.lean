import Aug.Lib.BigEndian
import Aug.Lib.Memory
import Mathlib.Data.Nat.Bitwise
import Mathlib.Data.UInt
import Mathlib.Tactic.GCongr
import Mathlib.Tactic.Positivity

/-!
# Integers on the wire

The byte swaps of `endian.c` on fixed-width integers. A host lays the bytes of an integer out from
either end; the swap of 64 bits is assembled in memory from the two halves, so that its result is shown
for both layouts. Encoding writes the big-endian digits on every host, and decoding reads them.
-/

namespace Aug.Sys

open Aug.Lib

/-- `WORDS_BIGENDIAN`: how the host lays the bytes of an integer out. -/
inductive Endian where
  | little
  | big
deriving DecidableEq

/-- The bytes of an integer in memory. -/
def Endian.bytes (endian : Endian) (width n : ℕ) : List UInt8 :=
  match endian with
  | .little => (encodeBE width n).reverse
  | .big => encodeBE width n

/-- The integer whose bytes lie in memory. -/
def Endian.value (endian : Endian) (bytes : List UInt8) : ℕ :=
  match endian with
  | .little => valueBE bytes.reverse
  | .big => valueBE bytes

/-- `aug_swap16`. -/
def swap16 (i : UInt16) : UInt16 := (i &&& 0xff00) >>> 8 ||| (i &&& 0x00ff) <<< 8

/-- `aug_swap32`. -/
def swap32 (i : UInt32) : UInt32 :=
  (i &&& 0xff000000) >>> 24 ||| (i &&& 0x00ff0000) >>> 8 ||| (i &&& 0x0000ff00) <<< 8 |||
    (i &&& 0x000000ff) <<< 24

/-- The member `i32_[k]` of the union in `aug_swap64`. -/
def half (endian : Endian) (u : List UInt8) (k : ℕ) : UInt32 :=
  .ofNat (endian.value ((u.drop (4 * k)).take 4))

/-- `aug_swap64`. -/
def swap64 (endian : Endian) (i : UInt64) : UInt64 :=
  let u := endian.bytes 8 i.toNat
  let tmp := swap32 (half endian u 0)
  let u := endian.bytes 4 (swap32 (half endian u 1)).toNat ++ u.drop 4
  let u := u.take 4 ++ endian.bytes 4 tmp.toNat
  .ofNat (endian.value u)

/-- `aug_hton16`. -/
def hton16 (endian : Endian) (i : UInt16) : UInt16 :=
  match endian with
  | .little => swap16 i
  | .big => i

/-- `aug_hton32`. -/
def hton32 (endian : Endian) (i : UInt32) : UInt32 :=
  match endian with
  | .little => swap32 i
  | .big => i

/-- `aug_hton64`. -/
def hton64 (endian : Endian) (i : UInt64) : UInt64 :=
  match endian with
  | .little => swap64 endian i
  | .big => i

/-- `aug_ntoh16`. -/
def ntoh16 (endian : Endian) (i : UInt16) : UInt16 := hton16 endian i

/-- `aug_ntoh32`. -/
def ntoh32 (endian : Endian) (i : UInt32) : UInt32 := hton32 endian i

/-- `aug_ntoh64`. -/
def ntoh64 (endian : Endian) (i : UInt64) : UInt64 := hton64 endian i

/-- `aug_decode16`. -/
def decode16 (endian : Endian) (buf : List UInt8) (ptr : ℕ) : Option UInt16 :=
  (load buf ptr 2).map fun bytes => ntoh16 endian (.ofNat (endian.value bytes))

/-- `aug_decode32`. -/
def decode32 (endian : Endian) (buf : List UInt8) (ptr : ℕ) : Option UInt32 :=
  (load buf ptr 4).map fun bytes => ntoh32 endian (.ofNat (endian.value bytes))

/-- `aug_decode64`. -/
def decode64 (endian : Endian) (buf : List UInt8) (ptr : ℕ) : Option UInt64 :=
  (load buf ptr 8).map fun bytes => ntoh64 endian (.ofNat (endian.value bytes))

/-- `aug_encode16`. -/
def encode16 (endian : Endian) (i : UInt16) (buf : List UInt8) (ptr : ℕ) : Option (List UInt8) :=
  store buf ptr (endian.bytes 2 (hton16 endian i).toNat)

/-- `aug_encode32`. -/
def encode32 (endian : Endian) (i : UInt32) (buf : List UInt8) (ptr : ℕ) : Option (List UInt8) :=
  store buf ptr (endian.bytes 4 (hton32 endian i).toNat)

/-- `aug_encode64`. -/
def encode64 (endian : Endian) (i : UInt64) (buf : List UInt8) (ptr : ℕ) : Option (List UInt8) :=
  store buf ptr (endian.bytes 8 (hton64 endian i).toNat)

section Swap

/-- A byte of a number, in its place. -/
theorem and_byte (n k : ℕ) : n &&& 255 * 2 ^ k = n / 2 ^ k % 256 * 2 ^ k := by
  apply Nat.eq_of_testBit_eq
  intro j
  have hmask : 255 = 2 ^ 8 - 1 := rfl
  have hmod : 256 = 2 ^ 8 := rfl
  rw [hmask, hmod, Nat.testBit_and, Nat.testBit_mul_two_pow, Nat.testBit_mul_two_pow,
    Nat.testBit_two_pow_sub_one, Nat.testBit_mod_two_pow, Nat.testBit_div_two_pow]
  grind

/-- A byte that is moved down. -/
theorem and_byte_shiftRight (n k j : ℕ) :
    (n &&& 255 * 2 ^ (k + j)) >>> j = n / 2 ^ (k + j) % 256 * 2 ^ k := by
  have hpos : 0 < 2 ^ j := by positivity
  rw [and_byte, Nat.shiftRight_eq_div_pow, pow_add, ← Nat.mul_assoc, Nat.mul_div_cancel _ hpos]

/-- A byte that is moved up within the width. -/
theorem and_byte_shiftLeft (n k j w : ℕ) (hw : 8 + k + j ≤ w) :
    (n &&& 255 * 2 ^ k) <<< j % 2 ^ w = n / 2 ^ k % 256 * 2 ^ (k + j) := by
  have hbyte : n / 2 ^ k % 256 < 2 ^ 8 := Nat.mod_lt _ (by decide)
  rw [and_byte, Nat.shiftLeft_eq, Nat.mul_assoc, ← pow_add]
  apply Nat.mod_eq_of_lt
  calc n / 2 ^ k % 256 * 2 ^ (k + j) < 2 ^ 8 * 2 ^ (k + j) :=
        Nat.mul_lt_mul_of_pos_right hbyte (by positivity)
    _ = 2 ^ (8 + k + j) := by rw [← pow_add, Nat.add_assoc]
    _ ≤ 2 ^ w := Nat.pow_le_pow_right (by decide) hw

/-- Digits above a number are added to it. -/
theorem or_shifted {low : ℕ} (high k : ℕ) (hlow : low < 2 ^ k) :
    low ||| high * 2 ^ k = low + high * 2 ^ k := by
  rw [Nat.or_comm, Nat.mul_comm, ← Nat.two_pow_add_eq_or_of_lt hlow, Nat.add_comm]

/-- The swap exchanges the two bytes. -/
theorem swap16_toNat (i : UInt16) :
    (swap16 i).toNat = i.toNat / 2 ^ 8 + i.toNat % 256 * 2 ^ 8 := by
  have hi : i.toNat < 2 ^ 16 := i.toNat_lt
  have htop : i.toNat / 2 ^ 8 % 256 = i.toNat / 2 ^ 8 := by omega
  have hhigh := and_byte_shiftRight i.toNat 0 8
  have hlow := and_byte_shiftLeft i.toNat 0 8 16 (by decide)
  simp only [htop, Nat.zero_add, pow_zero, Nat.mul_one, Nat.div_one] at hhigh hlow
  calc (swap16 i).toNat
      = (i.toNat &&& 255 * 2 ^ 8) >>> 8 ||| (i.toNat &&& 255) <<< 8 % 2 ^ 16 := rfl
    _ = i.toNat / 2 ^ 8 ||| i.toNat % 256 * 2 ^ 8 := by rw [hhigh, hlow]
    _ = i.toNat / 2 ^ 8 + i.toNat % 256 * 2 ^ 8 := or_shifted _ 8 (by omega)

/-- The swap reverses the four bytes. -/
theorem swap32_toNat (i : UInt32) :
    (swap32 i).toNat = i.toNat / 2 ^ 24 + i.toNat / 2 ^ 16 % 256 * 2 ^ 8 +
      i.toNat / 2 ^ 8 % 256 * 2 ^ 16 + i.toNat % 256 * 2 ^ 24 := by
  have hi : i.toNat < 2 ^ 32 := i.toNat_lt
  have htop : i.toNat / 2 ^ 24 % 256 = i.toNat / 2 ^ 24 := by omega
  have h24 := and_byte_shiftRight i.toNat 0 24
  have h16 := and_byte_shiftRight i.toNat 8 8
  have h8 := and_byte_shiftLeft i.toNat 8 8 32 (by decide)
  have h0 := and_byte_shiftLeft i.toNat 0 24 32 (by decide)
  simp only [htop, Nat.zero_add, pow_zero, Nat.mul_one, Nat.div_one, Nat.reduceAdd] at h24 h16 h8 h0
  calc (swap32 i).toNat
      = (i.toNat &&& 255 * 2 ^ 24) >>> 24 ||| (i.toNat &&& 255 * 2 ^ 16) >>> 8 |||
          (i.toNat &&& 255 * 2 ^ 8) <<< 8 % 2 ^ 32 ||| (i.toNat &&& 255) <<< 24 % 2 ^ 32 := rfl
    _ = i.toNat / 2 ^ 24 ||| i.toNat / 2 ^ 16 % 256 * 2 ^ 8 ||| i.toNat / 2 ^ 8 % 256 * 2 ^ 16 |||
          i.toNat % 256 * 2 ^ 24 := by rw [h24, h16, h8, h0]
    _ = i.toNat / 2 ^ 24 + i.toNat / 2 ^ 16 % 256 * 2 ^ 8 + i.toNat / 2 ^ 8 % 256 * 2 ^ 16 +
          i.toNat % 256 * 2 ^ 24 := by
        rw [or_shifted _ 8 (by omega), or_shifted _ 16 (by omega), or_shifted _ 24 (by omega)]

end Swap

section Layout

variable (endian : Endian)

@[simp] theorem Endian.bytes_length (width n : ℕ) : (endian.bytes width n).length = width := by
  cases endian <;> simp [Endian.bytes]

/-- An integer that fits its width is read back from its bytes. -/
theorem Endian.value_bytes {width n : ℕ} (hn : n < 256 ^ width) :
    endian.value (endian.bytes width n) = n := by
  cases endian <;> simp [Endian.bytes, Endian.value, valueBE_encodeBE, Nat.mod_eq_of_lt hn]

/-- Bytes are those of the integer they make. -/
theorem Endian.bytes_value (bytes : List UInt8) :
    endian.bytes bytes.length (endian.value bytes) = bytes := by
  cases endian with
  | little =>
    have hdigits := encodeBE_valueBE bytes.reverse
    rw [List.length_reverse] at hdigits
    simp [Endian.bytes, Endian.value, hdigits]
  | big => exact encodeBE_valueBE bytes

/-- The number that has given bytes. -/
theorem Endian.eq_value {width n : ℕ} {bytes : List UInt8} (hn : n < 256 ^ width)
    (hbytes : endian.bytes width n = bytes) : n = endian.value bytes := by
  rw [← hbytes, endian.value_bytes hn]

/-- The value of bytes is below the power of their number. -/
theorem Endian.value_lt (bytes : List UInt8) : endian.value bytes < 256 ^ bytes.length := by
  cases endian with
  | little => simpa [Endian.value] using valueBE_lt bytes.reverse
  | big => exact valueBE_lt bytes

/-- A swap reverses the bytes in memory. -/
theorem bytes_swap16 (i : UInt16) :
    endian.bytes 2 (swap16 i).toNat = (endian.bytes 2 i.toNat).reverse := by
  have hi : valueBE (encodeBE 2 i.toNat) = i.toNat := by
    rw [valueBE_encodeBE, Nat.mod_eq_of_lt (by simpa using i.toNat_lt)]
  have hbytes : encodeBE 2 (swap16 i).toNat = (encodeBE 2 i.toNat).reverse := by
    obtain ⟨a, b, hab⟩ := List.length_eq_two.mp (encodeBE_length 2 i.toNat)
    have ha := a.toNat_lt
    have hb := b.toNat_lt
    rw [hab] at hi ⊢
    have hn : i.toNat = a.toNat * 256 + b.toNat := by simp [← hi, valueBE]
    have hhigh : i.toNat / 2 ^ 8 = a.toNat := by omega
    have hlow : i.toNat % 256 = b.toNat := by omega
    have hswap : (swap16 i).toNat = valueBE [b, a] := by
      rw [swap16_toNat, hhigh, hlow]
      simp [valueBE]
      omega
    rw [hswap]
    exact encodeBE_valueBE [b, a]
  cases endian <;> simp [Endian.bytes, hbytes]

/-- A swap reverses the bytes in memory. -/
theorem bytes_swap32 (i : UInt32) :
    endian.bytes 4 (swap32 i).toNat = (endian.bytes 4 i.toNat).reverse := by
  have hi : valueBE (encodeBE 4 i.toNat) = i.toNat := by
    rw [valueBE_encodeBE, Nat.mod_eq_of_lt (by simpa using i.toNat_lt)]
  have hbytes : encodeBE 4 (swap32 i).toNat = (encodeBE 4 i.toNat).reverse := by
    obtain ⟨a, b, c, d, habcd⟩ : ∃ a b c d, encodeBE 4 i.toNat = [a, b, c, d] :=
      ⟨_, _, _, _, rfl⟩
    have ha := a.toNat_lt
    have hb := b.toNat_lt
    have hc := c.toNat_lt
    have hd := d.toNat_lt
    rw [habcd] at hi ⊢
    have hn : i.toNat = ((a.toNat * 256 + b.toNat) * 256 + c.toNat) * 256 + d.toNat := by
      simp [← hi, valueBE]
    have h24 : i.toNat / 2 ^ 24 = a.toNat := by omega
    have h16 : i.toNat / 2 ^ 16 = a.toNat * 256 + b.toNat := by omega
    have h8 : i.toNat / 2 ^ 8 = (a.toNat * 256 + b.toNat) * 256 + c.toNat := by omega
    have hswap : (swap32 i).toNat = valueBE [d, c, b, a] := by
      rw [swap32_toNat, h24, h16, h8, hn]
      simp [valueBE]
      omega
    rw [hswap]
    exact encodeBE_valueBE [d, c, b, a]
  cases endian <;> simp [Endian.bytes, hbytes]

/-- The halves of the union, exchanged and each swapped, are the bytes reversed. -/
theorem bytes_swap64 (i : UInt64) :
    endian.bytes 8 (swap64 endian i).toNat = (endian.bytes 8 i.toNat).reverse := by
  obtain ⟨front, back, hfront, hback, hu⟩ : ∃ front back, front.length = 4 ∧ back.length = 4 ∧
      endian.bytes 8 i.toNat = front ++ back :=
    ⟨(endian.bytes 8 i.toNat).take 4, (endian.bytes 8 i.toNat).drop 4, by simp, by simp, by simp⟩
  have hhalf (bytes : List UInt8) (hbytes : bytes.length = 4) :
      endian.bytes 4 (swap32 (.ofNat (endian.value bytes))).toNat = bytes.reverse := by
    have hlt : endian.value bytes < 2 ^ 32 := by simpa [hbytes] using endian.value_lt bytes
    rw [bytes_swap32, UInt32.toNat_ofNat_of_lt' hlt, ← hbytes, endian.bytes_value]
  have hlow : half endian (front ++ back) 0 = .ofNat (endian.value front) := by
    simp [half, ← hfront]
  have hhigh : half endian (front ++ back) 1 = .ofNat (endian.value back) := by
    simp [half, ← hfront, hfront.trans hback.symm]
  have hrev : (front ++ back).reverse.length = 8 := by simp [hfront, hback]
  have hlt : endian.value (front ++ back).reverse < 2 ^ 64 := by
    simpa only [hrev, Nat.reducePow] using endian.value_lt (front ++ back).reverse
  have hswap : swap64 endian i = .ofNat (endian.value (front ++ back).reverse) := by
    simp only [swap64, hu, hlow, hhigh, hhalf back hback, hhalf front hfront]
    simp [← hback]
  rw [hswap, UInt64.toNat_ofNat_of_lt' hlt, hu, ← hrev, endian.bytes_value]

end Layout

section Wire

variable (endian : Endian)

/-- In network order the bytes are the big-endian digits on every host. -/
theorem bytes_hton16 (i : UInt16) : endian.bytes 2 (hton16 endian i).toNat = encodeBE 2 i.toNat := by
  cases endian with
  | little => exact (bytes_swap16 .little i).trans (List.reverse_reverse _)
  | big => rfl

theorem bytes_hton32 (i : UInt32) : endian.bytes 4 (hton32 endian i).toNat = encodeBE 4 i.toNat := by
  cases endian with
  | little => exact (bytes_swap32 .little i).trans (List.reverse_reverse _)
  | big => rfl

theorem bytes_hton64 (i : UInt64) : endian.bytes 8 (hton64 endian i).toNat = encodeBE 8 i.toNat := by
  cases endian with
  | little => exact (bytes_swap64 .little i).trans (List.reverse_reverse _)
  | big => rfl

/-- Encoding stores the big-endian digits. -/
theorem encode16_eq (i : UInt16) (buf : List UInt8) (ptr : ℕ) :
    encode16 endian i buf ptr = store buf ptr (encodeBE 2 i.toNat) := by
  rw [encode16, bytes_hton16]

theorem encode32_eq (i : UInt32) (buf : List UInt8) (ptr : ℕ) :
    encode32 endian i buf ptr = store buf ptr (encodeBE 4 i.toNat) := by
  rw [encode32, bytes_hton32]

theorem encode64_eq (i : UInt64) (buf : List UInt8) (ptr : ℕ) :
    encode64 endian i buf ptr = store buf ptr (encodeBE 8 i.toNat) := by
  rw [encode64, bytes_hton64]

/-- From network order the integer is the one of its big-endian digits on every host. -/
theorem ntoh16_value {bytes : List UInt8} (hbytes : bytes.length = 2) :
    ntoh16 endian (.ofNat (endian.value bytes)) = .ofNat (valueBE bytes) := by
  cases endian with
  | big => rfl
  | little =>
    have hlt : Endian.little.value bytes < 2 ^ 16 := by simpa [hbytes] using Endian.little.value_lt bytes
    have hreverse : Endian.little.bytes 2 (swap16 (.ofNat (Endian.little.value bytes))).toNat =
        bytes.reverse := by
      rw [bytes_swap16, UInt16.toNat_ofNat_of_lt' hlt, ← hbytes, Endian.bytes_value]
    have hvalue := Endian.little.eq_value (by exact UInt16.toNat_lt _) hreverse
    apply UInt16.toNat_inj.mp
    rw [ntoh16, hton16, hvalue, UInt16.toNat_ofNat_of_lt' (by simpa [hbytes] using valueBE_lt bytes)]
    simp [Endian.value]

theorem ntoh32_value {bytes : List UInt8} (hbytes : bytes.length = 4) :
    ntoh32 endian (.ofNat (endian.value bytes)) = .ofNat (valueBE bytes) := by
  cases endian with
  | big => rfl
  | little =>
    have hlt : Endian.little.value bytes < 2 ^ 32 := by simpa [hbytes] using Endian.little.value_lt bytes
    have hreverse : Endian.little.bytes 4 (swap32 (.ofNat (Endian.little.value bytes))).toNat =
        bytes.reverse := by
      rw [bytes_swap32, UInt32.toNat_ofNat_of_lt' hlt, ← hbytes, Endian.bytes_value]
    have hvalue := Endian.little.eq_value (by exact UInt32.toNat_lt _) hreverse
    apply UInt32.toNat_inj.mp
    rw [ntoh32, hton32, hvalue, UInt32.toNat_ofNat_of_lt' (by simpa [hbytes] using valueBE_lt bytes)]
    simp [Endian.value]

theorem ntoh64_value {bytes : List UInt8} (hbytes : bytes.length = 8) :
    ntoh64 endian (.ofNat (endian.value bytes)) = .ofNat (valueBE bytes) := by
  cases endian with
  | big => rfl
  | little =>
    have hlt : Endian.little.value bytes < 2 ^ 64 := by simpa [hbytes] using Endian.little.value_lt bytes
    have hreverse : Endian.little.bytes 8 (swap64 .little (.ofNat (Endian.little.value bytes))).toNat =
        bytes.reverse := by
      rw [bytes_swap64, UInt64.toNat_ofNat_of_lt' hlt, ← hbytes, Endian.bytes_value]
    have hvalue := Endian.little.eq_value (by exact UInt64.toNat_lt _) hreverse
    apply UInt64.toNat_inj.mp
    rw [ntoh64, hton64, hvalue, UInt64.toNat_ofNat_of_lt' (by simpa [hbytes] using valueBE_lt bytes)]
    simp [Endian.value]

/-- Decoding reads the big-endian digits. -/
theorem decode16_eq (buf : List UInt8) (ptr : ℕ) :
    decode16 endian buf ptr = (load buf ptr 2).map fun bytes => .ofNat (valueBE bytes) := by
  unfold decode16
  cases hload : load buf ptr 2 with
  | none => rfl
  | some bytes => rw [Option.map_some, Option.map_some, ntoh16_value endian (load_length hload)]

theorem decode32_eq (buf : List UInt8) (ptr : ℕ) :
    decode32 endian buf ptr = (load buf ptr 4).map fun bytes => .ofNat (valueBE bytes) := by
  unfold decode32
  cases hload : load buf ptr 4 with
  | none => rfl
  | some bytes => rw [Option.map_some, Option.map_some, ntoh32_value endian (load_length hload)]

theorem decode64_eq (buf : List UInt8) (ptr : ℕ) :
    decode64 endian buf ptr = (load buf ptr 8).map fun bytes => .ofNat (valueBE bytes) := by
  unfold decode64
  cases hload : load buf ptr 8 with
  | none => rfl
  | some bytes => rw [Option.map_some, Option.map_some, ntoh64_value endian (load_length hload)]

end Wire

end Aug.Sys
