import Aug.Net.Base64RoundTrip
import Mathlib.Data.Nat.Bitwise

/-!
# The encoding of RFC 1521

The reference is written from the standard and names nothing of the encoder: the bits of the string, the
first one first, in groups of six, and a character of the alphabet for each group. The encoder agrees with
it on every string, in whatever parts it comes and whatever was encoded before. Its macros are applied to
signed characters, which makes no difference behind their masks.
-/

namespace Aug.Net

open Aug.Lib Call

namespace Base64

/-- The Base64 alphabet of RFC 1521: the upper and lower case letters, the digits, `+` and `/`. -/
def alphabet (n : ℕ) : UInt8 :=
  if n < 26 then (65 + n).toUInt8
  else if n < 52 then (97 + (n - 26)).toUInt8
  else if n < 62 then (48 + (n - 52)).toUInt8
  else if n = 62 then 43
  else 47

/-- The bits of a byte, the most significant one first. -/
def bits (byte : UInt8) : List Bool :=
  [byte.toNat.testBit 7, byte.toNat.testBit 6, byte.toNat.testBit 5, byte.toNat.testBit 4,
   byte.toNat.testBit 3, byte.toNat.testBit 2, byte.toNat.testBit 1, byte.toNat.testBit 0]

/-- The number that bits stand for. -/
def numberOf (bits : List Bool) : ℕ := bits.foldl (fun n bit => 2 * n + bit.toNat) 0

/-- Bits in groups of six, with zero bits added on the right of the last one. -/
def sixes : List Bool → List ℕ
  | b5 :: b4 :: b3 :: b2 :: b1 :: b0 :: rest => numberOf [b5, b4, b3, b2, b1, b0] :: sixes rest
  | [] => []
  | short => [numberOf (short ++ List.replicate (6 - short.length) false)]

/-- The encoding of RFC 1521 with its padding to groups of four characters. -/
def rfc1521 (bytes : List UInt8) : List UInt8 :=
  let chars := (sixes (bytes.flatMap bits)).map alphabet
  chars ++ List.replicate ((4 - chars.length % 4) % 4) pad

example : rfc1521 [77, 97, 110, 255] = [84, 87, 70, 117, 47, 119, 61, 61] := by decide +kernel

/-- `ENCODE_`, with an index of an `int`. -/
def encodeInt (x : BitVec 32) : UInt8 := (encoder.getD x.toNat 'A').toNat.toUInt8

/-- `ENCODE0_` on an `int`. What is masked is not negative. -/
def encodeInt0 (x : BitVec 32) : UInt8 := encodeInt ((x &&& 0xFC#32) >>> 2)

/-- `ENCODE1_` on an `int`. -/
def encodeInt1 (x y : BitVec 32) : UInt8 := encodeInt (((x &&& 0x03#32) <<< 4) ||| ((y &&& 0xF0#32) >>> 4))

/-- `ENCODE2_` on an `int`. -/
def encodeInt2 (x y : BitVec 32) : UInt8 := encodeInt (((x &&& 0x0F#32) <<< 2) ||| ((y &&& 0xC0#32) >>> 6))

/-- `ENCODE3_` on an `int`. -/
def encodeInt3 (x : BitVec 32) : UInt8 := encodeInt (x &&& 0x3F#32)

/-- A signed character as the `int` that it is in an expression. -/
def toInt (ch : UInt8) : BitVec 32 := ch.toBitVec.signExtend 32

/-- A mask of the low eight bits removes what the sign has added. -/
theorem toInt_and (ch mask : UInt8) : toInt ch &&& mask.toBitVec.setWidth 32 = (ch &&& mask).toBitVec.setWidth 32 := by
  apply BitVec.eq_of_getLsbD_eq
  intro i hi
  rw [toInt, UInt8.toBitVec_and, BitVec.getLsbD_and, BitVec.getLsbD_signExtend, BitVec.getLsbD_setWidth,
    BitVec.getLsbD_setWidth, BitVec.getLsbD_and]
  by_cases hlow : i < 8
  · simp [hi, hlow]
  · simp [BitVec.getLsbD_of_ge mask.toBitVec i (Nat.le_of_not_lt hlow)]

theorem toInt_and_toNat (ch mask : UInt8) (wide : BitVec 32) (hwide : wide = mask.toBitVec.setWidth 32) :
    (toInt ch &&& wide).toNat = (ch &&& mask).toNat := by
  rw [hwide, toInt_and, BitVec.toNat_setWidth]
  exact Nat.mod_eq_of_lt (Nat.lt_trans (UInt8.toNat_lt _) (by norm_num))

/-- On signed characters the macros index the table as they do on bytes. -/
theorem encodeInt0_toInt (x : UInt8) : encodeInt0 (toInt x) = encode0 x := by
  have hx := toInt_and_toNat x 0xFC 0xFC#32 rfl
  have hindex : ((toInt x &&& 0xFC#32) >>> 2).toNat = ((x &&& 0xFC) >>> 2).toNat := by
    rw [BitVec.toNat_ushiftRight, hx, UInt8.toNat_shiftRight]
    rfl
  rw [encodeInt0, encodeInt, hindex]
  rfl

/-- A shift to the left that stays below eight bits is the same in 32. -/
theorem shiftLeft_toNat {x : UInt8} {wide : BitVec 32} {n : ℕ} (hwide : wide.toNat = x.toNat) (hn : n < 8)
    (h : x.toNat * 2 ^ n < 256) : (wide <<< n).toNat = (x <<< n.toUInt8).toNat := by
  have hshift : n.toUInt8.toNat % 8 = n := by
    rw [Nat.toUInt8_eq, UInt8.toNat_ofNat']
    omega
  rw [BitVec.toNat_shiftLeft, UInt8.toNat_shiftLeft, hwide, hshift, Nat.shiftLeft_eq, Nat.mod_eq_of_lt h]
  exact Nat.mod_eq_of_lt (Nat.lt_trans h (by norm_num))

theorem encodeInt1_toInt (x y : UInt8) : encodeInt1 (toInt x) (toInt y) = encode1 x y := by
  have hx := toInt_and_toNat x 0x03 0x03#32 rfl
  have hy := toInt_and_toNat y 0xF0 0xF0#32 rfl
  have hmost : (x &&& 0x03).toNat ≤ 3 := Nat.and_le_right
  have hleft := @shiftLeft_toNat _ _ 4 hx (by norm_num) (by omega)
  have hindex : (((toInt x &&& 0x03#32) <<< 4) ||| ((toInt y &&& 0xF0#32) >>> 4)).toNat =
      (((x &&& 0x03) <<< 4) ||| ((y &&& 0xF0) >>> 4)).toNat := by
    rw [BitVec.toNat_or, UInt8.toNat_or, hleft, BitVec.toNat_ushiftRight, hy, UInt8.toNat_shiftRight]
    rfl
  rw [encodeInt1, encodeInt, hindex]
  rfl

theorem encodeInt2_toInt (x y : UInt8) : encodeInt2 (toInt x) (toInt y) = encode2 x y := by
  have hx := toInt_and_toNat x 0x0F 0x0F#32 rfl
  have hy := toInt_and_toNat y 0xC0 0xC0#32 rfl
  have hmost : (x &&& 0x0F).toNat ≤ 15 := Nat.and_le_right
  have hleft := @shiftLeft_toNat _ _ 2 hx (by norm_num) (by omega)
  have hindex : (((toInt x &&& 0x0F#32) <<< 2) ||| ((toInt y &&& 0xC0#32) >>> 6)).toNat =
      (((x &&& 0x0F) <<< 2) ||| ((y &&& 0xC0) >>> 6)).toNat := by
    rw [BitVec.toNat_or, UInt8.toNat_or, hleft, BitVec.toNat_ushiftRight, hy, UInt8.toNat_shiftRight]
    rfl
  rw [encodeInt2, encodeInt, hindex]
  rfl

theorem encodeInt3_toInt (x : UInt8) : encodeInt3 (toInt x) = encode3 x := by
  have hx := toInt_and_toNat x 0x3F 0x3F#32 rfl
  rw [encodeInt3, encodeInt, hx]
  rfl

/-- The table of the encoder is the alphabet. -/
theorem encode_alphabet {x : UInt8} (hx : x.toNat < 64) : encode x = alphabet x.toNat := by
  have htable : ∀ n < 64, encode n.toUInt8 = alphabet n := by decide
  have h := htable x.toNat hx
  rwa [Nat.toUInt8_eq, UInt8.ofNat_toNat] at h

/-- The low bits of a byte, moved up. -/
theorem low_toNat (x mask : UInt8) (n k : ℕ) (hmask : mask.toNat = 2 ^ n - 1) (hfit : n + k ≤ 8) (hk : k < 8) :
    ((x &&& mask) <<< k.toUInt8).toNat = x.toNat % 2 ^ n * 2 ^ k := by
  have hshift : k.toUInt8.toNat % 8 = k := by
    rw [Nat.toUInt8_eq, UInt8.toNat_ofNat']
    omega
  have hless : x.toNat % 2 ^ n * 2 ^ k < 2 ^ 8 :=
    calc x.toNat % 2 ^ n * 2 ^ k
      _ < 2 ^ n * 2 ^ k := Nat.mul_lt_mul_of_pos_right (Nat.mod_lt _ (Nat.two_pow_pos n)) (Nat.two_pow_pos k)
      _ = 2 ^ (n + k) := (pow_add 2 n k).symm
      _ ≤ 2 ^ 8 := Nat.pow_le_pow_right (by norm_num) hfit
  rw [UInt8.toNat_shiftLeft, UInt8.toNat_and, hshift, hmask, Nat.and_two_pow_sub_one_eq_mod, Nat.shiftLeft_eq]
  exact Nat.mod_eq_of_lt hless

/-- The high bits of a number, moved down. -/
theorem high_toNat (x mask : UInt8) (m k : ℕ) (hmask : mask.toNat >>> k = 2 ^ m - 1) (hk : k < 8)
    (hx : x.toNat < 2 ^ (m + k)) : ((x &&& mask) >>> k.toUInt8).toNat = x.toNat / 2 ^ k := by
  have hshift : k.toUInt8.toNat % 8 = k := by
    rw [Nat.toUInt8_eq, UInt8.toNat_ofNat']
    omega
  have hless : x.toNat / 2 ^ k < 2 ^ m := by
    apply Nat.div_lt_of_lt_mul
    rwa [← pow_add, Nat.add_comm k m]
  rw [UInt8.toNat_shiftRight, UInt8.toNat_and, hshift, Nat.shiftRight_and_distrib, hmask,
    Nat.and_two_pow_sub_one_eq_mod, Nat.shiftRight_eq_div_pow]
  exact Nat.mod_eq_of_lt hless

/-- Two parts of a number that have no bit in common. -/
theorem or_toNat {high low n : ℕ} (hlow : low < 2 ^ n) : high * 2 ^ n ||| low = high * 2 ^ n + low := by
  rw [← Nat.shiftLeft_eq, Nat.shiftLeft_add_eq_or_of_lt hlow]

theorem sextet0_toNat (a : UInt8) : (sextet0 a).toNat = a.toNat / 4 := high_toNat a 0xFC 6 2 rfl (by norm_num) a.toNat_lt

theorem sextet1_toNat (a b : UInt8) : (sextet1 a b).toNat = a.toNat % 4 * 16 + b.toNat / 16 := by
  have hb := b.toNat_lt
  have hleft : ((a &&& 0x03) <<< 4).toNat = a.toNat % 2 ^ 2 * 2 ^ 4 := low_toNat a 0x03 2 4 rfl (by norm_num) (by norm_num)
  have hright : ((b &&& 0xF0) >>> 4).toNat = b.toNat / 2 ^ 4 := high_toNat b 0xF0 4 4 rfl (by norm_num) hb
  rw [sextet1, UInt8.toNat_or, hleft, hright]
  exact or_toNat (by omega)

theorem sextet2_toNat (b c : UInt8) : (sextet2 b c).toNat = b.toNat % 16 * 4 + c.toNat / 64 := by
  have hc := c.toNat_lt
  have hleft : ((b &&& 0x0F) <<< 2).toNat = b.toNat % 2 ^ 4 * 2 ^ 2 := low_toNat b 0x0F 4 2 rfl (by norm_num) (by norm_num)
  have hright : ((c &&& 0xC0) >>> 6).toNat = c.toNat / 2 ^ 6 := high_toNat c 0xC0 2 6 rfl (by norm_num) hc
  rw [sextet2, UInt8.toNat_or, hleft, hright]
  exact or_toNat (by omega)

theorem sextet3_toNat (c : UInt8) : (sextet3 c).toNat = c.toNat % 64 := Nat.and_two_pow_sub_one_eq_mod c.toNat 6

/-- The number of six bits. -/
theorem numberOf_six (b5 b4 b3 b2 b1 b0 : Bool) : numberOf [b5, b4, b3, b2, b1, b0] =
    32 * b5.toNat + 16 * b4.toNat + 8 * b3.toNat + 4 * b2.toNat + 2 * b1.toNat + b0.toNat := by
  simp only [numberOf, List.foldl_cons, List.foldl_nil]
  omega

/-- The groups of six over three bytes and what follows them. -/
theorem sixes_three (a b c : UInt8) (rest : List Bool) : sixes (bits a ++ (bits b ++ (bits c ++ rest))) =
    (sextet0 a).toNat :: (sextet1 a b).toNat :: (sextet2 b c).toNat :: (sextet3 c).toNat :: sixes rest := by
  have ha := a.toNat_lt
  have hb := b.toNat_lt
  have hc := c.toNat_lt
  simp only [bits, List.cons_append, List.nil_append, sixes, numberOf_six, Nat.toNat_testBit, sextet0_toNat,
    sextet1_toNat, sextet2_toNat, sextet3_toNat, List.cons.injEq, and_true]
  exact ⟨by omega, by omega, by omega, by omega⟩

theorem sixes_two (a b : UInt8) : sixes (bits a ++ bits b) =
    [(sextet0 a).toNat, (sextet1 a b).toNat, (sextet2 b 0).toNat] := by
  have ha := a.toNat_lt
  have hb := b.toNat_lt
  simp only [bits, List.cons_append, List.nil_append, sixes, List.replicate, List.length_cons, List.length_nil,
    numberOf_six, Nat.toNat_testBit, sextet0_toNat, sextet1_toNat, sextet2_toNat, List.cons.injEq, Bool.toNat_false]
  simp
  omega

theorem sixes_one (a : UInt8) : sixes (bits a) = [(sextet0 a).toNat, (sextet1 a 0).toNat] := by
  have ha := a.toNat_lt
  simp only [bits, List.cons_append, List.nil_append, sixes, List.replicate, List.length_cons, List.length_nil,
    numberOf_six, Nat.toNat_testBit, sextet0_toNat, sextet1_toNat, List.cons.injEq, Bool.toNat_false]
  simp
  omega

/-- The characters of a group that is not complete are padded to four. -/
theorem padded_rfc1521 (a : UInt8) : rfc1521 [a] = padded [a] := by
  rw [rfc1521, List.flatMap_singleton, sixes_one, padded, encode0_eq, encode1_eq, encode_alphabet (sextet0_lt a),
    encode_alphabet (sextet1_lt a 0)]
  rfl

theorem padded_rfc1521_two (a b : UInt8) : rfc1521 [a, b] = padded [a, b] := by
  have hbits : [a, b].flatMap bits = bits a ++ bits b := by simp
  rw [rfc1521, hbits, sixes_two, padded, encode0_eq, encode1_eq, encode2_eq, encode_alphabet (sextet0_lt a),
    encode_alphabet (sextet1_lt a b), encode_alphabet (sextet2_lt b 0)]
  rfl

/-- Three bytes are encoded as four characters, and the rest on its own. -/
theorem rfc1521_three (a b c : UInt8) (rest : List UInt8) : rfc1521 (a :: b :: c :: rest) =
    encode0 a :: encode1 a b :: encode2 b c :: encode3 c :: rfc1521 rest := by
  have hbits : (a :: b :: c :: rest).flatMap bits = bits a ++ (bits b ++ (bits c ++ rest.flatMap bits)) := by
    simp only [List.flatMap_cons]
  have hlength (n : ℕ) : (4 - (n + 1 + 1 + 1 + 1) % 4) % 4 = (4 - n % 4) % 4 := by omega
  simp only [rfc1521, hbits, sixes_three, List.map_cons, List.length_cons, hlength, List.cons_append,
    ← encode_alphabet (sextet0_lt a), ← encode_alphabet (sextet1_lt a b), ← encode_alphabet (sextet2_lt b c),
    ← encode_alphabet (sextet3_lt c), ← encode0_eq, ← encode1_eq, ← encode2_eq, ← encode3_eq]

/-- The encoding in chunks is that of the standard. -/
theorem encoding_rfc1521 (bytes : List UInt8) : encoding bytes = rfc1521 bytes := by
  induction bytes using chunks.induct with
  | case1 a b c rest ih =>
    rw [rfc1521_three, ← ih]
    rfl
  | case2 bytes hshort =>
    rcases bytes with _ | ⟨a, _ | ⟨b, _ | ⟨c, rest⟩⟩⟩
    · rfl
    · exact (padded_rfc1521 a).symm
    · exact (padded_rfc1521_two a b).symm
    · exact absurd rfl (hshort a b c rest)

/-- Strings that are encoded one after the other, each in its parts. -/
def sessions : List (List (List UInt8)) → Base64Call Unit
  | [] => pure ()
  | parts :: others => do
    encodes parts
    sessions others

/-- After any strings nothing is left of them. -/
theorem sessions_clean (earlier : List (List (List UInt8))) {base64 : Base64} (hsaved : base64.saved = 0)
    (hbuf : base64.buf = []) :
    ∃ used, Returns (sessions earlier) base64 () used ∧ used.saved = 0 ∧ used.buf = [] := by
  induction earlier generalizing base64 with
  | nil => exact ⟨base64, returns_pure () base64, hsaved, hbuf⟩
  | cons parts earlier ih =>
    obtain ⟨encoder, hencodes, -, hsaved, hbuf⟩ := encodes_clean hsaved hbuf parts
    obtain ⟨used, hused, hclean⟩ := ih hsaved hbuf
    exact ⟨used, hencodes.bind hused, hclean⟩

/-- An encoder that is new, or has finished other strings, gives the encoding of the standard of a string in
any parts. -/
theorem encodes_rfc1521 (earlier : List (List (List UInt8))) (parts : List (List UInt8)) :
    ∃ used encoder, Returns (sessions earlier) create () used ∧ Returns (encodes parts) used () encoder ∧
      encoder.output.flatten = used.output.flatten ++ rfc1521 parts.flatten := by
  obtain ⟨used, hused, hsaved, hbuf⟩ := @sessions_clean earlier create rfl rfl
  obtain ⟨encoder, hencodes, houtput, -⟩ := encodes_clean hsaved hbuf parts
  apply Exists.intro used
  apply Exists.intro encoder
  rw [← encoding_rfc1521]
  exact ⟨hused, hencodes, houtput⟩

end Base64

end Aug.Net
