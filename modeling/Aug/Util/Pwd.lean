import Aug.Util.Md5Digest

/-!
# Password digests

`aug_md5base64`, which writes hexadecimal digits in spite of its name, and `aug_digestpass`. The length of a string is
cast to an `unsigned`.
-/

namespace Aug.Util

open Aug.Sys

/-- A digit of `aug_md5base64`. -/
def md5digit (j : UInt8) : UInt8 := if j ≤ 9 then j + 48 else j + 97 - 10

/-- `aug_md5base64`, without the terminator. -/
def md5base64 (digest : List UInt8) : List UInt8 :=
  digest.flatMap fun byte : UInt8 => [md5digit (byte >>> 4 &&& 0xf), md5digit (byte &&& 0xf)]

/-- As much of a string as its length counts when it is cast to an `unsigned`. -/
def counted (s : List UInt8) : List UInt8 := s.take (s.length % 2 ^ 32)

/-- `aug_digestpass`, where the block of the context begins with arbitrary bytes. -/
def digestpass (endian : Endian) (inbuf username realm password : List UInt8) : Option (List UInt8) :=
  (md5 endian inbuf [counted username, [58], counted realm, [58], counted password]).map md5base64

/-- The digits of the digest of a message. -/
def hexDigest (message : List UInt8) : List UInt8 := md5base64 (digest message)

/-- The digits that may be written. -/
def hexDigits : List UInt8 := [48, 49, 50, 51, 52, 53, 54, 55, 56, 57, 97, 98, 99, 100, 101, 102]

/-- The digest of a user with a realm and a password. -/
def passDigest (username realm password : List UInt8) : List UInt8 :=
  hexDigest (counted username ++ [58] ++ counted realm ++ [58] ++ counted password)

variable {inbuf s : List UInt8} {parts : List (List UInt8)}

theorem digest_length (message : List UInt8) : (digest message).length = 16 := by
  rw [digest, Md5Words.list]
  simp [Endian.bytes_length]

theorem hexDigest_length (message : List UInt8) : (hexDigest message).length = 32 := by
  rw [hexDigest, md5base64, List.length_flatMap]
  simp [digest_length]

theorem md5digit_mem (j : UInt8) : md5digit (j &&& 0xf) ∈ hexDigits := by
  have hall : ∀ j : Fin 256, md5digit (UInt8.ofNat j &&& 0xf) ∈ hexDigits := by decide +kernel
  have hj := hall ⟨j.toNat, j.toNat_lt⟩
  rwa [UInt8.ofNat_toNat] at hj

theorem hexDigest_mem (message : List UInt8) : ∀ ch ∈ hexDigest message, ch ∈ hexDigits := by
  intro ch hch
  rw [hexDigest, md5base64, List.mem_flatMap] at hch
  obtain ⟨byte, -, hbyte⟩ := hch
  cases List.mem_cons.mp hbyte with
  | inl hhigh =>
    rw [hhigh]
    exact md5digit_mem _
  | inr hlow =>
    rw [List.mem_singleton.mp hlow]
    exact md5digit_mem _

theorem counted_length (s : List UInt8) : (counted s).length < 2 ^ 32 := by
  rw [counted, List.length_take]
  have hmod := Nat.mod_lt s.length (Nat.two_pow_pos 32)
  omega

theorem counted_eq (h : s.length < 2 ^ 32) : counted s = s := by
  rw [counted, Nat.mod_eq_of_lt h, List.take_length]

/-- The digits of the digest of some parts. -/
theorem md5_hex (endian : Endian) (hinbuf : inbuf.length = 64) (hparts : ∀ part ∈ parts, part.length < 2 ^ 32) :
    (md5 endian inbuf parts).map md5base64 = some (hexDigest parts.flatten) := by
  obtain ⟨ctx, hrun, hstands⟩ := Md5Context.appends_stand endian hparts (Md5Context.init_stands hinbuf)
  rw [md5, hrun, Option.bind_eq_bind, Option.bind_some, Md5Context.finish_spec endian hstands]
  rfl

theorem digestpass_eq (endian : Endian) (hinbuf : inbuf.length = 64) (username realm password : List UInt8) :
    digestpass endian inbuf username realm password = some (passDigest username realm password) := by
  rw [digestpass, md5_hex endian hinbuf, passDigest]
  · simp
  · simp only [List.forall_mem_cons]
    have hcolon : ([58] : List UInt8).length < 2 ^ 32 := by decide
    exact ⟨counted_length _, hcolon, counted_length _, hcolon, counted_length _, nofun⟩

end Aug.Util
