import Aug.Net.Http
import Aug.Util.Pwd
import Aug.Utilpp.Text

/-!
# Digest authentication

`aug_digestha1` and `aug_digestresponse`, and what they compute in terms of digests of whole messages.
-/

namespace Aug.Net

open Aug.Sys Aug.Util Aug.Utilpp

/-- `aug_strcasecmp`, where it is zero. -/
def samecase (lhs rhs : List UInt8) : Bool := decide (lhs.map tolower = rhs.map tolower)

/-- `aug_digestha1`. -/
def digestha1 (endian : Endian) (inbuf alg username realm password nonce cnonce : List UInt8) : Option (List UInt8) := do
  let ha1 ← md5 endian inbuf [counted username, [58], counted realm, [58], counted password]
  if samecase alg (bytes "md5-sess") then
    (md5 endian inbuf [ha1, [58], counted nonce, [58], counted cnonce]).map md5base64
  else some (md5base64 ha1)

/-- `aug_digestresponse`, for arrays of at least 32 bytes. -/
def digestresponse (endian : Endian) (inbuf ha1 nonce nc cnonce qop method uri hentity : List UInt8) :
    Option (List UInt8) := do
  let entity := if samecase qop (bytes "auth-int") then [[58], hentity.take 32] else []
  let ha2 ← md5 endian inbuf ([counted method, [58], counted uri] ++ entity)
  let request := if qop = [] then [] else [counted nc, [58], counted cnonce, [58], counted qop, [58]]
  (md5 endian inbuf ([ha1.take 32, [58], counted nonce, [58]] ++ request ++ [md5base64 ha2])).map md5base64

/-- What a response is to, apart from the user. -/
structure Challenge where
  nonce : List UInt8
  nc : List UInt8
  cnonce : List UInt8
  qop : List UInt8
  method : List UInt8
  uri : List UInt8

/-- `H(A2)`. -/
def Challenge.action (challenge : Challenge) (hentity : List UInt8) : List UInt8 :=
  hexDigest (counted challenge.method ++ [58] ++ counted challenge.uri ++
    if samecase challenge.qop (bytes "auth-int") then [58] ++ hentity else [])

/-- The response to a challenge for some `H(A1)`. -/
def Challenge.response (challenge : Challenge) (ha1 hentity : List UInt8) : List UInt8 :=
  hexDigest (ha1 ++ [58] ++ counted challenge.nonce ++ [58] ++
    (if challenge.qop = [] then []
      else counted challenge.nc ++ [58] ++ counted challenge.cnonce ++ [58] ++ counted challenge.qop ++ [58]) ++
    challenge.action hentity)

variable {inbuf alg : List UInt8}

theorem digestha1_eq (endian : Endian) (hinbuf : inbuf.length = 64) (halg : samecase alg (bytes "md5-sess") = false)
    (username realm password nonce cnonce : List UInt8) :
    digestha1 endian inbuf alg username realm password nonce cnonce = some (passDigest username realm password) := by
  have hpass := digestpass_eq endian hinbuf username realm password
  rw [digestpass, Option.map_eq_some_iff] at hpass
  obtain ⟨ha1, hmd5, hhex⟩ := hpass
  rw [digestha1, hmd5, halg, ← hhex]
  rfl

theorem colon_length : ([58] : List UInt8).length < 2 ^ 32 := by decide

theorem digits_length (s : List UInt8) : (s.take 32).length < 2 ^ 32 :=
  (List.length_take_le 32 s).trans_lt (by decide)

/-- The digits of `H(A2)` are those of a digest that is made. -/
theorem action_eq (endian : Endian) (hinbuf : inbuf.length = 64) (hentity : List UInt8) (challenge : Challenge) :
    ∃ ha2, md5 endian inbuf ([counted challenge.method, [58], counted challenge.uri] ++
        if samecase challenge.qop (bytes "auth-int") then [[58], hentity.take 32] else []) = some ha2 ∧
      md5base64 ha2 = challenge.action (hentity.take 32) := by
  rw [← Option.map_eq_some_iff, md5_hex endian hinbuf, Challenge.action]
  · split_ifs
    · simp
    · simp
  · intro part hpart
    cases List.mem_append.mp hpart with
    | inl hpart =>
      simp only [List.mem_cons, List.not_mem_nil, or_false] at hpart
      obtain rfl | rfl | rfl := hpart
      · exact counted_length _
      · exact colon_length
      · exact counted_length _
    | inr hpart =>
      split_ifs at hpart
      · simp only [List.mem_cons, List.not_mem_nil, or_false] at hpart
        obtain rfl | rfl := hpart
        · exact colon_length
        · exact digits_length hentity
      · cases hpart

theorem digestresponse_eq (endian : Endian) (hinbuf : inbuf.length = 64) (ha1 hentity : List UInt8)
    (challenge : Challenge) :
    digestresponse endian inbuf ha1 challenge.nonce challenge.nc challenge.cnonce challenge.qop challenge.method
      challenge.uri hentity = some (challenge.response (ha1.take 32) (hentity.take 32)) := by
  obtain ⟨ha2, hmd5, haction⟩ := action_eq endian hinbuf hentity challenge
  have hdigits : (challenge.action (hentity.take 32)).length < 2 ^ 32 := by
    rw [Challenge.action, hexDigest_length]
    decide
  rw [digestresponse]
  dsimp only
  rw [hmd5, Option.bind_eq_bind, Option.bind_some, haction, md5_hex endian hinbuf, Challenge.response]
  · split_ifs
    · simp
    · simp
  · intro part hpart
    cases List.mem_append.mp hpart with
    | inr hpart =>
      rw [List.mem_singleton.mp hpart]
      exact hdigits
    | inl hpart =>
      cases List.mem_append.mp hpart with
      | inl hpart =>
        simp only [List.mem_cons, List.not_mem_nil, or_false] at hpart
        obtain rfl | rfl | rfl | rfl := hpart
        · exact digits_length ha1
        · exact colon_length
        · exact counted_length _
        · exact colon_length
      | inr hpart =>
        split_ifs at hpart
        · cases hpart
        · simp only [List.mem_cons, List.not_mem_nil, or_false] at hpart
          obtain rfl | rfl | rfl | rfl | rfl | rfl := hpart
          · exact counted_length _
          · exact colon_length
          · exact counted_length _
          · exact colon_length
          · exact counted_length _
          · exact colon_length

end Aug.Net
