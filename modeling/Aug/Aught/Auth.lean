import Aug.Aught.Passwd
import Aug.Lib.Memory
import Aug.Net.Auth
import Aug.Net.Base64RoundTrip
import Aug.Utilpp.Url

/-!
# Authentication of requests

`splitlist`, `digestauth` and `basicauth` of the HTTP module. For a digest authorization, the digest of the user is
copied into an array on the stack, and the response of the client is compared with the one that is made of it. The nonce
is the client's own, and so is the realm. For a basic one the password is sent, and its digest is compared.
-/

namespace Aug.Aught

open Lib Sys Util Utilpp Net

/-- The string that `c_str` points to. -/
def cstr (s : List UInt8) : List UInt8 := s.takeWhile (· ≠ 0)

/-- A token of `splitlist`, with the characters around its parts taken off. -/
def splitpair (tok : List UInt8) : List UInt8 × List UInt8 :=
  let xy := split2 61 tok
  (trim space xy.1, trim [34] (trim space xy.2))

/-- The pairs of `splitlist`. -/
abbrev Pairs := OrderedMap (List UInt8) (List UInt8)

/-- `less<string>`. -/
def textLt (a b : List UInt8) : Bool := decide (a < b)

/-- Assign a pair. -/
def Pairs.assign (pairs : Pairs) (pair : List UInt8 × List UInt8) : Pairs := pairs.put textLt pair.1 pair.2

/-- `splitlist`, for a map that is empty. -/
def splitlist (encoded : List UInt8) (delim : UInt8) : Pairs :=
  (encoded.splitOn delim).foldl (fun pairs tok => pairs.assign (splitpair tok)) .empty

/-- The value of a pair, which is empty where there is none. -/
def Pairs.value (pairs : Pairs) (key : String) : List UInt8 := (pairs.find (bytes key)).getD []

/-- `digestauth`. The array `ha1` begins with arbitrary bytes, and a digest that it cannot hold has no result. -/
def digestauth (endian : Endian) (inbuf stack : List UInt8) (passwd : PasswdTable) (list method : List UInt8) :
    Option Bool :=
  let pairs := splitlist list 44
  match passwd.find (pairs.value "username", pairs.value "realm") with
  | none => some false
  | some digest => do
    let ha1 ← store stack 0 (cstr digest ++ [0])
    let response ← digestresponse endian inbuf ha1 (cstr (pairs.value "nonce")) (cstr (pairs.value "nc"))
      (cstr (pairs.value "cnonce")) (cstr (pairs.value "qop")) (cstr method) (cstr (pairs.value "uri"))
      (List.replicate 33 0)
    return decide (pairs.value "response" = response)

/-- `filterbase64`, to decode. -/
def filterbase64 (s : List UInt8) : Option (Except Base64Error (List UInt8)) :=
  (Base64.decodes [s] Base64.create).map fun result => result.1.map fun _ => result.2.output.flatten

/-- `basicauth`. The exception of a string that cannot be decoded is thrown on. -/
def basicauth (endian : Endian) (inbuf : List UInt8) (passwd : PasswdTable) (encoded realm : List UInt8) :
    Option (Except Base64Error Bool) := do
  match ← filterbase64 encoded with
  | .error except => some (.error except)
  | .ok xy =>
    let (x, y) := split2 58 xy
    match passwd.find (x, realm) with
    | none => some (.ok false)
    | some digest => do
      let base64 ← digestpass endian inbuf (cstr x) (cstr realm) (cstr y)
      return .ok (decide (digest = base64))

/-- A parameter that a client sends, in quotes or not. -/
structure Param where
  key : List UInt8
  value : List UInt8
  quoted : Bool

/-- What is written for a parameter, with a blank in front. -/
def Param.text (param : Param) : List UInt8 :=
  32 :: (param.key ++ 61 :: (if param.quoted then 34 :: (param.value ++ [34]) else param.value))

/-- The parameters as a client lists them. -/
def writelist (params : List Param) : List UInt8 := [44].intercalate (params.map Param.text)

/-- A parameter that is read as it is written: neither part has a comma, the key has no equals sign and no white space
around it, and the value has no quotes around it, nor white space if it is not in quotes. -/
structure Param.Plain (param : Param) : Prop where
  comma : 44 ∉ param.key ∧ 44 ∉ param.value
  equals : 61 ∉ param.key
  key : Trimmed space param.key
  value : Trimmed [34] param.value
  bare : param.quoted = false → Trimmed space param.value

instance (param : Param) : Decidable param.Plain :=
  decidable_of_iff ((44 ∉ param.key ∧ 44 ∉ param.value) ∧ 61 ∉ param.key ∧ Trimmed space param.key ∧
      Trimmed [34] param.value ∧ (param.quoted = false → Trimmed space param.value))
    ⟨fun h => ⟨h.1, h.2.1, h.2.2.1, h.2.2.2.1, h.2.2.2.2⟩, fun h => ⟨h.comma, h.equals, h.key, h.value, h.bare⟩⟩

/-- The last value that a client lists for a key. -/
def lastValue (params : List Param) (key : List UInt8) : Option (List UInt8) :=
  (params.reverse.find? fun param => param.key = key).map Param.value

/-- What a client answers to, from the parameters that it lists. -/
def challengeOf (params : List Param) (method : List UInt8) : Challenge :=
  let value (key : String) : List UInt8 := cstr ((lastValue params (bytes key)).getD [])
  ⟨value "nonce", value "nc", value "cnonce", value "qop", cstr method, value "uri"⟩

variable {param : Param} {params : List Param} {delims s : List UInt8} {key : List UInt8}

/-! ## Reading a list of parameters -/

/-- A delimiter in front is taken off. -/
theorem trim_cons {ch : UInt8} (h : ch ∈ delims) (s : List UInt8) : trim delims (ch :: s) = trim delims s := by
  rw [trim, ltrim, List.dropWhile_cons_of_pos (by simpa using h)]
  rfl

/-- A delimiter behind is taken off. -/
theorem trim_concat {ch : UInt8} (h : ch ∈ delims) (hs : Trimmed delims s) : trim delims (s ++ [ch]) = s := by
  cases s with
  | nil =>
    rw [List.nil_append, trim_cons h]
    rfl
  | cons first s =>
    have hfirst : first ∉ delims := hs.1 first rfl
    have hleft : ltrim delims (first :: s ++ [ch]) = first :: s ++ [ch] :=
      List.dropWhile_cons_of_neg (by simpa using hfirst)
    have hright : rtrim delims (first :: s ++ [ch]) = rtrim delims (first :: s) :=
      List.rdropWhile_concat_pos _ _ _ (by simpa using h)
    have hself := trim_eq_self hs
    have hleft' : ltrim delims (first :: s) = first :: s := List.dropWhile_cons_of_neg (by simpa using hfirst)
    rw [trim, hleft'] at hself
    rw [trim, hleft, hright, hself]

/-- A string is split at the first delimiter. -/
theorem split2_append {delim : UInt8} (h : delim ∉ s) (rest : List UInt8) :
    split2 delim (s ++ delim :: rest) = (s, rest) := by
  have hall : ∀ ch ∈ s, decide (ch ≠ delim) = true := by
    intro ch hch
    rw [decide_eq_true_eq]
    intro heq
    rw [heq] at hch
    exact h hch
  rw [split2, List.takeWhile_append_of_pos hall, List.dropWhile_append_of_pos hall]
  simp

theorem splitpair_text (h : param.Plain) : splitpair param.text = (param.key, param.value) := by
  have hequals : 61 ∉ 32 :: param.key := by simp [h.equals]
  have hsplit (rest : List UInt8) : split2 61 (32 :: (param.key ++ 61 :: rest)) = (32 :: param.key, rest) :=
    split2_append hequals rest
  have hkey : trim space (32 :: param.key) = param.key :=
    (trim_cons (by decide +kernel) _).trans (trim_eq_self h.key)
  rw [splitpair, Param.text]
  cases hquoted : param.quoted with
  | false =>
    rw [if_neg Bool.false_ne_true, hsplit]
    dsimp only
    rw [hkey, trim_eq_self (h.bare hquoted), trim_eq_self h.value]
  | true =>
    have hquotes : Trimmed space (34 :: (param.value ++ [34])) := by
      have hquote : (34 : UInt8) ∉ space := by decide +kernel
      constructor
      · intro ch hch
        cases hch
        exact hquote
      · intro ch hch
        rw [← List.cons_append, List.getLast?_concat] at hch
        cases hch
        exact hquote
    rw [if_pos rfl, hsplit]
    dsimp only
    rw [hkey, trim_eq_self hquotes, trim_cons (by decide +kernel), trim_concat (by decide +kernel) h.value]

theorem comma_text (h : param.Plain) : 44 ∉ param.text := by
  rw [Param.text]
  split_ifs
  · simp [h.comma.1, h.comma.2]
  · simp [h.comma.1, h.comma.2]

theorem lastValue_cons (param : Param) (params : List Param) (key : List UInt8) : lastValue (param :: params) key =
    (lastValue params key).or (if param.key = key then some param.value else none) := by
  rw [lastValue, lastValue, List.reverse_cons, List.find?_append]
  cases params.reverse.find? fun param => param.key = key with
  | some found => rfl
  | none =>
    by_cases hkey : param.key = key
    · simp [hkey]
    · simp [hkey]

/-- The parameters that are assigned in turn, with the last value of each key. -/
theorem find_assigns (h : ∀ param ∈ params, param.Plain) (pairs : Pairs) (key : List UInt8) :
    ((params.map Param.text).foldl (fun pairs tok => pairs.assign (splitpair tok)) pairs).find key =
      (lastValue params key).or (pairs.find key) := by
  induction params generalizing pairs with
  | nil => rfl
  | cons param params ih =>
    rw [List.map_cons, List.foldl_cons, ih fun other hother => h other (List.mem_cons_of_mem _ hother),
      splitpair_text (h param List.mem_cons_self), lastValue_cons, Pairs.assign, OrderedMap.find_put]
    cases lastValue params key with
    | some found => rfl
    | none =>
      by_cases hkey : param.key = key
      · rw [if_pos hkey, if_pos hkey.symm]
        rfl
      · rw [if_neg hkey, if_neg (Ne.symm hkey)]
        rfl

/-- A list that is written is read. -/
theorem find_splitlist (h : ∀ param ∈ params, param.Plain) (hne : params ≠ []) (key : List UInt8) :
    (splitlist (writelist params) 44).find key = lastValue params key := by
  have hcomma : ∀ text ∈ params.map Param.text, 44 ∉ text := by
    intro text htext
    obtain ⟨param, hparam, rfl⟩ := List.mem_map.mp htext
    exact comma_text (h param hparam)
  rw [splitlist, writelist, List.splitOn_intercalate 44 hcomma (by simpa using hne), find_assigns h]
  exact Option.or_none

/-! ## Authentication -/

/-- A string without a terminator. -/
theorem cstr_eq (h : 0 ∉ s) : cstr s = s := by
  rw [cstr, List.takeWhile_eq_self_iff]
  intro ch hch
  rw [decide_eq_true_eq]
  intro heq
  rw [heq] at hch
  exact h hch

/-- A digest of 32 digits is copied into the array with its terminator. -/
theorem store_digest {stack digest : List UInt8} (hstack : stack.length = 33) (hdigest : digest.length = 32) :
    store stack 0 (digest ++ [0]) = some (digest ++ [0]) := by
  have hsize : (digest ++ [0]).length = 33 := by simp [hdigest]
  rw [store, if_pos (by omega), hsize, List.drop_of_length_le (by omega)]
  simp

/-- What is made of a digest in the table. -/
theorem digestauth_writelist (endian : Endian) {inbuf stack : List UInt8} (hinbuf : inbuf.length = 64)
    (hstack : stack.length = 33) {passwd : PasswdTable} {user realm digest : List UInt8} (method : List UInt8)
    (hplain : ∀ param ∈ params, param.Plain) (huser : lastValue params (bytes "username") = some user)
    (hrealm : lastValue params (bytes "realm") = some realm) (hfind : passwd.find (user, realm) = some digest)
    (hlength : digest.length = 32) (hzero : 0 ∉ digest) :
    digestauth endian inbuf stack passwd (writelist params) method =
      some (decide ((lastValue params (bytes "response")).getD [] =
        (challengeOf params method).response digest (List.replicate 32 0))) := by
  have hne : params ≠ [] := by
    intro hnil
    rw [hnil] at huser
    cases huser
  have hvalue (key : String) : (splitlist (writelist params) 44).value key = (lastValue params (bytes key)).getD [] := by
    rw [Pairs.value, find_splitlist hplain hne]
  have hresponse := digestresponse_eq endian hinbuf (digest ++ [0]) (List.replicate 33 0) (challengeOf params method)
  have htake : (digest ++ [0]).take 32 = digest := List.take_left' hlength
  have hzeros : (List.replicate 33 (0 : UInt8)).take 32 = List.replicate 32 0 := rfl
  rw [htake, hzeros] at hresponse
  rw [digestauth]
  simp only [hvalue, huser, hrealm, Option.getD_some, hfind, cstr_eq hzero, store_digest hstack hlength]
  rw [Option.bind_eq_bind, Option.bind_some]
  exact congrArg (Option.bind · _) hresponse

/-- The parameters of the example in `auth.c`. -/
def mufasa : List Param :=
  [⟨bytes "username", bytes "Mufasa", true⟩, ⟨bytes "realm", bytes "testrealm@host.com", true⟩,
    ⟨bytes "nonce", bytes "dcd98b7102dd2f0e8b11d0f600bfb0c093", true⟩, ⟨bytes "uri", bytes "/dir/index.html", true⟩,
    ⟨bytes "qop", bytes "auth", false⟩, ⟨bytes "nc", bytes "00000001", false⟩,
    ⟨bytes "cnonce", bytes "0a4f113b", true⟩, ⟨bytes "response", bytes "6629fae49393a05397450978507c4ef1", true⟩,
    ⟨bytes "opaque", bytes "5ccc069c403ebaf9f0171e9517f40e41", true⟩]

/-- An encoding is empty or has at least four characters. -/
theorem encoding_long (s : List UInt8) : s = [] ∨ 4 ≤ (Base64.encoding s).length := by
  rcases s with _ | ⟨a, _ | ⟨b, _ | ⟨c, rest⟩⟩⟩
  · exact .inl rfl
  · exact .inr le_rfl
  · exact .inr le_rfl
  · right
    rw [Base64.encoding, Base64.chunks, List.length_append]
    simp only [List.length_cons]
    omega

/-- A string that is encoded is decoded, since it comes in one part. -/
theorem filterbase64_encoding (s : List UInt8) : filterbase64 (Base64.encoding s) = some (.ok s) := by
  have hwhole : ¬(s.length % 3 = 1 ∧ [Base64.pad] ∈ [Base64.encoding s]) := by
    rintro ⟨hone, hpad⟩
    cases encoding_long s with
    | inl hnil =>
      rw [hnil] at hone
      cases hone
    | inr hlong =>
      rw [← List.mem_singleton.mp hpad] at hlong
      exact absurd hlong (by decide)
  obtain ⟨decoder, hreturns, houtput⟩ := (Base64.decodes_encoding s List.flatten_singleton).2 hwhole
  have hcall : Base64.decodes [Base64.encoding s] Base64.create = some (.ok (), decoder) := hreturns
  rw [filterbase64, hcall, ← houtput]
  rfl

/-- What a client sends for a user and a password is judged by the digest of the user. -/
theorem basicauth_encoding (endian : Endian) {inbuf : List UInt8} (hinbuf : inbuf.length = 64) (passwd : PasswdTable)
    {user : List UInt8} (hcolon : 58 ∉ user) (realm attempt : List UInt8) :
    basicauth endian inbuf passwd (Base64.encoding (user ++ 58 :: attempt)) realm =
      some (.ok ((passwd.find (user, realm)).any fun digest =>
        decide (digest = passDigest (cstr user) (cstr realm) (cstr attempt)))) := by
  rw [basicauth, filterbase64_encoding, Option.bind_eq_bind, Option.bind_some]
  dsimp only
  rw [split2_append hcolon]
  dsimp only
  cases passwd.find (user, realm) with
  | none => rfl
  | some digest =>
    dsimp only
    rw [digestpass_eq endian hinbuf]
    rfl

end Aug.Aught
