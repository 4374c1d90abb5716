import Aug.Lib.OrderedMap
import Aug.Util.Pwd
import Aug.Utilpp.Text

/-!
# The password file

A line of the file has a user, a realm and a digest. The program `htdigest` writes the file, and `loadpasswd` of the
HTTP module reads it. Lines that are blank, comments, or do not have three parts are passed over by both.
-/

namespace Aug.Aught

open Lib Sys Util Utilpp

/-- A user and a realm. -/
abbrev PasswdKey := List UInt8 × List UInt8

/-- `less<pair<string, string>>`. -/
def PasswdKey.less (a b : PasswdKey) : Bool := decide (a.1 < b.1) || (decide (a.1 = b.1) && decide (a.2 < b.2))

/-- The parts of a line that is neither blank nor a comment, if there are three. -/
def entry (raw : List UInt8) : Option (PasswdKey × List UInt8) :=
  let line := trim space raw
  if line = [] ∨ line.head? = some 35 then none
  else
    match line.splitOn 58 with
    | [user, realm, digest] => some ((user, realm), digest)
    | _ => none

/-- `print`, without the end of the line. -/
def print (key : PasswdKey) (digest : List UInt8) : List UInt8 := key.1 ++ 58 :: (key.2 ++ 58 :: digest)

/-- What `update` leaves of a line. -/
def updateline (key : PasswdKey) (digest raw : List UInt8) : List UInt8 :=
  match entry raw with
  | some (other, _) => if other = key then print key digest else raw
  | none => raw

/-- `update` has met the key. -/
def updated (key : PasswdKey) (text : List UInt8) : Bool :=
  (getlines text).any fun raw => (entry raw).any fun entry => entry.1 = key

/-- `update`. -/
def update (key : PasswdKey) (digest text : List UInt8) : List UInt8 :=
  putlines ((getlines text).map (updateline key digest))

/-- The file that the program leaves for a password that has been typed twice. -/
def htdigest (endian : Endian) (inbuf : List UInt8) (create : Bool) (text realm user password : List UInt8) :
    Option (List UInt8) :=
  (digestpass endian inbuf user realm password).map fun digest =>
    let key := (user, realm)
    if create then putlines [print key digest]
    else if updated key text then update key digest text
    else update key digest text ++ putlines [print key digest]

/-- `options::passwd_`. -/
abbrev PasswdTable := OrderedMap PasswdKey (List UInt8)

/-- What `loadpasswd` does with a line. The first entry of a key stays. -/
def loadline (passwd : PasswdTable) (raw : List UInt8) : PasswdTable :=
  match entry raw with
  | some (key, digest) => if (passwd.find key).isSome then passwd else passwd.put PasswdKey.less key digest
  | none => passwd

/-- `loadpasswd`. -/
def loadpasswd (text : List UInt8) : PasswdTable := (getlines text).foldl loadline .empty

/-- A key that a line can hold. -/
def Storable (key : PasswdKey) : Prop :=
  58 ∉ key.1 ∧ 58 ∉ key.2 ∧ 10 ∉ key.1 ∧ 10 ∉ key.2 ∧ ∀ ch ∈ key.1.head?, ch ∉ space ∧ ch ≠ 35

instance : DecidablePred Storable := fun key =>
  inferInstanceAs (Decidable (58 ∉ key.1 ∧ 58 ∉ key.2 ∧ 10 ∉ key.1 ∧ 10 ∉ key.2 ∧
    ∀ ch ∈ key.1.head?, ch ∉ space ∧ ch ≠ 35))

variable {key other : PasswdKey} {digest raw text : List UInt8}

/-- What a line has for a key. -/
def lookup (key : PasswdKey) (raw : List UInt8) : Option (List UInt8) :=
  (entry raw).bind fun entry => if entry.1 = key then some entry.2 else none

/-- The table has what the first line has that has something. -/
theorem find_loadpasswd (text : List UInt8) (key : PasswdKey) :
    (loadpasswd text).find key = (getlines text).findSome? (lookup key) := by
  have hfold (lines : List (List UInt8)) (passwd : PasswdTable) :
      (lines.foldl loadline passwd).find key = (passwd.find key).or (lines.findSome? (lookup key)) := by
    induction lines generalizing passwd with
    | nil => simp
    | cons raw lines ih =>
      rw [List.foldl_cons, ih, List.findSome?_cons, loadline, lookup]
      cases hentry : entry raw with
      | none => rfl
      | some found =>
        dsimp only [Option.bind_some]
        by_cases hkey : found.1 = key
        · rw [if_pos hkey, ← hkey]
          cases hfind : passwd.find found.1 with
          | some there =>
            rw [if_pos Option.isSome_some, hfind]
            rfl
          | none =>
            rw [if_neg (by simp), OrderedMap.find_put, if_pos rfl]
            rfl
        · rw [if_neg hkey]
          split_ifs
          · rfl
          · rw [OrderedMap.find_put, if_neg (Ne.symm hkey)]
  rw [loadpasswd, hfold]
  rfl

/-- A digest that a line can end with. -/
def Digits (digest : List UInt8) : Prop := digest ≠ [] ∧ ∀ ch ∈ digest, ch ∈ hexDigits

/-- A line begins with the user, or with the colon behind it. -/
theorem print_head (hkey : Storable key) : ∀ ch ∈ (print key digest).head?, ch ∉ space ∧ ch ≠ 35 := by
  obtain ⟨-, -, -, -, hhead⟩ := hkey
  intro ch hch
  cases huser : key.1 with
  | nil =>
    rw [print, huser] at hch
    cases hch
    decide
  | cons first user =>
    rw [print, huser] at hch
    rw [huser] at hhead
    exact hhead ch hch

theorem print_getLast (hdigest : Digits digest) : (print key digest).getLast? = digest.getLast? := by
  cases digest with
  | nil => exact absurd rfl hdigest.1
  | cons ch digest =>
    rw [print, List.getLast?_append_cons, ← List.cons_append, List.getLast?_append_cons, List.getLast?_cons_cons]

/-- The line of a key is read as it was printed. -/
theorem entry_print (hkey : Storable key) (hdigest : Digits digest) :
    entry (print key digest) = some (key, digest) := by
  have hcolon : 58 ∉ digest := fun hmem => absurd (hdigest.2 58 hmem) (by decide)
  have hparts : (print key digest).splitOn 58 = [key.1, key.2, digest] := by
    rw [print, List.splitOn_append_cons_self_of_not_mem hkey.1, List.splitOn_append_cons_self_of_not_mem hkey.2.1,
      List.splitOn_eq_singleton hcolon]
  have htrim : trim space (print key digest) = print key digest := by
    apply trim_eq_self
    constructor
    · intro ch hch
      exact (print_head hkey ch hch).1
    · intro ch hch
      rw [print_getLast hdigest] at hch
      have hdigits : ∀ ch ∈ hexDigits, ch ∉ space := by decide +kernel
      exact hdigits ch (hdigest.2 ch (List.mem_of_getLast? hch))
  have hfirst : ¬(print key digest = [] ∨ (print key digest).head? = some 35) := by
    intro hor
    cases hor with
    | inl hnil => simp [print] at hnil
    | inr hcomment => exact (print_head hkey 35 hcomment).2 rfl
  rw [entry, htrim, if_neg hfirst, hparts]

/-- What is read from a line is a key that a line can hold. -/
theorem storable_entry (hraw : 10 ∉ raw) (h : entry raw = some (key, digest)) : Storable key := by
  rw [entry] at h
  split_ifs at h with hfirst
  have hjoin : [58].intercalate ((trim space raw).splitOn 58) = trim space raw := List.intercalate_splitOn 58
  have hnone := notMem_of_mem_splitOn 58 (trim space raw)
  split at h
  · rename_i user realm found hparts
    cases h
    rw [hparts] at hjoin hnone
    have hprint : print (user, realm) digest = trim space raw := by
      rw [← hjoin, print]
      simp [List.intercalate]
    have hnewline : 10 ∉ print (user, realm) digest := by
      rw [hprint]
      exact fun hmem => hraw ((trim_within space raw).subset hmem)
    have hhead (ch : UInt8) (hch : ch ∈ user.head?) : (trim space raw).head? = some ch := by
      rw [← hprint, print, List.head?_append, hch]
      rfl
    apply And.intro (hnone user (by simp))
    apply And.intro (hnone realm (by simp))
    apply And.intro fun hmem => hnewline (by simp [print, hmem])
    apply And.intro fun hmem => hnewline (by simp [print, hmem])
    intro ch hch
    apply And.intro ((trimmed_trim space raw).1 ch (hhead ch hch))
    intro hcomment
    apply hfirst
    rw [hhead ch hch, hcomment]
    exact .inr rfl
  · cases h

/-! ## The table after an update -/

/-- The line for the key is what is looked up, and lines for others are left. -/
theorem lookup_updateline (hkey : Storable key) (hdigest : Digits digest) (other : PasswdKey) (raw : List UInt8) :
    lookup other (updateline key digest raw) =
      if other = key then (lookup key raw).map fun _ => digest else lookup other raw := by
  have hprint : lookup other (print key digest) = if key = other then some digest else none := by
    rw [lookup, entry_print hkey hdigest]
    rfl
  cases hentry : entry raw with
  | none =>
    have hnone (key : PasswdKey) : lookup key raw = none := by rw [lookup, hentry]; rfl
    rw [updateline, hentry, hnone, hnone]
    split_ifs
    · rfl
    · rfl
  | some found =>
    have hsome (key : PasswdKey) : lookup key raw = if found.1 = key then some found.2 else none := by
      rw [lookup, hentry]
      rfl
    rw [updateline, hentry]
    dsimp only
    by_cases hfound : found.1 = key
    · rw [if_pos hfound, hprint, hsome, hsome, hfound, if_pos rfl]
      by_cases hother : other = key
      · rw [if_pos hother, if_pos hother.symm]
        rfl
      · rw [if_neg hother, if_neg (Ne.symm hother), if_neg (Ne.symm hother)]
    · rw [if_neg hfound, hsome, hsome, if_neg hfound]
      by_cases hother : other = key
      · rw [if_pos hother, hother, if_neg hfound]
        rfl
      · rw [if_neg hother]

/-- What is looked up in all of the lines. -/
theorem findSome_updateline (hkey : Storable key) (hdigest : Digits digest) (other : PasswdKey)
    (lines : List (List UInt8)) : (lines.map (updateline key digest)).findSome? (lookup other) =
      if other = key then (lines.findSome? (lookup key)).map fun _ => digest else lines.findSome? (lookup other) := by
  induction lines with
  | nil =>
    split_ifs
    · rfl
    · rfl
  | cons raw lines ih =>
    rw [List.map_cons, List.findSome?_cons, List.findSome?_cons, List.findSome?_cons, ih,
      lookup_updateline hkey hdigest]
    split_ifs
    · cases lookup key raw with
      | none => rfl
      | some found => rfl
    · rfl

/-- The key is met where a line has something for it. -/
theorem updated_eq (key : PasswdKey) (text : List UInt8) :
    updated key text = ((getlines text).findSome? (lookup key)).isSome := by
  rw [updated]
  induction getlines text with
  | nil => rfl
  | cons raw lines ih =>
    rw [List.any_cons, List.findSome?_cons, ih, lookup]
    cases entry raw with
    | none => rfl
    | some found =>
      dsimp only [Option.any_some, Option.bind_some]
      split_ifs with hfound
      · simp [hfound]
      · simp [hfound]

theorem newline_print (hkey : Storable key) (hdigest : Digits digest) : 10 ∉ print key digest := by
  have hdigits : 10 ∉ digest := fun hmem => absurd (hdigest.2 10 hmem) (by decide)
  simp [print, hkey.2.2.1, hkey.2.2.2.1, hdigits]

theorem newline_updateline (hkey : Storable key) (hdigest : Digits digest) (hraw : 10 ∉ raw) :
    10 ∉ updateline key digest raw := by
  rw [updateline]
  split
  · split_ifs
    · exact newline_print hkey hdigest
    · exact hraw
  · exact hraw

/-- The lines that are put are those that are loaded. -/
theorem find_putlines {lines : List (List UInt8)} (h : ∀ line ∈ lines, 10 ∉ line) (key : PasswdKey) :
    (loadpasswd (putlines lines)).find key = lines.findSome? (lookup key) := by
  rw [find_loadpasswd, getlines_putlines h]

theorem find_print (hkey : Storable key) (hdigest : Digits digest) (other : PasswdKey) :
    [print key digest].findSome? (lookup other) = if other = key then some digest else none := by
  rw [List.findSome?_singleton, lookup, entry_print hkey hdigest, Option.bind_some]
  split_ifs with heq hne hne
  · rfl
  · exact absurd heq.symm hne
  · exact absurd hne.symm heq
  · rfl

/-- The lines that an update leaves, with the one that is added where the key has not been met. -/
theorem find_update (hkey : Storable key) (hdigest : Digits digest) (text : List UInt8) (other : PasswdKey) :
    (loadpasswd (if updated key text then update key digest text
      else update key digest text ++ putlines [print key digest])).find other =
        if other = key then some digest else (loadpasswd text).find other := by
  have hlines (line : List UInt8) (hline : line ∈ (getlines text).map (updateline key digest)) : 10 ∉ line := by
    obtain ⟨raw, hraw, rfl⟩ := List.mem_map.mp hline
    exact newline_updateline hkey hdigest (newline_notMem text raw hraw)
  have hprint (line : List UInt8) (hline : line ∈ [print key digest]) : 10 ∉ line := by
    rw [List.mem_singleton.mp hline]
    exact newline_print hkey hdigest
  rw [updated_eq, find_loadpasswd text]
  cases hmet : (getlines text).findSome? (lookup key) with
  | some found =>
    rw [if_pos Option.isSome_some, update, find_putlines hlines, findSome_updateline hkey hdigest, hmet]
    rfl
  | none =>
    have hjoin : update key digest text ++ putlines [print key digest] =
        putlines ((getlines text).map (updateline key digest) ++ [print key digest]) := by
      rw [update, putlines, putlines, putlines, List.flatMap_append]
    have hall (line : List UInt8) (hline : line ∈ (getlines text).map (updateline key digest) ++ [print key digest]) :
        10 ∉ line := by
      cases List.mem_append.mp hline with
      | inl hline => exact hlines line hline
      | inr hline => exact hprint line hline
    rw [if_neg (by simp), hjoin, find_putlines hall, List.findSome?_append, findSome_updateline hkey hdigest,
      find_print hkey hdigest, hmet]
    split_ifs
    · rfl
    · rw [Option.or_none]

/-- A key that a line cannot hold is not loaded. -/
theorem storable_of_find (h : (loadpasswd text).find key = some digest) : Storable key := by
  rw [find_loadpasswd] at h
  obtain ⟨raw, hraw, hlookup⟩ := List.exists_of_findSome?_eq_some h
  obtain ⟨found, hentry, hfound⟩ := Option.bind_eq_some_iff.mp hlookup
  split_ifs at hfound with hkey
  rw [← hkey]
  exact storable_entry (newline_notMem text raw hraw) hentry

theorem digits_passDigest (user realm password : List UInt8) : Digits (passDigest user realm password) := by
  constructor
  · intro hnil
    have hlength := hexDigest_length (counted user ++ [58] ++ counted realm ++ [58] ++ counted password)
    rw [passDigest] at hnil
    rw [hnil] at hlength
    cases hlength
  · exact hexDigest_mem _

/-- What is loaded from the file that the program leaves for a key that a line can hold. -/
theorem find_htdigest (endian : Endian) {inbuf : List UInt8} (hinbuf : inbuf.length = 64) (create : Bool)
    (text realm user password : List UInt8) :
    ∃ out, htdigest endian inbuf create text realm user password = some out ∧
      (Storable (user, realm) → ∀ other, (loadpasswd out).find other =
        if other = (user, realm) then some (passDigest user realm password)
        else if create then none else (loadpasswd text).find other) := by
  have hdigest := digits_passDigest user realm password
  rw [htdigest, digestpass_eq endian hinbuf]
  refine ⟨_, rfl, ?_⟩
  intro hkey other
  cases create with
  | true =>
    have hprint (line : List UInt8) (hline : line ∈ [print (user, realm) (passDigest user realm password)]) :
        10 ∉ line := by
      rw [List.mem_singleton.mp hline]
      exact newline_print hkey hdigest
    exact (find_putlines hprint other).trans (find_print hkey hdigest other)
  | false => exact find_update hkey hdigest text other

end Aug.Aught
