import Aug.Net.Fix
import Aug.Util.XstrInvariant
import Mathlib.Data.List.Induction
import Mathlib.Tactic.Ring

/-!
# The header of a FIX message

Where the header is complete in front of the buffer, its length field is read without leaving the
buffered bytes, and gives the length of the whole message.
-/

namespace Aug.Net

open Aug.Lib Aug.Util Call

/-- A well-formed message: the characters of the version, the digits of the length, the body and the
characters of the sum. -/
structure FixMessage where
  x : UInt8
  y : UInt8
  digits : List UInt8
  body : List UInt8
  c0 : UInt8
  c1 : UInt8
  c2 : UInt8
  nonempty : digits ≠ []
  decimal : ∀ digit ∈ digits, isdigit digit = true
  length : numeral digits = body.length

namespace FixMessage

/-- `8=FIX.x.y`, the separator and `9=`. -/
def leader (message : FixMessage) : List UInt8 := [56, 61, 70, 73, 88, 46, message.x, 46, message.y, 1, 57, 61]

/-- The fields in front of the body. -/
def header (message : FixMessage) : List UInt8 := message.leader ++ (message.digits ++ [Fix.soh])

/-- `10=ccc` and the separator. -/
def trailer (message : FixMessage) : List UInt8 := [49, 48, 61, message.c0, message.c1, message.c2, 1]

/-- The bytes of a message. -/
def bytes (message : FixMessage) : List UInt8 := message.header ++ (message.body ++ message.trailer)

theorem leader_length (message : FixMessage) : message.leader.length = Fix.headSize := rfl

theorem header_length (message : FixMessage) : message.header.length = Fix.headSize + (message.digits.length + 1) := by
  rw [header, List.length_append, leader_length, List.length_append, List.length_singleton]

theorem bytes_length (message : FixMessage) :
    message.bytes.length = Fix.headSize + message.digits.length + 1 + message.body.length + Fix.tailSize := by
  have htrailer : message.trailer.length = Fix.tailSize := rfl
  rw [bytes, List.length_append, header_length, List.length_append, htrailer]
  omega

theorem bytes_pos (message : FixMessage) : 0 < message.bytes.length := by
  rw [bytes_length]
  omega

/-- The length field has at most ten digits and the value of an `unsigned`. -/
def Sized (message : FixMessage) : Prop :=
  message.digits.length ≤ Fix.maxDigits ∧ message.body.length < 2 ^ 32

end FixMessage

namespace Fix

/-- Only buffered bytes have been examined in between. -/
def Looked (fix next : Fix) : Prop :=
  ∃ looks : List (ℕ × ℕ), next = { fix with examined := fix.examined ++ looks } ∧ ∀ look ∈ looks, look.1 < look.2

variable {fix next last : Fix} {content before front after rest digits : List UInt8} {size blen : ℕ} {ch delim : UInt8}

theorem Looked.refl (fix : Fix) : Looked fix fix := by
  apply Exists.intro []
  rw [List.append_nil]
  exact And.intro rfl (List.forall_mem_nil _)

theorem Looked.trans (h : Looked fix next) (hlast : Looked next last) : Looked fix last := by
  obtain ⟨looks, hnext, hlooks⟩ := h
  obtain ⟨more, hmore, hlooks'⟩ := hlast
  apply Exists.intro (looks ++ more)
  apply And.intro
  · rw [hmore, hnext, List.append_assoc]
  · intro look hlook
    cases List.mem_append.mp hlook with
    | inl hleft => exact hlooks look hleft
    | inr hright => exact hlooks' look hright

theorem Looked.memory (h : Looked fix next) : next.memory = fix.memory := by
  obtain ⟨looks, hnext, -⟩ := h
  rw [hnext]

theorem Looked.stream (h : Looked fix next) : next.stream = fix.stream := by
  obtain ⟨looks, hnext, -⟩ := h
  rw [hnext]

theorem Looked.messages (h : Looked fix next) : next.messages = fix.messages := by
  obtain ⟨looks, hnext, -⟩ := h
  rw [hnext]

theorem Looked.examined (h : Looked fix next) (hfix : ∀ look ∈ fix.examined, look.1 < look.2) :
    ∀ look ∈ next.examined, look.1 < look.2 := by
  obtain ⟨looks, hnext, hlooks⟩ := h
  rw [hnext]
  intro look hlook
  cases List.mem_append.mp hlook with
  | inl hleft => exact hfix look hleft
  | inr hright => exact hlooks look hright

/-- The string of the stream holds the buffered bytes. -/
def Buffers (fix : Fix) (content : List UInt8) (size : ℕ) : Prop :=
  ∃ rest, Held fix.memory fix.stream.xstr content size rest

theorem Looked.buffers (h : Looked fix next) (hbuffers : Buffers fix content size) : Buffers next content size := by
  rw [Buffers, h.memory, h.stream]
  exact hbuffers

theorem lift_returns {α : Type} {call : XCall α} {a : α} {memory : XMemory} (h : Returns call fix.memory a memory) :
    Returns (lift call) fix a { fix with memory } :=
  h.mapError.zoom

theorem lift_keeps {α : Type} {call : XCall α} {a : α} (h : Returns call fix.memory a fix.memory) :
    Returns (lift call) fix a fix :=
  lift_returns h

/-- A buffered byte is examined. -/
theorem examine_returns (h : Buffers fix (before ++ ch :: after) size) {i : ℕ} (hi : i = before.length) :
    ∃ next, Returns (examine fix.stream.xstr i) fix ch next ∧ Looked fix next := by
  obtain ⟨rest, hheld⟩ := h
  have hload : fix.memory.heap.load fix.stream.xstr i 1 = some [ch] := by
    apply Heap.load_block before [ch] (after ++ rest) _ hi rfl
    rw [hheld.block, List.append_assoc]
    rfl
  apply Exists.intro { fix with examined := fix.examined ++ [(i, (before ++ ch :: after).length)] }
  apply And.intro
  · apply (returns_read fix).bind
    apply (lift_keeps (Xstr.fields_returns hheld.fields)).bind
    apply (lift_keeps (Xstr.load_returns hload)).bind
    exact (returns_modify _ fix).bind (returns_access rfl _)
  · apply Exists.intro [(i, (before ++ ch :: after).length)]
    apply And.intro rfl
    simp [hi]

/-- The delimiter is found in the buffered bytes. -/
theorem find_returns (hfront : delim ∉ front) {before : List UInt8} {i n : ℕ}
    (h : Buffers fix (before ++ (front ++ delim :: after)) size) (hi : i = before.length) (hn : front.length < n) :
    ∃ next, Returns (find fix.stream.xstr delim i n) fix (some (i + front.length)) next ∧ Looked fix next := by
  induction front generalizing fix before i n with
  | nil =>
    obtain ⟨m, hm⟩ := Nat.exists_eq_add_one_of_ne_zero (Nat.ne_of_gt hn)
    obtain ⟨next, hexamine, hlooked⟩ := examine_returns h hi
    apply Exists.intro next
    apply And.intro _ hlooked
    rw [hm]
    apply hexamine.bind
    rw [if_pos rfl]
    exact returns_pure _ next
  | cons ch front ih =>
    obtain ⟨m, hm⟩ := Nat.exists_eq_add_one_of_ne_zero (Nat.ne_of_gt (Nat.zero_lt_of_lt hn))
    rw [List.cons_append] at h
    obtain ⟨next, hexamine, hlooked⟩ := examine_returns h hi
    have hne : ch ≠ delim := fun heq => hfront (by rw [heq]; exact List.mem_cons_self)
    have hrest : delim ∉ front := fun hmem => hfront (List.mem_cons_of_mem _ hmem)
    have hnext : Buffers next (before ++ [ch] ++ (front ++ delim :: after)) size := by
      rw [List.append_assoc]
      exact hlooked.buffers h
    have hlength : i + 1 = (before ++ [ch]).length := by
      rw [List.length_append, List.length_singleton, hi]
    obtain ⟨last, hfind, hlast⟩ := ih (n := m) hrest hnext hlength (by rw [List.length_cons] at hn; omega)
    apply Exists.intro last
    apply And.intro _ (hlooked.trans hlast)
    rw [hm]
    apply hexamine.bind
    rw [if_neg hne, List.length_cons, ← Nat.add_assoc, Nat.add_right_comm, ← hlooked.stream]
    exact hfind

theorem numeral_snoc (digits : List UInt8) (digit : UInt8) :
    numeral (digits ++ [digit]) = 10 * numeral digits + (digit.toNat - 48) := by
  rw [numeral, List.foldl_append]
  rfl

theorem u32_mod (n : ℕ) : u32 n = n % 2 ^ 32 := by
  unfold u32
  omega

/-- One digit more in 32 bits. -/
theorem convert_sum (digits : List UInt8) (digit : UInt8) (fact value : ℕ) :
    (u32 (value + (digit.toNat - 48 : ℕ) * fact) + numeral digits * u32 (fact * 10)) % 2 ^ 32 =
      (value + numeral (digits ++ [digit]) * fact) % 2 ^ 32 := by
  have hfirst : u32 (value + (digit.toNat - 48 : ℕ) * fact) = (value + (digit.toNat - 48) * fact) % 2 ^ 32 := by
    rw [← u32_mod]
    push_cast
    rfl
  have hsecond : u32 (fact * 10) = (fact * 10) % 2 ^ 32 := by
    rw [← u32_mod]
    push_cast
    rfl
  rw [hfirst, hsecond, numeral_snoc, Nat.mod_add_mod, Nat.add_mod, Nat.mul_mod_mod, ← Nat.add_mod]
  congr 1
  ring

/-- The digits are converted from the last one to the first. -/
theorem convert_returns (fact value : ℕ) (hdigits : ∀ digit ∈ digits, isdigit digit = true) (hvalue : value < 2 ^ 32)
    (h : Buffers fix (before ++ (digits ++ after)) size) :
    ∃ next, Returns (convert fix.stream.xstr before.length digits.length fact value) fix
      ((value + numeral digits * fact) % 2 ^ 32) next ∧ Looked fix next := by
  induction digits using List.reverseRecOn generalizing fix fact value after with
  | nil =>
    apply Exists.intro fix
    apply And.intro _ (.refl fix)
    have hzero : (value + numeral [] * fact) % 2 ^ 32 = value := by
      rw [numeral, List.foldl_nil, Nat.zero_mul, Nat.add_zero, Nat.mod_eq_of_lt hvalue]
    rw [hzero]
    exact returns_pure value fix
  | append_singleton digits digit ih =>
    have hbuffers : Buffers fix (before ++ digits ++ digit :: after) size := by
      rw [List.append_assoc] at h ⊢
      exact h
    obtain ⟨next, hexamine, hlooked⟩ := examine_returns hbuffers rfl
    have hnext : Buffers next (before ++ (digits ++ digit :: after)) size := by
      rw [← List.append_assoc]
      exact hlooked.buffers hbuffers
    obtain ⟨last, hconvert, hlast⟩ := ih (u32 (fact * 10))
      (u32 (value + (digit.toNat - 48 : ℕ) * fact)) (fun d hd => hdigits d (List.mem_append_left _ hd))
      (u32_lt _) hnext
    apply Exists.intro last
    apply And.intro _ (hlooked.trans hlast)
    rw [List.length_append, List.length_singleton]
    rw [List.length_append] at hexamine
    apply hexamine.bind
    rw [if_pos (hdigits digit (List.mem_append_right _ List.mem_cons_self)), ← hlooked.stream]
    rw [← convert_sum]
    exact hconvert

/-- The length field is read where it is. -/
theorem fixtoui_returns {n : ℕ} (hdigits : ∀ digit ∈ digits, isdigit digit = true) (hmost : digits.length ≤ maxDigits)
    (hn : digits.length < n) (h : Buffers fix (before ++ (digits ++ soh :: after)) size) :
    ∃ next, Returns (fixtoui fix.stream.xstr before.length 0 n soh) fix
      (digits.length, numeral digits % 2 ^ 32) next ∧ Looked fix next := by
  have hsoh : soh ∉ digits := by
    intro hmem
    have hdigit := hdigits soh hmem
    simp [isdigit, soh] at hdigit
  obtain ⟨found, hfind, hfound⟩ := find_returns hsoh h rfl hn
  obtain ⟨next, hconvert, hnext⟩ := convert_returns 1 0 hdigits (by norm_num) (hfound.buffers h)
  have hlength : u32 (digits.length : ℤ) = digits.length := by
    rw [maxDigits] at hmost
    exact u32_of_lt (by omega)
  apply Exists.intro next
  apply And.intro _ (hfound.trans hnext)
  apply hfind.bind
  dsimp only
  rw [Nat.add_sub_cancel_left, hlength, if_neg (Nat.not_lt.mpr hmost), ← hfound.stream]
  rw [Nat.zero_add, Nat.mul_one] at hconvert
  exact hconvert.bind (returns_pure _ next)

/-- The length of a message is found if its header is in the buffer. -/
theorem getsize_returns {message : FixMessage} {n : ℕ} (hn : ¬n < headSize + 4 + 1) (hsized : message.Sized)
    (h : Buffers fix (message.header ++ after) size) :
    ∃ next, Returns (getsize fix.stream.xstr n) fix message.bytes.length next ∧ Looked fix next := by
  have hdigits : message.digits.length < n := by
    have hmost := hsized.1
    rw [maxDigits] at hmost
    rw [headSize] at hn
    omega
  have hbuffers : Buffers fix (message.leader ++ (message.digits ++ soh :: after)) size := by
    rw [FixMessage.header, List.append_assoc, List.append_assoc] at h
    exact h
  obtain ⟨next, hlength, hlooked⟩ := fixtoui_returns message.decimal hsized.1 hdigits hbuffers
  rw [message.length, Nat.mod_eq_of_lt hsized.2] at hlength
  apply Exists.intro next
  apply And.intro _ hlooked
  rw [getsize, if_neg hn, FixMessage.bytes_length]
  exact hlength.bind (returns_pure _ next)

end Fix

end Aug.Net
