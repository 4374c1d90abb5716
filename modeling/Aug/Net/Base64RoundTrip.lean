import Aug.Net.Base64Decode
import Mathlib.Tactic.IntervalCases

/-!
# The round trip

The decoder gives the encoded string back, unless the parts of the encoding are cut between two
padding characters: the first one ends the group, and the second one is misaligned.
-/

namespace Aug.Net

open Aug.Lib Call

namespace Base64

/-- The four values of three bytes. -/
def sextet0 (a : UInt8) : UInt8 := (a &&& 0xFC) >>> 2

def sextet1 (a b : UInt8) : UInt8 := ((a &&& 0x03) <<< 4) ||| ((b &&& 0xF0) >>> 4)

def sextet2 (b c : UInt8) : UInt8 := ((b &&& 0x0F) <<< 2) ||| ((c &&& 0xC0) >>> 6)

def sextet3 (c : UInt8) : UInt8 := c &&& 0x3F

theorem sextet0_lt (a : UInt8) : (sextet0 a).toNat < 64 := by
  have h : a.toNat &&& 252 ≤ 252 := Nat.and_le_right
  simp [sextet0]
  omega

theorem sextet1_lt (a b : UInt8) : (sextet1 a b).toNat < 64 := by
  have ha : a.toNat &&& 3 ≤ 3 := Nat.and_le_right
  have hb : b.toNat &&& 240 ≤ 240 := Nat.and_le_right
  simp only [sextet1, UInt8.toNat_or, UInt8.toNat_shiftLeft, UInt8.toNat_shiftRight, UInt8.toNat_and]
  apply Nat.or_lt_two_pow (n := 6)
  · simp [Nat.shiftLeft_eq]
    omega
  · simp [Nat.shiftRight_eq_div_pow]
    omega

theorem sextet2_lt (b c : UInt8) : (sextet2 b c).toNat < 64 := by
  have hb : b.toNat &&& 15 ≤ 15 := Nat.and_le_right
  have hc : c.toNat &&& 192 ≤ 192 := Nat.and_le_right
  simp only [sextet2, UInt8.toNat_or, UInt8.toNat_shiftLeft, UInt8.toNat_shiftRight, UInt8.toNat_and]
  apply Nat.or_lt_two_pow (n := 6)
  · simp [Nat.shiftLeft_eq]
    omega
  · simp [Nat.shiftRight_eq_div_pow]
    omega

theorem sextet3_lt (c : UInt8) : (sextet3 c).toNat < 64 := by
  have h : c.toNat &&& 63 ≤ 63 := Nat.and_le_right
  simp [sextet3]
  omega

/-- The bits of a byte are compared one by one. -/
theorem eq_of_bits {x y : UInt8} (h : ∀ i < 8, x.toBitVec.getLsbD i = y.toBitVec.getLsbD i) : x = y :=
  UInt8.toBitVec_inj.mp (BitVec.eq_of_getLsbD_eq h)

theorem decode0_sextets (a b : UInt8) : decode0 (sextet0 a) (sextet1 a b) = a := by
  apply eq_of_bits
  intro i hi
  simp only [decode0, sextet0, sextet1, UInt8.toBitVec_or, UInt8.toBitVec_shiftLeft, UInt8.toBitVec_and,
    UInt8.toBitVec_shiftRight]
  interval_cases i <;> simp

theorem decode1_sextets (a b c : UInt8) : decode1 (sextet1 a b) (sextet2 b c) = b := by
  apply eq_of_bits
  intro i hi
  simp only [decode1, sextet1, sextet2, UInt8.toBitVec_or, UInt8.toBitVec_shiftLeft, UInt8.toBitVec_and,
    UInt8.toBitVec_shiftRight]
  interval_cases i <;> simp

theorem decode2_sextets (b c : UInt8) : decode2 (sextet2 b c) (sextet3 c) = c := by
  apply eq_of_bits
  intro i hi
  simp only [decode2, sextet2, sextet3, UInt8.toBitVec_or, UInt8.toBitVec_shiftLeft, UInt8.toBitVec_and,
    UInt8.toBitVec_shiftRight]
  interval_cases i <;> simp

/-- The table of the decoder is the inverse of that of the encoder. -/
theorem decode_encode {x : UInt8} (hx : x.toNat < 64) : decode (encode x) = some (.value x) := by
  have htable : ∀ n < 64, decode (encode n.toUInt8) = some (.value n.toUInt8) := by decide
  have h := htable x.toNat hx
  rwa [Nat.toUInt8_eq, UInt8.ofNat_toNat] at h

theorem decode_pad : decode pad = some .end_ := by decide

/-- The character stands for a value. -/
def IsValue (ch : UInt8) : Prop := ∃ c, decode ch = some (.value c)

variable {base64 : Base64} {values src bytes left more front : List UInt8} {parts : List (List UInt8)}

theorem scan_step {ch c : UInt8} (hch : decode ch = some (.value c)) (hvalues : ∀ c0 c1 c2, values ≠ [c0, c1, c2]) :
    scan values (ch :: src) = scan (values ++ [c]) src := by
  rw [scan_cons, hch]
  dsimp only
  split
  · exact absurd rfl (hvalues _ _ _)
  · rfl

theorem scan_group {ch c0 c1 c2 c : UInt8} (hch : decode ch = some (.value c)) :
    scan [c0, c1, c2] (ch :: src) = (scan [] src).map fun result => (group c0 c1 c2 c ++ result.1, result.2) := by
  rw [scan_cons, hch]

/-- Characters that stand for values are read, and what follows them is read after them. -/
theorem scan_values (values : List UInt8) (h : ∀ ch ∈ front, IsValue ch) :
    ∃ bytes left, scan values front = some (bytes, left) ∧
      ∀ src, scan values (front ++ src) = (scan left src).map fun result => (bytes ++ result.1, result.2) := by
  induction front generalizing values with
  | nil =>
    apply Exists.intro []
    apply Exists.intro values
    apply And.intro (scan_nil values)
    intro src
    cases hscan : scan values src <;> simp [hscan]
  | cons ch front ih =>
    obtain ⟨c, hch⟩ := h ch List.mem_cons_self
    have hfront : ∀ ch ∈ front, IsValue ch := fun ch hmem => h ch (List.mem_cons_of_mem _ hmem)
    by_cases hgroup : ∃ c0 c1 c2, values = [c0, c1, c2]
    · obtain ⟨c0, c1, c2, hvalues⟩ := hgroup
      obtain ⟨bytes, left, hscan, happend⟩ := ih [] hfront
      apply Exists.intro (group c0 c1 c2 c ++ bytes)
      apply Exists.intro left
      rw [hvalues]
      apply And.intro
      · rw [scan_group hch, hscan, Option.map_some]
      · intro src
        rw [List.cons_append, scan_group hch, happend, Option.map_map]
        rfl
    · have hvalues : ∀ c0 c1 c2, values ≠ [c0, c1, c2] := fun c0 c1 c2 heq => hgroup ⟨c0, c1, c2, heq⟩
      obtain ⟨bytes, left, hscan, happend⟩ := ih (values ++ [c]) hfront
      apply Exists.intro bytes
      apply Exists.intro left
      apply And.intro
      · rw [scan_step hch hvalues, hscan]
      · intro src
        rw [List.cons_append, scan_step hch hvalues, happend]

/-- What follows a padding character is ignored. -/
theorem scan_pad (values src : List UInt8) : scan values (pad :: src) = scan values [pad] := by
  rw [scan_cons, scan_cons]
  simp only [decode_pad]

theorem scan_values_pad (h : ∀ ch ∈ front, IsValue ch) :
    scan values (front ++ pad :: src) = scan values (front ++ [pad]) := by
  obtain ⟨bytes, left, hscan, happend⟩ := scan_values values h
  rw [happend, happend, scan_pad]

theorem scan_pad_left (h : ∀ ch ∈ front, IsValue ch) (hscan : scan values (front ++ [pad]) = some (bytes, left)) :
    left = [] := by
  obtain ⟨bytes', left', hscan', happend⟩ := scan_values values h
  rw [happend, scan_cons] at hscan
  simp only [decode_pad, Option.map_map, Option.map_eq_some_iff, Function.comp_apply, Prod.mk.injEq] at hscan
  obtain ⟨-, -, -, hleft⟩ := hscan
  exact hleft.symm

/-- Parts that are empty change nothing. -/
theorem decodeappends_empty (hsaves : Saves base64 []) (h : parts.flatten = []) :
    ∃ next, Returns (appends decodeappend parts) base64 () next ∧ next.emitted = base64.emitted ∧ Saves next [] := by
  induction parts generalizing base64 with
  | nil => exact ⟨base64, returns_pure () base64, rfl, hsaves⟩
  | cons part parts ih =>
    rw [List.flatten_cons, List.append_eq_nil_iff] at h
    have hscan : scan [] part = some ([], []) := by rw [h.1, scan_nil]
    obtain ⟨next, hpart, hnext, hsaved⟩ := decodeappend_returns hsaves hscan
    obtain ⟨last, hparts, hlast, hleft⟩ := ih hsaved h.2
    apply Exists.intro last
    apply And.intro (hpart.bind hparts)
    rw [hlast, hnext, List.append_nil]
    exact ⟨rfl, hleft⟩

/-- A padding character on its own is misaligned. -/
theorem decodeappends_pad (hsaves : Saves base64 []) (h : parts.flatten = [pad]) :
    ∃ last, Fails (appends decodeappend parts) base64 .misaligned last := by
  induction parts generalizing base64 with
  | nil => cases h
  | cons part parts ih =>
    obtain ⟨output, buf, save, saved⟩ := base64
    cases hsaves
    cases part with
    | nil =>
      have hempty : Saves ⟨output, buf, save, 0⟩ [] := rfl
      have hscan : scan [] [] = some ([], []) := scan_nil []
      obtain ⟨next, hpart, hnext, hsaved⟩ := decodeappend_returns hempty hscan
      obtain ⟨last, hparts⟩ := ih hsaved h
      exact ⟨last, hpart.bind_fails hparts⟩
    | cons ch part =>
      rw [List.flatten_cons, List.cons_append, List.cons.injEq] at h
      have halign : Returns (decodealign (ch :: part)) ⟨output, buf, save, 0⟩ (some 0) ⟨output, buf, save, 0⟩ :=
        (returns_read _).bind (returns_pure _ _)
      have hgroups : Fails (decodegroups (ch :: part)) ⟨output, buf, save, 0⟩ .misaligned
          ⟨output, buf, save, 0⟩ := by
        rw [h.1]
        exact (returns_access decode_pad _).bind_fails (fails_fail _ _)
      have hpart : Fails (decodeappend (ch :: part)) ⟨output, buf, save, 0⟩ .misaligned ⟨output, buf, save, 0⟩ :=
        halign.bind_fails hgroups
      exact ⟨_, hpart.bind⟩

/-- The parts of a string that has no padding. -/
theorem decodeappends_values (hsaves : Saves base64 values) (hvalues : ∀ ch ∈ parts.flatten, IsValue ch)
    (hscan : scan values parts.flatten = some (bytes, left)) :
    ∃ next, Returns (appends decodeappend parts) base64 () next ∧ next.emitted = base64.emitted ++ bytes ∧
      Saves next left := by
  induction parts generalizing base64 values bytes with
  | nil =>
    rw [List.flatten_nil, scan_nil, Option.some.injEq, Prod.mk.injEq] at hscan
    rw [← hscan.1, ← hscan.2, List.append_nil]
    exact ⟨base64, returns_pure () base64, rfl, hsaves⟩
  | cons part parts ih =>
    rw [List.flatten_cons] at hscan hvalues
    obtain ⟨first, left', hfirst, happend⟩ := scan_values values fun ch hch => hvalues ch (List.mem_append_left _ hch)
    rw [happend, Option.map_eq_some_iff] at hscan
    obtain ⟨⟨more, left''⟩, hmore, heq⟩ := hscan
    cases heq
    obtain ⟨next, hpart, hnext, hsaved⟩ := decodeappend_returns hsaves hfirst
    obtain ⟨last, hparts, hlast, hleft⟩ := ih hsaved (fun ch hch => hvalues ch (List.mem_append_right _ hch)) hmore
    apply Exists.intro last
    apply And.intro (hpart.bind hparts)
    rw [hlast, hnext, List.append_assoc]
    exact ⟨rfl, hleft⟩

/-- A part ends in front of the padding, or it has the first padding character. -/
theorem split_at_pad {part rest pads : List UInt8} (h : part ++ rest = front ++ pad :: pads) :
    (∃ front', front = part ++ front' ∧ rest = front' ++ pad :: pads) ∨
      ∃ pads', part = front ++ pad :: pads' ∧ pads = pads' ++ rest := by
  obtain ⟨front', hfront, hrest⟩ | ⟨pads', hpart, hrest⟩ := List.append_eq_append_iff.mp h
  · exact .inl ⟨front', hfront, hrest⟩
  · cases pads' with
    | nil =>
      rw [List.append_nil] at hpart
      exact .inl ⟨[], by rw [hpart, List.append_nil], hrest.symm⟩
    | cons ch pads' =>
      rw [List.cons_append, List.cons.injEq] at hrest
      rw [← hrest.1] at hpart
      exact .inr ⟨pads', hpart, hrest.2⟩

theorem mem_of_flatten {ch : UInt8} (h : parts.flatten = [ch]) : [ch] ∈ parts := by
  induction parts with
  | nil => cases h
  | cons part parts ih =>
    rw [List.flatten_cons] at h
    cases part with
    | nil => exact List.mem_cons_of_mem _ (ih h)
    | cons first part =>
      rw [List.cons_append, List.cons.injEq, List.append_eq_nil_iff] at h
      rw [h.1, h.2.1]
      exact List.mem_cons_self

/-- The parts of a string that ends with padding: the decoder succeeds unless a second padding character
is in a part of its own. -/
theorem decodeappends_padded (pads : List UInt8) (hpads : pads = [] ∨ pads = [pad]) (hsaves : Saves base64 values)
    (hvalues : ∀ ch ∈ front, IsValue ch) (hparts : parts.flatten = front ++ pad :: pads)
    (hscan : scan values (front ++ [pad]) = some (bytes, left)) :
    (pads = [pad] ∧ [pad] ∈ parts → ∃ last, Fails (appends decodeappend parts) base64 .misaligned last) ∧
      (¬(pads = [pad] ∧ [pad] ∈ parts) →
        ∃ next, Returns (appends decodeappend parts) base64 () next ∧ next.emitted = base64.emitted ++ bytes ∧
          Saves next []) := by
  induction parts generalizing base64 values bytes front with
  | nil => simp at hparts
  | cons part parts ih =>
    have hpad : ¬IsValue pad := by
      intro hvalue
      obtain ⟨c, hc⟩ := hvalue
      rw [decode_pad] at hc
      cases hc
    obtain ⟨front', hfront, hrest⟩ | ⟨pads', hpart, hrest⟩ := split_at_pad hparts
    · rw [hfront] at hvalues
      have hne : part ≠ [pad] := by
        intro heq
        exact hpad (hvalues pad (List.mem_append_left _ (by rw [heq]; exact List.mem_cons_self)))
      rw [hfront, List.append_assoc] at hscan
      obtain ⟨first, left', hfirst, happend⟩ :=
        scan_values values fun ch hch => hvalues ch (List.mem_append_left _ hch)
      rw [happend, Option.map_eq_some_iff] at hscan
      obtain ⟨⟨more, left''⟩, hmore, heq⟩ := hscan
      cases heq
      obtain ⟨next, hnext, hemitted, hsaved⟩ := decodeappend_returns hsaves hfirst
      obtain ⟨hfails, hreturns⟩ := ih hsaved (fun ch hch => hvalues ch (List.mem_append_right _ hch)) hrest hmore
      have hmem : [pad] ∈ part :: parts ↔ [pad] ∈ parts := by
        rw [List.mem_cons]
        exact or_iff_right (fun heq => hne heq.symm)
      rw [hmem]
      apply And.intro
      · intro hcut
        obtain ⟨last, hlast⟩ := hfails hcut
        exact ⟨last, hnext.bind_fails hlast⟩
      · intro hgood
        obtain ⟨last, hlast, hemitted', hclean⟩ := hreturns hgood
        apply Exists.intro last
        apply And.intro (hnext.bind hlast)
        rw [hemitted', hemitted, List.append_assoc]
        exact ⟨rfl, hclean⟩
    · have hleft := scan_pad_left hvalues hscan
      rw [← scan_values_pad hvalues, ← hpart, hleft] at hscan
      obtain ⟨next, hnext, hemitted, hsaved⟩ := decodeappend_returns hsaves hscan
      cases pads' with
      | nil =>
        rw [List.nil_append] at hrest
        apply And.intro
        · intro hcut
          obtain ⟨last, hlast⟩ := decodeappends_pad hsaved (hrest.symm.trans hcut.1)
          exact ⟨last, hnext.bind_fails hlast⟩
        · intro hgood
          have hempty : pads = [] := by
            apply hpads.resolve_right
            intro hone
            exact hgood ⟨hone, List.mem_cons_of_mem _ (mem_of_flatten (hrest.symm.trans hone))⟩
          obtain ⟨last, hlast, hemitted', hclean⟩ := decodeappends_empty hsaved (hrest.symm.trans hempty)
          exact ⟨last, hnext.bind hlast, hemitted'.trans hemitted, hclean⟩
      | cons ch pads' =>
        have hone : pads = [pad] := by
          apply hpads.resolve_left
          intro hempty
          rw [hempty] at hrest
          cases hrest
        rw [hone, List.cons_append, List.cons.injEq] at hrest
        have hflatten := (List.append_eq_nil_iff.mp hrest.2.symm).2
        apply And.intro
        · intro hcut
          apply False.elim
          cases List.mem_cons.mp hcut.2 with
          | inl hlone =>
            have hlength := congrArg List.length (hlone.trans hpart)
            simp only [List.length_cons, List.length_append, List.length_nil] at hlength
            omega
          | inr hmem => cases List.flatten_eq_nil_iff.mp hflatten _ hmem
        · intro hgood
          obtain ⟨last, hlast, hemitted', hclean⟩ := decodeappends_empty hsaved hflatten
          exact ⟨last, hnext.bind hlast, hemitted'.trans hemitted, hclean⟩

theorem isValue_encode {x : UInt8} (hx : x.toNat < 64) : IsValue (encode x) := ⟨x, decode_encode hx⟩

theorem chunks_values (bytes : List UInt8) : ∀ ch ∈ chunks bytes, IsValue ch := by
  induction bytes using chunks.induct with
  | case1 c0 c1 c2 rest ih =>
    simp only [chunks, List.forall_mem_cons]
    exact ⟨isValue_encode (sextet0_lt c0), isValue_encode (sextet1_lt c0 c1), isValue_encode (sextet2_lt c1 c2),
      isValue_encode (sextet3_lt c2), ih⟩
  | case2 bytes hshort =>
    rw [chunks]
    · simp
    · exact hshort

theorem encode0_eq (a : UInt8) : encode0 a = encode (sextet0 a) := rfl

theorem encode1_eq (a b : UInt8) : encode1 a b = encode (sextet1 a b) := rfl

theorem encode2_eq (b c : UInt8) : encode2 b c = encode (sextet2 b c) := rfl

theorem encode3_eq (c : UInt8) : encode3 c = encode (sextet3 c) := rfl

/-- The characters of two bytes, read one after the other. -/
theorem scan_two (a b : UInt8) (src : List UInt8) :
    scan [] (encode0 a :: encode1 a b :: src) = scan [sextet0 a, sextet1 a b] src := by
  rw [encode0_eq, encode1_eq, scan_step (decode_encode (sextet0_lt a)) (by simp),
    scan_step (decode_encode (sextet1_lt a b)) (by simp)]
  rfl

theorem scan_three (a b c : UInt8) (src : List UInt8) :
    scan [] (encode0 a :: encode1 a b :: encode2 b c :: src) = scan [sextet0 a, sextet1 a b, sextet2 b c] src := by
  rw [scan_two, encode2_eq, scan_step (decode_encode (sextet2_lt b c)) (by simp)]
  rfl

/-- The whole groups are read back. -/
theorem scan_chunks (bytes : List UInt8) : ∃ whole, bytes = whole ++ remainder bytes ∧
    ∀ src, scan [] (chunks bytes ++ src) = (scan [] src).map fun result => (whole ++ result.1, result.2) := by
  induction bytes using chunks.induct with
  | case1 c0 c1 c2 rest ih =>
    obtain ⟨whole, hrest, hscan⟩ := ih
    have hgroup : group (sextet0 c0) (sextet1 c0 c1) (sextet2 c1 c2) (sextet3 c2) = [c0, c1, c2] := by
      rw [group, decode0_sextets, decode1_sextets, decode2_sextets]
    apply Exists.intro (c0 :: c1 :: c2 :: whole)
    apply And.intro
    · rw [remainder, List.cons_append, List.cons_append, List.cons_append, ← hrest]
    · intro src
      rw [chunks, List.cons_append, List.cons_append, List.cons_append, List.cons_append, scan_three,
        encode3_eq, scan_group (decode_encode (sextet3_lt c2)), hscan, Option.map_map, hgroup]
      rfl
  | case2 bytes hshort =>
    have hremainder : remainder bytes = bytes := by
      rw [remainder]
      exact hshort
    have hchunks : chunks bytes = [] := by
      rw [chunks]
      exact hshort
    apply Exists.intro []
    rw [hremainder, hchunks]
    apply And.intro rfl
    intro src
    cases hscan : scan [] src <;> simp [hscan]

theorem remainder_length (bytes : List UInt8) : (remainder bytes).length = bytes.length % 3 := by
  induction bytes using chunks.induct with
  | case1 c0 c1 c2 rest ih =>
    rw [remainder, ih]
    simp only [List.length_cons]
    omega
  | case2 bytes hshort =>
    have hremainder : remainder bytes = bytes := by
      rw [remainder]
      exact hshort
    obtain hnil | ⟨c0, hone⟩ | ⟨c0, c1, htwo⟩ := remainder_cases bytes
    · rw [hremainder] at hnil
      rw [hremainder, hnil]
      rfl
    · rw [hremainder] at hone
      rw [hremainder, hone]
      rfl
    · rw [hremainder] at htwo
      rw [hremainder, htwo]
      rfl

/-- A decoder that has read all parts only has to flush its buffer. -/
theorem decodes_returns {next : Base64} (h : Returns (appends decodeappend parts) base64 () next)
    (hemitted : next.emitted = bytes) :
    ∃ decoder, Returns (decodes parts) base64 () decoder ∧ decoder.output.flatten = bytes ∧
      decoder.saved = next.saved ∧ decoder.buf = [] := by
  obtain ⟨decoder, hflush, houtput, -, hsaved, hbuf⟩ := flushrest_returns next
  exact ⟨decoder, h.bind hflush, houtput.trans hemitted, hsaved, hbuf⟩

/-- Decoding the parts of an encoding fails if it is cut between two padding characters, and gives the
encoded bytes otherwise. -/
theorem decodes_encoding (bytes : List UInt8) (hparts : parts.flatten = encoding bytes) :
    (bytes.length % 3 = 1 ∧ [pad] ∈ parts → ∃ last, Fails (decodes parts) create .misaligned last) ∧
      (¬(bytes.length % 3 = 1 ∧ [pad] ∈ parts) →
        ∃ decoder, Returns (decodes parts) create () decoder ∧ decoder.output.flatten = bytes) := by
  obtain ⟨whole, hwhole, hscan⟩ := scan_chunks bytes
  have hcreate : Saves create [] := rfl
  have hlength := remainder_length bytes
  rw [encoding] at hparts
  obtain hnil | ⟨c0, hone⟩ | ⟨c0, c1, htwo⟩ := remainder_cases bytes
  · rw [hnil] at hparts hlength hwhole
    rw [padded.eq_3 [] (by simp) (by simp)] at hparts
    have hall := hscan []
    rw [← hparts, scan_nil, Option.map_some] at hall
    have hvalues := chunks_values bytes
    rw [List.append_nil] at hparts
    rw [← hparts] at hvalues
    obtain ⟨next, hreturns, hemitted, -⟩ := decodeappends_values hcreate hvalues hall
    apply And.intro
    · intro hcut
      rw [List.length_nil] at hlength
      omega
    · intro hgood
      obtain ⟨decoder, hdecoder, houtput, -⟩ := decodes_returns hreturns hemitted
      apply Exists.intro decoder
      apply And.intro hdecoder
      rw [houtput, hwhole]
      rfl
  · rw [hone] at hparts hlength hwhole
    rw [padded] at hparts
    have hvalues : ∀ ch ∈ chunks bytes ++ [encode0 c0, encode1 c0 0], IsValue ch := by
      rw [List.forall_mem_append]
      apply And.intro (chunks_values bytes)
      simp only [List.forall_mem_cons]
      exact ⟨isValue_encode (sextet0_lt c0), isValue_encode (sextet1_lt c0 0), List.forall_mem_nil _⟩
    have hflatten : parts.flatten = chunks bytes ++ [encode0 c0, encode1 c0 0] ++ pad :: [pad] := by
      rw [hparts, List.append_assoc]
      rfl
    have hall : scan [] (chunks bytes ++ [encode0 c0, encode1 c0 0] ++ [pad]) = some (bytes, []) := by
      rw [List.append_assoc, hscan, List.cons_append, List.cons_append, List.nil_append, scan_two, scan_cons]
      simp only [decode_pad, ending, Option.map_some, decode0_sextets]
      rw [← hwhole]
    obtain ⟨hfails, hreturns⟩ := decodeappends_padded [pad] (.inr rfl) hcreate hvalues hflatten hall
    apply And.intro
    · intro hcut
      obtain ⟨last, hlast⟩ := hfails ⟨rfl, hcut.2⟩
      exact ⟨last, hlast.bind⟩
    · intro hgood
      have hmem : ¬([pad] = [pad] ∧ [pad] ∈ parts) := fun hcut => hgood ⟨hlength.symm, hcut.2⟩
      obtain ⟨next, hnext, hemitted, -⟩ := hreturns hmem
      obtain ⟨decoder, hdecoder, houtput, -⟩ := decodes_returns hnext hemitted
      exact ⟨decoder, hdecoder, houtput⟩
  · rw [htwo] at hparts hlength hwhole
    rw [padded] at hparts
    have hvalues : ∀ ch ∈ chunks bytes ++ [encode0 c0, encode1 c0 c1, encode2 c1 0], IsValue ch := by
      rw [List.forall_mem_append]
      apply And.intro (chunks_values bytes)
      simp only [List.forall_mem_cons]
      exact ⟨isValue_encode (sextet0_lt c0), isValue_encode (sextet1_lt c0 c1), isValue_encode (sextet2_lt c1 0),
        List.forall_mem_nil _⟩
    have hflatten : parts.flatten = chunks bytes ++ [encode0 c0, encode1 c0 c1, encode2 c1 0] ++ pad :: [] := by
      rw [hparts, List.append_assoc]
      rfl
    have hall : scan [] (chunks bytes ++ [encode0 c0, encode1 c0 c1, encode2 c1 0] ++ [pad]) = some (bytes, []) := by
      rw [List.append_assoc, hscan, List.cons_append, List.cons_append, List.cons_append, List.nil_append, scan_three,
        scan_cons]
      simp only [decode_pad, ending, Option.map_some, decode0_sextets, decode1_sextets]
      rw [← hwhole]
    obtain ⟨-, hreturns⟩ := decodeappends_padded [] (.inl rfl) hcreate hvalues hflatten hall
    apply And.intro
    · intro hcut
      rw [List.length_cons, List.length_cons, List.length_nil] at hlength
      omega
    · intro hgood
      have hmem : ¬([] = [pad] ∧ [pad] ∈ parts) := fun hcut => List.cons_ne_nil _ _ hcut.1.symm
      obtain ⟨next, hnext, hemitted, -⟩ := hreturns hmem
      obtain ⟨decoder, hdecoder, houtput, -⟩ := decodes_returns hnext hemitted
      exact ⟨decoder, hdecoder, houtput⟩

end Base64

end Aug.Net
