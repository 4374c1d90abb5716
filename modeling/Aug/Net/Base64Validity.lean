import Aug.Net.Base64Reference

/-!
# Decoding by the standard

The reference decodes a whole string: groups of four characters of the alphabet, of which the last may end
with one or two padding characters. The decoder gives the same on every string that the reference accepts,
unless the parts are cut between two padding characters.
-/

namespace Aug.Net

open Aug.Lib Call

namespace Base64

/-- The place of a character in the alphabet. -/
def place (ch : UInt8) : Option ℕ :=
  let n := ch.toNat
  if 65 ≤ n ∧ n ≤ 90 then some (n - 65)
  else if 97 ≤ n ∧ n ≤ 122 then some (n - 97 + 26)
  else if 48 ≤ n ∧ n ≤ 57 then some (n - 48 + 52)
  else if n = 43 then some 62
  else if n = 47 then some 63
  else none

/-- The places are those of the alphabet. -/
theorem place_alphabet {n : ℕ} (h : n < 64) : place (alphabet n) = some n := by
  have htable : ∀ n < 64, place (alphabet n) = some n := by decide
  exact htable n h

/-- The three bytes of four places, which are numbers of six bits. -/
def octets (a b c d : ℕ) : List UInt8 :=
  let n := ((a * 64 + b) * 64 + c) * 64 + d
  [(n / 65536).toUInt8, (n / 256).toUInt8, n.toUInt8]

/-- The bytes that a string stands for, if it is a sequence of complete groups with at most one padded group
at the end. -/
def decoding : List UInt8 → Option (List UInt8)
  | [] => some []
  | a :: b :: c :: d :: rest => do
    let a ← place a
    let b ← place b
    if c = pad ∧ d = pad ∧ rest = [] then some ((octets a b 0 0).take 1)
    else
      let c ← place c
      if d = pad ∧ rest = [] then some ((octets a b c 0).take 2)
      else
        let d ← place d
        let others ← decoding rest
        some (octets a b c d ++ others)
  | _ => none

example : decoding (rfc1521 [77, 97, 110, 255]) = some [77, 97, 110, 255] := by decide +kernel

/-- The table of the decoder has the places of the alphabet, and it ends at 127. -/
theorem decode_place (ch : UInt8) : decode ch =
    match place ch with
    | some n => some (.value n.toUInt8)
    | none => if ch = pad ∨ ch = 0 then some .end_ else if ch < 128 then some .inv else none := by
  have htable : ∀ i < (256 : ℕ), decode i.toUInt8 =
      match place i.toUInt8 with
      | some n => some (.value n.toUInt8)
      | none =>
        if i.toUInt8 = pad ∨ i.toUInt8 = 0 then some .end_ else if i.toUInt8 < 128 then some .inv else none := by
    decide +kernel
  have h := htable ch.toNat ch.toNat_lt
  rwa [Nat.toUInt8_eq, UInt8.ofNat_toNat] at h

/-- A place is a number of six bits. -/
theorem place_lt {ch : UInt8} {n : ℕ} (h : place ch = some n) : n < 64 := by
  simp only [place] at h
  split_ifs at h <;> cases h <;> omega

/-- A character of the alphabet stands for its place. -/
theorem decode_some {ch : UInt8} {n : ℕ} (h : place ch = some n) : ∃ c : UInt8, decode ch = some (.value c) ∧ c.toNat = n := by
  apply Exists.intro n.toUInt8
  have hless := place_lt h
  rw [decode_place, h, Nat.toUInt8_eq, UInt8.toNat_ofNat']
  apply And.intro rfl
  omega

theorem isValue_place {ch : UInt8} : IsValue ch ↔ (place ch).isSome = true := by
  rw [IsValue, decode_place]
  cases place ch with
  | some n => simp
  | none =>
    simp only [Option.isSome_none, Bool.false_eq_true, iff_false, not_exists]
    intro c
    split_ifs <;> simp

theorem place_pad : place pad = none := by decide +kernel

theorem decode0_toNat {a b : UInt8} (ha : a.toNat < 64) (hb : b.toNat < 64) :
    (decode0 a b).toNat = a.toNat * 4 + b.toNat / 16 := by
  have hleft : (a <<< 2).toNat = a.toNat * 2 ^ 2 := by
    rw [UInt8.toNat_shiftLeft]
    change a.toNat <<< 2 % 2 ^ 8 = _
    rw [Nat.shiftLeft_eq]
    omega
  have hright : ((b &&& 0x30) >>> 4).toNat = b.toNat / 2 ^ 4 := high_toNat b 0x30 2 4 rfl (by norm_num) hb
  rw [decode0, UInt8.toNat_or, hleft, hright]
  exact or_toNat (by omega)

theorem decode1_toNat {b c : UInt8} (hc : c.toNat < 64) : (decode1 b c).toNat = b.toNat % 16 * 16 + c.toNat / 4 := by
  have hleft : ((b &&& 0x0F) <<< 4).toNat = b.toNat % 2 ^ 4 * 2 ^ 4 := low_toNat b 0x0F 4 4 rfl (by norm_num) (by norm_num)
  have hright : ((c &&& 0x3C) >>> 2).toNat = c.toNat / 2 ^ 2 := high_toNat c 0x3C 4 2 rfl (by norm_num) hc
  rw [decode1, UInt8.toNat_or, hleft, hright]
  exact or_toNat (by omega)

theorem decode2_toNat {c d : UInt8} (hd : d.toNat < 64) : (decode2 c d).toNat = c.toNat % 4 * 64 + d.toNat := by
  have hleft : ((c &&& 0x03) <<< 6).toNat = c.toNat % 2 ^ 2 * 2 ^ 6 := low_toNat c 0x03 2 6 rfl (by norm_num) (by norm_num)
  have hright : (d &&& 0x3F).toNat = d.toNat := by
    have hlow : d.toNat &&& 63 = d.toNat % 2 ^ 6 := Nat.and_two_pow_sub_one_eq_mod _ 6
    rw [UInt8.toNat_and]
    change d.toNat &&& 63 = _
    rw [hlow]
    omega
  rw [decode2, UInt8.toNat_or, hleft, hright]
  exact or_toNat (by omega)

/-- A byte is known by its number. -/
theorem toUInt8_eq {x : UInt8} {n : ℕ} (h : x.toNat = n % 256) : n.toUInt8 = x := by
  apply UInt8.toNat_inj.mp
  rw [h, Nat.toUInt8_eq, UInt8.toNat_ofNat']

/-- The macros give the bytes of a group. -/
theorem octets_group {a b c d : UInt8} (ha : a.toNat < 64) (hb : b.toNat < 64) (hc : c.toNat < 64) (hd : d.toNat < 64) :
    octets a.toNat b.toNat c.toNat d.toNat = group a b c d := by
  have h0 := decode0_toNat ha hb
  have h1 := @decode1_toNat b c hc
  have h2 := @decode2_toNat c d hd
  have hfirst : (decode0 a b).toNat = (((a.toNat * 64 + b.toNat) * 64 + c.toNat) * 64 + d.toNat) / 65536 % 256 := by omega
  have hsecond : (decode1 b c).toNat = (((a.toNat * 64 + b.toNat) * 64 + c.toNat) * 64 + d.toNat) / 256 % 256 := by omega
  have hthird : (decode2 c d).toNat = (((a.toNat * 64 + b.toNat) * 64 + c.toNat) * 64 + d.toNat) % 256 := by omega
  rw [octets, group, toUInt8_eq hfirst, toUInt8_eq hsecond, toUInt8_eq hthird]

variable {str bytes front : List UInt8} {parts : List (List UInt8)}

/-- The two outcomes of the reference: a string without padding, which the decoder's scan reads to its end, or one
whose scan ends at the first padding character, with at most another one behind it. -/
def Scanned (str bytes : List UInt8) : Prop :=
  ((∀ ch ∈ str, IsValue ch) ∧ scan [] str = some (bytes, [])) ∨
    ∃ front pads, (∀ ch ∈ front, IsValue ch) ∧ str = front ++ pad :: pads ∧ (pads = [] ∨ pads = [pad]) ∧
      scan [] (front ++ [pad]) = some (bytes, [])

/-- A whole group is read in front of what follows it. -/
theorem scanned_group {a b c d : UInt8} {va vb vc vd : UInt8} (ha : decode a = some (.value va))
    (hb : decode b = some (.value vb)) (hc : decode c = some (.value vc)) (hd : decode d = some (.value vd))
    (h : Scanned str bytes) : Scanned (a :: b :: c :: d :: str) (group va vb vc vd ++ bytes) := by
  have hscan (rest : List UInt8) : scan [] (a :: b :: c :: d :: rest) =
      (scan [] rest).map fun result => (group va vb vc vd ++ result.1, result.2) := by
    rw [scan_step ha (by simp), scan_step hb (by simp), scan_step hc (by simp)]
    exact scan_group hd
  have hvalues {others : List UInt8} (hothers : ∀ ch ∈ others, IsValue ch) : ∀ ch ∈ a :: b :: c :: d :: others, IsValue ch := by
    simp only [List.forall_mem_cons]
    exact ⟨⟨va, ha⟩, ⟨vb, hb⟩, ⟨vc, hc⟩, ⟨vd, hd⟩, hothers⟩
  cases h with
  | inl hplain => exact Or.inl ⟨hvalues hplain.1, by rw [hscan, hplain.2, Option.map_some]⟩
  | inr hpadded =>
    obtain ⟨front, pads, hfront, rfl, hpads, hend⟩ := hpadded
    apply Or.inr
    apply Exists.intro (a :: b :: c :: d :: front)
    apply Exists.intro pads
    apply And.intro (hvalues hfront)
    apply And.intro rfl
    apply And.intro hpads
    rw [List.cons_append, List.cons_append, List.cons_append, List.cons_append, hscan, hend, Option.map_some]

/-- A group that ends with one or two padding characters. -/
theorem scanned_padded {pads : List UInt8} {values : List UInt8} (hfront : ∀ ch ∈ front, IsValue ch)
    (hpads : pads = [] ∨ pads = [pad]) (hscan : scan [] (front ++ [pad]) = scan values [pad])
    (hbytes : ending values = some bytes) : Scanned (front ++ pad :: pads) bytes := by
  apply Or.inr
  apply Exists.intro front
  apply Exists.intro pads
  apply And.intro hfront
  apply And.intro rfl
  apply And.intro hpads
  rw [hscan, scan_cons]
  simp only [decode_pad, hbytes, Option.map_some]

/-- What the reference accepts is scanned to the same bytes. -/
theorem decoding_scanned (h : decoding str = some bytes) : Scanned str bytes := by
  induction str using decoding.induct generalizing bytes with
  | case1 =>
    rw [decoding, Option.some.injEq] at h
    rw [← h]
    exact Or.inl ⟨List.forall_mem_nil _, rfl⟩
  | case2 a b c d rest ih =>
    rw [decoding] at h
    obtain ⟨na, hna, h⟩ := Option.bind_eq_some_iff.mp h
    obtain ⟨nb, hnb, h⟩ := Option.bind_eq_some_iff.mp h
    obtain ⟨va, hda, rfl⟩ := decode_some hna
    obtain ⟨vb, hdb, rfl⟩ := decode_some hnb
    have ha := place_lt hna
    have hb := place_lt hnb
    have hone (src : List UInt8) : scan [] (a :: b :: src) = scan [va, vb] src := by
      rw [scan_step hda (by simp), scan_step hdb (by simp)]
      rfl
    by_cases htwo : c = pad ∧ d = pad ∧ rest = []
    · obtain ⟨rfl, rfl, rfl⟩ := htwo
      have hgroup : octets va.toNat vb.toNat 0 0 = group va vb 0 0 := @octets_group va vb 0 0 ha hb (by decide) (by decide)
      rw [if_pos ⟨rfl, rfl, rfl⟩, Option.some.injEq, hgroup] at h
      rw [← h]
      exact @scanned_padded _ [a, b] [pad] [va, vb] (by simp [IsValue, hda, hdb]) (Or.inr rfl) (hone [pad]) rfl
    rw [if_neg htwo] at h
    obtain ⟨nc, hnc, h⟩ := Option.bind_eq_some_iff.mp h
    obtain ⟨vc, hdc, rfl⟩ := decode_some hnc
    have hc := place_lt hnc
    by_cases hthree : d = pad ∧ rest = []
    · obtain ⟨rfl, rfl⟩ := hthree
      have hgroup : octets va.toNat vb.toNat vc.toNat 0 = group va vb vc 0 := @octets_group va vb vc 0 ha hb hc (by decide)
      rw [if_pos ⟨rfl, rfl⟩, Option.some.injEq, hgroup] at h
      rw [← h]
      have htwice (src : List UInt8) : scan [] (a :: b :: c :: src) = scan [va, vb, vc] src := by
        rw [hone, scan_step hdc (by simp)]
        rfl
      exact @scanned_padded _ [a, b, c] [] [va, vb, vc] (by simp [IsValue, hda, hdb, hdc]) (Or.inl rfl) (htwice [pad]) rfl
    rw [if_neg hthree] at h
    obtain ⟨nd, hnd, h⟩ := Option.bind_eq_some_iff.mp h
    obtain ⟨vd, hdd, rfl⟩ := decode_some hnd
    obtain ⟨others, hothers, h⟩ := Option.bind_eq_some_iff.mp h
    rw [Option.some.injEq, octets_group ha hb hc (place_lt hnd)] at h
    rw [← h]
    exact scanned_group hda hdb hdc hdd (ih hothers)
  | case3 str hnil hshort =>
    rw [decoding] at h
    · exact nomatch h
    · exact hnil
    · exact hshort

/-- The parts of a string are cut between two padding characters. -/
def Cut (parts : List (List UInt8)) : Prop := [pad] ∈ parts ∧ ∃ front, parts.flatten = front ++ [pad, pad]

/-- Behind characters of the alphabet a string ends in two padding characters or in none that are two. -/
theorem two_pads {pads : List UInt8} (hfront : ∀ ch ∈ front, IsValue ch) (hpads : pads = [] ∨ pads = [pad])
    (hstr : str = front ++ pad :: pads) : pads = [pad] ↔ ∃ first, str = first ++ [pad, pad] := by
  constructor
  · rintro rfl
    exact ⟨front, hstr⟩
  · rintro ⟨first, hfirst⟩
    apply hpads.resolve_left
    rintro rfl
    have hlast : front ++ [pad] = (first ++ [pad]) ++ [pad] := by rw [← hstr, hfirst, List.append_assoc]; rfl
    have hmem : pad ∈ front := by
      rw [List.append_cancel_right hlast]
      exact List.mem_append_right _ List.mem_cons_self
    have hvalue := hfront pad hmem
    rw [isValue_place, place_pad] at hvalue
    exact nomatch hvalue

/-- Valid parts that are not cut between two padding characters are decoded, and nothing is left of them. -/
theorem decodes_valid (h : decoding parts.flatten = some bytes) (hcut : ¬Cut parts) :
    ∃ decoder, Returns (decodes parts) create () decoder ∧ decoder.output.flatten = bytes ∧
      decoder.saved = 0 ∧ decoder.buf = [] := by
  have hfinish {next : Base64} (hnext : Returns (appends decodeappend parts) create () next)
      (hemitted : next.emitted = create.emitted ++ bytes) (hsaves : Saves next []) :
      ∃ decoder, Returns (decodes parts) create () decoder ∧ decoder.output.flatten = bytes ∧
        decoder.saved = 0 ∧ decoder.buf = [] := by
    obtain ⟨decoder, hdecoder, houtput, hsaved, hbuf⟩ := decodes_returns hnext hemitted
    exact ⟨decoder, hdecoder, houtput, hsaved.trans hsaves, hbuf⟩
  have hcreate : Saves create [] := rfl
  cases decoding_scanned h with
  | inl hplain =>
    obtain ⟨next, hnext, hemitted, hsaves⟩ := decodeappends_values hcreate hplain.1 hplain.2
    exact hfinish hnext hemitted hsaves
  | inr hpadded =>
    obtain ⟨front, pads, hfront, hstr, hpads, hscan⟩ := hpadded
    obtain ⟨-, hreturns⟩ := decodeappends_padded pads hpads hcreate hfront hstr hscan
    have hwhole : ¬(pads = [pad] ∧ [pad] ∈ parts) := fun hboth =>
      hcut ⟨hboth.2, (two_pads hfront hpads hstr).mp hboth.1⟩
    obtain ⟨next, hnext, hemitted, hsaves⟩ := hreturns hwhole
    exact hfinish hnext hemitted hsaves

/-- Valid parts that are cut there are refused. -/
theorem decodes_cut (h : decoding parts.flatten = some bytes) (hcut : Cut parts) :
    ∃ last, Fails (decodes parts) create .misaligned last := by
  have hcreate : Saves create [] := rfl
  cases decoding_scanned h with
  | inl hplain =>
    obtain ⟨hmem, -⟩ := hcut
    have hvalue := hplain.1 pad (List.mem_flatten.mpr ⟨[pad], hmem, List.mem_cons_self⟩)
    rw [isValue_place, place_pad] at hvalue
    exact nomatch hvalue
  | inr hpadded =>
    obtain ⟨front, pads, hfront, hstr, hpads, hscan⟩ := hpadded
    obtain ⟨hfails, -⟩ := decodeappends_padded pads hpads hcreate hfront hstr hscan
    obtain ⟨last, hlast⟩ := hfails ⟨(two_pads hfront hpads hstr).mpr hcut.2, hcut.1⟩
    exact ⟨last, hlast.bind⟩

end Base64

end Aug.Net
