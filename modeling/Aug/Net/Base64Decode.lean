import Aug.Net.Base64Encode

/-!
# The decoder over a part of a string

A reference for one call of the decoder: it reads the part character by character, with the values of
the group that is not complete. At the first padding character it puts what the group has, and ignores
the rest of the part.
-/

namespace Aug.Net

open Aug.Lib Call

namespace Base64

/-- The bytes of a group of four values. -/
def group (c0 c1 c2 c3 : UInt8) : List UInt8 := [decode0 c0 c1, decode1 c1 c2, decode2 c2 c3]

/-- The bytes of a group that ends early. -/
def ending : List UInt8 → Option (List UInt8)
  | [c0, c1] => some [decode0 c0 c1]
  | [c0, c1, c2] => some [decode0 c0 c1, decode1 c1 c2]
  | _ => none

/-- The bytes that a part gives after the values of an incomplete group, and the values left. -/
def scan : List UInt8 → List UInt8 → Option (List UInt8 × List UInt8)
  | group, [] => some ([], group)
  | values, ch :: src =>
    match decode ch with
    | some (.value c3) =>
      match values with
      | [c0, c1, c2] => (scan [] src).map fun result => (group c0 c1 c2 c3 ++ result.1, result.2)
      | values => scan (values ++ [c3]) src
    | some .end_ => (ending values).map fun bytes => (bytes, [])
    | _ => none

variable {base64 next : Base64} {ch c0 c1 c2 : UInt8} {values src bytes left : List UInt8}

theorem scan_nil (values : List UInt8) : scan values [] = some ([], values) := rfl

theorem scan_cons (values src : List UInt8) (ch : UInt8) :
    scan values (ch :: src) =
      match decode ch with
      | some (.value c3) =>
        match values with
        | [c0, c1, c2] => (scan [] src).map fun result => (group c0 c1 c2 c3 ++ result.1, result.2)
        | values => scan (values ++ [c3]) src
      | some .end_ => (ending values).map fun bytes => (bytes, [])
      | _ => none := rfl

/-- A group of no more than one value does not end. -/
theorem scan_value (values : List UInt8) (hvalues : ending values = none) (hshort : values.length < 3)
    (h : scan values (ch :: src) = some (bytes, left)) :
    ∃ c, decode ch = some (.value c) ∧ scan (values ++ [c]) src = some (bytes, left) := by
  rw [scan_cons] at h
  cases hch : decode ch with
  | none => simp [hch] at h
  | some entry =>
    cases entry with
    | inv => simp [hch] at h
    | end_ => simp [hch, hvalues] at h
    | value c =>
      apply Exists.intro c
      apply And.intro rfl
      match values, hshort with
      | [], _ => simpa [hch] using h
      | [_], _ => simpa [hch] using h
      | [_, _], _ => simpa [hch] using h

/-- The third character of a group. -/
theorem scan_third (h : scan [c0, c1] (ch :: src) = some (bytes, left)) :
    (decode ch = some .end_ ∧ bytes = [decode0 c0 c1] ∧ left = []) ∨
      ∃ c, decode ch = some (.value c) ∧ scan [c0, c1, c] src = some (bytes, left) := by
  rw [scan_cons] at h
  cases hch : decode ch with
  | none => simp [hch] at h
  | some entry =>
    cases entry with
    | inv => simp [hch] at h
    | end_ =>
      simp only [hch, ending, Option.map_some, Option.some.injEq, Prod.mk.injEq] at h
      exact .inl ⟨rfl, h.1.symm, h.2.symm⟩
    | value c => exact .inr ⟨c, rfl, by simpa [hch] using h⟩

/-- The last character of a group. -/
theorem scan_last (h : scan [c0, c1, c2] (ch :: src) = some (bytes, left)) :
    (decode ch = some .end_ ∧ bytes = [decode0 c0 c1, decode1 c1 c2] ∧ left = []) ∨
      ∃ c rest, decode ch = some (.value c) ∧ scan [] src = some (rest, left) ∧ bytes = group c0 c1 c2 c ++ rest := by
  rw [scan_cons] at h
  cases hch : decode ch with
  | none => simp [hch] at h
  | some entry =>
    cases entry with
    | inv => simp [hch] at h
    | end_ =>
      simp only [hch, ending, Option.map_some, Option.some.injEq, Prod.mk.injEq] at h
      exact .inl ⟨rfl, h.1.symm, h.2.symm⟩
    | value c =>
      simp only [hch, Option.map_eq_some_iff, Prod.mk.injEq] at h
      obtain ⟨⟨rest, left'⟩, hscan, hbytes, hleft⟩ := h
      cases hleft
      exact .inr ⟨c, rest, rfl, hscan, hbytes.symm⟩

/-- Put one byte. -/
theorem put_one (hsaves : Saves base64 values) (b0 : UInt8) :
    ∃ next, Returns (putch b0) base64 () next ∧ next.emitted = base64.emitted ++ [b0] ∧ Saves next values := by
  obtain ⟨next, hput, hemits⟩ := putch_emits base64 b0
  exact ⟨next, hput, hemits.emitted, hemits.saves hsaves⟩

/-- Put two bytes. -/
theorem put_two (hsaves : Saves base64 values) (b0 b1 : UInt8) :
    ∃ next, Returns (do putch b0; putch b1) base64 () next ∧ next.emitted = base64.emitted ++ [b0, b1] ∧
      Saves next values := by
  obtain ⟨first, hfirst, hemits⟩ := putch_emits base64 b0
  obtain ⟨next, hnext, hmore⟩ := putch_emits first b1
  exact ⟨next, hfirst.bind hnext, (hemits.trans hmore).emitted, (hemits.trans hmore).saves hsaves⟩

/-- Put the three bytes of a group, and go on. -/
theorem put_group (hsaves : Saves base64 values) (c0 c1 c2 c3 : UInt8) :
    ∃ third, third.emitted = base64.emitted ++ group c0 c1 c2 c3 ∧ Saves third values ∧
      ∀ {α : Type} {call : Base64Call α} {result : α} {last : Base64}, Returns call third result last →
        Returns (do putch (decode0 c0 c1); putch (decode1 c1 c2); putch (decode2 c2 c3); call) base64 result last := by
  obtain ⟨first, hfirst, hemits⟩ := putch_emits base64 (decode0 c0 c1)
  obtain ⟨second, hsecond, hmore⟩ := putch_emits first (decode1 c1 c2)
  obtain ⟨third, hthird, hlast⟩ := putch_emits second (decode2 c2 c3)
  have hall := (hemits.trans hmore).trans hlast
  apply Exists.intro third
  exact ⟨hall.emitted, hall.saves hsaves, fun hcall => hfirst.bind (hsecond.bind (hthird.bind hcall))⟩

mutual

/-- The loop gives what the reference gives. -/
theorem decodegroups_returns {base64 : Base64} {bytes : List UInt8} (hsaves : Saves base64 []) :
    ∀ (src : List UInt8), scan [] src = some (bytes, left) →
      ∃ next, Returns (decodegroups src) base64 () next ∧ next.emitted = base64.emitted ++ bytes ∧ Saves next left
  | [], h => by
    rw [scan_nil, Option.some.injEq, Prod.mk.injEq] at h
    rw [← h.1, ← h.2, List.append_nil]
    exact ⟨base64, returns_pure () base64, rfl, hsaves⟩
  | ch :: src, h => by
    obtain ⟨c0, hch, h⟩ := scan_value [] rfl (by simp) h
    obtain ⟨next, hcall, hnext⟩ := decodegroups1_returns c0 hsaves src h
    exact ⟨next, (returns_access hch base64).bind hcall, hnext⟩
  termination_by structural src => src

theorem decodegroups1_returns {base64 : Base64} {bytes : List UInt8} (c0 : UInt8) (hsaves : Saves base64 []) :
    ∀ (src : List UInt8), scan [c0] src = some (bytes, left) →
      ∃ next, Returns (decodegroups1 c0 src) base64 () next ∧ next.emitted = base64.emitted ++ bytes ∧ Saves next left
  | [], h => by
    rw [scan_nil, Option.some.injEq, Prod.mk.injEq] at h
    rw [← h.1, ← h.2, List.append_nil]
    apply Exists.intro _
    apply And.intro ((returns_modify _ base64).bind (returns_modify _ _))
    exact ⟨rfl, rfl, rfl⟩
  | ch :: src, h => by
    obtain ⟨c1, hch, h⟩ := scan_value [c0] rfl (by simp) h
    obtain ⟨next, hcall, hnext⟩ := decodegroups2_returns c0 c1 hsaves src h
    exact ⟨next, (returns_access hch base64).bind hcall, hnext⟩
  termination_by structural src => src

theorem decodegroups2_returns {base64 : Base64} {bytes : List UInt8} (c0 c1 : UInt8) (hsaves : Saves base64 []) :
    ∀ (src : List UInt8), scan [c0, c1] src = some (bytes, left) →
      ∃ next, Returns (decodegroups2 c0 c1 src) base64 () next ∧ next.emitted = base64.emitted ++ bytes ∧
        Saves next left
  | [], h => by
    rw [scan_nil, Option.some.injEq, Prod.mk.injEq] at h
    rw [← h.1, ← h.2, List.append_nil]
    apply Exists.intro _
    apply And.intro ((returns_modify _ base64).bind ((returns_modify _ _).bind (returns_modify _ _)))
    exact ⟨rfl, rfl, rfl, rfl⟩
  | ch :: src, h => by
    obtain ⟨hch, hbytes, hleft⟩ | ⟨c2, hch, h⟩ := scan_third h
    · rw [hbytes, hleft]
      obtain ⟨next, hput, hnext⟩ := put_one hsaves (decode0 c0 c1)
      exact ⟨next, (returns_access hch base64).bind hput, hnext⟩
    · obtain ⟨next, hcall, hnext⟩ := decodegroups3_returns c0 c1 c2 hsaves src h
      exact ⟨next, (returns_access hch base64).bind hcall, hnext⟩
  termination_by structural src => src

theorem decodegroups3_returns {base64 : Base64} {bytes : List UInt8} (c0 c1 c2 : UInt8) (hsaves : Saves base64 []) :
    ∀ (src : List UInt8), scan [c0, c1, c2] src = some (bytes, left) →
      ∃ next, Returns (decodegroups3 c0 c1 c2 src) base64 () next ∧ next.emitted = base64.emitted ++ bytes ∧
        Saves next left
  | [], h => by
    rw [scan_nil, Option.some.injEq, Prod.mk.injEq] at h
    rw [← h.1, ← h.2, List.append_nil]
    apply Exists.intro _
    apply And.intro ((returns_modify _ base64).bind ((returns_modify _ _).bind ((returns_modify _ _).bind
      (returns_modify _ _))))
    exact ⟨rfl, rfl, rfl, rfl, rfl⟩
  | ch :: src, h => by
    obtain ⟨hch, hbytes, hleft⟩ | ⟨c3, rest, hch, hscan, hbytes⟩ := scan_last h
    · rw [hbytes, hleft]
      obtain ⟨next, hput, hnext⟩ := put_two hsaves (decode0 c0 c1) (decode1 c1 c2)
      exact ⟨next, (returns_access hch base64).bind hput, hnext⟩
    · obtain ⟨third, hthird, hsaved, hthen⟩ := put_group hsaves c0 c1 c2 c3
      obtain ⟨next, hcall, hnext, hleft⟩ := decodegroups_returns hsaved src hscan
      apply Exists.intro next
      rw [hnext, hthird, hbytes, List.append_assoc]
      exact ⟨(returns_access hch base64).bind (hthen hcall), rfl, hleft⟩
  termination_by structural src => src

end

/-- The alignment either uses the part up, or it completes the group with some characters of the part and
leaves the rest. -/
def Aligns (call : Base64Call (Option ℕ)) (base64 : Base64) (align : ℕ) (rest : ℕ) (src bytes left : List UInt8) :
    Prop :=
  (∃ next, Returns call base64 none next ∧ next.emitted = base64.emitted ++ bytes ∧ Saves next left) ∨
    ∃ next more, Returns call base64 (some align) next ∧ scan [] (src.drop rest) = some (more, left) ∧
      next.emitted ++ more = base64.emitted ++ bytes ∧ Saves next []

/-- A part that ends here leaves what is saved. -/
theorem aligns_nil {call : Base64Call (Option ℕ)} {align rest : ℕ} (hcall : Returns call base64 none base64)
    (hsaves : Saves base64 values) (h : scan values [] = some (bytes, left)) :
    Aligns call base64 align rest [] bytes left := by
  rw [scan_nil, Option.some.injEq, Prod.mk.injEq] at h
  rw [← h.1, ← h.2]
  exact .inl ⟨base64, hcall, (List.append_nil _).symm, hsaves⟩

theorem decodealign3_aligns (align : ℕ) (hsaves : Saves base64 [c0, c1, c2])
    (h : scan [c0, c1, c2] src = some (bytes, left)) :
    Aligns (decodealign3 align c0 c1 c2 src) base64 align 1 src bytes left := by
  cases src with
  | nil => exact aligns_nil (returns_pure _ base64) hsaves h
  | cons ch src =>
    obtain ⟨hch, hbytes, hleft⟩ | ⟨c3, rest, hch, hscan, hbytes⟩ := scan_last h
    · rw [hbytes, hleft]
      obtain ⟨first, hfirst, hemits⟩ := putch_emits base64 (decode0 c0 c1)
      obtain ⟨second, hsecond, hmore⟩ := putch_emits first (decode1 c1 c2)
      apply Or.inl
      apply Exists.intro { second with saved := 0 }
      apply And.intro
      · apply (returns_access hch base64).bind
        exact hfirst.bind (hsecond.bind ((returns_modify _ _).bind (returns_pure _ _)))
      · exact ⟨(hemits.trans hmore).emitted, rfl⟩
    · obtain ⟨third, hthird, hsaved, hthen⟩ := put_group hsaves c0 c1 c2 c3
      apply Or.inr
      apply Exists.intro { third with saved := 0 }
      apply Exists.intro rest
      apply And.intro
      · exact (returns_access hch base64).bind (hthen ((returns_modify _ _).bind (returns_pure _ _)))
      · apply And.intro hscan
        rw [hbytes, ← List.append_assoc, ← hthird]
        exact ⟨rfl, rfl⟩

/-- One more character of the group is saved. -/
theorem aligns_cons {call later : Base64Call (Option ℕ)} {align rest : ℕ}
    (hcall : ∀ {result last}, Returns later next result last → Returns call base64 result last)
    (hemitted : next.emitted = base64.emitted) (h : Aligns later next align rest src bytes left) :
    Aligns call base64 align (rest + 1) (ch :: src) bytes left := by
  rw [Aligns, hemitted] at h
  cases h with
  | inl hused =>
    obtain ⟨last, hlater, hlast⟩ := hused
    exact .inl ⟨last, hcall hlater, hlast⟩
  | inr haligned =>
    obtain ⟨last, more, hlater, hlast⟩ := haligned
    exact .inr ⟨last, more, hcall hlater, hlast⟩

theorem decodealign2_aligns (align : ℕ) (hsaves : Saves base64 [c0, c1])
    (h : scan [c0, c1] src = some (bytes, left)) :
    Aligns (decodealign2 align c0 c1 src) base64 align 2 src bytes left := by
  cases src with
  | nil => exact aligns_nil (returns_pure _ base64) hsaves h
  | cons ch src =>
    obtain ⟨hch, hbytes, hleft⟩ | ⟨c2, hch, hscan⟩ := scan_third h
    · rw [hbytes, hleft]
      obtain ⟨first, hfirst, hemits⟩ := putch_emits base64 (decode0 c0 c1)
      apply Or.inl
      apply Exists.intro { first with saved := 0 }
      apply And.intro
      · apply (returns_access hch base64).bind
        exact hfirst.bind ((returns_modify _ _).bind (returns_pure _ _))
      · exact ⟨hemits.emitted, rfl⟩
    · have hsaved : Saves { base64 with save := Function.update base64.save 2 c2, saved := 3 } [c0, c1, c2] :=
        ⟨rfl, hsaves.2.1, hsaves.2.2, rfl⟩
      apply aligns_cons _ _ (decodealign3_aligns align hsaved hscan)
      · intro result last hlater
        apply (returns_access hch base64).bind
        exact (returns_modify _ _).bind ((returns_modify _ _).bind hlater)
      · rfl

theorem decodealign1_aligns (align : ℕ) (hsaves : Saves base64 [c0]) (h : scan [c0] src = some (bytes, left)) :
    Aligns (decodealign1 align c0 src) base64 align 3 src bytes left := by
  cases src with
  | nil => exact aligns_nil (returns_pure _ base64) hsaves h
  | cons ch src =>
    obtain ⟨c1, hch, hscan⟩ := scan_value [c0] rfl (by simp) h
    have hsaved : Saves { base64 with save := Function.update base64.save 1 c1, saved := 2 } [c0, c1] :=
      ⟨rfl, hsaves.2, rfl⟩
    apply aligns_cons _ _ (decodealign2_aligns align hsaved hscan)
    · intro result last hlater
      apply (returns_access hch base64).bind
      exact (returns_modify _ _).bind ((returns_modify _ _).bind hlater)
    · rfl

/-- Whatever is saved, the alignment agrees with the reference. -/
theorem decodealign_aligns (hsaves : Saves base64 values) (h : scan values src = some (bytes, left)) :
    ∃ align, Aligns (decodealign src) base64 align align src bytes left := by
  obtain ⟨output, buf, save, saved⟩ := base64
  match values with
  | [] =>
    cases hsaves
    apply Exists.intro 0
    exact .inr ⟨_, bytes, (returns_read _).bind (returns_pure _ _), h, rfl, rfl⟩
  | [c0] =>
    obtain ⟨hsaved, hsave⟩ := hsaves
    cases hsaved
    cases hsave
    exact ⟨3, decodealign1_aligns 3 ⟨rfl, rfl⟩ h⟩
  | [c0, c1] =>
    obtain ⟨hsaved, hsave0, hsave1⟩ := hsaves
    cases hsaved
    cases hsave0
    cases hsave1
    exact ⟨2, decodealign2_aligns 2 ⟨rfl, rfl, rfl⟩ h⟩
  | [c0, c1, c2] =>
    obtain ⟨hsaved, hsave0, hsave1, hsave2⟩ := hsaves
    cases hsaved
    cases hsave0
    cases hsave1
    cases hsave2
    exact ⟨1, decodealign3_aligns 1 ⟨rfl, rfl, rfl, rfl⟩ h⟩
  | _ :: _ :: _ :: _ :: _ => exact absurd hsaves id

/-- A part gives what the reference gives. -/
theorem decodeappend_returns (hsaves : Saves base64 values) (h : scan values src = some (bytes, left)) :
    ∃ next, Returns (decodeappend src) base64 () next ∧ next.emitted = base64.emitted ++ bytes ∧ Saves next left := by
  obtain ⟨align, haligns⟩ := decodealign_aligns hsaves h
  cases haligns with
  | inl hused =>
    obtain ⟨next, hcall, hnext⟩ := hused
    exact ⟨next, hcall.bind (returns_pure () next), hnext⟩
  | inr haligned =>
    obtain ⟨next, more, hcall, hscan, hemitted, hsaved⟩ := haligned
    obtain ⟨last, hloop, hlast, hleft⟩ := decodegroups_returns hsaved _ hscan
    exact ⟨last, hcall.bind hloop, hlast.trans hemitted, hleft⟩

end Base64

end Aug.Net
