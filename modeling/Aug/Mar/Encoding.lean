import Aug.Mar.Reference

/-!
# The encoded header

The fields of a reference archive written one after the other, and what the two walks of the
header functions find in them: `walkn` passes a number of whole fields, and `walkp` stops at
the first field whose name agrees up to case, or behind the last one.
-/

namespace Aug.Mar

open Aug.Lib

/-- The bytes of a field. -/
def encodeField (field : Field) : List UInt8 :=
  encodeBE 2 (field.name.chars.length + 1) ++ (encodeBE 2 (field.value.length + 1) ++
    (field.name.bytes ++ (field.value ++ [0])))

/-- The bytes of a header. -/
def encodeFields (fields : List Field) : List UInt8 := fields.flatMap encodeField

/-- A field whose sizes fit the format. -/
def Field.Fits (field : Field) : Prop :=
  field.name.chars.length + 1 ≤ maxnsize ∧ field.value.length + 1 ≤ maxvsize

@[simp] theorem CStr.bytes_length (s : CStr) : s.bytes.length = s.chars.length + 1 := by
  simp [CStr.bytes]

@[simp] theorem encodeField_length (field : Field) : (encodeField field).length = field.size := by
  simp [encodeField, Field.size, fieldsize, valueoff, nameoff]
  omega

@[simp] theorem encodeFields_nil : encodeFields [] = [] := rfl

@[simp] theorem encodeFields_cons (field : Field) (fields : List Field) :
    encodeFields (field :: fields) = encodeField field ++ encodeFields fields := rfl

@[simp] theorem encodeFields_append (left right : List Field) :
    encodeFields (left ++ right) = encodeFields left ++ encodeFields right := by
  simp [encodeFields]

/-- The header size is the sum of the field sizes. -/
theorem encodeFields_length (fields : List Field) :
    (encodeFields fields).length = (fields.map Field.size).sum := by
  induction fields with
  | nil => rfl
  | cons field fields ih => simp [ih]

/-! ## One field -/

theorem nsizeAt_encodeField {field : Field} (hfits : field.Fits) {mem front back : List UInt8}
    (hmem : mem = front ++ (encodeField field ++ back)) :
    nsizeAt mem front.length = some (field.name.chars.length + 1) := by
  have hn := hfits.1
  unfold maxnsize at hn
  subst hmem
  have h := decodeBE_encodeBE 2 (field.name.chars.length + 1) front
    (encodeBE 2 (field.value.length + 1) ++ (field.name.bytes ++ (field.value ++ [0])) ++ back)
    (by omega)
  simpa [nsizeAt, nsizeoff, encodeField] using h

theorem vsizeAt_encodeField {field : Field} (hfits : field.Fits) {mem front back : List UInt8}
    (hmem : mem = front ++ (encodeField field ++ back)) :
    vsizeAt mem front.length = some (field.value.length + 1) := by
  have hv := hfits.2
  unfold maxvsize at hv
  subst hmem
  have h := decodeBE_encodeBE 2 (field.value.length + 1)
    (front ++ encodeBE 2 (field.name.chars.length + 1))
    (field.name.bytes ++ (field.value ++ [0]) ++ back) (by omega)
  simpa [vsizeAt, vsizeoff, encodeField] using h

theorem fieldsizeAt_encodeField {field : Field} (hfits : field.Fits) {mem front back : List UInt8}
    (hmem : mem = front ++ (encodeField field ++ back)) :
    fieldsizeAt mem front.length = some field.size := by
  simp [fieldsizeAt, nsizeAt_encodeField hfits hmem, vsizeAt_encodeField hfits hmem, Field.size]

/-- The name lies at its offset in the field. -/
theorem drop_name {field : Field} {mem front back : List UInt8}
    (hmem : mem = front ++ (encodeField field ++ back)) :
    mem.drop (front.length + nameoff) = field.name.bytes ++ ((field.value ++ [0]) ++ back) := by
  subst hmem
  rw [← List.drop_drop, List.drop_left]
  simp only [encodeField, List.append_assoc]
  rw [← List.append_assoc, List.drop_left' (by simp [nameoff])]

/-- The value lies at its offset in the field. -/
theorem load_value {field : Field} {mem front back : List UInt8}
    (hmem : mem = front ++ (encodeField field ++ back)) :
    load mem (front.length + valueoff (field.name.chars.length + 1)) field.value.length =
      some field.value := by
  subst hmem
  have h := load_append (a := front ++ (encodeBE 2 (field.name.chars.length + 1) ++
      (encodeBE 2 (field.value.length + 1) ++ field.name.bytes)))
    (b := field.value) (c := [0] ++ back)
    (i := front.length + valueoff (field.name.chars.length + 1))
    (by simp [valueoff, nameoff]; omega) rfl
  simpa [encodeField] using h

/-! ## Names -/

theorem tolower_eq_zero {c : UInt8} (h : tolower c = 0) : c = 0 := by
  unfold tolower at h
  split at h
  · rename_i hc
    exfalso
    have hlow := UInt8.le_iff_toNat_le.mp hc.1
    have hhigh := UInt8.le_iff_toNat_le.mp hc.2
    have hval := congrArg UInt8.toNat h
    simp at hlow hhigh hval
    omega
  · exact h

/-- The comparison ends at two characters that differ by more than case. -/
theorem strncasecmp_ne {a b : UInt8} (h : tolower a ≠ tolower b) (n : ℕ) (as bs : List UInt8) :
    ∃ c, strncasecmp (n + 1) (a :: as) (b :: bs) = some c ∧ c ≠ 0 := by
  refine ⟨_, by rw [strncasecmp, if_pos h], ?_⟩
  intro heq
  exact h (UInt8.toNat_inj.mp (by omega))

/-- Comparing two terminated names with the stored size decides equality up to case. -/
theorem strncasecmp_bytes (s t : List UInt8) (hs : 0 ∉ s) (ht : 0 ∉ t) (rest : List UInt8) :
    ∃ c, strncasecmp (t.length + 1) (s ++ [0]) ((t ++ [0]) ++ rest) = some c ∧
      (c = 0 ↔ s.map tolower = t.map tolower) := by
  induction t generalizing s with
  | nil =>
    cases s with
    | nil => exact ⟨0, by simp [strncasecmp], by simp⟩
    | cons a s =>
      have ha : tolower a ≠ tolower 0 := fun h => hs (by simp [tolower_eq_zero (c := a) h])
      obtain ⟨c, hc, hne⟩ := strncasecmp_ne ha 0 (s ++ [0]) rest
      exact ⟨c, hc, by simp [hne]⟩
  | cons b t ih =>
    have hb : b ≠ 0 := fun h => ht (by simp [h])
    cases s with
    | nil =>
      have ha : tolower 0 ≠ tolower b := fun h => hb (tolower_eq_zero h.symm)
      obtain ⟨c, hc, hne⟩ := strncasecmp_ne ha (t.length + 1) [] ((t ++ [0]) ++ rest)
      exact ⟨c, hc, by simp [hne]⟩
    | cons a s =>
      by_cases ha : tolower a = tolower b
      · have ha0 : a ≠ 0 := fun h => hs (by simp [h])
        obtain ⟨c, hc, hiff⟩ := ih s (fun h => hs (List.mem_cons_of_mem _ h))
          (fun h => ht (List.mem_cons_of_mem _ h))
        refine ⟨c, ?_, by simp [ha, hiff]⟩
        simpa only [List.cons_append, List.length_cons, strncasecmp, ha, ne_eq, not_true_eq_false,
          if_false, if_neg ha0] using hc
      · obtain ⟨c, hc, hne⟩ := strncasecmp_ne ha (t.length + 1) (s ++ [0]) ((t ++ [0]) ++ rest)
        exact ⟨c, hc, by simp [hne, ha]⟩

/-! ## Walks -/

/-- Walking over whole fields adds their sizes. -/
theorem walkn_encodeFields {fields : List Field} (hfits : ∀ field ∈ fields, field.Fits)
    {mem front back : List UInt8} (hmem : mem = front ++ (encodeFields fields ++ back)) :
    walkn mem front.length fields.length = some (front ++ encodeFields fields).length := by
  induction fields generalizing front with
  | nil => simp [walkn]
  | cons field fields ih =>
    have hfield : mem = front ++ (encodeField field ++ (encodeFields fields ++ back)) := by
      simpa using hmem
    have hrest : mem = (front ++ encodeField field) ++ (encodeFields fields ++ back) := by
      simpa using hmem
    have hsize := fieldsizeAt_encodeField (hfits field List.mem_cons_self) hfield
    have htail := ih (fun f hf => hfits f (List.mem_cons_of_mem _ hf)) hrest
    rw [List.length_append, encodeField_length] at htail
    simp only [List.length_cons, walkn, hsize, Option.bind_eq_bind, Option.bind_some, htail]
    simp

/-- A pointer behind fields is their size away, which is no more than an `unsigned`. -/
theorem u32_offset {front : List UInt8} {fields : List Field} (h32 : (encodeFields fields).length < 2 ^ 32) :
    u32 (((front ++ encodeFields fields).length : ℤ) - front.length) = (encodeFields fields).length := by
  rw [List.length_append]
  exact u32_eq (by omega) h32

/-- The fields in front are no longer than all of them. -/
theorem left_lt {left right : List Field} {n : ℕ} (h : (encodeFields (left ++ right)).length < n) :
    (encodeFields left).length < n := by
  rw [encodeFields_append, List.length_append] at h
  omega

/-- The offset of the field after `left`. -/
theorem offsetn_encodeFields {left right : List Field} (hfits : ∀ field ∈ left, field.Fits)
    (h32 : (encodeFields (left ++ right)).length < 2 ^ 32) {mem front back : List UInt8}
    (hmem : mem = front ++ (encodeFields (left ++ right) ++ back)) :
    offsetn mem front.length left.length = some (encodeFields left).length := by
  have hleft : mem = front ++ (encodeFields left ++ (encodeFields right ++ back)) := by
    simpa using hmem
  have hwalk := walkn_encodeFields hfits hleft
  rw [offsetn, hwalk]
  exact congrArg some (u32_offset (left_lt h32))

/-- The walk by name passes the fields with other names. -/
theorem walkp_pass {name : CStr} {left : List Field} (hfits : ∀ field ∈ left, field.Fits)
    (hother : ∀ field ∈ left, field.key ≠ name.fold) {mem front back : List UInt8}
    (hmem : mem = front ++ (encodeFields left ++ back)) (count n more : ℕ) :
    walkp mem name count (left.length + more) n front.length =
      walkp mem name count more (n + left.length) (front ++ encodeFields left).length := by
  induction left generalizing front n with
  | nil => simp
  | cons field left ih =>
    have hfield : mem = front ++ (encodeField field ++ (encodeFields left ++ back)) := by
      simpa using hmem
    have hrest : mem = (front ++ encodeField field) ++ (encodeFields left ++ back) := by
      simpa using hmem
    have hf := hfits field List.mem_cons_self
    obtain ⟨c, hc, hiff⟩ := strncasecmp_bytes name.chars field.name.chars name.nonul
      field.name.nonul ((field.value ++ [0]) ++ (encodeFields left ++ back))
    have hne : c ≠ 0 := fun h => hother field List.mem_cons_self (hiff.mp h).symm
    have hcmp : strncasecmp (field.name.chars.length + 1) name.bytes
        (mem.drop (front.length + nameoff)) = some c := by
      rw [drop_name hfield]
      exact hc
    have htail := ih (fun f hf => hfits f (List.mem_cons_of_mem _ hf))
      (fun f hf => hother f (List.mem_cons_of_mem _ hf)) hrest (n + 1)
    rw [List.length_append, encodeField_length] at htail
    have hcount : (field :: left).length + more = (left.length + more) + 1 := by
      simp only [List.length_cons]
      omega
    rw [hcount, walkp]
    simp only [nsizeAt_encodeField hf hfield, hcmp, fieldsizeAt_encodeField hf hfield, hne,
      Option.bind_eq_bind, Option.bind_some, if_false]
    rw [htail, List.length_cons]
    congr 1
    · omega
    · simp

/-- The walk by name stops at a field with that name. -/
theorem walkp_stop {name : CStr} {field : Field} (hfits : field.Fits)
    (hname : field.key = name.fold) {mem front back : List UInt8}
    (hmem : mem = front ++ (encodeField field ++ back)) (count n more : ℕ) :
    walkp mem name count (more + 1) n front.length = some (front.length, n) := by
  obtain ⟨c, hc, hiff⟩ := strncasecmp_bytes name.chars field.name.chars name.nonul
    field.name.nonul ((field.value ++ [0]) ++ back)
  have hzero : c = 0 := hiff.mpr hname.symm
  have hcmp : strncasecmp (field.name.chars.length + 1) name.bytes
      (mem.drop (front.length + nameoff)) = some 0 := by
    rw [drop_name hmem]
    exact hzero ▸ hc
  simp [walkp, nsizeAt_encodeField hfits hmem, hcmp]

/-- A present name is found at its ordinal, behind the fields before it. -/
theorem offsetp_found {name : CStr} {left right : List Field} {field : Field}
    (hfits : ∀ f ∈ left ++ field :: right, f.Fits) (hname : field.key = name.fold)
    (hother : ∀ f ∈ left, f.key ≠ name.fold) (h32 : (encodeFields (left ++ field :: right)).length < 2 ^ 32)
    {mem front back : List UInt8} (hmem : mem = front ++ (encodeFields (left ++ field :: right) ++ back)) :
    offsetp mem front.length name (left ++ field :: right).length =
      some ((encodeFields left).length, left.length) := by
  have hleft : mem = front ++ (encodeFields left ++
      (encodeField field ++ (encodeFields right ++ back))) := by simpa using hmem
  have hfield : mem = (front ++ encodeFields left) ++
      (encodeField field ++ (encodeFields right ++ back)) := by simpa using hmem
  have hpass := walkp_pass (fun f hf => hfits f (List.mem_append_left _ hf)) hother hleft
    (left ++ field :: right).length 0 (right.length + 1)
  have hstop := walkp_stop (hfits field (by simp)) hname hfield (left ++ field :: right).length
    (0 + left.length) right.length
  have hcount : (left ++ field :: right).length = left.length + (right.length + 1) := by simp
  rw [offsetp]
  conv_lhs => enter [1, 4]; rw [hcount]
  rw [hpass, hstop, Nat.zero_add]
  exact congrArg (fun offset => some (offset, left.length)) (u32_offset (left_lt h32))

/-- An absent name is reported with the number of fields, behind the last one. -/
theorem offsetp_absent {name : CStr} {fields : List Field} (hfits : ∀ f ∈ fields, f.Fits)
    (hother : ∀ f ∈ fields, f.key ≠ name.fold) (h32 : (encodeFields fields).length < 2 ^ 32)
    {mem front back : List UInt8} (hmem : mem = front ++ (encodeFields fields ++ back)) :
    offsetp mem front.length name fields.length =
      some ((encodeFields fields).length, fields.length) := by
  have hpass := walkp_pass hfits hother hmem fields.length 0 0
  rw [offsetp]
  simp only [Nat.add_zero] at hpass
  rw [Nat.zero_add] at hpass
  rw [hpass, walkp]
  exact congrArg (fun offset => some (offset, fields.length)) (u32_offset h32)

end Aug.Mar
