import Aug.Mar.Encoding
import Aug.Mar.SeqSpec

/-!
# The header operations on a represented archive

An archive represents a reference when its sequence is the leader, the encoded fields and the
body, and the cached counters agree. Each header operation splices one part of that
concatenation; the lemmas here follow the splice and give back the representation.
-/

namespace Aug.Mar

open Aug.Lib

variable {σ : Type} [LawfulSeq σ]

/-- The archive encodes the reference, and its cached leader counts what is there. -/
structure Represents (ar : Archive σ) (ref : Reference) : Prop where
  encodes : ∃ leader : List UInt8, leader.length = leadersize ∧
    LawfulSeq.Holds ar.seq.impl (leader ++ (encodeFields ref.fields.entries ++ ref.body))
  fields : ar.info.fields = ref.fields.entries.length
  hsize : ar.info.hsize = ref.hsize
  bsize : ar.info.bsize = ref.body.length
  fits : ∀ field ∈ ref.fields.entries, field.Fits
  small : ref.size < 2 ^ 31
  offset : ar.offset = ref.pos
  posfits : ref.pos < 2 ^ 32
  flags : ar.flags = { access := .rdwr, append := false }

/-- The environment grants every request of an archive below `2 ^ 31` bytes. -/
def Granting (env : SeqImpl.Env σ) : Prop :=
  ∀ (s : σ) (n : ℕ), n < 2 ^ 31 → LawfulSeq.Grants env s n

/-- The archive with another sequence. -/
def Archive.withSeq (ar : Archive σ) (impl : σ) (offset len : ℕ) : Archive σ :=
  { ar with seq := { impl, offset, len } }

theorem Reference.hsize_eq (ref : Reference) :
    ref.hsize = (encodeFields ref.fields.entries).length :=
  (encodeFields_length _).symm

theorem length_le_encodeFields (fields : List Field) :
    fields.length ≤ (encodeFields fields).length := by
  induction fields with
  | nil => rfl
  | cons field fields ih =>
    simp only [List.length_cons, encodeFields_cons, List.length_append, encodeField_length,
      Field.size, fieldsize, valueoff, nameoff]
    omega

namespace Represents

variable {ar : Archive σ} {ref : Reference}

theorem bounds (h : Represents ar ref) :
    ref.fields.entries.length ≤ ref.hsize ∧ leadersize + ref.hsize + ref.body.length < 2 ^ 31 :=
  ⟨by rw [ref.hsize_eq]; exact length_le_encodeFields _, h.small⟩

/-- The fields are no longer than an `unsigned` says. -/
theorem encoded_lt (h : Represents ar ref) : (encodeFields ref.fields.entries).length < 2 ^ 32 := by
  have hb := h.bounds
  rw [← ref.hsize_eq]
  omega

/-- The region is not part of the representation. -/
theorem withRegion (h : Represents ar ref) (offset len : ℕ) :
    Represents (ar.withSeq ar.seq.impl offset len) ref :=
  ⟨h.encodes, h.fields, h.hsize, h.bsize, h.fits, h.small, h.offset, h.posfits, h.flags⟩

end Represents

/-! ## Statements on the sequence of an archive -/

omit [LawfulSeq σ] in
theorem Returns.onSeq {α : Type} {x : Call (Seq σ) Failure α} (ar : Archive σ) {a : α}
    {seq : Seq σ} (hx : x.Returns ar.seq a seq) :
    (Archive.onSeq x).Returns ar a { ar with seq } :=
  Call.Returns.zoom hx

theorem setregion_at {ar : Archive σ} {bs : List UInt8} (offset len : ℕ)
    (hholds : LawfulSeq.Holds ar.seq.impl bs) (hin : offset + len ≤ bs.length)
    (h32 : bs.length < 2 ^ 32) :
    (Archive.onSeq (setregion offset len)).Returns ar () (ar.withSeq ar.seq.impl offset len) :=
  Returns.onSeq ar (setregion_returns ar.seq hholds hin h32)

theorem resizeseq_at {env : SeqImpl.Env σ} (ar : Archive σ) {impl : σ} {front mid back : List UInt8}
    {n : ℕ} (hgrant : Granting env)
    (hholds : LawfulSeq.Holds impl (front ++ (mid ++ back)))
    (hbound : (front ++ (mid ++ back)).length < 2 ^ 32)
    (h31 : front.length + n + back.length < 2 ^ 31) :
    ∃ impl' mid', (Archive.onSeq (resizeseq env n)).Returns
        (ar.withSeq impl front.length mid.length) front.length (ar.withSeq impl' front.length n) ∧
      mid'.length = n ∧ mid.take n <+: mid' ∧ LawfulSeq.Holds impl' (front ++ (mid' ++ back)) := by
  obtain ⟨impl', mid', hreturns, hlen, hkept, hholds'⟩ :=
    resizeseq_returns { impl, offset := front.length, len := mid.length } (n := n) hholds rfl rfl hbound (by omega) (hgrant impl _ h31)
  exact ⟨impl', mid', Returns.onSeq (ar.withSeq impl front.length mid.length) hreturns, hlen,
    hkept, hholds'⟩

theorem poke_at (ar : Archive σ) {impl : σ} (offset len ptr : ℕ) {bs : List UInt8}
    (front mid back xs : List UInt8)
    (hholds : LawfulSeq.Holds impl bs) (hbs : bs = front ++ (mid ++ back))
    (hptr : ptr = front.length) (hxs : xs.length = mid.length) :
    ∃ impl', (Archive.onSeq (poke ptr xs)).Returns (ar.withSeq impl offset len) ()
        (ar.withSeq impl' offset len) ∧ LawfulSeq.Holds impl' (front ++ (xs ++ back)) := by
  subst hbs
  obtain ⟨impl', hreturns, hholds'⟩ :=
    poke_returns { impl, offset, len } ptr xs hholds hptr hxs
  exact ⟨impl', Returns.onSeq (ar.withSeq impl offset len) hreturns, hholds'⟩

/-! ## Reading -/

/-- Opening the header gives the leader's size as pointer and the whole sequence as memory. -/
theorem openheader_returns {ar : Archive σ} {ref : Reference} (h : Represents ar ref) :
    ∃ leader slack mem : List UInt8, leader.length = leadersize ∧
      mem = leader ++ (encodeFields ref.fields.entries ++ (ref.body ++ slack)) ∧
      openheader.Returns ar (leader.length, mem)
        (ar.withSeq ar.seq.impl leadersize ar.info.hsize) ∧
      (Archive.onSeq memory).Returns (ar.withSeq ar.seq.impl leadersize ar.info.hsize) mem
        (ar.withSeq ar.seq.impl leadersize ar.info.hsize) := by
  obtain ⟨leader, hleader, hholds⟩ := h.encodes
  have hb := h.bounds
  have hlen : (leader ++ (encodeFields ref.fields.entries ++ ref.body)).length =
      leadersize + (ref.hsize + ref.body.length) := by
    simp [hleader, ref.hsize_eq]
  have hregion := setregion_at leadersize ar.info.hsize hholds
    (by rw [hlen, h.hsize]; omega) (by rw [hlen]; omega)
  have haddr := seqaddr_returns
    (ar.withSeq ar.seq.impl leadersize ar.info.hsize).seq hholds
  obtain ⟨slack, hmemory⟩ := memory_returns
    (ar.withSeq ar.seq.impl leadersize ar.info.hsize).seq hholds
  have hread := Returns.onSeq (ar.withSeq ar.seq.impl leadersize ar.info.hsize) hmemory
  rw [List.append_assoc, List.append_assoc] at hread
  refine ⟨leader, slack, _, hleader, rfl, ?_, hread⟩
  rw [hleader]
  refine (Call.returns_read _).bind (hregion.bind ?_)
  exact (Call.Returns.zoom haddr).bind (hread.bind (Call.returns_pure _ _))

/-- A field found by its position: the walk reaches it and reads its sizes. -/
structure FieldAt (mem : List UInt8) (ptr n : ℕ) (field : Field) (start : ℕ) : Prop where
  offset : offsetn mem ptr n = some start
  nsize : nsizeAt mem (ptr + start) = some (field.name.chars.length + 1)
  vsize : vsizeAt mem (ptr + start) = some (field.value.length + 1)
  size : fieldsizeAt mem (ptr + start) = some field.size

/-- Every field of the encoding is found at its offset. -/
theorem fieldAt_encodeFields {left right : List Field} {field : Field}
    (hfits : ∀ f ∈ left ++ field :: right, f.Fits) (h32 : (encodeFields (left ++ field :: right)).length < 2 ^ 32)
    {mem front back : List UInt8} (hmem : mem = front ++ (encodeFields (left ++ field :: right) ++ back)) :
    FieldAt mem front.length left.length field (encodeFields left).length := by
  have hfield : mem = (front ++ encodeFields left) ++
      (encodeField field ++ (encodeFields right ++ back)) := by
    simpa using hmem
  have hf := hfits field (by simp)
  constructor
  · exact offsetn_encodeFields (fun f hf => hfits f (List.mem_append_left _ hf)) h32 hmem
  all_goals rw [← List.length_append]
  · exact nsizeAt_encodeField hf hfield
  · exact vsizeAt_encodeField hf hfield
  · exact fieldsizeAt_encodeField hf hfield

/-- A list is cut at each of its entries. -/
theorem split_at {α : Type*} {l : List α} {n : ℕ} (h : n < l.length) :
    ∃ left x right, l = left ++ x :: right ∧ left.length = n ∧ l[n]? = some x := by
  refine ⟨l.take n, l[n], l.drop (n + 1), ?_, ?_, List.getElem?_eq_getElem h⟩
  · rw [List.getElem_cons_drop, List.take_append_drop]
  · rw [List.length_take]
    omega

/-! ## Deleting -/

/-- Cutting a field out of the sequence and out of the counters. -/
theorem cut_field {env : SeqImpl.Env σ} {ar : Archive σ} {ref : Reference}
    {left right : List Field} {field : Field} (hgrant : Granting env) (h : Represents ar ref)
    (hsplit : ref.fields.entries = left ++ field :: right) :
    ∃ ar1 ar2, (Archive.onSeq (setregion (u32 ((leadersize : ℤ) + (encodeFields left).length))
        field.size)).Returns ar () ar1 ∧
      (Archive.onSeq (resizeseq env 0)).Returns ar1 (leadersize + (encodeFields left).length) ar2 ∧
      Represents { ar2 with info := { ar.info with
          fields := u32 ((ar.info.fields : ℤ) - 1), hsize := u32 ((ar.info.hsize : ℤ) - field.size) } }
        { ref with fields := ref.fields.erase left.length } := by
  obtain ⟨leader, hleader, hholds⟩ := h.encodes
  have hb := h.bounds
  have hh : ref.hsize = (encodeFields left).length + (field.size + (encodeFields right).length) := by
    simp [ref.hsize_eq, hsplit]
  have hcat : leader ++ (encodeFields ref.fields.entries ++ ref.body) =
      (leader ++ encodeFields left) ++ (encodeField field ++ (encodeFields right ++ ref.body)) := by
    simp [hsplit]
  rw [hcat] at hholds
  have hfront : (leader ++ encodeFields left).length = leadersize + (encodeFields left).length := by
    simp [hleader]
  have hptr : u32 ((leadersize : ℤ) + (encodeFields left).length) =
      (leader ++ encodeFields left).length := u32_eq (by rw [hfront]; simp) (by omega)
  have hregion := setregion_at (leader ++ encodeFields left).length (encodeField field).length hholds
    (by simp; omega) (by simp; omega)
  obtain ⟨impl, mid, hresize, hmid, -, hholds'⟩ := resizeseq_at ar (n := 0) hgrant hholds
    (by simp; omega) (by simp; omega)
  obtain rfl := List.length_eq_zero_iff.mp hmid
  have herase : (ref.fields.erase left.length).entries = left ++ right := by
    simp [KeyedList.erase, hsplit, List.eraseIdx_append_of_length_le]
  have hsize : ({ ref with fields := ref.fields.erase left.length } : Reference).hsize =
      ref.hsize - field.size := by
    rw [Reference.hsize_eq, herase, hh]
    simp
    omega
  rw [hptr, ← hfront, ← encodeField_length field]
  refine ⟨_, _, hregion, hresize, ?_⟩
  constructor
  · exact ⟨leader, hleader, by simpa [herase, Archive.withSeq] using hholds'⟩
  · have hcount : ref.fields.entries.length = left.length + (right.length + 1) := by simp [hsplit]
    refine u32_eq ?_ ?_ <;> rw [herase, List.length_append] <;> have := h.fields <;> omega
  · rw [hsize, encodeField_length]
    refine u32_eq ?_ ?_ <;> have := h.hsize <;> omega
  · exact h.bsize
  · rw [herase]
    intro f hf
    refine h.fits f ?_
    rw [hsplit]
    rcases List.mem_append.mp hf with hf | hf
    · exact List.mem_append_left _ hf
    · exact List.mem_append_right _ (List.mem_cons_of_mem _ hf)
  · have hsmall := h.small
    unfold Reference.size at hsmall ⊢
    rw [hsize]
    dsimp only
    omega
  · exact h.offset
  · exact h.posfits
  · exact h.flags

theorem delfieldn_returns {env : SeqImpl.Env σ} {ar : Archive σ} {ref : Reference} {n : ℕ}
    (hgrant : Granting env) (h : Represents ar ref) (hn : n < ref.fields.entries.length) :
    ∃ ar', (delfieldn env n).Returns ar () ar' ∧
      Represents ar' { ref with fields := ref.fields.erase n } := by
  obtain ⟨left, field, right, hsplit, rfl, -⟩ := split_at hn
  obtain ⟨leader, slack, mem, hleader, hmem, hopen, hread⟩ := openheader_returns h
  obtain ⟨ar1, ar2, hregion, hresize, hrep⟩ := cut_field hgrant
    (h.withRegion leadersize ar.info.hsize) hsplit
  have hmem' : mem = leader ++ (encodeFields (left ++ field :: right) ++ (ref.body ++ slack)) := by
    rw [hmem, hsplit]
  have hfield := fieldAt_encodeFields (hsplit ▸ h.fits) (hsplit ▸ h.encoded_lt) hmem'
  refine ⟨_, (Call.returns_read _).bind ?_, hrep⟩
  rw [if_neg (by rw [h.fields]; omega)]
  refine hopen.bind ((Call.returns_access hfield.offset _).bind ?_)
  refine (Call.returns_access hfield.size _).bind ?_
  exact hregion.bind (hresize.bind (Call.returns_modify _ _))

/-- A name that is present is found and its field is cut out. -/
theorem delfieldp_returns {env : SeqImpl.Env σ} {ar : Archive σ} {ref : Reference} {name : CStr}
    (hgrant : Granting env) (h : Represents ar ref)
    (hn : ref.fields.ordinal name.fold < ref.fields.entries.length) :
    ∃ ar', (delfieldp env name).Returns ar (ref.fields.ordinal name.fold : ℤ) ar' ∧
      Represents ar' { ref with fields := ref.fields.erase (ref.fields.ordinal name.fold) } := by
  have hb := h.bounds
  obtain ⟨left, field, right, hsplit, hleft, hkey, hother⟩ := KeyedList.ordinal_split hn
  rw [← hleft] at hn ⊢
  obtain ⟨leader, slack, mem, hleader, hmem, hopen, hread⟩ := openheader_returns h
  obtain ⟨ar1, ar2, hregion, hresize, hrep⟩ := cut_field hgrant
    (h.withRegion leadersize ar.info.hsize) hsplit
  have hmem' : mem = leader ++ (encodeFields (left ++ field :: right) ++ (ref.body ++ slack)) := by
    rw [hmem, hsplit]
  have hfield := fieldAt_encodeFields (hsplit ▸ h.fits) (hsplit ▸ h.encoded_lt) hmem'
  have hfound := offsetp_found (hsplit ▸ h.fits) hkey hother (hsplit ▸ h.encoded_lt) hmem'
  rw [← hsplit, ← h.fields] at hfound
  refine ⟨_, (Call.returns_read _).bind ?_, hrep⟩
  refine hopen.bind ((Call.returns_access hfound _).bind ?_)
  dsimp only
  rw [if_neg (by rw [h.fields]; omega)]
  refine (Call.returns_access hfield.size _).bind ?_
  refine hregion.bind (hresize.bind ((Call.returns_modify _ _).bind ?_))
  rw [i32_of_range (by omega) (by omega)]
  exact Call.returns_pure _ _

/-- Clearing cuts the whole header out at once. -/
theorem clearfields_returns {env : SeqImpl.Env σ} {ar : Archive σ} {ref : Reference}
    (hgrant : Granting env) (h : Represents ar ref) :
    ∃ ar', (clearfields env).Returns ar (ref.fields.entries.length : ℤ) ar' ∧
      Represents ar' { ref with fields := .empty } := by
  obtain ⟨leader, hleader, hholds⟩ := h.encodes
  have hb := h.bounds
  have hh := ref.hsize_eq
  have hregion := setregion_at leader.length (encodeFields ref.fields.entries).length hholds
    (by simp) (by simp; omega)
  obtain ⟨impl, mid, hresize, hmid, -, hholds'⟩ := resizeseq_at ar (n := 0) hgrant hholds
    (by simp; omega) (by simp; omega)
  obtain rfl := List.length_eq_zero_iff.mp hmid
  rw [hleader, ← hh, ← h.hsize] at hregion
  rw [← hh, ← h.hsize, hleader] at hresize
  have hint : i32 ar.info.fields = ref.fields.entries.length := by
    rw [h.fields, i32_of_range (by omega) (by omega)]
  rw [← hint]
  refine ⟨_, (Call.returns_read _).bind (hregion.bind (hresize.bind
    ((Call.returns_modify _ _).bind (Call.returns_pure _ _)))), ?_⟩
  refine ⟨⟨leader, hleader, hholds'⟩, rfl, rfl, h.bsize, by simp [KeyedList.empty], ?_, h.offset,
    h.posfits, h.flags⟩
  simp only [Reference.size, Reference.hsize, KeyedList.empty, List.map_nil, List.sum_nil]
  omega

/-! ## Looking up -/

/-- A field of a represented archive, as the header functions find it. -/
theorem openfield {ar : Archive σ} {ref : Reference} {left right : List Field} {field : Field}
    (h : Represents ar ref) (hsplit : ref.fields.entries = left ++ field :: right) :
    ∃ leader mem : List UInt8, leader.length = leadersize ∧
      openheader.Returns ar (leader.length, mem)
        (ar.withSeq ar.seq.impl leadersize ar.info.hsize) ∧
      (Archive.onSeq memory).Returns (ar.withSeq ar.seq.impl leadersize ar.info.hsize) mem
        (ar.withSeq ar.seq.impl leadersize ar.info.hsize) ∧
      FieldAt mem leader.length left.length field (encodeFields left).length ∧
      (∃ back, mem = (leader ++ encodeFields left) ++ (encodeField field ++ back)) ∧
      ∀ name : CStr, field.key = name.fold → (∀ f ∈ left, f.key ≠ name.fold) →
        offsetp mem leader.length name ar.info.fields =
          some ((encodeFields left).length, left.length) := by
  obtain ⟨leader, slack, mem, hleader, hmem, hopen, hread⟩ := openheader_returns h
  have hmem' : mem = leader ++ (encodeFields (left ++ field :: right) ++ (ref.body ++ slack)) := by
    rw [hmem, hsplit]
  refine ⟨leader, mem, hleader, hopen, hread, fieldAt_encodeFields (hsplit ▸ h.fits) (hsplit ▸ h.encoded_lt) hmem',
    ⟨encodeFields right ++ (ref.body ++ slack), by simpa using hmem'⟩, ?_⟩
  intro name hkey hother
  rw [h.fields, hsplit]
  exact offsetp_found (hsplit ▸ h.fits) hkey hother (hsplit ▸ h.encoded_lt) hmem'

/-- An absent name, as the header functions miss it. -/
theorem openheader_absent {ar : Archive σ} {ref : Reference} {name : CStr}
    (h : Represents ar ref) (hname : ref.fields.ordinal name.fold = ref.fields.entries.length) :
    ∃ leader mem : List UInt8, leader.length = leadersize ∧
      openheader.Returns ar (leader.length, mem)
        (ar.withSeq ar.seq.impl leadersize ar.info.hsize) ∧
      offsetp mem leader.length name ar.info.fields =
        some ((encodeFields ref.fields.entries).length, ar.info.fields) := by
  obtain ⟨leader, slack, mem, hleader, hmem, hopen, hread⟩ := openheader_returns h
  refine ⟨leader, mem, hleader, hopen, ?_⟩
  rw [h.fields]
  exact offsetp_absent h.fits (KeyedList.ne_of_ordinal_eq hname) h.encoded_lt hmem

/-- Reading a C string up to its terminator gives its characters. -/
theorem cstr_bytes (s : CStr) (rest : List UInt8) : cstr (s.bytes ++ rest) = some s.chars := by
  obtain ⟨chars, hnonul⟩ := s
  change cstr ((chars ++ [0]) ++ rest) = some chars
  induction chars with
  | nil => simp [cstr]
  | cons c chars ih =>
    have hc : c ≠ 0 := fun h => hnonul (by simp [h])
    rw [List.cons_append, List.cons_append, cstr, if_neg hc,
      ih (fun h => hnonul (List.mem_cons_of_mem _ h))]
    rfl

/-- The value pointer of a field leads to its value. -/
theorem deref_value {ar : Archive σ} {mem leader back : List UInt8} {left : List Field}
    {field : Field} (hread : (Archive.onSeq memory).Returns ar mem ar)
    (hmem : mem = (leader ++ encodeFields left) ++ (encodeField field ++ back)) :
    (deref (some (leader.length + (encodeFields left).length +
      valueoff (field.name.chars.length + 1))) field.value.length).Returns ar (some field.value) ar := by
  have hload := load_value hmem
  rw [List.length_append] at hload
  exact hread.bind ((Call.returns_access hload _).bind (Call.returns_pure _ _))

/-- The name pointer of a field leads to its name. -/
theorem derefstr_name {ar : Archive σ} {mem leader back : List UInt8} {left : List Field}
    {field : Field} (hread : (Archive.onSeq memory).Returns ar mem ar)
    (hmem : mem = (leader ++ encodeFields left) ++ (encodeField field ++ back)) :
    (derefstr (leader.length + (encodeFields left).length + nameoff)).Returns ar
      field.name.chars ar := by
  have hname : cstr (mem.drop (leader.length + (encodeFields left).length + nameoff)) =
      some field.name.chars := by
    rw [← List.length_append, drop_name hmem, cstr_bytes]
  exact hread.bind (Call.returns_access hname _)

section Lookup

variable {ar : Archive σ} {ref : Reference} {left right : List Field} {field : Field}

theorem getfieldn_returns (h : Represents ar ref)
    (hsplit : ref.fields.entries = left ++ field :: right) :
    ∃ ptr ar', (getfieldn left.length).Returns ar (some ptr, (field.value.length : ℤ)) ar' ∧
      (deref (some ptr) field.value.length).Returns ar' (some field.value) ar' ∧
      Represents ar' ref := by
  obtain ⟨leader, mem, hleader, hopen, hread, hat, ⟨back, hmem⟩, -⟩ := openfield h hsplit
  refine ⟨_, _, ?_, deref_value hread hmem, h.withRegion leadersize ar.info.hsize⟩
  refine (Call.returns_read _).bind ?_
  rw [if_neg (by rw [h.fields, hsplit]; simp)]
  refine hopen.bind ((Call.returns_access hat.offset _).bind ?_)
  refine (Call.returns_access hat.nsize _).bind ((Call.returns_access hat.vsize _).bind ?_)
  have hsize : (field.value.length : ℤ) = ((field.value.length + 1 : ℕ) : ℤ) - 1 := by omega
  rw [hsize]
  exact Call.returns_pure _ _

theorem getfieldp_returns {name : CStr} (h : Represents ar ref)
    (hsplit : ref.fields.entries = left ++ field :: right) (hkey : field.key = name.fold)
    (hother : ∀ f ∈ left, f.key ≠ name.fold) :
    ∃ ptr ar', (getfieldp name).Returns ar (some ptr, (field.value.length : ℤ)) ar' ∧
      (deref (some ptr) field.value.length).Returns ar' (some field.value) ar' ∧
      Represents ar' ref := by
  obtain ⟨leader, mem, hleader, hopen, hread, hat, ⟨back, hmem⟩, hfound⟩ := openfield h hsplit
  refine ⟨_, _, ?_, deref_value hread hmem, h.withRegion leadersize ar.info.hsize⟩
  refine (Call.returns_read _).bind (hopen.bind ?_)
  refine (Call.returns_access (hfound name hkey hother) _).bind ?_
  dsimp only
  rw [if_neg (by rw [h.fields, hsplit]; simp)]
  refine (Call.returns_access hat.nsize _).bind ((Call.returns_access hat.vsize _).bind ?_)
  have hsize : (field.value.length : ℤ) = ((field.value.length + 1 : ℕ) : ℤ) - 1 := by omega
  rw [hsize]
  exact Call.returns_pure _ _

theorem getfield_returns (h : Represents ar ref)
    (hsplit : ref.fields.entries = left ++ field :: right) :
    ∃ nameptr valueptr ar', (getfield left.length).Returns ar
        { name := some nameptr, value := some valueptr, size := field.value.length } ar' ∧
      (deref (some valueptr) field.value.length).Returns ar' (some field.value) ar' ∧
      (derefstr nameptr).Returns ar' field.name.chars ar' ∧ Represents ar' ref := by
  obtain ⟨leader, mem, hleader, hopen, hread, hat, ⟨back, hmem⟩, -⟩ := openfield h hsplit
  refine ⟨_, _, _, ?_, deref_value hread hmem, derefstr_name hread hmem,
    h.withRegion leadersize ar.info.hsize⟩
  refine (Call.returns_read _).bind ?_
  rw [if_neg (by rw [h.fields, hsplit]; simp)]
  refine hopen.bind ((Call.returns_access hat.offset _).bind ?_)
  refine (Call.returns_access hat.nsize _).bind ((Call.returns_access hat.vsize _).bind ?_)
  have hfits := (h.fits field (by simp [hsplit])).2
  unfold maxvsize at hfits
  have hsize : u32 (((field.value.length + 1 : ℕ) : ℤ) - 1) = field.value.length :=
    u32_eq (by omega) (by omega)
  rw [hsize]
  exact Call.returns_pure _ _

theorem fieldntop_returns (h : Represents ar ref)
    (hsplit : ref.fields.entries = left ++ field :: right) :
    ∃ ptr ar', (fieldntop left.length).Returns ar ptr ar' ∧
      (derefstr ptr).Returns ar' field.name.chars ar' ∧ Represents ar' ref := by
  obtain ⟨leader, mem, hleader, hopen, hread, hat, ⟨back, hmem⟩, -⟩ := openfield h hsplit
  refine ⟨_, _, ?_, derefstr_name hread hmem, h.withRegion leadersize ar.info.hsize⟩
  refine (Call.returns_read _).bind ?_
  rw [if_neg (by rw [h.fields, hsplit]; simp)]
  exact hopen.bind ((Call.returns_access hat.offset _).bind (Call.returns_pure _ _))

theorem fieldpton_returns {name : CStr} (h : Represents ar ref)
    (hsplit : ref.fields.entries = left ++ field :: right) (hkey : field.key = name.fold)
    (hother : ∀ f ∈ left, f.key ≠ name.fold) :
    ∃ ar', (fieldpton name).Returns ar (left.length : ℤ) ar' ∧ Represents ar' ref := by
  have hb := h.bounds
  have hcount : ref.fields.entries.length = left.length + (right.length + 1) := by simp [hsplit]
  obtain ⟨leader, mem, hleader, hopen, hread, hat, -, hfound⟩ := openfield h hsplit
  refine ⟨_, ?_, h.withRegion leadersize ar.info.hsize⟩
  refine (Call.returns_read _).bind (hopen.bind ?_)
  refine (Call.returns_access (hfound name hkey hother) _).bind ?_
  dsimp only
  rw [if_neg (by rw [h.fields]; omega), i32_of_range (by omega) (by omega)]
  exact Call.returns_pure _ _

end Lookup

end Aug.Mar
