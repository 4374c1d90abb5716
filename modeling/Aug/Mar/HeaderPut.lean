import Aug.Mar.HeaderSpec

/-!
# Putting a field

A put opens a region of the new size where the old field was, or behind the last field, and
stores the parts of the field into it. Both puts are followed here up to the representation.
-/

namespace Aug.Mar

open Aug.Lib

variable {σ : Type} [LawfulSeq σ]

/-- A changed header represents a changed list of fields; nothing else of the archive moves. -/
theorem Represents.replaceFields {ar : Archive σ} {ref : Reference} (h : Represents ar ref)
    (fields : KeyedList Field.key) (offset len count hsize : ℕ) {impl : σ} {leader : List UInt8}
    (hleader : leader.length = leadersize)
    (hholds : LawfulSeq.Holds impl (leader ++ (encodeFields fields.entries ++ ref.body)))
    (hfits : ∀ f ∈ fields.entries, f.Fits) (hsmall : { ref with fields : Reference }.size < 2 ^ 31)
    (hcount : count = fields.entries.length)
    (hhsize : hsize = (encodeFields fields.entries).length) :
    Represents { ar.withSeq impl offset len with info := { ar.info with fields := count, hsize } }
      { ref with fields } :=
  ⟨⟨leader, hleader, hholds⟩, hcount, hhsize.trans (encodeFields_length _), h.bsize, hfits, hsmall,
    h.offset, h.posfits, h.flags⟩

/-- A region of the size of a field falls into the parts of a field. -/
theorem cut_parts {mid : List UInt8} {nsize size : ℕ} (h : mid.length = fieldsize nsize (size + 1)) :
    ∃ a b c d e : List UInt8, mid = a ++ (b ++ (c ++ (d ++ e))) ∧ a.length = 2 ∧ b.length = 2 ∧
      c.length = nsize ∧ d.length = size ∧ e.length = 1 := by
  unfold fieldsize valueoff nameoff at h
  refine ⟨mid.take 2, (mid.drop 2).take 2, (mid.drop 4).take nsize,
    (mid.drop (4 + nsize)).take size, mid.drop (4 + nsize + size), ?_, ?_, ?_, ?_, ?_, ?_⟩
  · have hd := List.take_append_drop size (mid.drop (4 + nsize))
    have hc := List.take_append_drop nsize (mid.drop 4)
    have hb := List.take_append_drop 2 (mid.drop 2)
    rw [List.drop_drop] at hd hc hb
    rw [hd, hc, hb, List.take_append_drop]
  all_goals
    simp only [List.length_take, List.length_drop]
    omega

/-- Storing the value size, the value and the terminator into the parts of a field. -/
theorem poke_value (ar : Archive σ) {impl : σ} (offset len : ℕ)
    {front back a b c d e : List UInt8} (value : List UInt8) (vsize : ℕ)
    (hholds : LawfulSeq.Holds impl (front ++ ((a ++ (b ++ (c ++ (d ++ e)))) ++ back)))
    (ha : a.length = 2) (hb : b.length = 2) (hd : value.length = d.length) (he : e.length = 1) :
    ∃ impl', LawfulSeq.Holds impl'
        (front ++ ((a ++ (encodeBE 2 vsize ++ (c ++ (value ++ [0])))) ++ back)) ∧
      ∀ {α : Type} {k : Call (Archive σ) Failure α} {r : α} {ar' : Archive σ},
        k.Returns (ar.withSeq impl' offset len) r ar' →
        Call.Returns (do
          Archive.onSeq (poke (front.length + vsizeoff) (encodeBE 2 vsize))
          Archive.onSeq (poke (front.length + valueoff c.length) value)
          Archive.onSeq (poke (front.length + valueoff c.length + value.length) [0])
          k) (ar.withSeq impl offset len) r ar' := by
  obtain ⟨impl1, h1, hholds⟩ := poke_at ar offset len (front.length + vsizeoff)
    (front ++ a) b (c ++ (d ++ (e ++ back))) (encodeBE 2 vsize) hholds (by simp)
    (by simp [ha, vsizeoff]) (by simp [hb])
  obtain ⟨impl2, h2, hholds⟩ := poke_at ar offset len (front.length + valueoff c.length)
    (front ++ (a ++ (encodeBE 2 vsize ++ c))) d (e ++ back) value hholds (by simp)
    (by simp [ha, valueoff, nameoff]; omega) hd
  obtain ⟨impl3, h3, hholds⟩ := poke_at ar offset len
    (front.length + valueoff c.length + value.length)
    (front ++ (a ++ (encodeBE 2 vsize ++ (c ++ value)))) e back [0] hholds (by simp)
    (by simp [ha, valueoff, nameoff]; omega) (by simp [he])
  exact ⟨impl3, by simpa using hholds, fun hk => h1.bind (h2.bind (h3.bind hk))⟩

/-- Modifying a list at one of its entries. -/
theorem modify_split {α : Type*} (left right : List α) (x : α) (f : α → α) :
    (left ++ x :: right).modify left.length f = left ++ f x :: right := by
  rw [List.modify_eq_take_cons_drop (by simp)]
  simp

/-- Selecting the region of a field, or the empty region where one is to be added, and resizing
it to the size of another field. -/
theorem openregion {env : SeqImpl.Env σ} (ar : Archive σ) {front mid back : List UInt8}
    (offset n : ℕ) (hgrant : Granting env)
    (hholds : LawfulSeq.Holds ar.seq.impl (front ++ (mid ++ back)))
    (hbound : (front ++ (mid ++ back)).length < 2 ^ 31)
    (h31 : front.length + n + back.length < 2 ^ 31)
    (hoffset : leadersize + offset = front.length) :
    ∃ impl' mid', mid'.length = n ∧ mid.take n <+: mid' ∧
      LawfulSeq.Holds impl' (front ++ (mid' ++ back)) ∧
      ∀ {α : Type} {k : ℕ → Call (Archive σ) Failure α} {r : α} {ar' : Archive σ},
        (k front.length).Returns (ar.withSeq impl' front.length n) r ar' →
        Call.Returns (do
          Archive.onSeq (setregion (u32 ((leadersize : ℤ) + offset)) mid.length)
          let ptr ← Archive.onSeq (resizeseq env n)
          k ptr) ar r ar' := by
  have hlen : (front ++ (mid ++ back)).length = front.length + (mid.length + back.length) := by simp
  have hregion := setregion_at front.length mid.length hholds (by omega)
    (by omega)
  obtain ⟨impl', mid', hresize, hmid, hkept, hholds'⟩ := resizeseq_at ar (n := n) hgrant
    hholds (by omega) h31
  refine ⟨impl', mid', hmid, hkept, hholds', fun hk => ?_⟩
  rw [u32_eq (n := front.length) (by omega) (by omega)]
  exact hregion.bind (hresize.bind hk)

/-- A resize to the size of the changed field keeps the name size and the name. -/
theorem kept_name {field : Field} {n : ℕ} {a b c t : List UInt8}
    (hn : valueoff (field.name.chars.length + 1) ≤ n)
    (hkept : (encodeField field).take n <+: a ++ (b ++ (c ++ t))) (ha : a.length = 2)
    (hb : b.length = 2) (hc : c.length = field.name.chars.length + 1) :
    a = encodeBE 2 (field.name.chars.length + 1) ∧ c = field.name.bytes := by
  let front := encodeBE 2 (field.name.chars.length + 1) ++
    (encodeBE 2 (field.value.length + 1) ++ field.name.bytes)
  have hfront : front <+: (encodeField field).take n := by
    rw [List.prefix_take_iff]
    refine ⟨⟨field.value ++ [0], by simp [front, encodeField]⟩, ?_⟩
    simp only [front, List.length_append, encodeBE_length, CStr.bytes_length]
    unfold valueoff nameoff at hn
    omega
  obtain ⟨rest, hrest⟩ := hfront.trans hkept
  simp only [front, List.append_assoc] at hrest
  obtain ⟨h1, hrest⟩ := List.append_inj hrest (by simp [ha])
  obtain ⟨-, hrest⟩ := List.append_inj hrest (by simp [hb])
  obtain ⟨h3, -⟩ := List.append_inj hrest (by simp [hc])
  exact ⟨h1.symm, h3.symm⟩

/-- Replacing the value of a field of the sequence: the resize keeps the name in front of it. -/
theorem putfieldn_returns {env : SeqImpl.Env σ} {ar : Archive σ} {ref : Reference} {n : ℕ}
    {value : List UInt8} (hgrant : Granting env) (h : Represents ar ref)
    (hn : n < ref.fields.entries.length) (hvalue : value.length + 1 ≤ maxvsize)
    (hsmall : (ref.setValue n value).size < 2 ^ 31) :
    ∃ ar', (putfieldn env n value).Returns ar () ar' ∧ Represents ar' (ref.setValue n value) := by
  have hvmax := hvalue
  unfold maxvsize at hvmax
  obtain ⟨left, field, right, hsplit, rfl, -⟩ := split_at hn
  obtain ⟨leader, hleader, hholds⟩ := h.encodes
  have hb := h.bounds
  have hfit := h.fits field (by simp [hsplit])
  let field' : Field := { field with value }
  have hentries : (ref.setValue left.length value).fields.entries = left ++ field' :: right := by
    change ref.fields.entries.modify left.length _ = _
    rw [hsplit, modify_split]
  have hold : ref.hsize = (encodeFields left).length + (field.size + (encodeFields right).length) := by
    simp [ref.hsize_eq, hsplit]
  have hnew : (ref.setValue left.length value).hsize =
      (encodeFields left).length + (field'.size + (encodeFields right).length) := by
    rw [Reference.hsize_eq, hentries]
    simp
  have hsize : leadersize + (ref.setValue left.length value).hsize + ref.body.length < 2 ^ 31 := hsmall
  have hcat : leader ++ (encodeFields ref.fields.entries ++ ref.body) =
      (leader ++ encodeFields left) ++ (encodeField field ++ (encodeFields right ++ ref.body)) := by
    simp [hsplit]
  rw [hcat] at hholds
  obtain ⟨leader1, mem, hleader1, hopen, -, hat, -, -⟩ := openfield h hsplit
  obtain ⟨impl1, mid, hmid, hkept, hholds1, hregion⟩ := openregion
    (ar.withSeq ar.seq.impl leadersize ar.info.hsize) (encodeFields left).length field'.size hgrant hholds (by simp; omega) (by simp; omega)
    (by simp [hleader])
  obtain ⟨a, b, c, d, e, rfl, ha, hb2, hc, hd, he⟩ := cut_parts hmid
  obtain ⟨rfl, rfl⟩ := kept_name (by simp [field', Field.size, fieldsize]) hkept ha hb2 hc
  obtain ⟨impl2, hholds2, hpokes⟩ := poke_value ar (leader ++ encodeFields left).length
    field'.size value (value.length + 1) hholds1 ha hb2 hd.symm he
  have hvsize : u32 ((value.length : ℤ) + 1) = value.length + 1 := u32_eq (by simp) (by omega)
  have hold' : ar.info.hsize = (encodeFields left).length +
      (field.size + (encodeFields right).length) := h.hsize.trans hold
  have hrep := h.replaceFields (ref.setValue left.length value).fields
    (leader ++ encodeFields left).length field'.size ar.info.fields
    (u32 ((ar.info.hsize : ℤ) +
      (((value.length + 1 : ℕ) : ℤ) - ((field.value.length + 1 : ℕ) : ℤ)))) hleader
    (by simpa [hentries, encodeField, field'] using hholds2) ?_ hsmall
    (by rw [h.fields, hentries, hsplit]; simp) ?_
  · refine ⟨_, (Call.returns_read _).bind ?_, hrep⟩
    dsimp only
    rw [if_neg (by rw [h.fields]; omega), hvsize, if_neg (by omega)]
    refine hopen.bind ((Call.returns_access hat.offset _).bind ?_)
    refine (Call.returns_access hat.nsize _).bind ((Call.returns_access hat.vsize _).bind ?_)
    have hmidlen : fieldsize (field.name.chars.length + 1) (field.value.length + 1) =
      (encodeField field).length := by rw [encodeField_length, Field.size]
    rw [hmidlen]
    refine hregion ?_
    rw [CStr.bytes_length] at hpokes
    exact hpokes (Call.returns_modify _ _)
  · rw [hentries]
    intro f hf
    rcases List.mem_append.mp hf with hf | hf
    · exact h.fits f (by simp [hsplit, hf])
    · rcases List.mem_cons.mp hf with rfl | hf
      · exact ⟨hfit.1, hvalue⟩
      · exact h.fits f (by simp [hsplit, hf])
  · rw [← Reference.hsize_eq ({ ref with fields := (ref.setValue left.length value).fields })]
    change _ = (ref.setValue left.length value).hsize
    have hdiff : field'.size + field.value.length = field.size + value.length := by
      simp only [field', Field.size, fieldsize]
      omega
    refine u32_eq ?_ ?_ <;> rw [hnew] <;> omega

/-- Storing the name size and the name into the parts of a field. -/
theorem poke_name (ar : Archive σ) {impl : σ} (offset len : ℕ)
    {front back a b c t : List UInt8} (name : List UInt8) (nsize : ℕ)
    (hholds : LawfulSeq.Holds impl (front ++ ((a ++ (b ++ (c ++ t))) ++ back)))
    (ha : a.length = 2) (hb : b.length = 2) (hc : name.length = c.length) :
    ∃ impl', LawfulSeq.Holds impl' (front ++ ((encodeBE 2 nsize ++ (b ++ (name ++ t))) ++ back)) ∧
      ∀ {α : Type} {k : Call (Archive σ) Failure α} {r : α} {ar' : Archive σ},
        k.Returns (ar.withSeq impl' offset len) r ar' →
        Call.Returns (do
          Archive.onSeq (poke (front.length + nsizeoff) (encodeBE 2 nsize))
          Archive.onSeq (poke (front.length + nameoff) name)
          k) (ar.withSeq impl offset len) r ar' := by
  obtain ⟨impl1, h1, hholds⟩ := poke_at ar offset len (front.length + nsizeoff)
    front a (b ++ (c ++ (t ++ back))) (encodeBE 2 nsize) hholds (by simp)
    (by simp [nsizeoff]) (by simp [ha])
  obtain ⟨impl2, h2, hholds⟩ := poke_at ar offset len (front.length + nameoff)
    (front ++ (encodeBE 2 nsize ++ b)) c (t ++ back) name hholds (by simp) (by simp [hb, nameoff]) hc
  exact ⟨impl2, by simpa using hholds, fun hk => h1.bind (h2.bind hk)⟩

/-- Where a put by name goes: at the field that has the name, or behind the last one. -/
theorem put_site (fields : KeyedList Field.key) (field : Field) :
    ∃ left old right, fields.entries = left ++ (old ++ right) ∧
      fields.ordinal field.key = left.length ∧ (fields.put field).entries = left ++ field :: right ∧
      (∀ f ∈ left, f.key ≠ field.key) ∧
      (old = [] ∧ right = [] ∨ ∃ f, old = [f] ∧ f.key = field.key) := by
  rcases Nat.lt_or_eq_of_le (fields.ordinal_le field.key) with hn | hn
  · obtain ⟨left, f, right, hsplit, hleft, hkey, hother⟩ := KeyedList.ordinal_split hn
    refine ⟨left, [f], right, by simpa using hsplit, hleft.symm, ?_, hother, .inr ⟨f, rfl, hkey⟩⟩
    rw [KeyedList.put_entries_of_lt hn, ← hleft, hsplit]
    simp
  · refine ⟨fields.entries, [], [], by simp, hn, by rw [KeyedList.put_entries_of_eq hn],
      KeyedList.ne_of_ordinal_eq hn, .inl ⟨rfl, rfl⟩⟩

/-- Looking for the place of a put: its offset, its ordinal and the size it has there. -/
theorem openput {ar : Archive σ} {ref : Reference} {left old right : List Field} {name : CStr}
    (h : Represents ar ref) (hsplit : ref.fields.entries = left ++ (old ++ right))
    (hother : ∀ f ∈ left, f.key ≠ name.fold)
    (hold : old = [] ∧ right = [] ∨ ∃ f, old = [f] ∧ f.key = name.fold) :
    ∃ ptr mem, openheader.Returns ar (ptr, mem) (ar.withSeq ar.seq.impl leadersize ar.info.hsize) ∧
      offsetp mem ptr name ar.info.fields = some ((encodeFields left).length, left.length) ∧
      origsize mem (ptr + (encodeFields left).length) left.length ar.info.fields =
        some (encodeFields old).length := by
  rcases hold with ⟨rfl, rfl⟩ | ⟨field, rfl, hkey⟩
  · obtain rfl : left = ref.fields.entries := by simpa using hsplit.symm
    obtain ⟨leader, slack, mem, hleader, hmem, hopen, hread⟩ := openheader_returns h
    refine ⟨_, _, hopen, ?_, ?_⟩
    · rw [h.fields]
      exact offsetp_absent h.fits hother h.encoded_lt hmem
    · rw [origsize, if_pos h.fields.symm, encodeFields_nil, List.length_nil]
  · obtain ⟨leader, mem, hleader, hopen, hread, hat, -, hfound⟩ := openfield h hsplit
    refine ⟨_, _, hopen, hfound name hkey hother, ?_⟩
    rw [origsize, if_neg (by rw [h.fields, hsplit]; simp), hat.size]
    simp

/-- Putting a field by name: its parts are all stored anew. -/
theorem putfieldp_returns {env : SeqImpl.Env σ} {ar : Archive σ} {ref : Reference} {name : CStr}
    {value : List UInt8} (hgrant : Granting env) (h : Represents ar ref)
    (hname : name.chars.length + 1 ≤ maxnsize) (hvalue : value.length + 1 ≤ maxvsize)
    (hsmall : ({ ref with fields := ref.fields.put { name, value } } : Reference).size < 2 ^ 31) :
    ∃ ar', (putfieldp env (some name) value).Returns ar (ref.fields.ordinal name.fold : ℤ) ar' ∧
      Represents ar' { ref with fields := ref.fields.put { name, value } } := by
  have hvmax := hvalue
  have hnmax := hname
  unfold maxvsize at hvmax
  unfold maxnsize at hnmax
  let field : Field := { name, value }
  obtain ⟨left, old, right, hsplit, hordinal, hentries, hother, hold⟩ :=
    put_site ref.fields field
  obtain ⟨leader, hleader, hholds⟩ := h.encodes
  have hb := h.bounds
  have hcat : leader ++ (encodeFields ref.fields.entries ++ ref.body) =
      (leader ++ encodeFields left) ++ (encodeFields old ++ (encodeFields right ++ ref.body)) := by
    simp [hsplit]
  rw [hcat] at hholds
  have hhsize : ref.hsize = (encodeFields left).length +
      ((encodeFields old).length + (encodeFields right).length) := by
    simp [ref.hsize_eq, hsplit]
  have hnew : (encodeFields (ref.fields.put field).entries).length =
      (encodeFields left).length + (field.size + (encodeFields right).length) := by
    rw [hentries]
    simp
  have hsize : leadersize + (encodeFields (ref.fields.put field).entries).length +
      ref.body.length < 2 ^ 31 := by
    rw [encodeFields_length]
    exact hsmall
  obtain ⟨ptr, mem, hopen, hfound, horig⟩ := openput h hsplit hother hold
  obtain ⟨impl1, mid, hmid, -, hholds1, hregion⟩ := openregion
    (ar.withSeq ar.seq.impl leadersize ar.info.hsize) (encodeFields left).length field.size hgrant hholds (by simp; omega) (by simp; omega)
    (by simp [hleader])
  obtain ⟨a, b, c, d, e, rfl, ha, hb2, hc, hd, he⟩ := cut_parts hmid
  obtain ⟨impl2, hholds2, hnamepokes⟩ := poke_name ar
    (leader ++ encodeFields left).length field.size name.bytes
    (name.chars.length + 1) hholds1 ha hb2 (by simp [hc, field])
  obtain ⟨impl3, hholds3, hpokes⟩ := poke_value ar
    (leader ++ encodeFields left).length field.size value
    (value.length + 1) hholds2 (by simp) hb2 hd.symm he
  have hnsize : u32 ((name.chars.length : ℤ) + 1) = name.chars.length + 1 :=
    u32_eq (by simp) (by omega)
  have hvsize : u32 ((value.length : ℤ) + 1) = value.length + 1 := u32_eq (by simp) (by omega)
  have hrep := h.replaceFields (ref.fields.put field) (leader ++ encodeFields left).length field.size
    (if left.length = ar.info.fields then u32 ((ar.info.fields : ℤ) + 1) else ar.info.fields)
    (u32 ((ar.info.hsize : ℤ) + ((fieldsize (name.chars.length + 1) (value.length + 1) : ℕ) -
      ((encodeFields old).length : ℤ)))) hleader
    (by simpa [hentries, encodeField, field] using hholds3) ?_ hsmall ?_ ?_
  · have hint : i32 left.length = ref.fields.ordinal name.fold := by
      rw [i32_of_range (by omega) (by have := congrArg List.length hsplit; simp at this; omega)]
      exact congrArg _ hordinal.symm
    rw [← hint]
    refine ⟨_, (Call.returns_read _).bind ?_, hrep⟩
    dsimp only
    rw [hnsize, hvsize, if_neg (by omega), if_neg (by omega)]
    refine hopen.bind ((Call.returns_access hfound _).bind ((Call.returns_access horig _).bind (hregion ?_)))
    rw [List.take_of_length_le (by simp)]
    refine hnamepokes ?_
    rw [CStr.bytes_length] at hpokes
    exact hpokes ((Call.returns_modify _ _).bind (Call.returns_pure _ _))
  · rw [hentries]
    intro f hf
    rcases List.mem_append.mp hf with hf | hf
    · exact h.fits f (by simp [hsplit, hf])
    · rcases List.mem_cons.mp hf with rfl | hf
      · exact ⟨hname, hvalue⟩
      · exact h.fits f (by simp [hsplit, hf])
  · have hfields := h.fields
    rw [hsplit] at hfields
    rw [hentries]
    rcases hold with ⟨rfl, rfl⟩ | ⟨f, rfl, -⟩
    · have hcount : ar.info.fields = left.length := by simpa using hfields
      rw [if_pos hcount.symm, hcount]
      exact u32_eq (by simp) (by have := h.fields; simp; omega)
    · rw [if_neg (by rw [hfields]; simp), hfields]
      simp
  · have hfs : field.size = fieldsize (name.chars.length + 1) (value.length + 1) := rfl
    have := h.hsize
    refine u32_eq ?_ ?_ <;> omega

end Aug.Mar
