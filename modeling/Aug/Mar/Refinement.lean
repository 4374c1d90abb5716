import Aug.Mar.BodySpec
import Aug.Mar.HeaderPut

/-!
# Archives refine the reference

Each call on an archive that represents a reference has the reference result and leaves an
archive that represents the reference's next state. From a new archive this carries over any
sequence of calls.
-/

namespace Aug.Mar

open Aug.Lib

variable {σ : Type} [LawfulSeq σ] {env : SeqImpl.Env σ} {ar : Archive σ} {ref : Reference}

/-- A call has the reference result, and the archives still agree after it. -/
def Simulates (env : SeqImpl.Env σ) (ar : Archive σ) (ref : Reference) (op : Op) : Prop :=
  ∃ ar', op.call env ar = some ((ref.step op).1, ar') ∧ Represents ar' (ref.step op).2

theorem simulates_returns {op : Op} {r : Result} {ref' : Reference}
    (hstep : ref.step op = (.ok r, ref'))
    (hcall : ∃ ar', (op.call env).Returns ar r ar' ∧ Represents ar' ref') :
    Simulates env ar ref op := by
  rw [Simulates, hstep]
  exact hcall

theorem simulates_fails {op : Op} {e : Failure} (hstep : ref.step op = (.error e, ref))
    (hcall : ∃ ar', (op.call env).Fails ar e ar' ∧ Represents ar' ref) :
    Simulates env ar ref op := by
  rw [Simulates, hstep]
  exact hcall

/-! ## Access checks -/

section Checks

variable {α : Type} {x : Call (Archive σ) Failure α} {a : α} {e : Failure} {ar' : Archive σ}

theorem writable_returns (h : Represents ar ref) (hx : x.Returns ar a ar') :
    (writable x).Returns ar a ar' := by
  refine (Call.returns_read _).bind ?_
  rw [h.flags]
  exact hx

theorem writable_fails (h : Represents ar ref) (hx : x.Fails ar e ar') :
    (writable x).Fails ar e ar' := by
  refine (Call.returns_read _).bind_fails ?_
  rw [h.flags]
  exact hx

theorem readable_returns (h : Represents ar ref) (hx : x.Returns ar a ar') :
    (readable x).Returns ar a ar' := by
  refine (Call.returns_read _).bind ?_
  rw [h.flags]
  exact hx

theorem readable_fails (h : Represents ar ref) (hx : x.Fails ar e ar') :
    (readable x).Fails ar e ar' := by
  refine (Call.returns_read _).bind_fails ?_
  rw [h.flags]
  exact hx

end Checks

/-! ## Header calls -/

theorem simulates_clear (hgrant : Granting env) (h : Represents ar ref) :
    Simulates env ar ref .clear := by
  obtain ⟨ar', hclear, hrep⟩ := clearfields_returns hgrant h
  exact simulates_returns rfl
    ⟨ar', (writable_returns h hclear).bind (Call.returns_pure _ _), hrep⟩

theorem simulates_deln (hgrant : Granting env) (h : Represents ar ref) (n : ℕ) :
    Simulates env ar ref (.deln n) := by
  by_cases hn : n < ref.fields.entries.length
  · obtain ⟨ar', hdel, hrep⟩ := delfieldn_returns hgrant h hn
    exact simulates_returns (by rw [Reference.step, if_pos hn])
      ⟨ar', (writable_returns h hdel).bind (Call.returns_pure _ _), hrep⟩
  · refine simulates_fails (by rw [Reference.step, if_neg hn]) ⟨ar, Call.Fails.bind ?_, h⟩
    refine writable_fails h ((Call.returns_read _).bind_fails ?_)
    rw [if_pos (by rw [h.fields]; omega)]
    exact Call.fails_fail _ _

theorem simulates_delp (hgrant : Granting env) (h : Represents ar ref) (name : CStr) :
    Simulates env ar ref (.delp name) := by
  rcases Nat.lt_or_eq_of_le (ref.fields.ordinal_le name.fold) with hn | hn
  · obtain ⟨ar', hdel, hrep⟩ := delfieldp_returns hgrant h hn
    exact simulates_returns (by simp only [Reference.step]; rw [if_pos hn])
      ⟨ar', (writable_returns h hdel).bind (Call.returns_pure _ _), hrep⟩
  · obtain ⟨leader, mem, -, hopen, habsent⟩ := openheader_absent h hn
    refine simulates_fails (by simp only [Reference.step]; rw [if_neg (by omega)])
      ⟨_, Call.Fails.bind ?_, h.withRegion leadersize ar.info.hsize⟩
    refine writable_fails h ((Call.returns_read _).bind_fails (hopen.bind_fails ?_))
    refine (Call.returns_access habsent _).bind_fails ?_
    dsimp only
    rw [if_pos rfl]
    exact Call.fails_fail _ _

theorem simulates_getn (h : Represents ar ref) (n : ℕ) : Simulates env ar ref (.getn n) := by
  by_cases hn : n < ref.fields.entries.length
  · obtain ⟨left, field, right, hsplit, rfl, hget⟩ := split_at hn
    obtain ⟨ptr, ar', hfield, hvalue, hrep⟩ := getfieldn_returns h hsplit
    refine simulates_returns (by simp only [Reference.step]; rw [hget]) ⟨ar', ?_, hrep⟩
    exact (readable_returns h hfield).bind (hvalue.bind (Call.returns_pure _ _))
  · refine simulates_returns (by
      simp only [Reference.step]; rw [List.getElem?_eq_none (by omega)]) ⟨ar, ?_, h⟩
    have hnone : (getfieldn n).Returns ar (none, 0) ar := by
      refine (Call.returns_read _).bind ?_
      rw [if_pos (by rw [h.fields]; omega)]
      exact Call.returns_pure _ _
    exact (readable_returns h hnone).bind ((Call.returns_pure _ _).bind (Call.returns_pure _ _))

theorem simulates_getp (h : Represents ar ref) (name : CStr) :
    Simulates env ar ref (.getp name) := by
  rcases Nat.lt_or_eq_of_le (ref.fields.ordinal_le name.fold) with hn | hn
  · obtain ⟨left, field, right, hsplit, hleft, hkey, hother⟩ := KeyedList.ordinal_split hn
    obtain ⟨ptr, ar', hfield, hvalue, hrep⟩ := getfieldp_returns h hsplit hkey hother
    have hget : ref.fields.entries[ref.fields.ordinal name.fold]? = some field := by
      rw [← hleft, hsplit]
      simp
    refine simulates_returns (by simp only [Reference.step]; rw [hget]) ⟨ar', ?_, hrep⟩
    exact (readable_returns h hfield).bind (hvalue.bind (Call.returns_pure _ _))
  · obtain ⟨leader, mem, -, hopen, habsent⟩ := openheader_absent h hn
    refine simulates_returns (by
      simp only [Reference.step]; rw [List.getElem?_eq_none (by omega)])
      ⟨_, ?_, h.withRegion leadersize ar.info.hsize⟩
    have hnone : (getfieldp name).Returns ar (none, 0)
        (ar.withSeq ar.seq.impl leadersize ar.info.hsize) := by
      refine (Call.returns_read _).bind (hopen.bind ((Call.returns_access habsent _).bind ?_))
      dsimp only
      rw [if_pos rfl]
      exact Call.returns_pure _ _
    exact (readable_returns h hnone).bind ((Call.returns_pure _ _).bind (Call.returns_pure _ _))

theorem simulates_get (h : Represents ar ref) (n : ℕ) : Simulates env ar ref (.get n) := by
  by_cases hn : n < ref.fields.entries.length
  · obtain ⟨left, field, right, hsplit, rfl, hget⟩ := split_at hn
    obtain ⟨nameptr, valueptr, ar', hfield, hvalue, hname, hrep⟩ := getfield_returns h hsplit
    refine simulates_returns (by simp only [Reference.step]; rw [hget]) ⟨ar', ?_, hrep⟩
    exact (readable_returns h hfield).bind (hvalue.bind (hname.bind (Call.returns_pure _ _)))
  · refine simulates_returns (by
      simp only [Reference.step]; rw [List.getElem?_eq_none (by omega)]) ⟨ar, ?_, h⟩
    have hnone : (getfield n).Returns ar { name := none, value := none, size := 0 } ar := by
      refine (Call.returns_read _).bind ?_
      rw [if_pos (by rw [h.fields]; omega)]
      exact Call.returns_pure _ _
    exact (readable_returns h hnone).bind ((Call.returns_pure _ _).bind (Call.returns_pure _ _))

theorem simulates_putn (hgrant : Granting env) (h : Represents ar ref) {n : ℕ} {value : List UInt8}
    (htyped : (Op.putn n value).Typed) (hsmall : (ref.step (.putn n value)).2.size < 2 ^ 31) :
    Simulates env ar ref (.putn n value) := by
  have hvsize : u32 ((value.length : ℤ) + 1) = value.length + 1 := u32_eq (by simp) htyped
  by_cases hn : ref.fields.entries.length ≤ n
  · refine simulates_fails (by rw [Reference.step, if_pos hn]) ⟨ar, Call.Fails.bind ?_, h⟩
    refine writable_fails h ((Call.returns_read _).bind_fails ?_)
    rw [if_pos (by rw [h.fields]; omega)]
    exact Call.fails_fail _ _
  · by_cases hv : maxvsize < value.length + 1
    · refine simulates_fails (by rw [Reference.step, if_neg hn, if_pos hv])
        ⟨ar, Call.Fails.bind ?_, h⟩
      refine writable_fails h ((Call.returns_read _).bind_fails ?_)
      dsimp only
      rw [if_neg (by rw [h.fields]; omega), hvsize, if_pos hv]
      exact Call.fails_fail _ _
    · have hstep : ref.step (.putn n value) = (.ok (.int 0), ref.setValue n value) := by
        rw [Reference.step, if_neg hn, if_neg hv]
      rw [hstep] at hsmall
      obtain ⟨ar', hput, hrep⟩ := putfieldn_returns hgrant h (Nat.not_le.mp hn)
        (Nat.not_lt.mp hv) hsmall
      exact simulates_returns hstep
        ⟨ar', (writable_returns h hput).bind (Call.returns_pure _ _), hrep⟩

theorem simulates_putp (hgrant : Granting env) (h : Represents ar ref) {name : Option CStr}
    {value : List UInt8} (htyped : (Op.putp name value).Typed)
    (hsmall : (ref.step (.putp name value)).2.size < 2 ^ 31) :
    Simulates env ar ref (.putp name value) := by
  cases name with
  | none =>
    refine simulates_fails rfl ⟨ar, Call.Fails.bind ?_, h⟩
    exact writable_fails h ((Call.returns_read _).bind_fails (Call.fails_fail _ _))
  | some name =>
    have hvsize : u32 ((value.length : ℤ) + 1) = value.length + 1 := u32_eq (by simp) htyped.1
    have hnsize : u32 ((name.chars.length : ℤ) + 1) = name.chars.length + 1 :=
      u32_eq (by simp) (htyped.2 name rfl)
    by_cases hn : maxnsize < name.chars.length + 1
    · refine simulates_fails (by rw [Reference.step, if_pos hn]) ⟨ar, Call.Fails.bind ?_, h⟩
      refine writable_fails h ((Call.returns_read _).bind_fails ?_)
      dsimp only
      rw [hnsize, if_pos hn]
      exact Call.fails_fail _ _
    · by_cases hv : maxvsize < value.length + 1
      · refine simulates_fails (by rw [Reference.step, if_neg hn, if_pos hv])
          ⟨ar, Call.Fails.bind ?_, h⟩
        refine writable_fails h ((Call.returns_read _).bind_fails ?_)
        dsimp only
        rw [hnsize, if_neg hn, hvsize, if_pos hv]
        exact Call.fails_fail _ _
      · have hstep : ref.step (.putp (some name) value) =
            (.ok (.int (ref.fields.ordinal name.fold)),
              { ref with fields := ref.fields.put { name, value } }) := by
          rw [Reference.step, if_neg hn, if_neg hv]
        rw [hstep] at hsmall
        obtain ⟨ar', hput, hrep⟩ := putfieldp_returns hgrant h (Nat.not_lt.mp hn)
          (Nat.not_lt.mp hv) hsmall
        exact simulates_returns hstep
          ⟨ar', (writable_returns h hput).bind (Call.returns_pure _ _), hrep⟩

/-- A put of a field is a put by its name. -/
theorem Reference.step_put (ref : Reference) (name : Option CStr) (value : List UInt8) :
    ref.step (.put name value) = ref.step (.putp name value) := by
  cases name <;> rfl

theorem simulates_ntop (h : Represents ar ref) (n : ℕ) : Simulates env ar ref (.ntop n) := by
  by_cases hn : n < ref.fields.entries.length
  · obtain ⟨left, field, right, hsplit, rfl, hget⟩ := split_at hn
    obtain ⟨ptr, ar', hfield, hname, hrep⟩ := fieldntop_returns h hsplit
    refine simulates_returns (by simp only [Reference.step]; rw [hget]) ⟨ar', ?_, hrep⟩
    exact (readable_returns h hfield).bind (hname.bind (Call.returns_pure _ _))
  · refine simulates_fails (by
      simp only [Reference.step]; rw [List.getElem?_eq_none (by omega)])
      ⟨ar, Call.Fails.bind ?_, h⟩
    refine readable_fails h ((Call.returns_read _).bind_fails ?_)
    rw [if_pos (by rw [h.fields]; omega)]
    exact Call.fails_fail _ _

theorem simulates_pton (h : Represents ar ref) (name : CStr) :
    Simulates env ar ref (.pton name) := by
  rcases Nat.lt_or_eq_of_le (ref.fields.ordinal_le name.fold) with hn | hn
  · obtain ⟨left, field, right, hsplit, hleft, hkey, hother⟩ := KeyedList.ordinal_split hn
    obtain ⟨ar', hpton, hrep⟩ := fieldpton_returns h hsplit hkey hother
    refine simulates_returns (by simp only [Reference.step]; rw [if_pos hn, ← hleft]) ⟨ar', ?_, hrep⟩
    exact (readable_returns h hpton).bind (Call.returns_pure _ _)
  · obtain ⟨leader, mem, -, hopen, habsent⟩ := openheader_absent h hn
    refine simulates_fails (by simp only [Reference.step]; rw [if_neg (by omega)])
      ⟨_, Call.Fails.bind ?_, h.withRegion leadersize ar.info.hsize⟩
    refine readable_fails h ((Call.returns_read _).bind_fails (hopen.bind_fails ?_))
    refine (Call.returns_access habsent _).bind_fails ?_
    dsimp only
    rw [if_pos rfl]
    exact Call.fails_fail _ _

/-! ## Body calls -/

/-- A position the archive can hold becomes its position; a negative one is refused. -/
theorem simulates_seek (h : Represents ar ref) {offset whence : ℤ}
    (htyped : (Op.seek offset whence).Typed) (hfits : (Op.seek offset whence).SeekFits ref) :
    Simulates env ar ref (.seek offset whence) := by
  have hb := h.bounds
  obtain ⟨hlow, hhigh⟩ := htyped
  have hpos := h.posfits
  cases htarget : ref.target offset whence with
  | none =>
    obtain ⟨h0, h1, h2⟩ : whence ≠ 0 ∧ whence ≠ 1 ∧ whence ≠ 2 := by
      refine ⟨?_, ?_, ?_⟩ <;> rintro rfl <;> simp [Reference.target] at htarget
    refine simulates_fails (by simp only [Reference.step]; rw [htarget])
      ⟨ar, Call.Fails.bind ((Call.returns_read _).bind_fails ?_), h⟩
    rw [if_neg h0, if_neg h1, if_neg h2]
    exact Call.fails_fail _ _
  | some pos =>
    have hlt : pos < 2 ^ 32 := hfits pos htarget
    have hseek : seek offset whence ar = settle pos ar := by
      change (if whence = 0 then settle offset else if whence = 1 then settle (i64 (ar.offset + offset))
        else if whence = 2 then settle (i64 (ar.info.bsize + offset)) else Call.fail _) ar = _
      unfold Reference.target at htarget
      split_ifs at htarget ⊢ with h0 h1 h2
      all_goals obtain rfl := Option.some.inj htarget
      · rfl
      · rw [h.offset, i64_of_range (by omega) (by omega)]
      · rw [h.bsize, i64_of_range (by omega) (by omega)]
    by_cases hneg : pos < 0
    · refine simulates_fails (e := .erange ("negative file position [" ++ toString (i32 pos) ++ "]"))
        (by simp only [Reference.step]; rw [htarget]; simp only [if_pos hneg])
        ⟨ar, Call.Fails.bind ?_, h⟩
      rw [Call.Fails, hseek, settle, if_pos hneg]
      rfl
    · refine simulates_returns (r := .int pos)
        (by simp only [Reference.step]; rw [htarget]; simp only [if_neg hneg])
        ⟨{ ar with offset := pos.toNat }, Call.Returns.bind ?_ (Call.returns_pure _ _),
          h.seek (by omega)⟩
      have hoffset : u32 pos = pos.toNat := u32_eq (by omega) (by omega)
      rw [Call.Returns, hseek, settle, if_neg hneg, ← hoffset]
      rfl

theorem simulates_setcontent (hgrant : Granting env) (h : Represents ar ref) {data : List UInt8}
    (hsmall : (ref.step (.setcontent data)).2.size < 2 ^ 31) :
    Simulates env ar ref (.setcontent data) := by
  obtain ⟨ar', hset, hrep⟩ := setcontent_returns data hgrant h hsmall
  exact simulates_returns rfl
    ⟨ar', (writable_returns h hset).bind (Call.returns_pure _ _), hrep⟩

theorem simulates_truncate (hgrant : Granting env) (h : Represents ar ref) {size : ℕ}
    (hsmall : (ref.step (.truncate size)).2.size < 2 ^ 31) :
    Simulates env ar ref (.truncate size) := by
  have h31 : leadersize + ref.hsize + size < 2 ^ 31 := by
    simpa [Reference.step, Reference.size, Reference.hsize] using hsmall
  obtain ⟨ar', htruncate, hrep⟩ := truncate_returns hgrant h h31
  exact simulates_returns rfl
    ⟨ar', (writable_returns h htruncate).bind (Call.returns_pure _ _), hrep⟩

/-- A write moves the position behind what it wrote. -/
theorem simulates_write (hgrant : Granting env) (h : Represents ar ref) {buf : List UInt8}
    (hsmall : (ref.step (.write buf)).2.size < 2 ^ 31) :
    Simulates env ar ref (.write buf) := by
  have h31 : leadersize + ref.hsize + (overwrite 0 ref.body ref.pos buf).length < 2 ^ 31 := hsmall
  obtain ⟨ar', hwrite, hrep⟩ := writebody_returns ref.pos hgrant h h31
  rw [overwrite_length] at h31
  have hpos : u32 ((ar'.offset : ℤ) + buf.length) = ref.pos + buf.length := by
    rw [hrep.offset]
    exact u32_eq (by simp) (by omega)
  refine simulates_returns rfl
    ⟨{ ar' with offset := ref.pos + buf.length }, ?_, hrep.seek (by omega)⟩
  refine (writable_returns h ?_).bind (Call.returns_pure _ _)
  refine (Call.returns_read _).bind ?_
  rw [h.flags, if_neg Bool.false_ne_true]
  refine (Call.returns_read _).bind ?_
  rw [h.offset]
  refine hwrite.bind ?_
  rw [← hpos]
  exact (Call.returns_modify _ _).bind (Call.returns_pure _ _)

/-- A read moves the position behind what it read. -/
theorem simulates_read (h : Represents ar ref) (len : ℕ) : Simulates env ar ref (.read len) := by
  have hb := h.bounds
  have hposfits := h.posfits
  obtain ⟨ar', hread, hrep⟩ := readbody_returns ref.pos len h
  let bytes := readFrom ref.body ref.pos len
  have hlen : bytes.length = min len (ref.body.length - ref.pos) := readFrom_length _ _ _
  have hpos : u32 ((ar'.offset : ℤ) + bytes.length) = ref.pos + bytes.length := by
    rw [hrep.offset]
    exact u32_eq (by simp) (by omega)
  refine simulates_returns rfl
    ⟨{ ar' with offset := ref.pos + bytes.length }, ?_, hrep.seek (by omega)⟩
  refine (readable_returns h ?_).bind (Call.returns_pure _ _)
  refine (Call.returns_read _).bind ?_
  rw [h.offset]
  refine hread.bind ?_
  rw [← hpos]
  exact (Call.returns_modify _ _).bind (Call.returns_pure _ _)

/-! ## Runs -/

/-- Every admitted call is simulated. -/
theorem simulates_call (hgrant : Granting env) (h : Represents ar ref) (op : Op)
    (htyped : op.Typed) (hsmall : (ref.step op).2.size < 2 ^ 31) (hfits : op.SeekFits ref) :
    Simulates env ar ref op := by
  cases op with
  | clear => exact simulates_clear hgrant h
  | deln n => exact simulates_deln hgrant h n
  | delp name => exact simulates_delp hgrant h name
  | getn n => exact simulates_getn h n
  | getp name => exact simulates_getp h name
  | get n => exact simulates_get h n
  | putn n value => exact simulates_putn hgrant h htyped hsmall
  | putp name value => exact simulates_putp hgrant h htyped hsmall
  | put name value =>
    rw [Reference.step_put] at hsmall
    rw [Simulates, Reference.step_put]
    exact simulates_putp hgrant h htyped hsmall
  | ntop n => exact simulates_ntop h n
  | pton name => exact simulates_pton h name
  | seek offset whence => exact simulates_seek h htyped hfits
  | setcontent data => exact simulates_setcontent hgrant h hsmall
  | truncate size => exact simulates_truncate hgrant h hsmall
  | write buf => exact simulates_write hgrant h hsmall
  | read len => exact simulates_read h len

end Aug.Mar
