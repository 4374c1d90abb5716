import Aug.Mar.HeaderSpec
import Aug.Mar.Reading

/-!
# When reading is safe

An archive is seen through its memory and its size only. On a memory in which every field lies that the walk
comes to, the calls on the header are defined; and `get` is defined for every field only on such a memory.
-/

namespace Aug.Mar

open Aug.Lib Call

/-- What a reading call sees of an archive's sequence. -/
structure Sees {σ : Type} [SeqImpl σ] (mar : Archive σ) (mem : List UInt8) (size : ℕ) : Prop where
  addr : SeqImpl.addr mar.seq.impl = some mem
  size : SeqImpl.size mar.seq.impl = size

/-! ## Fields in a memory -/

section Fields

variable {mem : List UInt8} {fields n ptr : ℕ}

/-- Every field that the walk comes to lies in the memory. -/
def Walks (mem : List UInt8) (fields : ℕ) : Prop :=
  ∀ n < fields, ∃ ptr ∈ walkn mem leadersize n, FieldInside mem ptr

/-- One more step of the walk. -/
theorem walkn_succ (mem : List UInt8) (start n : ℕ) :
    walkn mem start (n + 1) = (walkn mem start n).bind fun ptr => (fieldsizeAt mem ptr).map (ptr + ·) := by
  induction n generalizing start with
  | zero =>
    cases hsize : fieldsizeAt mem start <;> simp [walkn, hsize]
  | succ n ih =>
    rw [walkn]
    cases hsize : fieldsizeAt mem start with
    | none => simp [walkn, hsize]
    | some size =>
      change walkn mem (start + size) (n + 1) = _
      rw [ih, walkn, hsize]
      rfl

/-- The walk goes forward. -/
theorem walkn_le (h : walkn mem leadersize n = some ptr) : leadersize ≤ ptr := by
  induction n generalizing ptr with
  | zero => exact (Option.some.inj h).le
  | succ n ih =>
    rw [walkn_succ, Option.bind_eq_some_iff] at h
    obtain ⟨before, hbefore, h⟩ := h
    rw [Option.map_eq_some_iff] at h
    obtain ⟨size, _, rfl⟩ := h
    exact (ih hbefore).trans (Nat.le_add_right before size)

/-- A field in a memory starts there. -/
theorem FieldInside.lt (h : FieldInside mem ptr) : ptr < mem.length := by
  obtain ⟨nsize, _, hnsize, _⟩ := h
  have hle := decodeBE_le (by decide) hnsize
  unfold nsizeoff at hle
  omega

/-- The offset that the walk computes leads to the field. -/
theorem Walks.offset (h : Walks mem fields) (h32 : mem.length < 2 ^ 32) (hn : n < fields) :
    ∃ offset, offsetn mem leadersize n = some offset ∧ FieldInside mem (leadersize + offset) := by
  obtain ⟨ptr, hptr, hinside⟩ := h n hn
  have hle := walkn_le hptr
  have hlt := hinside.lt
  have hoffset : u32 ((ptr : ℤ) - leadersize) = ptr - leadersize := u32_eq (by omega) (by omega)
  refine ⟨ptr - leadersize, ?_, ?_⟩
  · rw [offsetn, hptr]
    exact congrArg some hoffset
  · rwa [Nat.add_sub_cancel' hle]

/-- Two texts with a terminator can be compared. -/
theorem strncasecmp_defined {as bs : List UInt8} (ha : 0 ∈ as) (hb : 0 ∈ bs) (n : ℕ) :
    ∃ cmp, strncasecmp n as bs = some cmp := by
  induction n generalizing as bs with
  | zero => exact ⟨0, by unfold strncasecmp; rfl⟩
  | succ n ih =>
    cases as with
    | nil => cases ha
    | cons a as =>
      cases bs with
      | nil => cases hb
      | cons b bs =>
        rw [strncasecmp]
        by_cases hlower : tolower a = tolower b
        · rw [if_neg (not_not_intro hlower)]
          by_cases hzero : a = 0
          · exact ⟨0, if_pos hzero⟩
          · have hne : b ≠ 0 := by
              intro heq
              rw [heq] at hlower
              exact hzero (tolower_eq_zero hlower)
            rw [if_neg hzero]
            exact ih ((List.mem_cons.mp ha).resolve_left (Ne.symm hzero)) ((List.mem_cons.mp hb).resolve_left (Ne.symm hne))
        · exact ⟨_, if_pos hlower⟩

/-- A walk by name comes to a field of the memory, or past all of them. -/
theorem walkp_inside {name : CStr} {left : ℕ} (h : Walks mem fields) (hleft : n + left = fields)
    (hptr : walkn mem leadersize n = some ptr) : ∃ last m, walkp mem name fields left n ptr = some (last, m) ∧
      (m ≠ fields → leadersize ≤ last ∧ FieldInside mem last) := by
  induction left generalizing n ptr with
  | zero => exact ⟨ptr, fields, rfl, fun hne => absurd rfl hne⟩
  | succ left ih =>
    obtain ⟨other, hother, hinside⟩ := h n (by omega)
    obtain rfl : other = ptr := Option.some.inj (hother.symm.trans hptr)
    have hfield := hinside
    obtain ⟨nsize, vsize, hnsize, hvsize, _, _, hzero⟩ := hfield
    have hname : (0 : UInt8) ∈ name.bytes := List.mem_append_right _ (List.mem_singleton_self 0)
    obtain ⟨cmp, hcmp⟩ := strncasecmp_defined hname hzero nsize
    have hsize : fieldsizeAt mem other = some (fieldsize nsize vsize) := by
      rw [fieldsizeAt, hnsize, hvsize]
      rfl
    simp only [walkp, hnsize, hcmp, hsize, Option.bind_eq_bind, Option.bind_some]
    by_cases heq : cmp = 0
    · exact ⟨other, n, if_pos heq, fun _ => ⟨walkn_le hptr, hinside⟩⟩
    · rw [if_neg heq]
      apply ih (by omega)
      rw [walkn_succ, hptr, Option.bind_some, hsize]
      rfl

/-- The offset that it computes leads to the field. -/
theorem Walks.offsetp (h : Walks mem fields) (h32 : mem.length < 2 ^ 32) (name : CStr) :
    ∃ offset m, offsetp mem leadersize name fields = some (offset, m) ∧
      (m ≠ fields → FieldInside mem (leadersize + offset)) := by
  obtain ⟨last, m, hwalk, hinside⟩ := walkp_inside h (Nat.zero_add fields) rfl
  refine ⟨u32 ((last : ℤ) - leadersize), m, ?_, ?_⟩
  · rw [Mar.offsetp, hwalk]
    rfl
  · intro hne
    obtain ⟨hle, hfield⟩ := hinside hne
    have hlt := hfield.lt
    have hoffset : u32 ((last : ℤ) - leadersize) = last - leadersize := u32_eq (by omega) (by omega)
    rwa [hoffset, Nat.add_sub_cancel' hle]

/-- A text with a terminator can be read. -/
theorem cstr_some_iff {bytes : List UInt8} : (∃ text, cstr bytes = some text) ↔ 0 ∈ bytes := by
  induction bytes with
  | nil => simp [cstr]
  | cons b bytes ih =>
    rw [cstr, List.mem_cons]
    by_cases hzero : b = 0
    · simp [hzero]
    · rw [if_neg hzero, ← ih]
      simp [Ne.symm hzero]

/-- A value that was found lies in the memory. -/
def ValueInside (mem : List UInt8) (ptr : Option ℕ) (size : ℕ) : Prop :=
  ∀ start ∈ ptr, leadersize ≤ start ∧ start + size ≤ mem.length

/-- So does a name, with its terminator. -/
def NameInside (mem : List UInt8) (ptr : Option ℕ) : Prop := ∀ start ∈ ptr, leadersize ≤ start ∧ 0 ∈ mem.drop start

/-- The value of a field that lies in the memory is found there, with the size that `get` gives. -/
theorem FieldInside.field (h : FieldInside mem (leadersize + n)) : ∃ nsize vsize,
    nsizeAt mem (leadersize + n) = some nsize ∧ vsizeAt mem (leadersize + n) = some vsize ∧
      ValueInside mem (some (leadersize + n + valueoff nsize)) (u32 ((vsize : ℤ) - 1)) := by
  obtain ⟨nsize, vsize, hnsize, hvsize, hpos, hvalue, _⟩ := h
  have hvlt : vsize < 256 ^ 2 := decodeBE_lt hvsize
  have hsize : u32 ((vsize : ℤ) - 1) = vsize - 1 := u32_eq (by omega) (by omega)
  refine ⟨nsize, vsize, hnsize, hvsize, ?_⟩
  rintro _ ⟨⟩
  rw [hsize]
  exact ⟨by omega, hvalue⟩

/-- So it is with the size that the other calls give. -/
theorem FieldInside.value (h : FieldInside mem (leadersize + n)) : ∃ nsize vsize,
    nsizeAt mem (leadersize + n) = some nsize ∧ vsizeAt mem (leadersize + n) = some vsize ∧
      ValueInside mem (some (leadersize + n + valueoff nsize)) ((vsize : ℤ) - 1).toNat := by
  obtain ⟨nsize, vsize, hnsize, hvsize, _, hvalue, _⟩ := h
  refine ⟨nsize, vsize, hnsize, hvsize, ?_⟩
  rintro _ ⟨⟩
  exact ⟨by omega, by omega⟩

/-- So is its name. -/
theorem FieldInside.name (h : FieldInside mem (leadersize + n)) :
    NameInside mem (some (leadersize + n + nameoff)) := by
  obtain ⟨nsize, vsize, _, _, _, _, hzero⟩ := h
  rintro _ ⟨⟩
  exact ⟨by omega, hzero⟩

end Fields

/-! ## Calls on the header -/

section Calls

variable {σ : Type} [SeqImpl σ] {mar : Archive σ} {mem : List UInt8} {size : ℕ}

/-- Reading leaves an archive with another region at most, or at another position. -/
structure Kept (mar after : Archive σ) : Prop where
  impl : after.seq.impl = mar.seq.impl
  info : after.info = mar.info
  flags : after.flags = mar.flags

omit [SeqImpl σ] in
theorem Kept.refl (mar : Archive σ) : Kept mar mar := ⟨rfl, rfl, rfl⟩

theorem Kept.sees {after : Archive σ} (h : Kept mar after) (hsees : Sees mar mem size) : Sees after mem size :=
  ⟨h.impl ▸ hsees.addr, h.impl ▸ hsees.size⟩

/-- The archive with the header as its region. -/
def Archive.opened (mar : Archive σ) : Archive σ := mar.withSeq mar.seq.impl leadersize mar.info.hsize

omit [SeqImpl σ] in
theorem kept_opened (mar : Archive σ) : Kept mar mar.opened := ⟨rfl, rfl, rfl⟩

/-- The memory can be read. -/
theorem memory_sees (h : Sees mar mem size) : (Archive.onSeq memory).Returns mar mem mar :=
  Returns.onSeq mar ((returns_read mar.seq).bind (returns_access h.addr mar.seq))

/-- A region behind the size is refused. -/
theorem setregion_overrun (h : Sees mar mem size) {offset len : ℕ} (hover : size < u32 (offset + len)) :
    ∃ e, (Archive.onSeq (setregion offset len)).Fails mar e mar := by
  have hfails : (setregion offset len).Fails mar.seq
      (.erange ("sequence overrun by " ++ toString (i32 (u32 (offset + len) - size)) ++ " bytes")) mar.seq := by
    apply (returns_read mar.seq).bind_fails
    dsimp only
    rw [h.size, if_pos hover]
    exact fails_fail _ _
  exact ⟨_, hfails.zoom⟩

/-- Any other is set, also where the sum has wrapped. -/
theorem setregion_inside (h : Sees mar mem size) {offset len : ℕ} (hin : u32 (offset + len) ≤ size) :
    (Archive.onSeq (setregion offset len)).Returns mar () (mar.withSeq mar.seq.impl offset len) := by
  have hreturns : (setregion offset len).Returns mar.seq () { mar.seq with offset, len } := by
    refine (returns_read mar.seq).bind ?_
    dsimp only
    rw [h.size, if_neg (not_lt.mpr hin)]
    exact returns_modify _ _
  exact Returns.onSeq mar hreturns

/-- The region has an address. -/
theorem seqaddr_sees (h : Sees mar mem size) : (Archive.onSeq seqaddr).Returns mar mar.seq.offset mar := by
  have hreturns : seqaddr.Returns mar.seq mar.seq.offset mar.seq := by
    refine (returns_read mar.seq).bind ?_
    rw [h.addr, if_neg fun hnone => Option.some_ne_none _ hnone.1]
    exact returns_pure _ _
  exact Returns.onSeq mar hreturns

/-- The header is opened unless its region is refused. -/
theorem openheader_inside (h : Sees mar mem size) (hin : u32 (leadersize + mar.info.hsize) ≤ size) :
    openheader.Returns mar (leadersize, mem) mar.opened := by
  have hsees := (kept_opened mar).sees h
  refine (returns_read mar).bind ((setregion_inside h hin).bind ?_)
  exact (seqaddr_sees hsees).bind ((memory_sees hsees).bind (returns_pure _ _))

theorem openheader_overrun (h : Sees mar mem size) (hover : size < u32 (leadersize + mar.info.hsize)) :
    ∃ e, openheader.Fails mar e mar := by
  obtain ⟨e, hfails⟩ := setregion_overrun h hover
  exact ⟨e, (returns_read mar).bind_fails hfails.bind⟩

/-- The header region is refused, or all fields of the memory can be walked. -/
def Open (mar : Archive σ) (mem : List UInt8) (size : ℕ) : Prop :=
  size < u32 (leadersize + mar.info.hsize) ∨ Walks mem mar.info.fields

/-- What follows the opening of the header runs if it does on its memory. -/
theorem openheader_runs {α : Type} {f : ℕ × List UInt8 → Call (Archive σ) Failure α} {post : Except Failure α → Archive σ → Prop}
    (h : Sees mar mem size) (hopen : Open mar mem size) (herror : ∀ e, post (.error e) mar)
    (hf : Walks mem mar.info.fields → Runs (f (leadersize, mem)) mar.opened post) :
    Runs (openheader >>= f) mar post := by
  by_cases hover : size < u32 (leadersize + mar.info.hsize)
  · obtain ⟨e, hfails⟩ := openheader_overrun h hover
    exact hfails.bind.runs (herror e)
  · exact (openheader_inside h (not_lt.mp hover)).bind_runs (hf (hopen.resolve_left hover))

/-- The outcome of a call satisfies `post`, and the archive is kept. -/
def Reads {α : Type} (mar : Archive σ) (post : α → Prop) (result : Except Failure α) (after : Archive σ) : Prop :=
  Kept mar after ∧ ∀ a, result = .ok a → post a

omit [SeqImpl σ] in
theorem reads_error {α : Type} {post : α → Prop} {after : Archive σ} (h : Kept mar after) (e : Failure) :
    Reads mar post (.error e) after :=
  ⟨h, nofun⟩

omit [SeqImpl σ] in
theorem reads_ok {α : Type} {post : α → Prop} {after : Archive σ} {a : α} (h : Kept mar after) (ha : post a) :
    Reads mar post (.ok a) after := by
  refine ⟨h, ?_⟩
  rintro _ ⟨⟩
  exact ha

section Functions

variable (h : Sees mar mem size) (hopen : Open mar mem size) (h32 : mem.length < 2 ^ 32)

include h hopen h32

/-- `getfieldn` finds a value in the memory. -/
theorem getfieldn_runs (n : ℕ) :
    Runs (getfieldn n) mar (Reads mar fun found => ValueInside mem found.1 found.2.toNat) := by
  apply (returns_read mar).bind_runs
  split
  · exact (returns_pure _ _).runs (reads_ok (Kept.refl mar) nofun)
  · rename_i hn
    apply openheader_runs h hopen (fun e => reads_error (Kept.refl mar) e)
    intro hwalks
    obtain ⟨offset, hoffset, hinside⟩ := hwalks.offset h32 (not_le.mp hn)
    obtain ⟨nsize, vsize, hnsize, hvsize, hfound⟩ := hinside.value
    apply (returns_access hoffset _).bind_runs
    apply (returns_access hnsize _).bind_runs
    apply (returns_access hvsize _).bind_runs
    exact (returns_pure _ _).runs (reads_ok (kept_opened mar) hfound)

/-- So does `getfieldp`. -/
theorem getfieldp_runs (name : CStr) :
    Runs (getfieldp name) mar (Reads mar fun found => ValueInside mem found.1 found.2.toNat) := by
  apply (returns_read mar).bind_runs
  apply openheader_runs h hopen (fun e => reads_error (Kept.refl mar) e)
  intro hwalks
  obtain ⟨offset, m, hoffset, hinside⟩ := hwalks.offsetp h32 name
  apply (returns_access hoffset _).bind_runs
  dsimp only
  split
  · exact (returns_pure _ _).runs (reads_ok (kept_opened mar) nofun)
  · rename_i hm
    obtain ⟨nsize, vsize, hnsize, hvsize, hfound⟩ := (hinside hm).value
    apply (returns_access hnsize _).bind_runs
    apply (returns_access hvsize _).bind_runs
    exact (returns_pure _ _).runs (reads_ok (kept_opened mar) hfound)

/-- `getfield` finds a name and a value. -/
theorem getfield_runs (n : ℕ) : Runs (getfield n) mar
    (Reads mar fun field => NameInside mem field.name ∧ ValueInside mem field.value field.size) := by
  apply (returns_read mar).bind_runs
  split
  · exact (returns_pure _ _).runs (reads_ok (Kept.refl mar) ⟨nofun, nofun⟩)
  · rename_i hn
    apply openheader_runs h hopen (fun e => reads_error (Kept.refl mar) e)
    intro hwalks
    obtain ⟨offset, hoffset, hinside⟩ := hwalks.offset h32 (not_le.mp hn)
    have hname := hinside.name
    obtain ⟨nsize, vsize, hnsize, hvsize, hfound⟩ := hinside.field
    apply (returns_access hoffset _).bind_runs
    apply (returns_access hnsize _).bind_runs
    apply (returns_access hvsize _).bind_runs
    exact (returns_pure _ _).runs (reads_ok (kept_opened mar) ⟨hname, hfound⟩)

/-- `fieldntop` finds a name. -/
theorem fieldntop_runs (n : ℕ) : Runs (fieldntop n) mar (Reads mar fun ptr => NameInside mem (some ptr)) := by
  apply (returns_read mar).bind_runs
  split
  · exact (fails_fail _ _).runs (reads_error (Kept.refl mar) _)
  · rename_i hn
    apply openheader_runs h hopen (fun e => reads_error (Kept.refl mar) e)
    intro hwalks
    obtain ⟨offset, hoffset, hinside⟩ := hwalks.offset h32 (not_le.mp hn)
    apply (returns_access hoffset _).bind_runs
    exact (returns_pure _ _).runs (reads_ok (kept_opened mar) hinside.name)

/-- `fieldpton` finds a number. -/
theorem fieldpton_runs (name : CStr) : Runs (fieldpton name) mar (Reads mar fun _ => True) := by
  apply (returns_read mar).bind_runs
  apply openheader_runs h hopen (fun e => reads_error (Kept.refl mar) e)
  intro hwalks
  obtain ⟨offset, m, hoffset, _⟩ := hwalks.offsetp h32 name
  apply (returns_access hoffset _).bind_runs
  dsimp only
  split
  · exact (fails_fail _ _).runs (reads_error (kept_opened mar) _)
  · exact (returns_pure _ _).runs (reads_ok (kept_opened mar) trivial)

/-- `gettype` finds a value or takes the default. -/
theorem gettype_runs : Runs gettype mar
    (Reads mar fun found => ∀ value ∈ found, ValueInside mem (some value.1) value.2) := by
  rcases getfieldp_runs h hopen h32 contenttype with ⟨result, after, hresult, hkept, hvalue⟩
  cases result with
  | error e =>
    have hcall : gettype mar = some (.ok none, after) := by
      rw [gettype, hresult]
      rfl
    exact ⟨_, _, hcall, reads_ok hkept nofun⟩
  | ok found =>
    cases found with
    | mk ptr size =>
      cases ptr with
      | none =>
        have hcall : gettype mar = some (.ok none, after) := by
          rw [gettype, hresult]
          rfl
        exact ⟨_, _, hcall, reads_ok hkept nofun⟩
      | some ptr =>
        have hcall : gettype mar = some (.ok (if size < 0 then none else some (ptr, size.toNat)), after) := by
          rw [gettype, hresult]
          rfl
        apply Exists.intro _
        apply Exists.intro _
        apply And.intro hcall
        apply reads_ok hkept
        intro value hin
        split at hin
        · cases hin
        · obtain rfl := Option.some.inj hin
          exact hvalue _ rfl

end Functions

/-! ## Calls of a client -/

omit [SeqImpl σ] in
theorem Kept.trans {mar next after : Archive σ} (h : Kept mar next) (h' : Kept next after) : Kept mar after :=
  ⟨h'.impl.trans h.impl, h'.info.trans h.info, h'.flags.trans h.flags⟩

omit [SeqImpl σ] in
/-- What follows a reading call reads what it has kept. -/
theorem reads_bind {α β : Type} {x : Call (Archive σ) Failure α} {f : α → Call (Archive σ) Failure β} {post : α → Prop}
    {post' : β → Prop} (hx : Runs x mar (Reads mar post))
    (hf : ∀ a after, Kept mar after → post a → Runs (f a) after (Reads after post')) :
    Runs (x >>= f) mar (Reads mar post') := by
  apply hx.bind
  · intro e after hreads
    exact reads_error hreads.1 e
  · intro a after hreads
    apply (hf a after hreads.1 (hreads.2 a rfl)).imp
    intro result last hlast
    exact ⟨hreads.1.trans hlast.1, hlast.2⟩

omit [SeqImpl σ] in
theorem reads_pure {α : Type} {post : α → Prop} {a : α} (ha : post a) : Runs (pure a) mar (Reads mar post) :=
  (returns_pure a mar).runs (reads_ok (Kept.refl mar) ha)

omit [SeqImpl σ] in
/-- The access mode is checked first. -/
theorem readable_runs {α : Type} {x : Call (Archive σ) Failure α} {post : α → Prop} (hx : Runs x mar (Reads mar post)) :
    Runs (readable x) mar (Reads mar post) := by
  apply (returns_read mar).bind_runs
  split
  · exact hx
  · exact (fails_fail _ _).runs (reads_error (Kept.refl mar) _)

/-- The client reads a value that lies in the memory. -/
theorem deref_runs (h : Sees mar mem size) {ptr : Option ℕ} {n : ℕ} (hvalue : ∀ start ∈ ptr, start + n ≤ mem.length) :
    Runs (deref ptr n) mar (Reads mar fun _ => True) := by
  cases ptr with
  | none => exact reads_pure trivial
  | some start =>
    have hload : load mem start n = some ((mem.drop start).take n) := if_pos (hvalue start rfl)
    apply (memory_sees h).bind_runs
    apply (returns_access hload mar).bind_runs
    exact reads_pure trivial

/-- So it does with a name. -/
theorem derefstr_runs (h : Sees mar mem size) {ptr : ℕ} (hname : NameInside mem (some ptr)) :
    Runs (derefstr ptr) mar (Reads mar fun _ => True) := by
  rcases cstr_some_iff.mpr (hname ptr rfl).2 with ⟨text, htext⟩
  apply (memory_sees h).bind_runs
  exact (returns_access htext mar).runs (reads_ok (Kept.refl mar) trivial)

/-- The calls on the header are defined. -/
theorem header_runs (h : Sees mar mem size) (hopen : Open mar mem size) (h32 : mem.length < 2 ^ 32) {reading : Reading}
    (hheader : reading.ofHeader = true) : Runs reading.call mar (Reads mar fun _ => True) := by
  cases reading with
  | getn n =>
    apply reads_bind (readable_runs (getfieldn_runs h hopen h32 n))
    intro found after hkept hvalue
    apply reads_bind (deref_runs (hkept.sees h) fun start hstart => (hvalue start hstart).2)
    intro value last hkept' _
    exact reads_pure trivial
  | getp name =>
    apply reads_bind (readable_runs (getfieldp_runs h hopen h32 name))
    intro found after hkept hvalue
    apply reads_bind (deref_runs (hkept.sees h) fun start hstart => (hvalue start hstart).2)
    intro value last hkept' _
    exact reads_pure trivial
  | get n =>
    apply reads_bind (readable_runs (getfield_runs h hopen h32 n))
    intro field after hkept hfield
    apply reads_bind (deref_runs (hkept.sees h) fun start hstart => (hfield.2 start hstart).2)
    intro value last hkept' _
    have hname := hfield.1
    cases hptr : field.name with
    | none => exact reads_pure trivial
    | some ptr =>
      rw [hptr] at hname
      apply reads_bind (derefstr_runs (hkept'.sees (hkept.sees h)) hname)
      intro text final hkept'' _
      exact reads_pure trivial
  | ntop n =>
    apply reads_bind (readable_runs (fieldntop_runs h hopen h32 n))
    intro ptr after hkept hname
    apply reads_bind (derefstr_runs (hkept.sees h) hname)
    intro text last hkept' _
    exact reads_pure trivial
  | pton name =>
    apply reads_bind (readable_runs (fieldpton_runs h hopen h32 name))
    intro n after hkept _
    exact reads_pure trivial
  | gettype =>
    apply reads_bind (gettype_runs h hopen h32)
    intro found after hkept hfound
    cases found with
    | none => exact reads_pure trivial
    | some value =>
      apply reads_bind (deref_runs (hkept.sees h) fun start hstart => (hfound value rfl start hstart).2)
      intro bytes last hkept' _
      exact reads_pure trivial
  | seek offset whence => cases hheader
  | read len => cases hheader
  | getdata => cases hheader
  | getsize => cases hheader

/-- The pointers that they return are not in front of the header. -/
theorem pointers_runs (h : Sees mar mem size) (hopen : Open mar mem size) (h32 : mem.length < 2 ^ 32) (reading : Reading) :
    Runs reading.pointers mar (Reads mar fun ptrs => ∀ ptr ∈ ptrs, leadersize ≤ ptr) := by
  have hvalues : ∀ {ptr : Option ℕ} {n : ℕ}, ValueInside mem ptr n → ∀ start ∈ ptr.toList, leadersize ≤ start := by
    intro ptr n hvalue start hstart
    exact (hvalue start (Option.mem_toList.mp hstart)).1
  cases reading with
  | getn n =>
    apply reads_bind (readable_runs (getfieldn_runs h hopen h32 n))
    intro found after hkept hvalue
    exact reads_pure (hvalues hvalue)
  | getp name =>
    apply reads_bind (readable_runs (getfieldp_runs h hopen h32 name))
    intro found after hkept hvalue
    exact reads_pure (hvalues hvalue)
  | get n =>
    apply reads_bind (readable_runs (getfield_runs h hopen h32 n))
    intro field after hkept hfield
    apply reads_pure
    intro ptr hptr
    rcases List.mem_append.mp hptr with hname | hvalue
    · exact (hfield.1 ptr (Option.mem_toList.mp hname)).1
    · exact hvalues hfield.2 ptr hvalue
  | ntop n =>
    apply reads_bind (readable_runs (fieldntop_runs h hopen h32 n))
    intro ptr after hkept hname
    apply reads_pure
    intro start hstart
    rw [List.mem_singleton.mp hstart]
    exact (hname ptr rfl).1
  | gettype =>
    apply reads_bind (gettype_runs h hopen h32)
    intro found after hkept hfound
    apply reads_pure
    intro start hstart
    rcases Option.map_eq_some_iff.mp (Option.mem_toList.mp hstart) with ⟨value, hvalue, rfl⟩
    exact (hfound value hvalue _ rfl).1
  | pton name => exact reads_pure nofun
  | seek offset whence => exact reads_pure nofun
  | read len => exact reads_pure nofun
  | getdata => exact reads_pure nofun
  | getsize => exact reads_pure nofun

/-- The body region is refused, or it lies in the memory. -/
def OpenBody (mar : Archive σ) (mem : List UInt8) (size : ℕ) : Prop :=
  size < u32 (u32 (bodyoff mar.info.hsize) + mar.info.bsize) ∨
    u32 (bodyoff mar.info.hsize) + mar.info.bsize ≤ mem.length

/-- `getcontent` finds the body in the memory. -/
theorem getcontent_runs (h : Sees mar mem size) (hopen : OpenBody mar mem size) :
    Runs getcontent mar (Reads mar fun addr => addr + mar.info.bsize ≤ mem.length) := by
  apply (returns_read mar).bind_runs
  by_cases hover : size < u32 (u32 (bodyoff mar.info.hsize) + mar.info.bsize)
  · rcases setregion_overrun h hover with ⟨e, hfails⟩
    exact hfails.bind.runs (reads_error (Kept.refl mar) e)
  · have hkept : Kept mar (mar.withSeq mar.seq.impl (u32 (bodyoff mar.info.hsize)) mar.info.bsize) := ⟨rfl, rfl, rfl⟩
    apply (setregion_inside h (not_lt.mp hover)).bind_runs
    exact (seqaddr_sees (hkept.sees h)).runs (reads_ok hkept (hopen.resolve_left hover))

/-- So does `readbody`. -/
theorem readbody_runs (h : Sees mar mem size) (hopen : OpenBody mar mem size) (offset len : ℕ) :
    Runs (readbody offset len) mar (Reads mar fun _ => True) := by
  apply (returns_read mar).bind_runs
  dsimp only
  split
  · exact reads_pure trivial
  · rename_i hsome
    apply reads_bind (getcontent_runs h hopen)
    intro addr after hkept haddr
    have hload : load mem (addr + offset) (min len (mar.info.bsize - offset)) =
        some ((mem.drop (addr + offset)).take (min len (mar.info.bsize - offset))) := by
      apply if_pos
      omega
    apply (memory_sees (hkept.sees h)).bind_runs
    exact (returns_access hload after).runs (reads_ok (Kept.refl after) trivial)

omit [SeqImpl σ] in
/-- A position can be kept. -/
theorem settle_runs (pos : ℤ) : Runs (settle pos) mar (Reads mar fun _ => True) := by
  unfold settle
  split
  · exact (fails_fail _ _).runs (reads_error (Kept.refl mar) _)
  · apply Returns.runs ((returns_modify _ mar).bind (returns_pure pos _))
    exact reads_ok ⟨rfl, rfl, rfl⟩ trivial

/-- The calls on the body are defined. -/
theorem body_runs (h : Sees mar mem size) (hopen : OpenBody mar mem size) {reading : Reading}
    (hbody : reading.ofHeader = false) : Runs reading.call mar (Reads mar fun _ => True) := by
  cases reading with
  | getn n => cases hbody
  | getp name => cases hbody
  | get n => cases hbody
  | ntop n => cases hbody
  | pton name => cases hbody
  | gettype => cases hbody
  | seek offset whence =>
    have hseek : Runs (Mar.seek offset whence) mar (Reads mar fun _ => True) := by
      apply (returns_read mar).bind_runs
      split
      · exact settle_runs _
      · split
        · exact settle_runs _
        · split
          · exact settle_runs _
          · exact (fails_fail _ _).runs (reads_error (Kept.refl mar) _)
    apply reads_bind hseek
    intro pos after hkept _
    exact reads_pure trivial
  | read len =>
    have hread : Runs (Mar.read len) mar (Reads mar fun _ => True) := by
      apply readable_runs
      apply (returns_read mar).bind_runs
      apply reads_bind (readbody_runs h hopen mar.offset len)
      intro bytes after hkept _
      apply Returns.runs ((returns_modify _ after).bind (returns_pure bytes _))
      exact reads_ok ⟨rfl, rfl, rfl⟩ trivial
    apply reads_bind hread
    intro bytes after hkept _
    exact reads_pure trivial
  | getdata =>
    have hdata : Runs Mar.getdata mar (Reads mar fun found => found.1 + found.2 ≤ mem.length) := by
      apply readable_runs
      apply (returns_read mar).bind_runs
      apply reads_bind (getcontent_runs h hopen)
      intro addr after hkept haddr
      exact reads_pure haddr
    apply reads_bind hdata
    intro found after hkept hin
    have hvalue : ∀ start ∈ some found.1, start + found.2 ≤ mem.length := by
      rintro _ ⟨⟩
      exact hin
    apply reads_bind (deref_runs (hkept.sees h) hvalue)
    intro bytes last hkept' _
    exact reads_pure trivial
  | getsize =>
    apply (returns_read mar).bind_runs
    exact reads_pure trivial

end Calls

end Aug.Mar
