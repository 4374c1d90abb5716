import Aug.Mar.MFileSpec
import Aug.Mar.ReadingSafety

/-!
# The files that are read safely

What `aug_openmar_BIN` takes from a file, and exactly which files lead no reading call out of the file or a field
out of the header. A file that is shorter than a leader is opened as an empty archive, if at all.
-/

namespace Aug.Mar

open Aug.Lib Call

/-! ## A header within a file -/

section Header

variable {front : List UInt8} {start n ptr fields : ℕ}

/-- What is walked in the front of a memory is walked in all of it. -/
theorem walkn_append (back : List UInt8) (h : walkn front start n = some ptr) :
    walkn (front ++ back) start n = some ptr := by
  induction n generalizing start with
  | zero => exact h
  | succ n ih =>
    rw [walkn, Option.bind_eq_bind, Option.bind_eq_some_iff] at h
    rcases h with ⟨size, hsize, h⟩
    rw [fieldsizeAt, Option.bind_eq_bind, Option.bind_eq_some_iff] at hsize
    rcases hsize with ⟨nsize, hnsize, hsize⟩
    rw [Option.bind_eq_some_iff] at hsize
    rcases hsize with ⟨vsize, hvsize, hsize⟩
    have hnsize' : nsizeAt (front ++ back) start = some nsize := decodeBE_append back hnsize
    have hvsize' : vsizeAt (front ++ back) start = some vsize := decodeBE_append back hvsize
    have hsize' : fieldsizeAt (front ++ back) start = some size := by
      rw [fieldsizeAt, hnsize', hvsize']
      exact hsize
    rw [walkn, hsize']
    exact ih h

/-- A field in the front lies in all of it. -/
theorem FieldInside.append (back : List UInt8) (h : FieldInside front ptr) : FieldInside (front ++ back) ptr := by
  rcases h with ⟨nsize, vsize, hnsize, hvsize, hpos, hvalue, hzero⟩
  apply Exists.intro nsize
  apply Exists.intro vsize
  apply And.intro (decodeBE_append back hnsize)
  apply And.intro (decodeBE_append back hvsize)
  apply And.intro hpos
  constructor
  · rw [List.length_append]
    omega
  · rw [List.drop_append]
    exact List.mem_append_left _ hzero

theorem Walks.append (back : List UInt8) (h : Walks front fields) : Walks (front ++ back) fields := by
  intro n hn
  rcases h n hn with ⟨ptr, hptr, hinside⟩
  exact ⟨ptr, walkn_append back hptr, hinside.append back⟩

end Header

/-! ## Archives that are read safely -/

section Safe

variable {mar after : Archive MFile} {mem : List UInt8} {size : ℕ}

/-- What is known of an archive in a file: its fields lie in the header and its body in the memory. -/
structure Within (mar : Archive MFile) (mem : List UInt8) (size : ℕ) : Prop where
  sees : Sees mar mem size
  small : mem.length < 2 ^ 32
  header : size < u32 (leadersize + mar.info.hsize) ∨ Walks (mem.take (leadersize + mar.info.hsize)) mar.info.fields
  body : OpenBody mar mem size

theorem Within.kept (h : Within mar mem size) (hkept : Kept mar after) : Within after mem size where
  sees := hkept.sees h.sees
  small := h.small
  header := hkept.info ▸ h.header
  body := by
    have hbody := h.body
    unfold OpenBody at hbody ⊢
    rwa [hkept.info]

theorem Within.opened (h : Within mar mem size) : Open mar mem size := by
  rcases h.header with hover | hwalks
  · exact .inl hover
  · apply Or.inr
    have hall := hwalks.append (mem.drop (leadersize + mar.info.hsize))
    rwa [List.take_append_drop] at hall

/-- A call is defined, and keeps the archive. -/
theorem Within.runs (h : Within mar mem size) (reading : Reading) :
    Runs reading.call mar (Reads mar fun _ => True) := by
  cases hheader : reading.ofHeader with
  | true => exact header_runs h.sees h.opened h.small hheader
  | false => exact body_runs h.sees h.body hheader

/-- So do any calls. -/
theorem Within.performs (h : Within mar mem size) {readings : List Reading}
    (hperforms : Reading.performs readings mar = some after) : Kept mar after := by
  induction readings generalizing mar with
  | nil =>
    obtain rfl := Option.some.inj hperforms
    exact Kept.refl mar
  | cons reading readings ih =>
    rw [Reading.performs, Option.bind_eq_some_iff] at hperforms
    rcases hperforms with ⟨⟨result, next⟩, hcall, hrest⟩
    have hkept := ((h.runs reading).holds hcall).1
    exact hkept.trans (ih (h.kept hkept) hrest)

/-- The memory that ends with the header. -/
theorem Within.cut (h : Within mar mem size) (limit : ℕ) : Sees (mar.cut limit) (mem.take limit) size where
  addr := by
    have haddr : mar.seq.impl.addr = some mem := h.sees.addr
    change mar.seq.impl.addr.map (List.take limit) = _
    rw [haddr]
    rfl
  size := h.sees.size

/-- A call is safe. -/
theorem Within.safeIn (h : Within mar mem size) (reading : Reading) : reading.SafeIn mar where
  file := (h.runs reading).not_undefined
  header hheader := by
    have hsmall : (mem.take (leadersize + mar.info.hsize)).length < 2 ^ 32 :=
      (List.length_take_le' _ _).trans_lt h.small
    exact (header_runs (h.cut _) h.header hsmall hheader).not_undefined
  behind ptrs after hreturns := by
    have hpointers := pointers_runs h.sees h.opened h.small reading
    exact (hpointers.holds hreturns).2 ptrs rfl

/-- The walk stays in the header. -/
theorem Within.walking (h : Within mar mem size) : mar.Walking := by
  intro start found after hopen n hn ptr hptr
  have hsees := h.sees
  by_cases hover : size < u32 (leadersize + mar.info.hsize)
  · rcases openheader_overrun hsees hover with ⟨e, hfails⟩
    cases hfails.symm.trans hopen
  · have hreturns := openheader_inside hsees (not_lt.mp hover)
    cases hreturns.symm.trans hopen
    rcases h.header.resolve_left hover n hn with ⟨other, hother, hinside⟩
    have hall := walkn_append (mem.drop (leadersize + mar.info.hsize)) hother
    rw [List.take_append_drop] at hall
    obtain rfl : other = ptr := Option.some.inj (hall.symm.trans hptr)
    exact hinside.lt.le.trans (List.length_take_le _ _)

/-- Reading is safe. -/
theorem Within.safe (h : Within mar mem size) : mar.Safe := by
  intro readings after hperforms
  have hafter := h.kept (h.performs hperforms)
  exact ⟨hafter.walking, fun reading => hafter.safeIn reading⟩

end Safe

/-! ## Opening a file -/

section Opening

variable {file : List UInt8} {pagesize : ℕ} {flags : Flags}

/-- Decoding from the mapped bytes is decoding from the file. -/
theorem decode_mapped {width i : ℕ} (hle : i + width ≤ (mapped file).length) :
    decodeBE width (mapped file) i = some ((decodeBE width file i).getD 0) := by
  have hbytes : (((mapped file).drop i).take width).length = width := by
    rw [List.length_take, List.length_drop]
    omega
  have hmapped : decodeBE width (mapped file) i = some (valueBE (((mapped file).drop i).take width)) := if_pos hbytes
  have hfile := decodeBE_append (file.drop (u32 file.length)) hmapped
  rw [mapped, List.take_append_drop] at hfile
  rw [hfile]
  exact hmapped

theorem mapped_length (file : List UInt8) : (mapped file).length = u32 file.length := by
  have hle : u32 file.length ≤ file.length := by
    unfold u32
    omega
  rw [mapped, List.length_take, Nat.min_eq_left hle]

/-- The sequence over a file that is mapped. -/
def wholefile (writable : Bool) (file : List UInt8) (mm : MMap) : Seq MFile :=
  { impl := { openmfile writable file with mmap := some mm }, offset := 0, len := 0 }

/-- A file that is not empty is mapped as it is. -/
theorem openseq_mapped (pagesize : ℕ) (writable : Bool) (hsome : u32 file.length ≠ 0) :
    ∃ mm : MMap, mm.len = u32 file.length ∧
      openseq pagesize writable file = some (.ok (wholefile writable file mm)) := by
  have hle : u32 file.length ≤ file.length := by
    unfold u32
    omega
  rcases mapsize_returns (openmfile writable file) (Nat.pos_of_ne_zero hsome) hle with ⟨mm, hlen, hmapsize⟩
  apply Exists.intro mm
  apply And.intro hlen
  have hextend : (extend pagesize (u32 file.length)).Returns (openmfile writable file) () (openmfile writable file) := by
    apply (returns_read _).bind
    have hresvd : ¬(openmfile writable file).resvd < u32 file.length := lt_irrefl _
    dsimp only
    rw [if_neg hresvd]
    exact returns_pure _ _
  have hmap : (mapmfile pagesize (u32 file.length)).Returns (openmfile writable file) ()
      { openmfile writable file with mmap := some mm } := by
    have hnone : ¬∃ mm ∈ (openmfile writable file).mmap, u32 file.length ≤ mm.len := by
      rintro ⟨other, hother, -⟩
      cases hother
    have hsize : max (u32 file.length) (u32 file.length) = u32 file.length := Nat.max_self _
    apply (returns_read _).bind
    rw [if_neg hnone]
    apply hextend.bind
    apply hmapsize.bind
    change some (Except.ok (), { openmfile writable file with
      size := max (u32 file.length) (u32 file.length), mmap := some mm }) = _
    rw [hsize]
    rfl
  have hresvd : (openmfile writable file).resvd = u32 file.length := rfl
  rw [openseq]
  dsimp only
  rw [hresvd, if_neg hsome, hmap]
  rfl

/-- What is mapped of it. -/
theorem wholefile_addr (writable : Bool) {mm : MMap} (hlen : mm.len = u32 file.length) :
    SeqImpl.addr (wholefile writable file mm).impl = some (mapped file) := by
  change (some mm).map (fun mm => file.take mm.len) = _
  rw [Option.map_some, hlen]
  rfl

/-- The sequence with the leader as its region. -/
def atleader (writable : Bool) (file : List UInt8) (mm : MMap) : Seq MFile :=
  { wholefile writable file mm with len := leadersize }

section Leader

variable (writable : Bool) {mm : MMap} (hlen : mm.len = u32 file.length) (hle : leadersize ≤ u32 file.length)

include hlen hle

omit hlen in
theorem setregion_leader : (setregion 0 leadersize).Returns (wholefile writable file mm) () (atleader writable file mm) := by
  have hin : ¬SeqImpl.size (wholefile writable file mm).impl < u32 ((0 : ℕ) + leadersize) := not_lt.mpr hle
  apply (returns_read _).bind
  dsimp only
  rw [if_neg hin]
  exact returns_modify _ _

omit hle in
theorem seqaddr_leader : seqaddr.Returns (atleader writable file mm) 0 (atleader writable file mm) := by
  have haddr : SeqImpl.addr (atleader writable file mm).impl = some (mapped file) := wholefile_addr writable hlen
  apply (returns_read _).bind
  rw [haddr, if_neg fun hnone => Option.some_ne_none _ hnone.1]
  rfl

omit hle in
theorem memory_leader : memory.Returns (atleader writable file mm) (mapped file) (atleader writable file mm) :=
  (returns_read _).bind (returns_access (wholefile_addr writable hlen) _)

omit hlen in
/-- The magic is read. -/
theorem magic_leader : load (mapped file) (0 + magicoff) magic.length = some (file.take magic.length) := by
  have hlong := mapped_length file
  have hmagic : magic.length ≤ leadersize := by decide
  have hin : 0 + magicoff + magic.length ≤ (mapped file).length := by
    rw [hlong]
    exact hmagic.trans hle
  have htake : (mapped file).take magic.length = file.take magic.length := by
    rw [mapped, List.take_take, Nat.min_eq_left (hmagic.trans hle)]
  rw [load, if_pos hin]
  exact congrArg some htake

/-- A leader without the magic is refused. -/
theorem info_refused (hmagic : file.take magic.length ≠ magic) :
    ∃ e, info.Fails (wholefile writable file mm) e (atleader writable file mm) := by
  apply Exists.intro (Failure.einval "invalid mar header")
  apply (setregion_leader writable hle).bind_fails
  apply (seqaddr_leader writable hlen).bind_fails
  apply (memory_leader writable hlen).bind_fails
  apply (returns_access (magic_leader hle) _).bind_fails
  rw [if_pos hmagic]
  exact fails_fail _ _

/-- A leader with it is taken as it is. -/
theorem info_found (hmagic : file.take magic.length = magic) :
    info.Returns (wholefile writable file mm) (leader file) (atleader writable file mm) := by
  have hlong := mapped_length file
  have hdecode : ∀ {width i : ℕ}, i + width ≤ leadersize →
      decodeBE width (mapped file) (0 + i) = some ((decodeBE width file i).getD 0) := by
    intro width i hin
    rw [Nat.zero_add]
    apply decode_mapped
    omega
  apply (setregion_leader writable hle).bind
  apply (seqaddr_leader writable hlen).bind
  apply (memory_leader writable hlen).bind
  apply (returns_access (magic_leader hle) _).bind
  rw [if_neg (not_not_intro hmagic)]
  apply (returns_access (hdecode (by decide)) _).bind
  apply (returns_access (hdecode (by decide)) _).bind
  apply (returns_access (hdecode (by decide)) _).bind
  apply (returns_access (hdecode (by decide)) _).bind
  exact returns_pure _ _

end Leader

/-- A file with a leader is opened as it is. -/
theorem openmar_leader (pagesize : ℕ) (flags : Flags) (h : HasLeader file) : ∃ mm : MMap, mm.len = u32 file.length ∧
    openmar pagesize flags file = some (.ok
      { seq := atleader flags.writable file mm, info := leader file, flags, offset := 0 }) := by
  have hle : leadersize ≤ u32 file.length := mapped_length file ▸ h.1
  have hsome : u32 file.length ≠ 0 := by
    unfold leadersize at hle
    omega
  rcases openseq_mapped pagesize flags.writable hsome with ⟨mm, hlen, hopen⟩
  have hinit : (init pagesize).Returns (wholefile flags.writable file mm) (leader file) (atleader flags.writable file mm) := by
    have hsize : leadersize ≤ SeqImpl.size (wholefile flags.writable file mm).impl := hle
    apply (returns_read _).bind
    dsimp only
    rw [if_pos hsize]
    apply (info_found flags.writable hlen hle h.2.1).bind
    rw [if_neg (not_not_intro h.2.2)]
    exact returns_pure _ _
  exact ⟨mm, hlen, by rw [openmar, hopen]; dsimp only; rw [hinit]; rfl⟩

/-- A long file without a leader is refused. -/
theorem openmar_refused (pagesize : ℕ) (flags : Flags) (hle : leadersize ≤ u32 file.length) (h : ¬HasLeader file) :
    ∃ e, openmar pagesize flags file = some (.error e) := by
  have hsome : u32 file.length ≠ 0 := by
    unfold leadersize at hle
    omega
  rcases openseq_mapped pagesize flags.writable hsome with ⟨mm, hlen, hopen⟩
  have hsize : leadersize ≤ SeqImpl.size (wholefile flags.writable file mm).impl := hle
  have hinit : ∃ e, (init pagesize).Fails (wholefile flags.writable file mm) e (atleader flags.writable file mm) := by
    by_cases hmagic : file.take magic.length = magic
    · have hproto : (leader file).proto ≠ proto := fun hproto => h ⟨(mapped_length file).symm ▸ hle, hmagic, hproto⟩
      apply Exists.intro _
      apply (returns_read _).bind_fails
      dsimp only
      rw [if_pos hsize]
      apply (info_found flags.writable hlen hle hmagic).bind_fails
      rw [if_pos hproto]
      exact fails_fail _ _
    · rcases info_refused flags.writable hlen hle hmagic with ⟨e, hinfo⟩
      apply Exists.intro e
      apply (returns_read _).bind_fails
      dsimp only
      rw [if_pos hsize]
      exact hinfo.bind
  rcases hinit with ⟨e, hinit⟩
  exact ⟨e, by rw [openmar, hopen]; dsimp only; rw [hinit]; rfl⟩

/-! ## A file without room for a leader -/

/-- A mapping that is made has the length that was asked for. -/
theorem createmmapB_len {fsize size n : ℕ} {mm : MMap} (hn : 0 < n) (h : createmmapB fsize size n = .ok mm) :
    mm.len = n := by
  have hne : ¬n = 0 := Nat.pos_iff_ne_zero.mp hn
  rw [createmmapB, if_neg hne] at h
  split at h
  · rw [← Except.ok.inj h]
  · cases h

theorem mapsize_ends {n : ℕ} (hn : 0 < n) (mfile : MFile) :
    Ends (mapsize n) mfile fun result after => result = .ok () → ∃ mm, after.mmap = some mm ∧ mm.len = n := by
  have hverify : ∀ {size : ℕ} {α : Type} {x : Except Failure α} {mm : α}, (verify size n >>= fun _ => x) = .ok mm → x = .ok mm := by
    intro size α x mm h
    cases hv : verify size n with
    | error e =>
      rw [hv] at h
      cases h
    | ok _ =>
      rw [hv] at h
      exact h
  apply (returns_read mfile).bind_ends
  cases mfile.mmap with
  | some mm =>
    dsimp only
    cases hmap : remmap mfile.file.length mm n with
    | ok mm' =>
      apply ends_of_eq (returns_modify _ mfile)
      exact fun _ => ⟨mm', rfl, createmmapB_len hn (hverify hmap)⟩
    | error e =>
      apply (returns_modify _ mfile).bind_ends
      exact ends_of_eq (fails_fail _ _) nofun
  | none =>
    dsimp only
    cases hmap : createmmap mfile.file.length n with
    | ok mm =>
      apply ends_of_eq (returns_modify _ mfile)
      exact fun _ => ⟨mm, rfl, createmmapB_len hn (hverify hmap)⟩
    | error e => exact ends_of_eq (fails_fail _ _) nofun

/-- An update of the mapped bytes keeps the mapping. -/
theorem update_mmap {f : List UInt8 → Option (List UInt8)} {mfile after : MFile} (h : mfile.update f = some after) :
    ∃ mm mem, mfile.mmap = some mm ∧ f (mfile.file.take mm.len) = some mem ∧
      after = { mfile with file := mem ++ mfile.file.drop mm.len } := by
  rw [MFile.update, Option.bind_eq_bind, Option.bind_eq_some_iff] at h
  rcases h with ⟨mm, hmm, h⟩
  rw [Option.bind_eq_bind, Option.bind_eq_some_iff] at h
  rcases h with ⟨mem, hmem, h⟩
  exact ⟨mm, mem, hmm, hmem, (Option.some.inj h).symm⟩

/-- The file is mapped with the length. -/
def MapsTo (n : ℕ) (mfile : MFile) : Prop := ∃ mm, mfile.mmap = some mm ∧ mm.len = n

/-- A file that grows is mapped with its new size. -/
theorem resizemfile_grows (pagesize tail : ℕ) {n : ℕ} {mfile : MFile} (hsize : mfile.size < n)
    (hshort : ∀ mm ∈ mfile.mmap, mm.len < n) :
    Ends (resizemfile pagesize n tail) mfile fun result after => result = .ok () → MapsTo n after := by
  have hnone : ¬∃ mm ∈ mfile.mmap, n ≤ mm.len := by
    rintro ⟨mm, hmm, hle⟩
    exact absurd (hshort mm hmm) (not_lt.mpr hle)
  have hmap : Ends (mapmfile pagesize n) mfile fun result after => result = .ok () → MapsTo n after := by
    apply (returns_read mfile).bind_ends
    rw [if_neg hnone]
    have hextend : Ends (extend pagesize n) mfile fun _ _ => True := ⟨fun _ _ _ => trivial⟩
    apply hextend.bind (fun _ _ _ => nofun)
    intro _ next _
    apply (mapsize_ends (hsize.trans_le' (Nat.zero_le _)) next).bind (fun _ _ _ => nofun)
    intro _ last hmaps
    exact ends_of_eq (returns_modify _ last) fun _ => hmaps rfl
  apply (returns_read mfile).bind_ends
  rw [if_pos hsize]
  apply hmap.bind (fun _ _ _ => nofun)
  intro _ next hmaps
  apply (returns_read next).bind_ends
  apply access_bind_ends
  intro moved hupdate
  apply ends_of_eq (returns_modify _ next)
  intro _
  rcases update_mmap hupdate with ⟨mm, mem, hmm, -, rfl⟩
  exact hmaps rfl

/-- A store through a pointer keeps the mapping, and lies in it. -/
theorem poke_ends {n ptr : ℕ} {bytes : List UInt8} {seq : Seq MFile} (hmaps : MapsTo n seq.impl) :
    Ends (poke ptr bytes) seq fun result after => result = .ok () →
      MapsTo n after.impl ∧ ptr + bytes.length ≤ after.impl.file.length := by
  apply (returns_read seq).bind_ends
  apply access_bind_ends
  intro impl hupdate
  apply ends_of_eq (returns_modify _ seq)
  intro _
  rcases update_mmap hupdate with ⟨mm, mem, hmm, hstore, rfl⟩
  have hlength := store_length hstore
  have hin : ptr + bytes.length ≤ (seq.impl.file.take mm.len).length := by
    unfold store at hstore
    split at hstore
    · assumption
    · cases hstore
  apply And.intro hmaps
  change ptr + bytes.length ≤ (mem ++ seq.impl.file.drop mm.len).length
  rw [List.length_append]
  omega

/-- A leader that is written lies in the mapping. -/
theorem pokeinfo_ends {info : Info} {seq : Seq MFile} (hmaps : MapsTo leadersize seq.impl) :
    Ends (pokeinfo 0 info) seq fun result after => result = .ok () →
      MapsTo leadersize after.impl ∧ leadersize ≤ after.impl.file.length := by
  apply (poke_ends hmaps).bind (fun _ _ _ => nofun)
  intro _ next hnext
  apply (poke_ends (hnext rfl).1).bind (fun _ _ _ => nofun)
  intro _ next hnext
  apply (poke_ends (hnext rfl).1).bind (fun _ _ _ => nofun)
  intro _ next hnext
  apply (poke_ends (hnext rfl).1).bind (fun _ _ _ => nofun)
  intro _ next hnext
  apply (poke_ends (hnext rfl).1).imp
  intro result after hpoke hresult
  have hbsize : 0 + bsizeoff + (encodeBE 4 info.bsize).length = leadersize := by
    rw [encodeBE_length]
    rfl
  exact hbsize ▸ hpoke hresult

/-- A short file that is opened gets an empty leader. -/
theorem init_short (pagesize : ℕ) {seq : Seq MFile} (hsize : seq.impl.size < leadersize)
    (hshort : ∀ mm ∈ seq.impl.mmap, mm.len < leadersize) : Ends (init pagesize) seq fun result after =>
      ∀ info, result = .ok info → MapsTo leadersize after.impl ∧ leadersize ≤ after.impl.file.length ∧
        info = { proto, fields := 0, hsize := 0, bsize := 0 } := by
  have hlong : ¬leadersize ≤ SeqImpl.size seq.impl := not_le.mpr hsize
  have hin : ¬SeqImpl.size seq.impl < u32 ((0 : ℕ) + (SeqImpl.size seq.impl : ℕ)) := by
    have hsame : u32 ((0 : ℕ) + (SeqImpl.size seq.impl : ℤ)) = SeqImpl.size seq.impl := by
      apply u32_eq
      · omega
      · unfold leadersize at hlong
        omega
    rw [hsame]
    exact lt_irrefl _
  have hregion : (setregion 0 (SeqImpl.size seq.impl)).Returns seq ()
      { seq with offset := 0, len := SeqImpl.size seq.impl } := by
    apply (returns_read seq).bind
    dsimp only
    rw [if_neg hin]
    exact returns_modify _ _
  have hresize : Ends (resizeseq pagesize leadersize) { seq with offset := 0, len := SeqImpl.size seq.impl }
      fun result after => ∀ ptr, result = .ok ptr → ptr = 0 ∧ MapsTo leadersize after.impl := by
    have htotal : u32 ((SeqImpl.size seq.impl : ℤ) + ((leadersize : ℤ) - (SeqImpl.size seq.impl : ℕ))) = leadersize := by
      apply u32_eq
      · omega
      · decide
    have hgrows : ∀ tail, Ends (Seq.onImpl (@SeqImpl.resize MFile _ pagesize leadersize tail))
        { seq with offset := 0, len := SeqImpl.size seq.impl } fun result next => ∃ impl,
          next = { seq with impl, offset := 0, len := SeqImpl.size seq.impl } ∧
            (result = .ok () → MapsTo leadersize impl) :=
      fun tail => Ends.zoom (resizemfile_grows pagesize tail hsize hshort)
    apply (returns_read _).bind_ends
    dsimp only
    rw [htotal]
    apply (hgrows _).bind
    · intro e next _ _
      nofun
    · rintro _ next ⟨impl, rfl, hmaps⟩
      apply (returns_modify _ _).bind_ends
      apply ends_of_eq (returns_pure _ _)
      intro ptr hptr
      exact ⟨(Except.ok.inj hptr).symm, hmaps rfl⟩
  apply (returns_read seq).bind_ends
  dsimp only
  rw [if_neg hlong]
  apply hregion.bind_ends
  apply hresize.bind (fun _ _ _ _ => nofun)
  intro ptr next hnext
  rcases hnext ptr rfl with ⟨rfl, hmaps⟩
  apply (pokeinfo_ends hmaps).bind (fun _ _ _ _ => nofun)
  intro _ last hlast
  apply ends_of_eq (returns_pure _ last)
  intro info hinfo
  exact ⟨(hlast rfl).1, (hlast rfl).2, (Except.ok.inj hinfo).symm⟩

/-- An archive over a short file has no fields and no body. -/
theorem openmar_short {mar : Archive MFile} (hlt : u32 file.length < leadersize)
    (hopen : openmar pagesize flags file = some (.ok mar)) : ∃ mem size, Within mar mem size := by
  have hshort : ∃ seq : Seq MFile, openseq pagesize flags.writable file = some (.ok seq) ∧
      seq.impl.size < leadersize ∧ ∀ mm ∈ seq.impl.mmap, mm.len < leadersize := by
    by_cases hnone : u32 file.length = 0
    · have hseq : openseq pagesize flags.writable file =
          some (.ok { impl := openmfile flags.writable file, offset := 0, len := 0 }) := if_pos hnone
      exact ⟨_, hseq, hlt, nofun⟩
    · rcases openseq_mapped pagesize flags.writable hnone with ⟨mm, hlen, hseq⟩
      apply Exists.intro _
      apply And.intro hseq
      apply And.intro hlt
      intro other hother
      obtain rfl : mm = other := Option.some.inj hother
      exact hlen ▸ hlt
  rcases hshort with ⟨seq, hseq, hsize, hmmap⟩
  rw [openmar, hseq] at hopen
  dsimp only at hopen
  rw [Option.map_eq_some_iff] at hopen
  rcases hopen with ⟨⟨result, after⟩, hinit, heq⟩
  cases result with
  | error e => cases heq
  | ok info =>
    obtain rfl := Except.ok.inj heq
    rcases (init_short pagesize hsize hmmap).holds _ _ hinit info rfl with ⟨⟨mm, hmm, hlen⟩, hlong, rfl⟩
    have hlength : (after.impl.file.take leadersize).length = leadersize := List.length_take_of_le hlong
    apply Exists.intro (after.impl.file.take leadersize)
    apply Exists.intro after.impl.size
    constructor
    · constructor
      · change after.impl.mmap.map (fun mm => after.impl.file.take mm.len) = _
        rw [hmm, Option.map_some, hlen]
      · rfl
    · rw [hlength]
      decide
    · exact .inr nofun
    · have hbody : u32 (bodyoff 0) + 0 ≤ leadersize := by decide
      exact .inr (hlength.symm ▸ hbody)

/-- What is opened is read safely if the file is contained. -/
theorem openmar_within {mar : Archive MFile} (hfile : Contained file)
    (hopen : openmar pagesize flags file = some (.ok mar)) : ∃ mem size, Within mar mem size := by
  by_cases hlt : u32 file.length < leadersize
  · exact openmar_short hlt hopen
  · by_cases hleader : HasLeader file
    · rcases openmar_leader pagesize flags hleader with ⟨mm, hlen, hmar⟩
      rw [hmar] at hopen
      obtain rfl := Except.ok.inj (Option.some.inj hopen)
      have ⟨hheader, hbody⟩ := hfile hleader
      apply Exists.intro (mapped file)
      apply Exists.intro (mapped file).length
      constructor
      · constructor
        · exact wholefile_addr flags.writable hlen
        · exact (mapped_length file).symm
      · rw [mapped_length]
        exact u32_lt _
      · exact hheader
      · exact hbody
    · rcases openmar_refused pagesize flags (not_lt.mp hlt) hleader with ⟨e, hmar⟩
      rw [hmar] at hopen
      cases Option.some.inj hopen

end Opening

/-! ## Files that are not read safely -/

section Unsafe

/-- A field that can be got lies in the memory. -/
theorem field_of_defined {σ : Type} [SeqImpl σ] {mar : Archive σ} {mem : List UInt8} {size n : ℕ} (hsees : Sees mar mem size)
    (hsmall : mem.length < 2 ^ 32) (hin : u32 (leadersize + mar.info.hsize) ≤ size) (hreadable : mar.flags.readable = true)
    (hn : n < mar.info.fields) (hdefined : ¬((Reading.get n).call).Undefined mar) :
    ∃ offset, offsetn mem leadersize n = some offset ∧ FieldInside mem (leadersize + offset) := by
  have hopened := (kept_opened mar).sees hsees
  have hopen := openheader_inside hsees hin
  have hfield : ¬(getfield n).Undefined mar := by
    intro hundefined
    apply hdefined
    apply Undefined.bind
    apply (returns_read mar).bind_undefined
    rwa [if_pos hreadable]
  have hget : ∀ {field : FieldPtr}, (getfield n).Returns mar field mar.opened →
      (readable (getfield n)).Returns mar field mar.opened := by
    intro field hreturns
    apply (returns_read mar).bind
    rwa [if_pos hreadable]
  rw [getfield, (returns_read mar).bind_undefined_iff, if_neg (not_le.mpr hn), hopen.bind_undefined_iff] at hfield
  rcases defined_access hfield with ⟨offset, hoffset, hfield⟩
  rcases defined_access hfield with ⟨nsize, hnsize, hfield⟩
  rcases defined_access hfield with ⟨vsize, hvsize, -⟩
  have hreturns : (getfield n).Returns mar
      { name := some (leadersize + offset + nameoff), value := some (leadersize + offset + valueoff nsize)
        size := u32 (vsize - 1) } mar.opened := by
    apply (returns_read mar).bind
    rw [if_neg (not_le.mpr hn)]
    apply hopen.bind
    apply (returns_access hoffset _).bind
    apply (returns_access hnsize _).bind
    exact (returns_access hvsize _).bind (returns_pure _ _)
  rw [Reading.call, (hget hreturns).bind_undefined_iff] at hdefined
  have hvalue : ¬(deref (some (leadersize + offset + valueoff nsize)) (u32 ((vsize : ℤ) - 1))).Undefined mar.opened := by
    intro hundefined
    exact hdefined hundefined.bind
  rw [deref, (memory_sees hopened).bind_undefined_iff] at hvalue
  rcases defined_access hvalue with ⟨bytes, hbytes, -⟩
  have hderef : (deref (some (leadersize + offset + valueoff nsize)) (u32 ((vsize : ℤ) - 1))).Returns mar.opened
      (some bytes) mar.opened :=
    (memory_sees hopened).bind ((returns_access hbytes _).bind (returns_pure _ _))
  dsimp only at hdefined
  rw [hderef.bind_undefined_iff] at hdefined
  have hname : ¬(derefstr (leadersize + offset + nameoff)).Undefined mar.opened := by
    intro hundefined
    exact hdefined hundefined.bind
  rw [derefstr, (memory_sees hopened).bind_undefined_iff] at hname
  have hzero : (0 : UInt8) ∈ mem.drop (leadersize + offset + nameoff) := by
    apply cstr_some_iff.mp
    cases htext : cstr (mem.drop (leadersize + offset + nameoff)) with
    | none =>
      rw [htext] at hname
      exact absurd (undefined_access _) hname
    | some text => exact ⟨text, rfl⟩
  have hbound : leadersize + offset + valueoff nsize + u32 ((vsize : ℤ) - 1) ≤ mem.length := by
    unfold load at hbytes
    split at hbytes
    · assumption
    · cases hbytes
  have hvlt : vsize < 256 ^ 2 := decodeBE_lt hvsize
  have hpos : 0 < vsize := by
    apply Nat.pos_of_ne_zero
    rintro rfl
    have hminus : u32 (((0 : ℕ) : ℤ) - 1) = 2 ^ 32 - 1 := by decide
    rw [hminus] at hbound
    unfold leadersize at hbound
    omega
  have hsize : u32 ((vsize : ℤ) - 1) = vsize - 1 := u32_eq (by omega) (by omega)
  rw [hsize] at hbound
  exact ⟨offset, hoffset, nsize, vsize, hnsize, hvsize, hpos, hbound, hzero⟩

variable {mar : Archive MFile} {mem : List UInt8}

/-- A header in which every field can be got, and which the walk does not leave, holds the fields. -/
theorem header_of_safe (hsees : Sees mar mem mem.length) (hsmall : mem.length < 2 ^ 32) (hhsize : mar.info.hsize < 2 ^ 32)
    (hreadable : mar.flags.readable = true) (hwalking : mar.Walking) (hsafe : ∀ reading : Reading, reading.SafeIn mar) :
    HeaderInside mem mar.info := by
  by_cases hover : mem.length < u32 (leadersize + mar.info.hsize)
  · exact .inl hover
  · apply Or.inr
    intro n hn
    have hcut : Sees (mar.cut (leadersize + mar.info.hsize)) (mem.take (leadersize + mar.info.hsize)) mem.length :=
      ⟨by
        have haddr : mar.seq.impl.addr = some mem := hsees.addr
        change mar.seq.impl.addr.map (List.take _) = _
        rw [haddr, Option.map_some], hsees.size⟩
    have hshort : (mem.take (leadersize + mar.info.hsize)).length < 2 ^ 32 :=
      (List.length_take_le' _ _).trans_lt hsmall
    have hdefined := (hsafe (.get n)).header rfl
    rcases field_of_defined hcut hshort (not_lt.mp hover) hreadable hn hdefined with ⟨offset, hoffset, hinside⟩
    rw [offsetn, Option.bind_eq_bind, Option.bind_eq_some_iff] at hoffset
    rcases hoffset with ⟨ptr, hptr, hoffset⟩
    have hle := walkn_le hptr
    have hall := walkn_append (mem.drop (leadersize + mar.info.hsize)) hptr
    rw [List.take_append_drop] at hall
    have hend := hwalking leadersize mem mar.opened (openheader_inside hsees (not_lt.mp hover)) n hn ptr hall
    have hsame : u32 ((ptr : ℤ) - leadersize) = ptr - leadersize := u32_eq (by omega) (by omega)
    have hoffset' : offset = ptr - leadersize := (Option.some.inj hoffset).symm.trans hsame
    rw [hoffset', Nat.add_sub_cancel' hle] at hinside
    exact ⟨ptr, hptr, hinside⟩

/-- A body that can be had lies in the memory. -/
theorem body_of_safe (hsees : Sees mar mem mem.length) (hreadable : mar.flags.readable = true)
    (hsafe : ∀ reading : Reading, reading.SafeIn mar) : BodyInside mem mar.info := by
  by_cases hover : mem.length < u32 (u32 (bodyoff mar.info.hsize) + mar.info.bsize)
  · exact .inl hover
  · apply Or.inr
    have hdefined := (hsafe .getdata).file
    have hkept : Kept mar (mar.withSeq mar.seq.impl (u32 (bodyoff mar.info.hsize)) mar.info.bsize) := ⟨rfl, rfl, rfl⟩
    have hcontent : getcontent.Returns mar (u32 (bodyoff mar.info.hsize))
        (mar.withSeq mar.seq.impl (u32 (bodyoff mar.info.hsize)) mar.info.bsize) := by
      apply (returns_read mar).bind
      exact (setregion_inside hsees (not_lt.mp hover)).bind (seqaddr_sees (hkept.sees hsees))
    have hdata : getdata.Returns mar (u32 (bodyoff mar.info.hsize), mar.info.bsize)
        (mar.withSeq mar.seq.impl (u32 (bodyoff mar.info.hsize)) mar.info.bsize) := by
      apply (returns_read mar).bind
      rw [if_pos hreadable]
      exact (returns_read mar).bind (hcontent.bind (returns_pure _ _))
    rw [Reading.call, hdata.bind_undefined_iff] at hdefined
    have hvalue : ¬(deref (some (u32 (bodyoff mar.info.hsize))) mar.info.bsize).Undefined
        (mar.withSeq mar.seq.impl (u32 (bodyoff mar.info.hsize)) mar.info.bsize) := by
      intro hundefined
      exact hdefined hundefined.bind
    rw [deref, (memory_sees (hkept.sees hsees)).bind_undefined_iff] at hvalue
    rcases defined_access hvalue with ⟨bytes, hbytes, -⟩
    unfold load at hbytes
    split at hbytes
    · assumption
    · cases hbytes

/-- The leader of a file whose archive is read safely leads nowhere else. -/
theorem contained_of_safe {file : List UInt8} (hsees : Sees mar (mapped file) (mapped file).length)
    (hinfo : mar.info = leader file) (hreadable : mar.flags.readable = true) (hsafe : mar.Safe) :
    HeaderInside (mapped file) (leader file) ∧ BodyInside (mapped file) (leader file) := by
  have hsmall : (mapped file).length < 2 ^ 32 := mapped_length file ▸ u32_lt _
  have hhsize : mar.info.hsize < 2 ^ 32 := by
    rw [hinfo]
    change (decodeBE 4 file hsizeoff).getD 0 < 2 ^ 32
    cases hsize : decodeBE 4 file hsizeoff with
    | none => decide
    | some n => exact decodeBE_lt hsize
  have ⟨hwalking, hreadings⟩ := hsafe [] mar rfl
  have hheader := header_of_safe hsees hsmall hhsize hreadable hwalking hreadings
  have hbody := body_of_safe hsees hreadable hreadings
  rw [hinfo] at hheader hbody
  exact ⟨hheader, hbody⟩

end Unsafe

/-- A leader with one field, an empty header and no body. -/
def onefield : List UInt8 := magic ++ [0, 3, 0, 1, 0, 0, 0, 0, 0, 0, 0, 0]

/-- The archive that is opened from it. -/
def onefieldmar : Archive MFile :=
  { seq := { wholefile false onefield { len := 16, size := 16 } with len := leadersize }
    info := { proto, fields := 1, hsize := 0, bsize := 0 }
    flags := { access := .rdonly, append := false }
    offset := 0 }

end Aug.Mar
