import Aug.Mar.WriteLimits

/-!
# The body at a position

An archive that may be read and written, with a body of any `unsigned` size and a position. Its three calls for the
body act on the two of them as on a file, as long as the sizes and positions are `unsigned` and the environment
grants them.
-/

namespace Aug.Mar

open Aug.Lib

variable {σ : Type} [SizedSeq σ]

/-- The archive is open for reading and writing, has a body and is at a position. -/
structure BodyAt (ar : Archive σ) (front body back : List UInt8) (pos : ℕ) : Prop extends
    Placed ar front body back where
  flags : ar.flags = { access := .rdwr, append := false }
  offset : ar.offset = pos
  posfits : pos < 2 ^ 32

/-- The environment grants every size that is an `unsigned`. -/
def GrantsAll (env : SeqImpl.Env σ) : Prop := ∀ (s : σ) (n : ℕ), n < 2 ^ 32 → LawfulSeq.Grants env s n

variable {env : SeqImpl.Env σ} {ar : Archive σ} {front body back : List UInt8} {pos : ℕ}

theorem BodyAt.writable (h : BodyAt ar front body back pos) : ar.flags.writable = true := by
  rw [h.flags]
  rfl

/-- The region is not part of it, and the position may move. -/
theorem BodyAt.move (h : BodyAt ar front body back pos) (offset len : ℕ) {next : ℕ} (hnext : next < 2 ^ 32) :
    BodyAt { ar.withSeq ar.seq.impl offset len with offset := next } front body back next :=
  ⟨⟨h.holds, h.hsize, h.bsize, h.total⟩, h.flags, rfl, hnext⟩

/-- The size of the archive without its body is that of what is around the body. -/
theorem BodyAt.overhead (h : BodyAt ar front body back pos) :
    SeqImpl.size ar.seq.impl - ar.info.bsize = front.length + back.length := by
  have hsize : SeqImpl.size ar.seq.impl = (front ++ (body ++ back)).length := LawfulSeq.size_of (h.holds h.writable)
  rw [hsize, ← h.bsize, List.length_append, List.length_append]
  omega

/-- What `aug_read_` copies is what the body has there. -/
theorem readbody_placed (h : Placed ar front body back) (hwritable : ar.flags.writable = true) (pos len : ℕ) :
    ∃ offset n, (readbody pos len).Returns ar (readFrom body pos len) (ar.withSeq ar.seq.impl offset n) := by
  by_cases hnone : len = 0 ∨ body.length ≤ pos
  · have hempty : readFrom body pos len = [] := by
      rw [← List.length_eq_zero_iff, readFrom_length]
      omega
    refine ⟨ar.seq.offset, ar.seq.len, (Call.returns_read _).bind ?_⟩
    rw [hempty, if_pos (by rw [← h.bsize]; exact hnone)]
    exact Call.returns_pure _ _
  · have hholds := h.holds hwritable
    obtain ⟨slack, hmemory⟩ := memory_returns (ar.withSeq ar.seq.impl front.length body.length).seq hholds
    refine ⟨front.length, body.length, (Call.returns_read _).bind ?_⟩
    dsimp only
    rw [← h.bsize, if_neg hnone]
    have hregion := h.setregion hwritable
    rw [← h.bsize] at hregion
    have hcontent : getcontent.Returns ar front.length (ar.withSeq ar.seq.impl front.length body.length) := by
      apply (Call.returns_read _).bind
      rw [← h.bsize]
      exact hregion.bind (seqaddr_ends h hwritable)
    have hcut : front ++ (body ++ back) ++ slack = (front ++ body.take pos) ++
        (readFrom body pos len ++ ((body.drop pos).drop len ++ (back ++ slack))) := by
      have hbody : body = body.take pos ++ (readFrom body pos len ++ (body.drop pos).drop len) := by
        rw [readFrom, List.take_append_drop, List.take_append_drop]
      conv_lhs => rw [hbody]
      simp only [List.append_assoc]
    have hload : load (front ++ (body ++ back) ++ slack) (front.length + pos) (min len (body.length - pos)) =
        some (readFrom body pos len) := by
      rw [hcut]
      exact load_append (by rw [List.length_append, List.length_take]; omega) (readFrom_length _ _ _).symm
    exact hcontent.bind ((Returns.onSeq _ hmemory).bind (Call.returns_access hload _))

/-- A read gives what the body has at the position, and moves the position behind it. -/
theorem BodyAt.read (h : BodyAt ar front body back pos) (len : ℕ) :
    ∃ ar', (Mar.read len).Returns ar (readFrom body pos len) ar' ∧
      BodyAt ar' front body back (pos + (readFrom body pos len).length) := by
  have htotal := h.total
  have hposfits := h.posfits
  have hlen : (readFrom body pos len).length = min len (body.length - pos) := readFrom_length _ _ _
  obtain ⟨offset, n, hreturns⟩ := readbody_placed h.toPlaced h.writable pos len
  have hnext : pos + (readFrom body pos len).length < 2 ^ 32 := by omega
  have hmoved : u32 ((pos : ℤ) + (readFrom body pos len).length) = pos + (readFrom body pos len).length :=
    u32_eq (by simp) hnext
  refine ⟨_, ?_, h.move offset n hnext⟩
  have hreadable : ar.flags.readable = true := by
    rw [h.flags]
    rfl
  apply (Call.returns_read _).bind
  dsimp only
  rw [if_pos hreadable]
  apply (Call.returns_read _).bind
  rw [h.offset]
  apply hreturns.bind
  rw [← hmoved, ← h.offset]
  exact (Call.returns_modify _ _).bind (Call.returns_pure _ _)

/-- A write that fits puts the buffer at the position, and moves the position behind it. -/
theorem BodyAt.write (h : BodyAt ar front body back pos) (hgrant : GrantsAll env) {buf : List UInt8}
    (hfits : front.length + max body.length (pos + buf.length) + back.length < 2 ^ 32) :
    ∃ ar', (Mar.write env buf).Returns ar (buf.length : ℤ) ar' ∧
      BodyAt ar' front (overwrite 0 body pos buf) back (pos + buf.length) := by
  have happend : ar.flags.append = false := by rw [h.flags]
  have hoffset : ar.offset = u32 (pos : ℤ) := by rw [h.offset, u32_of_lt h.posfits]
  have hlarge : Fits ar back pos buf.length := by
    rw [Fits, Archive.sizewith, ← h.hsize, ← h.bsize]
    exact hfits
  have hgranted : ¬Refused env ar back pos buf.length := fun hrefused => hrefused.2.2 (hgrant _ _ hrefused.2.1)
  obtain ⟨impl, len, hreturns, hholds⟩ := write_fits h.toPlaced h.writable (fun _ => hoffset)
    (fun hmode => absurd hmode (ne_true_of_eq_false happend)) hgranted hlarge
  refine ⟨_, hreturns, ⟨fun _ => hholds, h.hsize, ?_, ?_⟩, h.flags, rfl, by omega⟩
  · rw [overwrite_length, h.bsize]
    rfl
  · rw [overwrite_length]
    omega

/-- Where a seek is to go. -/
def seektarget (bsize pos : ℕ) (offset whence : ℤ) : Option ℤ :=
  if whence = 0 then some offset
  else if whence = 1 then some (pos + offset)
  else if whence = 2 then some (bsize + offset)
  else none

omit [SizedSeq σ] in
/-- The origins of a seek. -/
theorem mem_seektarget {bsize pos : ℕ} {offset whence target : ℤ} : target ∈ seektarget bsize pos offset whence ↔
    whence = 0 ∧ target = offset ∨ whence = 1 ∧ target = pos + offset ∨ whence = 2 ∧ target = bsize + offset := by
  rw [seektarget]
  split_ifs
  · simp only [Option.mem_def, Option.some.injEq]
    omega
  · simp only [Option.mem_def, Option.some.injEq]
    omega
  · simp only [Option.mem_def, Option.some.injEq]
    omega
  · simp only [Option.mem_def, reduceCtorEq, false_iff]
    omega

/-- A seek in front of the body or from an unknown origin fails, and another one moves the position. -/
theorem BodyAt.seek (h : BodyAt ar front body back pos) {offset whence : ℤ}
    (hoffset : -2 ^ 63 ≤ offset ∧ offset < 2 ^ 63)
    (hfits : ∀ target ∈ seektarget body.length pos offset whence, target < 2 ^ 32) :
    (∃ target : ℕ, seektarget body.length pos offset whence = some (target : ℤ) ∧
      (Mar.seek offset whence).Returns ar (target : ℤ) { ar with offset := target } ∧
      BodyAt { ar with offset := target } front body back target) ∨
    (∀ target ∈ seektarget body.length pos offset whence, target < 0) ∧
      ∃ e, (Mar.seek offset whence).Fails ar e ar := by
  have htotal := h.total
  have hposfits := h.posfits
  have hsettle (target : ℤ) (hsmall : target < 2 ^ 32) :
      (∃ n : ℕ, target = n ∧ (settle target).Returns ar (n : ℤ) { ar with offset := n } ∧
        BodyAt { ar with offset := n } front body back n) ∨
      target < 0 ∧ ∃ e, (settle target).Fails ar e ar := by
    by_cases hneg : target < 0
    · refine .inr ⟨hneg, .erange ("negative file position [" ++ toString (i32 target) ++ "]"), ?_⟩
      rw [settle, if_pos hneg]
      exact Call.fails_fail _ _
    · obtain ⟨n, rfl⟩ := Int.eq_ofNat_of_zero_le (not_lt.mp hneg)
      have hn : n < 2 ^ 32 := by omega
      have hreturns : (settle (n : ℤ)).Returns ar (n : ℤ) { ar with offset := u32 (n : ℤ) } := by
        rw [settle, if_neg hneg]
        exact (Call.returns_modify _ _).bind (Call.returns_pure _ _)
      rw [u32_of_lt hn] at hreturns
      exact .inl ⟨n, rfl, hreturns, ⟨⟨h.holds, h.hsize, h.bsize, h.total⟩, h.flags, rfl, hn⟩⟩
  cases htarget : seektarget body.length pos offset whence with
  | none =>
    obtain ⟨h0, h1, h2⟩ : whence ≠ 0 ∧ whence ≠ 1 ∧ whence ≠ 2 := by
      refine ⟨?_, ?_, ?_⟩ <;> rintro rfl <;> simp [seektarget] at htarget
    refine .inr ⟨by simp, .einval ("invalid whence value [" ++ toString whence ++ "]"), ?_⟩
    rw [Call.Fails, seek_eq, if_neg h0, if_neg h1, if_neg h2]
    exact Call.fails_fail _ _
  | some target =>
    have hsmall : target < 2 ^ 32 := hfits target htarget
    have hseek : Mar.seek offset whence ar = settle target ar := by
      rw [seek_eq]
      unfold seektarget at htarget
      split_ifs at htarget ⊢ with h0 h1 h2
      all_goals cases htarget
      · rfl
      · rw [h.offset, i64_of_range (by omega) (by omega)]
      · rw [← h.bsize, i64_of_range (by omega) (by omega)]
    rcases hsettle target hsmall with ⟨n, rfl, hreturns, hbody⟩ | ⟨hneg, e, hfails⟩
    · refine .inl ⟨n, rfl, ?_, hbody⟩
      rw [Call.Returns, hseek]
      exact hreturns
    · refine .inr ⟨?_, e, ?_⟩
      · rintro _ ⟨⟩
        exact hneg
      · rw [Call.Fails, hseek]
        exact hfails

end Aug.Mar
