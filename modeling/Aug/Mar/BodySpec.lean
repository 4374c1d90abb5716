import Aug.Mar.HeaderSpec

/-!
# The body operations on a represented archive

The body is the end of the sequence. A resize of its region cuts it or extends it with zeros;
the contents are then stored over it.
-/

namespace Aug.Mar

open Aug.Lib

variable {σ : Type} [LawfulSeq σ]

namespace Represents

variable {ar : Archive σ} {ref : Reference}

/-- A changed body represents a changed body; nothing else of the archive moves. -/
theorem replaceBody (h : Represents ar ref) (offset len bsize : ℕ) {impl : σ} {leader body : List UInt8}
    (hleader : leader.length = leadersize)
    (hholds : LawfulSeq.Holds impl (leader ++ (encodeFields ref.fields.entries ++ body)))
    (hsmall : leadersize + ref.hsize + body.length < 2 ^ 31) (hbsize : bsize = body.length) :
    Represents { ar.withSeq impl offset len with info := { ar.info with bsize } }
      { ref with body } :=
  ⟨⟨leader, hleader, hholds⟩, h.fields, h.hsize, hbsize, h.fits, hsmall, h.offset, h.posfits, h.flags⟩

/-- The position of the archive may move. -/
theorem seek (h : Represents ar ref) {pos : ℕ} (hpos : pos < 2 ^ 32) :
    Represents { ar with offset := pos } { ref with pos } :=
  ⟨h.encodes, h.fields, h.hsize, h.bsize, h.fits, h.small, rfl, hpos, h.flags⟩

end Represents

/-- The sequence of an archive is what lies before the body, and the body. -/
theorem body_at {ar : Archive σ} {ref : Reference} (h : Represents ar ref) :
    ∃ leader : List UInt8, leader.length = leadersize ∧
      (leader ++ encodeFields ref.fields.entries).length = leadersize + ref.hsize ∧
      LawfulSeq.Holds ar.seq.impl ((leader ++ encodeFields ref.fields.entries) ++ (ref.body ++ [])) := by
  obtain ⟨leader, hleader, hholds⟩ := h.encodes
  exact ⟨leader, hleader, by simp [hleader, ref.hsize_eq], by simpa using hholds⟩

/-- Selecting the body's region. -/
theorem setbody_at {ar : Archive σ} {ref : Reference} (h : Represents ar ref) :
    (Archive.onSeq (setregion (u32 (bodyoff ar.info.hsize)) ar.info.bsize)).Returns ar ()
      (ar.withSeq ar.seq.impl (leadersize + ref.hsize) ref.body.length) := by
  obtain ⟨leader, -, hfront, hholds⟩ := body_at h
  have hb := h.bounds
  have hoff : u32 (bodyoff ar.info.hsize) = leadersize + ref.hsize := by
    rw [h.hsize]
    exact u32_eq rfl (by omega)
  rw [hoff, h.bsize]
  exact setregion_at _ _ hholds (by simp only [List.length_append] at hfront ⊢; simp; omega)
    (by rw [List.length_append, hfront]; simp; omega)

/-- Storing over a part of the body. -/
theorem pokebody_returns {ar : Archive σ} {ref : Reference} (ptr : ℕ) (front mid back xs : List UInt8)
    (h : Represents ar ref) (hbody : ref.body = front ++ (mid ++ back))
    (hptr : ptr = leadersize + ref.hsize + front.length) (hxs : xs.length = mid.length) :
    ∃ ar', (Archive.onSeq (poke ptr xs)).Returns ar () ar' ∧
      Represents ar' { ref with body := front ++ (xs ++ back) } := by
  obtain ⟨leader, hleader, hfront, hholds⟩ := body_at h
  rw [hbody] at hholds
  obtain ⟨impl, hpoke, hholds'⟩ := poke_returns ar.seq ptr xs
    (a := (leader ++ encodeFields ref.fields.entries) ++ front) (b := mid) (c := back)
    (by simpa using hholds) (by rw [List.length_append, hfront, hptr]) hxs
  have hsmall := h.small
  have hlen : ref.body.length = (front ++ (xs ++ back)).length := by simp [hbody, hxs]
  refine ⟨_, Returns.onSeq ar hpoke, ?_⟩
  exact h.replaceBody ar.seq.offset ar.seq.len ar.info.bsize hleader
    (by simpa using hholds') (by rw [← hlen]; exact hsmall) (by rw [h.bsize, hlen])

/-- A resize that is carried out cuts the body or extends it with zeros. -/
theorem resizebody_returns {env : SeqImpl.Env σ} {ar : Archive σ} {ref : Reference} {n : ℕ}
    (trunc : Bool) (hgrant : Granting env) (h : Represents ar ref)
    (h31 : leadersize + ref.hsize + n < 2 ^ 31) (hcut : n < ref.body.length → trunc = true) :
    ∃ ar', (resizebody env n trunc).Returns ar (leadersize + ref.hsize) ar' ∧
      Represents ar' { ref with body := resizeTo 0 ref.body n } := by
  obtain ⟨leader, hleader, hfront, hholds⟩ := body_at h
  have hb := h.bounds
  have hregion := setbody_at h
  by_cases hn : ref.body.length = n
  · have hsame : resizeTo 0 ref.body n = ref.body := by
      rw [resizeTo_of_le 0 hn.ge, List.take_of_length_le hn.le]
    rw [hsame]
    refine ⟨_, (Call.returns_read _).bind (hregion.bind ?_),
      h.withRegion (leadersize + ref.hsize) ref.body.length⟩
    rw [if_pos (.inl (by rw [h.bsize, hn]))]
    exact Returns.onSeq _ (seqaddr_returns (ar.withSeq ar.seq.impl _ _).seq hholds)
  · obtain ⟨impl, mid, hresize, hmid, hkept, hholds'⟩ := resizeseq_at ar (n := n) hgrant
      hholds (by simp only [List.length_append] at hfront ⊢; simp; omega)
      (by rw [hfront]; simpa using h31)
    rw [hfront] at hresize
    rcases Nat.lt_or_gt_of_ne hn with hgrow | hshrink
    · have hkept' : ref.body <+: mid := by rwa [List.take_of_length_le hgrow.le] at hkept
      obtain ⟨fresh, rfl⟩ := hkept'
      have hfresh : ref.body.length + fresh.length = n := by simpa using hmid
      obtain ⟨impl', hpoke, hholds''⟩ := poke_at ar (leadersize + ref.hsize) n (leadersize + ref.hsize + ar.info.bsize)
        ((leader ++ encodeFields ref.fields.entries) ++ ref.body) fresh []
        (List.replicate (n - ref.body.length) 0) hholds' (by simp) (by rw [List.length_append, hfront, h.bsize]) (by simp; omega)
      rw [resizeTo_of_ge 0 hgrow.le]
      refine ⟨_, (Call.returns_read _).bind (hregion.bind ?_),
        h.replaceBody (leadersize + ref.hsize) n n hleader
          (by simpa using hholds'') (by simp; omega) (by simp; omega)⟩
      rw [if_neg (by rw [h.bsize]; omega)]
      refine hresize.bind ?_
      dsimp only
      rw [if_pos (by rw [h.bsize]; exact hgrow)]
      rw [← h.bsize] at hpoke
      exact hpoke.bind ((Call.returns_modify _ _).bind (Call.returns_pure _ _))
    · have hmid' : mid = ref.body.take n := by
        refine (List.IsPrefix.eq_of_length hkept ?_).symm
        rw [hmid, List.length_take]
        omega
      subst hmid'
      rw [resizeTo_of_le 0 hshrink.le]
      refine ⟨_, (Call.returns_read _).bind (hregion.bind ?_),
        h.replaceBody (leadersize + ref.hsize) n n hleader
          (by simpa using hholds') (by simp; omega) (by simpa using hshrink.le)⟩
      rw [if_neg (by rw [h.bsize]; simp [hcut hshrink]; omega)]
      refine hresize.bind ?_
      dsimp only
      rw [if_neg (by rw [h.bsize]; omega)]
      exact (Call.returns_modify _ _).bind (Call.returns_pure _ _)

/-- A resize below the size of the body that must not cut it leaves it alone. -/
theorem resizebody_keeps (env : SeqImpl.Env σ) {ar : Archive σ} {ref : Reference} {n : ℕ}
    (h : Represents ar ref) (hn : n < ref.body.length) :
    ∃ ar', (resizebody env n false).Returns ar (leadersize + ref.hsize) ar' ∧ Represents ar' ref := by
  obtain ⟨leader, hleader, hfront, hholds⟩ := body_at h
  refine ⟨_, (Call.returns_read _).bind ((setbody_at h).bind ?_),
    h.withRegion (leadersize + ref.hsize) ref.body.length⟩
  rw [if_pos (.inr ⟨by rw [h.bsize]; exact hn, rfl⟩)]
  exact Returns.onSeq _ (seqaddr_returns (ar.withSeq ar.seq.impl _ _).seq hholds)

theorem setcontent_returns {env : SeqImpl.Env σ} {ar : Archive σ} {ref : Reference}
    (data : List UInt8) (hgrant : Granting env) (h : Represents ar ref)
    (h31 : leadersize + ref.hsize + data.length < 2 ^ 31) :
    ∃ ar', (setcontent env data).Returns ar () ar' ∧ Represents ar' { ref with body := data } := by
  obtain ⟨ar1, hresize, h1⟩ := resizebody_returns true hgrant h h31 fun _ => rfl
  obtain ⟨ar2, hpoke, h2⟩ := pokebody_returns (leadersize + ref.hsize) []
    (resizeTo 0 ref.body data.length) [] data h1 (by simp) rfl (by simp)
  exact ⟨ar2, hresize.bind hpoke, by simpa using h2⟩

theorem truncate_returns {env : SeqImpl.Env σ} {ar : Archive σ} {ref : Reference} {n : ℕ}
    (hgrant : Granting env) (h : Represents ar ref) (h31 : leadersize + ref.hsize + n < 2 ^ 31) :
    ∃ ar', (truncate env n).Returns ar () ar' ∧
      Represents ar' { ref with body := resizeTo 0 ref.body n } := by
  obtain ⟨ar1, hresize, h1⟩ := resizebody_returns true hgrant h h31 fun _ => rfl
  exact ⟨ar1, hresize.bind (Call.returns_pure _ _), h1⟩

/-- Writing at a position: up to the end of the body, or past it. -/
theorem writebody_returns {env : SeqImpl.Env σ} {ar : Archive σ} {ref : Reference} (pos : ℕ)
    {buf : List UInt8} (hgrant : Granting env) (h : Represents ar ref)
    (h31 : leadersize + ref.hsize + (overwrite 0 ref.body pos buf).length < 2 ^ 31) :
    ∃ ar', (writebody env pos buf).Returns ar (buf.length : ℤ) ar' ∧
      Represents ar' { ref with body := overwrite 0 ref.body pos buf } := by
  rw [overwrite_length] at h31
  have hsize : u32 ((pos : ℤ) + buf.length) = pos + buf.length := u32_eq (by simp) (by omega)
  rcases Nat.lt_or_ge (pos + buf.length) ref.body.length with hn | hn
  · obtain ⟨ar1, hresize, h1⟩ := resizebody_keeps env h hn
    obtain ⟨ar2, hpoke, h2⟩ := pokebody_returns (leadersize + ref.hsize + pos)
      (ref.body.take pos) ((ref.body.drop pos).take buf.length) (ref.body.drop (pos + buf.length)) buf h1
      (by rw [← List.drop_drop, List.take_append_drop, List.take_append_drop])
      (by rw [List.length_take]; omega) (by simp; omega)
    refine ⟨ar2, ?_, ?_⟩
    · rw [writebody, hsize]
      exact hresize.bind (hpoke.bind (Call.returns_pure _ _))
    · rwa [overwrite, resizeTo_of_le 0 (by omega)]
  · obtain ⟨ar1, hresize, h1⟩ := resizebody_returns (n := pos + buf.length) false hgrant h (by omega)
      fun hlt => absurd hlt (by omega)
    obtain ⟨ar2, hpoke, h2⟩ := pokebody_returns (leadersize + ref.hsize + pos)
      ((resizeTo 0 ref.body (pos + buf.length)).take pos)
      ((resizeTo 0 ref.body (pos + buf.length)).drop pos) [] buf h1
      (by simp) (by rw [List.length_take, resizeTo_length]; change _ = leadersize + ref.hsize + _; omega)
      (by simp)
    refine ⟨ar2, ?_, ?_⟩
    · rw [writebody, hsize]
      exact hresize.bind (hpoke.bind (Call.returns_pure _ _))
    · rw [overwrite_of_le 0 hn]
      simpa using h2

/-- Reading at a position gives what is there, up to the end of the body. -/
theorem readbody_returns {ar : Archive σ} {ref : Reference} (pos len : ℕ) (h : Represents ar ref) :
    ∃ ar', (readbody pos len).Returns ar (readFrom ref.body pos len) ar' ∧ Represents ar' ref := by
  by_cases hnone : len = 0 ∨ ref.body.length ≤ pos
  · refine ⟨ar, (Call.returns_read _).bind ?_, h⟩
    have hempty : readFrom ref.body pos len = [] := by
      rw [← List.length_eq_zero_iff, readFrom_length]
      omega
    rw [hempty, if_pos (by rw [h.bsize]; exact hnone)]
    exact Call.returns_pure _ _
  · obtain ⟨leader, hleader, hfront, hholds⟩ := body_at h
    have hregion := setbody_at h
    obtain ⟨slack, hmemory⟩ := memory_returns
      (ar.withSeq ar.seq.impl (leadersize + ref.hsize) ref.body.length).seq hholds
    refine ⟨_, (Call.returns_read _).bind ?_, h.withRegion (leadersize + ref.hsize) ref.body.length⟩
    dsimp only
    rw [h.bsize, if_neg hnone]
    have haddr := Returns.onSeq _ (seqaddr_returns
      (ar.withSeq ar.seq.impl (leadersize + ref.hsize) ref.body.length).seq hholds)
    refine (((Call.returns_read _).bind (hregion.bind haddr))).bind ((Returns.onSeq _ hmemory).bind ?_)
    refine Call.returns_access ?_ _
    have hcut : ref.body = ref.body.take pos ++ (readFrom ref.body pos len ++
        (ref.body.drop pos).drop len) := by
      rw [readFrom, List.take_append_drop, List.take_append_drop]
    have hload := load_append (a := (leader ++ encodeFields ref.fields.entries) ++ ref.body.take pos)
      (b := readFrom ref.body pos len) (c := (ref.body.drop pos).drop len ++ slack)
      (i := leadersize + ref.hsize + pos) (n := min len (ref.body.length - pos))
      (by rw [List.length_append, hfront, List.length_take]; omega) (by rw [readFrom_length])
    change load _ (leadersize + ref.hsize + pos) _ = _
    rw [← hload]
    congr 1
    conv_lhs => rw [hcut]
    simp

end Aug.Mar
