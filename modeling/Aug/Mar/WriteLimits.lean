import Aug.Mar.HeaderSpec
import Aug.Mar.SeqSizes

/-!
# Writes near the limits

A position is kept as an `unsigned`, and the end of a write is the `unsigned` sum of the position and the length of
the buffer, so that neither need be what the caller asked for. A write is as the caller expects exactly where the
archive with what is written still has an `unsigned` size, or where the resize is refused by a back end that then
stays as it was.
-/

namespace Aug.Mar

open Aug.Lib

variable {σ : Type} [SizedSeq σ]

/-- The bytes of the sequence, unless its base address is null. -/
def Archive.contents (ar : Archive σ) : Option (List UInt8) :=
  (SeqImpl.addr ar.seq.impl).map (·.take (SeqImpl.size ar.seq.impl))

/-- The body lies behind the leader and the header. The sizes of an archive are `unsigned`. -/
structure Placed (ar : Archive σ) (front body back : List UInt8) : Prop where
  holds : ar.flags.writable = true → LawfulSeq.Holds ar.seq.impl (front ++ (body ++ back))
  hsize : front.length = bodyoff ar.info.hsize
  bsize : body.length = ar.info.bsize
  total : front.length + body.length + back.length < 2 ^ 32

/-- The archive and its position are unchanged. -/
structure Unmoved (ar ar' : Archive σ) : Prop where
  contents : ar'.contents = ar.contents
  info : ar'.info = ar.info
  flags : ar'.flags = ar.flags
  offset : ar'.offset = ar.offset

/-- The buffer is in the body from a position on, behind zeros if the body did not reach so far, and the position is
behind the buffer. -/
structure Written (ar ar' : Archive σ) (front body back buf : List UInt8) (pos : ℕ) : Prop where
  contents : ar'.contents = some (front ++ (overwrite 0 body pos buf ++ back))
  info : ar'.info = { ar.info with bsize := max body.length (pos + buf.length) }
  flags : ar'.flags = ar.flags
  offset : ar'.offset = pos + buf.length

/-- A write stays within the storage. If it fails nothing has changed, and otherwise the buffer has been written. -/
def WriteMeets (env : SeqImpl.Env σ) (ar : Archive σ) (front body back buf : List UInt8) (pos : ℕ) : Prop :=
  (write env buf).Runs ar fun result ar' =>
    match result with
    | .error _ => Unmoved ar ar'
    | .ok n => n = buf.length ∧ Written ar ar' front body back buf pos

/-- Where a write takes place: behind the body if the archive is open for appending. -/
def Archive.writepos (ar : Archive σ) (pos : ℤ) : ℕ := if ar.flags.append then ar.info.bsize else pos.toNat

/-- The size of the sequence with a body of another size. -/
def Archive.sizewith (ar : Archive σ) (back : List UInt8) (bsize : ℕ) : ℕ :=
  bodyoff ar.info.hsize + bsize + back.length

/-- The size of the body that a write asks for. -/
def writesize (pos n : ℕ) : ℕ := u32 (u32 pos + n)

/-- The environment does not grant the size that a write asks for. -/
def Refused (env : SeqImpl.Env σ) (ar : Archive σ) (back : List UInt8) (pos n : ℕ) : Prop :=
  ar.info.bsize < writesize pos n ∧ ar.sizewith back (writesize pos n) < 2 ^ 32 ∧
    ¬LawfulSeq.Grants env ar.seq.impl (ar.sizewith back (writesize pos n))

/-- The archive still has an `unsigned` size with a body that reaches to the end of the buffer. -/
def Fits (ar : Archive σ) (back : List UInt8) (pos n : ℕ) : Prop :=
  ar.sizewith back (max ar.info.bsize (pos + n)) < 2 ^ 32

variable {env : SeqImpl.Env σ} {ar ar' : Archive σ} {front body back buf : List UInt8} {pos : ℕ}

/-- The contents of an archive in use. -/
theorem contents_of {bs : List UInt8} (h : LawfulSeq.Holds ar.seq.impl bs) : ar.contents = some bs := by
  obtain ⟨slack, haddr⟩ := LawfulSeq.addr_of h
  rw [Archive.contents, haddr, Option.map_some, LawfulSeq.size_of h, List.take_left]

/-- No more bytes are there than the size says. -/
theorem length_contents {bs : List UInt8} (h : ar.contents = some bs) :
    bs.length ≤ SeqImpl.size ar.seq.impl := by
  obtain ⟨mem, -, rfl⟩ := Option.map_eq_some_iff.mp h
  rw [List.length_take]
  omega

theorem writesize_lt (pos n : ℕ) : writesize pos n < 2 ^ 32 := u32_lt _

/-- Without a wrap the size is what it should be. -/
theorem writesize_of_lt {n : ℕ} (h : pos + n < 2 ^ 32) : writesize pos n = pos + n := by
  have hpos : u32 (pos : ℤ) = pos := u32_of_lt (by omega)
  rw [writesize, hpos]
  exact u32_eq (by simp) h

omit [SizedSeq σ] in
/-- A seek settles the position that its origin says. -/
theorem seek_eq (offset whence : ℤ) (ar : Archive σ) : seek offset whence ar =
    (if whence = 0 then settle offset else if whence = 1 then settle (i64 (ar.offset + offset))
      else if whence = 2 then settle (i64 (ar.info.bsize + offset))
      else Call.fail (.einval ("invalid whence value [" ++ toString whence ++ "]"))) ar :=
  rfl

omit [SizedSeq σ] in
/-- A seek that returns leaves a position that is not negative, as an `unsigned`. -/
theorem seek_returns {offset whence p : ℤ} (h : (seek offset whence).Returns ar p ar') :
    0 ≤ p ∧ ar' = { ar with offset := u32 p } := by
  have hsettle : ∀ q, (settle q).Returns ar p ar' → 0 ≤ p ∧ ar' = { ar with offset := u32 p } := by
    intro q hq
    rw [settle] at hq
    split_ifs at hq with hneg
    · cases hq
    · cases hq
      exact ⟨not_lt.mp hneg, rfl⟩
  rw [Call.Returns, seek_eq] at h
  split_ifs at h
  · exact hsettle _ h
  · exact hsettle _ h
  · exact hsettle _ h
  · cases h

/-- The region of the body is selected. -/
theorem Placed.setregion (h : Placed ar front body back) (hwritable : ar.flags.writable = true) :
    (Archive.onSeq (setregion (u32 (bodyoff ar.info.hsize)) ar.info.bsize)).Returns ar ()
      (ar.withSeq ar.seq.impl front.length body.length) := by
  have htotal := h.total
  have hoff : u32 (bodyoff ar.info.hsize) = front.length := by
    rw [← h.hsize]
    exact u32_of_lt (by omega)
  rw [hoff, ← h.bsize]
  exact setregion_at _ _ (h.holds hwritable) (by simp only [List.length_append]; omega)
    (by simp only [List.length_append]; omega)

/-- A resize to a size that wraps around does not fail, and leaves what is left of that size. -/
theorem resizeseq_wraps (seq : Seq σ) {a b c : List UInt8} {n : ℕ}
    (hholds : LawfulSeq.Holds seq.impl (a ++ (b ++ c))) (hoffset : seq.offset = a.length) (hlen : seq.len = b.length)
    (hbound : a.length + b.length + c.length < 2 ^ 32) (hn : n < 2 ^ 32) (hwrap : 2 ^ 32 ≤ a.length + n + c.length) :
    (resizeseq env n).Ends seq fun result seq' => (∃ ptr, result = .ok ptr) ∧
      SeqImpl.size seq'.impl + 2 ^ 32 = a.length + n + c.length := by
  have hbytes : (a ++ (b ++ c)).length = a.length + b.length + c.length := by
    simp only [List.length_append]
    omega
  have hsize : SeqImpl.size seq.impl = a.length + b.length + c.length := (LawfulSeq.size_of hholds).trans hbytes
  have htail : u32 ((SeqImpl.size seq.impl : ℕ) - (seq.offset + seq.len : ℤ)) = c.length :=
    u32_eq (by omega) (by omega)
  have hrest : u32 ((SeqImpl.size seq.impl : ℕ) + (n - seq.len : ℤ)) = a.length + n + c.length - 2 ^ 32 := by
    unfold u32
    omega
  have himpl : (SeqImpl.resize env (a.length + n + c.length - 2 ^ 32) c.length).Ends seq.impl fun result impl =>
      result = .ok () ∧ SeqImpl.size impl + 2 ^ 32 = a.length + n + c.length := by
    constructor
    intro result impl hresult
    have hok := (SizedSeq.resize_shrink env c.length hholds (by omega)).holds result impl hresult
    have hleft := (SizedSeq.resize_size env seq.impl _ _).holds result impl hresult hok
    exact ⟨hok, by omega⟩
  have hon : (Seq.onImpl (SeqImpl.resize env (a.length + n + c.length - 2 ^ 32) c.length)).Ends seq fun result seq' =>
      result = .ok () ∧ SeqImpl.size seq'.impl + 2 ^ 32 = a.length + n + c.length := by
    apply himpl.zoom.imp
    rintro result _ ⟨impl, rfl, hresult⟩
    exact hresult
  apply (Call.returns_read seq).bind_ends
  dsimp only
  rw [htail, hrest]
  apply hon.bind (fun _ _ h => nomatch h.1)
  intro _ resized hresized
  exact Call.ends_of_eq ((Call.returns_modify _ _).bind (Call.returns_pure _ _)) ⟨⟨_, rfl⟩, hresized.2⟩

/-- A store leaves the size and the leader, wherever it goes. -/
theorem pokesize_ends (ptr : ℕ) (xs : List UInt8) (ar : Archive σ) :
    (Archive.onSeq (poke ptr xs)).Ends ar fun result ar' => result = .ok () ∧ ar'.info = ar.info ∧
      SeqImpl.size ar'.seq.impl = SeqImpl.size ar.seq.impl := by
  have hpoke : (poke ptr xs).Ends ar.seq fun result seq' =>
      result = .ok () ∧ SeqImpl.size seq'.impl = SeqImpl.size ar.seq.impl := by
    apply (Call.returns_read _).bind_ends
    apply Call.access_bind_ends
    intro impl himpl
    exact Call.ends_of_eq (Call.returns_modify _ _) ⟨rfl, SizedSeq.poke_size himpl⟩
  apply hpoke.zoom.imp
  rintro result _ ⟨seq', rfl, hresult, hsize⟩
  exact ⟨hresult, rfl, hsize⟩

/-- The size that the sequence has been given for a body, which may have wrapped. -/
def SizeAsked (ar : Archive σ) (back : List UInt8) (size : ℕ) : Prop :=
  ∃ bsize < 2 ^ 32, ar.sizewith back bsize < 2 ^ 32 ∧ size = ar.sizewith back bsize ∨
    size + 2 ^ 32 = ar.sizewith back bsize

/-- The size of an archive in use. -/
theorem Placed.size (h : Placed ar front body back) (hwritable : ar.flags.writable = true) :
    SeqImpl.size ar.seq.impl = ar.sizewith back ar.info.bsize := by
  rw [LawfulSeq.size_of (h.holds hwritable), Archive.sizewith, ← h.hsize, ← h.bsize]
  simp only [List.length_append]
  omega

/-- A body that grows does so in a resize that returns with the size asked for, unless it is refused. -/
theorem resize_ends (h : Placed ar front body back) (hwritable : ar.flags.writable = true) {n : ℕ}
    (hn : n < 2 ^ 32)
    (hgrant : ar.sizewith back n < 2 ^ 32 → LawfulSeq.Grants env ar.seq.impl (ar.sizewith back n)) :
    (Archive.onSeq (resizeseq env n)).Ends (ar.withSeq ar.seq.impl front.length body.length)
      fun result ar' => (∃ ptr, result = .ok ptr) ∧ ar'.info = ar.info ∧
        SizeAsked ar back (SeqImpl.size ar'.seq.impl) := by
  have htotal := h.total
  have hholds := h.holds hwritable
  have hsize := h.size hwritable
  have hwith : ar.sizewith back n = front.length + n + back.length := by rw [Archive.sizewith, ← h.hsize]
  have hlen : (front ++ (body ++ back)).length = front.length + body.length + back.length := by
    simp only [List.length_append]
    omega
  rw [hwith] at hgrant
  by_cases hfits : front.length + n + back.length < 2 ^ 32
  · obtain ⟨impl, mid, hreturns, hmid, -, hholds'⟩ := resizeseq_returns
      (ar.withSeq ar.seq.impl front.length body.length).seq hholds rfl rfl (by rw [hlen]; exact htotal) hfits
      (hgrant hfits)
    apply Call.ends_of_eq (Returns.onSeq _ hreturns)
    refine ⟨⟨front.length, rfl⟩, rfl, n, hn, .inl ⟨by rw [hwith]; exact hfits, ?_⟩⟩
    have himpl : SeqImpl.size impl = (front ++ (mid ++ back)).length := LawfulSeq.size_of hholds'
    rw [List.length_append, List.length_append, hmid] at himpl
    rw [hwith]
    exact himpl.trans (by omega)
  · apply (resizeseq_wraps (ar.withSeq ar.seq.impl front.length body.length).seq hholds rfl rfl htotal hn
      (not_lt.mp hfits)).zoom.imp
    rintro result _ ⟨seq, rfl, hresult, hwrapped⟩
    refine ⟨hresult, rfl, n, hn, .inr ?_⟩
    rw [hwith]
    exact hwrapped

/-- The body of an archive in use is found where it is. -/
theorem seqaddr_ends (h : Placed ar front body back) (hwritable : ar.flags.writable = true) :
    (Archive.onSeq seqaddr).Returns (ar.withSeq ar.seq.impl front.length body.length) front.length
      (ar.withSeq ar.seq.impl front.length body.length) :=
  Returns.onSeq _ (seqaddr_returns (ar.withSeq ar.seq.impl front.length body.length).seq (h.holds hwritable))

/-- The body is resized, or left as it is, unless it is refused. -/
theorem resizebody_ends (h : Placed ar front body back) (hwritable : ar.flags.writable = true) {n : ℕ}
    (hn : n < 2 ^ 32) (hgrant : ar.info.bsize < n → ar.sizewith back n < 2 ^ 32 →
      LawfulSeq.Grants env ar.seq.impl (ar.sizewith back n)) :
    (resizebody env n false).Ends ar fun result ar' => (∃ ptr, result = .ok ptr) ∧
      SizeAsked ar back (SeqImpl.size ar'.seq.impl) := by
  have htotal := h.total
  have hfits : ar.sizewith back ar.info.bsize < 2 ^ 32 := by
    rw [Archive.sizewith, ← h.hsize, ← h.bsize]
    exact htotal
  have hbsize : ar.info.bsize < 2 ^ 32 := by
    rw [← h.bsize]
    omega
  apply (Call.returns_read ar).bind_ends
  apply (h.setregion hwritable).bind_ends
  by_cases hkeep : ar.info.bsize = n ∨ (n < ar.info.bsize ∧ false = false)
  · rw [if_pos hkeep]
    exact Call.ends_of_eq (seqaddr_ends h hwritable) ⟨⟨_, rfl⟩, _, hbsize, .inl ⟨hfits, h.size hwritable⟩⟩
  · have hgrow : ar.info.bsize < n := by
      obtain ⟨hne, hcut⟩ := not_or.mp hkeep
      have hle : ¬n < ar.info.bsize := fun hlt => hcut ⟨hlt, rfl⟩
      omega
    rw [if_neg hkeep]
    apply (resize_ends h hwritable hn (hgrant hgrow)).bind (fun _ _ h => nomatch h.1)
    intro ptr resized hresized
    dsimp only
    rw [if_pos hgrow]
    apply (pokesize_ends (ptr + ar.info.bsize) (List.replicate (n - ar.info.bsize) 0) resized).bind (fun _ _ h => nomatch h.1)
    intro _ zeroed hzeroed
    have hasked := hresized.2.2
    rw [← hzeroed.2.2] at hasked
    apply (Call.returns_modify (fun mar : Archive σ => { mar with info := { ar.info with bsize := n } }) zeroed).bind_ends
    exact Call.ends_of_eq (Call.returns_pure _ _) ⟨⟨ptr, rfl⟩, hasked⟩

/-- A write that is not refused does not fail, and the sequence has the size that was asked for. -/
theorem writebody_ends (h : Placed ar front body back) (hwritable : ar.flags.writable = true)
    (hgrant : ¬Refused env ar back pos buf.length) :
    (writebody env (u32 pos) buf).Ends ar fun result ar' =>
      (∃ n, result = .ok n) ∧ SizeAsked ar back (SeqImpl.size ar'.seq.impl) := by
  have hgranted : ar.info.bsize < writesize pos buf.length →
      ar.sizewith back (writesize pos buf.length) < 2 ^ 32 →
      LawfulSeq.Grants env ar.seq.impl (ar.sizewith back (writesize pos buf.length)) := by
    intro hgrow hfits
    by_contra hrefused
    exact hgrant ⟨hgrow, hfits, hrefused⟩
  apply (resizebody_ends h hwritable (writesize_lt pos buf.length) hgranted).bind (fun _ _ h => nomatch h.1)
  intro ptr resized hresized
  apply (pokesize_ends (ptr + u32 pos) buf resized).bind (fun _ _ h => nomatch h.1)
  intro _ stored hstored
  apply Call.ends_of_eq (Call.returns_pure _ _)
  have hasked := hresized.2
  rw [← hstored.2.2] at hasked
  exact ⟨⟨_, rfl⟩, hasked⟩

/-- The archive with a body of another size in a sequence that has changed. -/
def Archive.withBody (ar : Archive σ) (impl : σ) (offset len bsize : ℕ) : Archive σ :=
  { ar with seq := { impl, offset, len }, info := { ar.info with bsize } }

/-- A body that is not to be cut is left as it is or filled up. -/
theorem resizebody_fits (h : Placed ar front body back) (hwritable : ar.flags.writable = true) {n : ℕ}
    (hfits : ar.sizewith back (max ar.info.bsize n) < 2 ^ 32)
    (hgrant : ar.info.bsize < n → LawfulSeq.Grants env ar.seq.impl (ar.sizewith back n)) :
    ∃ impl len, (resizebody env n false).Returns ar front.length
        (ar.withBody impl front.length len (max ar.info.bsize n)) ∧
      LawfulSeq.Holds impl (front ++ (resizeTo 0 body (max ar.info.bsize n) ++ back)) := by
  have hholds := h.holds hwritable
  have htotal := h.total
  by_cases hgrow : ar.info.bsize < n
  · have hmax : max ar.info.bsize n = n := max_eq_right hgrow.le
    have hwith : ar.sizewith back n = front.length + n + back.length := by rw [Archive.sizewith, ← h.hsize]
    have hlen : (front ++ (body ++ back)).length = front.length + body.length + back.length := by
      simp only [List.length_append]
      omega
    have hgranted := hgrant hgrow
    rw [hmax, hwith] at hfits
    rw [hwith] at hgranted
    obtain ⟨impl, mid, hresize, hmid, hkept, hholds'⟩ := resizeseq_returns
      (ar.withSeq ar.seq.impl front.length body.length).seq hholds rfl rfl (by rw [hlen]; exact htotal) hfits hgranted
    have hbody : body.length < n := by rw [h.bsize]; exact hgrow
    rw [List.take_of_length_le hbody.le] at hkept
    obtain ⟨fresh, rfl⟩ := hkept
    have hfresh : body.length + fresh.length = n := by simpa using hmid
    obtain ⟨impl', hpoke, hholds''⟩ := poke_at ar front.length n (front.length + ar.info.bsize) (front ++ body) fresh back
      (List.replicate (n - ar.info.bsize) 0) hholds' (by simp) (by rw [List.length_append, h.bsize])
      (by rw [List.length_replicate, ← h.bsize]; omega)
    refine ⟨impl', n, (Call.returns_read ar).bind ((h.setregion hwritable).bind ?_), ?_⟩
    · rw [if_neg (by omega)]
      refine (Returns.onSeq _ hresize).bind ?_
      dsimp only
      rw [if_pos hgrow, hmax]
      exact hpoke.bind ((Call.returns_modify _ _).bind (Call.returns_pure _ _))
    · rw [hmax, resizeTo_of_ge 0 hbody.le, h.bsize]
      simpa using hholds''
  · have hmax : max ar.info.bsize n = ar.info.bsize := max_eq_left (not_lt.mp hgrow)
    have hsame : resizeTo 0 body ar.info.bsize = body := by
      rw [← h.bsize, resizeTo_of_le 0 le_rfl, List.take_length]
    rw [hmax, hsame]
    refine ⟨ar.seq.impl, body.length, (Call.returns_read ar).bind ((h.setregion hwritable).bind ?_), hholds⟩
    have hkeep : ar.info.bsize = n ∨ (n < ar.info.bsize ∧ false = false) :=
      (Nat.lt_or_eq_of_le (not_lt.mp hgrow)).elim (fun hlt => .inr ⟨hlt, rfl⟩) fun heq => .inl heq.symm
    rw [if_pos hkeep]
    exact seqaddr_ends h hwritable

/-- A write that fits and is not refused puts the buffer where it belongs. -/
theorem writebody_fits (h : Placed ar front body back) (hwritable : ar.flags.writable = true)
    (hfits : Fits ar back pos buf.length) (hgrant : ¬Refused env ar back pos buf.length) :
    ∃ impl len, (writebody env (u32 pos) buf).Returns ar (buf.length : ℤ)
        (ar.withBody impl front.length len (max ar.info.bsize (pos + buf.length))) ∧
      LawfulSeq.Holds impl (front ++ (overwrite 0 body pos buf ++ back)) := by
  have hbound : pos + buf.length < 2 ^ 32 := by
    have hsum : ar.sizewith back (max ar.info.bsize (pos + buf.length)) < 2 ^ 32 := hfits
    rw [Archive.sizewith] at hsum
    omega
  have hsize := writesize_of_lt hbound
  have hgranted : ar.info.bsize < pos + buf.length →
      LawfulSeq.Grants env ar.seq.impl (ar.sizewith back (pos + buf.length)) := by
    intro hgrow
    by_contra hnot
    apply hgrant
    have hlarge : ar.sizewith back (max ar.info.bsize (pos + buf.length)) < 2 ^ 32 := hfits
    rw [max_eq_right hgrow.le] at hlarge
    rw [Refused, hsize]
    exact ⟨hgrow, hlarge, hnot⟩
  obtain ⟨impl, len, hresize, hholds⟩ := resizebody_fits h hwritable hfits hgranted
  let filled := resizeTo 0 body (max ar.info.bsize (pos + buf.length))
  have hfilled : filled.length = max ar.info.bsize (pos + buf.length) := resizeTo_length 0 _ _
  have hbytes : front ++ (filled ++ back) = (front ++ filled.take pos) ++
      ((filled.drop pos).take buf.length ++ (filled.drop (pos + buf.length) ++ back)) := by
    rw [← List.drop_drop, List.append_assoc front, ← List.append_assoc ((filled.drop pos).take _), List.take_append_drop,
      ← List.append_assoc (filled.take pos), List.take_append_drop]
  obtain ⟨impl', hpoke, hholds'⟩ := poke_at { ar with info := { ar.info with bsize := max ar.info.bsize (pos + buf.length) } }
    front.length len (front.length + pos) (front ++ filled.take pos) ((filled.drop pos).take buf.length)
    (filled.drop (pos + buf.length) ++ back) buf hholds hbytes
    (by rw [List.length_append, List.length_take]; omega) (by rw [List.length_take, List.length_drop]; omega)
  refine ⟨impl', len, ?_, ?_⟩
  · have hpos : u32 (pos : ℤ) = pos := u32_of_lt (by omega)
    have hcall : writebody env (u32 pos) buf = (resizebody env (pos + buf.length) false >>= fun ptr =>
        Archive.onSeq (poke (ptr + pos) buf) >>= fun _ => pure (buf.length : ℤ)) := by
      rw [writebody, ← hsize, writesize, hpos]
    rw [hcall]
    exact hresize.bind (hpoke.bind (Call.returns_pure _ _))
  · rw [overwrite_eq_splice, h.bsize]
    simpa using hholds'

/-- A resize that is refused fails in the back end. -/
theorem resizeseq_refused (seq : Seq σ) {a b c : List UInt8} {n : ℕ}
    (hholds : LawfulSeq.Holds seq.impl (a ++ (b ++ c))) (hoffset : seq.offset = a.length) (hlen : seq.len = b.length)
    (hgrow : b.length < n) (h32 : a.length + n + c.length < 2 ^ 32)
    (hrefused : ¬LawfulSeq.Grants env seq.impl (a.length + n + c.length)) :
    ∃ e impl, (resizeseq env n).Fails seq e { seq with impl } ∧
      if SizedSeq.keeps σ then LawfulSeq.Holds impl (a ++ (b ++ c)) else SeqImpl.addr impl = none := by
  have hbytes : (a ++ (b ++ c)).length = a.length + b.length + c.length := by
    simp only [List.length_append]
    omega
  have hsize : SeqImpl.size seq.impl = a.length + b.length + c.length := (LawfulSeq.size_of hholds).trans hbytes
  have htail : u32 ((SeqImpl.size seq.impl : ℕ) - (seq.offset + seq.len : ℤ)) = c.length :=
    u32_eq (by omega) (by omega)
  have htotal : u32 ((SeqImpl.size seq.impl : ℕ) + (n - seq.len : ℤ)) = a.length + n + c.length :=
    u32_eq (by omega) h32
  obtain ⟨e, impl, hfails, hleft⟩ := SizedSeq.resize_refused c.length hholds (by omega) hrefused
  refine ⟨e, impl, (Call.returns_read seq).bind_fails ?_, hleft⟩
  dsimp only
  rw [htail, htotal]
  exact hfails.zoom.bind

/-- A write that is refused leaves the archive, unless the back end loses its address. -/
theorem writebody_refused (h : Placed ar front body back) (hwritable : ar.flags.writable = true)
    (hrefused : Refused env ar back pos buf.length) :
    ∃ e ar', (writebody env (u32 pos) buf).Fails ar e ar' ∧
      (ar'.contents = if SizedSeq.keeps σ then ar.contents else none) ∧ ar'.info = ar.info ∧ ar'.flags = ar.flags ∧
      ar'.offset = ar.offset := by
  obtain ⟨hgrow, hfits, hnot⟩ := hrefused
  have hholds := h.holds hwritable
  have hwith : ar.sizewith back (writesize pos buf.length) = front.length + writesize pos buf.length + back.length := by
    rw [Archive.sizewith, ← h.hsize]
  rw [hwith] at hfits hnot
  obtain ⟨e, impl, hfails, hleft⟩ := resizeseq_refused (ar.withSeq ar.seq.impl front.length body.length).seq hholds rfl rfl
    (by rw [h.bsize]; exact hgrow) hfits hnot
  refine ⟨e, ar.withSeq impl front.length body.length, Call.Fails.bind ((Call.returns_read ar).bind_fails
    ((h.setregion hwritable).bind_fails ?_)), ?_, rfl, rfl, rfl⟩
  · have hsize : u32 ((u32 (pos : ℤ) : ℤ) + buf.length) = writesize pos buf.length := rfl
    have hkeep : ¬(ar.info.bsize = writesize pos buf.length ∨ writesize pos buf.length < ar.info.bsize ∧ false = false) := by
      rintro (heq | ⟨hlt, -⟩)
      · exact absurd heq (Nat.ne_of_lt hgrow)
      · exact absurd hlt (Nat.lt_asymm hgrow)
    rw [hsize, if_neg hkeep]
    exact hfails.zoom.bind
  · cases hkeeps : SizedSeq.keeps σ with
    | true =>
      rw [hkeeps, if_pos rfl] at hleft
      have hsame : LawfulSeq.Holds (ar.withSeq impl front.length body.length).seq.impl (front ++ (body ++ back)) := hleft
      rw [if_pos rfl, contents_of hholds, contents_of hsame]
    | false =>
      rw [hkeeps, if_neg Bool.false_ne_true] at hleft
      have hnone : SeqImpl.addr (ar.withSeq impl front.length body.length).seq.impl = none := hleft
      rw [if_neg Bool.false_ne_true, Archive.contents, hnone]
      rfl

/-- What has been written fits. -/
theorem Written.fits (h : Placed ar front body back) (hwritten : Written ar ar' front body back buf pos)
    (hasked : SizeAsked ar back (SeqImpl.size ar'.seq.impl)) : Fits ar back pos buf.length := by
  have hlen := length_contents hwritten.contents
  rw [List.length_append, List.length_append, overwrite_length, h.bsize, h.hsize] at hlen
  obtain ⟨bsize, hbsize, ⟨hfits, hsize⟩ | hsize⟩ := hasked
  · rw [Fits, Archive.sizewith]
    rw [Archive.sizewith] at hfits hsize
    omega
  · rw [Archive.sizewith] at hsize
    omega

omit [SizedSeq σ] in
/-- A seek to the end. -/
theorem seek_end (h : ar.info.bsize < 2 ^ 32) :
    (seek 0 2).Returns ar (ar.info.bsize : ℤ) { ar with offset := u32 (ar.info.bsize : ℤ) } := by
  have hend : i64 ((ar.info.bsize : ℤ) + 0) = ar.info.bsize := by
    rw [add_zero]
    exact i64_of_range (by omega) (by omega)
  rw [Call.Returns, seek_eq, if_neg (by decide), if_neg (by decide), if_pos rfl, hend, settle, if_neg (by omega)]
  rfl

/-- `write_BIN_` behind its checks. -/
def writeat (env : SeqImpl.Env σ) (buf : List UInt8) : Call (Archive σ) Failure ℤ := do
  let mar ← Call.read
  let rsize ← writebody env mar.offset buf
  Call.modify fun mar => { mar with offset := u32 (mar.offset + rsize) }
  pure rsize

/-- A write to an archive that may be written is one to its body, at the end if it is open for appending. -/
theorem write_eq (hwritable : ar.flags.writable = true) (hbsize : ar.info.bsize < 2 ^ 32)
    (hoffset : ar.flags.append = false → ar.offset = u32 pos) (happend : ar.flags.append = true → pos = ar.info.bsize) :
    write env buf ar = writeat env buf { ar with offset := u32 pos } := by
  have hopen : write env buf ar =
      (if ar.flags.append then (seek 0 2 >>= fun _ => writeat env buf) else writeat env buf) ar := by
    unfold write writable
    generalize (seek 0 2 : Call (Archive σ) Failure ℤ) = toend
    change (if ar.flags.writable = true then (_ : Call (Archive σ) Failure ℤ) else _) ar = _
    rw [if_pos hwritable]
    rfl
  rw [hopen]
  cases hmode : ar.flags.append with
  | false => rw [if_neg Bool.false_ne_true, ← hoffset hmode]
  | true =>
    rw [if_pos rfl, happend hmode]
    exact (seek_end hbsize).bind_eq _

/-- Where a write is refused, it is as it should be if and only if the back end keeps its bytes and the position does
not move. -/
theorem meets_refused (h : Placed ar front body back) (hwritable : ar.flags.writable = true)
    (hoffset : ar.flags.append = false → ar.offset = u32 pos) (happend : ar.flags.append = true → pos = ar.info.bsize)
    (hrefused : Refused env ar back pos buf.length) :
    WriteMeets env ar front body back buf pos ↔
      SizedSeq.keeps σ = true ∧ (ar.flags.append = true → ar.offset = ar.info.bsize) := by
  have htotal := h.total
  have hbsize : ar.info.bsize < 2 ^ 32 := by
    rw [← h.bsize]
    omega
  have hplaced : Placed { ar with offset := u32 pos } front body back := ⟨h.holds, h.hsize, h.bsize, h.total⟩
  have hend : ar.flags.append = true → u32 pos = ar.info.bsize := by
    intro hmode
    rw [happend hmode, u32_of_lt hbsize]
  obtain ⟨e, last, hfails, hcontents, hinfo, hflags, hlast⟩ := writebody_refused hplaced hwritable hrefused
  have hwrite : (write env buf).Fails ar e last := by
    rw [Call.Fails, write_eq hwritable hbsize hoffset happend]
    exact (Call.returns_read _).bind_fails hfails.bind
  constructor
  · intro hmeets
    have hkept : Unmoved ar last := hmeets.holds hwrite
    constructor
    · by_contra hloses
      rw [if_neg hloses, hkept.contents, contents_of (h.holds hwritable)] at hcontents
      cases hcontents
    · intro hmode
      rw [← hkept.offset, hlast]
      exact hend hmode
  · rintro ⟨hkeeps, hstays⟩
    rw [if_pos hkeeps] at hcontents
    have hposition : u32 pos = ar.offset := by
      cases hmode : ar.flags.append with
      | false => exact (hoffset hmode).symm
      | true => exact (hend hmode).trans (hstays hmode).symm
    exact hwrite.runs ⟨hcontents, hinfo, hflags, hlast.trans hposition⟩

/-- A write that fits and is not refused leaves the buffer in the body and the position behind it. -/
theorem write_fits (h : Placed ar front body back) (hwritable : ar.flags.writable = true)
    (hoffset : ar.flags.append = false → ar.offset = u32 pos) (happend : ar.flags.append = true → pos = ar.info.bsize)
    (hgrant : ¬Refused env ar back pos buf.length) (hfits : Fits ar back pos buf.length) :
    ∃ impl len, (write env buf).Returns ar (buf.length : ℤ)
        { ar.withBody impl front.length len (max ar.info.bsize (pos + buf.length)) with offset := pos + buf.length } ∧
      LawfulSeq.Holds impl (front ++ (overwrite 0 body pos buf ++ back)) := by
  have htotal := h.total
  have hbsize : ar.info.bsize < 2 ^ 32 := by
    rw [← h.bsize]
    omega
  have hplaced : Placed { ar with offset := u32 pos } front body back := ⟨h.holds, h.hsize, h.bsize, h.total⟩
  have hbound : pos + buf.length < 2 ^ 32 := by
    have hsum : ar.sizewith back (max ar.info.bsize (pos + buf.length)) < 2 ^ 32 := hfits
    rw [Archive.sizewith] at hsum
    omega
  have hpos : u32 (pos : ℤ) = pos := u32_of_lt (by omega)
  have hlast : u32 ((u32 (pos : ℤ) : ℤ) + buf.length) = pos + buf.length := by
    rw [hpos]
    exact u32_eq (by simp) hbound
  obtain ⟨impl, len, hreturns, hholds⟩ := writebody_fits hplaced hwritable hfits hgrant
  have hwritten : (write env buf).Returns ar (buf.length : ℤ)
      { ar.withBody impl front.length len (max ar.info.bsize (pos + buf.length)) with
        offset := u32 ((u32 (pos : ℤ) : ℤ) + buf.length) } := by
    rw [Call.Returns, write_eq hwritable hbsize hoffset happend]
    exact (Call.returns_read _).bind (hreturns.bind ((Call.returns_modify _ _).bind (Call.returns_pure _ _)))
  rw [hlast] at hwritten
  exact ⟨impl, len, hwritten, hholds⟩

/-- Where a write is not refused, it is as it should be if and only if it fits. -/
theorem meets_granted (h : Placed ar front body back) (hwritable : ar.flags.writable = true)
    (hoffset : ar.flags.append = false → ar.offset = u32 pos) (happend : ar.flags.append = true → pos = ar.info.bsize)
    (hgrant : ¬Refused env ar back pos buf.length) :
    WriteMeets env ar front body back buf pos ↔ Fits ar back pos buf.length := by
  have htotal := h.total
  have hbsize : ar.info.bsize < 2 ^ 32 := by
    rw [← h.bsize]
    omega
  constructor
  · rintro ⟨result, last, hresult, hpost⟩
    rw [write_eq hwritable hbsize hoffset happend] at hresult
    have hplaced : Placed { ar with offset := u32 pos } front body back := ⟨h.holds, h.hsize, h.bsize, h.total⟩
    have hends : (writeat env buf).Ends { ar with offset := u32 pos } fun result ar' =>
        (∃ n, result = .ok n) ∧ SizeAsked ar back (SeqImpl.size ar'.seq.impl) := by
      apply (Call.returns_read _).bind_ends
      apply (writebody_ends hplaced hwritable hgrant).bind (fun _ _ h => nomatch h.1)
      intro rsize written hwritten
      exact Call.ends_of_eq ((Call.returns_modify _ _).bind (Call.returns_pure _ _)) ⟨⟨rsize, rfl⟩, hwritten.2⟩
    obtain ⟨⟨n, rfl⟩, hasked⟩ := hends.holds result last hresult
    exact hpost.2.fits h hasked
  · intro hfits
    obtain ⟨impl, len, hwritten, hholds⟩ := write_fits h hwritable hoffset happend hgrant hfits
    apply hwritten.runs
    exact ⟨rfl, contents_of hholds, by rw [h.bsize]; rfl, rfl, rfl⟩

/-- The leader of a new archive. -/
def newleader : List UInt8 := magic ++ encodeBE 2 proto ++ List.replicate 10 0

/-- A new archive in memory. -/
def newmar : Archive MemSeq where
  seq := { impl := { addr := some newleader, len := leadersize }, offset := 0, len := leadersize }
  info := { proto, fields := 0, hsize := 0, bsize := 0 }
  flags := { access := .rdwr, append := false }
  offset := 0

theorem placed_newmar : Placed newmar newleader [] [] where
  holds _ := ⟨[], by decide +kernel, by decide⟩
  hsize := rfl
  bsize := rfl
  total := by decide

end Aug.Mar
