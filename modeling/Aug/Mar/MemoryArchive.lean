import Aug.Mar.Refinement

/-!
# Runs of a memory archive

A client creates an archive in memory and makes any sequence of calls on it. As long as every
seek asks for a position that the archive can hold, the results are those of the reference,
every state reached is well formed, and the header and the body do not disturb each other.
-/

namespace Aug.Mar

open Aug.Lib

/-- The allocator grants every request of an archive below `2 ^ 31` bytes. -/
def MPool.Succeeds (mpool : MPool) : Prop := ∀ size, size < 2 ^ 31 → mpool.grant size

/-- The bytes of the sequence that are in the allocated block. -/
def Archive.bytes (ar : Archive MemSeq) : List UInt8 :=
  (ar.seq.impl.addr.getD []).take ar.seq.impl.len

/-- The bytes of the header. -/
def Archive.header (ar : Archive MemSeq) : List UInt8 := (ar.bytes.drop leadersize).take ar.info.hsize

/-- The bytes of the body. -/
def Archive.body (ar : Archive MemSeq) : List UInt8 :=
  (ar.bytes.drop (bodyoff ar.info.hsize)).take ar.info.bsize

/-- The sequence is the leader, the header and the body, and the header is the stated number of
well-formed fields with distinct names. -/
structure Archive.WellFormed (ar : Archive MemSeq) : Prop where
  size : ar.seq.impl.len = leadersize + ar.info.hsize + ar.info.bsize
  block : ar.bytes.length = ar.seq.impl.len
  fields : ∃ fields : List Field, fields.length = ar.info.fields ∧ (∀ field ∈ fields, field.Fits) ∧
    (fields.map Field.key).Nodup ∧ ar.header = encodeFields fields ∧
    ar.info.hsize = (fields.map Field.size).sum

/-- The part of the archive that the other half of the calls works on. -/
def Op.untouched (op : Op) (ar : Archive MemSeq) : List UInt8 :=
  if op.isHeader then ar.body else ar.header

/-- The results of a sequence of calls, each with the allocator's answer, and the archive they
leave. -/
def runCalls (ar : Archive MemSeq) :
    List (MPool × Op) → Option (List (Except Failure Result) × Archive MemSeq)
  | [] => some ([], ar)
  | (mpool, op) :: calls => do
    let (result, next) ← op.call mpool ar
    let (results, last) ← runCalls next calls
    pure (result :: results, last)

variable {ar ar' : Archive MemSeq} {ref : Reference}

namespace Represents

/-- The bytes of a represented archive are the leader, the encoded fields and the body. -/
theorem bytes_eq (h : Represents ar ref) : ∃ leader : List UInt8, leader.length = leadersize ∧
    ar.bytes = leader ++ (encodeFields ref.fields.entries ++ ref.body) ∧
    ar.seq.impl.len = leadersize + ref.hsize + ref.body.length := by
  obtain ⟨leader, hleader, slack, himpl, -⟩ := h.encodes
  refine ⟨leader, hleader, ?_, ?_⟩
  · rw [Archive.bytes, himpl]
    exact List.take_left
  · rw [himpl, ref.hsize_eq]
    simp only [List.length_append]
    omega

theorem header_eq (h : Represents ar ref) : ar.header = encodeFields ref.fields.entries := by
  obtain ⟨leader, hleader, hbytes, -⟩ := h.bytes_eq
  rw [Archive.header, hbytes, ← hleader, List.drop_left, h.hsize, ref.hsize_eq, List.take_left]

theorem body_eq (h : Represents ar ref) : ar.body = ref.body := by
  obtain ⟨leader, hleader, hbytes, -⟩ := h.bytes_eq
  have hoff : bodyoff ar.info.hsize = (leader ++ encodeFields ref.fields.entries).length := by
    rw [bodyoff, h.hsize, List.length_append, hleader, ref.hsize_eq]
  rw [Archive.body, hbytes, hoff, ← List.append_assoc, List.drop_left, h.bsize, List.take_length]

/-- A represented archive is well formed. -/
theorem wellFormed (h : Represents ar ref) : ar.WellFormed := by
  obtain ⟨leader, hleader, hbytes, hlen⟩ := h.bytes_eq
  refine ⟨by rw [hlen, h.hsize, h.bsize], ?_, ref.fields.entries, h.fields.symm, h.fits,
    ref.fields.unique, h.header_eq, h.hsize⟩
  rw [hbytes, hlen, ref.hsize_eq]
  simp only [List.length_append]
  omega

end Represents

/-- A header call leaves the body of the reference alone. -/
theorem Reference.step_body {op : Op} (hheader : op.isHeader = true) (ref : Reference) :
    (ref.step op).2.body = ref.body := by
  cases op with
  | clear => rfl
  | deln n | delp name | pton name =>
    simp only [Reference.step]
    split_ifs <;> rfl
  | getn n | getp name | get n | ntop n =>
    simp only [Reference.step]
    split <;> rfl
  | putn n value =>
    simp only [Reference.step]
    split_ifs <;> rfl
  | putp name value | put name value =>
    cases name with
    | none => rfl
    | some name =>
      simp only [Reference.step]
      split_ifs <;> rfl
  | seek offset whence | setcontent data | truncate size | write buf | read len => cases hheader

/-- Any other call leaves its fields alone. -/
theorem Reference.step_fields {op : Op} (hheader : op.isHeader = false) (ref : Reference) :
    (ref.step op).2.fields = ref.fields := by
  cases op with
  | seek offset whence =>
    simp only [Reference.step]
    split
    · rfl
    · split_ifs <;> rfl
  | setcontent data | truncate size | write buf | read len => rfl
  | clear | deln n | delp name | getn n | getp name | get n | putn n value | putp name value | put name value
  | ntop n | pton name => cases hheader

theorem MPool.Succeeds.granting {mpool : MPool} (h : mpool.Succeeds) :
    Granting (σ := MemSeq) mpool :=
  fun _ n hn => h n hn

/-- A new archive represents the new reference. -/
theorem createmar_returns {mpool : MPool} (hmpool : mpool.Succeeds) :
    ∃ ar, createmar mpool = some (.ok ar) ∧ Represents ar Reference.new := by
  have hgrant : mpool.grant leadersize = true := hmpool _ (by simp [leadersize])
  let leader : List UInt8 := [109, 97, 114, 0, 0, 3, 0, 0, 0, 0, 0, 0, 0, 0, 0, 0]
  let ar : Archive MemSeq :=
    { seq := { impl := { addr := some leader, len := 16 }, offset := 0, len := 16 }
      info := { proto, fields := 0, hsize := 0, bsize := 0 }
      flags := { access := .rdwr, append := false }
      offset := 0 }
  let zeroed : MemSeq := { addr := some (List.replicate 16 0), len := 16 }
  have hmem : (resizemem mpool leadersize 0).Returns createseq.impl () zeroed := by
    refine (Call.returns_read _).bind ?_
    change Call.Returns (if mpool.grant leadersize = true then _ else _) _ _ _
    rw [if_pos hgrant]
    exact Call.returns_modify _ _
  have hresize : (resizeseq mpool leadersize).Returns createseq 0
      { impl := zeroed, offset := 0, len := 16 } := by
    refine (Call.returns_read _).bind ?_
    change Call.Returns (Seq.onImpl (resizemem mpool leadersize 0) >>= _) _ _ _
    exact (Call.Returns.zoom (t := createseq) hmem).bind
      ((Call.returns_modify _ _).bind (Call.returns_pure _ _))
  have hinit : (init mpool).Returns createseq ar.info ar.seq := by
    refine (Call.returns_read _).bind ?_
    rw [if_neg (by decide)]
    have hregion : (setregion 0 0).Returns createseq () createseq := rfl
    have hpokes : (pokeinfo (σ := MemSeq) 0 ar.info).Returns
        { impl := zeroed, offset := 0, len := 16 } () ar.seq := by
      unfold Call.Returns
      decide +kernel
    exact hregion.bind (hresize.bind (hpokes.bind (Call.returns_pure _ _)))
  refine ⟨ar, ?_, ⟨leader, rfl, [], rfl, by decide⟩, rfl, rfl, rfl,
    by simp [Reference.new, KeyedList.empty], by decide, rfl, by decide, rfl⟩
  rw [createmar, hinit]
  rfl

/-- Along an admitted run whose seeks fit, the results are the reference results and the archive
reached represents the reference reached. -/
theorem runCalls_simulates (h : Represents ar ref) (calls : List (MPool × Op))
    (hmpool : ∀ call ∈ calls, call.1.Succeeds) (hadmits : ref.Admits (calls.map Prod.snd))
    (hseeks : ref.SeeksFit (calls.map Prod.snd)) :
    ∃ ar', runCalls ar calls = some ((ref.run (calls.map Prod.snd)).1, ar') ∧
      Represents ar' (ref.run (calls.map Prod.snd)).2 := by
  induction calls generalizing ar ref with
  | nil => exact ⟨ar, rfl, h⟩
  | cons call calls ih =>
    obtain ⟨mpool, op⟩ := call
    obtain ⟨htyped, hsmall, hadmits⟩ := hadmits
    obtain ⟨hfits, hseeks⟩ := hseeks
    obtain ⟨next, hcall, hrep⟩ := simulates_call (hmpool _ List.mem_cons_self).granting h op
      htyped hsmall hfits
    obtain ⟨last, hrun, hlast⟩ := ih hrep (fun c hc => hmpool c (List.mem_cons_of_mem _ hc))
      hadmits hseeks
    refine ⟨last, ?_, hlast⟩
    simp only [runCalls, hcall, hrun, Option.bind_eq_bind, Option.bind_some]
    rfl

/-- An admitted call after a represented state changes only its own half of the archive. -/
theorem untouched_call {mpool : MPool} {op : Op} (h : Represents ar ref) (hmpool : mpool.Succeeds)
    (htyped : op.Typed) (hsmall : (ref.step op).2.size < 2 ^ 31) (hfits : op.SeekFits ref) :
    ∃ result ar', op.call mpool ar = some (result, ar') ∧ op.untouched ar' = op.untouched ar := by
  obtain ⟨ar', hcall, hrep⟩ := simulates_call hmpool.granting h op htyped hsmall hfits
  refine ⟨_, ar', hcall, ?_⟩
  unfold Op.untouched
  cases hheader : op.isHeader with
  | true =>
    simp only [if_true]
    rw [hrep.body_eq, h.body_eq, Reference.step_body hheader]
  | false =>
    simp only [Bool.false_eq_true, if_false]
    rw [hrep.header_eq, h.header_eq, Reference.step_fields hheader]

/-- The condition on runs carries over to the state before the last call. -/
theorem Reference.admits_append (ref : Reference) (ops : List Op) (op : Op) :
    (ref.Admits (ops ++ [op]) ↔ ref.Admits ops ∧ op.Typed ∧
      ((ref.run ops).2.step op).2.size < 2 ^ 31) ∧
    (ref.SeeksFit (ops ++ [op]) ↔ ref.SeeksFit ops ∧ op.SeekFits (ref.run ops).2) := by
  induction ops generalizing ref with
  | nil => simp [Admits, SeeksFit, run]
  | cons first ops ih =>
    obtain ⟨hadmits, hseeks⟩ := ih (ref.step first).2
    constructor
    · simp only [List.cons_append, Admits, run, hadmits, and_assoc]
    · simp only [List.cons_append, SeeksFit, run, hseeks, and_assoc]

/-- Every sequence of calls on a new archive whose seeks ask for positions an `unsigned` holds
has the reference results, reaches a well-formed archive, and each further such call leaves the
bytes of the other half alone. -/
theorem archive_agrees (mpool : MPool) (calls : List (MPool × Op)) (hmpool : mpool.Succeeds)
    (hmpools : ∀ call ∈ calls, call.1.Succeeds)
    (hadmits : Reference.new.Admits (calls.map Prod.snd))
    (hseeks : Reference.new.SeeksFit (calls.map Prod.snd)) :
    ∃ ar ar', createmar mpool = some (.ok ar) ∧
      runCalls ar calls = some ((Reference.new.run (calls.map Prod.snd)).1, ar') ∧
      ar'.WellFormed ∧
      ∀ mpool' op, mpool'.Succeeds → Reference.new.Admits (calls.map Prod.snd ++ [op]) →
        Reference.new.SeeksFit (calls.map Prod.snd ++ [op]) →
        ∃ result ar'', op.call mpool' ar' = some (result, ar'') ∧
          op.untouched ar'' = op.untouched ar' := by
  obtain ⟨ar, hcreate, hrep⟩ := createmar_returns hmpool
  obtain ⟨ar', hrun, hrep'⟩ := runCalls_simulates hrep calls hmpools hadmits hseeks
  refine ⟨ar, ar', hcreate, hrun, hrep'.wellFormed, fun mpool' op hmpool' hop hseek => ?_⟩
  obtain ⟨-, htyped, hsmall⟩ := (Reference.admits_append _ _ _).1.mp hop
  obtain ⟨-, hfits⟩ := (Reference.admits_append _ _ _).2.mp hseek
  exact untouched_call hrep' hmpool' htyped hsmall hfits

/-- A name of one character. -/
def letter : CStr := { chars := [65], nonul := by decide }

theorem archive_agrees_put_seek_read : ∃ ar ar', createmar .always = some (.ok ar) ∧
    runCalls ar [(.always, .putp (some letter) [66]), (.always, .seek 2 0), (.always, .read 1)] =
      some ([.ok (.int 0), .ok (.int 2), .ok (.bytes [])], ar') ∧ ar'.WellFormed := by
  obtain ⟨ar, ar', hcreate, hrun, hwell, -⟩ := archive_agrees .always
    [(.always, .putp (some letter) [66]), (.always, .seek 2 0), (.always, .read 1)]
    (fun _ _ => rfl) (by simp [MPool.Succeeds, MPool.always])
    (by decide) (by decide)
  exact ⟨ar, ar', hcreate, hrun, hwell⟩

/-- A seek to `2 ^ 32` returns that position but leaves the archive at zero, so that the next
read finds the start of the body. -/
theorem seek_wraps : ∃ ar ar' results,
    Reference.new.Admits [.write [97], .seek (2 ^ 32) 0, .read 1] ∧
    createmar .always = some (.ok ar) ∧
    runCalls ar [(.always, .write [97]), (.always, .seek (2 ^ 32) 0), (.always, .read 1)] =
      some (results, ar') ∧
    results = [.ok (.int 1), .ok (.int (2 ^ 32)), .ok (.bytes [97])] ∧
    (Reference.new.run [.write [97], .seek (2 ^ 32) 0, .read 1]).1 =
      [.ok (.int 1), .ok (.int (2 ^ 32)), .ok (.bytes [])] := by
  refine ⟨_, _, _, by decide +kernel, rfl, rfl, ?_, ?_⟩ <;> decide +kernel

end Aug.Mar
