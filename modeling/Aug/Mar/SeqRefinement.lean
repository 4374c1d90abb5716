import Aug.Mar.MFileSpec
import Mathlib.Data.List.Forall2

/-!
# The two back ends side by side

A sequence is a row of cells, each known or freshly grown, and a region. Both back ends refine
this model for every sequence of region changes, resizes and stores, as long as the file serves
the sizes it is asked for. They then return the same results and show the same known cells.
-/

namespace Aug.Mar

open Aug.Lib

/-- A sequence without its back end. A cell is `none` from the resize that grew it until it is
written. -/
structure SeqModel where
  cells : List (Option UInt8)
  offset : ℕ
  len : ℕ
deriving DecidableEq

/-- A call on a sequence, or a store of its client through the pointer it was given. -/
inductive SeqOp
  | setregion (offset len : ℕ)
  | resize (size : ℕ)
  | store (ptr : ℕ) (bytes : List UInt8)
deriving DecidableEq

/-- Make one call. -/
def SeqOp.call {σ : Type} [SeqImpl σ] (env : SeqImpl.Env σ) : SeqOp → Call (Seq σ) Failure ℕ
  | setregion offset len => do
    Mar.setregion offset len
    pure 0
  | resize size => resizeseq env size
  | store ptr bytes => do
    poke ptr bytes
    pure 0

namespace SeqModel

/-- The size of the sequence after a resize of the region. -/
def total (model : SeqModel) (size : ℕ) : ℕ := u32 (model.cells.length + (size - model.len : ℤ))

/-- What lies behind the region. -/
def tail (model : SeqModel) : ℕ := u32 (model.cells.length - (model.offset + model.len : ℤ))

/-- One call on the model; a tail that does not fit the new size has no defined result. -/
def step (model : SeqModel) : SeqOp → Option (Except Failure ℕ × SeqModel)
  | .setregion offset len =>
    if model.cells.length < u32 (offset + len) then
      some (.error (.erange ("sequence overrun by " ++
        toString (i32 (u32 (offset + len) - model.cells.length)) ++ " bytes")), model)
    else some (.ok 0, { model with offset, len })
  | .resize size =>
    if model.total size < model.tail then none
    else
      let front := model.cells.length - model.tail
      some (.ok model.offset, { model with
        cells := resizeTo none (model.cells.take front) (model.total size - model.tail) ++
          model.cells.drop front
        len := size })
  | .store ptr bytes =>
    some (.ok 0, { model with
      cells := model.cells.take ptr ++
        (bytes.map some ++ model.cells.drop (ptr + bytes.length)) })

end SeqModel

/-- Known cells are the bytes in their places. -/
def Exposes (bytes : List UInt8) (cells : List (Option UInt8)) : Prop :=
  List.Forall₂ (fun byte cell => ∀ known ∈ cell, byte = known) bytes cells

namespace Exposes

variable {xs ys : List UInt8} {cells : List (Option UInt8)}

theorem known (xs : List UInt8) : Exposes xs (xs.map some) := by
  induction xs with
  | nil => exact .nil
  | cons x xs ih => exact .cons (by simp) ih

theorem fresh (xs : List UInt8) : Exposes xs (List.replicate xs.length none) := by
  induction xs with
  | nil => exact .nil
  | cons x xs ih => exact .cons (by simp) ih

theorem append {cells' : List (Option UInt8)} (h : Exposes xs cells) (h' : Exposes ys cells') :
    Exposes (xs ++ ys) (cells ++ cells') :=
  List.rel_append h h'

theorem take (h : Exposes xs cells) (n : ℕ) : Exposes (xs.take n) (cells.take n) :=
  List.forall₂_take n h

theorem drop (h : Exposes xs cells) (n : ℕ) : Exposes (xs.drop n) (cells.drop n) :=
  List.forall₂_drop n h

theorem length_eq (h : Exposes xs cells) : xs.length = cells.length := List.Forall₂.length_eq h

/-- A resize keeps the cells in common; what it adds is freshly grown. -/
theorem resize (h : Exposes xs cells) {n : ℕ} (hlen : ys.length = n) (hkept : xs.take n <+: ys) :
    Exposes ys (resizeTo none cells n) := by
  obtain ⟨rest, rfl⟩ := hkept
  have hrest : n - cells.length = rest.length := by
    rw [List.length_append, List.length_take, h.length_eq] at hlen
    omega
  rw [resizeTo, hrest]
  exact (h.take n).append (fresh rest)

end Exposes

variable {σ : Type} [LawfulSeq σ]

/-- A sequence shows the cells of the model and has its region, which lies inside. A back end that
has no memory yet shows none. -/
structure Refines (seq : Seq σ) (model : SeqModel) : Prop where
  offset : seq.offset = model.offset
  len : seq.len = model.len
  inside : u32 (model.offset + model.len) ≤ model.cells.length
  small : model.cells.length < 2 ^ 32
  cells : (LawfulSeq.Starts seq.impl ∧ model.cells = []) ∨
    ∃ bs, LawfulSeq.Holds seq.impl bs ∧ Exposes bs model.cells

namespace Refines

variable {seq : Seq σ} {model : SeqModel}

theorem size_eq (h : Refines seq model) : SeqImpl.size seq.impl = model.cells.length := by
  rcases h.cells with ⟨hstart, hcells⟩ | ⟨bs, hholds, hexposes⟩
  · rw [LawfulSeq.starts_size hstart, hcells]
    rfl
  · rw [LawfulSeq.size_of hholds, hexposes.length_eq]

/-- What lies behind a region inside the sequence. -/
theorem tail_eq (h : Refines seq model) :
    model.tail = model.cells.length - u32 (model.offset + model.len) := by
  have hinside := h.inside
  have hsmall := h.small
  unfold SeqModel.tail
  unfold u32 at hinside ⊢
  omega

/-- After a defined resize the region lies inside again. -/
theorem inside_resize (h : Refines seq model) {size : ℕ}
    (hfit : model.tail ≤ model.total size) :
    u32 (model.offset + size) = model.total size - model.tail := by
  have htail := h.tail_eq
  have hinside := h.inside
  have hsmall := h.small
  unfold SeqModel.total at hfit ⊢
  rw [htail] at hfit ⊢
  unfold u32 at *
  omega

end Refines

/-- The environment grants the size that a resize asks for, and a store lies in the sequence. -/
def SeqOp.Allowed (env : SeqImpl.Env σ) (seq : Seq σ) : SeqOp → Prop
  | .setregion _ _ => True
  | .resize size => LawfulSeq.Grants env seq.impl (u32 (SeqImpl.size seq.impl + (size - seq.len : ℤ)))
  | .store ptr bytes => bytes ≠ [] ∧ ptr + bytes.length ≤ SeqImpl.size seq.impl

/-- A call does what the model does, undefined behaviour included. -/
def StepRefines (env : SeqImpl.Env σ) (seq : Seq σ) (model : SeqModel) (op : SeqOp) : Prop :=
  (op.call env seq = none ∧ model.step op = none) ∨
    ∃ result seq' model', op.call env seq = some (result, seq') ∧
      model.step op = some (result, model') ∧ Refines seq' model'

section Steps

variable {env : SeqImpl.Env σ} {seq : Seq σ} {model : SeqModel}

theorem stepRefines_setregion (h : Refines seq model) (offset len : ℕ) :
    StepRefines env seq model (.setregion offset len) := by
  refine .inr ?_
  by_cases hover : model.cells.length < u32 (offset + len)
  · refine ⟨_, seq, model, ?_, by rw [SeqModel.step, if_pos hover], h⟩
    refine Call.Fails.bind ((Call.returns_read _).bind_fails ?_)
    rw [h.size_eq, if_pos hover]
    exact Call.fails_fail _ _
  · refine ⟨_, { seq with offset, len }, { model with offset, len }, ?_,
      by rw [SeqModel.step, if_neg hover], rfl, rfl, Nat.not_lt.mp hover, h.small, h.cells⟩
    refine Call.Returns.bind (a := ()) ((Call.returns_read _).bind ?_) (Call.returns_pure _ _)
    rw [h.size_eq, if_neg hover]
    exact Call.returns_modify _ _

/-- The resize of the back end that a resize of the region asks for. -/
theorem resizeseq_of {impl : σ} {size : ℕ} (h : Refines seq model)
    (hresize : (SeqImpl.resize env (model.total size) model.tail).Returns seq.impl () impl) :
    (resizeseq env size).Returns seq model.offset { seq with impl, len := size } := by
  refine (Call.returns_read _).bind ?_
  rw [h.size_eq, h.offset, h.len]
  refine (Call.Returns.zoom hresize).bind ((Call.returns_modify _ _).bind ?_)
  rw [← h.offset]
  exact Call.returns_pure _ _

theorem stepRefines_resize (h : Refines seq model) {size : ℕ}
    (hgrant : LawfulSeq.Grants env seq.impl (model.total size)) :
    StepRefines env seq model (.resize size) := by
  have htail := h.tail_eq
  have hsmall := h.small
  have htotal : model.total size < 2 ^ 32 := u32_lt _
  by_cases hover : model.total size < model.tail
  · -- Only memory in use can have a tail.
    obtain ⟨bs, hholds, hexposes⟩ := h.cells.resolve_left fun ⟨_, hcells⟩ => by
      rw [hcells] at htail
      simp at htail
      omega
    refine .inl ⟨(Call.returns_read _).bind_undefined ?_, by rw [SeqModel.step, if_pos hover]⟩
    rw [h.size_eq, h.offset, h.len]
    refine Call.Undefined.bind (Call.Undefined.zoom ?_)
    have hle : model.tail ≤ bs.length := by
      rw [hexposes.length_eq]
      omega
    exact LawfulSeq.resize_overrun hholds hover hle
  · have hfit := Nat.not_lt.mp hover
    have hinside := h.inside_resize hfit
    have hstep : model.step (.resize size) = some (.ok model.offset, { model with
        cells := resizeTo none (model.cells.take (model.cells.length - model.tail))
          (model.total size - model.tail) ++ model.cells.drop (model.cells.length - model.tail)
        len := size }) := by rw [SeqModel.step, if_neg hover]
    rcases h.cells with ⟨hstart, hcells⟩ | ⟨bs, hholds, hexposes⟩
    · have hzero : model.tail = 0 := by
        rw [htail, hcells]
        simp
      obtain ⟨impl, bs, hresize, hlen, hholds⟩ := LawfulSeq.starts_resize hstart htotal hgrant
      rw [← hzero] at hresize
      refine .inr ⟨_, _, _, resizeseq_of h hresize, hstep, h.offset, rfl, ?_, ?_, .inr ⟨bs, hholds, ?_⟩⟩
      · simp [hinside, hcells, hzero]
      · simp [hcells, hzero]
        omega
      · simp only [hcells, hzero, List.take_nil, List.drop_nil, List.append_nil, Nat.sub_zero]
        exact Exposes.resize (.nil : Exposes [] []) hlen (by simp)
    · have hbs := hexposes.length_eq
      have hsplit : bs = [] ++ (bs.take (bs.length - model.tail) ++ bs.drop (bs.length - model.tail)) := by
        simp
      have hback : (bs.drop (bs.length - model.tail)).length = model.tail := by
        rw [List.length_drop]
        omega
      have htotal' : ([] : List UInt8).length + (model.total size - model.tail) +
          (bs.drop (bs.length - model.tail)).length = model.total size := by
        rw [hback, List.length_nil]
        omega
      rw [hsplit] at hholds
      obtain ⟨impl, b', hresize, hlen, hkept, hholds'⟩ := LawfulSeq.resize_of
        (n := model.total size - model.tail) hholds (by rw [← hsplit]; omega)
        (by rw [htotal']; exact htotal) (by rw [htotal']; exact hgrant)
      rw [htotal', hback] at hresize
      refine .inr ⟨_, _, _, resizeseq_of h hresize, hstep, h.offset, rfl, ?_, ?_,
        .inr ⟨_, hholds', ?_⟩⟩
      · simp only [List.length_append, resizeTo_length]
        omega
      · simp only [List.length_append, resizeTo_length, List.length_drop]
        omega
      · rw [List.nil_append, ← hbs]
        exact ((hexposes.take _).resize hlen hkept).append (hexposes.drop _)

theorem stepRefines_store (h : Refines seq model) {ptr : ℕ} {bytes : List UInt8} (hne : bytes ≠ [])
    (hin : ptr + bytes.length ≤ model.cells.length) :
    StepRefines env seq model (.store ptr bytes) := by
  have hpos := List.length_pos_iff.mpr hne
  obtain ⟨bs, hholds, hexposes⟩ := h.cells.resolve_left fun ⟨_, hcells⟩ => by
    rw [hcells, List.length_nil] at hin
    omega
  have hbs := hexposes.length_eq
  have hsplit : bs = bs.take ptr ++ ((bs.drop ptr).take bytes.length ++ bs.drop (ptr + bytes.length)) := by
    rw [← List.drop_drop, List.take_append_drop, List.take_append_drop]
  rw [hsplit] at hholds
  obtain ⟨impl, hpoke, hholds'⟩ := poke_returns seq ptr bytes hholds
    (by rw [List.length_take]; omega) (by rw [List.length_take, List.length_drop]; omega)
  have hcells : (model.cells.take ptr ++ (bytes.map some ++
      model.cells.drop (ptr + bytes.length))).length = model.cells.length := by
    simp only [List.length_append, List.length_take, List.length_map, List.length_drop]
    omega
  refine .inr ⟨_, _, _, hpoke.bind (Call.returns_pure _ _), rfl, h.offset, h.len, ?_, ?_,
    .inr ⟨_, hholds', ?_⟩⟩
  · rw [hcells]
    exact h.inside
  · rw [hcells]
    exact h.small
  · exact (hexposes.take _).append ((Exposes.known bytes).append (hexposes.drop _))

/-- Every allowed call refines the model. -/
theorem stepRefines_call (h : Refines seq model) {op : SeqOp} (hallowed : op.Allowed env seq) :
    StepRefines env seq model op := by
  cases op with
  | setregion offset len => exact stepRefines_setregion h offset len
  | resize size =>
    refine stepRefines_resize h ?_
    rw [SeqOp.Allowed, h.size_eq, h.len] at hallowed
    exact hallowed
  | store ptr bytes =>
    rw [SeqOp.Allowed, h.size_eq] at hallowed
    exact stepRefines_store h hallowed.1 hallowed.2

end Steps

/-! ## Runs -/

/-- The results of a sequence of calls and the sequence they leave. -/
def runSeq (env : SeqImpl.Env σ) (seq : Seq σ) :
    List SeqOp → Option (List (Except Failure ℕ) × Seq σ)
  | [] => some ([], seq)
  | op :: ops => do
    let (result, next) ← op.call env seq
    let (results, last) ← runSeq env next ops
    pure (result :: results, last)

/-- The same on the model. -/
def SeqModel.run (model : SeqModel) : List SeqOp → Option (List (Except Failure ℕ) × SeqModel)
  | [] => some ([], model)
  | op :: ops => do
    let (result, next) ← model.step op
    let (results, last) ← next.run ops
    pure (result :: results, last)

/-- Every call of a run is allowed in the state it is made in. -/
def AllowedRun (env : SeqImpl.Env σ) (seq : Seq σ) : List SeqOp → Prop
  | [] => True
  | op :: ops => op.Allowed env seq ∧
    ∀ next ∈ (op.call env seq).map Prod.snd, AllowedRun env next ops

/-- The bytes of a sequence, as its client sees them. -/
def Seq.bytes (seq : Seq σ) : List UInt8 :=
  ((SeqImpl.addr seq.impl).getD []).take (SeqImpl.size seq.impl)

/-- A refined sequence shows the known cells. -/
theorem Refines.exposes {seq : Seq σ} {model : SeqModel} (h : Refines seq model) :
    Exposes seq.bytes model.cells := by
  unfold Seq.bytes
  rcases h.cells with ⟨hstart, hcells⟩ | ⟨bs, hholds, hexposes⟩
  · rw [LawfulSeq.starts_addr hstart, hcells, Option.getD_none, List.take_nil]
    exact .nil
  · obtain ⟨slack, haddr⟩ := LawfulSeq.addr_of hholds
    rw [haddr, LawfulSeq.size_of hholds, Option.getD_some, List.take_left]
    exact hexposes

/-- Two back ends that refine one model go through the same run, the second having every size
granted. -/
theorem runs_agree {τ : Type} [LawfulSeq τ] {env : SeqImpl.Env σ} {env' : SeqImpl.Env τ}
    {seq : Seq σ} {seq' : Seq τ} {model : SeqModel} (h : Refines seq model) (h' : Refines seq' model)
    (hgrant : ∀ (impl : τ) (n : ℕ), n < 2 ^ 32 → LawfulSeq.Grants env' impl n) (ops : List SeqOp)
    (hallowed : AllowedRun env seq ops) :
    (runSeq env seq ops = none ∧ runSeq env' seq' ops = none) ∨
      ∃ results last last' model', runSeq env seq ops = some (results, last) ∧
        runSeq env' seq' ops = some (results, last') ∧ model.run ops = some (results, model') ∧
        Refines last model' ∧ Refines last' model' := by
  induction ops generalizing seq seq' model with
  | nil => exact .inr ⟨[], seq, seq', model, rfl, rfl, rfl, h, h'⟩
  | cons op ops ih =>
    obtain ⟨hop, hnext⟩ := hallowed
    have hop' : op.Allowed env' seq' := by
      cases op with
      | setregion offset len => trivial
      | resize size => exact hgrant _ _ (u32_lt _)
      | store ptr bytes =>
        rw [SeqOp.Allowed, h'.size_eq, ← h.size_eq]
        exact hop
    rcases stepRefines_call h hop with ⟨hcall, hstep⟩ | ⟨result, next, model', hcall, hstep, hrefines⟩
    · rcases stepRefines_call h' hop' with ⟨hcall', -⟩ | ⟨_, _, _, -, hstep', -⟩
      · exact .inl ⟨by simp [runSeq, hcall], by simp [runSeq, hcall']⟩
      · rw [hstep] at hstep'
        cases hstep'
    · rcases stepRefines_call h' hop' with ⟨-, hstep'⟩ | ⟨_, next', _, hcall', hstep', hrefines'⟩
      · rw [hstep] at hstep'
        cases hstep'
      · obtain ⟨rfl, rfl⟩ : result = _ ∧ model' = _ := by
          rw [hstep] at hstep'
          simpa using hstep'
        rw [hcall] at hnext
        rcases ih hrefines hrefines' (hnext _ rfl) with ⟨hrun, hrun'⟩ |
          ⟨results, last, last', model'', hrun, hrun', hmodel, hlast, hlast'⟩
        · exact .inl ⟨by simp [runSeq, hcall, hrun], by simp [runSeq, hcall', hrun']⟩
        · exact .inr ⟨result :: results, last, last', model'', by simp [runSeq, hcall, hrun],
            by simp [runSeq, hcall', hrun'], by simp [SeqModel.run, hstep, hmodel], hlast, hlast'⟩

/-! ## A file and its copy in memory -/

/-- A sequence that shows all its bytes and has selected nothing. -/
def SeqModel.known (bytes : List UInt8) : SeqModel :=
  { cells := bytes.map some, offset := 0, len := 0 }

/-- A memory sequence that holds the given bytes. -/
def memoryseq (bytes : List UInt8) : Seq MemSeq :=
  { impl := if bytes = [] then { addr := none, len := 0 } else { addr := some bytes, len := bytes.length }
    offset := 0
    len := 0 }

theorem memoryseq_refines {bytes : List UInt8} (h32 : bytes.length < 2 ^ 32) :
    Refines (memoryseq bytes) (SeqModel.known bytes) := by
  refine ⟨rfl, rfl, Nat.zero_le _, by simpa [SeqModel.known] using h32, ?_⟩
  by_cases hnil : bytes = []
  · refine .inl ⟨?_, by rw [SeqModel.known, hnil, List.map_nil]⟩
    change (if bytes = [] then _ else _) = _
    rw [if_pos hnil]
  · refine .inr ⟨bytes, ⟨[], ?_, by simpa using h32⟩, Exposes.known bytes⟩
    change (if bytes = [] then _ else _) = _
    rw [if_neg hnil, List.append_nil]

/-- Opening a writable file maps all of it, up to the size that an `unsigned` holds. -/
theorem openseq_refines (pagesize : ℕ) (file : List UInt8) :
    ∃ seq, openseq pagesize true file = some (.ok seq) ∧
      Refines seq (SeqModel.known (file.take (u32 file.length))) := by
  have h32 : u32 file.length < 2 ^ 32 := u32_lt _
  have hle : u32 file.length ≤ file.length := by
    unfold u32
    omega
  have hsmall : (SeqModel.known (file.take (u32 file.length))).cells.length < 2 ^ 32 := by
    simp [SeqModel.known]
    omega
  by_cases hzero : u32 file.length = 0
  · refine ⟨{ impl := openmfile true file, offset := 0, len := 0 }, ?_, rfl, rfl, Nat.zero_le _, hsmall,
      .inl ⟨⟨rfl, hzero, rfl⟩, by rw [SeqModel.known, hzero, List.take_zero, List.map_nil]⟩⟩
    exact if_pos hzero
  · obtain ⟨mfile, fresh, hmap, hlen, hholds⟩ := mapmfile_returns pagesize (openmfile true file)
      (file.take (u32 file.length)) (file.drop (u32 file.length)) (n := u32 file.length) rfl (le_refl _) (List.take_append_drop _ _).symm (by simp)
      (by omega) h32 (by simp [openmfile]) (.inr (by simpa [MFile.available, openmfile] using hle))
    obtain rfl : fresh = [] := by
      rw [List.length_append, List.length_take] at hlen
      exact List.length_eq_zero_iff.mp (by omega)
    rw [List.append_nil] at hholds
    refine ⟨{ impl := mfile, offset := 0, len := 0 }, ?_, rfl, rfl, Nat.zero_le _, hsmall,
      .inr ⟨_, hholds, Exposes.known _⟩⟩
    have hopen : openseq pagesize true file =
        (mapmfile pagesize (u32 file.length) (openmfile true file)).map fun r =>
          r.1.map fun _ => { impl := r.2, offset := 0, len := 0 } := if_neg hzero
    rw [hopen, hmap]
    rfl

/-- A file sequence is at least as long as its logical size. -/
theorem Refines.file_length {seq : Seq MFile} {model : SeqModel} (h : Refines seq model) :
    seq.impl.size ≤ seq.impl.file.length := by
  rcases h.cells with ⟨hstart, -⟩ | ⟨bs, hholds, -⟩
  · rw [hstart.2.1]
    exact Nat.zero_le _
  · exact MFile.Holds.size_le hholds

/-- A writable file and a copy of it in memory give the same results and show the same bytes
outside what was freshly grown, and the file stays as long as the sequence, for every run in which
the file serves each size that a resize asks for. -/
theorem backends_agree (pagesize : ℕ) (mpool : MPool) (hmpool : ∀ n, n < 2 ^ 32 → mpool.grant n)
    (file : List UInt8) (ops : List SeqOp) :
    ∃ fileseq, openseq pagesize true file = some (.ok fileseq) ∧
      (AllowedRun pagesize fileseq ops →
        (runSeq pagesize fileseq ops = none ∧
          runSeq mpool (memoryseq (file.take (u32 file.length))) ops = none) ∨
        ∃ results fileseq' memseq' model, runSeq pagesize fileseq ops = some (results, fileseq') ∧
          runSeq mpool (memoryseq (file.take (u32 file.length))) ops = some (results, memseq') ∧
          (SeqModel.known (file.take (u32 file.length))).run ops = some (results, model) ∧
          Exposes fileseq'.bytes model.cells ∧ Exposes memseq'.bytes model.cells ∧
          fileseq'.impl.size ≤ fileseq'.impl.file.length) := by
  obtain ⟨fileseq, hopen, hfile⟩ := openseq_refines pagesize file
  refine ⟨fileseq, hopen, fun hallowed => ?_⟩
  have h32 : (file.take (u32 file.length)).length < 2 ^ 32 := by
    have := u32_lt file.length
    rw [List.length_take]
    omega
  rcases runs_agree hfile (memoryseq_refines h32) (fun _ n hn => hmpool n hn) ops hallowed with
    hnone | ⟨results, last, last', model, hrun, hrun', hmodel, hlast, hlast'⟩
  · exact .inl hnone
  · exact .inr ⟨results, last, last', model, hrun, hrun', hmodel, hlast.exposes, hlast'.exposes,
      hlast.file_length⟩

instance (pagesize : ℕ) (seq : Seq MFile) : DecidablePred (SeqOp.Allowed (σ := MFile) pagesize seq)
  | .setregion _ _ => inferInstanceAs (Decidable True)
  | .resize _ => inferInstanceAs (Decidable ((∃ mm ∈ seq.impl.mmap, _ ∨ _) ∨ _ ∧ _))
  | .store _ _ => inferInstanceAs (Decidable (_ ∧ _))

instance AllowedRun.decidable (pagesize : ℕ) :
    (ops : List SeqOp) → (seq : Seq MFile) → Decidable (AllowedRun pagesize seq ops)
  | [], _ => .isTrue trivial
  | op :: ops, seq =>
    have := AllowedRun.decidable pagesize ops
    have _ : Decidable (∀ next ∈ (op.call pagesize seq).map Prod.snd,
        AllowedRun pagesize next ops) := inferInstance
    instDecidableAnd

/-- A file of three bytes that grows by one byte within its first page. -/
theorem backends_agree_grow : ∃ fileseq results fileseq' memseq' model,
    openseq 4096 true [65, 66, 67] = some (.ok fileseq) ∧
    runSeq (4096 : ℕ) fileseq [.setregion 1 0, .resize 1] = some (results, fileseq') ∧
    runSeq MPool.always (memoryseq [65, 66, 67]) [.setregion 1 0, .resize 1] =
      some (results, memseq') ∧
    (SeqModel.known [65, 66, 67]).run [.setregion 1 0, .resize 1] = some (results, model) ∧
    Exposes fileseq'.bytes model.cells ∧ Exposes memseq'.bytes model.cells ∧
    fileseq'.impl.size ≤ fileseq'.impl.file.length := by
  obtain ⟨fileseq, hopen, hagree⟩ := backends_agree 4096 .always (fun _ _ => rfl) [65, 66, 67]
    [.setregion 1 0, .resize 1]
  obtain rfl : _ = fileseq := Except.ok.inj (Option.some.inj hopen)
  rcases hagree (by decide +kernel) with ⟨-, hnone⟩ | ⟨results, fileseq', memseq', model, h⟩
  · exact absurd hnone (by decide +kernel)
  · exact ⟨_, results, fileseq', memseq', model, hopen, h⟩

/-- A file of sixteen bytes cannot grow to 4090 bytes, which its first page would hold: the file
is extended to the reserved page less the sixteen bytes, and the mapping is refused. -/
theorem file_refuses_page : ∃ fileseq,
    openseq 4096 true (List.replicate 16 0) = some (.ok fileseq) ∧
    (runSeq (4096 : ℕ) fileseq [.setregion 16 0, .resize 4074]).map Prod.fst =
      some [.ok 0, .error (.einval "invalid file map size [4080]")] ∧
    (runSeq MPool.always (memoryseq (List.replicate 16 0)) [.setregion 16 0, .resize 4074]).map
      Prod.fst = some [.ok 0, .ok 16] := by
  refine ⟨_, rfl, ?_, ?_⟩ <;> decide +kernel

end Aug.Mar
