import Aug.Net.WriterIntegrity

/-!
# Draining the writer

The state of the queue as its callers see it, and whether it becomes empty. A write pops blobs by the number
of bytes just written, so a zero-length blob is popped only on the way to a byte behind it, and the size is
that of whole blobs. Where the writes stop between blobs, and no zero-length blobs are left in front, the queue
is seen as it is and a stream that accepts something drains it.
-/

namespace Aug.Net

open Aug.Lib

namespace Writer

/-- `aug_writerempty`. -/
def writerempty (writer : Writer) : Bool := writer.list.isEmpty

/-- `aug_writersize`, which fails if a blob has no data. The sum is a `size_t`, and the result is signed. -/
def writersize (writer : Writer) : Option ℤ :=
  (writer.list.mapM id).map fun datas =>
    i64 (datas.foldl (fun size data => u64 ((size : ℤ) + (data : List UInt8).length)) 0 : ℕ)

variable {list rest sent : List Blob} {iovs : List IoVec} {num : ℕ}

/-- As many bytes are taken as the stream has accepted. -/
theorem gather_length (hnum : num ≤ iovsum iovs) : (gather iovs num).length = num := by
  induction iovs generalizing num with
  | nil =>
    have hzero : num = 0 := by simpa [iovsum] using hnum
    rw [hzero]
    rfl
  | cons iov iovs ih =>
    have hrest : num - iov.len ≤ iovsum iovs := by
      simp only [iovsum, List.map_cons, List.sum_cons] at hnum ⊢
      omega
    rw [gather, List.length_append, ih hrest, slice, List.length_append, List.length_map, List.length_take,
      List.length_replicate]
    omega

theorem bytes_append (front back : List Blob) : bytes (front ++ back) = bytes front ++ bytes back :=
  List.flatMap_append

/-- The last of these blobs has a byte, if there are any. -/
def Ends (sent : List Blob) : Prop := ∀ blob, sent.getLast? = some blob → blob.getD [] ≠ []

/-- A write of exactly the blobs in front pops them. -/
theorem popbufs_exact (hlist : list = sent ++ rest) (hsent : (bytes sent).length = num) (hends : Ends sent)
    (hmaps : Maps iovs list) (hexact : ∀ iov ∈ iovs, iov.len = iov.base.length) (hnum : num ≤ iovsum iovs) :
    popbufs list iovs num = ⟨rest, 0⟩ := by
  induction sent generalizing list iovs num with
  | nil =>
    have hzero : num = 0 := hsent.symm
    rw [List.nil_append] at hlist
    rw [hzero, hlist]
    cases iovs with
    | nil => rfl
    | cons iov iovs => exact popbufs_stopped fun hcompleted => hcompleted.1 rfl
  | cons blob sent ih =>
    have hpos : num ≠ 0 := by
      intro hzero
      have hlast := List.getLast?_eq_some_getLast (List.cons_ne_nil blob sent)
      generalize (blob :: sent).getLast (List.cons_ne_nil blob sent) = last at hlast
      have hempty : bytes (blob :: sent) = [] := List.length_eq_zero_iff.mp (hsent.trans hzero)
      have hmem := List.mem_of_getLast? hlast
      exact hends last hlast (List.flatMap_eq_nil_iff.mp hempty last hmem)
    cases iovs with
    | nil =>
      rw [iovsum, List.map_nil, List.sum_nil] at hnum
      exact absurd (Nat.le_zero.mp hnum) hpos
    | cons iov iovs =>
      rw [hlist, List.cons_append] at hmaps ⊢
      obtain ⟨hbase, hrest⟩ := maps_cons.mp hmaps
      have hlen : iov.len = (blob.getD []).length := by rw [hexact iov List.mem_cons_self, hbase]
      rw [bytes_cons, List.length_append] at hsent
      rw [popbufs_completed ⟨hpos, by omega⟩]
      apply ih rfl (by omega) _ hrest (fun other hother => hexact other (List.mem_cons_of_mem _ hother))
      · simp only [iovsum, List.map_cons, List.sum_cons] at hnum ⊢
        omega
      · intro last hlast
        apply hends last
        cases sent with
        | nil => cases hlast
        | cons next sent => rwa [List.getLast?_cons_cons]

end Writer

namespace Writing

open Writer

/-- The number of bytes that were appended and not yet accepted by the stream. -/
def unsent (state : Writing) : ℤ := (state.appended.length : ℤ) - state.accepted.length

/-- The writer is empty exactly if no byte is unsent, and its size is their number. -/
def Accurate (state : Writing) : Prop :=
  (state.writer.writerempty = true ↔ state.unsent = 0) ∧ state.writer.writersize = some state.unsent

/-- There is a byte in the blobs that a write can reach, unless there are no blobs. -/
def Moving (list : List Blob) : Prop := list = [] ∨ ∃ blob ∈ list.take 64, blob.getD [] ≠ []

/-- The calls that the writer is made for. A blob that is appended has data of less than `2 ^ 31` bytes, it is not
empty if it comes first, and there are less than `2 ^ 32` of them. A write accepts whole blobs, and behind the last
of these with a byte there is another byte within reach, or no blob at all. -/
def Smooth (state : Writing) : WriterAction → Prop
  | .append blob allocated => allocated = true → state.writer.list.length + 1 < 2 ^ 32 ∧
      ∃ data, blob = some data ∧ data.length < 2 ^ 31 ∧ (state.writer.list = [] → data ≠ [])
  | .writesome none => True
  | .writesome (some num) => ∃ sent rest, state.writer.list = sent ++ rest ∧ (bytes sent).length = num ∧ Ends sent ∧
      Moving rest

/-- The stream accepts at least one byte whenever some are offered. -/
def Accepts (state : Writing) (num : ℕ) : Prop := ∀ iovs, state.writer.vector = some iovs → 0 < iovsum iovs → 0 < num

/-- The writer as smooth calls leave it. -/
structure Flowing (state : Writing) : Prop where
  part : state.writer.part = 0
  small : ∀ blob ∈ state.writer.list, ∃ data, blob = some data ∧ data.length < 2 ^ 31
  count : state.writer.list.length < 2 ^ 32
  moving : Moving state.writer.list
  balance : state.unsent = (bytes state.writer.list).length

variable {state next : Writing} {list : List Blob}

theorem flowing_create : Flowing create := by
  constructor
  · rfl
  · exact List.forall_mem_nil _
  · exact Nat.two_pow_pos 32
  · exact Or.inl rfl
  · rfl

/-- Blobs with data have a sum of sizes, which stays below `2 ^ 63` if their number does below `2 ^ 32`. -/
theorem writersize_flowing (hsmall : ∀ blob ∈ list, ∃ data, blob = some data ∧ data.length < 2 ^ 31) :
    ∃ datas, list.mapM id = some datas ∧ (datas.map List.length).sum = (bytes list).length ∧
      (bytes list).length ≤ list.length * 2 ^ 31 := by
  induction list with
  | nil => exact ⟨[], rfl, rfl, Nat.le_refl _⟩
  | cons blob list ih =>
    obtain ⟨⟨data, rfl, hdata⟩, hrest⟩ := List.forall_mem_cons.mp hsmall
    obtain ⟨datas, hdatas, hsum, hle⟩ := ih hrest
    apply Exists.intro (data :: datas)
    rw [List.mapM_cons, hdatas, bytes_cons, List.map_cons, List.sum_cons, List.length_append, hsum, List.length_cons]
    apply And.intro rfl
    apply And.intro rfl
    rw [Option.getD_some]
    omega

/-- Without overflow the sum is that of the sizes. -/
theorem foldl_size (datas : List (List UInt8)) (size : ℕ) (h : size + (datas.map List.length).sum < 2 ^ 64) :
    datas.foldl (fun size data => u64 ((size : ℤ) + (data : List UInt8).length)) size =
      size + (datas.map List.length).sum := by
  induction datas generalizing size with
  | nil => rfl
  | cons data datas ih =>
    rw [List.map_cons, List.sum_cons] at h ⊢
    have hsize : u64 ((size : ℤ) + data.length) = size + data.length := u64_eq (by push_cast; rfl) (by omega)
    rw [List.foldl_cons, hsize, ih _ (by omega), Nat.add_assoc]

/-- A flowing writer is seen as it is. -/
theorem Flowing.accurate (h : Flowing state) : Accurate state := by
  obtain ⟨datas, hdatas, hsum, hle⟩ := writersize_flowing h.small
  have hcount := h.count
  have hless : (bytes state.writer.list).length < 2 ^ 63 := by omega
  constructor
  · rw [h.balance, writerempty, List.isEmpty_iff]
    constructor
    · intro hempty
      rw [hempty]
      rfl
    · intro hzero
      apply h.moving.resolve_right
      rintro ⟨blob, hblob, hne⟩
      have hbytes : bytes state.writer.list = [] := List.length_eq_zero_iff.mp (by exact_mod_cast hzero)
      exact hne (List.flatMap_eq_nil_iff.mp hbytes blob (List.mem_of_mem_take hblob))
  · have hfold := foldl_size datas 0 (by omega)
    rw [writersize, hdatas, Option.map_some, hfold, Nat.zero_add, hsum, h.balance]
    exact congrArg some (i64_of_range (by omega) (by omega))

/-- The entry for a blob of less than `2 ^ 31` bytes. -/
def entry (blob : Blob) : IoVec := ⟨blob.getD [], (blob.getD []).length⟩

theorem mapped_entries (hsmall : ∀ blob ∈ list, ∃ data, blob = some data ∧ data.length < 2 ^ 31) :
    list.mapM mapped = some (list.map entry) := by
  induction list with
  | nil => rfl
  | cons blob list ih =>
    obtain ⟨⟨data, rfl, hdata⟩, hrest⟩ := List.forall_mem_cons.mp hsmall
    have hlen : u64 (i32 data.length) = data.length := by
      rw [i32_of_range (by omega) (by omega)]
      exact u64_of_lt (by omega)
    rw [List.mapM_cons, ih hrest, mapped, Option.map_some, hlen]
    rfl

/-- The offset is zero. -/
theorem offset_zero (hsmall : ∀ blob ∈ list, ∃ data, blob = some data ∧ data.length < 2 ^ 31) :
    offset 0 (list.map entry) = list.map entry := by
  cases list with
  | nil => rfl
  | cons blob list =>
    obtain ⟨data, rfl, hdata⟩ := hsmall blob List.mem_cons_self
    have hlen : u64 (((entry (some data)).len : ℤ) - i32 (0 : ℕ)) = data.length := by
      rw [i32_of_range (by omega) (by omega)]
      exact u64_eq (Int.sub_zero _) (by omega)
    rw [List.map_cons, offset, hlen]
    rfl

theorem iovsum_entries (list : List Blob) : iovsum (list.map entry) = (bytes list).length := by
  induction list with
  | nil => rfl
  | cons blob list ih =>
    rw [List.map_cons, iovsum, List.map_cons, List.sum_cons, bytes_cons, List.length_append, ← ih]
    rfl

/-- The vector of a flowing writer has the first blobs. -/
theorem Flowing.vector (h : Flowing state) :
    state.writer.vector = some ((state.writer.list.take 64).map entry) := by
  have hsize : state.writer.size = state.writer.list.length := u32_of_lt h.count
  have htake : state.writer.list.take (min state.writer.list.length 64) = state.writer.list.take 64 := by
    rw [Nat.min_comm, ← List.take_eq_take_min]
  have hsmall : ∀ blob ∈ state.writer.list.take 64, ∃ data, blob = some data ∧ data.length < 2 ^ 31 :=
    fun blob hblob => h.small blob (List.mem_of_mem_take hblob)
  rw [Writer.vector, hsize, htake, mapped_entries hsmall, Option.map_some, h.part, offset_zero hsmall]

/-- A smooth write that is accepted leaves the blobs behind those that were sent. -/
theorem Flowing.writesome {num : ℕ} (h : Flowing state) (hstep : state.step (.writesome (some num)) = some next)
    (hsmooth : Smooth state (.writesome (some num))) :
    Flowing next ∧ ∃ sent, state.writer.list = sent ++ next.writer.list ∧ (bytes sent).length = num := by
  obtain ⟨sent, rest, hlist, hsent, hends, hmoving⟩ := hsmooth
  have hsize : state.writer.size = state.writer.list.length := u32_of_lt h.count
  have hcall : state.writesome (some num) = some next := hstep
  by_cases hempty : min state.writer.size 64 = 0
  · have hnil : state.writer.list = [] := List.length_eq_zero_iff.mp (by omega)
    rw [hnil] at hlist
    obtain ⟨rfl, rfl⟩ := List.append_eq_nil_iff.mp hlist.symm
    simp only [Writing.writesome, if_pos hempty, Option.some.injEq] at hcall
    rw [← hcall]
    exact ⟨h, [], rfl, hsent⟩
  · simp only [Writing.writesome, if_neg hempty, h.vector, Option.ite_none_right_eq_some, Option.some.injEq] at hcall
    obtain ⟨hnum, hnext⟩ := hcall
    have hmaps : Maps ((state.writer.list.take 64).map entry) state.writer.list := by
      rw [Maps, List.map_map]
      exact (List.take_prefix 64 state.writer.list).map _
    have hexact : ∀ iov ∈ (state.writer.list.take 64).map entry, iov.len = iov.base.length := by
      intro iov hiov
      obtain ⟨blob, -, rfl⟩ := List.mem_map.mp hiov
      rfl
    have hpop := popbufs_exact hlist hsent hends hmaps hexact hnum
    rw [hpop] at hnext
    have hnext := hnext.symm
    have hmem {blob : Blob} (hblob : blob ∈ rest) : blob ∈ state.writer.list := by
      rw [hlist]
      exact List.mem_append_right _ hblob
    rw [hnext]
    apply And.intro
    · constructor
      · rfl
      · exact fun blob hblob => h.small blob (hmem hblob)
      · have hcount := h.count
        rw [hlist, List.length_append] at hcount
        exact Nat.lt_of_le_of_lt (Nat.le_add_left _ _) hcount
      · exact hmoving
      · have hbalance := h.balance
        rw [hlist, bytes_append, List.length_append] at hbalance
        rw [unsent] at hbalance ⊢
        dsimp only
        rw [List.length_append, gather_length hnum]
        omega
    · exact ⟨sent, hlist, hsent⟩

/-- A smooth append. -/
theorem Flowing.append {blob : Blob} {allocated : Bool} (h : Flowing state)
    (hstep : state.step (.append blob allocated) = some next) (hsmooth : Smooth state (.append blob allocated)) :
    Flowing next := by
  rw [step, Option.some.injEq] at hstep
  rw [← hstep]
  cases allocated with
  | false =>
    constructor
    · exact h.part
    · exact h.small
    · exact h.count
    · exact h.moving
    · rw [unsent, if_neg Bool.false_ne_true, List.append_nil]
      exact h.balance
  | true =>
    obtain ⟨hcount, data, rfl, hdata, hfirst⟩ := hsmooth rfl
    have hbalance := h.balance
    rw [unsent] at hbalance
    constructor
    · exact h.part
    · intro blob hblob
      cases List.mem_append.mp hblob with
      | inl hold => exact h.small blob hold
      | inr hnew => exact ⟨data, List.mem_singleton.mp hnew, hdata⟩
    · rw [Writer.append, if_pos rfl, List.length_append]
      exact hcount
    · apply Or.inr
      rw [Writer.append, if_pos rfl, List.take_append]
      cases h.moving with
      | inl hempty =>
        apply Exists.intro (some data)
        rw [hempty]
        exact ⟨List.mem_cons_self, hfirst hempty⟩
      | inr hmoving =>
        obtain ⟨blob, hblob, hne⟩ := hmoving
        exact ⟨blob, List.mem_append_left _ hblob, hne⟩
    · rw [unsent, Writer.append, if_pos rfl, if_pos rfl, bytes_append, List.length_append, List.length_append]
      have hone : bytes [some data] = data := List.append_nil data
      rw [hone, Option.getD_some]
      dsimp only
      omega

/-- One smooth call. -/
theorem Flowing.step {action : WriterAction} (h : Flowing state) (hstep : state.step action = some next)
    (hsmooth : Smooth state action) : Flowing next := by
  cases action with
  | append blob allocated => exact h.append hstep hsmooth
  | writesome rsize =>
    cases rsize with
    | some num => exact (h.writesome hstep hsmooth).1
    | none =>
      cases writesome_cases hstep with
      | inl hsame => rwa [hsame.1]
      | inr hwritten =>
        obtain ⟨_, _, -, -, hrsize, -⟩ := hwritten
        exact nomatch hrsize

/-- Unless it is empty, a flowing writer has something to offer. -/
theorem Flowing.offers (h : Flowing state) (hne : state.writer.list ≠ []) :
    0 < (bytes (state.writer.list.take 64)).length := by
  obtain ⟨blob, hblob, hbytes⟩ := h.moving.resolve_left hne
  apply List.length_pos_of_ne_nil
  intro hempty
  exact hbytes (List.flatMap_eq_nil_iff.mp hempty blob hblob)

/-- A write that the stream accepts something of makes the queue shorter. -/
theorem Flowing.shorter {num : ℕ} (h : Flowing state) (hstep : state.step (.writesome (some num)) = some next)
    (hsmooth : Smooth state (.writesome (some num))) (haccepts : Accepts state num) (hne : state.writer.list ≠ []) :
    next.writer.list.length < state.writer.list.length := by
  obtain ⟨-, sent, hlist, hsent⟩ := h.writesome hstep hsmooth
  have hpos : 0 < num := haccepts _ h.vector (by rw [iovsum_entries]; exact h.offers hne)
  have hshort : sent ≠ [] := by
    rintro rfl
    rw [← hsent] at hpos
    exact Nat.lt_irrefl 0 hpos
  have hlength := List.length_pos_of_ne_nil hshort
  rw [hlist, List.length_append]
  omega

/-- Writes that follow each other. -/
def Writes (states : ℕ → Writing) (sizes : ℕ → ℕ) : Prop :=
  ∀ n, (states n).step (.writesome (some (sizes n))) = some (states (n + 1)) ∧ Accepts (states n) (sizes n) ∧
    Smooth (states n) (.writesome (some (sizes n)))

/-- As long as a flowing writer is written to it stays so, and some time it is empty. -/
theorem Flowing.drains {states : ℕ → Writing} {sizes : ℕ → ℕ} (h : Flowing (states 0)) (hwrites : Writes states sizes) :
    (∀ n, Flowing (states n)) ∧ ∃ n, (states n).writer.list = [] := by
  have hflowing (n : ℕ) : Flowing (states n) := by
    induction n with
    | zero => exact h
    | succ n ih => exact ih.step (hwrites n).1 (hwrites n).2.2
  apply And.intro hflowing
  by_contra hnever
  rw [not_exists] at hnever
  have hless (n : ℕ) : (states n).writer.list.length + n ≤ (states 0).writer.list.length := by
    induction n with
    | zero => exact Nat.le_refl _
    | succ n ih =>
      have hshorter := (hflowing n).shorter (hwrites n).1 (hwrites n).2.2 (hwrites n).2.1 (hnever n)
      omega
  have hlong := hless ((states 0).writer.list.length + 1)
  omega

/-- In a run of smooth calls the writer is always seen as it is, and when only writes follow, of which the stream
accepts something, it becomes empty. -/
theorem writer_drains (actions : List WriterAction) {last : Writing} (h : run step create actions = some last)
    (hsmooth : Avoids step (fun state action => ¬Smooth state action) create actions) :
    Always step Accurate create actions ∧
      ∀ states sizes, states 0 = last → Writes states sizes →
        (∀ n, Accurate (states n)) ∧ ∃ n, (states n).writer.writerempty = true := by
  have hgood (state : Writing) (action : WriterAction) (next : Writing) (hflowing : Flowing state)
      (hstep : state.step action = some next) (hnot : ¬¬Smooth state action) : Flowing next :=
    hflowing.step hstep (not_not.mp hnot)
  have halways : Always step Flowing create actions := always_of_avoids (fun _ h => h) hgood flowing_create hsmooth
  apply And.intro (halways.imp fun _ => Flowing.accurate)
  intro states sizes hfirst hwrites
  have hlast : Flowing (states 0) := by
    rw [hfirst]
    exact halways.final h
  obtain ⟨hflowing, n, hempty⟩ := hlast.drains hwrites
  apply And.intro fun n => (hflowing n).accurate
  apply Exists.intro n
  rw [writerempty, hempty]
  rfl

/-- Three blobs, of which the second one has no bytes, are written at once. -/
theorem writer_drains_three : ∃ states sizes, Writes states sizes ∧
    run step create [.append (some [97]) true, .append (some []) true, .append (some [98]) true] = some (states 0) ∧
      ∃ n, (states n).writer.writerempty = true := by
  have hrun : run step create [.append (some [97]) true, .append (some []) true, .append (some [98]) true] =
      some ⟨⟨[some [97], some [], some [98]], 0⟩, [97, 98], []⟩ := rfl
  have hsmooth : Avoids step (fun state action => ¬Smooth state action) create
      [.append (some [97]) true, .append (some []) true, .append (some [98]) true] := by
    have hone : Smooth create (.append (some [97]) true) :=
      fun _ => ⟨by decide, [97], rfl, by decide, fun _ => List.cons_ne_nil _ _⟩
    have htwo : Smooth ⟨⟨[some [97]], 0⟩, [97], []⟩ (.append (some []) true) :=
      fun _ => ⟨by decide, [], rfl, by decide, fun h => absurd h (List.cons_ne_nil _ _)⟩
    have hthree : Smooth ⟨⟨[some [97], some []], 0⟩, [97], []⟩ (.append (some [98]) true) :=
      fun _ => ⟨by decide, [98], rfl, by decide, fun _ => List.cons_ne_nil _ _⟩
    apply And.intro (not_not.mpr hone)
    rintro next ⟨⟩
    apply And.intro (not_not.mpr htwo)
    rintro next ⟨⟩
    exact ⟨not_not.mpr hthree, fun _ _ => trivial⟩
  have hwrites : Writes
      (fun n => n.casesOn ⟨⟨[some [97], some [], some [98]], 0⟩, [97, 98], []⟩ fun _ => ⟨⟨[], 0⟩, [97, 98], [some 97, some 98]⟩)
      (fun n => n.casesOn 2 fun _ => 0) := by
    intro n
    cases n with
    | zero =>
      apply And.intro (by decide +kernel)
      apply And.intro fun _ _ _ => Nat.two_pos
      refine ⟨[some [97], some [], some [98]], [], rfl, rfl, ?_, Or.inl rfl⟩
      rintro blob ⟨⟩
      exact List.cons_ne_nil _ _
    | succ n =>
      have hlast : step ⟨⟨[], 0⟩, [97, 98], [some 97, some 98]⟩ (.writesome (some 0)) =
          some ⟨⟨[], 0⟩, [97, 98], [some 97, some 98]⟩ := by decide +kernel
      apply And.intro hlast
      apply And.intro
      · intro iovs hiovs hpos
        have hvector : (⟨[], 0⟩ : Writer).vector = some [] := by rfl
        cases hvector.symm.trans hiovs
        exact hpos
      · exact ⟨[], [], rfl, rfl, (fun _ h => nomatch h), Or.inl rfl⟩
  exact ⟨_, _, hwrites, hrun, ((writer_drains _ hrun hsmooth).2 _ _ rfl hwrites).2⟩

/-- A blob without bytes stays in the queue however often it is written: the writer is not empty although no byte
is unsent. -/
theorem writer_stuck : ∃ state, run step create [.append (some []) true] = some state ∧ state.unsent = 0 ∧
    state.writer.writerempty = false ∧ ∀ n, run step state (List.replicate n (.writesome (some 0))) = some state := by
  have hstep : step ⟨⟨[some []], 0⟩, [], []⟩ (.writesome (some 0)) = some ⟨⟨[some []], 0⟩, [], []⟩ := by decide +kernel
  apply Exists.intro ⟨⟨[some []], 0⟩, [], []⟩
  apply And.intro rfl
  apply And.intro rfl
  apply And.intro rfl
  intro n
  induction n with
  | zero => rfl
  | succ n ih =>
    rw [List.replicate_succ, run_cons hstep]
    exact ih

end Writing

end Aug.Net
