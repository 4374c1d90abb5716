import Aug.Net.Writer

/-!
# Integrity of the written stream

A write leaves the stream intact if the offset of the first blob is zero or the first blob is
completed, and if the entries of the vector have the lengths of the blobs as far as the write goes.
For blobs of less than `2 ^ 31` bytes only the first condition is left: `popbufs_` stores the bytes of
the last write as the offset, where it would have to add them to the offset that was there.
-/

namespace Aug.Net

open Aug.Lib

namespace Writer

/-- The entry is completed by a write of `num` bytes. -/
def Completed (iov : IoVec) (num : ℕ) : Prop := num ≠ 0 ∧ iov.len ≤ num

instance (iov : IoVec) (num : ℕ) : Decidable (Completed iov num) :=
  inferInstanceAs (Decidable (num ≠ 0 ∧ iov.len ≤ num))

/-- The entries that are completed have the lengths of what they describe, and of the entry in which
the write stops no more is read than there is. -/
def Covered : List IoVec → ℕ → Prop
  | [], _ => True
  | iov :: rest, num =>
    if Completed iov num then iov.len = iov.base.length ∧ Covered rest (num - iov.len)
    else num ≤ iov.base.length

/-- The first entry is completed. -/
def Completes : List IoVec → ℕ → Prop
  | [], _ => False
  | iov :: _, num => Completed iov num

/-- The write is covered, and it starts at the beginning of the first blob or completes it. -/
def Aligned (part : ℕ) (iovs : List IoVec) (num : ℕ) : Prop :=
  Covered iovs num ∧ (part = 0 ∨ Completes iovs num)

/-- The vector has the bytes of the first blobs. -/
def Maps (iovs : List IoVec) (list : List Blob) : Prop :=
  iovs.map IoVec.base <+: list.map fun blob => blob.getD []

/-- The offset is inside of the first blob. -/
def Placed : Writer → Prop
  | ⟨[], part⟩ => part = 0
  | ⟨blob :: _, part⟩ => part ≤ (blob.getD []).length

variable {iov : IoVec} {iovs rest : List IoVec} {blob : Blob} {list : List Blob} {base : List UInt8} {num : ℕ}

theorem popbufs_completed (h : Completed iov num) :
    popbufs (blob :: list) (iov :: iovs) num = popbufs list iovs (num - iov.len) := by
  have h' : num ≠ 0 ∧ iov.len ≤ num := h
  rw [popbufs, if_pos h', List.tail_cons]

theorem popbufs_stopped (h : ¬Completed iov num) : popbufs list (iov :: iovs) num = ⟨list, num⟩ := by
  have h' : ¬(num ≠ 0 ∧ iov.len ≤ num) := h
  rw [popbufs, if_neg h']

theorem covered_completed (h : Completed iov num) :
    Covered (iov :: iovs) num ↔ iov.len = iov.base.length ∧ Covered iovs (num - iov.len) := by
  rw [Covered, if_pos h]

theorem covered_stopped (h : ¬Completed iov num) : Covered (iov :: iovs) num ↔ num ≤ iov.base.length := by
  rw [Covered, if_neg h]

theorem bytes_cons : bytes (blob :: list) = blob.getD [] ++ bytes list := rfl

theorem maps_cons : Maps (iov :: iovs) (blob :: list) ↔ iov.base = blob.getD [] ∧ Maps iovs list :=
  List.cons_prefix_cons

theorem slice_inside (h : num ≤ base.length) : slice base num = (base.take num).map some := by
  rw [slice, Nat.sub_eq_zero_of_le h, List.replicate_zero, List.append_nil]

/-- Reading past the end is recorded. -/
theorem none_mem_slice (h : base.length < num) : none ∈ slice base num := by
  apply List.mem_append_right
  exact List.mem_replicate.mpr ⟨by omega, rfl⟩

theorem inside_of_not_mem (h : none ∉ slice base num) : num ≤ base.length := by
  by_contra hlt
  exact h (none_mem_slice (by omega))

theorem gather_zero : gather iovs 0 = [] := by
  induction iovs with
  | nil => rfl
  | cons iov iovs ih => rw [gather, Nat.zero_min, Nat.zero_sub, ih, slice_inside (Nat.zero_le _)]; rfl

theorem gather_completed (h : Completed iov num) :
    gather (iov :: iovs) num = slice iov.base iov.len ++ gather iovs (num - iov.len) := by
  rw [gather, Nat.min_eq_right h.2]

/-- A write that stops in the first entry reads from this entry only. -/
theorem gather_stopped (h : ¬Completed iov num) : gather (iov :: iovs) num = slice iov.base num := by
  have hle : num ≤ iov.len := by
    by_contra hlt
    exact h ⟨by omega, by omega⟩
  rw [gather, Nat.min_eq_left hle, Nat.sub_eq_zero_of_le hle, gather_zero, List.append_nil]

/-- No more is written and left than there was, unless the write has read past the end of a blob. -/
theorem written_le (hmaps : Maps iovs list) (h : none ∉ gather iovs num) :
    (gather iovs num).length + (popbufs list iovs num).pending.length ≤ (bytes list).length := by
  induction iovs generalizing list num with
  | nil =>
    simp only [gather, popbufs, pending, List.length_nil, List.length_drop]
    omega
  | cons iov iovs ih =>
    cases list with
    | nil => simp [Maps] at hmaps
    | cons blob list =>
      obtain ⟨hbase, hrest⟩ := maps_cons.mp hmaps
      by_cases hcompleted : Completed iov num
      · rw [gather_completed hcompleted, List.mem_append, not_or] at h
        have hlen := inside_of_not_mem h.1
        have hle := ih hrest h.2
        rw [popbufs_completed hcompleted, gather_completed hcompleted, bytes_cons, ← hbase]
        rw [slice_inside hlen]
        simp only [List.length_append, List.length_map, List.length_take]
        omega
      · rw [gather_stopped hcompleted] at h
        have hlen := inside_of_not_mem h
        rw [popbufs_stopped hcompleted, gather_stopped hcompleted, pending, bytes_cons, ← hbase, slice_inside hlen]
        simp only [List.length_append, List.length_map, List.length_take, List.length_drop]
        omega

/-- What a write over a first entry that it completes leaves is what was there, if and only if this
entry has the length of its bytes and the same is true of the rest. -/
theorem completed_iff (hmaps : Maps rest list)
    (hrest : Covered rest (num - iov.len) ↔ gather rest (num - iov.len) ++
      (popbufs list rest (num - iov.len)).pending.map some = (bytes list).map some) :
    (iov.len = iov.base.length ∧ Covered rest (num - iov.len)) ↔
      slice iov.base iov.len ++ gather rest (num - iov.len) ++
        (popbufs list rest (num - iov.len)).pending.map some = (iov.base ++ bytes list).map some := by
  constructor
  · intro h
    rw [slice_inside h.1.le, h.1, List.take_length, ← h.1, List.append_assoc, hrest.mp h.2, List.map_append]
  · intro h
    have hnone : none ∉ slice iov.base iov.len ++ gather rest (num - iov.len) := by
      intro hmem
      have hmem' := List.mem_append_left ((popbufs list rest (num - iov.len)).pending.map some) hmem
      rw [h] at hmem'
      simp at hmem'
    rw [List.mem_append, not_or] at hnone
    have hinside := inside_of_not_mem hnone.1
    have hle := written_le hmaps hnone.2
    have hlength := congrArg List.length h
    rw [slice_inside hinside] at hlength
    simp only [List.length_append, List.length_map, List.length_take] at hlength
    have hlen : iov.len = iov.base.length := by omega
    apply And.intro hlen
    rw [slice_inside hlen.le, hlen, List.take_length, ← hlen, List.append_assoc, List.map_append] at h
    exact hrest.mpr (List.append_cancel_left h)

/-- A write that starts at the beginning of a blob leaves the stream intact if and only if it is
covered. -/
theorem covered_iff (hmaps : Maps iovs list) (hnum : num ≤ iovsum iovs) :
    Covered iovs num ↔ gather iovs num ++ (popbufs list iovs num).pending.map some = (bytes list).map some := by
  induction iovs generalizing list num with
  | nil =>
    have hzero : num = 0 := by simpa [iovsum] using hnum
    simp [Covered, gather, popbufs, pending, hzero]
  | cons iov iovs ih =>
    cases list with
    | nil => simp [Maps] at hmaps
    | cons blob list =>
      obtain ⟨hbase, hrest⟩ := maps_cons.mp hmaps
      by_cases hcompleted : Completed iov num
      · have hle : num - iov.len ≤ iovsum iovs := by
          simp only [iovsum, List.map_cons, List.sum_cons] at hnum ⊢
          omega
        rw [covered_completed hcompleted, popbufs_completed hcompleted, gather_completed hcompleted, bytes_cons,
          ← hbase]
        exact completed_iff hrest (ih hrest hle)
      · rw [covered_stopped hcompleted, popbufs_stopped hcompleted, gather_stopped hcompleted, pending, bytes_cons,
          ← hbase]
        constructor
        · intro h
          rw [slice_inside h, ← List.map_append, List.drop_append_of_le_length h, ← List.append_assoc,
            List.take_append_drop]
        · intro h
          apply inside_of_not_mem
          intro hmem
          have hmem' := List.mem_append_left (((iov.base ++ bytes list).drop num).map some) hmem
          rw [h] at hmem'
          simp at hmem'

/-- A write from an offset leaves the stream intact if and only if it is covered, and the offset is
zero or the first blob is completed. -/
theorem aligned_iff {part : ℕ} (hbase : iov.base = (blob.getD []).drop part) (hpart : part ≤ (blob.getD []).length)
    (hmaps : Maps rest list) (hnum : num ≤ iovsum (iov :: rest)) :
    Aligned part (iov :: rest) num ↔
      gather (iov :: rest) num ++ (popbufs (blob :: list) (iov :: rest) num).pending.map some =
        ((bytes (blob :: list)).drop part).map some := by
  have hbytes : (bytes (blob :: list)).drop part = iov.base ++ bytes list := by
    rw [bytes_cons, List.drop_append_of_le_length hpart, hbase]
  rw [hbytes, Aligned, Completes]
  by_cases hcompleted : Completed iov num
  · have hle : num - iov.len ≤ iovsum rest := by
      simp only [iovsum, List.map_cons, List.sum_cons] at hnum ⊢
      omega
    rw [popbufs_completed hcompleted, gather_completed hcompleted, covered_completed hcompleted,
      ← completed_iff hmaps (covered_iff hmaps hle)]
    exact and_iff_left (.inr hcompleted)
  · have hlength : iov.base.length = (blob.getD []).length - part := by rw [hbase, List.length_drop]
    rw [popbufs_stopped hcompleted, gather_stopped hcompleted, covered_stopped hcompleted, pending]
    constructor
    · intro h
      have hzero : part = 0 := h.2.resolve_right hcompleted
      rw [slice_inside h.1, ← List.map_append, bytes_cons]
      rw [hzero, List.drop_zero] at hbase
      rw [← hbase, List.drop_append_of_le_length h.1, ← List.append_assoc, List.take_append_drop]
    · intro h
      have hinside : num ≤ iov.base.length := by
        apply inside_of_not_mem
        intro hmem
        have hmem' := List.mem_append_left (((bytes (blob :: list)).drop num).map some) hmem
        rw [h] at hmem'
        simp at hmem'
      apply And.intro hinside
      have hsizes := congrArg List.length h
      rw [slice_inside hinside, bytes_cons] at hsizes
      simp only [List.length_append, List.length_map, List.length_take, List.length_drop] at hsizes
      exact .inl (by omega)

/-- Where a covered write stops. -/
theorem placed_popbufs (hmaps : Maps iovs list) (hnum : num ≤ iovsum iovs) (h : Covered iovs num) :
    Placed (popbufs list iovs num) := by
  induction iovs generalizing list num with
  | nil =>
    have hzero : num = 0 := by simpa [iovsum] using hnum
    rw [popbufs, hzero]
    cases list with
    | nil => rfl
    | cons blob list => exact Nat.zero_le _
  | cons iov iovs ih =>
    cases list with
    | nil => simp [Maps] at hmaps
    | cons blob list =>
      have hcons := maps_cons.mp hmaps
      by_cases hcompleted : Completed iov num
      · have hle : num - iov.len ≤ iovsum iovs := by
          simp only [iovsum, List.map_cons, List.sum_cons] at hnum ⊢
          omega
        rw [popbufs_completed hcompleted]
        exact ih hcons.2 hle ((covered_completed hcompleted).mp h).2
      · rw [popbufs_stopped hcompleted, Placed, ← hcons.1]
        exact (covered_stopped hcompleted).mp h

theorem Placed.empty {writer : Writer} (h : Placed writer) (hlist : writer.list = []) : writer.part = 0 := by
  cases writer
  cases hlist
  exact h

theorem Placed.head {writer : Writer} (h : Placed writer) (hlist : writer.list = blob :: list) :
    writer.part ≤ (blob.getD []).length := by
  cases writer
  cases hlist
  exact h

theorem placed_append {writer : Writer} (h : Placed writer) (allocated : Bool) :
    Placed (writer.append blob allocated) := by
  obtain ⟨list, part⟩ := writer
  cases allocated with
  | false => exact h
  | true =>
    cases list with
    | nil =>
      have hzero : part = 0 := h
      simp [append, Placed, hzero]
    | cons first list => exact h

/-- The entries of the table describe the data of their blobs. -/
theorem mapped_bases {blobs : List Blob} (h : blobs.mapM mapped = some iovs) :
    iovs.map IoVec.base = blobs.map fun blob => blob.getD [] := by
  induction blobs generalizing iovs with
  | nil =>
    rw [List.mapM_nil] at h
    cases h
    rfl
  | cons blob blobs ih =>
    rw [List.mapM_cons] at h
    cases blob with
    | none => cases h
    | some data =>
      cases htail : blobs.mapM mapped with
      | none => simp [mapped, htail] at h
      | some tail =>
        simp only [mapped, Option.map_some, htail, Option.bind_eq_bind, Option.bind_some, Option.pure_def,
          Option.some.injEq] at h
        rw [← h, List.map_cons, List.map_cons, ih htail]
        rfl

/-- The vector of a queue that is not empty: the first entry has the offset. -/
theorem vector_some {writer : Writer} (h : writer.vector = some iovs) (hsize : min writer.size 64 ≠ 0) :
    ∃ blob list first rest, writer.list = blob :: list ∧ iovs = first :: rest ∧
      first.base = (blob.getD []).drop writer.part ∧ Maps rest list := by
  obtain ⟨table, htable, hoffset⟩ := Option.map_eq_some_iff.mp h
  have hbases := mapped_bases htable
  cases hlist : writer.list with
  | nil =>
    have hzero : writer.size = 0 := by rw [size, hlist]; rfl
    omega
  | cons blob list =>
    obtain ⟨count, hcount⟩ := Nat.exists_eq_succ_of_ne_zero hsize
    rw [hlist, hcount, List.take_succ_cons, List.map_cons] at hbases
    cases table with
    | nil => cases hbases
    | cons iov rest =>
      rw [List.map_cons, List.cons.injEq] at hbases
      apply Exists.intro blob
      apply Exists.intro list
      apply Exists.intro ⟨iov.base.drop writer.part, u64 (iov.len - i32 writer.part)⟩
      apply Exists.intro rest
      apply And.intro rfl
      apply And.intro hoffset.symm
      apply And.intro
      · rw [hbases.1]
      · rw [Maps, hbases.2, List.map_take]
        exact List.take_prefix _ _

/-- Entries with the lengths of what they describe cover every write. -/
theorem covered_of_exact (h : ∀ iov ∈ iovs, iov.len = iov.base.length) (hnum : num ≤ iovsum iovs) :
    Covered iovs num := by
  induction iovs generalizing num with
  | nil => trivial
  | cons iov iovs ih =>
    have hlen := h iov List.mem_cons_self
    by_cases hcompleted : Completed iov num
    · have hle : num - iov.len ≤ iovsum iovs := by
        simp only [iovsum, List.map_cons, List.sum_cons] at hnum ⊢
        omega
      rw [covered_completed hcompleted]
      exact ⟨hlen, ih (fun iov hiov => h iov (List.mem_cons_of_mem _ hiov)) hle⟩
    · rw [covered_stopped hcompleted]
      by_contra hlt
      exact hcompleted ⟨by omega, by omega⟩

/-- The length of a blob of less than `2 ^ 31` bytes is its own `int`. -/
theorem mapped_exact {blobs : List Blob} (hsmall : ∀ blob ∈ blobs, (blob.getD []).length < 2 ^ 31)
    (h : blobs.mapM mapped = some iovs) : ∀ iov ∈ iovs, iov.len = iov.base.length ∧ iov.len < 2 ^ 31 := by
  induction blobs generalizing iovs with
  | nil =>
    rw [List.mapM_nil] at h
    cases h
    simp
  | cons blob blobs ih =>
    rw [List.mapM_cons] at h
    cases blob with
    | none => cases h
    | some data =>
      have hdata : data.length < 2 ^ 31 := hsmall (some data) List.mem_cons_self
      cases htail : blobs.mapM mapped with
      | none => simp [mapped, htail] at h
      | some tail =>
        simp only [mapped, Option.map_some, htail, Option.bind_eq_bind, Option.bind_some, Option.pure_def,
          Option.some.injEq] at h
        have hlen : u64 (i32 data.length) = data.length := by
          rw [i32_of_range (by omega) (by omega), u64_of_lt (by omega)]
        rw [← h]
        intro iov hiov
        cases List.mem_cons.mp hiov with
        | inl hfirst =>
          rw [hfirst]
          dsimp only
          rw [hlen]
          exact And.intro rfl hdata
        | inr hmem => exact ih (fun blob hblob => hsmall blob (List.mem_cons_of_mem _ hblob)) htail iov hmem

/-- For blobs of less than `2 ^ 31` bytes a write is aligned if and only if it starts at the beginning of
a blob or completes the blob in which it starts. -/
theorem aligned_small {writer : Writer} (hlist : writer.list = blob :: list) (hplaced : Placed writer)
    (hsmall : ∀ blob ∈ writer.list, (blob.getD []).length < 2 ^ 31) (hsize : min writer.size 64 ≠ 0)
    (hvector : writer.vector = some iovs) (hnum : num ≤ iovsum iovs) :
    Aligned writer.part iovs num ↔
      writer.part = 0 ∨ num ≠ 0 ∧ (blob.getD []).length - writer.part ≤ num := by
  obtain ⟨table, htable, hoffset⟩ := Option.map_eq_some_iff.mp hvector
  have hexact := mapped_exact (fun blob hblob => hsmall blob (List.mem_of_mem_take hblob)) htable
  obtain ⟨blob', list', first, rest, hlist', hiovs, hbase, -⟩ := vector_some hvector hsize
  rw [hlist, List.cons.injEq] at hlist'
  rw [← hlist'.1] at hbase
  have hpart := hplaced.head hlist
  have hblob : (blob.getD []).length < 2 ^ 31 := hsmall blob (by rw [hlist]; exact List.mem_cons_self)
  cases table with
  | nil =>
    rw [hiovs] at hoffset
    cases hoffset
  | cons iov others =>
    rw [hiovs, offset, List.cons.injEq] at hoffset
    have hiov := hexact iov List.mem_cons_self
    have hdata : iov.base.length = (blob.getD []).length := by
      have hbases := mapped_bases htable
      obtain ⟨count, hcount⟩ := Nat.exists_eq_succ_of_ne_zero hsize
      rw [hlist, hcount, List.take_succ_cons, List.map_cons, List.map_cons, List.cons.injEq] at hbases
      rw [hbases.1]
    have hlen : first.len = (blob.getD []).length - writer.part := by
      rw [← hoffset.1, i32_of_range (by omega) (by omega)]
      exact u64_eq (by omega) (by omega)
    have hcovered : Covered iovs num := by
      apply covered_of_exact _ hnum
      intro other hother
      rw [hiovs, List.mem_cons] at hother
      cases hother with
      | inl hfirst => rw [hfirst, hlen, hbase, List.length_drop]
      | inr hmem =>
        rw [← hoffset.2] at hmem
        exact (hexact other (List.mem_cons_of_mem _ hmem)).1
    rw [Aligned, hiovs, Completes, Completed, hlen, ← hiovs]
    exact and_iff_right hcovered

end Writer

namespace Writing

open Writer

/-- A write that does not leave the stream intact. -/
def Misplaced (state : Writing) : WriterAction → Prop
  | .append _ _ => False
  | .writesome rsize =>
    ∃ iovs num, min state.writer.size 64 ≠ 0 ∧ state.writer.vector = some iovs ∧ rsize = some num ∧
      ¬Aligned state.writer.part iovs num

variable {state next : Writing} {action : WriterAction}

/-- A call either accepts nothing, or it is a write that the stream accepts some bytes of. -/
theorem writesome_cases {rsize : Option ℕ} (h : state.writesome rsize = some next) :
    (next = state ∧ ¬Misplaced state (.writesome rsize)) ∨
    ∃ iovs num, min state.writer.size 64 ≠ 0 ∧ state.writer.vector = some iovs ∧ rsize = some num ∧
      num ≤ iovsum iovs ∧
      next = { state with
        writer := popbufs state.writer.list iovs num
        accepted := state.accepted ++ gather iovs num } := by
  by_cases hempty : min state.writer.size 64 = 0
  · simp only [writesome, if_pos hempty, Option.some.injEq] at h
    apply Or.inl
    apply And.intro h.symm
    intro hbad
    obtain ⟨_, _, hsize, _⟩ := hbad
    exact hsize hempty
  · cases hvector : state.writer.vector with
    | none =>
      simp only [writesome, if_neg hempty, hvector, Option.some.injEq] at h
      apply Or.inl
      apply And.intro h.symm
      intro hbad
      obtain ⟨iovs, _, _, hsome, _⟩ := hbad
      rw [hvector] at hsome
      cases hsome
    | some iovs =>
      cases rsize with
      | none =>
        simp only [writesome, if_neg hempty, hvector, Option.some.injEq] at h
        apply Or.inl
        apply And.intro h.symm
        intro hbad
        obtain ⟨_, num, _, _, hsome, _⟩ := hbad
        cases hsome
      | some num =>
        simp only [writesome, if_neg hempty, hvector, Option.ite_none_right_eq_some, Option.some.injEq] at h
        exact .inr ⟨iovs, num, hempty, rfl, rfl, h.1, h.2.symm⟩

/-- A write that the stream accepts some bytes of leaves it intact if and only if it is aligned. -/
theorem intact_written {iovs : List IoVec} {num : ℕ} (hintact : Intact state) (hplaced : Placed state.writer)
    (hsize : min state.writer.size 64 ≠ 0) (hvector : state.writer.vector = some iovs) (hnum : num ≤ iovsum iovs) :
    Intact { state with
      writer := popbufs state.writer.list iovs num
      accepted := state.accepted ++ gather iovs num } ↔ Aligned state.writer.part iovs num := by
  obtain ⟨blob, list, first, rest, hlist, hiovs, hbase, hmaps⟩ := vector_some hvector hsize
  have hpart := hplaced.head hlist
  rw [hiovs] at hnum
  have hpending : state.writer.pending = (bytes (blob :: list)).drop state.writer.part := by rw [pending, hlist]
  rw [hiovs, aligned_iff hbase hpart hmaps hnum, ← hpending, hlist, Intact]
  dsimp only
  rw [← hintact, List.append_assoc]
  exact ⟨fun h => List.append_cancel_left h, fun h => congrArg (state.accepted ++ ·) h⟩

/-- An aligned write stops inside of a blob. -/
theorem placed_written {iovs : List IoVec} {num : ℕ} (hsize : min state.writer.size 64 ≠ 0)
    (hvector : state.writer.vector = some iovs) (hnum : num ≤ iovsum iovs)
    (h : Aligned state.writer.part iovs num) : Placed (popbufs state.writer.list iovs num) := by
  obtain ⟨blob, list, first, rest, hlist, hiovs, hbase, hmaps⟩ := vector_some hvector hsize
  rw [hiovs] at hnum h ⊢
  rw [hlist]
  by_cases hcompleted : Completed first num
  · have hle : num - first.len ≤ iovsum rest := by
      simp only [iovsum, List.map_cons, List.sum_cons] at hnum ⊢
      omega
    rw [popbufs_completed hcompleted]
    exact placed_popbufs hmaps hle ((covered_completed hcompleted).mp h.1).2
  · have hinside := (covered_stopped hcompleted).mp h.1
    rw [hbase, List.length_drop] at hinside
    rw [popbufs_stopped hcompleted, Placed]
    omega

/-- Appending leaves the stream intact. -/
theorem Intact.append {blob : Blob} {allocated : Bool} (hintact : Intact state) (hplaced : Placed state.writer) :
    Intact { state with
      writer := state.writer.append blob allocated
      appended := state.appended ++ if allocated then blob.getD [] else [] } := by
  cases allocated with
  | false =>
    rw [Intact, if_neg Bool.false_ne_true, List.append_nil]
    exact hintact
  | true =>
    have hpart : state.writer.part ≤ (bytes state.writer.list).length := by
      cases hlist : state.writer.list with
      | nil => exact (hplaced.empty hlist).le.trans (Nat.zero_le _)
      | cons first list =>
        rw [bytes_cons, List.length_append]
        exact (hplaced.head hlist).trans (Nat.le_add_right _ _)
    have hbytes : bytes (state.writer.list ++ [blob]) = bytes state.writer.list ++ blob.getD [] := by
      simp [bytes]
    rw [Intact, if_pos rfl, Writer.append, if_pos rfl, pending, hbytes, List.drop_append_of_le_length hpart,
      List.map_append, List.map_append, ← List.append_assoc]
    exact congrArg (· ++ (blob.getD []).map some) hintact

theorem intact_create : Intact create := rfl

theorem placed_create : Placed create.writer := rfl

/-- Over a run of appends and writes the stream is always intact if and only if no write is
misplaced. -/
theorem intact_iff (actions : List WriterAction) {last : Writing} (h : run step create actions = some last) :
    Always step Intact create actions ↔ Avoids step Misplaced create actions := by
  apply always_iff_avoids_of (q := fun state => Intact state ∧ Placed state.writer) (fun _ hq => hq.1) _ _
    ⟨intact_create, placed_create⟩ h
  · intro state action next hq hstep hgood
    cases action with
    | append blob allocated =>
      rw [step, Option.some.injEq] at hstep
      rw [← hstep]
      exact ⟨hq.1.append hq.2, placed_append hq.2 allocated⟩
    | writesome rsize =>
      cases writesome_cases hstep with
      | inl hsame => rwa [hsame.1]
      | inr hwritten =>
        obtain ⟨iovs, num, hsize, hvector, hrsize, hnum, hnext⟩ := hwritten
        have haligned : Aligned state.writer.part iovs num := by
          by_contra hmisplaced
          exact hgood ⟨iovs, num, hsize, hvector, hrsize, hmisplaced⟩
        rw [hnext]
        exact ⟨(intact_written hq.1 hq.2 hsize hvector hnum).mpr haligned,
          placed_written hsize hvector hnum haligned⟩
  · intro state action next hq hstep hbad
    cases action with
    | append blob allocated => exact absurd hbad id
    | writesome rsize =>
      cases writesome_cases hstep with
      | inl hsame => exact absurd hbad hsame.2
      | inr hwritten =>
        obtain ⟨iovs, num, hsize, hvector, hrsize, hnum, hnext⟩ := hwritten
        obtain ⟨iovs', num', _, hvector', hrsize', hmisplaced⟩ := hbad
        rw [hvector, Option.some.injEq] at hvector'
        rw [hrsize, Option.some.injEq] at hrsize'
        rw [← hvector', ← hrsize'] at hmisplaced
        rw [hnext, intact_written hq.1 hq.2 hsize hvector hnum]
        exact hmisplaced

/-- Two blobs, the first one written in two parts. -/
def twoParts : List WriterAction :=
  [.append (some [97, 98, 99]) true, .append (some [100]) true, .writesome (some 1), .writesome (some 3)]

theorem intact_iff_two_parts :
    run step create twoParts = some ⟨⟨[], 0⟩, [97, 98, 99, 100], [some 97, some 98, some 99, some 100]⟩ ∧
      (Always step Intact create twoParts ↔ Avoids step Misplaced create twoParts) := by
  have hrun : run step create twoParts =
      some ⟨⟨[], 0⟩, [97, 98, 99, 100], [some 97, some 98, some 99, some 100]⟩ := by decide +kernel
  exact ⟨hrun, intact_iff twoParts hrun⟩

/-- A blob whose first two bytes are accepted one by one: the second one is sent again. -/
theorem byte_repeated : ¬∀ (actions : List WriterAction) (last : Writing), run step create actions = some last →
    last.accepted <+: last.appended.map some := by
  intro h
  have hrun : run step create [.append (some [97, 98, 99]) true, .writesome (some 1), .writesome (some 1),
      .writesome (some 2)] = some ⟨⟨[], 0⟩, [97, 98, 99], [some 97, some 98, some 98, some 99]⟩ := by decide +kernel
  have hlength := (h _ _ hrun).length_le
  simp at hlength

end Writing

end Aug.Net
