import Aug.Mar.Seq

/-!
# What the sequence operations do

The memory back end is lawful wherever the allocator grants the request. Over any lawful back
end, the sequence operations read and change the bytes as a concatenation: what lies before
the region, the region, and the tail.
-/

namespace Aug.Mar

open Aug.Lib

/-! ## The memory back end -/

/-- The block starts with the bytes; what a shrink left behind follows. -/
def MemSeq.Holds (memseq : MemSeq) (bs : List UInt8) : Prop :=
  ∃ slack, memseq = { addr := some (bs ++ slack), len := bs.length } ∧ (bs ++ slack).length < 2 ^ 32

/-- A reallocation to more than is in use keeps it and adds cells of unknown content. -/
theorem realloc_append (bs slack : List UInt8) {n : ℕ} (fresh : ℕ → UInt8) (h : bs.length ≤ n) :
    ∃ junk, realloc (bs ++ slack) n fresh = bs ++ junk ∧ bs.length + junk.length = n := by
  refine ⟨slack.take (n - bs.length) ++
    (List.range (n - (bs ++ slack).length)).map fresh, ?_, ?_⟩
  · rw [realloc, List.take_append, List.take_of_length_le h, List.append_assoc]
  · simp only [List.length_append, List.length_take, List.length_map, List.length_range]
    omega

/-- Moving the tail `c` to the end of a region of length `n`, over whatever lies there. -/
theorem move_tail {a b c z : List UInt8} {m l n : ℕ} (hl : l = a.length + b.length + c.length)
    (hm : m = a.length + n + c.length) (hfit : n ≤ b.length + z.length) (hl32 : l < 2 ^ 32)
    (hm32 : m < 2 ^ 32) :
    move (a ++ (b ++ (c ++ z))) (u32 ((m : ℤ) - c.length)) (u32 ((l : ℤ) - c.length)) c.length =
      some ((a ++ ((b ++ (c ++ z)).take n ++ c)) ++ (b ++ (c ++ z)).drop (n + c.length)) := by
  have hdst : u32 ((m : ℤ) - c.length) = a.length + n := u32_eq (by omega) (by omega)
  have hsrc : u32 ((l : ℤ) - c.length) = (a ++ b).length :=
    u32_eq (by simp only [List.length_append]; omega) (by simp only [List.length_append]; omega)
  have hcat : a ++ (b ++ (c ++ z)) = (a ++ b) ++ (c ++ z) := by simp
  rw [hdst, hcat, move_append hsrc rfl (by simp; omega), List.append_assoc a b,
    List.take_length_add_append, Nat.add_assoc, List.drop_length_add_append]
  simp

/-- Growing: the tail moves to the new end, over zeroed cells. -/
theorem resizemem_grow {mpool : MPool} {a b c slack : List UInt8} {n : ℕ} (hn : b.length < n)
    (h32 : a.length + n + c.length < 2 ^ 32) (hgrant : mpool.grant (a.length + n + c.length)) :
    (resizemem mpool (a.length + n + c.length) c.length).Returns
      { addr := some ((a ++ (b ++ c)) ++ slack), len := (a ++ (b ++ c)).length } ()
      { addr := some (a ++ ((b ++ (c ++ List.replicate (n - b.length) 0)).take n ++ c))
        len := a.length + n + c.length } := by
  obtain ⟨junk, hgrown, hjunk⟩ := realloc_append (a ++ (b ++ c)) slack
    (n := a.length + n + c.length) mpool.fresh (by simp; omega)
  have hlen : (a ++ (b ++ c)).length = a.length + (b.length + c.length) := by simp
  let zeros : List UInt8 := List.replicate (n - b.length) 0
  have hzero : store ((a ++ (b ++ c)) ++ junk) (a ++ (b ++ c)).length
      (List.replicate (a.length + n + c.length - (a ++ (b ++ c)).length) 0) =
        some (a ++ (b ++ (c ++ zeros))) := by
    have hcount : a.length + n + c.length - (a ++ (b ++ c)).length = n - b.length := by omega
    rw [hcount]
    have h := store_append (a := a ++ (b ++ c)) (b := junk) (c := []) (x := zeros) rfl
      (by simp only [zeros, List.length_replicate]; omega)
    simpa [List.append_assoc, zeros] using h
  have hmove := move_tail (a := a) (b := b) (c := c) (z := zeros) (n := n)
    (m := a.length + n + c.length) (l := (a ++ (b ++ c)).length) (by simp; omega) rfl
    (by simp [zeros]; omega) (by omega) h32
  have hdrop : (b ++ (c ++ zeros)).drop (n + c.length) = [] := by
    apply List.drop_of_length_le
    simp [zeros]
    omega
  rw [hdrop, List.append_nil] at hmove
  refine Call.Returns.bind (Call.returns_read _) ?_
  dsimp only
  rw [if_pos (by omega), if_pos hgrant, hgrown]
  exact (Call.returns_access hzero _).bind ((Call.returns_access hmove _).bind rfl)

/-- Shrinking: the tail moves down over the end of the region. -/
theorem resizemem_shrink {mpool : MPool} {a b c slack : List UInt8} {n : ℕ} (hn : n < b.length)
    (h32 : (a ++ (b ++ c)).length < 2 ^ 32) :
    (resizemem mpool (a.length + n + c.length) c.length).Returns
      { addr := some ((a ++ (b ++ c)) ++ slack), len := (a ++ (b ++ c)).length } ()
      { addr := some ((a ++ (b.take n ++ c)) ++ (b ++ (c ++ slack)).drop (n + c.length))
        len := a.length + n + c.length } := by
  have hlen : (a ++ (b ++ c)).length = a.length + (b.length + c.length) := by simp
  have hmove := move_tail (a := a) (b := b) (c := c) (z := slack) (n := n)
    (m := a.length + n + c.length) (l := (a ++ (b ++ c)).length) (by simp; omega) rfl
    (by omega) h32 (by omega)
  rw [List.take_append_of_le_length hn.le] at hmove
  refine Call.Returns.bind (Call.returns_read _) ?_
  have hcat : (a ++ (b ++ c)) ++ slack = a ++ (b ++ (c ++ slack)) := by simp
  rw [hcat]
  dsimp only
  rw [if_neg (by omega), if_pos (by omega)]
  exact (Call.returns_access hmove _).bind rfl

/-- A resize of the memory back end changes the length of the region and moves the tail. -/
theorem resizemem_returns {mpool : MPool} {memseq : MemSeq} {a b c : List UInt8} {n : ℕ}
    (hholds : memseq.Holds (a ++ (b ++ c))) (h32 : a.length + n + c.length < 2 ^ 32)
    (hbound : (a ++ (b ++ c)).length < 2 ^ 32)
    (hgrant : mpool.grant (a.length + n + c.length)) :
    ∃ memseq' b', (resizemem mpool (a.length + n + c.length) c.length).Returns memseq () memseq' ∧
      b'.length = n ∧ b.take n <+: b' ∧ memseq'.Holds (a ++ (b' ++ c)) := by
  obtain ⟨slack, rfl, hblock⟩ := hholds
  rcases lt_trichotomy b.length n with hn | hn | hn
  · refine ⟨_, (b ++ (c ++ List.replicate (n - b.length) 0)).take n,
      resizemem_grow hn h32 hgrant, ?_, ?_, [], ?_, ?_⟩
    · simp
      omega
    · rw [List.take_append, List.take_of_length_le hn.le]
      exact List.prefix_append _ _
    · simp
      omega
    · simp
      omega
  · subst hn
    refine ⟨{ addr := some ((a ++ (b ++ c)) ++ slack), len := (a ++ (b ++ c)).length }, b, ?_,
      rfl, by simp, slack, rfl, hblock⟩
    refine Call.Returns.bind (Call.returns_read _) ?_
    dsimp only
    rw [if_neg (by simp; omega), if_neg (by simp; omega)]
    exact Call.returns_pure _ _
  · refine ⟨_, b.take n, resizemem_shrink hn hbound, by simpa using hn.le, List.prefix_rfl,
      (b ++ (c ++ slack)).drop (n + c.length), ?_, ?_⟩
    · simp
      omega
    · simp at hblock ⊢
      omega

/-- A tail that does not fit is copied in front of the block. -/
theorem move_overrun {mem : List UInt8} {size len tail : ℕ} (hmem : mem.length < 2 ^ 32)
    (hover : size < tail) : move mem (u32 ((size : ℤ) - tail)) (u32 ((len : ℤ) - tail)) tail = none := by
  unfold move
  cases hload : load mem (u32 ((len : ℤ) - tail)) tail with
  | none => rfl
  | some bytes =>
    have hbytes : bytes.length = tail ∧ tail ≤ mem.length := by
      unfold load at hload
      split at hload
      · obtain rfl := Option.some.inj hload
        simp
        omega
      · cases hload
    have hdst : u32 ((size : ℤ) - tail) = 2 ^ 32 + size - tail := by
      unfold u32
      omega
    rw [Option.bind_some, store, if_neg (by omega)]

theorem resizemem_overrun {mpool : MPool} {memseq : MemSeq} {bs : List UInt8} {n tail : ℕ}
    (hholds : memseq.Holds bs) (hover : n < tail) (htail : tail ≤ bs.length) :
    (resizemem mpool n tail).Undefined memseq := by
  obtain ⟨slack, rfl, hblock⟩ := hholds
  refine (Call.returns_read _).bind_undefined ?_
  dsimp only
  rw [if_neg (by omega), if_pos (by omega), move_overrun hblock hover]
  exact (Call.undefined_access _).bind

/-- The first resize allocates a zeroed block. -/
theorem resizemem_starts {mpool : MPool} {memseq : MemSeq} {n : ℕ} (hstart : memseq.addr = none)
    (h32 : n < 2 ^ 32) (hgrant : mpool.grant n) :
    ∃ memseq' bs, (resizemem mpool n 0).Returns memseq () memseq' ∧ bs.length = n ∧
      memseq'.Holds bs := by
  refine ⟨{ addr := some (List.replicate n 0), len := n }, List.replicate n 0,
    (Call.returns_read _).bind ?_, by simp, [], by simp, by simpa using h32⟩
  rw [hstart]
  dsimp only
  rw [if_pos hgrant]
  exact Call.returns_modify _ _

/-- A store through a pointer changes the bytes and keeps what a shrink left behind. -/
theorem pokemem {memseq : MemSeq} {a b c xs : List UInt8} (hholds : memseq.Holds (a ++ (b ++ c)))
    (hxs : xs.length = b.length) :
    ∃ memseq', SeqImpl.poke a.length xs memseq = some memseq' ∧ memseq'.Holds (a ++ (xs ++ c)) := by
  obtain ⟨slack, rfl, hblock⟩ := hholds
  have hstore : store ((a ++ (b ++ c)) ++ slack) a.length xs = some ((a ++ (xs ++ c)) ++ slack) := by
    have h := store_append (a := a) (b := b) (c := c ++ slack) rfl hxs
    simpa [List.append_assoc] using h
  refine ⟨{ addr := some ((a ++ (xs ++ c)) ++ slack), len := (a ++ (b ++ c)).length }, ?_,
    slack, by simp [hxs], by simpa [hxs] using hblock⟩
  change (Option.bind _ _).map _ = _
  rw [Option.bind_some, hstore]
  rfl

instance : LawfulSeq MemSeq where
  Starts memseq := memseq = { addr := none, len := 0 }
  Holds := MemSeq.Holds
  Grants mpool _ size := mpool.grant size
  starts_size h := by rw [h]; rfl
  starts_addr h := by rw [h]; rfl
  starts_resize h h32 hgrant := resizemem_starts (by rw [h]) h32 hgrant
  size_of := by
    rintro s bs ⟨slack, rfl, -⟩
    rfl
  addr_of := by
    rintro s bs ⟨slack, rfl, -⟩
    exact ⟨slack, rfl⟩
  poke_of := pokemem
  resize_of hholds hbound h32 hgrant := resizemem_returns hholds h32 hbound hgrant
  resize_overrun := resizemem_overrun

/-! ## Any lawful back end -/

variable {σ : Type} [LawfulSeq σ]

/-- A region inside the sequence is accepted. -/
theorem setregion_returns (seq : Seq σ) {bs : List UInt8} {offset len : ℕ}
    (hholds : LawfulSeq.Holds seq.impl bs) (hin : offset + len ≤ bs.length)
    (h32 : bs.length < 2 ^ 32) :
    (setregion offset len).Returns seq () { seq with offset, len } := by
  refine Call.Returns.bind (Call.returns_read _) ?_
  have hsize := LawfulSeq.size_of hholds
  have hend : u32 (offset + len) = offset + len := u32_eq (by simp) (by omega)
  rw [hsize, hend, if_neg (by omega)]
  exact Call.returns_modify _ _

/-- The region of a back end in use has an address. -/
theorem seqaddr_returns (seq : Seq σ) {bs : List UInt8} (hholds : LawfulSeq.Holds seq.impl bs) :
    seqaddr.Returns seq seq.offset seq := by
  obtain ⟨slack, haddr⟩ := LawfulSeq.addr_of hholds
  refine Call.Returns.bind (Call.returns_read _) ?_
  rw [haddr, if_neg (by simp)]
  exact Call.returns_pure _ _

/-- The bytes of the sequence may be read. -/
theorem memory_returns (seq : Seq σ) {bs : List UInt8} (hholds : LawfulSeq.Holds seq.impl bs) :
    ∃ slack, memory.Returns seq (bs ++ slack) seq := by
  obtain ⟨slack, haddr⟩ := LawfulSeq.addr_of hholds
  exact ⟨slack, Call.Returns.bind (Call.returns_read _) (Call.returns_access haddr _)⟩

/-- A store of the size of the part it lands on replaces that part. -/
theorem poke_returns (seq : Seq σ) (ptr : ℕ) {a b c : List UInt8} (xs : List UInt8)
    (hholds : LawfulSeq.Holds seq.impl (a ++ (b ++ c))) (hptr : ptr = a.length)
    (hxs : xs.length = b.length) :
    ∃ impl, (poke ptr xs).Returns seq () { seq with impl } ∧
      LawfulSeq.Holds impl (a ++ (xs ++ c)) := by
  subst hptr
  obtain ⟨impl, hpoke, hholds'⟩ := LawfulSeq.poke_of hholds hxs
  exact ⟨impl, Call.Returns.bind (Call.returns_read _)
    ((Call.returns_access hpoke _).bind (Call.returns_modify _ _)), hholds'⟩

/-- A granted resize replaces the region by one of the new length, keeping the bytes in common
and everything outside it. -/
theorem resizeseq_returns {env : SeqImpl.Env σ} (seq : Seq σ) {a b c : List UInt8} {n : ℕ}
    (hholds : LawfulSeq.Holds seq.impl (a ++ (b ++ c))) (hoffset : seq.offset = a.length)
    (hlen : seq.len = b.length) (hbound : (a ++ (b ++ c)).length < 2 ^ 32)
    (h32 : a.length + n + c.length < 2 ^ 32)
    (hgrant : LawfulSeq.Grants env seq.impl (a.length + n + c.length)) :
    ∃ impl b', (resizeseq env n).Returns seq a.length { seq with impl, len := n } ∧
      b'.length = n ∧ b.take n <+: b' ∧ LawfulSeq.Holds impl (a ++ (b' ++ c)) := by
  obtain ⟨impl, b', hresize, hb', hkept, hholds'⟩ := LawfulSeq.resize_of hholds hbound h32 hgrant
  refine ⟨impl, b', ?_, hb', hkept, hholds'⟩
  have hsize : (SeqImpl.size seq.impl : ℕ) = a.length + (b.length + c.length) := by
    simpa using LawfulSeq.size_of hholds
  have htail : u32 ((SeqImpl.size seq.impl : ℕ) - (seq.offset + seq.len : ℤ)) = c.length :=
    u32_eq (by omega) (by omega)
  have htotal : u32 ((SeqImpl.size seq.impl : ℕ) + (n - seq.len : ℤ)) = a.length + n + c.length :=
    u32_eq (by omega) h32
  refine Call.Returns.bind (Call.returns_read _) ?_
  dsimp only
  rw [htail, htotal]
  refine (Call.Returns.zoom hresize).bind ((Call.returns_modify _ _).bind ?_)
  rw [hoffset]
  exact Call.returns_pure _ _

end Aug.Mar
