import Aug.Mar.MFile
import Aug.Mar.SeqSpec

/-!
# Mapped files as a back end

A mapped file in use starts with the bytes of the sequence, which the mapping covers, and is at
least as long as the mapping. A resize keeps this as long as the file can serve it: the new
size does not exceed the mapping, or it does not exceed the length that the file has when it is
mapped again.
-/

namespace Aug.Mar

open Aug.Lib

/-- The length of the file when it is mapped again for `n` bytes. -/
def MFile.available (pagesize : ℕ) (mfile : MFile) (n : ℕ) : ℕ :=
  if mfile.resvd < n then u32 (reserve pagesize n - mfile.size) else mfile.file.length

/-- A mapped file serves a size: it is mapped and the size is within the logical size or the
mapping, or enough of the file is there when it is mapped for that size. -/
def MFile.Serves (pagesize : ℕ) (mfile : MFile) (n : ℕ) : Prop :=
  (∃ mm ∈ mfile.mmap, n ≤ mfile.size ∨ n ≤ mm.len) ∨
    (mfile.size < n ∧ n ≤ mfile.available pagesize n)

/-- A writable mapped file whose first bytes, all of them mapped, are those of the sequence. -/
def MFile.Holds (mfile : MFile) (bs : List UInt8) : Prop :=
  mfile.writable = true ∧ mfile.size = bs.length ∧ ∃ mm slack rest, mfile.mmap = some mm ∧
    mfile.file = (bs ++ slack) ++ rest ∧ mm.len = bs.length + slack.length ∧ mm.len < 2 ^ 32

/-- The file is at least as long as the logical size. -/
theorem MFile.Holds.size_le {mfile : MFile} {bs : List UInt8} (h : mfile.Holds bs) :
    mfile.size ≤ mfile.file.length := by
  obtain ⟨-, hsize, mm, slack, rest, -, hfile, -, -⟩ := h
  rw [hsize, hfile]
  simp only [List.length_append]
  omega

/-! ## Mapping -/

/-- A file that is long enough is mapped; an earlier mapping is replaced. -/
theorem mapsize_returns (mfile : MFile) {n : ℕ} (hn : 0 < n) (hlen : n ≤ mfile.file.length) :
    ∃ mm, mm.len = n ∧ (mapsize n).Returns mfile () { mfile with mmap := some mm } := by
  have hverify : ∀ size, n ≤ size → verify size n = .ok () := fun size h => by
    rw [verify, if_neg (by omega)]
  have hmap : ∀ size, createmmapB mfile.file.length size n = .ok { len := n, size } := fun size => by
    have hne : ¬n = 0 := by omega
    simp only [createmmapB, if_neg hne, if_pos (And.intro hn hlen)]
  cases hmm : mfile.mmap with
  | none =>
    refine ⟨{ len := n, size := mfile.file.length }, rfl, (Call.returns_read _).bind ?_⟩
    have hcreate : createmmap mfile.file.length n = .ok { len := n, size := mfile.file.length } := by
      rw [createmmap, hverify _ hlen]
      exact hmap _
    rw [hmm]
    dsimp only
    rw [hcreate]
    exact Call.returns_modify _ _
  | some mm =>
    let size := if mm.size < n then mfile.file.length else mm.size
    have hsize : n ≤ size := by
      simp only [size]
      split <;> omega
    have hremap : remmap mfile.file.length mm n = .ok { len := n, size } := by
      change verify size n >>= _ = _
      rw [hverify _ hsize]
      exact hmap _
    refine ⟨{ len := n, size }, rfl, (Call.returns_read _).bind ?_⟩
    rw [hmm]
    dsimp only
    rw [hremap]
    exact Call.returns_modify _ _

/-- Extending a writable file gives it the available length and keeps its first bytes. -/
theorem extend_returns {mfile : MFile} {bs rest : List UInt8} {pagesize n : ℕ}
    (hwritable : mfile.writable = true) (hfile : mfile.file = bs ++ rest) (hn : bs.length ≤ n)
    (havailable : n ≤ mfile.available pagesize n) :
    ∃ resvd rest', (extend pagesize n).Returns mfile () { mfile with resvd, file := bs ++ rest' } ∧
      n ≤ (bs ++ rest').length := by
  unfold MFile.available at havailable
  by_cases hresvd : mfile.resvd < n
  · rw [if_pos hresvd] at havailable
    refine ⟨reserve pagesize n, rest.take (u32 (reserve pagesize n - mfile.size) - bs.length) ++
      List.replicate (u32 (reserve pagesize n - mfile.size) - mfile.file.length) 0, ?_, ?_⟩
    · refine (Call.returns_read _).bind ?_
      rw [if_pos hresvd, if_pos hwritable]
      have hkeep : resizeTo 0 mfile.file (u32 (reserve pagesize n - mfile.size)) =
          bs ++ (rest.take (u32 (reserve pagesize n - mfile.size) - bs.length) ++
            List.replicate (u32 (reserve pagesize n - mfile.size) - mfile.file.length) 0) := by
        rw [resizeTo, hfile, List.take_append, List.take_of_length_le (by omega), List.append_assoc]
      rw [← hkeep]
      exact Call.returns_modify _ _
    · rw [hfile]
      simp only [List.length_append, List.length_take, List.length_replicate]
      omega
  · rw [if_neg hresvd] at havailable
    refine ⟨mfile.resvd, rest, ?_, by rwa [hfile] at havailable⟩
    refine (Call.returns_read _).bind ?_
    rw [if_neg hresvd, ← hfile]
    exact Call.returns_pure _ _

/-- Mapping a size that the file serves gives more bytes behind those of the sequence. -/
theorem mapmfile_returns (pagesize : ℕ) (mfile : MFile) (bs rest : List UInt8) {n : ℕ}
    (hwritable : mfile.writable = true) (hsize : mfile.size ≤ n) (hfile : mfile.file = bs ++ rest)
    (hbs : bs.length ≤ n) (hn : 0 < n) (h32 : n < 2 ^ 32)
    (hmapped : ∀ mm ∈ mfile.mmap, mm.len ≤ mfile.file.length ∧ mm.len < 2 ^ 32)
    (hserves : (∃ mm ∈ mfile.mmap, n ≤ mm.len) ∨ n ≤ mfile.available pagesize n) :
    ∃ mfile' fresh, (mapmfile pagesize n).Returns mfile () mfile' ∧
      (bs ++ fresh).length = n ∧ mfile'.Holds (bs ++ fresh) := by
  by_cases hcovered : ∃ mm ∈ mfile.mmap, n ≤ mm.len
  · obtain ⟨mm, hmm, hle⟩ := hcovered
    obtain ⟨hlen, hlen32⟩ := hmapped mm hmm
    rw [hfile, List.length_append] at hlen
    refine ⟨{ mfile with size := max mfile.size n }, rest.take (n - bs.length), ?_, ?_, hwritable, ?_,
      mm, (rest.drop (n - bs.length)).take (mm.len - n), rest.drop (mm.len - bs.length), hmm, ?_, ?_,
      hlen32⟩
    · refine (Call.returns_read _).bind ?_
      rw [if_pos ⟨mm, hmm, hle⟩]
      exact Call.returns_modify _ _
    · simp only [List.length_append, List.length_take]
      omega
    · simp only [List.length_append, List.length_take]
      omega
    · have hdrop : rest.drop (mm.len - bs.length) =
          (rest.drop (n - bs.length)).drop (mm.len - n) := by
        rw [List.drop_drop]
        congr 1
        omega
      rw [hdrop, List.append_assoc, List.take_append_drop, List.append_assoc, List.take_append_drop]
      exact hfile
    · simp only [List.length_append, List.length_take, List.length_drop]
      omega
  · obtain ⟨resvd, rest', hextend, hlong⟩ := extend_returns hwritable hfile hbs
      (hserves.resolve_left hcovered)
    obtain ⟨mm, hlen, hmap⟩ := mapsize_returns { mfile with resvd, file := bs ++ rest' } hn hlong
    rw [List.length_append] at hlong
    refine ⟨{ mfile with resvd, file := bs ++ rest', mmap := some mm, size := max mfile.size n },
      rest'.take (n - bs.length), ?_, ?_, hwritable, ?_, mm, [], rest'.drop (n - bs.length), rfl,
      ?_, ?_, hlen ▸ h32⟩
    · refine (Call.returns_read _).bind ?_
      rw [if_neg hcovered]
      exact hextend.bind (hmap.bind (Call.returns_modify _ _))
    · simp only [List.length_append, List.length_take]
      omega
    · simp only [List.length_append, List.length_take]
      omega
    · simp
    · simp only [List.length_append, List.length_take, List.length_nil]
      omega

/-! ## The sequence operations -/

/-- A change of the mapped memory of the same length is a change of the file. -/
theorem update_returns {mfile : MFile} {mm : MMap} {mem mem' rest : List UInt8}
    {f : List UInt8 → Option (List UInt8)} (hmm : mfile.mmap = some mm)
    (hfile : mfile.file = mem ++ rest) (hlen : mm.len = mem.length) (hf : f mem = some mem') :
    mfile.update f = some { mfile with file := mem' ++ rest } := by
  simp [MFile.update, hmm, hfile, hlen, hf]

/-- Moving the tail within the mapped memory. -/
theorem movetail_returns (mfile : MFile) (a b c z rest : List UInt8) {mm : MMap} {m l n : ℕ}
    (hmm : mfile.mmap = some mm) (hfile : mfile.file = (a ++ (b ++ (c ++ z))) ++ rest)
    (hmlen : mm.len = (a ++ (b ++ (c ++ z))).length)
    (hl : l = a.length + b.length + c.length) (hm : m = a.length + n + c.length)
    (hfit : n ≤ b.length + z.length) (hl32 : l < 2 ^ 32) (hm32 : m < 2 ^ 32) :
    (movetail m l c.length).Returns mfile () { mfile with
      file := ((a ++ ((b ++ (c ++ z)).take n ++ c)) ++ (b ++ (c ++ z)).drop (n + c.length)) ++ rest } := by
  have hupdate := update_returns
    (f := fun mem => move mem (u32 ((m : ℤ) - c.length)) (u32 ((l : ℤ) - c.length)) c.length)
    hmm hfile hmlen (move_tail hl hm hfit hl32 hm32)
  exact (Call.returns_read _).bind ((Call.returns_access hupdate _).bind (Call.returns_modify _ _))

theorem truncatemfile_returns {mfile : MFile} (hwritable : mfile.writable = true) (n : ℕ) :
    (truncatemfile n).Returns mfile () { mfile with size := n } := by
  refine (Call.returns_read _).bind ?_
  rw [if_pos hwritable]
  exact Call.returns_modify _ _

/-- A resize that the file serves changes the length of the region and moves the tail. -/
theorem resizemfile_returns {pagesize : ℕ} {mfile : MFile} {a b c : List UInt8} {n : ℕ}
    (hholds : mfile.Holds (a ++ (b ++ c))) (hbound : (a ++ (b ++ c)).length < 2 ^ 32)
    (h32 : a.length + n + c.length < 2 ^ 32)
    (hserves : mfile.Serves pagesize (a.length + n + c.length)) :
    ∃ mfile' b', (resizemfile pagesize (a.length + n + c.length) c.length).Returns mfile () mfile' ∧
      b'.length = n ∧ b.take n <+: b' ∧ mfile'.Holds (a ++ (b' ++ c)) := by
  obtain ⟨hwritable, hsize, mm, slack, rest, hmm, hfile, hmlen, hm32⟩ := hholds
  have hlen : (a ++ (b ++ c)).length = a.length + b.length + c.length := by
    simp only [List.length_append]
    omega
  rcases lt_trichotomy b.length n with hn | hn | hn
  · have hmapped : (∃ mm ∈ mfile.mmap, a.length + n + c.length ≤ mm.len) ∨
        a.length + n + c.length ≤ mfile.available pagesize (a.length + n + c.length) := by
      rcases hserves with ⟨mm', hmm', h | h⟩ | ⟨-, h⟩
      · exact absurd h (by omega)
      · exact .inl ⟨mm', hmm', h⟩
      · exact .inr h
    have hin : ∀ mm' ∈ mfile.mmap, mm'.len ≤ mfile.file.length ∧ mm'.len < 2 ^ 32 := by
      intro mm' hmm'
      obtain rfl := Option.some.inj (hmm.symm.trans hmm')
      refine ⟨?_, hm32⟩
      rw [hmlen, hfile]
      simp only [List.length_append]
      omega
    obtain ⟨grown, fresh, hmap, hgrown, hholds⟩ := mapmfile_returns pagesize mfile (a ++ (b ++ c))
      (slack ++ rest) hwritable (by omega) (by rw [hfile, List.append_assoc]) (by omega)
      (by omega) h32 hin hmapped
    obtain ⟨hwritable', hsize', mm', slack', rest', hmm', hfile', hmlen', hm32'⟩ := hholds
    rw [List.length_append] at hgrown
    have hmove := movetail_returns grown a b c (fresh ++ slack') rest'
      (m := a.length + n + c.length) (l := mfile.size) (n := n) hmm'
      (by rw [hfile']; simp) (by rw [hmlen']; simp; omega) (by omega) rfl (by simp; omega)
      (by omega) h32
    refine ⟨{ grown with
        file := ((a ++ ((b ++ (c ++ (fresh ++ slack'))).take n ++ c)) ++
          (b ++ (c ++ (fresh ++ slack'))).drop (n + c.length)) ++ rest' },
      (b ++ (c ++ (fresh ++ slack'))).take n, (Call.returns_read _).bind ?_, ?_, ?_,
      hwritable', ?_, mm', (b ++ (c ++ (fresh ++ slack'))).drop (n + c.length), rest', hmm', rfl, ?_,
      hm32'⟩
    · dsimp only
      rw [if_pos (by omega)]
      exact hmap.bind hmove
    · simp
      omega
    · rw [List.take_append, List.take_of_length_le hn.le]
      exact List.prefix_append _ _
    · simp at hsize' ⊢
      omega
    · simp at hmlen' ⊢
      omega
  · subst hn
    refine ⟨mfile, b, (Call.returns_read _).bind ?_, rfl, by simp, hwritable, hsize, mm, slack, rest,
      hmm, hfile, hmlen, hm32⟩
    dsimp only
    rw [if_neg (by omega), if_neg (by omega), hmm, if_neg (by simp)]
    exact Call.returns_pure _ _
  · have hmove := movetail_returns mfile a b c slack rest
      (m := a.length + n + c.length) (l := mfile.size) (n := n) hmm
      (by rw [hfile]; simp) (by rw [hmlen]; simp; omega) (by omega) rfl (by omega) (by omega) h32
    refine ⟨{ mfile with
        size := a.length + n + c.length
        file := ((a ++ ((b ++ (c ++ slack)).take n ++ c)) ++
          (b ++ (c ++ slack)).drop (n + c.length)) ++ rest },
      b.take n, (Call.returns_read _).bind ?_, by simpa using hn.le, List.prefix_rfl,
      hwritable, ?_, mm, (b ++ (c ++ slack)).drop (n + c.length), rest, hmm, ?_, ?_, hm32⟩
    · dsimp only
      rw [if_neg (by omega), if_pos (by omega)]
      refine hmove.bind (Call.Returns.bind (truncatemfile_returns ?_ _) ?_)
      · exact hwritable
      rw [hmm, if_neg (by simp)]
      exact Call.returns_pure _ _
    · simp
      omega
    · rw [List.take_append_of_le_length hn.le]
    · simp at hmlen ⊢
      omega

/-- A store through a pointer changes the file. -/
theorem pokemfile {mfile : MFile} {a b c xs : List UInt8} (hholds : mfile.Holds (a ++ (b ++ c)))
    (hxs : xs.length = b.length) :
    ∃ mfile', SeqImpl.poke a.length xs mfile = some mfile' ∧ mfile'.Holds (a ++ (xs ++ c)) := by
  obtain ⟨hwritable, hsize, mm, slack, rest, hmm, hfile, hmlen, hm32⟩ := hholds
  rw [← List.length_append] at hmlen
  have hstore : store ((a ++ (b ++ c)) ++ slack) a.length xs = some ((a ++ (xs ++ c)) ++ slack) := by
    have h := store_append (a := a) (b := b) (c := c ++ slack) rfl hxs
    simpa [List.append_assoc] using h
  refine ⟨_, update_returns (f := (store · a.length xs)) hmm hfile hmlen hstore, hwritable, ?_, mm,
    slack, rest, hmm, rfl, ?_, hm32⟩
  · simpa [hxs] using hsize
  · simpa [hxs, Nat.add_assoc] using hmlen

/-- A tail that does not fit is copied in front of the mapping. -/
theorem resizemfile_overrun {pagesize : ℕ} {mfile : MFile} {bs : List UInt8} {n tail : ℕ}
    (hholds : mfile.Holds bs) (hover : n < tail) (htail : tail ≤ bs.length) :
    (resizemfile pagesize n tail).Undefined mfile := by
  obtain ⟨-, hsize, mm, slack, rest, hmm, hfile, hmlen, hm32⟩ := hholds
  have hupdate : mfile.update (fun mem =>
      move mem (u32 ((n : ℤ) - tail)) (u32 ((mfile.size : ℤ) - tail)) tail) = none := by
    have htake : mfile.file.take mm.len = bs ++ slack := by
      rw [hfile, hmlen, ← List.length_append, List.take_left]
    rw [MFile.update, hmm, Option.bind_eq_bind, Option.bind_some, htake,
      move_overrun (by rwa [List.length_append, ← hmlen]) hover]
    rfl
  refine (Call.returns_read _).bind_undefined ?_
  dsimp only
  rw [if_neg (by omega), if_pos (by omega)]
  refine Call.Undefined.bind ((Call.returns_read _).bind_undefined ?_)
  rw [hupdate]
  exact (Call.undefined_access _).bind

/-- The first resize of a file that was empty maps it. -/
theorem resizemfile_starts {pagesize : ℕ} {mfile : MFile} {n : ℕ} (hwritable : mfile.writable = true)
    (hsize : mfile.size = 0) (hmm : mfile.mmap = none) (h32 : n < 2 ^ 32)
    (hserves : mfile.Serves pagesize n) :
    ∃ mfile' bs, (resizemfile pagesize n 0).Returns mfile () mfile' ∧ bs.length = n ∧
      mfile'.Holds bs := by
  have hgrow : mfile.size < n ∧ n ≤ mfile.available pagesize n := by
    rcases hserves with ⟨mm, h, -⟩ | h
    · simp [hmm] at h
    · exact h
  obtain ⟨mapped, fresh, hmap, hlen, hholds⟩ := mapmfile_returns pagesize mfile [] mfile.file
    hwritable hgrow.1.le rfl (Nat.zero_le _) (by omega) h32 (by simp [hmm]) (.inr hgrow.2)
  obtain ⟨hwritable', hsize', mm', slack, rest, hmm', hfile', hmlen', hm32'⟩ := hholds
  have hmove := movetail_returns mapped [] [] [] (fresh ++ slack) rest
    (m := n) (l := 0) (n := n) hmm' (by simpa using hfile') (by simpa using hmlen')
    rfl (by simp) (by simp at hlen ⊢; omega) (by omega) h32
  have hsame : ((([] : List UInt8) ++ (([] ++ ([] ++ (fresh ++ slack))).take n ++ [])) ++
      ([] ++ ([] ++ (fresh ++ slack))).drop (n + ([] : List UInt8).length)) ++ rest = mapped.file := by
    rw [hfile']
    simp
  rw [hsame] at hmove
  refine ⟨mapped, fresh, (Call.returns_read _).bind ?_, by simpa using hlen, hwritable',
    by simpa using hsize', mm', slack, rest, hmm', by simpa using hfile', by simpa using hmlen', hm32'⟩
  rw [if_pos hgrow.1, hsize]
  exact hmap.bind hmove

/-- A mapped file is a lawful back end wherever it serves the sizes asked for. -/
instance : LawfulSeq MFile where
  Starts mfile := mfile.writable = true ∧ mfile.size = 0 ∧ mfile.mmap = none
  Holds := MFile.Holds
  Grants pagesize mfile size := mfile.Serves pagesize size
  starts_size h := h.2.1
  starts_addr h := by
    change Option.map _ _ = none
    rw [h.2.2]
    rfl
  starts_resize h h32 hserves := resizemfile_starts h.1 h.2.1 h.2.2 h32 hserves
  size_of h := h.2.1
  addr_of := by
    rintro mfile bs ⟨-, -, mm, slack, rest, hmm, hfile, hmlen, -⟩
    refine ⟨slack, ?_⟩
    change mfile.mmap.map _ = _
    rw [hmm, Option.map_some, hfile, hmlen, ← List.length_append, List.take_left]
  poke_of := pokemfile
  resize_of hholds hbound h32 hserves := resizemfile_returns hholds hbound h32 hserves
  resize_overrun := resizemfile_overrun

end Aug.Mar
