import Aug.Mar.MFileSpec

/-!
# The sizes that back ends are left with

A resize that returns leaves the size that it was asked for, and a store leaves the size as it is, whether or not
they lie where the archive means them to. A resize that is refused tells the back ends apart: the block of memory
stays where it is, and the file loses its mapping.
-/

namespace Aug.Mar

open Aug.Lib

/-- A lawful back end of which the size is known after any call. Where `keeps` does not hold, a resize that is
refused leaves a null base address. -/
class SizedSeq (σ : Type) extends LawfulSeq σ where
  keeps : Bool
  poke_size {s s' : σ} {ptr : ℕ} {xs : List UInt8} : poke ptr xs s = some s' → size s' = size s
  resize_size (env : Env) (s : σ) (n tail : ℕ) :
    (resize env n tail).Ends s fun result s' => result = .ok () → size s' = n
  resize_shrink (env : Env) {s : σ} {bs : List UInt8} {n : ℕ} (tail : ℕ) : Holds s bs → n ≤ bs.length →
    (resize env n tail).Ends s fun result _ => result = .ok ()
  resize_refused {env : Env} {s : σ} {bs : List UInt8} {n : ℕ} (tail : ℕ) : Holds s bs → bs.length < n →
    ¬Grants env s n → ∃ e s', (resize env n tail).Fails s e s' ∧ if keeps then Holds s' bs else addr s' = none

/-! ## The memory back end -/

theorem resizemem_size (mpool : MPool) (memseq : MemSeq) (n tail : ℕ) :
    (resizemem mpool n tail).Ends memseq fun result memseq' => result = .ok () → memseq'.len = n := by
  apply (Call.returns_read memseq).bind_ends
  cases memseq.addr with
  | none =>
    dsimp only
    split_ifs
    · exact Call.ends_of_eq (Call.returns_modify _ _) fun _ => rfl
    · exact Call.ends_of_eq (Call.fails_fail _ _) nofun
  | some block =>
    dsimp only
    split_ifs with hgrow hgrant hshrink
    · apply Call.access_bind_ends
      intro zeroed _
      apply Call.access_bind_ends
      intro moved _
      exact Call.ends_of_eq (Call.returns_modify _ _) fun _ => rfl
    · exact Call.ends_of_eq (Call.fails_fail _ _) nofun
    · apply Call.access_bind_ends
      intro moved _
      exact Call.ends_of_eq (Call.returns_modify _ _) fun _ => rfl
    · exact Call.ends_of_eq (Call.returns_pure _ _) fun _ => by omega

/-- The block is not allocated again to be shorter. -/
theorem resizemem_shorter (mpool : MPool) {memseq : MemSeq} {bs : List UInt8} {n : ℕ} (tail : ℕ)
    (hholds : memseq.Holds bs) (hn : n ≤ bs.length) :
    (resizemem mpool n tail).Ends memseq fun result _ => result = .ok () := by
  obtain ⟨slack, rfl, -⟩ := hholds
  apply (Call.returns_read _).bind_ends
  dsimp only
  rw [if_neg (by omega)]
  split_ifs
  · apply Call.access_bind_ends
    intro moved _
    exact Call.ends_of_eq (Call.returns_modify _ _) rfl
  · exact Call.ends_of_eq (Call.returns_pure _ _) rfl

/-- Without memory the block stays. -/
theorem resizemem_refused {mpool : MPool} {memseq : MemSeq} {bs : List UInt8} {n : ℕ} (tail : ℕ)
    (hholds : memseq.Holds bs) (hn : bs.length < n) (hrefused : ¬mpool.grant n = true) :
    (resizemem mpool n tail).Fails memseq .system memseq := by
  obtain ⟨slack, rfl, -⟩ := hholds
  apply (Call.returns_read _).bind_fails
  dsimp only
  rw [if_pos hn, if_neg hrefused]
  exact Call.fails_fail _ _

instance : SizedSeq MemSeq where
  keeps := true
  poke_size := by
    intro s s' ptr xs h
    obtain ⟨block, -, rfl⟩ := Option.map_eq_some_iff.mp h
    rfl
  resize_size := resizemem_size
  resize_shrink mpool := resizemem_shorter mpool
  resize_refused tail hholds hn hrefused :=
    ⟨.system, _, resizemem_refused tail hholds hn hrefused, hholds⟩

/-! ## The file back end -/

/-- A change of the mapped memory leaves the size, and whether the file is writable. -/
theorem update_size {f : List UInt8 → Option (List UInt8)} {mfile mfile' : MFile}
    (h : mfile.update f = some mfile') : mfile'.size = mfile.size ∧ mfile'.writable = mfile.writable := by
  simp only [MFile.update, Option.pure_def, Option.bind_eq_bind, Option.bind_eq_some_iff, Option.some.injEq] at h
  obtain ⟨mm, -, mem, -, rfl⟩ := h
  exact ⟨rfl, rfl⟩

/-- What is left of a file in which the tail has been moved. -/
theorem movetail_size (size len tail : ℕ) (mfile : MFile) :
    (movetail size len tail).Ends mfile fun result mfile' =>
      result = .ok () ∧ mfile'.size = mfile.size ∧ mfile'.writable = mfile.writable := by
  apply (Call.returns_read mfile).bind_ends
  apply Call.access_bind_ends
  intro moved hmoved
  exact Call.ends_of_eq (Call.returns_modify _ _) ⟨rfl, update_size hmoved⟩

theorem extend_size (pagesize n : ℕ) (mfile : MFile) :
    (extend pagesize n).Ends mfile fun _ mfile' => mfile'.size = mfile.size := by
  apply (Call.returns_read mfile).bind_ends
  split_ifs
  · exact Call.ends_of_eq (Call.returns_modify _ _) rfl
  · exact Call.ends_of_eq (Call.fails_fail _ _) rfl
  · exact Call.ends_of_eq (Call.returns_pure _ _) rfl

theorem mapsize_size (n : ℕ) (mfile : MFile) :
    (mapsize n).Ends mfile fun _ mfile' => mfile'.size = mfile.size := by
  apply (Call.returns_read mfile).bind_ends
  cases mfile.mmap with
  | none =>
    dsimp only
    cases createmmap mfile.file.length n with
    | ok mm => exact Call.ends_of_eq (Call.returns_modify _ _) rfl
    | error e => exact Call.ends_of_eq (Call.fails_fail _ _) rfl
  | some mm =>
    dsimp only
    cases remmap mfile.file.length mm n with
    | ok mm => exact Call.ends_of_eq (Call.returns_modify _ _) rfl
    | error e =>
      apply (Call.returns_modify _ _).bind_ends
      exact Call.ends_of_eq (Call.fails_fail _ _) rfl

theorem mapmfile_size (pagesize n : ℕ) (mfile : MFile) :
    (mapmfile pagesize n).Ends mfile fun result mfile' => result = .ok () → mfile'.size = max mfile.size n := by
  apply (Call.returns_read mfile).bind_ends
  dsimp only
  split_ifs
  · exact Call.ends_of_eq (Call.returns_modify _ _) fun _ => rfl
  · apply (extend_size pagesize n mfile).bind (fun _ _ _ h => nomatch h)
    intro _ extended hextended
    apply (mapsize_size n extended).bind (fun _ _ _ h => nomatch h)
    intro _ mapped hmapped
    apply Call.ends_of_eq (Call.returns_modify _ _)
    intro _
    rw [hmapped, hextended]

theorem truncatemfile_size (n : ℕ) (mfile : MFile) :
    (truncatemfile n).Ends mfile fun result mfile' => result = .ok () → mfile'.size = n := by
  apply (Call.returns_read mfile).bind_ends
  split_ifs
  · exact Call.ends_of_eq (Call.returns_modify _ _) fun _ => rfl
  · exact Call.ends_of_eq (Call.fails_fail _ _) nofun

theorem resizemfile_size (pagesize : ℕ) (mfile : MFile) (n tail : ℕ) :
    (resizemfile pagesize n tail).Ends mfile fun result mfile' => result = .ok () → mfile'.size = n := by
  apply (Call.returns_read mfile).bind_ends
  dsimp only
  split_ifs with hgrow hshrink hmm hmm
  · apply (mapmfile_size pagesize n mfile).bind (fun _ _ _ h => nomatch h)
    intro _ mapped hmapped
    apply (movetail_size n mfile.size tail mapped).imp
    intro _ moved hmoved _
    rw [hmoved.2.1, hmapped rfl]
    omega
  · apply (movetail_size n mfile.size tail mfile).bind (fun _ _ h => nomatch h.1)
    intro _ moved _
    apply (truncatemfile_size n moved).bind (fun _ _ _ h => nomatch h)
    intro _ truncated _
    exact Call.ends_of_eq (Call.fails_fail _ _) nofun
  · apply (movetail_size n mfile.size tail mfile).bind (fun _ _ h => nomatch h.1)
    intro _ moved _
    apply (truncatemfile_size n moved).bind (fun _ _ _ h => nomatch h)
    intro _ truncated htruncated
    exact Call.ends_of_eq (Call.returns_pure _ _) fun _ => htruncated rfl
  · exact Call.ends_of_eq (Call.fails_fail _ _) nofun
  · exact Call.ends_of_eq (Call.returns_pure _ _) fun _ => by omega

/-- A mapping is not made again to be shorter. -/
theorem resizemfile_shorter (pagesize : ℕ) {mfile : MFile} {bs : List UInt8} {n : ℕ} (tail : ℕ)
    (hholds : mfile.Holds bs) (hn : n ≤ bs.length) :
    (resizemfile pagesize n tail).Ends mfile fun result _ => result = .ok () := by
  obtain ⟨hwritable, hsize, mm, slack, rest, hmm, -, -, -⟩ := hholds
  have hmapped : ¬mfile.mmap = none := by simp [hmm]
  apply (Call.returns_read mfile).bind_ends
  dsimp only
  rw [if_neg (by omega)]
  simp only [if_neg hmapped]
  split_ifs
  · apply (movetail_size n mfile.size tail mfile).bind (fun _ _ h => nomatch h.1)
    intro _ moved hmoved
    have hreturns := truncatemfile_returns (hmoved.2.2.trans hwritable) n
    exact Call.ends_of_eq (hreturns.bind (Call.returns_pure _ _)) rfl
  · exact Call.ends_of_eq (Call.returns_pure _ _) rfl

/-- A file that is too short is not mapped. -/
theorem createmmapB_short {fsize size n : ℕ} (hn : 0 < n) (hshort : fsize < n) :
    createmmapB fsize size n = .error .system := by
  have hne : ¬n = 0 := by omega
  have hlen : ¬(0 < n ∧ n ≤ fsize) := by omega
  simp only [createmmapB, if_neg hne, if_neg hlen]

/-- Mapping again a file that is too short loses the mapping. -/
theorem mapsize_short {mfile : MFile} {mm : MMap} {n : ℕ} (hmm : mfile.mmap = some mm) (hn : 0 < n)
    (hshort : mfile.file.length < n) : ∃ e, (mapsize n).Fails mfile e { mfile with mmap := none } := by
  have hremap : ∃ e, remmap mfile.file.length mm n = .error e := by
    simp only [remmap, createmmapB_short hn hshort]
    cases verify (if mm.size < n then mfile.file.length else mm.size) n with
    | ok _ => exact ⟨.system, rfl⟩
    | error e => exact ⟨e, rfl⟩
  obtain ⟨e, he⟩ := hremap
  refine ⟨e, (Call.returns_read mfile).bind_fails ?_⟩
  rw [hmm]
  dsimp only
  rw [he]
  exact (Call.returns_modify _ _).bind_fails (Call.fails_fail _ _)

/-- Where the file does not serve a size, it is not mapped any more. -/
theorem resizemfile_refused {pagesize : ℕ} {mfile : MFile} {bs : List UInt8} {n : ℕ} (tail : ℕ)
    (hholds : mfile.Holds bs) (hn : bs.length < n) (hrefused : ¬mfile.Serves pagesize n) :
    ∃ e mfile', (resizemfile pagesize n tail).Fails mfile e mfile' ∧ mfile'.mmap = none := by
  obtain ⟨hwritable, hsize, mm, slack, rest, hmm, -, -, -⟩ := hholds
  have hcovered : ¬∃ mm ∈ mfile.mmap, n ≤ mm.len := by
    rintro ⟨mm', hmm', hle⟩
    exact hrefused (.inl ⟨mm', hmm', .inr hle⟩)
  have hshort : mfile.available pagesize n < n := by
    by_contra hlong
    exact hrefused (.inr ⟨by omega, by omega⟩)
  have hextend : ∃ extended, (extend pagesize n).Returns mfile () extended ∧ extended.mmap = some mm ∧
      extended.file.length < n := by
    rw [MFile.available] at hshort
    by_cases hresvd : mfile.resvd < n
    · rw [if_pos hresvd] at hshort
      refine ⟨{ mfile with
        resvd := reserve pagesize n
        file := resizeTo 0 mfile.file (u32 (reserve pagesize n - mfile.size)) },
        (Call.returns_read mfile).bind ?_, hmm, by rwa [resizeTo_length]⟩
      rw [if_pos hresvd, if_pos hwritable]
      exact Call.returns_modify _ _
    · rw [if_neg hresvd] at hshort
      refine ⟨mfile, (Call.returns_read mfile).bind ?_, hmm, hshort⟩
      rw [if_neg hresvd]
      exact Call.returns_pure _ _
  obtain ⟨extended, hreturns, hmapped, hfile⟩ := hextend
  obtain ⟨e, hfails⟩ := mapsize_short hmapped (by omega) hfile
  have hmap : (mapmfile pagesize n).Fails mfile e { extended with mmap := none } := by
    apply (Call.returns_read mfile).bind_fails
    dsimp only
    rw [if_neg hcovered]
    exact hreturns.bind_fails hfails.bind
  refine ⟨e, { extended with mmap := none }, (Call.returns_read mfile).bind_fails ?_, rfl⟩
  dsimp only
  rw [if_pos (by omega)]
  exact hmap.bind

instance : SizedSeq MFile where
  keeps := false
  poke_size h := (update_size h).1
  resize_size := resizemfile_size
  resize_shrink pagesize := resizemfile_shorter pagesize
  resize_refused := by
    intro pagesize mfile bs n tail hholds hn hrefused
    obtain ⟨e, mfile', hfails, hmm⟩ := resizemfile_refused tail hholds hn hrefused
    refine ⟨e, mfile', hfails, ?_⟩
    change mfile'.mmap.map _ = none
    rw [hmm]
    rfl

end Aug.Mar
