import Aug.Net.Base64

/-!
# The encoder over the parts of a string

What has been flushed and what is in the buffer is the encoding of all whole groups of three bytes,
and the bytes after them are saved. The parts in which the bytes arrive make no difference.
-/

namespace Aug.Net

open Aug.Lib Call

namespace Base64

/-- The characters that have been put. -/
def emitted (base64 : Base64) : List UInt8 := base64.output.flatten ++ base64.buf

/-- Characters were put, and nothing else has changed. -/
structure Emits (base64 : Base64) (chars : List UInt8) (next : Base64) : Prop where
  emitted : next.emitted = base64.emitted ++ chars
  save : next.save = base64.save
  saved : next.saved = base64.saved

/-- The encoding of the whole groups of three bytes. -/
def chunks : List UInt8 → List UInt8
  | c0 :: c1 :: c2 :: rest => encode0 c0 :: encode1 c0 c1 :: encode2 c1 c2 :: encode3 c2 :: chunks rest
  | _ => []

/-- The bytes after the whole groups of three. -/
def remainder : List UInt8 → List UInt8
  | _ :: _ :: _ :: rest => remainder rest
  | rest => rest

/-- The encoding of a group that is not complete. -/
def padded : List UInt8 → List UInt8
  | [c0] => [encode0 c0, encode1 c0 0, pad, pad]
  | [c0, c1] => [encode0 c0, encode1 c0 c1, encode2 c1 0, pad]
  | _ => []

variable {base64 next last : Base64} {chars more src r : List UInt8}

theorem Emits.trans (h : Emits base64 chars next) (hmore : Emits next more last) :
    Emits base64 (chars ++ more) last where
  emitted := by rw [hmore.emitted, h.emitted, List.append_assoc]
  save := hmore.save.trans h.save
  saved := hmore.saved.trans h.saved

theorem Emits.saves (h : Emits base64 chars next) (hsaves : Saves base64 r) : Saves next r := by
  rw [Saves.eq_def] at hsaves ⊢
  rw [h.save, h.saved]
  exact hsaves

theorem flush_emits (base64 : Base64) : ∃ next, Returns flush base64 () next ∧ Emits base64 [] next ∧ next.buf = [] := by
  apply Exists.intro _
  apply And.intro (returns_modify _ base64)
  apply And.intro _ rfl
  exact ⟨by simp [Base64.emitted], rfl, rfl⟩

theorem put_emits (base64 : Base64) (full : ℕ → Bool) (chars : List UInt8) :
    ∃ next, Returns (put full chars) base64 () next ∧ Emits base64 chars next := by
  have hstore : ∀ base64 : Base64, Emits base64 chars { base64 with buf := base64.buf ++ chars } := by
    intro base64
    exact ⟨by simp [Base64.emitted], rfl, rfl⟩
  by_cases hfull : full base64.buf.length = true
  · obtain ⟨flushed, hflush, hemits, -⟩ := flush_emits base64
    apply Exists.intro { flushed with buf := flushed.buf ++ chars }
    apply And.intro
    · apply (returns_read base64).bind
      rw [if_pos hfull]
      exact hflush.bind (returns_modify _ flushed)
    · exact hemits.trans (hstore flushed)
  · apply Exists.intro { base64 with buf := base64.buf ++ chars }
    apply And.intro
    · apply (returns_read base64).bind
      rw [if_neg hfull]
      exact returns_modify _ base64
    · exact hstore base64

theorem putch_emits (base64 : Base64) (ch : UInt8) : ∃ next, Returns (putch ch) base64 () next ∧ Emits base64 [ch] next :=
  put_emits base64 _ [ch]

theorem putchunk_emits (base64 : Base64) (c0 c1 c2 c3 : UInt8) :
    ∃ next, Returns (putchunk c0 c1 c2 c3) base64 () next ∧ Emits base64 [c0, c1, c2, c3] next :=
  put_emits base64 _ [c0, c1, c2, c3]

/-- The rest of the buffer is flushed. -/
theorem flushrest_returns (base64 : Base64) : ∃ next, Returns flushrest base64 () next ∧ next.output.flatten = base64.emitted ∧
    next.save = base64.save ∧ next.saved = base64.saved ∧ next.buf = [] := by
  by_cases hempty : base64.buf.length ≠ 0
  · obtain ⟨next, hflush, hemits, hbuf⟩ := flush_emits base64
    apply Exists.intro next
    apply And.intro
    · apply (returns_read base64).bind
      rw [if_pos hempty]
      exact hflush
    · have houtput := hemits.emitted
      rw [Base64.emitted, hbuf, List.append_nil, List.append_nil] at houtput
      exact ⟨houtput, hemits.save, hemits.saved, hbuf⟩
  · apply Exists.intro base64
    apply And.intro
    · apply (returns_read base64).bind
      rw [if_neg hempty]
      exact returns_pure () base64
    · rw [ne_eq, not_not, List.length_eq_zero_iff] at hempty
      rw [Base64.emitted, hempty, List.append_nil]
      exact ⟨rfl, rfl, rfl, rfl⟩

theorem chunks_append (xs ys : List UInt8) : chunks (xs ++ ys) = chunks xs ++ chunks (remainder xs ++ ys) := by
  induction xs using chunks.induct with
  | case1 c0 c1 c2 rest ih => simp only [List.cons_append, chunks, remainder, ih]
  | case2 xs hshort =>
    have hchunks : chunks xs = [] := by
      rw [chunks]
      exact hshort
    have hremainder : remainder xs = xs := by
      rw [remainder]
      exact hshort
    rw [hchunks, hremainder, List.nil_append]

theorem remainder_append (xs ys : List UInt8) : remainder (xs ++ ys) = remainder (remainder xs ++ ys) := by
  induction xs using chunks.induct with
  | case1 c0 c1 c2 rest ih => simp only [List.cons_append, remainder, ih]
  | case2 xs hshort =>
    have hremainder : remainder xs = xs := by
      rw [remainder]
      exact hshort
    rw [hremainder]

/-- After the whole groups of three there is none. -/
theorem chunks_remainder (xs : List UInt8) : chunks (remainder xs) = [] := by
  induction xs using chunks.induct with
  | case1 c0 c1 c2 rest ih => simpa only [remainder] using ih
  | case2 xs hshort =>
    have hremainder : remainder xs = xs := by
      rw [remainder]
      exact hshort
    rw [hremainder, chunks]
    exact hshort

/-- The bytes after the whole groups are fewer than three. -/
theorem remainder_cases (xs : List UInt8) :
    remainder xs = [] ∨ (∃ c0, remainder xs = [c0]) ∨ ∃ c0 c1, remainder xs = [c0, c1] := by
  induction xs using chunks.induct with
  | case1 c0 c1 c2 rest ih => simpa only [remainder] using ih
  | case2 xs hshort =>
    have hremainder : remainder xs = xs := by
      rw [remainder]
      exact hshort
    rw [hremainder]
    cases xs with
    | nil => exact .inl rfl
    | cons c0 xs =>
      cases xs with
      | nil => exact .inr (.inl ⟨c0, rfl⟩)
      | cons c1 xs =>
        cases xs with
        | nil => exact .inr (.inr ⟨c0, c1, rfl⟩)
        | cons c2 xs => exact absurd rfl (hshort c0 c1 c2 xs)

/-- The loop of the encoder, when nothing is saved. -/
theorem encodechunks_returns (src : List UInt8) (hsaves : Saves base64 []) : ∃ next, Returns (encodechunks src) base64 () next ∧
    next.emitted = base64.emitted ++ chunks src ∧ Saves next (remainder src) := by
  induction src using encodechunks.induct generalizing base64 with
  | case1 c0 c1 c2 rest ih =>
    obtain ⟨next, hput, hemits⟩ := putchunk_emits base64 (encode0 c0) (encode1 c0 c1) (encode2 c1 c2)
      (encode3 c2)
    obtain ⟨last, hrest, hemitted, hlast⟩ := ih (hemits.saves hsaves)
    apply Exists.intro last
    apply And.intro (hput.bind hrest)
    rw [hemitted, hemits.emitted, List.append_assoc]
    exact ⟨rfl, hlast⟩
  | case2 c0 c1 =>
    apply Exists.intro _
    apply And.intro ((returns_modify _ base64).bind ((returns_modify _ _).bind (returns_modify _ _)))
    exact ⟨(List.append_nil _).symm, rfl, rfl, rfl⟩
  | case3 c0 =>
    apply Exists.intro _
    apply And.intro ((returns_modify _ base64).bind (returns_modify _ _))
    exact ⟨(List.append_nil _).symm, rfl, rfl⟩
  | case4 => exact ⟨base64, returns_pure () base64, (List.append_nil _).symm, hsaves⟩

/-- An aligned part goes to the loop. -/
theorem encodeappend_aligned {align : ℕ} (halign : Returns (encodealign src) base64 (some align) next)
    (hemitted : next.emitted = base64.emitted ++ chars) (hsaves : Saves next []) :
    ∃ last, Returns (encodeappend src) base64 () last ∧
      last.emitted = base64.emitted ++ (chars ++ chunks (src.drop align)) ∧
      Saves last (remainder (src.drop align)) := by
  obtain ⟨last, hloop, hlast, hsaved⟩ := encodechunks_returns (src.drop align) hsaves
  apply Exists.intro last
  apply And.intro (halign.bind hloop)
  rw [hlast, hemitted, List.append_assoc]
  exact ⟨rfl, hsaved⟩

/-- A part that does not complete the group only adds to what is saved. -/
theorem encodeappend_short (halign : Returns (encodealign src) base64 none next) :
    Returns (encodeappend src) base64 () next :=
  halign.bind (returns_pure () next)

/-- A part is encoded as if it had come together with what was saved. -/
theorem encodeappend_returns (hsaves : Saves base64 (remainder r)) (src : List UInt8) :
    ∃ next, Returns (encodeappend src) base64 () next ∧
      next.emitted = base64.emitted ++ chunks (remainder r ++ src) ∧ Saves next (remainder (remainder r ++ src)) := by
  obtain ⟨output, buf, save, saved⟩ := base64
  obtain hnil | ⟨c0, hone⟩ | ⟨c0, c1, htwo⟩ := remainder_cases r
  · rw [hnil] at hsaves ⊢
    cases hsaves
    have halign : Returns (encodealign src) ⟨output, buf, save, 0⟩ (some 0) ⟨output, buf, save, 0⟩ :=
      (returns_read _).bind (returns_pure _ _)
    exact encodeappend_aligned halign (List.append_nil _).symm rfl
  · rw [hone] at hsaves ⊢
    obtain ⟨hsaved, hsave⟩ := hsaves
    cases hsaved
    cases hsave
    match src with
    | [] =>
      have halign : Returns (encodealign []) ⟨output, buf, save, 1⟩ none ⟨output, buf, save, 1⟩ :=
        (returns_read _).bind (returns_pure _ _)
      exact ⟨_, encodeappend_short halign, (List.append_nil _).symm, rfl, rfl⟩
    | [src0] =>
      have halign : Returns (encodealign [src0]) ⟨output, buf, save, 1⟩ none
          ⟨output, buf, Function.update save 1 src0, 2⟩ :=
        (returns_read _).bind ((returns_modify _ _).bind ((returns_modify _ _).bind (returns_pure _ _)))
      exact ⟨_, encodeappend_short halign, (List.append_nil _).symm, rfl, rfl, rfl⟩
    | src0 :: src1 :: rest =>
      obtain ⟨next, hput, hemits⟩ := putchunk_emits ⟨output, buf, save, 0⟩ (encode0 (save 0))
        (encode1 (save 0) src0) (encode2 src0 src1) (encode3 src1)
      have halign : Returns (encodealign (src0 :: src1 :: rest)) ⟨output, buf, save, 1⟩ (some 2) next :=
        (returns_read _).bind ((returns_modify _ _).bind (hput.bind (returns_pure _ _)))
      exact encodeappend_aligned halign hemits.emitted (hemits.saves rfl)
  · rw [htwo] at hsaves ⊢
    obtain ⟨hsaved, hsave0, hsave1⟩ := hsaves
    cases hsaved
    cases hsave0
    cases hsave1
    match src with
    | [] =>
      have halign : Returns (encodealign []) ⟨output, buf, save, 2⟩ none ⟨output, buf, save, 2⟩ :=
        (returns_read _).bind (returns_pure _ _)
      exact ⟨_, encodeappend_short halign, (List.append_nil _).symm, rfl, rfl, rfl⟩
    | src0 :: rest =>
      obtain ⟨next, hput, hemits⟩ := putchunk_emits ⟨output, buf, save, 0⟩ (encode0 (save 0))
        (encode1 (save 0) (save 1)) (encode2 (save 1) src0) (encode3 src0)
      have halign : Returns (encodealign (src0 :: rest)) ⟨output, buf, save, 2⟩ (some 1) next :=
        (returns_read _).bind ((returns_modify _ _).bind (hput.bind (returns_pure _ _)))
      exact encodeappend_aligned halign hemits.emitted (hemits.saves rfl)

/-- The parts of a string are encoded as the string. -/
theorem encodeappends_returns (base64 : Base64) (front : List UInt8) (parts : List (List UInt8))
    (hsaves : Saves base64 (remainder front)) :
    ∃ next, Returns (appends encodeappend parts) base64 () next ∧
      next.emitted = base64.emitted ++ chunks (remainder front ++ parts.flatten) ∧
      Saves next (remainder (front ++ parts.flatten)) := by
  induction parts generalizing base64 front with
  | nil =>
    apply Exists.intro base64
    rw [List.flatten_nil, List.append_nil, List.append_nil, chunks_remainder, List.append_nil]
    exact ⟨returns_pure () base64, rfl, hsaves⟩
  | cons part parts ih =>
    obtain ⟨next, happend, hnext, hsaved⟩ := encodeappend_returns hsaves part
    rw [← remainder_append] at hsaved
    obtain ⟨last, hparts, hlast, hleft⟩ := ih next (front ++ part) hsaved
    apply Exists.intro last
    apply And.intro (happend.bind hparts)
    rw [List.flatten_cons, ← List.append_assoc front]
    apply And.intro _ hleft
    rw [hlast, hnext, List.append_assoc, ← List.append_assoc (remainder front), chunks_append (remainder front ++ part),
      remainder_append front part]

/-- The end of a string is padded, and nothing is left of it. -/
theorem encodefinish_returns (hsaves : Saves base64 (remainder r)) :
    ∃ next, Returns encodefinish base64 () next ∧ next.output.flatten = base64.emitted ++ padded (remainder r) ∧
      next.saved = 0 ∧ next.buf = [] := by
  obtain ⟨output, buf, save, saved⟩ := base64
  obtain hnil | ⟨c0, hone⟩ | ⟨c0, c1, htwo⟩ := remainder_cases r
  · rw [hnil] at hsaves ⊢
    cases hsaves
    obtain ⟨last, hflush, houtput, -, hsaved, hbuf⟩ := flushrest_returns ⟨output, buf, save, 0⟩
    apply Exists.intro last
    apply And.intro
    · exact (returns_read _).bind hflush
    · rw [houtput]
      exact ⟨(List.append_nil _).symm, hsaved, hbuf⟩
  · rw [hone] at hsaves ⊢
    obtain ⟨hsaved, hsave⟩ := hsaves
    cases hsaved
    cases hsave
    obtain ⟨next, hput, hemits⟩ := putchunk_emits ⟨output, buf, save, 0⟩ (encode0 (save 0))
      (encode1 (save 0) 0) pad pad
    obtain ⟨last, hflush, houtput, -, hsaved, hbuf⟩ := flushrest_returns next
    apply Exists.intro last
    apply And.intro
    · exact (returns_read _).bind ((returns_modify _ _).bind (hput.bind hflush))
    · rw [houtput, hemits.emitted]
      exact ⟨rfl, hsaved.trans hemits.saved, hbuf⟩
  · rw [htwo] at hsaves ⊢
    obtain ⟨hsaved, hsave0, hsave1⟩ := hsaves
    cases hsaved
    cases hsave0
    cases hsave1
    obtain ⟨next, hput, hemits⟩ := putchunk_emits ⟨output, buf, save, 0⟩ (encode0 (save 0))
      (encode1 (save 0) (save 1)) (encode2 (save 1) 0) pad
    obtain ⟨last, hflush, houtput, -, hsaved, hbuf⟩ := flushrest_returns next
    apply Exists.intro last
    apply And.intro
    · exact (returns_read _).bind ((returns_modify _ _).bind (hput.bind hflush))
    · rw [houtput, hemits.emitted]
      exact ⟨rfl, hsaved.trans hemits.saved, hbuf⟩

/-- The encoding of a string. -/
def encoding (bytes : List UInt8) : List UInt8 := chunks bytes ++ padded (remainder bytes)

/-- An encoder that has nothing left of another string encodes this one behind it, whatever its parts are. -/
theorem encodes_clean (hsaved : base64.saved = 0) (hbuf : base64.buf = []) (parts : List (List UInt8)) :
    ∃ encoder, Returns (encodes parts) base64 () encoder ∧
      encoder.output.flatten = base64.output.flatten ++ encoding parts.flatten ∧
      encoder.saved = 0 ∧ encoder.buf = [] := by
  obtain ⟨next, hparts, hemitted, hsaves⟩ := encodeappends_returns base64 [] parts hsaved
  obtain ⟨encoder, hfinish, houtput, hclean⟩ := encodefinish_returns hsaves
  apply Exists.intro encoder
  apply And.intro (hparts.bind hfinish)
  apply And.intro _ hclean
  rw [houtput, hemitted, Base64.emitted, hbuf, List.append_nil, List.append_assoc]
  rfl

/-- Encoding succeeds, and gives the encoding of the string whatever its parts are. -/
theorem encodes_returns (parts : List (List UInt8)) :
    ∃ encoder, Returns (encodes parts) create () encoder ∧ encoder.output.flatten = encoding parts.flatten := by
  obtain ⟨encoder, hencodes, houtput, -⟩ := @encodes_clean create rfl rfl parts
  exact ⟨encoder, hencodes, houtput⟩

end Base64

end Aug.Net
