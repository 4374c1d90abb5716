import Aug.Net.Base64Validity

/-!
# Using a decoder again

Whether a decoder behaves like a new one is judged by what later calls can observe, their results and what
they give to the callback. It does exactly if it has nothing saved and nothing in its buffer; the values that
are left in its fields otherwise are not read.
-/

namespace Aug.Net

open Aug.Lib Call

namespace Base64

variable {α β : Type} {base64 other next : Base64} {front chars : List UInt8} {parts : List (List UInt8)}

/-- The decoder behaves like a new one: any later calls have the same results, and give the same to the callback
behind what it has been given. -/
def LikeNew (decoder : Base64) : Prop :=
  ∀ later : List (List UInt8), (decodes later decoder).map (fun result => (result.1, result.2.output)) =
    (decodes later create).map fun result => (result.1, decoder.output ++ result.2.output)

/-- Two decoders agree but for what one of them has given to the callback before, and for values that are not
saved. -/
structure Agree (given : List (List UInt8)) (base64 other : Base64) : Prop where
  output : base64.output = given ++ other.output
  buf : base64.buf = other.buf
  saved : base64.saved = other.saved
  save : ∀ i : Fin 3, i.val < other.saved → base64.save i = other.save i

/-- Two calls end alike. -/
def Alike (given : List (List UInt8)) (x y : Base64Call α) (base64 other : Base64) : Prop :=
  (x base64 = none ∧ y other = none) ∨
    ∃ result last last', x base64 = some (result, last) ∧ y other = some (result, last') ∧ Agree given last last'

variable {given : List (List UInt8)}

theorem alike_of_returns {x y : Base64Call α} {a : α} {last last' : Base64} (hx : Returns x base64 a last)
    (hy : Returns y other a last') (h : Agree given last last') : Alike given x y base64 other :=
  Or.inr ⟨.ok a, last, last', hx, hy, h⟩

theorem alike_pure (a : α) (h : Agree given base64 other) : Alike given (pure a) (pure a) base64 other :=
  alike_of_returns (returns_pure a base64) (returns_pure a other) h

theorem alike_fail (e : Base64Error) (h : Agree given base64 other) :
    Alike given (fail e : Base64Call α) (fail e) base64 other :=
  Or.inr ⟨.error e, base64, other, rfl, rfl, h⟩

/-- Behind statements that return, calls end alike if what follows them does. -/
theorem alike_after {x y : Base64Call α} {f g : α → Base64Call β} {a a' : α} {last last' : Base64}
    (hx : Returns x base64 a last) (hy : Returns y other a' last') (h : Alike given (f a) (g a') last last') :
    Alike given (x >>= f) (y >>= g) base64 other := by
  cases h with
  | inl hnone => exact Or.inl ⟨hx.bind_undefined hnone.1, hy.bind_undefined hnone.2⟩
  | inr hthen =>
    obtain ⟨result, end1, end2, hf, hg, hends⟩ := hthen
    apply Or.inr
    cases result with
    | error e => exact ⟨.error e, end1, end2, hx.bind_fails hf, hy.bind_fails hg, hends⟩
    | ok b => exact ⟨.ok b, end1, end2, hx.bind hf, hy.bind hg, hends⟩

/-- Calls that end alike may be followed by such calls. -/
theorem Alike.bind {x y : Base64Call α} {f g : α → Base64Call β} (h : Alike given x y base64 other)
    (hrest : ∀ a last last', Agree given last last' → Alike given (f a) (g a) last last') :
    Alike given (x >>= f) (y >>= g) base64 other := by
  cases h with
  | inl hnone => exact Or.inl ⟨Undefined.bind hnone.1, Undefined.bind hnone.2⟩
  | inr hsome =>
    obtain ⟨result, last, last', hx, hy, hagree⟩ := hsome
    cases result with
    | error e => exact Or.inr ⟨.error e, last, last', Fails.bind hx, Fails.bind hy, hagree⟩
    | ok a => exact alike_after hx hy (hrest a last last' hagree)

theorem alike_access (x : Option α) (h : Agree given base64 other) :
    Alike given (access x : Base64Call α) (access x) base64 other := by
  cases x with
  | none => exact Or.inl ⟨rfl, rfl⟩
  | some a => exact alike_pure a h

theorem put_full {full : ℕ → Bool} (hfull : full base64.buf.length = true) (chars : List UInt8) :
    Returns (put full chars) base64 () { base64 with output := base64.output ++ [base64.buf], buf := chars } := by
  apply (returns_read base64).bind
  rw [if_pos hfull]
  exact (returns_modify _ base64).bind (returns_modify _ _)

theorem put_short {full : ℕ → Bool} (hfull : ¬full base64.buf.length = true) (chars : List UInt8) :
    Returns (put full chars) base64 () { base64 with buf := base64.buf ++ chars } := by
  apply (returns_read base64).bind
  rw [if_neg hfull]
  exact returns_modify _ base64

theorem alike_put (full : ℕ → Bool) (chars : List UInt8) (h : Agree given base64 other) :
    Alike given (put full chars) (put full chars) base64 other := by
  have hbuf := h.buf
  by_cases hfull : full base64.buf.length = true
  · apply alike_of_returns (put_full hfull chars) (put_full (by rwa [← hbuf]) chars)
    exact ⟨by simp [h.output, hbuf], rfl, h.saved, h.save⟩
  · apply alike_of_returns (put_short hfull chars) (put_short (by rwa [← hbuf]) chars)
    exact ⟨h.output, by rw [hbuf], h.saved, h.save⟩

theorem alike_putch (ch : UInt8) (h : Agree given base64 other) : Alike given (putch ch) (putch ch) base64 other :=
  alike_put _ [ch] h

/-- With nothing saved there is no value to agree on. -/
theorem alike_setsaved (h : Agree given base64 other) : Alike given (setsaved 0) (setsaved 0) base64 other :=
  alike_of_returns (returns_modify _ base64) (returns_modify _ other)
    ⟨h.output, h.buf, rfl, fun _ hi => absurd hi (Nat.not_lt_zero _)⟩

/-- A value is saved behind those that are. -/
theorem Agree.store (h : Agree given base64 other) (i : Fin 3) (value : UInt8) (hi : i.val = other.saved) :
    Agree given { base64 with save := Function.update base64.save i value, saved := i.val + 1 }
      { other with save := Function.update other.save i value, saved := i.val + 1 } where
  output := h.output
  buf := h.buf
  saved := rfl
  save := by
    intro j hj
    dsimp only at hj ⊢
    by_cases hsame : j = i
    · rw [hsame, Function.update_self, Function.update_self]
    · rw [Function.update_of_ne hsame, Function.update_of_ne hsame]
      apply h.save
      have hne : j.val ≠ i.val := fun heq => hsame (Fin.ext heq)
      omega

theorem alike_flushrest (h : Agree given base64 other) : Alike given flushrest flushrest base64 other := by
  have hbuf := h.buf
  have hflush {base64 : Base64} (hne : base64.buf.length ≠ 0) :
      Returns flushrest base64 () { base64 with output := base64.output ++ [base64.buf], buf := [] } := by
    apply (returns_read base64).bind
    rw [if_pos hne]
    exact returns_modify _ base64
  have hkeep {base64 : Base64} (hempty : ¬base64.buf.length ≠ 0) : Returns flushrest base64 () base64 := by
    apply (returns_read base64).bind
    rw [if_neg hempty]
    exact returns_pure () base64
  by_cases hempty : base64.buf.length ≠ 0
  · apply alike_of_returns (hflush hempty) (hflush (by rwa [← hbuf]))
    exact ⟨by simp [h.output, hbuf], rfl, h.saved, h.save⟩
  · exact alike_of_returns (hkeep hempty) (hkeep (by rwa [← hbuf])) h

mutual

/-- The loop does not read what is saved. -/
theorem alike_decodegroups {base64 other : Base64} (h : Agree given base64 other) :
    ∀ src : List UInt8, Alike given (decodegroups src) (decodegroups src) base64 other
  | [] => alike_pure () h
  | ch :: src => by
    apply (alike_access (decode ch) h).bind
    intro entry last last' hlast
    cases entry with
    | value c0 => exact alike_decodegroups1 c0 hlast src
    | inv => exact alike_fail _ hlast
    | end_ => exact alike_fail _ hlast
  termination_by structural src => src

theorem alike_decodegroups1 {base64 other : Base64} (c0 : UInt8) (h : Agree given base64 other) :
    ∀ src : List UInt8, Alike given (decodegroups1 c0 src) (decodegroups1 c0 src) base64 other
  | [] => by
    apply alike_of_returns ((returns_modify _ base64).bind (returns_modify _ _))
      ((returns_modify _ other).bind (returns_modify _ _))
    exact ⟨h.output, h.buf, rfl, fun i hi => by have hzero : i = 0 := Fin.ext (Nat.lt_one_iff.mp hi); simp [hzero]⟩
  | ch :: src => by
    apply (alike_access (decode ch) h).bind
    intro entry last last' hlast
    cases entry with
    | value c1 => exact alike_decodegroups2 c0 c1 hlast src
    | inv => exact alike_fail _ hlast
    | end_ => exact alike_fail _ hlast
  termination_by structural src => src

theorem alike_decodegroups2 {base64 other : Base64} (c0 c1 : UInt8) (h : Agree given base64 other) :
    ∀ src : List UInt8, Alike given (decodegroups2 c0 c1 src) (decodegroups2 c0 c1 src) base64 other
  | [] => by
    apply alike_of_returns ((returns_modify _ base64).bind ((returns_modify _ _).bind (returns_modify _ _)))
      ((returns_modify _ other).bind ((returns_modify _ _).bind (returns_modify _ _)))
    refine ⟨h.output, h.buf, rfl, fun i hi => ?_⟩
    dsimp only at hi
    have hcases : i = 0 ∨ i = 1 := by omega
    obtain rfl | rfl := hcases <;> simp [Function.update]
  | ch :: src => by
    apply (alike_access (decode ch) h).bind
    intro entry last last' hlast
    cases entry with
    | value c2 => exact alike_decodegroups3 c0 c1 c2 hlast src
    | inv => exact alike_fail _ hlast
    | end_ => exact alike_putch _ hlast
  termination_by structural src => src

theorem alike_decodegroups3 {base64 other : Base64} (c0 c1 c2 : UInt8) (h : Agree given base64 other) :
    ∀ src : List UInt8, Alike given (decodegroups3 c0 c1 c2 src) (decodegroups3 c0 c1 c2 src) base64 other
  | [] => by
    apply alike_of_returns ((returns_modify _ base64).bind ((returns_modify _ _).bind ((returns_modify _ _).bind
        (returns_modify _ _))))
      ((returns_modify _ other).bind ((returns_modify _ _).bind ((returns_modify _ _).bind (returns_modify _ _))))
    refine ⟨h.output, h.buf, rfl, fun i hi => ?_⟩
    have hcases : i = 0 ∨ i = 1 ∨ i = 2 := by omega
    obtain rfl | rfl | rfl := hcases <;> simp [Function.update]
  | ch :: src => by
    apply (alike_access (decode ch) h).bind
    intro entry last last' hlast
    cases entry with
    | value c3 =>
      apply (alike_putch _ hlast).bind
      intro _ first first' hfirst
      apply (alike_putch _ hfirst).bind
      intro _ second second' hsecond
      apply (alike_putch _ hsecond).bind
      intro _ third third' hthird
      exact alike_decodegroups hthird src
    | inv => exact alike_fail _ hlast
    | end_ =>
      apply (alike_putch _ hlast).bind
      intro _ first first' hfirst
      exact alike_putch _ hfirst
  termination_by structural src => src

end

theorem alike_decodealign3 (align : ℕ) (c0 c1 c2 : UInt8) (src : List UInt8) (h : Agree given base64 other) :
    Alike given (decodealign3 align c0 c1 c2 src) (decodealign3 align c0 c1 c2 src) base64 other := by
  cases src with
  | nil => exact alike_pure none h
  | cons ch src =>
    apply (alike_access (decode ch) h).bind
    intro entry last last' hlast
    have htwo {rest : Base64Call (Option ℕ)} (hrest : ∀ mid mid', Agree given mid mid' → Alike given rest rest mid mid') :
        Alike given (do putch (decode0 c0 c1); putch (decode1 c1 c2); rest)
          (do putch (decode0 c0 c1); putch (decode1 c1 c2); rest) last last' := by
      apply (alike_putch _ hlast).bind
      intro _ first first' hfirst
      apply (alike_putch _ hfirst).bind
      intro _ second second' hsecond
      exact hrest second second' hsecond
    cases entry with
    | value c3 =>
      apply htwo
      intro second second' hsecond
      apply (alike_putch _ hsecond).bind
      intro _ third third' hthird
      apply (alike_setsaved hthird).bind
      intro _ mid mid' hmid
      exact alike_pure _ hmid
    | inv => exact alike_fail _ hlast
    | end_ =>
      apply htwo
      intro second second' hsecond
      apply (alike_setsaved hsecond).bind
      intro _ mid mid' hmid
      exact alike_pure _ hmid

/-- A value is saved behind the others, and the alignment goes on. -/
theorem alike_store {x : Base64Call α} (i : Fin 3) (value : UInt8) (h : Agree given base64 other) (hi : i.val = other.saved)
    (hrest : ∀ last last', last'.saved = i.val + 1 → Agree given last last' → Alike given x x last last') :
    Alike given (do setsave i value; setsaved (i.val + 1); x) (do setsave i value; setsaved (i.val + 1); x)
      base64 other := by
  apply alike_after (returns_modify _ base64) (returns_modify _ other)
  apply alike_after (returns_modify _ _) (returns_modify _ _)
  exact hrest _ _ rfl (h.store i value hi)

theorem alike_decodealign2 (align : ℕ) (c0 c1 : UInt8) (src : List UInt8) (h : Agree given base64 other)
    (hsaved : other.saved = 2) :
    Alike given (decodealign2 align c0 c1 src) (decodealign2 align c0 c1 src) base64 other := by
  cases src with
  | nil => exact alike_pure none h
  | cons ch src =>
    cases hentry : decode ch with
    | none => exact Or.inl ⟨Undefined.bind (by rw [hentry]; rfl), Undefined.bind (by rw [hentry]; rfl)⟩
    | some entry =>
      apply alike_after (returns_access hentry base64) (returns_access hentry other)
      cases entry with
      | value c2 => exact alike_store 2 c2 h hsaved.symm fun last last' _ hlast => alike_decodealign3 align c0 c1 c2 src hlast
      | inv => exact alike_fail _ h
      | end_ =>
        apply (alike_putch _ h).bind
        intro _ first first' hfirst
        apply (alike_setsaved hfirst).bind
        intro _ mid mid' hmid
        exact alike_pure _ hmid

theorem alike_decodealign1 (align : ℕ) (c0 : UInt8) (src : List UInt8) (h : Agree given base64 other)
    (hsaved : other.saved = 1) :
    Alike given (decodealign1 align c0 src) (decodealign1 align c0 src) base64 other := by
  cases src with
  | nil => exact alike_pure none h
  | cons ch src =>
    cases hentry : decode ch with
    | none => exact Or.inl ⟨Undefined.bind (by rw [hentry]; rfl), Undefined.bind (by rw [hentry]; rfl)⟩
    | some entry =>
      apply alike_after (returns_access hentry base64) (returns_access hentry other)
      cases entry with
      | value c1 =>
        exact alike_store 1 c1 h hsaved.symm fun last last' hlast hagree => alike_decodealign2 align c0 c1 src hagree hlast
      | inv => exact alike_fail _ h
      | end_ => exact alike_fail _ h

/-- The alignment reads the values that are saved, which are the same. -/
theorem alike_decodealign (src : List UInt8) (h : Agree given base64 other) :
    Alike given (decodealign src) (decodealign src) base64 other := by
  apply alike_after (returns_read base64) (returns_read other)
  have hsaved := h.saved
  rw [hsaved]
  match hcase : other.saved with
  | 0 => exact alike_pure _ h
  | 1 =>
    have h0 := h.save 0 (by rw [hcase]; decide)
    dsimp only
    rw [h0]
    exact alike_decodealign1 _ _ src h hcase
  | 2 =>
    have h0 := h.save 0 (by rw [hcase]; decide)
    have h1 := h.save 1 (by rw [hcase]; decide)
    dsimp only
    rw [h0, h1]
    exact alike_decodealign2 _ _ _ src h hcase
  | 3 =>
    have h0 := h.save 0 (by rw [hcase]; decide)
    have h1 := h.save 1 (by rw [hcase]; decide)
    have h2 := h.save 2 (by rw [hcase]; decide)
    dsimp only
    rw [h0, h1, h2]
    exact alike_decodealign3 _ _ _ _ src h
  | n + 4 => exact alike_pure _ h

theorem alike_decodeappend (src : List UInt8) (h : Agree given base64 other) :
    Alike given (decodeappend src) (decodeappend src) base64 other := by
  apply (alike_decodealign src h).bind
  intro align last last' hlast
  cases align with
  | none => exact alike_pure () hlast
  | some align => exact alike_decodegroups hlast (src.drop align)

theorem alike_decodes (parts : List (List UInt8)) (h : Agree given base64 other) :
    Alike given (decodes parts) (decodes parts) base64 other := by
  have happends : Alike given (appends decodeappend parts) (appends decodeappend parts) base64 other := by
    induction parts generalizing base64 other with
    | nil => exact alike_pure () h
    | cons part parts ih =>
      apply (alike_decodeappend part h).bind
      intro _ last last' hlast
      exact ih hlast
  apply happends.bind
  intro _ last last' hlast
  exact alike_flushrest hlast

/-- With nothing saved and nothing in the buffer a decoder behaves like a new one. -/
theorem likeNew_of_clean (hsaved : base64.saved = 0) (hbuf : base64.buf = []) : LikeNew base64 := by
  intro later
  have hagree : Agree base64.output base64 create :=
    ⟨(List.append_nil _).symm, hbuf, hsaved, fun _ hi => absurd hi (Nat.not_lt_zero _)⟩
  cases alike_decodes later hagree with
  | inl hnone => rw [hnone.1, hnone.2, Option.map_none, Option.map_none]
  | inr hsome =>
    obtain ⟨result, last, last', hx, hy, hends⟩ := hsome
    rw [hx, hy, Option.map_some, Option.map_some, hends.output]

/-- Something is left of a string: characters in the buffer, or one to three values. -/
def Dirty (base64 : Base64) : Prop := base64.buf ≠ [] ∨ (base64.saved ≠ 0 ∧ ∃ values, Saves base64 values)

/-- What is left of another string is seen in the output of later calls. -/
theorem not_likeNew (h : Dirty base64) : ¬LikeNew base64 := by
  intro hnew
  have hoff {later : List (List UInt8)} {next next' : Base64} {bytes bytes' : List UInt8}
      (hnext : Returns (appends decodeappend later) base64 () next) (hemitted : next.emitted = base64.output.flatten ++ bytes)
      (hother : Returns (appends decodeappend later) create () next') (hemitted' : next'.emitted = bytes') : bytes = bytes' := by
    obtain ⟨decoder, hdecoder, houtput, -⟩ := decodes_returns hnext hemitted
    obtain ⟨decoder', hdecoder', houtput', -⟩ := decodes_returns hother hemitted'
    have hsame := hnew later
    have hcall : decodes later base64 = some (.ok (), decoder) := hdecoder
    have hcall' : decodes later create = some (.ok (), decoder') := hdecoder'
    rw [hcall, hcall', Option.map_some, Option.map_some, Option.some.injEq, Prod.mk.injEq] at hsame
    rw [hsame.2, List.flatten_append, houtput'] at houtput
    exact (List.append_cancel_left houtput).symm
  by_cases hbuf : base64.buf = []
  · obtain ⟨hsaved, values, hsaves⟩ := h.resolve_left (not_not.mpr hbuf)
    have hnone : scan [] [65, 65, 65] = some ([], [0, 0, 0]) := rfl
    obtain ⟨bytes, left, hscan, hne⟩ : ∃ bytes left, scan values [65, 65, 65] = some (bytes, left) ∧ bytes ≠ [] := by
      match values with
      | [] => exact absurd hsaves hsaved
      | [c0] => exact ⟨_, _, rfl, List.cons_ne_nil _ _⟩
      | [c0, c1] => exact ⟨_, _, rfl, List.cons_ne_nil _ _⟩
      | [c0, c1, c2] => exact ⟨_, _, rfl, List.cons_ne_nil _ _⟩
      | _ :: _ :: _ :: _ :: _ => exact absurd hsaves id
    have hcreate : Saves create [] := rfl
    obtain ⟨next, hnext, hemitted, -⟩ := decodeappend_returns hsaves hscan
    obtain ⟨next', hnext', hemitted', -⟩ := decodeappend_returns hcreate hnone
    rw [Base64.emitted, Base64.emitted, hbuf, List.append_nil] at hemitted
    exact hne (@hoff [[65, 65, 65]] next next' bytes [] (hnext.bind (returns_pure () next)) hemitted
      (hnext'.bind (returns_pure () next')) hemitted')
  · have hempty := @hoff [] base64 create base64.buf [] (returns_pure () base64) rfl (returns_pure () create) rfl
    exact hbuf hempty

end Base64

end Aug.Net
