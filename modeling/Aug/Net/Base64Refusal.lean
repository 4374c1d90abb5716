import Aug.Net.Base64Reuse

/-!
# Refused strings

What is left of a string that the decoder refuses: unless it is refused within its first group, in the first
part that is not empty, something of it stays in the decoder. With that, the strings and the cuts are known on
which the decoder does what the standard says.
-/

namespace Aug.Net

open Aug.Lib Call

namespace Base64

variable {α : Type} {base64 : Base64} {src part : List UInt8} {parts : List (List UInt8)}

/-- The call leaves something in the buffer. -/
def Fills (x : Base64Call α) (base64 : Base64) : Prop := Ends x base64 fun _ next => next.buf ≠ []

theorem fills_pure (a : α) (h : base64.buf ≠ []) : Fills (pure a) base64 := ends_of_eq (returns_pure a base64) h

theorem fills_fail (e : Base64Error) (h : base64.buf ≠ []) : Fills (fail e : Base64Call α) base64 :=
  ends_of_eq (fails_fail e base64) h

theorem fills_setsaved (saved : ℕ) (h : base64.buf ≠ []) : Fills (setsaved saved) base64 :=
  ends_of_eq (returns_modify _ base64) h

theorem fills_setsave (i : Fin 3) (value : UInt8) (h : base64.buf ≠ []) : Fills (setsave i value) base64 :=
  ends_of_eq (returns_modify _ base64) h

/-- What is put is in the buffer. -/
theorem fills_putch (ch : UInt8) (base64 : Base64) : Fills (putch ch) base64 := by
  by_cases hfull : decide (maxline - 1 ≤ base64.buf.length + 1) = true
  · exact ends_of_eq (@put_full base64 (fun pos => decide (maxline - 1 ≤ pos + 1)) hfull [ch]) (List.cons_ne_nil _ _)
  · exact ends_of_eq (@put_short base64 (fun pos => decide (maxline - 1 ≤ pos + 1)) hfull [ch])
      (List.append_ne_nil_of_right_ne_nil _ (List.cons_ne_nil _ _))

theorem Fills.then {β : Type} {x : Base64Call α} {f : α → Base64Call β} (h : Fills x base64)
    (hrest : ∀ a next, next.buf ≠ [] → Fills (f a) next) : Fills (x >>= f) base64 :=
  Ends.bind h (fun _ _ hnext => hnext) hrest

/-- The last character of a group in the loop, whatever the buffer had before. -/
theorem fills_group (c0 c1 c2 c3 : UInt8) {x : Base64Call α} (base64 : Base64)
    (hx : ∀ next, next.buf ≠ [] → Fills x next) :
    Fills (do putch (decode0 c0 c1); putch (decode1 c1 c2); putch (decode2 c2 c3); x) base64 := by
  apply (fills_putch _ base64).then
  intro _ first _
  apply (fills_putch _ first).then
  intro _ second _
  apply (fills_putch _ second).then
  intro _ third hthird
  exact hx third hthird

mutual

/-- The loop does not empty the buffer. -/
theorem fills_decodegroups {base64 : Base64} (h : base64.buf ≠ []) : ∀ src : List UInt8, Fills (decodegroups src) base64
  | [] => fills_pure () h
  | ch :: src => by
    apply access_bind_ends
    intro entry _
    cases entry with
    | value c0 => exact fills_decodegroups1 c0 h src
    | inv => exact fills_fail _ h
    | end_ => exact fills_fail _ h
  termination_by structural src => src

theorem fills_decodegroups1 {base64 : Base64} (c0 : UInt8) (h : base64.buf ≠ []) :
    ∀ src : List UInt8, Fills (decodegroups1 c0 src) base64
  | [] => (fills_setsaved 1 h).then fun _ _ hnext => fills_setsave 0 c0 hnext
  | ch :: src => by
    apply access_bind_ends
    intro entry _
    cases entry with
    | value c1 => exact fills_decodegroups2 c0 c1 h src
    | inv => exact fills_fail _ h
    | end_ => exact fills_fail _ h
  termination_by structural src => src

theorem fills_decodegroups2 {base64 : Base64} (c0 c1 : UInt8) (h : base64.buf ≠ []) :
    ∀ src : List UInt8, Fills (decodegroups2 c0 c1 src) base64
  | [] => (fills_setsaved 2 h).then fun _ _ hnext => (fills_setsave 1 c1 hnext).then fun _ _ hnext =>
      fills_setsave 0 c0 hnext
  | ch :: src => by
    apply access_bind_ends
    intro entry _
    cases entry with
    | value c2 => exact fills_decodegroups3 c0 c1 c2 h src
    | inv => exact fills_fail _ h
    | end_ => exact fills_putch _ base64
  termination_by structural src => src

theorem fills_decodegroups3 {base64 : Base64} (c0 c1 c2 : UInt8) (h : base64.buf ≠ []) :
    ∀ src : List UInt8, Fills (decodegroups3 c0 c1 c2 src) base64
  | [] => (fills_setsaved 3 h).then fun _ _ hnext => (fills_setsave 2 c2 hnext).then fun _ _ hnext =>
      (fills_setsave 1 c1 hnext).then fun _ _ hnext => fills_setsave 0 c0 hnext
  | ch :: src => by
    apply access_bind_ends
    intro entry _
    cases entry with
    | value c3 => exact fills_group c0 c1 c2 c3 base64 fun next hnext => fills_decodegroups hnext src
    | inv => exact fills_fail _ h
    | end_ => exact (fills_putch _ base64).then fun _ next _ => fills_putch _ next
  termination_by structural src => src

end

/-- The alignment of what is saved leaves something, and where it goes on to the loop there is something in the
buffer. -/
def Keeps (x : Base64Call (Option ℕ)) (base64 : Base64) : Prop :=
  Ends x base64 fun result next => Dirty next ∧ ∀ align, result = .ok (some align) → next.buf ≠ []

theorem Fills.keeps {x : Base64Call (Option ℕ)} (h : Fills x base64) : Keeps x base64 :=
  Ends.imp h fun _ _ hnext => ⟨Or.inl hnext, fun _ _ => hnext⟩

/-- An alignment that ends without going on leaves the decoder. -/
theorem keeps_same {x : Base64Call (Option ℕ)} {result : Except Base64Error (Option ℕ)} (hx : x base64 = some (result, base64))
    (hresult : ∀ align, result ≠ .ok (some align)) (h : Dirty base64) : Keeps x base64 :=
  ends_of_eq hx ⟨h, fun align heq => absurd heq (hresult align)⟩

theorem keeps_decodealign3 (align : ℕ) (c0 c1 c2 : UInt8) (src : List UInt8) (h : Dirty base64) :
    Keeps (decodealign3 align c0 c1 c2 src) base64 := by
  cases src with
  | nil => exact keeps_same (returns_pure none base64) (fun _ heq => nomatch heq) h
  | cons ch src =>
    apply access_bind_ends
    intro entry _
    cases entry with
    | value c3 =>
      exact (fills_group c0 c1 c2 c3 base64 fun next hnext =>
        (fills_setsaved 0 hnext).then fun _ _ hlast => fills_pure (some align) hlast).keeps
    | inv => exact keeps_same (fails_fail _ base64) (fun _ heq => nomatch heq) h
    | end_ =>
      exact ((fills_putch _ base64).then fun _ first _ => (fills_putch _ first).then fun _ second hsecond =>
        (fills_setsaved 0 hsecond).then fun _ _ hlast => fills_pure none hlast).keeps

/-- A value that is saved is left. -/
theorem keeps_store {x : Base64Call (Option ℕ)} (i : Fin 3) (value : UInt8)
    (hsaves : Saves { base64 with save := Function.update base64.save i value, saved := i.val + 1 } src)
    (hx : ∀ next, Dirty next → Saves next src → Keeps x next) :
    Keeps (do setsave i value; setsaved (i.val + 1); x) base64 := by
  apply (returns_modify _ base64).bind_ends
  apply (returns_modify _ _).bind_ends
  exact hx _ (Or.inr ⟨Nat.succ_ne_zero _, src, hsaves⟩) hsaves

theorem keeps_decodealign2 (align : ℕ) (c0 c1 : UInt8) (src : List UInt8) (h : Dirty base64)
    (hsaves : Saves base64 [c0, c1]) : Keeps (decodealign2 align c0 c1 src) base64 := by
  cases src with
  | nil => exact keeps_same (returns_pure none base64) (fun _ heq => nomatch heq) h
  | cons ch src =>
    apply access_bind_ends
    intro entry _
    cases entry with
    | value c2 =>
      have hstored : Saves { base64 with save := Function.update base64.save 2 c2, saved := 3 } [c0, c1, c2] :=
        ⟨rfl, hsaves.2.1, hsaves.2.2, rfl⟩
      exact keeps_store 2 c2 hstored fun next hnext _ => keeps_decodealign3 align c0 c1 c2 src hnext
    | inv => exact keeps_same (fails_fail _ base64) (fun _ heq => nomatch heq) h
    | end_ =>
      exact ((fills_putch _ base64).then fun _ first hfirst => (fills_setsaved 0 hfirst).then fun _ _ hlast =>
        fills_pure none hlast).keeps

theorem keeps_decodealign1 (align : ℕ) (c0 : UInt8) (src : List UInt8) (h : Dirty base64) (hsaves : Saves base64 [c0]) :
    Keeps (decodealign1 align c0 src) base64 := by
  cases src with
  | nil => exact keeps_same (returns_pure none base64) (fun _ heq => nomatch heq) h
  | cons ch src =>
    apply access_bind_ends
    intro entry _
    cases entry with
    | value c1 =>
      have hstored : Saves { base64 with save := Function.update base64.save 1 c1, saved := 2 } [c0, c1] :=
        ⟨rfl, hsaves.2, rfl⟩
      exact keeps_store 1 c1 hstored fun next hnext hsaved => keeps_decodealign2 align c0 c1 src hnext hsaved
    | inv => exact keeps_same (fails_fail _ base64) (fun _ heq => nomatch heq) h
    | end_ => exact keeps_same (fails_fail _ base64) (fun _ heq => nomatch heq) h

theorem keeps_decodealign (src : List UInt8) (h : Dirty base64) : Keeps (decodealign src) base64 := by
  apply (returns_read base64).bind_ends
  match hsaved : base64.saved with
  | 0 =>
    have hbuf : base64.buf ≠ [] := h.resolve_right fun hboth => hboth.1 hsaved
    exact (fills_pure (some 0) hbuf).keeps
  | 1 => exact keeps_decodealign1 _ _ src h ⟨hsaved, rfl⟩
  | 2 => exact keeps_decodealign2 _ _ _ src h ⟨hsaved, rfl, rfl⟩
  | 3 => exact keeps_decodealign3 _ _ _ _ src h
  | n + 4 =>
    have hbuf : base64.buf ≠ [] := by
      apply h.resolve_right
      rintro ⟨-, values, hsaves⟩
      match values with
      | [] => exact absurd (hsaved.symm.trans hsaves) (by omega)
      | [_] => exact absurd (hsaved.symm.trans hsaves.1) (by omega)
      | [_, _] => exact absurd (hsaved.symm.trans hsaves.1) (by omega)
      | [_, _, _] => exact absurd (hsaved.symm.trans hsaves.1) (by omega)
      | _ :: _ :: _ :: _ :: _ => exact hsaves
    exact (fills_pure (some 0) hbuf).keeps

/-- What is left stays left. -/
theorem dirty_decodeappend (src : List UInt8) (h : Dirty base64) :
    Ends (decodeappend src) base64 fun _ next => Dirty next := by
  apply (keeps_decodealign src h).bind
  · intro e next hnext
    exact hnext.1
  · intro align next hnext
    cases align with
    | none => exact ends_of_eq (returns_pure () next) hnext.1
    | some align => exact Ends.imp (fills_decodegroups (hnext.2 align rfl) _) fun _ _ hlast => Or.inl hlast

theorem dirty_appends (parts : List (List UInt8)) (h : Dirty base64) :
    Ends (appends decodeappend parts) base64 fun _ next => Dirty next := by
  induction parts generalizing base64 with
  | nil => exact ends_of_eq (returns_pure () base64) h
  | cons part parts ih => exact (dirty_decodeappend part h).bind (fun _ _ hnext => hnext) fun _ _ hnext => ih hnext

/-- Behind the first `n` characters of a group a string goes on with characters of the alphabet, and within the
group comes a character below 128 that is not of the alphabet. If it is one that ends a string it comes as the
first or the second of the group. -/
def Stops (n : ℕ) (src : List UInt8) : Prop :=
  ∃ front ch back, src = front ++ ch :: back ∧ front.length + n < 4 ∧ (∀ c ∈ front, (place c).isSome = true) ∧
    place ch = none ∧ ch < 128 ∧ (ch = pad ∨ ch = 0 → front.length + n < 2)

/-- The first part that is not empty stops within its first group. -/
def Early (parts : List (List UInt8)) : Prop :=
  ∃ empties part rest, parts = empties ++ part :: rest ∧ (∀ empty ∈ empties, empty = []) ∧ Stops 0 part

theorem Stops.cons {n : ℕ} {ch : UInt8} (h : Stops (n + 1) src) (hch : (place ch).isSome = true) : Stops n (ch :: src) := by
  obtain ⟨front, last, back, rfl, hless, hfront, hlast⟩ := h
  apply Exists.intro (ch :: front)
  apply Exists.intro last
  apply Exists.intro back
  rw [List.length_cons, Nat.add_right_comm]
  exact ⟨rfl, hless, List.forall_mem_cons.mpr ⟨hch, hfront⟩, hlast⟩

/-- At a character the decoder goes on, or the string stops, or the character ends it. -/
theorem stops_or {n : ℕ} {f : Decoded → Base64Call Unit} {ch : UInt8} (hn : n < 4)
    (hvalue : ∀ c, Stops (n + 1) src ∨ Ends (f (.value c)) base64 fun _ next => Dirty next)
    (hend : n < 2 ∨ Ends (f .end_) base64 fun _ next => Dirty next) :
    Stops n (ch :: src) ∨ Ends (access (decode ch) >>= f) base64 fun _ next => Dirty next := by
  have hentry := decode_place ch
  cases hplace : place ch with
  | some m =>
    rw [hplace] at hentry
    cases hvalue m.toUInt8 with
    | inl hstops => exact Or.inl (hstops.cons (by rw [hplace]; rfl))
    | inr hends => exact Or.inr ((returns_access hentry base64).bind_ends hends)
  | none =>
    rw [hplace] at hentry
    dsimp only at hentry
    by_cases hpad : ch = pad ∨ ch = 0
    · rw [if_pos hpad] at hentry
      cases hend with
      | inl hless =>
        have hlow : ch < 128 := by
          obtain rfl | rfl := hpad <;> decide
        exact Or.inl ⟨[], ch, src, rfl, by rwa [List.length_nil, Nat.zero_add], List.forall_mem_nil _, hplace, hlow,
          fun _ => by rwa [List.length_nil, Nat.zero_add]⟩
      | inr hends => exact Or.inr ((returns_access hentry base64).bind_ends hends)
    · rw [if_neg hpad] at hentry
      by_cases hlow : ch < 128
      · exact Or.inl ⟨[], ch, src, rfl, by rwa [List.length_nil, Nat.zero_add], List.forall_mem_nil _, hplace, hlow,
          fun h => absurd h hpad⟩
      · rw [if_neg hlow] at hentry
        apply Or.inr
        apply access_bind_ends
        intro entry hsome
        rw [hentry] at hsome
        exact nomatch hsome

theorem Fills.dirty {x : Base64Call Unit} (h : Fills x base64) : Ends x base64 fun _ next => Dirty next :=
  Ends.imp h fun _ _ hnext => Or.inl hnext

/-- The last character of the first group. -/
theorem first3 (c0 c1 c2 : UInt8) (src : List UInt8) (base64 : Base64) :
    Stops 3 src ∨ Ends (decodegroups3 c0 c1 c2 src) base64 fun _ next => Dirty next := by
  cases src with
  | nil =>
    apply Or.inr
    apply ends_of_eq ((returns_modify _ base64).bind ((returns_modify _ _).bind ((returns_modify _ _).bind
      (returns_modify _ _))))
    exact Or.inr ⟨three_ne_zero, [c0, c1, c2], rfl, rfl, rfl, rfl⟩
  | cons ch src =>
    apply stops_or (by norm_num)
    · intro c3
      exact Or.inr (fills_group c0 c1 c2 c3 base64 fun next hnext => fills_decodegroups hnext src).dirty
    · exact Or.inr ((fills_putch _ base64).then fun _ next _ => fills_putch _ next).dirty

theorem first2 (c0 c1 : UInt8) (src : List UInt8) (base64 : Base64) :
    Stops 2 src ∨ Ends (decodegroups2 c0 c1 src) base64 fun _ next => Dirty next := by
  cases src with
  | nil =>
    apply Or.inr
    apply ends_of_eq ((returns_modify _ base64).bind ((returns_modify _ _).bind (returns_modify _ _)))
    exact Or.inr ⟨two_ne_zero, [c0, c1], rfl, rfl, rfl⟩
  | cons ch src =>
    apply stops_or (by norm_num)
    · intro c2
      exact first3 c0 c1 c2 src base64
    · exact Or.inr (fills_putch _ base64).dirty

theorem first1 (c0 : UInt8) (src : List UInt8) (base64 : Base64) :
    Stops 1 src ∨ Ends (decodegroups1 c0 src) base64 fun _ next => Dirty next := by
  cases src with
  | nil =>
    apply Or.inr
    apply ends_of_eq ((returns_modify _ base64).bind (returns_modify _ _))
    exact Or.inr ⟨one_ne_zero, [c0], rfl, rfl⟩
  | cons ch src =>
    apply stops_or (by norm_num)
    · intro c1
      exact first2 c0 c1 src base64
    · exact Or.inl (by norm_num)

theorem first (ch : UInt8) (src : List UInt8) (base64 : Base64) :
    Stops 0 (ch :: src) ∨ Ends (decodegroups (ch :: src)) base64 fun _ next => Dirty next := by
  apply stops_or (by norm_num)
  · intro c0
    exact first1 c0 src base64
  · exact Or.inl (by norm_num)

/-- A new decoder passes a part on to the loop. -/
theorem decodeappend_create (src : List UInt8) : decodeappend src create = decodegroups src create := rfl

/-- Unless all parts are empty, or the string stops early, something is left of it. -/
theorem early_or_dirty (parts : List (List UInt8)) :
    parts.flatten = [] ∨ Early parts ∨ Ends (appends decodeappend parts) create fun _ next => Dirty next := by
  induction parts with
  | nil => exact Or.inl rfl
  | cons part parts ih =>
    cases part with
    | nil =>
      have hempty : Returns (decodeappend []) create () create := rfl
      obtain hnone | ⟨empties, part, rest, rfl, hempties, hstops⟩ | hdirty := ih
      · exact Or.inl hnone
      · exact Or.inr (Or.inl ⟨[] :: empties, part, rest, rfl, List.forall_mem_cons.mpr ⟨rfl, hempties⟩, hstops⟩)
      · exact Or.inr (Or.inr (hempty.bind_ends hdirty))
    | cons ch src =>
      apply Or.inr
      cases first ch src create with
      | inl hstops => exact Or.inl ⟨[], ch :: src, parts, rfl, List.forall_mem_nil _, hstops⟩
      | inr hends =>
        apply Or.inr
        have hpart : Ends (decodeappend (ch :: src)) create fun _ next => Dirty next :=
          ⟨fun result last hlast => hends.holds result last ((decodeappend_create (ch :: src)).symm.trans hlast)⟩
        exact hpart.bind (fun _ _ hnext => hnext) fun _ _ hnext => dirty_appends parts hnext

/-- Where a string stops, there is a character and it ends the group or the string. -/
theorem Stops.step {n : ℕ} (h : Stops n src) : ∃ ch back, src = ch :: back ∧ n < 4 ∧
    ((∃ c, decode ch = some (.value c) ∧ (place ch).isSome = true ∧ Stops (n + 1) back) ∨
      (place ch = none ∧ ¬(ch = pad ∨ ch = 0) ∧ decode ch = some .inv) ∨
      (place ch = none ∧ n < 2 ∧ decode ch = some .end_)) := by
  obtain ⟨front, ch, back, rfl, hless, hfront, hplace, hlow, hend⟩ := h
  cases front with
  | nil =>
    rw [List.length_nil, Nat.zero_add] at hless hend
    apply Exists.intro ch
    apply Exists.intro back
    apply And.intro rfl
    apply And.intro hless
    apply Or.inr
    have hentry := decode_place ch
    rw [hplace] at hentry
    dsimp only at hentry
    by_cases hpad : ch = pad ∨ ch = 0
    · rw [if_pos hpad] at hentry
      exact Or.inr ⟨hplace, hend hpad, hentry⟩
    · rw [if_neg hpad, if_pos hlow] at hentry
      exact Or.inl ⟨hplace, hpad, hentry⟩
  | cons first front =>
    rw [List.length_cons, Nat.add_right_comm] at hless hend
    obtain ⟨hfirst, hrest⟩ := List.forall_mem_cons.mp hfront
    obtain ⟨m, hm⟩ := Option.isSome_iff_exists.mp hfirst
    obtain ⟨c, hc, -⟩ := decode_some hm
    apply Exists.intro first
    apply Exists.intro (front ++ ch :: back)
    apply And.intro rfl
    apply And.intro (by omega)
    exact Or.inl ⟨c, hc, hfirst, front, ch, back, rfl, hless, hrest, hplace, hlow, hend⟩

/-- A loop that stops at a character leaves the decoder. -/
theorem stops3_fails (c0 c1 c2 : UInt8) (h : Stops 3 src) (base64 : Base64) :
    ∃ e, Fails (decodegroups3 c0 c1 c2 src) base64 e base64 := by
  obtain ⟨ch, back, rfl, -, ⟨c, -, -, hrest⟩ | ⟨-, -, hinv⟩ | ⟨-, hless, -⟩⟩ := h.step
  · obtain ⟨-, -, -, hfour, -⟩ := hrest.step
    exact absurd hfour (by norm_num)
  · exact ⟨_, (returns_access hinv base64).bind_fails (fails_fail _ base64)⟩
  · exact absurd hless (by norm_num)

theorem stops2_fails (c0 c1 : UInt8) (h : Stops 2 src) (base64 : Base64) :
    ∃ e, Fails (decodegroups2 c0 c1 src) base64 e base64 := by
  obtain ⟨ch, back, rfl, -, ⟨c, hvalue, -, hrest⟩ | ⟨-, -, hinv⟩ | ⟨-, hless, -⟩⟩ := h.step
  · obtain ⟨e, he⟩ := stops3_fails c0 c1 c hrest base64
    exact ⟨e, (returns_access hvalue base64).bind_fails he⟩
  · exact ⟨_, (returns_access hinv base64).bind_fails (fails_fail _ base64)⟩
  · exact absurd hless (by norm_num)

theorem stops1_fails (c0 : UInt8) (h : Stops 1 src) (base64 : Base64) :
    ∃ e, Fails (decodegroups1 c0 src) base64 e base64 := by
  obtain ⟨ch, back, rfl, -, ⟨c, hvalue, -, hrest⟩ | ⟨-, -, hinv⟩ | ⟨-, -, hend⟩⟩ := h.step
  · obtain ⟨e, he⟩ := stops2_fails c0 c hrest base64
    exact ⟨e, (returns_access hvalue base64).bind_fails he⟩
  · exact ⟨_, (returns_access hinv base64).bind_fails (fails_fail _ base64)⟩
  · exact ⟨_, (returns_access hend base64).bind_fails (fails_fail _ base64)⟩

theorem stops_fails (h : Stops 0 src) (base64 : Base64) : ∃ e, Fails (decodegroups src) base64 e base64 := by
  obtain ⟨ch, back, rfl, -, ⟨c, hvalue, -, hrest⟩ | ⟨-, -, hinv⟩ | ⟨-, -, hend⟩⟩ := h.step
  · obtain ⟨e, he⟩ := stops1_fails c hrest base64
    exact ⟨e, (returns_access hvalue base64).bind_fails he⟩
  · exact ⟨_, (returns_access hinv base64).bind_fails (fails_fail _ base64)⟩
  · exact ⟨_, (returns_access hend base64).bind_fails (fails_fail _ base64)⟩

/-- A string that stops early is refused, and the decoder is still new. -/
theorem early_fails (h : Early parts) : ∃ e, Fails (decodes parts) create e create := by
  obtain ⟨empties, part, rest, rfl, hempties, hstops⟩ := h
  have happends : ∃ e, Fails (appends decodeappend (empties ++ part :: rest)) create e create := by
    induction empties with
    | nil =>
      obtain ⟨e, he⟩ := stops_fails hstops create
      have hpart : Fails (decodeappend part) create e create := (decodeappend_create part).trans he
      exact ⟨e, hpart.bind⟩
    | cons empty empties ih =>
      obtain ⟨rfl, hothers⟩ := List.forall_mem_cons.mp hempties
      have hempty : Returns (decodeappend []) create () create := rfl
      obtain ⟨e, he⟩ := ih hothers
      exact ⟨e, hempty.bind_fails he⟩
  obtain ⟨e, he⟩ := happends
  exact ⟨e, he.bind⟩

/-- The reference refuses it too. -/
theorem stops_decoding (h : Stops 0 src) : decoding src = none := by
  obtain ⟨a, src, rfl, -, ha⟩ := h.step
  match src with
  | [] => rfl
  | [_] => rfl
  | [_, _] => rfl
  | b :: c :: d :: rest =>
    rw [decoding]
    obtain ⟨-, -, hna, h⟩ | ⟨hna, -⟩ | ⟨hna, -⟩ := ha
    case inr.inl => rw [hna, Option.bind_eq_bind, Option.bind_none]
    case inr.inr => rw [hna, Option.bind_eq_bind, Option.bind_none]
    obtain ⟨na, hna⟩ := Option.isSome_iff_exists.mp hna
    obtain ⟨b', src, heq, -, hb⟩ := h.step
    obtain ⟨rfl, rfl⟩ := List.cons.inj heq
    rw [hna, Option.bind_eq_bind, Option.bind_some]
    obtain ⟨-, -, hnb, h⟩ | ⟨hnb, -⟩ | ⟨hnb, -⟩ := hb
    case inr.inl => rw [hnb, Option.bind_eq_bind, Option.bind_none]
    case inr.inr => rw [hnb, Option.bind_eq_bind, Option.bind_none]
    obtain ⟨nb, hnb⟩ := Option.isSome_iff_exists.mp hnb
    obtain ⟨c', src, heq, -, hc⟩ := h.step
    obtain ⟨rfl, rfl⟩ := List.cons.inj heq
    rw [hnb, Option.bind_eq_bind, Option.bind_some]
    obtain ⟨-, -, hnc, h⟩ | ⟨hnc, hpad, -⟩ | ⟨-, hless, -⟩ := hc
    case inr.inr => exact absurd hless (by norm_num)
    case inr.inl =>
      rw [if_neg fun hall => hpad (Or.inl hall.1), hnc, Option.bind_none]
    obtain ⟨nc, hnc⟩ := Option.isSome_iff_exists.mp hnc
    have hc : c ≠ pad := by
      rintro rfl
      rw [place_pad] at hnc
      cases hnc
    obtain ⟨d', src, heq, -, hd⟩ := h.step
    obtain ⟨rfl, rfl⟩ := List.cons.inj heq
    rw [if_neg fun hall => hc hall.1, hnc, Option.bind_some]
    obtain ⟨-, -, -, h⟩ | ⟨hnd, hpad, -⟩ | ⟨-, hless, -⟩ := hd
    · obtain ⟨-, -, -, hfour, -⟩ := h.step
      exact absurd hfour (by norm_num)
    · rw [if_neg fun hall => hpad (Or.inl hall.1), hnd, Option.bind_none]
    · exact absurd hless (by norm_num)

/-- What comes behind makes no difference. -/
theorem Stops.append {n : ℕ} (h : Stops n src) (more : List UInt8) : Stops n (src ++ more) := by
  obtain ⟨front, ch, back, rfl, hstops⟩ := h
  exact ⟨front, ch, back ++ more, by rw [List.append_assoc, List.cons_append], hstops⟩

theorem early_decoding (h : Early parts) : decoding parts.flatten = none := by
  obtain ⟨empties, part, rest, rfl, hempties, hstops⟩ := h
  rw [List.flatten_append, List.flatten_eq_nil_iff.mpr hempties, List.nil_append, List.flatten_cons]
  exact stops_decoding (hstops.append _)

/-- The decoder is as it is promised to be: the table is not left, the calls succeed exactly on the valid strings
and give what these stand for, and behind the last call the decoder is like a new one. -/
structure Promised (parts : List (List UInt8)) : Prop where
  inside : ¬Undefined (decodes parts) create
  accepts : (∃ decoder, Returns (decodes parts) create () decoder) ↔ ∃ bytes, decoding parts.flatten = some bytes
  output : ∀ decoder bytes, Returns (decodes parts) create () decoder → decoding parts.flatten = some bytes →
    decoder.output.flatten = bytes
  fresh : ∀ result decoder, decodes parts create = some (result, decoder) → LikeNew decoder

end Base64

end Aug.Net
