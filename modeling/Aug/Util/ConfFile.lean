import Aug.Util.ConfStray

/-!
# The calls for a configuration file

For every file of settings, blank lines and comments, the callback is called as it should be and the result is what
it should be exactly if every setting that is reached is clear and the last result is not positive.
-/

namespace Aug.Util

open ShellWords

namespace Conf

variable {cb : List Pair → ℤ} {st : Conf} {what : ℤ} {whats : List ℤ} {done : List Pair} {call : Pair}

/-! ## What a phrase gets -/

/-- The characters in the two strings, with the space before the next one. -/
def room (st : Conf) : ℕ := st.key.length + st.value.length + if st.last = tokword then 1 else 0

/-- A token that ends no line brings one character or a space before the next one, a label nothing. -/
theorem out_room (h : 0 ≤ st.result) (hwhat : what ≠ tokphrase) : (st.out cb what).result = st.result ∧
    (st.out cb what).calls = st.calls ∧ (st.out cb what).last = what ∧
      (st.out cb what).room ≤ st.room + if what = toklabel then 0 else 1 := by
  by_cases hlabel : what = toklabel
  · have hword : toklabel ≠ tokword := by decide
    rw [hlabel, out_label h]
    refine ⟨rfl, rfl, rfl, ?_⟩
    simp only [room, if_neg hword, if_true]
    omega
  by_cases hword : what = tokword
  · rw [hword, out_tokword h]
    refine ⟨rfl, rfl, rfl, ?_⟩
    have hlabel : tokword ≠ toklabel := by decide
    simp only [room, if_neg hlabel, if_true]
    omega
  · rw [out, if_neg (not_lt.mpr h), if_neg hwhat, if_neg hlabel, if_neg hword]
    refine ⟨rfl, rfl, rfl, ?_⟩
    simp only [room, if_neg hword, if_neg hlabel]
    split_ifs <;> simp <;> omega

/-- So do several. -/
theorem outs_room (h : 0 ≤ st.result) (hphrase : tokphrase ∉ whats) : (st.outs cb whats).result = st.result ∧
    (st.outs cb whats).calls = st.calls ∧ (st.last ≠ tokphrase → (st.outs cb whats).last ≠ tokphrase) ∧
      (st.outs cb whats).room ≤ st.room + weight whats := by
  induction whats generalizing st with
  | nil => exact ⟨rfl, rfl, id, Nat.le_refl _⟩
  | cons what whats ih =>
    rw [List.mem_cons, not_or] at hphrase
    have ⟨hresult, hcalls, hlast, hroom⟩ := @out_room cb st what h (Ne.symm hphrase.1)
    have hstep : st.outs cb (what :: whats) = (st.out cb what).outs cb whats := rfl
    have ⟨hresult', hcalls', hlast', hroom'⟩ := @ih (st.out cb what) (by rwa [hresult]) hphrase.2
    rw [hstep]
    refine ⟨hresult'.trans hresult, hcalls'.trans hcalls, fun _ => hlast' ?_, hroom'.trans ?_⟩
    · rw [hlast]
      exact Ne.symm hphrase.1
    · have hweight : weight (what :: whats) = weight whats + if what = toklabel then 0 else 1 := by
        rw [weight, List.countP_cons]
        by_cases hlabel : what = toklabel <;> simp [hlabel, weight]
      omega

/-- The calls made so far stay made. -/
theorem outs_calls (whats : List ℤ) : st.calls <+: (st.outs cb whats).calls := by
  induction whats generalizing st with
  | nil => exact List.prefix_rfl
  | cons what whats ih =>
    have hone : st.calls <+: (st.out cb what).calls := by
      unfold out
      split_ifs <;> first | exact List.prefix_rfl | exact List.prefix_append ..
    exact hone.trans ih

/-- The call that was due after those done has not been made. -/
def Misses (st : Conf) (done : List Pair) (call : Pair) : Prop :=
  st.calls = done ∧ st.result < 0 ∨ ∃ other, other ≠ call ∧ done ++ [other] <+: st.calls

/-- Nothing that follows makes up for it. -/
theorem Misses.outs (h : st.Misses done call) (whats : List ℤ) : (st.outs cb whats).Misses done call := by
  cases h with
  | inl h =>
    rw [outs_failed h.2]
    exact .inl h
  | inr h =>
    obtain ⟨other, hne, hmade⟩ := h
    exact .inr ⟨other, hne, hmade.trans (outs_calls whats)⟩

/-- A phrase with too few characters before it misses the call. -/
theorem phrase_misses (h : 0 ≤ st.result) (hlast : st.last ≠ tokphrase)
    (hroom : st.key.length + st.value.length < call.1.length + call.2.length) :
    (st.out cb tokphrase).Misses st.calls call := by
  by_cases hkey : st.key = []
  · have hlength : ¬st.key.length ≠ 0 := not_not.mpr (List.length_eq_zero_iff.mpr hkey)
    rw [out, if_neg (not_lt.mpr h), if_pos rfl, if_neg hlast, if_neg hlength]
    exact .inl ⟨rfl, Int.negSucc_lt_zero 0⟩
  · rw [out_phrase h hlast hkey]
    refine .inr ⟨st.pair, ?_, List.prefix_rfl⟩
    intro heq
    have hfirst : st.pair.1.length ≤ st.key.length := (List.takeWhile_prefix _).length_le
    have hsecond : st.pair.2.length ≤ st.value.length := (List.takeWhile_prefix _).length_le
    rw [heq] at hfirst hsecond
    omega

/-- Input that falls short of the call misses it. -/
theorem falls_misses {words : ShellWords} {input : List UInt8} {n : ℕ} (h : 0 ≤ st.result)
    (hlast : st.last ≠ tokphrase) (hfalls : Falls words input n)
    (hroom : st.room + n < call.1.length + call.2.length) (rest : List UInt8) :
    (st.outs cb (feed (input ++ rest) words).1).Misses st.calls call := by
  obtain ⟨before, ending, more, next, hsends, hphrase, hweight, hending⟩ := hfalls
  have ⟨hresult, hcalls, hkept, hless⟩ := @outs_room cb st before h hphrase
  have hlast' := hkept hlast
  have hresult' : 0 ≤ (st.outs cb before).result := by rwa [hresult]
  have hshort : (st.outs cb before).key.length + (st.outs cb before).value.length <
      call.1.length + call.2.length := by
    unfold room at hless hroom
    omega
  have hmisses : ((st.outs cb before).outs cb ending).Misses st.calls call := by
    rw [← hcalls]
    cases hending with
    | inl hending =>
      rw [hending]
      exact phrase_misses hresult' hlast' hshort
    | inr hending =>
      have hword : tokword ≠ tokphrase := by decide
      have hstep : (st.outs cb before).outs cb ending =
          ({ st.outs cb before with last := tokword } : Conf).out cb tokphrase := by
        rw [hending, ← out_tokword hresult']
        rfl
      rw [hstep]
      exact @phrase_misses cb { st.outs cb before with last := tokword } call hresult' hword hshort
  rw [feed_append, hsends, outs_append, outs_append, outs_append]
  exact (hmisses.outs more).outs _

/-- A setting with a second label is missed. -/
theorem setting_misses {setting : Setting} (hvalid : setting.Valid)
    (hreturn : ∀ entry ∈ setting.words, 13 ∉ Part.textOf entry.1)
    (hstray : ∃ entry ∈ setting.words.tail, Part.Delimits entry.1) {result : ℤ} (h : 0 ≤ result)
    (rest : List UInt8) :
    ((fresh done result).outs cb (feed (setting.source ++ [10] ++ rest) (pairing .eatws true)).1).Misses done
      setting.call := by
  have hkey := key_sends hvalid
  have hlabel : toklabel ≠ tokphrase := by decide
  have hword : toklabel ≠ tokword := by decide
  have hwords := hvalid.words
  have hsource : setting.source ++ [10] ++ rest = setting.lead ++ setting.key ++ [61] ++ setting.gap ++
      (Setting.wordsOf setting.words ++ [10] ++ rest) := by
    simp only [Setting.source, List.append_assoc]
  rw [hsource, feed_append, hkey, outs_append, outs_key done h hvalid.named, Setting.call]
  cases hsome : setting.words with
  | nil => exact absurd hsome hvalid.some
  | cons first words =>
    rw [hsome] at hwords hreturn hstray
    have hpos : 0 < (Part.textOf first.1).length :=
      List.length_pos_of_ne_nil (hwords.word first (List.mem_cons_self ..)).nonempty
    have hjoined := congrArg List.length (joined_cons first words)
    rw [List.length_append] at hjoined
    have hm : (Setting.joined (first :: words)).length - 1 + 1 = (Setting.joined (first :: words)).length := by
      omega
    have hfalls := @Falls.stray_line _ false first words hwords hreturn (.inr hstray) hm
    apply falls_misses h hlabel hfalls
    simp only [room, fresh, if_neg hword, List.length_nil]
    omega

/-! ## What can be called with -/

/-- The strings have no carriage return, and neither that nor a NUL is in what has been called with. -/
structure Free (st : Conf) : Prop where
  key : 13 ∉ st.key
  value : 13 ∉ st.value
  calls : ∀ call ∈ st.calls, (0 ∉ call.1 ∧ 13 ∉ call.1) ∧ 0 ∉ call.2 ∧ 13 ∉ call.2

/-- A C string has no NUL, and no character that it was not made of. -/
theorem cstring_free {text : List UInt8} (h : 13 ∉ text) :
    0 ∉ text.takeWhile (· ≠ 0) ∧ 13 ∉ text.takeWhile (· ≠ 0) := by
  constructor
  · intro hmem
    have hzero := List.mem_takeWhile_imp hmem
    simp at hzero
  · intro hmem
    exact h ((List.takeWhile_prefix _).subset hmem)

theorem Free.out (h : st.Free) (hwhat : what = toklabel ∨ what = tokword ∨ what = tokphrase ∨
    ∃ c : UInt8, c ≠ 13 ∧ what = c.toNat) : (st.out cb what).Free := by
  by_cases hfailed : st.result < 0
  · rwa [show st.out cb what = st from if_pos hfailed]
  have hresult := not_lt.mp hfailed
  rcases hwhat with rfl | rfl | rfl | ⟨c, hc, rfl⟩
  · rw [out_label hresult]
    exact ⟨h.value, h.key, h.calls⟩
  · rw [out_tokword hresult]
    exact ⟨h.key, h.value, h.calls⟩
  · rw [Conf.out, if_neg hfailed, if_pos rfl]
    split_ifs
    · exact ⟨h.key, h.value, h.calls⟩
    · refine ⟨List.not_mem_nil, List.not_mem_nil, ?_⟩
      intro call hcall
      cases List.mem_append.mp hcall with
      | inl hold => exact h.calls call hold
      | inr hnew =>
        rw [List.mem_singleton.mp hnew]
        exact ⟨cstring_free h.key, cstring_free h.value⟩
    · exact ⟨h.key, h.value, h.calls⟩
  · rw [out_byte hresult]
    refine ⟨h.key, ?_, h.calls⟩
    have hvalue := h.value
    have hspace : (13 : UInt8) ≠ 32 := by decide
    split_ifs <;> simp [hvalue, Ne.symm hc, hspace]

/-- The words send tokens, the character they are given and backslashes. -/
theorem run_sent {ch : ℤ} {words : ShellWords} (h : what ∈ (run ch words).1) :
    what = toklabel ∨ what = tokword ∨ what = tokphrase ∨ what = ch ∨ what = backslash := by
  have heatws : ∀ words : ShellWords, what ∈ (eatws ch words).1 → what = tokphrase ∨ what = ch := by
    intro words hmem
    unfold eatws at hmem
    split_ifs at hmem <;> simp_all
  unfold run at h
  split at h
  · have hsent := heatws words h
    tauto
  · unfold bare at h
    split_ifs at h
    · simp_all
    · simp_all
    · have hsent := List.mem_cons.mp h
      have hlater := heatws (endword words)
      tauto
    all_goals simp_all
  · unfold dquot at h
    split_ifs at h <;> simp_all
    tauto
  · unfold squot at h
    split_ifs at h <;> simp_all
  · unfold ShellWords.comment at h
    split_ifs at h
    · have hsent := heatws _ h
      tauto
    · simp_all

/-- The words never send a carriage return. -/
theorem put_sent {b : UInt8} {words : ShellWords} (h : what ∈ (put b.toNat words).1) :
    what = toklabel ∨ what = tokword ∨ what = tokphrase ∨ ∃ c : UInt8, c ≠ 13 ∧ what = c.toNat := by
  by_cases hreturn : b = 13
  · rw [hreturn] at h
    cases h
  · rw [put_run hreturn] at h
    rcases run_sent h with h | h | h | h | h
    · exact .inl h
    · exact .inr (.inl h)
    · exact .inr (.inr (.inl h))
    · exact .inr (.inr (.inr ⟨b, hreturn, h⟩))
    · exact .inr (.inr (.inr ⟨92, by decide, h⟩))

/-- What the words send keeps the strings free. -/
theorem Free.feed (h : st.Free) (input : List UInt8) (words : ShellWords) :
    (st.outs cb (feed input words).1).Free := by
  induction input generalizing st words with
  | nil => exact h
  | cons b input ih =>
    have houts : ∀ whats : List ℤ, (∀ what ∈ whats, what = toklabel ∨ what = tokword ∨ what = tokphrase ∨
        ∃ c : UInt8, c ≠ 13 ∧ what = c.toNat) → ∀ {st : Conf}, st.Free → (st.outs cb whats).Free := by
      intro whats hwhats
      induction whats with
      | nil => exact id
      | cons what whats ihwhats =>
        intro st hst
        exact ihwhats (fun other hother => hwhats other (List.mem_cons_of_mem what hother))
          (hst.out (hwhats what (List.mem_cons_self ..)))
    change (st.outs cb ((put b.toNat words).1 ++ _)).Free
    rw [outs_append]
    exact ih (houts _ (fun what hmem => put_sent hmem) h) _

/-! ## Files -/

/-- Every setting that is reached is clear, and if no result is negative the last one is zero. -/
def Delivers (cb : List Pair → ℤ) : List Pair → List Setting → Prop
  | done, [] => done ≠ [] → cb done = 0
  | done, setting :: rest => setting.Clear ∧
    (0 ≤ cb (done ++ [setting.call]) → Delivers cb (done ++ [setting.call]) rest)

/-- Lines with their newlines. -/
def body (lines : List ConfLine) : List UInt8 := lines.flatMap fun line => line.source ++ [10]

/-- The calls for these settings. -/
def callsFor (lines : List ConfLine) : List Pair := (ConfLine.settings lines).map Setting.call

/-- A file and one more newline are its lines, and then at most a newline. -/
theorem file_newline (lines : List ConfLine) (ended : Bool) : ∃ tail, (tail = [] ∨ tail = [10]) ∧
    ConfLine.file lines ended ++ [10] = body lines ++ tail := by
  cases ended with
  | true => exact ⟨[10], .inr rfl, rfl⟩
  | false =>
    cases List.eq_nil_or_concat' lines with
    | inl h =>
      rw [h]
      exact ⟨[10], .inr rfl, rfl⟩
    | inr h =>
      obtain ⟨first, last, rfl⟩ := h
      refine ⟨[], .inl rfl, ?_⟩
      simp only [ConfLine.file, body, List.flatMap_append, List.flatMap_cons, List.flatMap_nil, List.append_nil,
        Bool.false_eq_true, if_false]
      rw [← List.append_assoc, List.dropLast_concat]

/-- Between two lines a further phrase changes nothing. -/
theorem fresh_phrase (calls : List Pair) (result : ℤ) :
    (fresh calls result).outs cb [tokphrase] = fresh calls result := by
  change (fresh calls result).out cb tokphrase = _
  by_cases h : result < 0
  · exact if_pos h
  · have hresult : ¬(fresh calls result).result < 0 := h
    have hlast : (fresh calls result).last = tokphrase := rfl
    rw [out, if_neg hresult, if_pos rfl, if_pos hlast]
    rfl

/-- So does at most one newline. -/
theorem fresh_tail (calls : List Pair) (result : ℤ) {tail : List UInt8} (htail : tail = [] ∨ tail = [10]) :
    (fresh calls result).outs cb (feed tail (pairing .eatws true)).1 = fresh calls result := by
  cases htail with
  | inl h =>
    rw [h]
    rfl
  | inr h =>
    rw [h]
    exact fresh_phrase calls result

/-- A line without a setting changes nothing either. -/
theorem line_outs {line : ConfLine} (hvalid : line.Valid) (hnone : line.setting? = none) (calls : List Pair)
    (result : ℤ) (rest : List UInt8) :
    (fresh calls result).outs cb (feed (line.source ++ [10] ++ rest) (pairing .eatws true)).1 =
      (fresh calls result).outs cb (feed rest (pairing .eatws true)).1 := by
  rw [feed_append, line_sends hvalid hnone, outs_append, fresh_phrase]

/-- The calls that are to be made continue those done. -/
theorem expected_done (calls : List Pair) : done <+: (expected cb done calls).1 := by
  induction calls generalizing done with
  | nil => exact List.prefix_rfl
  | cons call calls ih =>
    rw [expected]
    split
    · exact List.prefix_append ..
    · exact (List.prefix_append ..).trans ih

/-- The next call is among them. -/
theorem expected_next (call : Pair) (calls : List Pair) : done ++ [call] <+: (expected cb done (call :: calls)).1 := by
  rw [expected]
  split
  · exact List.prefix_rfl
  · exact expected_done calls

/-- A reader that misses the next call does not do what it should. -/
theorem Misses.not_expected {calls : List Pair} (h : st.Misses done call) :
    (st.calls, st.result) ≠ expected cb done (call :: calls) := by
  intro heq
  have hnext := @expected_next cb done call calls
  rw [← heq] at hnext
  cases h with
  | inl h =>
    have hlength := hnext.length_le
    rw [h.1, List.length_append] at hlength
    exact absurd hlength (by simp)
  | inr h =>
    obtain ⟨other, hne, hmade⟩ := h
    have hsame := List.prefix_of_prefix_length_le hmade hnext (by simp)
    have heq := hsame.eq_of_length (by simp)
    rw [List.append_cancel_left_eq, List.cons.injEq] at heq
    exact hne heq.1

/-- The line of a clear setting calls back. -/
theorem setting_line {setting : Setting} (hvalid : setting.Valid) (hclear : setting.Clear) (done : List Pair)
    {result : ℤ} (h : 0 ≤ result) (rest : List UInt8) :
    (fresh done result).outs cb (feed (setting.source ++ [10] ++ rest) (pairing .eatws true)).1 =
      (fresh (done ++ [setting.call]) (cb (done ++ [setting.call]))).outs cb (feed rest (pairing .eatws true)).1 := by
  rw [feed_append, setting_sends hvalid hclear, outs_append, setting_outs hvalid hclear done h]

theorem body_cons (line : ConfLine) (lines : List ConfLine) (tail : List UInt8) :
    body (line :: lines) ++ tail = line.source ++ [10] ++ (body lines ++ tail) := by
  rw [body, List.flatMap_cons, List.append_assoc]
  rfl

/-- A reader between two lines that has kept to the calls so far. -/
structure At (cb : List Pair → ℤ) (done : List Pair) (result : ℤ) : Prop where
  nonneg : 0 ≤ result
  last : result = if done = [] then 0 else cb done

theorem At.next (h : 0 ≤ cb (done ++ [call])) : At cb (done ++ [call]) (cb (done ++ [call])) where
  nonneg := h
  last := by simp

section Lines

variable {lines : List ConfLine} {result : ℤ} {tail : List UInt8}

/-- What the reader has done after these lines. -/
def Reads (cb : List Pair → ℤ) (done : List Pair) (result : ℤ) (lines : List ConfLine) (tail : List UInt8) : Prop :=
  let st := (fresh done result).outs cb (feed (body lines ++ tail) (pairing .eatws true)).1
  (st.calls, st.result) = expected cb done (callsFor lines)

/-- After a line without a setting the reader goes on. -/
theorem reads_none {line : ConfLine} (hvalid : line.Valid) (hnone : line.setting? = none) :
    Reads cb done result (line :: lines) tail ↔ Reads cb done result lines tail := by
  have hsettings : callsFor (line :: lines) = callsFor lines := by
    rw [callsFor, ConfLine.settings, List.filterMap_cons_none hnone]
    rfl
  rw [Reads, body_cons, line_outs hvalid hnone, hsettings]
  rfl

/-- After a clear setting it has made the call, and goes on if the result is not negative. -/
theorem reads_setting {setting : Setting} (hvalid : setting.Valid) (hclear : setting.Clear) (h : 0 ≤ result) :
    Reads cb done result (.setting setting :: lines) tail ↔ (0 ≤ cb (done ++ [setting.call]) →
      Reads cb (done ++ [setting.call]) (cb (done ++ [setting.call])) lines tail) := by
  have hsettings : callsFor (.setting setting :: lines) = setting.call :: callsFor lines := rfl
  have hsource : (ConfLine.setting setting).source = setting.source := rfl
  rw [Reads, body_cons, hsource, setting_line hvalid hclear done h, hsettings, expected]
  split
  case isTrue hnegative =>
    have hfailed : (fresh (done ++ [setting.call]) (cb (done ++ [setting.call]))).result < 0 := hnegative
    rw [outs_failed hfailed]
    exact iff_of_true rfl fun hnonneg => absurd hnegative (not_lt.mpr hnonneg)
  case isFalse hnonneg => exact ⟨fun hreads _ => hreads, fun hreads => hreads (not_lt.mp hnonneg)⟩

/-- The reader does what it should for settings that are delivered. -/
theorem reads_of_delivers (hvalid : ∀ line ∈ lines, line.Valid) (hat : At cb done result)
    (hdelivers : Delivers cb done (ConfLine.settings lines)) (htail : tail = [] ∨ tail = [10]) :
    Reads cb done result lines tail := by
  induction lines generalizing done result with
  | nil =>
    have hzero : result = 0 := by
      rw [hat.last]
      split_ifs with hdone
      · rfl
      · exact hdelivers hdone
    have hempty : body [] ++ tail = tail := rfl
    rw [Reads, hempty, fresh_tail done result htail, hzero]
    rfl
  | cons line lines ih =>
    have ⟨hline, hlater⟩ := List.forall_mem_cons.mp hvalid
    cases line with
    | setting setting =>
      apply (reads_setting hline hdelivers.1 hat.nonneg).mpr
      intro hnonneg
      exact ih hlater (At.next hnonneg) (hdelivers.2 hnonneg)
    | blank gap => exact (reads_none hline rfl).mpr (ih hlater hat hdelivers)
    | comment lead text => exact (reads_none hline rfl).mpr (ih hlater hat hdelivers)

/-- Settings are delivered if the reader does what it should and all of its calls can be made. -/
theorem delivers_of_reads (hvalid : ∀ line ∈ lines, line.Valid) (hat : At cb done result)
    (hfree : ∀ call ∈ (expected cb done (callsFor lines)).1, 0 ∉ call.2 ∧ 13 ∉ call.2)
    (htail : tail = [] ∨ tail = [10]) (hreads : Reads cb done result lines tail) :
    Delivers cb done (ConfLine.settings lines) := by
  induction lines generalizing done result with
  | nil =>
    have hempty : body [] ++ tail = tail := rfl
    rw [Reads, hempty, fresh_tail done result htail] at hreads
    have hzero : result = 0 := congrArg Prod.snd hreads
    intro hdone
    have hlast := hat.last
    rw [if_neg hdone] at hlast
    rw [← hlast, hzero]
  | cons line lines ih =>
    have ⟨hline, hlater⟩ := List.forall_mem_cons.mp hvalid
    cases line with
    | setting setting =>
      have hnext := @expected_next cb done setting.call (callsFor lines)
      have hcall : setting.call ∈ (expected cb done (callsFor (.setting setting :: lines))).1 :=
        hnext.subset (List.mem_append_right done (List.mem_singleton.mpr rfl))
      have htext : ∀ entry ∈ setting.words, 0 ∉ Part.textOf entry.1 ∧ 13 ∉ Part.textOf entry.1 := by
        intro entry hentry
        have ⟨hnul, hreturn⟩ := hfree setting.call hcall
        exact ⟨fun hmem => hnul ((mem_joined (by decide)).mpr ⟨entry, hentry, hmem⟩),
          fun hmem => hreturn ((mem_joined (by decide)).mpr ⟨entry, hentry, hmem⟩)⟩
      have hplain : ∀ entry ∈ setting.words.tail, ¬Part.Delimits entry.1 := by
        intro entry hentry hdelimits
        have hmisses := @setting_misses cb done setting hline (fun entry hentry => (htext entry hentry).2)
          ⟨entry, hentry, hdelimits⟩ result hat.nonneg (body lines ++ tail)
        rw [Reads, body_cons] at hreads
        exact hmisses.not_expected hreads
      have hclear : setting.Clear := ⟨htext, hplain⟩
      apply And.intro hclear
      intro hnonneg
      have hsame : expected cb done (callsFor (.setting setting :: lines)) =
          expected cb (done ++ [setting.call]) (callsFor lines) := if_neg (not_lt.mpr hnonneg)
      rw [hsame] at hfree
      exact ih hlater (At.next hnonneg) hfree ((reads_setting hline hclear hat.nonneg).mp hreads hnonneg)
    | blank gap => exact ih hlater hat hfree ((reads_none hline rfl).mp hreads)
    | comment lead text => exact ih hlater hat hfree ((reads_none hline rfl).mp hreads)

end Lines

/-- `key=a b=c`, where the second word has a delimiter. -/
def twoLabels : Setting :=
  { lead := []
    key := [107, 101, 121]
    gap := []
    words := [([.bare 97], [32]), ([.bare 98, .bare 61, .bare 99], [])] }

theorem twoLabels_valid : twoLabels.Valid where
  lead := nofun
  key := by decide +kernel
  named := by decide +kernel
  begins := by decide +kernel
  gap := nofun
  some := by decide +kernel
  words :=
    { word := by
        intro entry hentry
        cases hentry with
        | head => exact ⟨by decide +kernel, by decide +kernel, by decide +kernel⟩
        | tail _ hentry =>
          rw [List.mem_singleton.mp hentry]
          exact ⟨by decide +kernel, by decide +kernel, by decide +kernel⟩
      blank := by unfold Blank; decide +kernel
      separated := by unfold Separates; decide +kernel }

/-- `key=a=b 'c d'` and a comment, without a newline at the end. -/
def oneLabel : Setting :=
  { lead := []
    key := [107, 101, 121]
    gap := []
    words := [([.bare 97, .bare 61, .bare 98], [32]), ([.single [99, 32, 100]], [])] }

theorem oneLabel_valid : oneLabel.Valid where
  lead := nofun
  key := by decide +kernel
  named := by decide +kernel
  begins := by decide +kernel
  gap := nofun
  some := by decide +kernel
  words :=
    { word := by
        intro entry hentry
        cases hentry with
        | head => exact ⟨by decide +kernel, by decide +kernel, by decide +kernel⟩
        | tail _ hentry =>
          rw [List.mem_singleton.mp hentry]
          exact ⟨by decide +kernel, by decide +kernel, by decide +kernel⟩
      blank := by unfold Blank; decide +kernel
      separated := by unfold Separates; decide +kernel }

end Conf

end Aug.Util
