import Aug.Util.ConfSettings

/-!
# Reading a configuration file

The reader calls back with every setting of a file exactly if the settings are clear. The words behind the first
one are looked at for labels again: a delimiter in one of them swaps the strings, and as the delimiter is lost,
what the callback gets at the next end of a line is too short.
-/

namespace Aug.Util

open ShellWords

namespace Conf

variable {cb : List Pair → ℤ} {st : Conf} {text : List UInt8} {whats : List ℤ}

/-- The reader between two lines, after these calls. -/
def fresh (calls : List Pair) (result : ℤ) : Conf := { key := [], value := [], last := tokphrase, result, calls }

/-! ## Clear settings -/

/-- A character goes to the end of the value, behind a space if it begins the next word. -/
theorem out_byte (h : 0 ≤ st.result) (b : UInt8) : st.out cb b.toNat =
    { st with value := (if st.last = tokword then st.value ++ [32] else st.value) ++ [b], last := b.toNat } := by
  have hphrase : (b.toNat : ℤ) ≠ tokphrase := by unfold tokphrase; omega
  have hlabel : (b.toNat : ℤ) ≠ toklabel := by unfold toklabel; omega
  have hword : (b.toNat : ℤ) ≠ tokword := by unfold tokword; omega
  rw [out, if_neg (not_lt.mpr h), if_neg hphrase, if_neg hlabel, if_neg hword, toChar_byte]

theorem out_label (h : 0 ≤ st.result) :
    st.out cb toklabel = { st with key := st.value, value := st.key, last := toklabel } := by
  rw [out, if_neg (not_lt.mpr h)]
  rfl

theorem out_tokword (h : 0 ≤ st.result) : st.out cb tokword = { st with last := tokword } := by
  rw [out, if_neg (not_lt.mpr h)]
  rfl

/-- Characters within a word. -/
theorem outs_text (h : 0 ≤ st.result) (hlast : 0 ≤ st.last) (text : List UInt8) : ∃ last : ℤ, 0 ≤ last ∧
    st.outs cb (chars text) = { st with value := st.value ++ text, last } := by
  induction text generalizing st with
  | nil =>
    refine ⟨st.last, hlast, ?_⟩
    rw [List.append_nil]
    rfl
  | cons b text ih =>
    have hword : st.last ≠ tokword := by unfold tokword; omega
    have hfirst := @out_byte cb st h b
    rw [if_neg hword] at hfirst
    have ⟨last, hle, hrest⟩ := @ih { st with value := st.value ++ [b], last := b.toNat } h (Int.natCast_nonneg _)
    refine ⟨last, hle, ?_⟩
    change (st.out cb b.toNat).outs cb (chars text) = _
    rw [hfirst, hrest, List.append_assoc]
    rfl

/-- The characters of a word. -/
theorem outs_word (h : 0 ≤ st.result) (hnonempty : text ≠ []) : st.outs cb (chars text ++ [tokword]) =
    { st with value := (if st.last = tokword then st.value ++ [32] else st.value) ++ text, last := tokword } := by
  cases text with
  | nil => exact absurd rfl hnonempty
  | cons b text =>
    have hbegin : st.outs cb (chars (b :: text)) = (st.out cb b.toNat).outs cb (chars text) := rfl
    rw [outs_append, hbegin, out_byte h]
    obtain ⟨last, hle, hrest⟩ := @outs_text cb
      { st with value := (if st.last = tokword then st.value ++ [32] else st.value) ++ [b], last := b.toNat }
      h (Int.natCast_nonneg _) text
    rw [hrest, List.append_assoc]
    exact out_tokword h

/-- The words behind the first one. -/
theorem outs_words {words : List (List Part × List UInt8)} (h : 0 ≤ st.result) (hlast : st.last = tokword)
    (hnonempty : ∀ entry ∈ words, Part.textOf entry.1 ≠ []) :
    st.outs cb (words.flatMap fun entry => chars (Part.textOf entry.1) ++ [tokword]) =
      { st with value := st.value ++ words.flatMap fun entry => 32 :: Part.textOf entry.1 } := by
  induction words generalizing st with
  | nil =>
    rw [List.flatMap_nil, List.flatMap_nil, List.append_nil]
    rfl
  | cons first words ih =>
    have hfirst := @outs_word cb st _ h (hnonempty first (List.mem_cons_self ..))
    rw [if_pos hlast] at hfirst
    have hrest := @ih { st with value := st.value ++ [32] ++ Part.textOf first.1, last := tokword } h rfl
      fun entry hentry => hnonempty entry (List.mem_cons_of_mem first hentry)
    rw [List.flatMap_cons, outs_append, hfirst, hrest]
    simp [hlast]

/-- The words are joined by single spaces. -/
theorem joined_cons (first : List Part × List UInt8) (words : List (List Part × List UInt8)) :
    Setting.joined (first :: words) =
      Part.textOf first.1 ++ words.flatMap fun entry => 32 :: Part.textOf entry.1 := by
  induction words generalizing first with
  | nil => simp [Setting.joined, List.intercalate]
  | cons second words ih =>
    have hrest := ih second
    simp only [Setting.joined, List.map_cons, List.intercalate, List.intersperse_cons_cons, List.flatten_cons] at hrest ⊢
    rw [hrest]
    rfl

/-- The label makes the text so far the key. -/
theorem outs_key (done : List Pair) {result : ℤ} (h : 0 ≤ result) {key : List UInt8} (hnamed : key ≠ []) :
    (fresh done result).outs cb (chars key ++ [toklabel]) = { fresh done result with key, last := toklabel } := by
  cases key with
  | nil => exact absurd rfl hnamed
  | cons b key =>
    have hfirst := @out_byte cb (fresh done result) h b
    have hlast : tokphrase ≠ tokword := by decide
    rw [if_neg (show (fresh done result).last ≠ tokword from hlast)] at hfirst
    have hbegin : (fresh done result).outs cb (chars (b :: key)) =
        ((fresh done result).out cb b.toNat).outs cb (chars key) := rfl
    obtain ⟨last, hle, hrest⟩ := @outs_text cb { fresh done result with value := [] ++ [b], last := b.toNat }
      h (Int.natCast_nonneg _) key
    rw [outs_append, hbegin, hfirst]
    change outs cb (outs cb { fresh done result with value := [] ++ [b], last := b.toNat } _) _ = _
    rw [hrest]
    exact out_label h

/-- At the end of a line that has begun, the callback gets the key and the value. -/
theorem out_phrase (h : 0 ≤ st.result) (hlast : st.last ≠ tokphrase) (hkey : st.key ≠ []) :
    st.out cb tokphrase = fresh (st.calls ++ [st.pair]) (cb (st.calls ++ [st.pair])) := by
  have hlength : st.key.length ≠ 0 := fun hzero => hkey (List.length_eq_zero_iff.mp hzero)
  rw [out, if_neg (not_lt.mpr h), if_pos rfl, if_neg hlast, if_pos hlength]
  rfl

/-- The joined words contain the characters of every word. -/
theorem mem_joined {b : UInt8} {words : List (List Part × List UInt8)} (hspace : b ≠ 32) :
    b ∈ Setting.joined words ↔ ∃ entry ∈ words, b ∈ Part.textOf entry.1 := by
  cases words with
  | nil => simp [Setting.joined]
  | cons first words => simp [joined_cons, hspace]

/-- A clear setting is called back with, and nothing of it is left. -/
theorem setting_outs {setting : Setting} (hvalid : setting.Valid) (hclear : setting.Clear) (done : List Pair)
    {result : ℤ} (h : 0 ≤ result) :
    (fresh done result).outs cb (chars setting.key ++ [toklabel] ++
        (setting.words.flatMap (fun entry => chars (Part.textOf entry.1) ++ [tokword]) ++ [tokphrase])) =
      fresh (done ++ [setting.call]) (cb (done ++ [setting.call])) := by
  have hkeytext : setting.key.takeWhile (· ≠ 0) = setting.key :=
    cstring_text fun b hb => (hvalid.key b hb).2.2
  have hvaluetext : (Setting.joined setting.words).takeWhile (· ≠ 0) = Setting.joined setting.words := by
    apply cstring_text
    rintro b hb rfl
    obtain ⟨entry, hentry, hzero⟩ := (mem_joined (by decide)).mp hb
    exact (hclear.text entry hentry).1 hzero
  have hwords : ({ fresh done result with key := setting.key, last := toklabel } : Conf).outs cb
      (setting.words.flatMap fun entry => chars (Part.textOf entry.1) ++ [tokword]) =
        { fresh done result with key := setting.key, value := Setting.joined setting.words, last := tokword } := by
    cases hsome : setting.words with
    | nil => exact absurd hsome hvalid.some
    | cons first words =>
      have hword := hvalid.words.word
      rw [hsome] at hword
      have hfirst := @outs_word cb { fresh done result with key := setting.key, last := toklabel } _ h
        (hword first (List.mem_cons_self ..)).nonempty
      have hlast : toklabel ≠ tokword := by decide
      rw [if_neg hlast] at hfirst
      have hrest := @outs_words cb
        { fresh done result with key := setting.key, value := [] ++ Part.textOf first.1, last := tokword } words h rfl
        fun entry hentry => (hword entry (List.mem_cons_of_mem first hentry)).nonempty
      rw [List.flatMap_cons, outs_append, hfirst, joined_cons]
      exact hrest
  rw [outs_append, outs_append, outs_key done h hvalid.named, hwords]
  have hlast : tokword ≠ tokphrase := by decide
  have hphrase := @out_phrase cb
    { fresh done result with key := setting.key, value := Setting.joined setting.words, last := tokword } h hlast
    hvalid.named
  rw [pair, hkeytext, hvaluetext] at hphrase
  exact hphrase

end Conf

end Aug.Util
