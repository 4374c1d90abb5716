import Aug.Util.XstrRun

/-!
# The representation of growing strings

As long as no string grows, each string is in its local buffer, and its content is the reference
string. The first growth of a string leaves this representation: as many bytes as the new buffer is
to have are copied from the local one, which is smaller.
-/

namespace Aug.Util

open Aug.Lib Call

/-- The string is in its local buffer with some content in front of other cells. -/
structure Held (mem : XMemory) (x : ℕ) (content : List UInt8) (size : ℕ) (rest : List UInt8) : Prop where
  fields : mem.xstrs x = some ⟨content.length, size, x⟩
  block : mem.heap x = some (content ++ rest)
  room : content.length + rest.length = size + 8
  fits : content.length ≤ size
  least : 64 ≤ size
  most : size + 40 < 2 ^ 63

/-- Only the string and its block may differ. -/
def Elsewhere (mem mem' : XMemory) (x : ℕ) : Prop :=
  ∀ y ≠ x, mem'.heap y = mem.heap y ∧ mem'.xstrs y = mem.xstrs y

/-- The call is defined and leaves the string with what it keeps, and what it adds unless it fails. -/
def Agrees (call : XCall Unit) (mem : XMemory) (x size : ℕ) (kept added : List UInt8) : Prop :=
  ∃ result mem' rest, call mem = some (result, mem') ∧ Elsewhere mem mem' x ∧
    Held mem' x (match result with | .error _ => kept | .ok _ => kept ++ added) size rest

/-- An append that asks for `num` bytes and adds `added` is too long for the buffer: either it grows the
string, or the sum of the lengths wraps to one that fits. -/
def Exceeds (size len num added : ℕ) (alloc : Alloc) : Prop :=
  if u64 (len + num) ≤ size - len then size < len + added else alloc ≠ none

instance {size len num added : ℕ} {alloc : Alloc} : Decidable (Exceeds size len num added alloc) :=
  inferInstanceAs (Decidable (if u64 (len + num) ≤ size - len then size < len + added else alloc ≠ none))

/-- The call is undefined, or it leaves a length above the size. -/
def Breaks (call : XCall Unit) (mem : XMemory) (x : ℕ) : Prop :=
  Undefined call mem ∨ ∃ mem' xstr, Returns call mem () mem' ∧ mem'.xstrs x = some xstr ∧ xstr.size < xstr.len

/-- The call agrees with the reference if and only if it does not exceed the buffer. -/
structure Faithful (call : XCall Unit) (mem : XMemory) (x size : ℕ) (kept added : List UInt8) (reserved : Option ℕ)
    (alloc : Alloc) : Prop where
  agrees : (∀ num ∈ reserved, ¬Exceeds size kept.length num added.length alloc) → Agrees call mem x size kept added
  breaks : ∀ num ∈ reserved, Exceeds size kept.length num added.length alloc → Breaks call mem x

variable {mem mem' : XMemory} {x size n : ℕ} {content bytes rest : List UInt8} {alloc : Alloc} {str : Xstr}
  {source : XCall (List UInt8)}

theorem Elsewhere.refl (mem : XMemory) (x : ℕ) : Elsewhere mem mem x := fun _ _ => ⟨rfl, rfl⟩

theorem Held.elsewhere {y : ℕ} (h : Held mem x content size rest) (hmem : Elsewhere mem mem' y) (hne : x ≠ y) :
    Held mem' x content size rest where
  fields := by rw [(hmem x hne).2, h.fields]
  block := by rw [(hmem x hne).1, h.block]
  room := h.room
  fits := h.fits
  least := h.least
  most := h.most

/-- The string with new content. -/
def XMemory.put (mem : XMemory) (x size : ℕ) (content rest : List UInt8) : XMemory where
  heap := Function.update mem.heap x (some (content ++ rest))
  xstrs := Function.update mem.xstrs x (some ⟨content.length, size, x⟩)

theorem elsewhere_put : Elsewhere mem (mem.put x size content rest) x := by
  intro y hy
  exact ⟨Function.update_of_ne hy _ _, Function.update_of_ne hy _ _⟩

theorem held_put (hroom : content.length + rest.length = size + 8) (hfits : content.length ≤ size)
    (hleast : 64 ≤ size) (hmost : size + 40 < 2 ^ 63) : Held (mem.put x size content rest) x content size rest where
  fields := Function.update_self _ _ _
  block := Function.update_self _ _ _
  room := hroom
  fits := hfits
  least := hleast
  most := hmost

namespace Xstr

theorem fields_returns (h : mem.xstrs x = some str) : Returns (fields x) mem str mem :=
  (returns_read mem).bind (returns_access h mem)

theorem load_returns {a i : ℕ} (h : mem.heap.load a i n = some bytes) : Returns (load a i n) mem bytes mem :=
  (returns_read mem).bind (returns_access h mem)

theorem load_undefined {a i : ℕ} (h : mem.heap.load a i n = none) : Undefined (load a i n) mem := by
  apply (returns_read mem).bind_undefined
  rw [h]
  exact undefined_access mem

theorem store_returns {a i : ℕ} {heap : Heap UInt8} (h : mem.heap.store a i bytes = some heap) :
    Returns (store a i bytes) mem () { mem with heap } :=
  (returns_read mem).bind ((returns_access h mem).bind (returns_modify _ mem))

theorem store_undefined {a i : ℕ} (h : mem.heap.store a i bytes = none) : Undefined (store a i bytes) mem := by
  apply (returns_read mem).bind_undefined
  apply Undefined.bind
  rw [h]
  exact undefined_access mem

theorem available (h : Held mem x content size rest) :
    u64 ((size : ℤ) - (content.length : ℤ)) = size - content.length := by
  have hfits := h.fits
  have hmost := h.most
  exact u64_eq (by omega) (by omega)

/-- There is room. -/
theorem reserve_returns (h : Held mem x content size rest) (hn : n ≤ size - content.length) :
    Returns (reserve x n alloc) mem () mem := by
  apply (fields_returns h.fields).bind
  rw [available h, if_pos hn]
  exact returns_pure () mem

/-- There is not enough room, and the pool is exhausted. -/
theorem reserve_fails (h : Held mem x content size rest) (hn : ¬n ≤ size - content.length) :
    Fails (reserve x n none) mem () mem := by
  apply (fields_returns h.fields).bind_fails
  rw [available h, if_neg hn]
  apply (fields_returns h.fields).bind_fails
  rw [if_pos rfl]
  exact Fails.bind (fails_fail () mem)

/-- A string that grows out of its local buffer reads past the end of this buffer. -/
theorem reserve_undefined {a : ℕ} (cells : ℕ → UInt8) (h : Held mem x content size rest)
    (hfree : mem.heap a = none) (hn : ¬n ≤ size - content.length) :
    Undefined (reserve x n (some (a, cells))) mem := by
  have hleast := h.least
  have hmost := h.most
  have hne : x ≠ a := by
    intro heq
    rw [← heq, h.block] at hfree
    cases hfree
  have hdouble : u64 ((size : ℤ) * 2) = size * 2 := u64_eq (by omega) (by omega)
  apply (fields_returns h.fields).bind_undefined
  rw [available h, if_neg hn]
  apply (fields_returns h.fields).bind_undefined
  rw [if_pos rfl]
  apply ((returns_modify _ mem).bind (returns_pure a _)).bind_undefined
  apply Undefined.bind
  apply load_undefined
  have hblock : (mem.heap.allocate a ((List.range (u64 ((max (u64 ((size : ℤ) * 2)) n : ℕ) + 1))).map cells)) x =
      some (content ++ rest) := by
    rw [Heap.allocate, Function.update_of_ne hne, h.block]
  apply Heap.load_past hblock
  rw [List.length_append, h.room, hdouble]
  omega

/-- An append that finds room and stays inside of the block. -/
theorem append_returns (h : Held mem x content size rest) (hn : u64 (content.length + n) ≤ size - content.length)
    (hsource : Returns source mem bytes mem) (hbytes : content.length + bytes.length ≤ size + 8) :
    Returns (append x n alloc source) mem ()
      (mem.put x size (content ++ bytes) (rest.drop bytes.length)) := by
  have hroom := h.room
  have hmost := h.most
  have hlen : u64 ((content.length : ℤ) + (bytes.length : ℤ)) = (content ++ bytes).length := by
    rw [List.length_append]
    exact u64_eq (by omega) (by omega)
  have hsplit : content ++ rest = content ++ (rest.take bytes.length ++ rest.drop bytes.length) := by
    rw [List.take_append_drop]
  have htake : bytes.length = (rest.take bytes.length).length := by
    rw [List.length_take]
    omega
  have hstore := Heap.store_block _ _ bytes _ (h.block.trans (congrArg some hsplit)) rfl htake
  apply (fields_returns h.fields).bind
  apply (reserve_returns h hn).bind
  apply (fields_returns h.fields).bind
  apply hsource.bind
  apply (store_returns hstore).bind
  rw [hlen]
  rw [XMemory.put, List.append_assoc]
  exact returns_modify _ _

/-- An append whose source fails. -/
theorem append_fails (h : Held mem x content size rest) (hn : u64 (content.length + n) ≤ size - content.length)
    (hsource : Fails source mem () mem) : Fails (append x n alloc source) mem () mem := by
  apply (fields_returns h.fields).bind_fails
  apply (reserve_returns h hn).bind_fails
  apply (fields_returns h.fields).bind_fails
  exact hsource.bind

/-- An append that does not exceed the buffer. -/
theorem append_agrees (h : Held mem x content size rest) (hgood : ¬Exceeds size content.length n bytes.length alloc)
    (hsource : Returns source mem bytes mem ∨ Fails source mem () mem ∧ bytes = []) :
    Agrees (append x n alloc source) mem x size content bytes := by
  have hroom := h.room
  rw [Exceeds] at hgood
  by_cases hn : u64 (content.length + n) ≤ size - content.length
  · rw [if_pos hn] at hgood
    cases hsource with
    | inl hreturns =>
      have hfits : content.length + bytes.length ≤ size := by omega
      apply Exists.intro (.ok ())
      exact ⟨_, _, append_returns h hn hreturns (by omega), elsewhere_put,
        held_put (by simp only [List.length_append, List.length_drop]; omega)
          (by rw [List.length_append]; omega) h.least h.most⟩
    | inr hfails => exact ⟨.error (), mem, rest, append_fails h hn hfails.1, .refl mem x, h⟩
  · rw [if_neg hn, not_not] at hgood
    rw [hgood]
    have hreserve := reserve_fails h hn
    apply Exists.intro (.error ())
    exact ⟨mem, rest, (fields_returns h.fields).bind_fails hreserve.bind, .refl mem x, h⟩

/-- An append that exceeds the buffer is undefined, or it leaves a length above the size. -/
theorem append_exceeds (h : Held mem x content size rest) (hbad : Exceeds size content.length n bytes.length alloc)
    (hfree : ∀ a cells, alloc = some (a, cells) → mem.heap a = none)
    (hsource : Returns source mem bytes mem ∨ Fails source mem () mem ∧ bytes = []) :
    Breaks (append x n alloc source) mem x := by
  have hroom := h.room
  have hmost := h.most
  have hfits := h.fits
  rw [Exceeds] at hbad
  by_cases hn : u64 (content.length + n) ≤ size - content.length
  · rw [if_pos hn] at hbad
    have hreturns : Returns source mem bytes mem := by
      cases hsource with
      | inl hreturns => exact hreturns
      | inr hfails =>
        rw [hfails.2, List.length_nil] at hbad
        omega
    by_cases hpast : size + 8 < content.length + bytes.length
    · apply Or.inl
      apply (fields_returns h.fields).bind_undefined
      apply (reserve_returns h hn).bind_undefined
      apply (fields_returns h.fields).bind_undefined
      apply hreturns.bind_undefined
      apply Undefined.bind
      apply store_undefined
      apply Heap.store_past h.block
      rw [List.length_append, h.room]
      exact hpast
    · apply Or.inr
      apply Exists.intro
      apply Exists.intro ⟨(content ++ bytes).length, size, x⟩
      apply And.intro (append_returns h hn hreturns (by omega))
      apply And.intro (Function.update_self _ _ _)
      rw [List.length_append]
      exact hbad
  · rw [if_neg hn] at hbad
    apply Or.inl
    cases alloc with
    | none => exact absurd rfl hbad
    | some answer =>
      have hreserve := reserve_undefined answer.2 h (hfree answer.1 answer.2 rfl) hn
      exact (fields_returns h.fields).bind_undefined hreserve.bind

/-- A string that is cleared keeps its first bytes; the heap stays as it is. -/
theorem clearxstrn_returns (h : Held mem x content size rest) (len : ℕ) :
    Returns (clearxstrn x len) mem () (mem.put x size (content.take len) (content.drop len ++ rest)) := by
  have hput : mem.put x size (content.take len) (content.drop len ++ rest) =
      { mem with xstrs := Function.update mem.xstrs x (some ⟨(content.take len).length, size, x⟩) } := by
    rw [XMemory.put, ← List.append_assoc, List.take_append_drop, ← h.block, Function.update_eq_self]
  rw [hput]
  apply (fields_returns h.fields).bind
  by_cases hlen : len < content.length
  · rw [if_pos hlen, List.length_take, Nat.min_eq_left hlen.le]
    exact returns_modify _ mem
  · rw [if_neg hlen, List.take_of_length_le (by omega), ← h.fields, Function.update_eq_self]
    exact returns_pure () mem

theorem held_clear (h : Held mem x content size rest) (len : ℕ) :
    Held (mem.put x size (content.take len) (content.drop len ++ rest)) x (content.take len) size
      (content.drop len ++ rest) := by
  have hroom := h.room
  have hfits := h.fits
  apply held_put _ _ h.least h.most
  · simp only [List.length_append, List.length_take, List.length_drop]
    omega
  · rw [List.length_take]
    omega

theorem clear_heap (h : Held mem x content size rest) (len : ℕ) :
    (mem.put x size (content.take len) (content.drop len ++ rest)).heap = mem.heap := by
  rw [XMemory.put, ← List.append_assoc, List.take_append_drop, ← h.block, Function.update_eq_self]

theorem clear_ptr (h : Held mem x content size rest) (len : ℕ) {src : ℕ} (hsrc : mem.xstrs src = some str) :
    ∃ str', (mem.put x size (content.take len) (content.drop len ++ rest)).xstrs src = some str' ∧
      str'.ptr = str.ptr := by
  by_cases heq : src = x
  · rw [heq, h.fields, Option.some.injEq] at hsrc
    rw [heq, ← hsrc]
    exact ⟨_, Function.update_self _ _ _, rfl⟩
  · exact ⟨str, (Function.update_of_ne heq _ _).trans hsrc, rfl⟩

theorem clearxstrn_agrees (h : Held mem x content size rest) (len : ℕ) :
    Agrees (clearxstrn x len) mem x size (content.take len) [] := by
  apply Exists.intro (.ok ())
  apply Exists.intro _
  apply Exists.intro (content.drop len ++ rest)
  apply And.intro (clearxstrn_returns h len)
  apply And.intro elsewhere_put
  dsimp only
  rw [List.append_nil]
  exact held_clear h len

/-- A call that changes nothing. -/
theorem faithful_keep {call : XCall Unit} (h : Held mem x content size rest) (hcall : Returns call mem () mem) :
    Faithful call mem x size content [] none alloc where
  agrees _ := by
    apply Exists.intro (.ok ())
    apply Exists.intro mem
    apply Exists.intro rest
    apply And.intro hcall
    apply And.intro (.refl mem x)
    dsimp only
    rwa [List.append_nil]
  breaks num hnum := by cases hnum

theorem faithful_append (h : Held mem x content size rest)
    (hfree : ∀ a cells, alloc = some (a, cells) → mem.heap a = none)
    (hsource : Returns source mem bytes mem ∨ Fails source mem () mem ∧ bytes = []) :
    Faithful (append x n alloc source) mem x size content bytes (some n) alloc where
  agrees hgood := append_agrees h (hgood n rfl) hsource
  breaks num hnum hbad := by
    cases hnum
    exact append_exceeds h hbad hfree hsource

/-- A call on a string that has been cleared. -/
theorem faithful_clear {call : XCall Unit} {added : List UInt8} {reserved : Option ℕ}
    (h : Held mem x content size rest)
    (hcall : Faithful call (mem.put x size [] (content ++ rest)) x size [] added reserved alloc) :
    Faithful (do clearxstr x; call) mem x size [] added reserved alloc where
  agrees hgood := by
    obtain ⟨result, mem', rest', hresult, hmem, hheld⟩ := hcall.agrees hgood
    apply Exists.intro result
    apply Exists.intro mem'
    apply Exists.intro rest'
    apply And.intro _
    · apply And.intro _ hheld
      intro y hy
      have hput : Elsewhere mem (mem.put x size [] (content ++ rest)) x := elsewhere_put
      exact ⟨(hmem y hy).1.trans (hput y hy).1, (hmem y hy).2.trans (hput y hy).2⟩
    · cases result with
      | ok value => exact (clearxstrn_returns h 0).bind hresult
      | error e => exact (clearxstrn_returns h 0).bind_fails hresult
  breaks num hnum hbad := by
    cases hcall.breaks num hnum hbad with
    | inl hundefined => exact .inl ((clearxstrn_returns h 0).bind_undefined hundefined)
    | inr hreturns =>
      obtain ⟨mem', str, hreturns, hfields⟩ := hreturns
      exact .inr ⟨mem', str, (clearxstrn_returns h 0).bind hreturns, hfields⟩

theorem fetch_returns {src : Source} (h : XstrAction.pointed mem src n = some bytes) :
    Returns (fetch src n) mem bytes mem := by
  cases src with
  | caller text => exact returns_access h mem
  | block addr offset => exact load_returns h

theorem pointed_zero {src : Source} (h : XstrAction.pointed mem src 0 = some bytes) : bytes = [] := by
  have hload : ∀ {block : List UInt8} {i : ℕ}, Lib.load block i 0 = some bytes → bytes = [] := by
    intro block i hload
    rw [Lib.load, Option.ite_none_right_eq_some] at hload
    rw [← Option.some.inj hload.2, List.take_zero]
  cases src with
  | caller text => exact hload h
  | block addr offset =>
    obtain ⟨block, -, hblock⟩ := Option.bind_eq_some_iff.mp h
    exact hload hblock

theorem faithful_xstrcatsn {src : Source} (h : Held mem x content size rest)
    (hfree : ∀ a cells, alloc = some (a, cells) → mem.heap a = none)
    (hsrc : XstrAction.pointed mem src n = some bytes) :
    Faithful (xstrcatsn x src n alloc) mem x size content bytes (if n = 0 then none else some n) alloc := by
  rw [xstrcatsn]
  by_cases hn : n = 0
  · rw [hn] at hsrc
    rw [if_pos hn, if_pos hn, pointed_zero hsrc]
    exact faithful_keep h (returns_pure () mem)
  · rw [if_neg hn, if_neg hn]
    exact faithful_append h hfree (.inl (fetch_returns hsrc))

theorem faithful_xstrcat_ {src : ℕ} (h : Held mem x content size rest)
    (hfree : ∀ a cells, alloc = some (a, cells) → mem.heap a = none)
    (hsrc : mem.xstrs src = some str) (hbytes : mem.heap.load str.ptr 0 bytes.length = some bytes) :
    Faithful (xstrcat_ x src bytes.length alloc) mem x size content bytes
      (if bytes = [] then none else some bytes.length) alloc := by
  rw [xstrcat_]
  by_cases hn : bytes = []
  · rw [if_pos hn, hn, List.length_nil, if_pos rfl]
    exact faithful_keep h (returns_pure () mem)
  · rw [if_neg hn, if_neg (fun hlen => hn (List.length_eq_zero_iff.mp hlen))]
    exact faithful_append h hfree (.inl ((fields_returns hsrc).bind (load_returns hbytes)))

theorem faithful_xstrcatcn (h : Held mem x content size rest)
    (hfree : ∀ a cells, alloc = some (a, cells) → mem.heap a = none) (ch : UInt8) :
    Faithful (xstrcatcn x ch n alloc) mem x size content (List.replicate n ch) (some n) alloc :=
  faithful_append h hfree (.inl (returns_pure _ mem))

theorem faithful_xstrread (h : Held mem x content size rest)
    (hfree : ∀ a cells, alloc = some (a, cells) → mem.heap a = none) (result : Option (List UInt8)) :
    Faithful (xstrread x n result alloc) mem x size content (result.getD []) (some n) alloc := by
  apply faithful_append h hfree
  cases result with
  | none => exact .inr ⟨fails_fail () mem, rfl⟩
  | some bytes => exact .inl (returns_pure bytes mem)

/-- The terminator fits behind the content. -/
theorem xstr_returns (h : Held mem x content size rest) :
    ∃ mem' rest', Returns (xstr x) mem x mem' ∧ Elsewhere mem mem' x ∧ Held mem' x content size rest' := by
  have hroom := h.room
  have hfits := h.fits
  cases rest with
  | nil =>
    rw [List.length_nil] at hroom
    omega
  | cons cell rest =>
    have hstore := Heap.store_block _ [cell] [0] _ h.block rfl rfl
    have hput : (⟨Function.update mem.heap x (some (content ++ ([0] ++ rest))), mem.xstrs⟩ : XMemory) =
        mem.put x size content (0 :: rest) := by
      rw [XMemory.put, ← h.fields, Function.update_eq_self]
      rfl
    apply Exists.intro (mem.put x size content (0 :: rest))
    apply Exists.intro (0 :: rest)
    apply And.intro
    · rw [← hput]
      exact (fields_returns h.fields).bind ((store_returns hstore).bind (returns_pure _ _))
    · exact And.intro elsewhere_put (held_put hroom hfits h.least h.most)

theorem xstr_agrees (h : Held mem x content size rest) :
    Agrees (do let _ ← xstr x) mem x size content [] := by
  obtain ⟨mem', rest', hreturns, hmem, hheld⟩ := xstr_returns h
  apply Exists.intro (.ok ())
  apply Exists.intro mem'
  apply Exists.intro rest'
  apply And.intro (hreturns.bind (returns_pure () mem'))
  apply And.intro hmem
  dsimp only
  rwa [List.append_nil]

/-- The first bytes of a string are copied onto themselves. -/
theorem xstrcpysn_front (h : Held mem x content size rest) (hn : n ≤ content.length) (hpos : n ≠ 0) :
    ∃ mem' rest', Returns (xstrcpysn x (.block x 0) n alloc) mem () mem' ∧ Held mem' x (content.take n) size rest' := by
  have hroom := h.room
  have hfits := h.fits
  have hmost := h.most
  have hlength : (content.take n).length = n := List.length_take_of_le hn
  have hclear := held_clear h 0
  rw [List.take_zero, List.drop_zero] at hclear
  have hload : (mem.put x size [] (content ++ rest)).heap.load x 0 n = some (content.take n) := by
    apply Heap.load_block [] (content.take n) (content.drop n ++ rest) _ rfl hlength.symm
    rw [List.nil_append, ← List.append_assoc, List.take_append_drop]
    exact hclear.block
  have hsum : u64 ((([] : List UInt8).length : ℤ) + (n : ℤ)) = n :=
    u64_eq (by rw [List.length_nil, Nat.cast_zero, zero_add]) (by omega)
  have happend : Returns (append x n alloc (fetch (.block x 0) n)) (mem.put x size [] (content ++ rest)) ()
      ((mem.put x size [] (content ++ rest)).put x size ([] ++ content.take n)
        ((content ++ rest).drop (content.take n).length)) := by
    apply append_returns hclear _ (load_returns hload)
    · rw [List.length_nil]
      omega
    · rw [hsum]
      exact hn.trans hfits
  have hput : Held ((mem.put x size [] (content ++ rest)).put x size ([] ++ content.take n)
      ((content ++ rest).drop (content.take n).length)) x (content.take n) size
      ((content ++ rest).drop (content.take n).length) := by
    apply held_put _ _ h.least h.most
    · rw [List.nil_append, List.length_drop, hlength, List.length_append]
      omega
    · rw [List.nil_append, hlength]
      omega
  apply Exists.intro _
  apply Exists.intro _
  apply And.intro _ hput
  apply (clearxstrn_returns h 0).bind
  rw [xstrcatsn, if_neg hpos]
  exact happend

/-- A new string is empty, unless the size of its object wraps. -/
theorem createxstr_agrees {cells : ℕ → UInt8} (hsize : size < 2 ^ 64) (hmost : u64 (40 + (max 64 size : ℕ)) < 2 ^ 63)
    (hwraps : ¬u64 (40 + (max 64 size : ℕ)) < 40) :
    Agrees (createxstr size x cells) mem x (max 64 size) [] [] := by
  have htotal : u64 (40 + (max 64 size : ℕ)) = 40 + max 64 size := by
    unfold u64 at hmost hwraps ⊢
    omega
  have hleast : 64 ≤ max 64 size := Nat.le_max_left _ _
  have hbelow : 40 + max 64 size < 2 ^ 63 := by
    rw [← htotal]
    exact hmost
  rw [createxstr, if_neg hwraps, htotal]
  apply Exists.intro (.ok ())
  apply Exists.intro (mem.put x (max 64 size) [] ((List.range (40 + max 64 size - 32)).map cells))
  apply Exists.intro ((List.range (40 + max 64 size - 32)).map cells)
  apply And.intro
  · apply Returns.bind ((returns_modify _ mem).bind (returns_pure x _))
    exact returns_modify _ _
  · apply And.intro elsewhere_put
    apply held_put _ (Nat.zero_le _) hleast (by omega)
    rw [List.length_nil, List.length_map, List.length_range]
    omega

theorem createxstr_undefined {cells : ℕ → UInt8} (hwraps : u64 (40 + (max 64 size : ℕ)) < 40) :
    Undefined (createxstr size x cells) mem := by
  rw [createxstr, if_pos hwraps]
  exact undefined_access mem

theorem destroyxstr_returns (h : Held mem x content size rest) :
    Returns (destroyxstr x) mem ()
      ⟨Function.update mem.heap x none, Function.update mem.xstrs x none⟩ := by
  apply (fields_returns h.fields).bind
  rw [if_neg (fun hne => hne rfl)]
  have hfree : Returns (freemem x) mem () { mem with heap := Function.update mem.heap x none } :=
    (returns_read mem).bind ((returns_access (Heap.free_block h.block) mem).bind (returns_modify _ mem))
  exact hfree.bind (returns_modify _ _)

end Xstr

end Aug.Util
