import Aug.Net.FixHeader

/-!
# Splitting a stream of FIX messages

The messages are passed on as soon as they are complete, as long as a length is only looked for where
it is in the buffer, and what is left behind a message is the same as what is at the front: the tail
is copied from the front of the buffer, as the length was cleared before it is added to the pointer.
-/

namespace Aug.Net

open Aug.Lib Aug.Util Call

/-- The messages that are complete in the first bytes of the stream. -/
def delivered : List FixMessage → ℕ → List (List UInt8)
  | [], _ => []
  | message :: messages, n =>
    if message.bytes.length ≤ n then message.bytes :: delivered messages (n - message.bytes.length) else []

/-- The bytes of a stream of messages. -/
def joined (messages : List FixMessage) : List UInt8 := messages.flatMap FixMessage.bytes

namespace Fix

/-- The bytes in the buffer. -/
def buffered (fix : Fix) : List UInt8 :=
  ((fix.memory.xstrs fix.stream.xstr).bind fun str => fix.memory.heap.load str.ptr 0 str.len).getD []

/-- The buffer is split well by a read of `size` bytes. If the length of the message in front is not known,
the read is too small to look for it and no message is complete, or its field is in the buffer. What is
behind the message is equal to the front of the buffer, and is split well. -/
def Splits (size : ℕ) : Bool → List FixMessage → List UInt8 → Prop
  | _, [], _ => True
  | known, message :: messages, buf =>
    (known = true ∨ if size < headSize + 4 + 1 then buf.length < message.bytes.length
      else message.header.length ≤ buf.length ∧ message.Sized) ∧
    (buf.length ≤ message.bytes.length ∨
      buf.drop message.bytes.length = buf.take (buf.length - message.bytes.length) ∧
        Splits size false messages (buf.drop message.bytes.length))

end Fix

instance {message : FixMessage} : Decidable message.Sized :=
  inferInstanceAs (Decidable (_ ∧ _))

namespace Fix

/-- Whether the buffer is split well can be computed. -/
def decidableSplits (size : ℕ) : ∀ known messages buf, Decidable (Splits size known messages buf)
  | _, [], _ => .isTrue trivial
  | _, message :: messages, buf =>
    have := decidableSplits size false messages (buf.drop message.bytes.length)
    inferInstanceAs (Decidable (_ ∧ (_ ∨ _ ∧ Splits size false messages (buf.drop message.bytes.length))))

instance {size : ℕ} {known : Bool} {messages : List FixMessage} {buf : List UInt8} :
    Decidable (Splits size known messages buf) :=
  decidableSplits size known messages buf

/-- The length is not known, or it is that of the first message. -/
def Known (mlen : ℕ) : List FixMessage → Prop
  | [] => mlen = 0
  | message :: _ => mlen = 0 ∨ mlen = message.bytes.length

/-- The first message is not complete. -/
def Short (content : List UInt8) : List FixMessage → Prop
  | [] => True
  | message :: _ => content.length < message.bytes.length

/-- The first messages have been passed on, and the buffer has the next bytes of the stream. -/
structure Parses (messages done pending : List FixMessage) (fix : Fix) (content source : List UInt8) (size : ℕ) :
    Prop where
  buffers : Buffers fix content size
  messages : messages = done ++ pending
  passed : fix.messages = done.map FixMessage.bytes
  bytes : content ++ source = joined pending
  examined : ∀ look ∈ fix.examined, look.1 < look.2

/-- The stream waits for more of a message. -/
def Waits (messages : List FixMessage) (fix : Fix) (source : List UInt8) : Prop :=
  ∃ done pending content size, Parses messages done pending fix content source size ∧
    Known fix.stream.mlen pending ∧ Short content pending

variable {fix next : Fix} {messages done pending : List FixMessage} {message : FixMessage}
  {content source bytes more : List UInt8} {size n : ℕ}

theorem joined_cons (message : FixMessage) (messages : List FixMessage) :
    joined (message :: messages) = message.bytes ++ joined messages :=
  List.flatMap_cons

/-- The front of a stream that is in the buffer. -/
theorem front_split (h : content ++ source = bytes ++ more) (hlength : bytes.length ≤ content.length) :
    content.take bytes.length = bytes ∧ content.drop bytes.length ++ source = more := by
  have htake := congrArg (List.take bytes.length) h
  have hdrop := congrArg (List.drop bytes.length) h
  rw [List.take_append_of_le_length hlength, List.take_left] at htake
  rw [List.drop_append_of_le_length hlength, List.drop_left] at hdrop
  exact ⟨htake, hdrop⟩

/-- A message is taken from the front of the buffer, and the rest is at its front. -/
theorem Parses.pass {memory : XMemory} {rest : List UInt8}
    (h : Parses messages done (message :: pending) fix content source size)
    (hlength : message.bytes.length ≤ content.length)
    (hheld : Held memory fix.stream.xstr (content.drop message.bytes.length) size rest) :
    Parses messages (done ++ [message]) pending
      ⟨memory, ⟨fix.stream.xstr, 0⟩, fix.messages ++ [message.bytes], fix.examined⟩
      (content.drop message.bytes.length) source size where
  buffers := ⟨rest, hheld⟩
  messages := by rw [h.messages, List.append_assoc, List.singleton_append]
  passed := by rw [h.passed, List.map_append, List.map_singleton]
  bytes := by
    have hbytes := h.bytes
    rw [joined_cons] at hbytes
    exact (front_split hbytes hlength).2
  examined := h.examined

/-- The length is known and the loop is at the body. The hypothesis is the same for the messages behind. -/
theorem body_waits (hrest : ∀ {done : List FixMessage} {fix : Fix} {content : List UInt8},
      Parses messages done pending fix content source size → fix.stream.mlen = 0 → content ≠ [] →
      Splits n false pending content →
      ∃ next, Returns (head n fix.stream.xstr content.length) fix () next ∧ Waits messages next source)
    (h : Parses messages done (message :: pending) fix content source size)
    (hmlen : fix.stream.mlen = message.bytes.length)
    (hsplits : content.length ≤ message.bytes.length ∨
      content.drop message.bytes.length = content.take (content.length - message.bytes.length) ∧
        Splits n false pending (content.drop message.bytes.length)) :
    ∃ next, Returns (body n fix.stream.xstr content.length message.bytes.length) fix () next ∧
      Waits messages next source := by
  have hpos := message.bytes_pos
  rw [body]
  by_cases hshort : content.length < message.bytes.length
  · rw [dif_pos (.inr hshort)]
    exact ⟨fix, returns_pure () fix, done, message :: pending, content, size, h, .inr hmlen, hshort⟩
  · rw [dif_neg (by omega)]
    obtain ⟨memory, ⟨x, mlen⟩, passed, examined⟩ := fix
    obtain ⟨rest, hheld⟩ := h.buffers
    have hlength : message.bytes.length ≤ content.length := Nat.le_of_not_lt hshort
    have hmessage : content.take message.bytes.length = message.bytes := by
      have hbytes := h.bytes
      rw [joined_cons] at hbytes
      exact (front_split hbytes hlength).1
    have hload : memory.heap.load x 0 message.bytes.length = some message.bytes := by
      apply Heap.load_block [] message.bytes (content.drop message.bytes.length ++ rest) _ rfl rfl
      have hsplit := List.take_append_drop message.bytes.length content
      rw [hmessage] at hsplit
      rw [List.nil_append, ← List.append_assoc, hsplit]
      exact hheld.block
    have hlift : ∀ {call : XCall Unit} {memory' : XMemory}, Returns call memory () memory' →
        Returns (lift call) ⟨memory, ⟨x, 0⟩, passed ++ [message.bytes], examined⟩ ()
          ⟨memory', ⟨x, 0⟩, passed ++ [message.bytes], examined⟩ := fun hcall => lift_returns hcall
    by_cases hall : content.length - message.bytes.length = 0
    · have hclear := Xstr.held_clear hheld 0
      have hdrop : content.drop message.bytes.length = content.take 0 := by
        rw [List.take_zero, List.drop_eq_nil_of_le (by omega)]
      have hreturns := hlift (Xstr.clearxstrn_returns hheld 0)
      rw [← hdrop] at hclear hreturns
      apply Exists.intro _
      apply And.intro
      · apply (lift_keeps (Xstr.load_returns hload)).bind
        apply (returns_modify _ _).bind
        apply (returns_modify _ _).bind
        apply (returns_read _).bind
        rw [if_pos hall]
        exact hreturns
      refine ⟨done ++ [message], pending, content.drop message.bytes.length, size, h.pass hlength hclear, ?_, ?_⟩
      · cases pending with
        | nil => rfl
        | cons message pending => exact .inl rfl
      · cases pending with
        | nil => trivial
        | cons next pending =>
          rw [Short, List.length_drop, hall]
          exact next.bytes_pos
    · obtain ⟨hsame, hmore⟩ := hsplits.resolve_left (by omega)
      obtain ⟨memory', rest', hcopy, hcopied⟩ := Xstr.xstrcpysn_front hheld (Nat.sub_le _ _) hall
      obtain ⟨memory'', rest'', hxstr, -, hheld'⟩ := Xstr.xstr_returns hcopied
      rw [← hsame] at hheld'
      have hne : content.drop message.bytes.length ≠ [] := by
        intro hnil
        rw [List.drop_eq_nil_iff] at hnil
        omega
      obtain ⟨next, hhead, hwaits⟩ := hrest (h.pass hlength hheld') rfl hne hmore
      rw [List.length_drop] at hhead
      apply Exists.intro next
      apply And.intro _ hwaits
      apply (lift_keeps (Xstr.load_returns hload)).bind
      apply (returns_modify _ _).bind
      apply (returns_modify _ _).bind
      apply (returns_read _).bind
      rw [if_neg hall]
      apply (hlift hcopy).ignore.bind
      exact (lift_returns hxstr).bind hhead

/-- The header of the first message is at the front of the buffer. -/
theorem header_split (hbytes : content ++ source = joined (message :: pending))
    (hlength : message.header.length ≤ content.length) : ∃ after, content = message.header ++ after := by
  rw [joined_cons, FixMessage.bytes, List.append_assoc] at hbytes
  obtain ⟨hheader, -⟩ := front_split hbytes hlength
  apply Exists.intro (content.drop message.header.length)
  rw [← hheader, List.length_take_of_le hlength, List.take_append_drop]

/-- The loop is at the head of a message. -/
theorem head_waits (n : ℕ) (h : Parses messages done pending fix content source size) (hmlen : fix.stream.mlen = 0)
    (hne : content ≠ []) (hsplits : Splits n false pending content) :
    ∃ next, Returns (head n fix.stream.xstr content.length) fix () next ∧ Waits messages next source := by
  induction pending generalizing done fix content with
  | nil =>
    have hbytes := (List.append_eq_nil_iff.mp h.bytes).1
    exact absurd hbytes hne
  | cons message pending ih =>
    obtain ⟨hfirst, hrest⟩ := hsplits
    have hfirst := hfirst.resolve_left Bool.false_ne_true
    by_cases hn : n < headSize + 4 + 1
    · rw [if_pos hn] at hfirst
      have hgetsize : Returns (getsize fix.stream.xstr n) fix 0 fix := by
        rw [getsize, if_pos hn]
        exact returns_pure 0 fix
      apply Exists.intro fix
      apply And.intro
      · rw [head]
        exact hgetsize.bind (returns_pure () fix)
      · exact ⟨done, message :: pending, content, size, h, .inl hmlen, hfirst⟩
    · rw [if_neg hn] at hfirst
      obtain ⟨after, hafter⟩ := header_split h.bytes hfirst.1
      have hbuffers := h.buffers
      rw [hafter] at hbuffers
      obtain ⟨looked, hgetsize, hlooked⟩ := getsize_returns hn hfirst.2 hbuffers
      have hparses : Parses messages done (message :: pending)
          ⟨looked.memory, ⟨looked.stream.xstr, message.bytes.length⟩, looked.messages, looked.examined⟩ content source
          size := by
        have hheld : Buffers looked content size := hlooked.buffers h.buffers
        exact ⟨hheld, h.messages, hlooked.messages.trans h.passed, h.bytes, hlooked.examined h.examined⟩
      obtain ⟨next, hbody, hwaits⟩ := body_waits ih hparses rfl hrest
      apply Exists.intro next
      apply And.intro _ hwaits
      rw [head]
      apply hgetsize.bind
      rw [if_neg (Nat.ne_of_gt message.bytes_pos), ← hlooked.stream]
      exact (returns_modify _ looked).bind hbody

/-- A read that does not exceed the string. -/
theorem xstrread_held {mem : XMemory} {x : ℕ} {rest : List UInt8} {result : Option (List UInt8)} {alloc : Alloc}
    (h : Held mem x content size rest) (hgood : ¬Exceeds size content.length n (result.getD []).length alloc)
    (hspace : u64 (content.length + n) ≤ size - content.length ∨ alloc.isSome = true ∨ result = none) :
    (∃ memory rest', Returns (Xstr.xstrread x n result alloc) mem () memory ∧
      Held memory x (content ++ result.getD []) size rest') ∨
      result = none ∧ Fails (Xstr.xstrread x n result alloc) mem () mem := by
  have hroom := h.room
  rw [Exceeds] at hgood
  by_cases hn : u64 (content.length + n) ≤ size - content.length
  · rw [if_pos hn] at hgood
    cases result with
    | none => exact .inr ⟨rfl, Xstr.append_fails h hn (fails_fail () mem)⟩
    | some bytes =>
      rw [Option.getD_some] at hgood ⊢
      apply Or.inl
      apply Exists.intro _
      apply Exists.intro _
      apply And.intro (Xstr.append_returns h hn (returns_pure bytes mem) (by omega))
      apply held_put _ _ h.least h.most
      · simp only [List.length_append, List.length_drop]
        omega
      · rw [List.length_append]
        omega
  · rw [if_neg hn, not_not] at hgood
    rw [hgood] at hspace ⊢
    have hnone : result = none := (hspace.resolve_left hn).resolve_left Bool.false_ne_true
    have hreserve := Xstr.reserve_fails h hn
    exact .inr ⟨hnone, (Xstr.fields_returns h.fields).bind_fails hreserve.bind⟩

theorem lift_fails {α : Type} {call : XCall α} (h : Fails call fix.memory () fix.memory) :
    Fails (lift call) fix .read fix :=
  h.mapError.zoom

/-- A read that gives nothing, or bytes that are split well. -/
theorem readfix_waits {result : Option (List UInt8)} {alloc : Alloc} (hbuffers : Buffers fix content size)
    (h : Parses messages done pending fix content (result.getD [] ++ source) size)
    (hknown : Known fix.stream.mlen pending) (hshort : Short content pending)
    (hgood : ¬Exceeds size content.length n (result.getD []).length alloc)
    (hspace : u64 (content.length + n) ≤ size - content.length ∨ alloc.isSome = true ∨ result = none)
    (hsplits : result.getD [] ≠ [] → Splits n (decide (fix.stream.mlen ≠ 0)) pending (content ++ result.getD [])) :
    ∃ next, (readfix n result alloc fix).map Prod.snd = some next ∧ Waits messages next source := by
  obtain ⟨rest, hheld⟩ := hbuffers
  cases xstrread_held hheld hgood hspace with
  | inr hfails =>
    obtain ⟨hnone, hfails⟩ := hfails
    have hread : Fails (readfix n result alloc) fix .read fix := (returns_read fix).bind_fails (lift_fails hfails).bind
    rw [hnone] at h
    apply Exists.intro fix
    rw [hread]
    exact ⟨rfl, done, pending, content, size, h, hknown, hshort⟩
  | inl hreturns =>
    obtain ⟨memory, rest', hread, hheld'⟩ := hreturns
    by_cases hempty : result.getD [] = []
    · rw [hempty, List.append_nil] at hheld'
      rw [hempty] at h
      have hfails : Fails (readfix n result alloc) fix .eof { fix with memory } := by
        apply (returns_read fix).bind_fails
        apply (lift_returns hread).bind_fails
        rw [hempty]
        exact fails_fail _ _
      apply Exists.intro { fix with memory }
      rw [hfails]
      exact ⟨rfl, done, pending, content, size, ⟨⟨rest', hheld'⟩, h.messages, h.passed, h.bytes, h.examined⟩, hknown,
        hshort⟩
    · obtain ⟨terminated, rest'', hxstr, -, hheld''⟩ := Xstr.xstr_returns hheld'
      have hparses : Parses messages done pending { fix with memory := terminated } (content ++ result.getD []) source
          size := by
        have hbytes := h.bytes
        rw [← List.append_assoc] at hbytes
        exact ⟨⟨rest'', hheld''⟩, h.messages, h.passed, hbytes, h.examined⟩
      have hne : content ++ result.getD [] ≠ [] := fun hnil => hempty (List.append_eq_nil_iff.mp hnil).2
      have hlength : ¬(result.getD []).length = 0 := fun hzero => hempty (List.length_eq_zero_iff.mp hzero)
      have hsplits := hsplits hempty
      have hloop : ∃ next, Returns
          (if fix.stream.mlen ≠ 0 then body n fix.stream.xstr (content ++ result.getD []).length fix.stream.mlen
          else head n fix.stream.xstr (content ++ result.getD []).length) { fix with memory := terminated } () next ∧
          Waits messages next source := by
        by_cases hmlen : fix.stream.mlen ≠ 0
        · rw [if_pos hmlen]
          cases pending with
          | nil => exact absurd hknown hmlen
          | cons message pending =>
            have hlen := hknown.resolve_left hmlen
            rw [hlen]
            exact body_waits (head_waits n) hparses hlen hsplits.2
        · rw [if_neg hmlen]
          rw [decide_eq_false hmlen] at hsplits
          rw [ne_eq, not_not] at hmlen
          exact head_waits n hparses hmlen hne hsplits
      obtain ⟨next, hnext, hwaits⟩ := hloop
      apply Exists.intro next
      apply And.intro _ hwaits
      have hreturns : Returns (readfix n result alloc) fix (result.getD []).length next := by
        apply (returns_read fix).bind
        apply (lift_returns hread).bind
        rw [if_neg hlength]
        apply (lift_keeps (Xstr.fields_returns hheld'.fields)).bind
        apply (lift_returns hxstr).bind
        by_cases hmlen : fix.stream.mlen ≠ 0
        · rw [if_pos hmlen] at hnext ⊢
          exact hnext.bind (returns_pure _ next)
        · rw [if_neg hmlen] at hnext ⊢
          exact hnext.bind (returns_pure _ next)
      rw [hreturns]
      rfl

theorem delivered_append (h : Short content pending) :
    delivered (done ++ pending) ((joined done).length + content.length) = done.map FixMessage.bytes := by
  induction done with
  | nil =>
    rw [List.nil_append, joined, List.flatMap_nil, List.length_nil, Nat.zero_add, List.map_nil]
    cases pending with
    | nil => rfl
    | cons message pending => rw [delivered, if_neg (Nat.not_le.mpr h)]
  | cons message done ih =>
    have hlength : (joined (message :: done)).length + content.length - message.bytes.length =
        (joined done).length + content.length := by
      rw [joined_cons, List.length_append]
      omega
    rw [List.cons_append, delivered, hlength, ih, List.map_cons, if_pos]
    rw [joined_cons, List.length_append]
    omega

theorem buffered_eq (h : Buffers fix content size) : fix.buffered = content := by
  obtain ⟨rest, hheld⟩ := h
  have hload : fix.memory.heap.load fix.stream.xstr 0 content.length = some content :=
    Heap.load_block [] content rest hheld.block rfl rfl
  rw [buffered, hheld.fields, Option.bind_some, hload, Option.getD_some]

end Fix

namespace FixReader

variable {reader next first last : FixReader} {messages : List FixMessage} {read : FixRead}

/-- The messages have been passed on that are complete in what has been read, and no byte outside of the
buffered ones was examined. -/
def Correct (messages : List FixMessage) (reader : FixReader) : Prop :=
  ∃ fix, reader.fix = some fix ∧
    fix.messages = delivered messages ((joined messages).length - reader.source.length) ∧
      ∀ look ∈ fix.examined, look.1 < look.2

/-- A read does not grow the string, and leaves a buffer that is split well. -/
def Clean (messages : List FixMessage) (reader : FixReader) (read : FixRead) : Prop :=
  ∃ fix ∈ reader.fix, ∃ str ∈ fix.memory.xstrs fix.stream.xstr,
    ¬Exceeds str.size str.len read.size ((reader.taken read).getD []).length read.alloc ∧
    ((reader.taken read).getD [] ≠ [] →
      Fix.Splits read.size (decide (fix.stream.mlen ≠ 0)) (messages.drop fix.messages.length)
        (fix.buffered ++ (reader.taken read).getD []))

instance {messages : List FixMessage} {reader : FixReader} {read : FixRead} :
    Decidable (reader.Clean messages read) :=
  inferInstanceAs (Decidable (∃ fix ∈ reader.fix, ∃ str ∈ fix.memory.xstrs fix.stream.xstr, _ ∧ (_ → _)))

/-- The stream waits for the bytes that are left. -/
def Waits (messages : List FixMessage) (reader : FixReader) : Prop :=
  ∃ fix, reader.fix = some fix ∧ fix.Waits messages reader.source

theorem Waits.correct (h : reader.Waits messages) : reader.Correct messages := by
  obtain ⟨fix, hfix, done, pending, content, size, hparses, -, hshort⟩ := h
  apply Exists.intro fix
  apply And.intro hfix
  apply And.intro _ hparses.examined
  have hjoined : joined messages = joined done ++ (content ++ reader.source) := by
    rw [hparses.messages, hparses.bytes, joined, joined, joined, List.flatMap_append]
  have hlength : (joined messages).length - reader.source.length = (joined done).length + content.length := by
    rw [hjoined, List.length_append, List.length_append]
    omega
  rw [hparses.passed, hlength, hparses.messages, Fix.delivered_append hshort]

theorem step_waits (h : reader.Waits messages) (hstep : reader.step read = some next) (hclean : reader.Clean messages read) :
    next.Waits messages := by
  obtain ⟨fix, hfix, done, pending, content, size, hparses, hknown, hshort⟩ := h
  obtain ⟨fix', hfix', str, hstr, hgood, hsplits⟩ := hclean
  rw [hfix, Option.mem_some_iff] at hfix'
  rw [← hfix'] at hstr hsplits
  obtain ⟨rest, hheld⟩ := hparses.buffers
  rw [hheld.fields, Option.mem_some_iff] at hstr
  rw [← hstr] at hgood
  rw [step, hfix, Option.bind_some, Option.ite_none_right_eq_some, Option.some.injEq] at hstep
  obtain ⟨hallowed, hnext⟩ := hstep
  rw [allowed, Bool.and_eq_true, Bool.and_eq_true] at hallowed
  obtain ⟨⟨-, -⟩, hspace⟩ := hallowed
  have hspace : u64 (content.length + read.size) ≤ size - content.length ∨ read.alloc.isSome = true ∨
      reader.taken read = none := by
    rw [Bool.or_eq_true, Bool.or_eq_true, spacious, hheld.fields, Option.any_some, decide_eq_true_eq,
      Xstr.available hheld] at hspace
    rw [taken, Option.map_eq_none_iff, ← Option.isNone_iff_eq_none]
    exact or_assoc.mp hspace
  have hsource : (reader.taken read).getD [] ++ reader.source.drop (read.taken.getD 0) = reader.source := by
    rw [taken]
    cases read.taken with
    | none => rfl
    | some n => exact List.take_append_drop n reader.source
  have hpending : messages.drop fix.messages.length = pending := by
    rw [hparses.messages, hparses.passed, List.length_map, List.drop_left]
  rw [hpending, Fix.buffered_eq hparses.buffers] at hsplits
  rw [← hsource] at hparses
  obtain ⟨last, hlast, hwaits⟩ := Fix.readfix_waits hparses.buffers hparses hknown hshort hgood hspace hsplits
  rw [← hnext]
  exact ⟨last, hlast, hwaits⟩

/-- A new stream waits for the first message. -/
theorem create_waits {size x : ℕ} {cells : ℕ → UInt8}
    (h : create size x cells (joined messages) = some reader) : reader.Waits messages := by
  let size' := if size = 0 then Fix.bufsize else size
  have hcall : Fix.createfixstream size x cells =
      (Xstr.createxstr size' x cells >>= fun _ => pure { xstr := x, mlen := 0 }) := rfl
  rw [create] at h
  by_cases hwraps : u64 (40 + (max 64 size' : ℕ)) < 40
  · have hundefined : Undefined (Fix.createfixstream size x cells) ⟨fun _ => none, fun _ => none⟩ :=
      (Xstr.createxstr_undefined hwraps).bind
    rw [hundefined] at h
    cases h
  · by_cases hsize : size < 2 ^ 64 ∧ u64 (40 + (max 64 size : ℕ)) < 2 ^ 63
    · have hless : size' < 2 ^ 64 ∧ u64 (40 + (max 64 size' : ℕ)) < 2 ^ 63 := by
        by_cases hzero : size = 0
        · simp only [size', if_pos hzero]
          decide
        · simp only [size', if_neg hzero]
          exact hsize
      have hagrees : Agrees (Xstr.createxstr size' x cells) ⟨fun _ => none, fun _ => none⟩ x (max 64 size') [] [] :=
        Xstr.createxstr_agrees hless.1 hless.2 hwraps
      obtain ⟨result, memory, rest, hresult, -, hheld⟩ := hagrees
      cases result with
      | error e =>
        have hfails : Fails (Fix.createfixstream size x cells) ⟨fun _ => none, fun _ => none⟩ e memory :=
          Fails.bind hresult
        rw [hfails] at h
        cases h
      | ok value =>
        have hreturns : Returns (Fix.createfixstream size x cells) ⟨fun _ => none, fun _ => none⟩ ⟨x, 0⟩ memory :=
          Returns.bind hresult (returns_pure _ memory)
        rw [hreturns] at h
        dsimp only at h
        rw [if_pos hsize, Option.some.injEq] at h
        rw [← h]
        refine ⟨_, rfl, [], messages, [], max 64 size', ⟨⟨rest, hheld⟩, rfl, rfl, rfl, List.forall_mem_nil _⟩, ?_, ?_⟩
        · cases messages with
          | nil => rfl
          | cons message messages => exact .inl rfl
        · cases messages with
          | nil => trivial
          | cons message messages => exact message.bytes_pos
    · simp only [if_neg hsize] at h
      split at h
      · cases h
      · cases h

/-- In a run of clean reads every message is passed on once, in order and as soon as it is complete, and no
byte outside of the buffered ones is examined. -/
theorem split_of_clean {size x : ℕ} {cells : ℕ → UInt8} (reads : List FixRead)
    (h : create size x cells (joined messages) = some first)
    (hclean : Avoids step (fun reader read => ¬reader.Clean messages read) first reads) :
    Always step (Correct messages) first reads := by
  have himp : ∀ reader : FixReader, reader.Waits messages → reader.Correct messages := fun _ hwaits => hwaits.correct
  have hgood : ∀ (reader : FixReader) (read : FixRead) (next : FixReader), reader.Waits messages →
      reader.step read = some next → ¬¬reader.Clean messages read → next.Waits messages :=
    fun _ _ _ hwaits hnext hread => step_waits hwaits hnext (not_not.mp hread)
  exact always_of_avoids himp hgood (create_waits h) hclean

/-- An order, and a quote with the same header. -/
def order : FixMessage where
  x := 52
  y := 52
  digits := [53]
  body := [51, 53, 61, 68, 1]
  c0 := 49
  c1 := 56
  c2 := 49
  nonempty := by simp
  decimal := by simp [isdigit]
  length := by decide

def quote : FixMessage where
  x := 52
  y := 52
  digits := [53]
  body := [51, 53, 61, 83, 1]
  c0 := 49
  c1 := 57
  c2 := 54
  nonempty := by simp
  decimal := by simp [isdigit]
  length := by decide

/-- Three reads of an order and a quote: the header, then the rest of the order with a part of the next
header, then the rest of the quote. -/
theorem split_of_clean_two : ∃ first, create 128 0 (fun _ => 0) (joined [order, quote]) = some first ∧
    Avoids step (fun reader read => ¬reader.Clean [order, quote] read) first
      [⟨64, some 20, none⟩, ⟨16, some 16, none⟩, ⟨64, some 16, none⟩] ∧
    Always step (Correct [order, quote]) first [⟨64, some 20, none⟩, ⟨16, some 16, none⟩, ⟨64, some 16, none⟩] := by
  have hclean : ∃ first ∈ create 128 0 (fun _ => 0) (joined [order, quote]),
      Avoids step (fun reader read => ¬reader.Clean [order, quote] read) first
        [⟨64, some 20, none⟩, ⟨16, some 16, none⟩, ⟨64, some 16, none⟩] := by decide +kernel
  obtain ⟨first, hcreate, hclean⟩ := hclean
  exact ⟨first, hcreate, hclean, split_of_clean _ hcreate hclean⟩

/-- An order and a quote in one read: the order is passed on twice. -/
theorem order_repeated : ¬∀ (messages : List FixMessage) (size x : ℕ) (cells : ℕ → UInt8) (reads : List FixRead)
    (first last : FixReader), create size x cells (joined messages) = some first → run step first reads = some last →
      last.Correct messages := by
  intro h
  have hrun : ((create 128 0 (fun _ => 0) (joined [order, quote])).bind fun first =>
      (run step first [⟨64, some 52, none⟩]).map fun last => last.fix.map Fix.messages) =
        some (some [order.bytes, order.bytes]) := by decide +kernel
  obtain ⟨first, hcreate, hfirst⟩ := Option.bind_eq_some_iff.mp hrun
  obtain ⟨last, hlast, hmessages⟩ := Option.map_eq_some_iff.mp hfirst
  obtain ⟨fix, hfix, hpassed, -⟩ := h _ _ _ _ _ first last hcreate hlast
  rw [hfix, Option.map_some, Option.some.injEq] at hmessages
  have hsecond : (delivered [order, quote] ((joined [order, quote]).length - last.source.length))[1]? =
      some order.bytes := by
    rw [← hpassed, hmessages]
    rfl
  simp only [delivered] at hsecond
  split at hsecond
  · split at hsecond
    · revert hsecond
      decide +kernel
    · cases hsecond
  · cases hsecond

end FixReader

end Aug.Net
