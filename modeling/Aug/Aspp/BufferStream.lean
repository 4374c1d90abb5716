import Aug.Aspp.Buffer
import Aug.Net.WriterDrains

/-!
# The output buffer as a byte stream

The buffer of `buffer.cpp` with the references of its internal blob, over any writer that sends the current
contents of the queued blobs in order, and that releases a blob exactly when all of it has been sent. The bytes
that were appended, those that were sent, and those that the internal blob has lost when it was reset are recorded.
-/

namespace Aug.Aspp

open Aug.Lib Aug.Net

namespace Buffer

/-- The queued bytes, each with whether it is one of the internal blob. -/
def tagged (buffer : Buffer) (list : List Queued) : List (Bool × UInt8) :=
  list.flatMap fun entry => ((buffer.data entry).getD []).map (Prod.mk (decide (entry = .inner)))

/-- The bytes that have not been sent. -/
def left (buffer : Buffer) : List (Bool × UInt8) := (buffer.tagged buffer.list).drop buffer.part

/-- The bytes that have not been sent, without their origin. -/
def unsent (buffer : Buffer) : List UInt8 := buffer.left.map Prod.snd

/-- The offset into what remains when the first `count` entries are released after `num` more bytes. -/
def rest (buffer : Buffer) (num count : ℕ) : ℕ := buffer.part + num - (buffer.tagged (buffer.list.take count)).length

/-- What the writer has to do: the `num` bytes that it sends are queued, the `count` entries that it releases have been
sent, and the first one that it keeps has not, unless it has no bytes. -/
structure Sends (buffer : Buffer) (num count : ℕ) : Prop where
  queued : num ≤ buffer.left.length
  entries : count ≤ buffer.list.length
  released : (buffer.tagged (buffer.list.take count)).length ≤ buffer.part + num
  kept : ∀ entry ∈ buffer.list[count]?, buffer.rest num count < ((buffer.data entry).getD []).length ∨
    buffer.rest num count = 0
  emptied : buffer.list[count]? = none → buffer.rest num count = 0

instance (buffer : Buffer) (num count : ℕ) : Decidable (buffer.Sends num count) :=
  decidable_of_iff (num ≤ buffer.left.length ∧ count ≤ buffer.list.length ∧
      (buffer.tagged (buffer.list.take count)).length ≤ buffer.part + num ∧
      (∀ entry ∈ buffer.list[count]?, buffer.rest num count < ((buffer.data entry).getD []).length ∨
        buffer.rest num count = 0) ∧ (buffer.list[count]? = none → buffer.rest num count = 0))
    ⟨fun h => ⟨h.1, h.2.1, h.2.2.1, h.2.2.2.1, h.2.2.2.2⟩,
      fun h => ⟨h.queued, h.entries, h.released, h.kept, h.emptied⟩⟩

end Buffer

/-- A buffer, the references of its internal blob, the bytes of all appends, the bytes that were sent, and the bytes
that the internal blob has lost when it was reset. -/
structure Streaming where
  buffer : Buffer
  refs : ℤ
  appended : List UInt8
  sent : List UInt8
  lost : List UInt8
  deriving DecidableEq

/-- An append, or a write: the writer sends `num` bytes and releases `count` blobs, or it fails. -/
inductive BufferAction where
  | append (bytes : List UInt8) (memory : Memory)
  | appendblob (bytes : List UInt8) (memory : Memory)
  | writesome (num count : ℕ)
  | fail

namespace Streaming

/-- A new buffer. The buffer has the reference to its internal blob. -/
def create : Streaming := ⟨.create, 1, [], [], []⟩

/-- `append` for bytes. The writer retains the internal blob that is appended to it. -/
def append (state : Streaming) (bytes : List UInt8) (memory : Memory) : Streaming :=
  let (except, buffer) := state.buffer.append bytes memory
  { state with
    buffer
    refs := if state.buffer.reuse ∧ state.buffer.empty ∧ memory ≠ .entry then state.refs + 1 else state.refs
    appended := if except = none then state.appended ++ bytes else state.appended }

/-- `append` for a blob. -/
def appendblob (state : Streaming) (bytes : List UInt8) (memory : Memory) : Streaming :=
  let (except, buffer) := state.buffer.appendblob bytes memory
  { state with
    buffer
    appended := if except = none then state.appended ++ bytes else state.appended }

/-- The writer releases an entry, while the given bytes have not been sent. This is `release_` for the internal blob,
which is reset when only one reference remains. -/
def release (left : List (Bool × UInt8)) (state : Streaming) : Queued → Streaming
  | .outer _ => state
  | .inner =>
    if state.refs - 1 = 1 then
      { state with
        buffer := { state.buffer with blob := [] }
        refs := state.refs - 1
        lost := state.lost ++ (left.filter Prod.fst).map Prod.snd }
    else { state with refs := state.refs - 1 }

/-- `writesome_BI`. -/
def writesome (state : Streaming) (num count : ℕ) : Streaming :=
  let buffer := { state.buffer with list := state.buffer.list.drop count, part := state.buffer.rest num count }
  let state' := { state with buffer, sent := state.sent ++ state.buffer.unsent.take num }
  let state' := (state.buffer.list.take count).foldl (release (state.buffer.left.drop num)) state'
  { state' with buffer := state'.buffer.settle num }

/-- One call. The writer does what it has to. A call that fails throws, and changes nothing. -/
def step (state : Streaming) : BufferAction → Option Streaming
  | .append bytes memory => some (state.append bytes memory)
  | .appendblob bytes memory => some (state.appendblob bytes memory)
  | .writesome num count => if state.buffer.Sends num count then some (state.writesome num count) else none
  | .fail => some state

/-- What has been sent and what has not are what was appended, and the internal blob has lost nothing. -/
def Lossless (state : Streaming) : Prop :=
  state.appended = state.sent ++ state.buffer.unsent ∧ state.lost = []

/-- `size` is the number of bytes that have not been sent. -/
def Sized (state : Streaming) : Prop := state.buffer.size.toNat = state.buffer.unsent.length

/-- The internal blob is referenced by the buffer and by the queue, in which it can only be the first entry. It has no
bytes unless it is queued, and as long as it is used again nothing else is queued. -/
structure Sound (state : Streaming) : Prop where
  refs : state.refs = 1 + state.buffer.list.count .inner
  first : .inner ∉ state.buffer.list.tail
  idle : .inner ∉ state.buffer.list → state.buffer.blob = []
  alone : state.buffer.reuse = true → ∀ entry ∈ state.buffer.list, entry = .inner
  part : state.buffer.part ≤ (state.buffer.tagged state.buffer.list).length

/-- The call appends `more`. -/
structure Grows (state next : Streaming) (more : List UInt8) : Prop where
  unsent : next.buffer.unsent = state.buffer.unsent ++ more
  appended : next.appended = state.appended ++ more
  sent : next.sent = state.sent
  lost : next.lost = state.lost
  size : next.buffer.size = state.buffer.size + .ofNat more.length

/-- The call sends `num` bytes. -/
structure Shrinks (state next : Streaming) (num : ℕ) : Prop where
  queued : num ≤ state.buffer.unsent.length
  unsent : next.buffer.unsent = state.buffer.unsent.drop num
  appended : next.appended = state.appended
  sent : next.sent = state.sent ++ state.buffer.unsent.take num
  lost : next.lost = state.lost
  size : next.buffer.size = state.buffer.size - min state.buffer.size (.ofNat num)

end Streaming

namespace Buffer

variable {a b buffer : Buffer} {list : List Queued} {num count : ℕ}

theorem tagged_append (list rest : List Queued) : buffer.tagged (list ++ rest) = buffer.tagged list ++ buffer.tagged rest :=
  List.flatMap_append

/-- Buffers with the same internal blob have the same bytes. -/
theorem tagged_same (h : a.blob = b.blob) : a.tagged list = b.tagged list := by
  apply List.flatMap_congr
  intro entry _
  cases entry with
  | inner => rw [data, data, h]
  | outer blob => rfl

/-- The internal blob matters only where it is queued. -/
theorem tagged_outer (h : .inner ∉ list) : a.tagged list = b.tagged list := by
  apply List.flatMap_congr
  intro entry hentry
  cases entry with
  | inner => exact absurd hentry h
  | outer blob => rfl

/-- No byte is of the internal blob where it is not queued. -/
theorem filter_outer (h : .inner ∉ list) (part : ℕ) : ((buffer.tagged list).drop part).filter Prod.fst = [] := by
  apply List.filter_eq_nil_iff.mpr
  intro tag htag
  obtain ⟨entry, hentry, hmem⟩ := List.mem_flatMap.mp (List.mem_of_mem_drop htag)
  obtain ⟨byte, -, rfl⟩ := List.mem_map.mp hmem
  cases entry with
  | inner => exact absurd hentry h
  | outer blob => simp

/-- One blob has its own bytes. -/
theorem tagged_one (bytes : List UInt8) : (buffer.tagged [.outer (some bytes)]).map Prod.snd = bytes := by
  simp [tagged, data]

/-- The internal blob alone. -/
theorem unsent_inner (h : buffer.list = [.inner]) : buffer.unsent = buffer.blob.drop buffer.part := by
  simp [unsent, left, tagged, data, h, List.map_drop]

/-- An empty queue. -/
theorem unsent_empty (h : buffer.list = []) : buffer.unsent = [] := by
  simp [unsent, left, tagged, h]

/-- What a write leaves are the bytes of the entries that it leaves. -/
theorem Sends.left (h : buffer.Sends num count) :
    buffer.left.drop num = (buffer.tagged (buffer.list.drop count)).drop (buffer.rest num count) := by
  have hsplit : buffer.tagged buffer.list =
      buffer.tagged (buffer.list.take count) ++ buffer.tagged (buffer.list.drop count) := by
    rw [← tagged_append, List.take_append_drop]
  rw [Buffer.left, List.drop_drop, hsplit, List.drop_append, List.drop_eq_nil_of_le h.released]
  rfl

/-- The offset stays within the first entry that is kept. -/
theorem Sends.rest_le (h : buffer.Sends num count) :
    buffer.rest num count ≤ (buffer.tagged (buffer.list.drop count)).length := by
  cases hentry : buffer.list[count]? with
  | none => exact (h.emptied hentry).symm ▸ Nat.zero_le _
  | some entry =>
    cases h.kept entry hentry with
    | inr hzero => exact hzero.symm ▸ Nat.zero_le _
    | inl hless =>
      obtain ⟨hlt, hget⟩ := List.getElem?_eq_some_iff.mp hentry
      rw [List.drop_eq_getElem_cons hlt, hget]
      have hlength : (buffer.tagged (entry :: buffer.list.drop (count + 1))).length =
          ((buffer.data entry).getD []).length + (buffer.tagged (buffer.list.drop (count + 1))).length := by
        rw [tagged, List.flatMap_cons, List.length_append, List.length_map]
        rfl
      omega

end Buffer

namespace Streaming

open Buffer

variable {state next : Streaming}

theorem sound_create : Sound create := by
  constructor
  · rfl
  · exact List.not_mem_nil
  · exact fun _ => rfl
  · exact fun _ _ hentry => absurd hentry List.not_mem_nil
  · exact Nat.le_refl 0

/-- While the internal blob is used again, it is alone in the queue, or nothing is. -/
theorem Sound.reusing (h : Sound state) (hreuse : state.buffer.reuse = true) :
    state.buffer.list = [] ∨ state.buffer.list = [.inner] := by
  have halone := h.alone hreuse
  have hfirst := h.first
  cases hlist : state.buffer.list with
  | nil => exact Or.inl rfl
  | cons entry rest =>
    rw [hlist] at halone hfirst
    cases rest with
    | nil => exact Or.inr (congrArg (fun e => [e]) (halone entry List.mem_cons_self))
    | cons other rest =>
      have hother := halone other (List.mem_cons_of_mem _ List.mem_cons_self)
      exact absurd (hother ▸ List.mem_cons_self) hfirst

/-- A call that changes nothing. -/
theorem Sound.unchanged (h : Sound state) : Sound state ∧ ∃ more, Grows state state more := by
  apply And.intro h
  apply Exists.intro []
  constructor
  · exact (List.append_nil _).symm
  · exact (List.append_nil _).symm
  · rfl
  · rfl
  · exact (UInt64.add_zero _).symm

/-- Another blob is queued. -/
theorem Sound.queued (h : Sound state) (bytes : List UInt8) (hreuse : next.buffer.reuse = false)
    (hlist : next.buffer.list = state.buffer.list ++ [.outer (some bytes)]) (hblob : next.buffer.blob = state.buffer.blob)
    (hpart : next.buffer.part = state.buffer.part) (hrefs : next.refs = state.refs)
    (happended : next.appended = state.appended ++ bytes) (hsent : next.sent = state.sent) (hlost : next.lost = state.lost)
    (hsize : next.buffer.size = state.buffer.size + .ofNat bytes.length) :
    Sound next ∧ ∃ more, Grows state next more := by
  have htagged : next.buffer.tagged next.buffer.list =
      state.buffer.tagged state.buffer.list ++ state.buffer.tagged [.outer (some bytes)] := by
    rw [hlist, tagged_same hblob, tagged_append]
  have hunsent : next.buffer.unsent = state.buffer.unsent ++ bytes := by
    rw [unsent, left, htagged, hpart, List.drop_append_of_le_length h.part, List.map_append, tagged_one]
    rfl
  apply And.intro _ ⟨bytes, hunsent, happended, hsent, hlost, hsize⟩
  constructor
  · rw [hrefs, h.refs, hlist, List.count_append]
    rfl
  · rw [hlist]
    intro hmem
    cases hqueue : state.buffer.list with
    | nil =>
      rw [hqueue] at hmem
      exact List.not_mem_nil hmem
    | cons entry rest =>
      have hfirst := h.first
      rw [hqueue, List.cons_append, List.tail_cons] at hmem
      rw [hqueue] at hfirst
      cases List.mem_append.mp hmem with
      | inl hrest => exact hfirst hrest
      | inr hlast => exact nomatch List.mem_singleton.mp hlast
  · intro hmem
    rw [hblob]
    apply h.idle
    intro hinner
    exact hmem (hlist ▸ List.mem_append_left _ hinner)
  · intro htrue
    rw [hreuse] at htrue
    exact nomatch htrue
  · rw [hpart, htagged, List.length_append]
    exact Nat.le_add_right_of_le h.part

/-- The internal blob is queued, and takes more bytes. -/
theorem Sound.filled (h : Sound state) (bytes : List UInt8) (hreuse : state.buffer.reuse = true)
    (hlist : next.buffer.list = [.inner]) (hblob : next.buffer.blob = state.buffer.blob ++ bytes)
    (hpart : next.buffer.part = state.buffer.part) (hrefs : next.refs = 2)
    (happended : next.appended = state.appended ++ bytes) (hsent : next.sent = state.sent) (hlost : next.lost = state.lost)
    (hsize : next.buffer.size = state.buffer.size + .ofNat bytes.length) :
    Sound next ∧ ∃ more, Grows state next more := by
  have hbefore : state.buffer.part ≤ state.buffer.blob.length ∧
      state.buffer.unsent = state.buffer.blob.drop state.buffer.part := by
    have hle := h.part
    cases h.reusing hreuse with
    | inl hempty =>
      have hzero : state.buffer.blob = [] := h.idle (hempty ▸ List.not_mem_nil)
      rw [hempty] at hle
      rw [unsent_empty hempty, hzero, List.drop_nil]
      exact ⟨hle, rfl⟩
    | inr hinner =>
      rw [hinner] at hle
      simp only [tagged, data, List.flatMap_cons, List.flatMap_nil, List.append_nil, Option.getD_some,
        List.length_map] at hle
      exact ⟨hle, unsent_inner hinner⟩
  have hunsent : next.buffer.unsent = state.buffer.unsent ++ bytes := by
    rw [unsent_inner hlist, hblob, hpart, List.drop_append_of_le_length hbefore.1, hbefore.2]
  apply And.intro _ ⟨bytes, hunsent, happended, hsent, hlost, hsize⟩
  constructor
  · rw [hrefs, hlist]
    rfl
  · rw [hlist]
    exact List.not_mem_nil
  · rw [hlist]
    exact fun hmem => absurd List.mem_cons_self hmem
  · rw [hlist]
    exact fun _ entry hentry => List.mem_singleton.mp hentry
  · rw [hpart, hlist]
    simp only [tagged, data, hblob, List.flatMap_cons, List.flatMap_nil, List.append_nil, Option.getD_some,
      List.length_map, List.length_append]
    exact Nat.le_add_right_of_le hbefore.1

/-- A blob is appended, or there is no memory. -/
theorem Sound.appendblob (h : Sound state) (bytes : List UInt8) (memory : Memory) :
    Sound (state.appendblob bytes memory) ∧ ∃ more, Grows state (state.appendblob bytes memory) more := by
  cases memory with
  | enough =>
    exact h.queued bytes rfl rfl rfl rfl rfl rfl rfl rfl rfl
  | entry => exact h.unchanged
  | bytes => exact h.unchanged

/-- Bytes are appended to the internal blob. -/
theorem Sound.append_reuse (h : Sound state) (hreuse : state.buffer.reuse = true) (bytes : List UInt8) (memory : Memory) :
    Sound (state.append bytes memory) ∧ ∃ more, Grows state (state.append bytes memory) more := by
  have hrefs := h.refs
  cases h.reusing hreuse with
  | inl hlist =>
    have hempty : state.buffer.empty = true := by rw [Buffer.empty, hlist]; rfl
    have htwo : state.refs + 1 = 2 := by rw [hrefs, hlist]; rfl
    cases memory with
    | entry =>
      have hsame : state.append bytes .entry = state := by simp [Streaming.append, Buffer.append, hreuse, hempty]
      rw [hsame]
      exact h.unchanged
    | bytes =>
      have hopens : state.append bytes .bytes =
          { state with buffer := { state.buffer with list := [.inner] }, refs := 2 } := by
        simp [Streaming.append, Buffer.append, hreuse, hempty, htwo, hlist]
      rw [hopens]
      exact h.filled [] hreuse rfl (List.append_nil _).symm rfl rfl (List.append_nil _).symm rfl rfl
        (UInt64.add_zero _).symm
    | enough =>
      have hfills : state.append bytes .enough = { state with
          buffer := { state.buffer with
            list := [.inner]
            blob := state.buffer.blob ++ bytes
            size := state.buffer.size + .ofNat bytes.length }
          refs := 2
          appended := state.appended ++ bytes } := by
        simp [Streaming.append, Buffer.append, hreuse, hempty, htwo, hlist]
      rw [hfills]
      exact h.filled bytes hreuse rfl rfl rfl rfl rfl rfl rfl rfl
  | inr hlist =>
    have hempty : state.buffer.empty = false := by rw [Buffer.empty, hlist]; rfl
    have htwo : state.refs = 2 := by rw [hrefs, hlist]; rfl
    by_cases hbytes : memory = .bytes
    · have hsame : state.append bytes memory = state := by
        simp [Streaming.append, Buffer.append, hreuse, hempty, hbytes]
        rw [← hreuse]
      rw [hsame]
      exact h.unchanged
    · have hfills : state.append bytes memory = { state with
          buffer := { state.buffer with
            blob := state.buffer.blob ++ bytes
            size := state.buffer.size + .ofNat bytes.length }
          appended := state.appended ++ bytes } := by
        simp [Streaming.append, Buffer.append, hreuse, hempty, hbytes]
      rw [hfills]
      exact h.filled bytes hreuse hlist rfl rfl htwo rfl rfl rfl rfl

/-- Bytes are appended. -/
theorem Sound.append (h : Sound state) (bytes : List UInt8) (memory : Memory) :
    Sound (state.append bytes memory) ∧ ∃ more, Grows state (state.append bytes memory) more := by
  by_cases hreuse : state.buffer.reuse = true
  · exact h.append_reuse hreuse bytes memory
  · by_cases henough : memory = .enough
    · have hqueues : state.append bytes memory = { state with
          buffer := { state.buffer with
            list := state.buffer.list ++ [.outer (some bytes)]
            size := state.buffer.size + .ofNat bytes.length }
          appended := state.appended ++ bytes } := by
        simp [Streaming.append, Buffer.append, hreuse, henough]
      rw [hqueues]
      exact h.queued bytes (eq_false_of_ne_true hreuse) rfl rfl rfl rfl rfl rfl rfl rfl
    · have hsame : state.append bytes memory = state := by
        simp [Streaming.append, Buffer.append, hreuse, henough]
      rw [hsame]
      exact h.unchanged

/-- The release of other blobs does not change the buffer. -/
theorem release_outer {entries : List Queued} (h : .inner ∉ entries) (left : List (Bool × UInt8)) :
    entries.foldl (release left) state = state := by
  induction entries with
  | nil => rfl
  | cons entry entries ih =>
    cases entry with
    | inner => exact absurd List.mem_cons_self h
    | outer blob => exact ih fun hmem => h (List.mem_cons_of_mem _ hmem)

/-- The internal blob is only queued once. -/
theorem Sound.once {count : ℕ} (h : Sound state) (hmem : .inner ∈ state.buffer.list.take count) :
    ∃ rest, state.buffer.list.take count = .inner :: rest ∧ .inner ∉ rest ++ state.buffer.list.drop count := by
  have hfirst := h.first
  rw [← List.take_append_drop count state.buffer.list] at hfirst
  cases htake : state.buffer.list.take count with
  | nil => exact absurd (htake ▸ hmem) List.not_mem_nil
  | cons entry rest =>
    rw [htake, List.cons_append, List.tail_cons] at hfirst
    rw [htake] at hmem
    cases List.mem_cons.mp hmem with
    | inl hentry => exact ⟨rest, by rw [hentry], hfirst⟩
    | inr hinner => exact absurd (List.mem_append_left _ hinner) hfirst

/-- What a write comes to: the internal blob is reset if it is released, and then none of its bytes are left. -/
theorem Sound.writesome_eq {num count : ℕ} (h : Sound state) (hsends : state.buffer.Sends num count) :
    state.writesome num count = { state with
      buffer := { state.buffer with
        list := state.buffer.list.drop count
        part := state.buffer.rest num count
        blob := if .inner ∈ state.buffer.list.take count then [] else state.buffer.blob
        : Buffer }.settle num
      refs := 1 + (state.buffer.list.drop count).count .inner
      sent := state.sent ++ state.buffer.unsent.take num } := by
  have hrefs := h.refs
  rw [← List.take_append_drop count state.buffer.list, List.count_append] at hrefs
  by_cases hmem : .inner ∈ state.buffer.list.take count
  · obtain ⟨rest, hlist, honce⟩ := h.once hmem
    have hrest : .inner ∉ rest := fun hinner => honce (List.mem_append_left _ hinner)
    have hkept : .inner ∉ state.buffer.list.drop count := fun hinner => honce (List.mem_append_right _ hinner)
    have hone : state.refs - 1 = 1 := by
      rw [hrefs, hlist, List.count_cons_self, List.count_eq_zero.mpr hrest, List.count_eq_zero.mpr hkept]
      rfl
    rw [Streaming.writesome, if_pos hmem, hlist, List.foldl_cons, release, if_pos hone, release_outer hrest, hsends.left,
      filter_outer hkept, List.count_eq_zero.mpr hkept, hone]
    simp
  · rw [List.count_eq_zero.mpr hmem, Nat.zero_add] at hrefs
    rw [Streaming.writesome, if_neg hmem, release_outer hmem, ← hrefs]

/-- The queued bytes are those of the writer. -/
theorem tagged_length (buffer : Buffer) (list : List Queued) :
    (buffer.tagged list).length = (Writer.bytes (list.map buffer.data)).length := by
  induction list with
  | nil => rfl
  | cons entry list ih =>
    rw [List.map_cons, Writer.bytes_cons, List.length_append, ← ih, tagged, List.flatMap_cons, List.length_append,
      List.length_map]
    rfl

/-- The writer of `writer.c` does what it has to in a write that ends between blobs. -/
theorem Sound.smooth {num : ℕ} (h : Sound state) (mask : UInt32)
    (hflowing : Writing.Flowing ⟨state.buffer.writer, Writer.bytes state.buffer.writer.list, []⟩)
    (hsmooth : Writing.Smooth ⟨state.buffer.writer, Writer.bytes state.buffer.writer.list, []⟩ (.writesome (some num)))
    (hnum : num ≤ (Writer.bytes (state.buffer.writer.list.take 64)).length) :
    ∃ count, state.buffer.Sends num count ∧
      (state.writesome num count).buffer = (state.buffer.writesome mask (.ok num)).queue := by
  obtain ⟨sent, rest, hlist, hsent, hends, -⟩ := hsmooth
  have hsplit : (state.buffer.list.take sent.length).map state.buffer.data = sent ∧
      (state.buffer.list.drop sent.length).map state.buffer.data = rest := by
    have hmap : state.buffer.list.map state.buffer.data = sent ++ rest := hlist
    rw [List.map_take, List.map_drop, hmap]
    exact ⟨List.take_left, List.drop_left⟩
  have hlength : state.buffer.list.length = sent.length + rest.length := by
    rw [← List.length_append, ← hlist, Buffer.writer, List.length_map]
  have hpart : state.buffer.part = 0 := hflowing.part
  have htaken : (state.buffer.tagged (state.buffer.list.take sent.length)).length = num := by
    rw [tagged_length, hsplit.1, hsent]
  have hrest : state.buffer.rest num sent.length = 0 := by
    rw [Buffer.rest, htaken, hpart, Nat.zero_add, Nat.sub_self]
  have hsends : state.buffer.Sends num sent.length := by
    constructor
    · rw [left, hpart, List.drop_zero, ← List.take_append_drop sent.length state.buffer.list, tagged_append,
        List.length_append, htaken]
      exact Nat.le_add_right _ _
    · exact hlength ▸ Nat.le_add_right _ _
    · rw [htaken]
      exact Nat.le_add_left _ _
    · exact fun _ _ => Or.inr hrest
    · exact fun _ => hrest
  apply Exists.intro sent.length
  apply And.intro hsends
  have hsize : state.buffer.writer.size = state.buffer.writer.list.length := u32_of_lt hflowing.count
  rw [h.writesome_eq hsends, hrest, Buffer.writesome, hflowing.vector]
  by_cases hempty : min state.buffer.writer.size 64 = 0
  · have hnil : state.buffer.writer.list = [] := List.length_eq_zero_iff.mp (by omega)
    rw [hnil] at hlist
    obtain ⟨rfl, rfl⟩ := List.append_eq_nil_iff.mp hlist.symm
    have hsame : { state.buffer with part := 0 } = state.buffer := by rw [← hpart]
    rw [← hsent, if_pos hempty, List.length_nil, List.take_zero, if_neg List.not_mem_nil]
    exact congrArg (Buffer.settle · 0) hsame
  · have hmaps : Writer.Maps ((state.buffer.writer.list.take 64).map Writing.entry) state.buffer.writer.list := by
      rw [Writer.Maps, List.map_map]
      exact (List.take_prefix 64 state.buffer.writer.list).map _
    have hexact : ∀ iov ∈ (state.buffer.writer.list.take 64).map Writing.entry, iov.len = iov.base.length := by
      intro iov hiov
      obtain ⟨blob, -, rfl⟩ := List.mem_map.mp hiov
      rfl
    have hpop := Writer.popbufs_exact hlist hsent hends hmaps hexact (by rwa [Writing.iovsum_entries])
    have hcount : state.buffer.list.length - rest.length = sent.length := by omega
    rw [if_neg hempty]
    simp only [verify, hpop, Buffer.pop, hcount]

/-- Bytes are written. -/
theorem Sound.writesome {num count : ℕ} (h : Sound state) (hsends : state.buffer.Sends num count) :
    Sound (state.writesome num count) ∧ Shrinks state (state.writesome num count) num := by
  rw [h.writesome_eq hsends]
  have hsame : ({ state.buffer with
      list := state.buffer.list.drop count
      part := state.buffer.rest num count
      blob := if .inner ∈ state.buffer.list.take count then [] else state.buffer.blob
      : Buffer }.settle num).tagged (state.buffer.list.drop count) = state.buffer.tagged (state.buffer.list.drop count) := by
    by_cases hmem : .inner ∈ state.buffer.list.take count
    · obtain ⟨rest, -, honce⟩ := h.once hmem
      exact tagged_outer fun hinner => honce (List.mem_append_right _ hinner)
    · apply tagged_same
      exact if_neg hmem
  constructor
  · constructor
    · rfl
    · intro hinner
      apply h.first
      change .inner ∈ (state.buffer.list.drop count).tail at hinner
      rw [← List.drop_one, List.drop_drop, Nat.add_comm, ← List.drop_drop, List.drop_one] at hinner
      exact List.mem_of_mem_drop hinner
    · intro hkept
      by_cases hmem : .inner ∈ state.buffer.list.take count
      · exact if_pos hmem
      · apply (if_neg hmem).trans
        apply h.idle
        rw [← List.take_append_drop count state.buffer.list]
        intro hinner
        exact (List.mem_append.mp hinner).elim hmem hkept
    · intro hreuse entry hentry
      have hor := Bool.or_eq_true_iff.mp hreuse
      cases hor with
      | inl hbefore => exact h.alone hbefore entry (List.mem_of_mem_drop hentry)
      | inr hempty =>
        have hnil : state.buffer.list.drop count = [] := List.isEmpty_iff.mp hempty
        exact absurd (hnil ▸ hentry) List.not_mem_nil
    · change state.buffer.rest num count ≤ (Buffer.tagged _ (state.buffer.list.drop count)).length
      rw [hsame]
      exact hsends.rest_le
  · constructor
    · rw [unsent, List.length_map]
      exact hsends.queued
    · change ((Buffer.tagged _ (state.buffer.list.drop count)).drop (state.buffer.rest num count)).map Prod.snd = _
      rw [hsame, ← hsends.left, List.map_drop, unsent]
    · rfl
    · rfl
    · rfl
    · rfl

/-- One call. -/
theorem Sound.step {action : BufferAction} (h : Sound state) (hstep : state.step action = some next) :
    Sound next ∧ ((∃ more, Grows state next more) ∨ ∃ num, Shrinks state next num) := by
  cases action with
  | append bytes memory =>
    cases hstep
    exact (h.append bytes memory).imp id Or.inl
  | appendblob bytes memory =>
    cases hstep
    exact (h.appendblob bytes memory).imp id Or.inl
  | writesome num count =>
    rw [Streaming.step, Option.ite_none_right_eq_some, Option.some.injEq] at hstep
    rw [← hstep.2]
    exact (h.writesome hstep.1).imp id fun hshrinks => Or.inr ⟨num, hshrinks⟩
  | fail =>
    cases hstep
    exact h.unchanged.imp id Or.inl

/-- One call loses nothing. -/
theorem Lossless.step {action : BufferAction} (h : Lossless state) (hsound : Sound state)
    (hstep : state.step action = some next) : Lossless next := by
  cases (hsound.step hstep).2 with
  | inl hgrows =>
    obtain ⟨more, hgrows⟩ := hgrows
    apply And.intro _ (hgrows.lost.trans h.2)
    rw [hgrows.appended, hgrows.sent, hgrows.unsent, h.1, List.append_assoc]
  | inr hshrinks =>
    obtain ⟨num, hshrinks⟩ := hshrinks
    apply And.intro _ (hshrinks.lost.trans h.2)
    rw [hshrinks.appended, hshrinks.sent, hshrinks.unsent, h.1, List.append_assoc, List.take_append_drop]

/-- One call keeps the size, if what has not been sent can be counted. -/
theorem Sized.step {action : BufferAction} (h : Sized state) (hsound : Sound state)
    (hstep : state.step action = some next) (hnext : next.buffer.unsent.length < 2 ^ 64) : Sized next := by
  rw [Sized] at h ⊢
  cases (hsound.step hstep).2 with
  | inl hgrows =>
    obtain ⟨more, hgrows⟩ := hgrows
    rw [hgrows.unsent, List.length_append] at hnext ⊢
    rw [hgrows.size, UInt64.toNat_add, UInt64.toNat_ofNat', h, Nat.add_mod_mod]
    exact Nat.mod_eq_of_lt hnext
  | inr hshrinks =>
    obtain ⟨num, hshrinks⟩ := hshrinks
    have hlt := state.buffer.size.toNat_lt
    have hqueued := hshrinks.queued
    have hnum : (UInt64.ofNat num).toNat = num := by
      rw [UInt64.toNat_ofNat']
      apply Nat.mod_eq_of_lt
      omega
    have hle : UInt64.ofNat num ≤ state.buffer.size := by
      rw [UInt64.le_iff_toNat_le, hnum]
      omega
    have hmin : min state.buffer.size (.ofNat num) = .ofNat num := by
      by_cases hother : state.buffer.size ≤ .ofNat num
      · exact (if_pos hother).trans (UInt64.le_antisymm hother hle)
      · exact if_neg hother
    rw [hshrinks.unsent, hshrinks.size, hmin, UInt64.toNat_sub_of_le _ _ hle, hnum, h, List.length_drop]

/-- In every run, what has been sent and what has not are what was appended, in order, and the internal blob has never
been reset with bytes left in it. The size is the number of bytes that have not been sent, in the runs in which
this number can be counted. -/
theorem buffer_streams (actions : List BufferAction) : Always step Lossless create actions ∧ (Always step Sized create actions ↔
      Always step (fun state => state.buffer.unsent.length < 2 ^ 64) create actions) := by
  constructor
  · have halways : Always step (fun state => Sound state ∧ Lossless state) create actions := by
      apply always_invariant _ ⟨sound_create, rfl, rfl⟩
      intro state action next hstate hstep
      exact ⟨(hstate.1.step hstep).1, hstate.2.step hstate.1 hstep⟩
    exact halways.imp fun _ => And.right
  · constructor
    · apply Always.imp
      intro state hsized
      rw [← hsized]
      exact state.buffer.size.toNat_lt
    · intro hcounted
      have halways : Always step (fun state => Sound state ∧ Sized state) create actions := by
        apply Always.carries _ ⟨sound_create, rfl⟩ hcounted
        intro state action next hstate hstep hnext
        exact ⟨(hstate.1.step hstep).1, hstate.2.step hstate.1 hstep hnext⟩
      exact halways.imp fun _ => And.right

/-- A blob is appended many times. -/
theorem appendblob_times (bytes : List UInt8) (n : ℕ) :
    ∃ state, run step create (List.replicate n (.appendblob bytes .enough)) = some state ∧ Sound state ∧
      state.buffer.unsent.length = n * bytes.length := by
  induction n with
  | zero => exact ⟨create, rfl, sound_create, (Nat.zero_mul _).symm⟩
  | succ n ih =>
    obtain ⟨state, hrun, hsound, hlength⟩ := ih
    apply Exists.intro (state.appendblob bytes .enough)
    rw [List.replicate_succ']
    apply And.intro (run_concat hrun rfl)
    have hqueued := @Sound.queued state (state.appendblob bytes .enough) hsound bytes rfl rfl rfl rfl rfl rfl rfl rfl rfl
    apply And.intro hqueued.1
    obtain ⟨more, hgrows⟩ := hqueued.2
    have hmore : more = bytes := List.append_cancel_left (hgrows.appended.symm.trans rfl)
    rw [hgrows.unsent, hmore, List.length_append, hlength, Nat.succ_mul]

/-- When a blob of `2 ^ 46` bytes has been appended `2 ^ 18` times, the size has become zero. -/
theorem size_overflows : ¬∀ actions, Always step (fun state => Lossless state ∧ Sized state) create actions := by
  intro h
  obtain ⟨state, hrun, -, hlength⟩ := appendblob_times (List.replicate (2 ^ 46) 0) (2 ^ 18)
  have hsized : state.buffer.size.toNat = state.buffer.unsent.length := ((h _).final hrun).2
  have hlt := state.buffer.size.toNat_lt
  rw [List.length_replicate] at hlength
  omega

end Streaming

end Aug.Aspp
