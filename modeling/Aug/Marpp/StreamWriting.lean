import Aug.Marpp.StreamReading

/-!
# Writing to a stream buffer

While the stream buffer is writing, the characters of its put area are those that are still to be written at the
archive's position. Each call puts its characters behind them, and what has been written with what is still to be
written stays one.
-/

namespace Aug.Marpp

open Lib Mar

namespace Direct

/-- A write of nothing. -/
@[simp] theorem write_nil (d : Direct) : d.write [] = d := if_pos rfl

/-- Two writes are one. -/
theorem write_append (d : Direct) (a b : List UInt8) : (d.write a).write b = d.write (a ++ b) := by
  by_cases ha : a = []
  · rw [ha, write_nil, List.nil_append]
  · by_cases hb : b = []
    · rw [hb, write_nil, List.append_nil]
    · have hab : a ++ b ≠ [] := List.append_ne_nil_of_left_ne_nil ha b
      rw [write, write, write, if_neg ha, if_neg hb, if_neg hab]
      simp only [overwrite_append, List.length_append, Nat.add_assoc]

theorem write_pos (d : Direct) (w : List UInt8) : (d.write w).pos = d.pos + w.length := by
  rw [write]
  split_ifs with hw
  · rw [hw]
    rfl
  · rfl

/-- The size of the body behind a write. -/
theorem write_size (d : Direct) (w : List UInt8) :
    (d.write w).body.length = if w = [] then d.body.length else max d.body.length (d.pos + w.length) := by
  rw [write]
  split_ifs with hw
  · rfl
  · exact overwrite_length 0 _ _ _

/-- A write does not make the body shorter. -/
theorem size_le_write (d : Direct) (w : List UInt8) : d.body.length ≤ (d.write w).body.length := by
  rw [write_size]
  split_ifs
  · exact le_refl _
  · exact Nat.le_max_left _ _

end Direct

variable {σ : Type} [SizedSeq σ]

/-- The stream buffer is writing. Its put area has characters that are still to be written at the position. -/
structure Writing (sb : StreamBuf σ) (front tail : List UInt8) (d : Direct) (waits : List UInt8) : Prop where
  framed : Framed sb
  state : sb.state = .put
  get : sb.get = .null
  place : InPlace sb.size sb.gsaved
  put : sb.put = ⟨0, waits.length, sb.size⟩
  room : waits.length ≤ sb.size
  mar : BodyAt sb.mar front d.body tail d.pos
  waiting : load sb.chars 0 waits.length = some waits
  fits : front.length + (d.write waits).body.length + tail.length < 2 ^ 32

/-- The archive is at the position, whatever the get area has. -/
structure Apart (sb : StreamBuf σ) (front tail : List UInt8) (d : Direct) : Prop where
  framed : Framed sb
  state : sb.state ≠ .put
  get : sb.state = .neutral → sb.get = .null
  put : sb.put = .null
  place : InPlace sb.size sb.area
  mar : BodyAt sb.mar front d.body tail d.pos

/-- The call leaves the stream buffer writing, so that what has been written with what is still to be written is what
it should be. The get area stays saved. -/
def WritesTo {α : Type} (x : Call (StreamBuf σ) Empty α) (sb : StreamBuf σ) (front tail : List UInt8) (d : Direct)
    (gsaved : Area) : Prop :=
  ∃ a sb' base waits, x.Returns sb a sb' ∧ Writing sb' front tail base waits ∧ base.write waits = d ∧ sb'.gsaved = gsaved

variable {env : SeqImpl.Env σ} {sb : StreamBuf σ} {front tail waits : List UInt8} {d : Direct} {back : ℕ}

omit [SizedSeq σ] in
theorem area_get (h : sb.state = .get) : sb.area = sb.get := if_pos h

omit [SizedSeq σ] in
theorem area_saved (h : ¬sb.state = .get) : sb.area = sb.gsaved := if_neg h

/-- A stream buffer that is reading at the end of its get area. -/
theorem Reading.apart (h : Reading sb front tail d back) (hrest : sb.get.rest = 0) : Apart sb front tail d where
  framed := h.framed
  state := by
    rw [h.state]
    decide
  get hstate := by
    rw [h.state] at hstate
    cases hstate
  put := h.put
  place := by
    rw [area_get h.state]
    exact h.place
  mar := by
    have hmar := h.mar
    rwa [hrest, Nat.add_zero] at hmar

/-- A write that fits is granted. -/
theorem iowrite_returns {buf : List UInt8} (h : BodyAt sb.mar front d.body tail d.pos) (hgrant : GrantsAll env)
    (hfits : front.length + (d.write buf).body.length + tail.length < 2 ^ 32) :
    ∃ num mar, (StreamBuf.iowrite env buf).Returns sb num { sb with mar } ∧
      BodyAt mar front (d.write buf).body tail (d.write buf).pos ∧ (buf.length < 2 ^ 31 → num = buf.length) := by
  by_cases hbuf : buf = []
  · subst hbuf
    rw [Direct.write_nil]
    exact ⟨0, sb.mar, Call.returns_pure _ _, h, fun _ => rfl⟩
  · have hlen : 0 < buf.length := List.length_pos_iff.mpr hbuf
    rw [Direct.write_size, if_neg hbuf] at hfits
    have hlarge : buf.length < 2 ^ 32 := by omega
    have hcut : u32 (buf.length : ℤ) = buf.length := u32_of_lt hlarge
    obtain ⟨mar, hwrite, hmar⟩ := h.write hgrant hfits
    refine ⟨i32 buf.length, mar, ?_, ?_, fun hsmall => i32_of_range (by omega) (by omega)⟩
    · rw [StreamBuf.iowrite, hcut, if_neg (by omega), List.take_length]
      exact (onMar_returns hwrite).bind (Call.returns_pure _ _)
    · rw [Direct.write, if_neg hbuf]
      exact hmar

/-- Nothing is done to turn to writing. -/
theorem Writing.setout (h : Writing sb front tail d waits) : StreamBuf.setout.Returns sb true sb := by
  apply (Call.returns_read _).bind
  rw [if_pos h.state]
  exact Call.returns_pure _ _

/-- The get area is saved, and the put area is empty. -/
theorem Apart.setout (h : Apart sb front tail d) :
    ∃ sb', StreamBuf.setout.Returns sb true sb' ∧ Writing sb' front tail d [] ∧
      sb'.gsaved = sb.area := by
  have hpsize := h.framed.psize
  refine ⟨{ sb with
      state := .put
      gsaved := sb.area
      get := .null
      put := ⟨0, 0, sb.psize⟩ }, ?_, ⟨⟨h.framed.openin, h.framed.openout, h.framed.pos, h.framed.small,
    h.framed.length⟩, rfl, rfl, h.place, ?_, Nat.zero_le _, h.mar, ?_, ?_⟩, rfl⟩
  · apply (Call.returns_read _).bind
    rw [if_neg h.state, if_pos h.framed.openout]
    exact (Call.returns_modify _ _).bind (Call.returns_pure _ _)
  · rw [hpsize]
    rfl
  · exact if_pos (Nat.zero_le _)
  · rw [Direct.write_nil]
    exact h.mar.total

/-- What is still to be written is written. -/
theorem Writing.syncout (h : Writing sb front tail d waits) (hgrant : GrantsAll env) :
    ∃ sb', (StreamBuf.syncout env).Returns sb 0 sb' ∧ Writing sb' front tail (d.write waits) [] ∧
      sb'.gsaved = sb.gsaved ∧ sb'.size = sb.size := by
  have hsmall := h.framed.small
  have hroom := h.room
  obtain ⟨num, mar, hwrite, hmar, hnum⟩ := iowrite_returns h.mar hgrant h.fits
  have hall : num = waits.length := hnum (by omega)
  refine ⟨{ sb with mar, put := ⟨0, 0, sb.size⟩ }, ?_, ⟨⟨h.framed.openin, h.framed.openout, h.framed.pos, h.framed.small,
    h.framed.length⟩, h.state, h.get, h.place, rfl, Nat.zero_le _, hmar, if_pos (Nat.zero_le _), ?_⟩, rfl, rfl⟩
  · have hstart : sb.put.start = 0 := by rw [h.put]
    have hcount : sb.put.next - sb.put.start = waits.length := by
      rw [h.put]
      rfl
    have hload : load sb.chars sb.put.start (sb.put.next - sb.put.start) = some waits := by
      rw [hstart, h.put]
      exact h.waiting
    have hreset : ({ sb.put with next := sb.put.next - waits.length } : Area) = ⟨0, 0, sb.size⟩ := by
      rw [h.put]
      simp
    apply (Call.returns_read _).bind
    rw [if_pos h.state]
    apply (Call.returns_access hload _).bind
    apply hwrite.bind
    rw [hcount, if_neg (by omega), if_pos hall, ← hreset]
    exact (Call.returns_modify _ _).bind (Call.returns_pure _ _)
  · rw [Direct.write_nil]
    exact hmar.total

/-- Characters for which the put area has room. -/
theorem Writing.putchars (h : Writing sb front tail d waits) {bytes : List UInt8}
    (hroom : waits.length + bytes.length ≤ sb.size)
    (hfits : front.length + ((d.write waits).write bytes).body.length + tail.length < 2 ^ 32) :
    ∃ sb', (StreamBuf.putchars bytes).Returns sb () sb' ∧ Writing sb' front tail d (waits ++ bytes) ∧
      sb'.gsaved = sb.gsaved ∧ sb'.size = sb.size := by
  have hlength := h.framed.length
  have hnext : sb.put.next = 0 + waits.length := by
    rw [h.put, Nat.zero_add]
  have hin : 0 + waits.length + bytes.length ≤ sb.chars.length := by omega
  obtain ⟨chars, hstore⟩ := store_of_le hin
  have hput : ({ sb.put with next := sb.put.next + bytes.length } : Area) = ⟨0, (waits ++ bytes).length, sb.size⟩ := by
    rw [h.put, List.length_append]
  refine ⟨{ sb with chars, put := { sb.put with next := sb.put.next + bytes.length } }, ?_, ⟨⟨h.framed.openin,
    h.framed.openout, h.framed.pos, h.framed.small, (store_length hstore).trans h.framed.length⟩, h.state, h.get, h.place,
    hput, ?_, h.mar, ?_, ?_⟩, rfl, rfl⟩
  · rw [← hnext] at hstore
    exact (Call.returns_read _).bind ((Call.returns_access hstore _).bind (Call.returns_modify _ _))
  · rw [List.length_append]
    exact hroom
  · rw [List.length_append]
    exact load_store h.waiting hstore
  · rw [← Direct.write_append]
    exact hfits

/-- A full put area is written before the next character is put into it. -/
theorem overflow_writes {sb' : StreamBuf σ} (hset : StreamBuf.setout.Returns sb true sb')
    (h : Writing sb' front tail d waits) (hgrant : GrantsAll env) {c : UInt8}
    (hfits : front.length + ((d.write waits).write [c]).body.length + tail.length < 2 ^ 32) :
    WritesTo (StreamBuf.overflow env (some c)) sb front tail ((d.write waits).write [c]) sb'.gsaved := by
  obtain ⟨flushed, hsync, hflushed, hsaved, hsize⟩ := h.syncout hgrant
  have hpos := hflushed.framed.pos
  have hone : ([] : List UInt8).length + [c].length ≤ flushed.size := hpos
  rw [← Direct.write_nil (d.write waits)] at hfits
  obtain ⟨last, hput, hlast, hsaved', -⟩ := hflushed.putchars hone hfits
  refine ⟨some c, last, d.write waits, [c], ?_, hlast, rfl, hsaved'.trans hsaved⟩
  apply hset.bind
  rw [if_pos rfl]
  apply hsync.bind
  dsimp only
  rw [if_neg (by decide)]
  apply (Call.returns_read _).bind
  rw [hflushed.put, if_pos (by simpa using hpos)]
  exact hput.bind (Call.returns_pure _ _)

/-- `sputc` puts the character at the position and moves behind it. -/
theorem Writing.sputc (h : Writing sb front tail d waits) (hgrant : GrantsAll env) {c : UInt8}
    (hfits : front.length + ((d.write waits).write [c]).body.length + tail.length < 2 ^ 32) :
    WritesTo (StreamBuf.sputc env c) sb front tail ((d.write waits).write [c]) sb.gsaved := by
  by_cases hroom : waits.length < sb.size
  · have hone : waits.length + [c].length ≤ sb.size := hroom
    obtain ⟨last, hput, hlast, hsaved, -⟩ := h.putchars hone hfits
    refine ⟨some c, last, d, waits ++ [c], (Call.returns_read _).bind ?_, hlast, (d.write_append _ _).symm, hsaved⟩
    rw [h.put, if_pos hroom]
    exact hput.bind (Call.returns_pure _ _)
  · obtain ⟨a, last, base, w, hreturns, hwrites⟩ := overflow_writes h.setout h hgrant hfits
    refine ⟨a, last, base, w, (Call.returns_read _).bind ?_, hwrites⟩
    rw [h.put, if_neg hroom]
    exact hreturns

/-- `sputc` turns to writing at the position. -/
theorem Apart.sputc (h : Apart sb front tail d) (hgrant : GrantsAll env) {c : UInt8}
    (hfits : front.length + (d.write [c]).body.length + tail.length < 2 ^ 32) :
    WritesTo (StreamBuf.sputc env c) sb front tail (d.write [c]) sb.area := by
  obtain ⟨sb', hset, hwriting, hsaved⟩ := h.setout
  rw [← hsaved]
  obtain ⟨a, last, base, w, hreturns, hwrites⟩ := overflow_writes hset hwriting hgrant hfits
  refine ⟨a, last, base, w, (Call.returns_read _).bind ?_, hwrites⟩
  rw [h.put, if_neg (by decide)]
  exact hreturns

/-- What has no room in the put area is written behind it. -/
theorem Writing.putmore (h : Writing sb front tail d waits) (hgrant : GrantsAll env) {bytes : List UInt8}
    (hfits : front.length + ((d.write waits).write bytes).body.length + tail.length < 2 ^ 32) (tot : ℤ) :
    WritesTo (StreamBuf.putmore env tot bytes) sb front tail ((d.write waits).write bytes) sb.gsaved := by
  obtain ⟨flushed, hsync, hflushed, hsaved, hsize⟩ := h.syncout hgrant
  have hpsize := hflushed.framed.psize
  by_cases hlong : flushed.size ≤ bytes.length
  · obtain ⟨num, mar, hwrite, hmar, -⟩ := iowrite_returns hflushed.mar hgrant hfits
    refine ⟨if num = -1 then tot else tot + num, { flushed with mar }, (d.write waits).write bytes, [], ?_,
      ⟨⟨hflushed.framed.openin, hflushed.framed.openout, hflushed.framed.pos, hflushed.framed.small,
      hflushed.framed.length⟩, hflushed.state, hflushed.get, hflushed.place, hflushed.put, hflushed.room, hmar,
      hflushed.waiting, ?_⟩, Direct.write_nil _, hsaved⟩
    · apply hsync.bind
      rw [if_neg (by decide)]
      apply (Call.returns_read _).bind
      rw [if_pos (by omega)]
      exact hwrite.bind (Call.returns_pure _ _)
    · rw [Direct.write_nil]
      exact hmar.total
  · have hroom : ([] : List UInt8).length + bytes.length ≤ flushed.size := by
      rw [List.length_nil]
      omega
    rw [← Direct.write_nil (d.write waits)] at hfits
    obtain ⟨last, hput, hlast, hsaved', -⟩ := hflushed.putchars hroom hfits
    refine ⟨tot + bytes.length, last, d.write waits, bytes, ?_, hlast, rfl, hsaved'.trans hsaved⟩
    apply hsync.bind
    rw [if_neg (by decide)]
    apply (Call.returns_read _).bind
    rw [if_neg (by omega)]
    exact hput.bind (Call.returns_pure _ _)

/-- `xsputn` puts the characters at the position and moves behind them. -/
theorem xsputn_writes {sb' : StreamBuf σ} (hset : StreamBuf.setout.Returns sb true sb')
    (h : Writing sb' front tail d waits) (hgrant : GrantsAll env) {bytes : List UInt8} (hsome : bytes ≠ [])
    (hfits : front.length + ((d.write waits).write bytes).body.length + tail.length < 2 ^ 32) :
    WritesTo (StreamBuf.xsputn env bytes) sb front tail ((d.write waits).write bytes) sb'.gsaved := by
  have hroom := h.room
  have hrest : sb'.put.rest = sb'.size - waits.length := by
    rw [h.put]
    rfl
  let len := min bytes.length sb'.put.rest
  have hsplit : ((d.write waits).write (bytes.take len)).write (bytes.drop len) = (d.write waits).write bytes := by
    rw [Direct.write_append, List.take_append_drop]
  have hgrows := Direct.size_le_write ((d.write waits).write (bytes.take len)) (bytes.drop len)
  rw [hsplit] at hgrows
  have htake : (bytes.take len).length = min len bytes.length := List.length_take
  have hpart : waits.length + (bytes.take len).length ≤ sb'.size := by omega
  obtain ⟨mid, hput, hmid, hsaved, -⟩ := h.putchars hpart (by omega)
  have hmore : d.write (waits ++ bytes.take len) = (d.write waits).write (bytes.take len) :=
    (d.write_append _ _).symm
  by_cases hall : bytes.drop len = []
  · rw [hall, Direct.write_nil, ← hmore] at hsplit
    refine ⟨len, mid, d, waits ++ bytes.take len, ?_, hmid, hsplit, hsaved⟩
    rw [StreamBuf.xsputn, if_neg hsome]
    apply hset.bind
    rw [if_pos rfl]
    apply (Call.returns_read _).bind
    apply hput.bind
    rw [if_pos hall]
    exact Call.returns_pure _ _
  · rw [← hsplit, ← hmore] at hfits ⊢
    obtain ⟨a, last, base, w, hreturns, hwriting, hwrites, hkept⟩ := hmid.putmore hgrant hfits len
    refine ⟨a, last, base, w, ?_, hwriting, hwrites, hkept.trans hsaved⟩
    rw [StreamBuf.xsputn, if_neg hsome]
    apply hset.bind
    rw [if_pos rfl]
    apply (Call.returns_read _).bind
    apply hput.bind
    rw [if_neg hall]
    exact hreturns

/-! ## Turning to reading -/

/-- What is still to be written is written, and the get area is the one that had been saved. -/
theorem Writing.setin (h : Writing sb front tail d waits) (hgrant : GrantsAll env) (hrest : sb.gsaved.rest = 0) :
    ∃ sb', (StreamBuf.setin env).Returns sb true sb' ∧ Reading sb' front tail (d.write waits) 0 ∧
      sb'.get = sb.gsaved ∧ sb'.size = sb.size := by
  obtain ⟨flushed, hsync, hflushed, hsaved, hsize⟩ := h.syncout hgrant
  have hother : ¬sb.state = .get := by
    rw [h.state]
    decide
  refine ⟨{ flushed with state := .get, put := .null, get := flushed.gsaved }, ?_, ⟨⟨hflushed.framed.openin,
    hflushed.framed.openout, hflushed.framed.pos, hflushed.framed.small, hflushed.framed.length⟩, rfl, rfl,
    hflushed.place, ?_, ?_, ⟨Nat.zero_le _, Nat.zero_le _, nofun⟩⟩, hsaved, hsize⟩
  · apply (Call.returns_read _).bind
    rw [if_neg hother, if_pos h.framed.openin, if_pos h.framed.openout]
    apply hsync.bind
    dsimp only
    rw [if_neg (by decide)]
    exact (Call.returns_modify _ _).bind (Call.returns_pure _ _)
  · dsimp only
    rw [hsaved, hrest]
    exact hflushed.mar
  · intro k hk
    dsimp only at hk
    rw [hsaved, hrest] at hk
    exact absurd hk (Nat.not_lt_zero k)

/-- Reading begins at the end of the get area. -/
theorem Apart.setin (h : Apart sb front tail d) (env : SeqImpl.Env σ) (hrest : sb.area.rest = 0) :
    ∃ sb', (StreamBuf.setin env).Returns sb true sb' ∧ Reading sb' front tail d 0 ∧
      sb'.get = sb.area ∧ sb'.size = sb.size ∧ (sb.state = .get → sb' = sb) := by
  have hplace := h.place
  have hnone : ∀ area : Area, area.rest = 0 → ∀ chars : List UInt8,
      ∀ k < area.rest, chars[area.next + k]? = d.body[d.pos + k]? := by
    intro area harea chars k hk
    omega
  have hmar := h.mar
  by_cases hget : sb.state = .get
  · rw [area_get hget] at hrest hplace ⊢
    refine ⟨sb, ?_, ⟨h.framed, hget, h.put, hplace, ?_, hnone _ hrest _, ⟨Nat.zero_le _, Nat.zero_le _, nofun⟩⟩, rfl, rfl,
      fun _ => rfl⟩
    · apply (Call.returns_read _).bind
      rw [if_pos hget]
      exact Call.returns_pure _ _
    · rw [hrest]
      exact hmar
  · rw [area_saved hget] at hrest hplace ⊢
    refine ⟨{ sb with state := .get, put := .null, get := sb.gsaved }, ?_, ⟨⟨h.framed.openin, h.framed.openout,
      h.framed.pos, h.framed.small, h.framed.length⟩, rfl, rfl, hplace, ?_, hnone _ hrest _,
      ⟨Nat.zero_le _, Nat.zero_le _, nofun⟩⟩, rfl, rfl, fun hstate => absurd hstate hget⟩
    · have hsync : (StreamBuf.syncout env).Returns sb 0 sb := by
        apply (Call.returns_read _).bind
        rw [if_neg h.state]
        exact Call.returns_pure _ _
      apply (Call.returns_read _).bind
      rw [if_neg hget, if_pos h.framed.openin, if_pos h.framed.openout]
      apply hsync.bind
      dsimp only
      rw [if_neg (by decide)]
      exact (Call.returns_modify _ _).bind (Call.returns_pure _ _)
    · dsimp only
      rw [hrest]
      exact hmar

end Aug.Marpp
