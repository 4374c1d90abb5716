import Aug.Marpp.StreamDirect

/-!
# Reading from a stream buffer

While the get area is in step with the position, its characters are those that the body has from the position on, and
the archive is behind them. Taking characters, filling the area and reading past it keep it in step, and give what the
body has at the position.
-/

namespace Aug.Marpp

open Lib Mar

variable {σ : Type} [SizedSeq σ]

/-- A stream buffer for input and output. Its size is one that the counts of characters have room for. -/
structure Framed (sb : StreamBuf σ) : Prop where
  openin : sb.openin = true
  openout : sb.openout = true
  pos : 0 < sb.size
  small : sb.size < 2 ^ 31
  length : sb.chars.length = sb.size + (sb.size + pbacksize)

/-- A get area in its place, behind the room for put-back. -/
structure InPlace (size : ℕ) (area : Area) : Prop where
  low : size ≤ area.start
  start : area.start ≤ size + pbacksize
  base : size + pbacksize ≤ area.stop
  high : area.stop ≤ size + pbacksize + size
  front : area.start ≤ area.next
  next : area.next ≤ area.stop

/-- The characters in front of the next one are those in front of the position. -/
structure Behind (chars : List UInt8) (area : Area) (d : Direct) (back : ℕ) : Prop where
  room : back ≤ area.next - area.start
  pos : back ≤ d.pos
  same : ∀ k < back, chars[area.next - 1 - k]? = d.body[d.pos - 1 - k]?

/-- The stream buffer is reading at a position. -/
structure Reading (sb : StreamBuf σ) (front tail : List UInt8) (d : Direct) (back : ℕ) : Prop where
  framed : Framed sb
  state : sb.state = .get
  put : sb.put = .null
  place : InPlace sb.size sb.get
  mar : BodyAt sb.mar front d.body tail (d.pos + sb.get.rest)
  ahead : ∀ k < sb.get.rest, sb.chars[sb.get.next + k]? = d.body[d.pos + k]?
  behind : Behind sb.chars sb.get d back

variable {sb : StreamBuf σ} {front tail : List UInt8} {d : Direct} {back : ℕ}

omit [SizedSeq σ] in
theorem Framed.psize (h : Framed sb) : sb.psize = sb.size := if_pos h.openout

omit [SizedSeq σ] in
theorem Framed.gsize (h : Framed sb) : sb.gsize = sb.size := if_pos h.openin

omit [SizedSeq σ] in
theorem Framed.gbase (h : Framed sb) : sb.gbase = sb.size + pbacksize := by rw [StreamBuf.gbase, h.psize]

/-- The end of an area behind characters that have been taken. -/
theorem rest_take (area : Area) (n : ℕ) : ({ area with next := area.next + n } : Area).rest = area.rest - n := by
  simp only [Area.rest]
  omega

/-- As many characters as the area has are left of the body. -/
theorem Reading.left (h : Reading sb front tail d back) : 0 < sb.get.rest → d.pos + sb.get.rest ≤ d.body.length := by
  intro hpos
  have hplace := h.place
  have hnext := hplace.next
  have hhigh := hplace.high
  have hlength := h.framed.length
  have hrest : sb.get.rest = sb.get.stop - sb.get.next := rfl
  have hlast := h.ahead (sb.get.rest - 1) (by omega)
  have hin : sb.get.next + (sb.get.rest - 1) < sb.chars.length := by omega
  rw [List.getElem?_eq_getElem hin, eq_comm, List.getElem?_eq_some_iff] at hlast
  obtain ⟨hbody, -⟩ := hlast
  omega

/-- Characters of the area are those of the body. -/
theorem Reading.takechars (h : Reading sb front tail d back) {n : ℕ} (hn : n ≤ sb.get.rest) :
    (StreamBuf.takechars n).Returns sb (readFrom d.body d.pos n)
        { sb with get := { sb.get with next := sb.get.next + n } } ∧
      Reading { sb with get := { sb.get with next := sb.get.next + n } } front tail { d with pos := d.pos + n }
        (back + n) ∧ (readFrom d.body d.pos n).length = n := by
  have hplace := h.place
  have hlow := hplace.low
  have hnext := hplace.next
  have hfront := hplace.front
  have hhigh := hplace.high
  have hlength := h.framed.length
  have hleft := h.left
  have hrest : sb.get.rest = sb.get.stop - sb.get.next := rfl
  have hcount : (readFrom d.body d.pos n).length = n := by
    rw [readFrom_length]
    omega
  have hin : sb.get.next + n ≤ sb.chars.length := by omega
  obtain ⟨bytes, hload⟩ := load_of_le hin
  have hbytes : bytes = readFrom d.body d.pos n := by
    apply List.ext_getElem?
    intro k
    by_cases hk : k < n
    · rw [getElem?_load hload hk, h.ahead k (by omega), readFrom, List.getElem?_take_of_lt hk, List.getElem?_drop]
    · rw [List.getElem?_eq_none (by rw [load_length hload]; omega), List.getElem?_eq_none (by rw [hcount]; omega)]
  subst hbytes
  refine ⟨?_, ⟨⟨h.framed.openin, h.framed.openout, h.framed.pos, h.framed.small, h.framed.length⟩, h.state, h.put,
    ⟨hplace.low, hplace.start, hplace.base, hplace.high, ?_, ?_⟩, ?_, ?_, ⟨?_, ?_, ?_⟩⟩, hcount⟩
  · exact (Call.returns_read _).bind ((Call.returns_access hload _).bind
      ((Call.returns_modify _ _).bind (Call.returns_pure _ _)))
  · dsimp only
    omega
  · dsimp only
    omega
  · have hsame : d.pos + n + (sb.get.rest - n) = d.pos + sb.get.rest := by omega
    dsimp only
    rw [rest_take, hsame]
    exact h.mar
  · intro k hk
    dsimp only at hk ⊢
    rw [rest_take] at hk
    rw [Nat.add_assoc, Nat.add_assoc]
    exact h.ahead (n + k) (by omega)
  · have harea := h.behind.room
    dsimp only
    omega
  · have hpos := h.behind.pos
    dsimp only
    omega
  · intro k hk
    dsimp only
    by_cases hnew : k < n
    · have harea : sb.get.next + n - 1 - k = sb.get.next + (n - 1 - k) := by omega
      have hbody : d.pos + n - 1 - k = d.pos + (n - 1 - k) := by omega
      rw [harea, hbody]
      exact h.ahead (n - 1 - k) (by omega)
    · have harea : sb.get.next + n - 1 - k = sb.get.next - 1 - (k - n) := by omega
      have hbody : d.pos + n - 1 - k = d.pos - 1 - (k - n) := by omega
      rw [harea, hbody]
      exact h.behind.same (k - n) (by omega)

omit [SizedSeq σ] in
/-- A call of the archive that returns. -/
theorem onMar_returns {α : Type} {x : Call (Archive σ) Failure α} {a : α} {mar : Archive σ}
    (hx : x.Returns sb.mar a mar) : (StreamBuf.onMar x).Returns sb (some a) { sb with mar } :=
  Call.Returns.zoom hx.attempt

omit [SizedSeq σ] in
/-- A call of the archive that fails. -/
theorem onMar_fails {α : Type} {x : Call (Archive σ) Failure α} {e : Failure} {mar : Archive σ}
    (hx : x.Fails sb.mar e mar) : (StreamBuf.onMar x).Returns sb none { sb with mar } :=
  Call.Returns.zoom hx.attempt

/-- A read of the archive whose counts have room gives what the body has at the archive's position. -/
theorem ioread_returns {body : List UInt8} {pos n : ℕ} (h : BodyAt sb.mar front body tail pos) (hn : n < 2 ^ 32)
    (hcount : (readFrom body pos n).length < 2 ^ 31) :
    ∃ mar, (StreamBuf.ioread n).Returns sb (((readFrom body pos n).length : ℤ), readFrom body pos n) { sb with mar } ∧
      BodyAt mar front body tail (pos + (readFrom body pos n).length) := by
  obtain ⟨mar, hread, hmar⟩ := h.read n
  refine ⟨mar, ?_, hmar⟩
  have hlen : u32 (n : ℤ) = n := u32_of_lt hn
  have hint : i32 ((readFrom body pos n).length : ℤ) = (readFrom body pos n).length := i32_of_range (by omega) (by omega)
  rw [StreamBuf.ioread, hlen]
  apply (onMar_returns hread).bind
  dsimp only
  rw [hint]
  exact Call.returns_pure _ _

/-- The number of characters that are kept in front of a get area that is filled. -/
def pback (area : Area) : ℕ := min (area.next - area.start) pbacksize

/-- The characters in front of the next one are copied in front of the get area. -/
theorem savepback_returns (h : Reading sb front tail d back) :
    ∃ chars, StreamBuf.savepback.Returns sb (sb.gbase - pback sb.get) { sb with chars } ∧
      chars.length = sb.chars.length ∧ ∀ j, chars[j]? =
        if sb.gbase - pback sb.get ≤ j ∧ j < sb.gbase - pback sb.get + pback sb.get then
          sb.chars[sb.get.next - pback sb.get + (j - (sb.gbase - pback sb.get))]?
        else sb.chars[j]? := by
  have hplace := h.place
  have hnext := hplace.next
  have hhigh := hplace.high
  have hlength := h.framed.length
  have hgbase := h.framed.gbase
  have hback : pback sb.get ≤ sb.get.next - sb.get.start ∧ pback sb.get ≤ pbacksize :=
    ⟨Nat.min_le_left _ _, Nat.min_le_right _ _⟩
  have hin : sb.get.next - pback sb.get + pback sb.get ≤ sb.chars.length := by omega
  obtain ⟨bytes, hload⟩ := load_of_le hin
  have hbytes := load_length hload
  have hroom : sb.gbase - pback sb.get + bytes.length ≤ sb.chars.length := by omega
  obtain ⟨chars, hstore⟩ := store_of_le hroom
  have hmove : move sb.chars (sb.gbase - pback sb.get) (sb.get.next - pback sb.get) (pback sb.get) = some chars := by
    rw [move, hload]
    exact hstore
  refine ⟨chars, ?_, store_length hstore, getElem?_move hmove⟩
  exact (Call.returns_read _).bind ((Call.returns_access hmove _).bind
    ((Call.returns_modify _ _).bind (Call.returns_pure _ _)))

/-- At the end of the body nothing is put into the area. The characters in front of it that had been kept are lost. -/
theorem Reading.refill_none (h : Reading sb front tail d back) (hrest : sb.get.rest = 0) (hleft : d.body.length ≤ d.pos) :
    ∃ sb', StreamBuf.refill.Returns sb none sb' ∧ sb'.get = sb.get ∧ sb'.size = sb.size ∧
      Reading sb' front tail d (min back (sb.get.stop - sb.gbase)) := by
  have hplace := h.place
  have hnext := hplace.next
  have hhigh := hplace.high
  have hgbase := h.framed.gbase
  have hsmall := h.framed.small
  have hdone : sb.get.stop - sb.get.next = 0 := hrest
  have hback : pback sb.get ≤ pbacksize := Nat.min_le_right _ _
  obtain ⟨chars, hsave, hlength, hchars⟩ := savepback_returns h
  have hmar := h.mar
  rw [hrest, Nat.add_zero] at hmar
  have hempty : readFrom d.body d.pos sb.size = [] := by
    rw [← List.length_eq_zero_iff, readFrom_length]
    omega
  have hfew : (readFrom d.body d.pos sb.size).length < 2 ^ 31 := by
    rw [hempty]
    decide
  obtain ⟨mar, hread, hmar'⟩ := @ioread_returns _ _ { sb with chars } _ _ _ _ sb.size hmar (by omega) hfew
  rw [hempty] at hread hmar'
  have hstore : store chars sb.gbase [] = some chars := by
    have hin : sb.gbase ≤ chars.length := by
      rw [hlength, h.framed.length]
      omega
    simp [store, hin]
  refine ⟨{ sb with chars, mar }, ?_, rfl, rfl, ⟨⟨h.framed.openin, h.framed.openout, h.framed.pos, h.framed.small,
    hlength.trans h.framed.length⟩, h.state, h.put, h.place, ?_, ?_, ⟨?_, ?_, ?_⟩⟩⟩
  · apply hsave.bind
    apply (Call.returns_read _).bind
    have hgsize : ({ sb with chars } : StreamBuf σ).gsize = sb.size := h.framed.gsize
    rw [hgsize]
    apply hread.bind
    apply (Call.returns_access hstore _).bind
    apply (Call.returns_modify _ _).bind
    dsimp only
    rw [if_pos (.inr rfl)]
    exact Call.returns_pure _ _
  · dsimp only
    rw [hrest]
    exact hmar'
  · intro k hk
    dsimp only at hk
    omega
  · have hroom := h.behind.room
    dsimp only
    omega
  · have hpos := h.behind.pos
    omega
  · intro k hk
    dsimp only
    rw [hchars, if_neg (by omega)]
    exact h.behind.same k (by omega)

/-- The area is filled with what is left of the body, and the last characters are kept in front of it. -/
theorem Reading.refill_some (h : Reading sb front tail d back) (hrest : sb.get.rest = 0) (hleft : d.pos < d.body.length) :
    ∃ sb' c, StreamBuf.refill.Returns sb (some c) sb' ∧ d.body[d.pos]? = some c ∧
      sb'.get.rest = min sb.size (d.body.length - d.pos) ∧ sb'.size = sb.size ∧
      Reading sb' front tail d (min back pbacksize) := by
  have hplace := h.place
  have hstart := hplace.start
  have hbase := hplace.base
  have hnext := hplace.next
  have hgbase := h.framed.gbase
  have hsmall := h.framed.small
  have hsize := h.framed.pos
  have hdone : sb.get.stop - sb.get.next = 0 := hrest
  have hback : pback sb.get = min (sb.get.next - sb.get.start) pbacksize := rfl
  obtain ⟨chars, hsave, hlength, hchars⟩ := savepback_returns h
  have hmar := h.mar
  rw [hrest, Nat.add_zero] at hmar
  have hcount : (readFrom d.body d.pos sb.size).length = min sb.size (d.body.length - d.pos) := readFrom_length _ _ _
  obtain ⟨mar, hread, hmar'⟩ := @ioread_returns _ _ { sb with chars } _ _ _ _ sb.size hmar (by omega) (by omega)
  have hframed := h.framed.length
  have hroom : sb.gbase + (readFrom d.body d.pos sb.size).length ≤ chars.length := by omega
  obtain ⟨filled, hstore⟩ := store_of_le hroom
  have hfilled := getElem?_store hstore
  have hfirst : d.body[d.pos]? = some d.body[d.pos] := List.getElem?_eq_getElem hleft
  have hbytes (k : ℕ) (hk : k < min sb.size (d.body.length - d.pos)) : filled[sb.gbase + k]? = d.body[d.pos + k]? := by
    rw [hfilled, if_pos (by omega), Nat.add_sub_cancel_left, readFrom, List.getElem?_take_of_lt (by omega),
      List.getElem?_drop]
  let area : Area := ⟨sb.gbase - pback sb.get, sb.gbase, sb.gbase + min sb.size (d.body.length - d.pos)⟩
  have harea : area.rest = min sb.size (d.body.length - d.pos) := Nat.add_sub_cancel_left _ _
  refine ⟨{ sb with chars := filled, mar, get := area }, d.body[d.pos], ?_, hfirst, harea, rfl,
    ⟨⟨h.framed.openin, h.framed.openout, h.framed.pos, h.framed.small,
      (store_length hstore).trans (hlength.trans h.framed.length)⟩, h.state, h.put, ⟨?_, ?_, ?_, ?_, ?_, ?_⟩, ?_, ?_,
      ⟨?_, ?_, ?_⟩⟩⟩
  · apply hsave.bind
    apply (Call.returns_read _).bind
    have hgsize : ({ sb with chars } : StreamBuf σ).gsize = sb.size := h.framed.gsize
    rw [hgsize]
    apply hread.bind
    apply (Call.returns_access hstore _).bind
    apply (Call.returns_modify _ _).bind
    dsimp only
    rw [if_neg (by omega)]
    have hstop : (⟨sb.gbase - pback sb.get, sb.gbase,
        ((sb.gbase : ℤ) + (readFrom d.body d.pos sb.size).length).toNat⟩ : Area) = area := by
      rw [hcount]
      rfl
    have hget : filled[sb.gbase]? = some d.body[d.pos] := by
      have hzero := hbytes 0 (by omega)
      rwa [Nat.add_zero, Nat.add_zero, hfirst] at hzero
    rw [← hstop]
    exact (Call.returns_modify _ _).bind ((Call.returns_access hget _).bind (Call.returns_pure _ _))
  · dsimp only [area]
    omega
  · dsimp only [area]
    omega
  · dsimp only [area]
    omega
  · dsimp only [area]
    omega
  · dsimp only [area]
    omega
  · dsimp only [area]
    omega
  · dsimp only
    rw [harea, ← hcount]
    exact hmar'
  · intro k hk
    dsimp only at hk
    exact hbytes k (harea ▸ hk)
  · have hroom := h.behind.room
    dsimp only [area]
    omega
  · have hpos := h.behind.pos
    omega
  · intro k hk
    have hroom := h.behind.room
    dsimp only [area]
    rw [hfilled, if_neg (by omega), hchars, if_pos (by omega)]
    have hsame : sb.get.next - pback sb.get + (sb.gbase - 1 - k - (sb.gbase - pback sb.get)) = sb.get.next - 1 - k := by
      omega
    rw [hsame]
    exact h.behind.same k (by omega)

end Aug.Marpp
