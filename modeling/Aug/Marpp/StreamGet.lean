import Aug.Marpp.StreamReading

/-!
# The reading calls of a stream buffer

Each call of a stream buffer that is reading at a position gives the characters of the body there, and leaves the
stream buffer reading behind them. What they do to the get area, and to the characters that can be put back, depends
on the room of the area and on how much is left of the body.
-/

namespace Aug.Marpp

open Lib Mar

variable {σ : Type} [SizedSeq σ]

/-- The call gives what it should, and leaves the stream buffer reading at a position with as many characters in its
get area. -/
def ReadsTo {α : Type} (x : Call (StreamBuf σ) Empty α) (sb : StreamBuf σ) (front tail : List UInt8) (a : α)
    (d : Direct) (back rest : ℕ) : Prop :=
  ∃ sb', x.Returns sb a sb' ∧ Reading sb' front tail d back ∧ sb'.get.rest = rest ∧ sb'.size = sb.size

/-- The number of characters that are left in front of the next one when the area has been filled. -/
def backFilled (sb : StreamBuf σ) (d : Direct) (back : ℕ) : ℕ :=
  if 0 < sb.get.rest then back
  else if d.body.length ≤ d.pos then min back (sb.get.stop - sb.gbase)
  else min back pbacksize

/-- The number of characters that the area has when it has been filled. -/
def restFilled (sb : StreamBuf σ) (d : Direct) : ℕ :=
  if 0 < sb.get.rest then sb.get.rest else min sb.size (d.body.length - d.pos)

variable {sb : StreamBuf σ} {front tail : List UInt8} {d : Direct} {back : ℕ}

/-- Nothing is done to turn to reading. -/
theorem Reading.setin (h : Reading sb front tail d back) (env : SeqImpl.Env σ) : (StreamBuf.setin env).Returns sb true sb := by
  apply (Call.returns_read _).bind
  dsimp only
  rw [if_pos h.state]
  exact Call.returns_pure _ _

/-- A character of the get area is looked at. -/
theorem Reading.current (h : Reading sb front tail d back) (hrest : 0 < sb.get.rest) :
    (Call.access sb.chars[sb.get.next]? >>= fun c => pure (some c) : Call (StreamBuf σ) Empty (Option UInt8)).Returns sb
      d.body[d.pos]? sb ∧ d.pos < d.body.length := by
  have hleft := h.left hrest
  have hin : d.pos < d.body.length := by omega
  have hfirst := h.ahead 0 hrest
  rw [Nat.add_zero, Nat.add_zero, List.getElem?_eq_getElem hin] at hfirst
  rw [List.getElem?_eq_getElem hin]
  exact ⟨(Call.returns_access hfirst _).bind (Call.returns_pure _ _), hin⟩

/-- The get area is filled unless nothing is left of the body. -/
theorem Reading.refill (h : Reading sb front tail d back) (hrest : sb.get.rest = 0) :
    ReadsTo StreamBuf.refill sb front tail d.body[d.pos]? d (backFilled sb d back) (restFilled sb d) := by
  have hnone : ¬0 < sb.get.rest := by omega
  rw [backFilled, restFilled, if_neg hnone, if_neg hnone]
  rcases Nat.lt_or_ge d.pos d.body.length with hleft | hleft
  · obtain ⟨sb', c, hreturns, hc, hfilled, hsize, hreading⟩ := h.refill_some hrest hleft
    rw [hc, if_neg (by omega)]
    exact ⟨sb', hreturns, hreading, hfilled, hsize⟩
  · obtain ⟨sb', hreturns, hget, hsize, hreading⟩ := h.refill_none hrest hleft
    rw [List.getElem?_eq_none hleft, if_pos hleft]
    refine ⟨sb', hreturns, hreading, ?_, hsize⟩
    rw [hget]
    omega

/-- `underflow` gives the character at the position. -/
theorem Reading.underflow (h : Reading sb front tail d back) (env : SeqImpl.Env σ) :
    ReadsTo (StreamBuf.underflow env) sb front tail d.body[d.pos]? d (backFilled sb d back) (restFilled sb d) := by
  by_cases hrest : 0 < sb.get.rest
  · have hmore : sb.get.next < sb.get.stop := Nat.lt_of_sub_pos hrest
    rw [backFilled, restFilled, if_pos hrest, if_pos hrest]
    refine ⟨sb, (h.setin env).bind ((Call.returns_read _).bind ?_), h, rfl, rfl⟩
    rw [if_pos hmore]
    exact (h.current hrest).1
  · have hnone : sb.get.rest = 0 := by omega
    have hless : ¬sb.get.next < sb.get.stop := fun hlt => hrest (Nat.sub_pos_of_lt hlt)
    obtain ⟨sb', hreturns, hreads⟩ := h.refill hnone
    refine ⟨sb', (h.setin env).bind ((Call.returns_read _).bind ?_), hreads⟩
    rw [if_neg hless]
    exact hreturns

/-- The area is filled if and only if something is left of the body. -/
theorem Reading.filled_iff (h : Reading sb front tail d back) : 0 < restFilled sb d ↔ d.pos < d.body.length := by
  have hleft := h.left
  have hsize := h.framed.pos
  rw [restFilled]
  split_ifs with hrest
  · have := hleft hrest
    omega
  · omega

/-- `uflow` gives the character at the position and moves behind it. -/
theorem Reading.uflow (h : Reading sb front tail d back) (env : SeqImpl.Env σ) :
    ReadsTo (StreamBuf.uflow env) sb front tail d.body[d.pos]? (d.read 1).2
      (backFilled sb d back + min 1 (d.body.length - d.pos)) (restFilled sb d - min 1 (d.body.length - d.pos)) := by
  obtain ⟨sb', hreturns, hreading, hrest, hsize⟩ := h.underflow env
  have hfilled := h.filled_iff
  have hcount := readFrom_length d.body d.pos 1
  rw [Direct.read, hcount]
  rcases Nat.lt_or_ge d.pos d.body.length with hleft | hleft
  · have hone : min 1 (d.body.length - d.pos) = 1 := by omega
    obtain ⟨htake, htaken, -⟩ := hreading.takechars (n := 1) (by omega)
    have hc : d.body[d.pos]? = some d.body[d.pos] := List.getElem?_eq_getElem hleft
    rw [readFrom_one] at htake
    rw [hone]
    rw [hc] at hreturns htake ⊢
    refine ⟨_, hreturns.bind (htake.bind (Call.returns_pure _ _)), htaken, ?_, hsize⟩
    rw [rest_take, hrest]
  · have hzero : min 1 (d.body.length - d.pos) = 0 := by omega
    rw [List.getElem?_eq_none hleft] at hreturns ⊢
    rw [hzero]
    exact ⟨sb', hreturns.bind (Call.returns_pure _ _), hreading, hrest, hsize⟩

/-- `sgetc` gives the character at the position. -/
theorem Reading.sgetc (h : Reading sb front tail d back) (env : SeqImpl.Env σ) :
    ReadsTo (StreamBuf.sgetc env) sb front tail d.body[d.pos]? d (backFilled sb d back) (restFilled sb d) := by
  by_cases hrest : 0 < sb.get.rest
  · have hmore : sb.get.next < sb.get.stop := Nat.lt_of_sub_pos hrest
    rw [backFilled, restFilled, if_pos hrest, if_pos hrest]
    refine ⟨sb, (Call.returns_read _).bind ?_, h, rfl, rfl⟩
    rw [if_pos hmore]
    exact (h.current hrest).1
  · have hless : ¬sb.get.next < sb.get.stop := fun hlt => hrest (Nat.sub_pos_of_lt hlt)
    obtain ⟨sb', hreturns, hreads⟩ := h.underflow env
    refine ⟨sb', (Call.returns_read _).bind ?_, hreads⟩
    rw [if_neg hless]
    exact hreturns

/-- `sbumpc` gives the character at the position and moves behind it. -/
theorem Reading.sbumpc (h : Reading sb front tail d back) (env : SeqImpl.Env σ) :
    ReadsTo (StreamBuf.sbumpc env) sb front tail d.body[d.pos]? (d.read 1).2
      (backFilled sb d back + min 1 (d.body.length - d.pos)) (restFilled sb d - min 1 (d.body.length - d.pos)) := by
  by_cases hrest : 0 < sb.get.rest
  · have hmore : sb.get.next < sb.get.stop := Nat.lt_of_sub_pos hrest
    obtain ⟨htake, htaken, hcount⟩ := h.takechars (n := 1) hrest
    have hone : min 1 (d.body.length - d.pos) = 1 := by rw [← readFrom_length, hcount]
    rw [backFilled, restFilled, if_pos hrest, if_pos hrest, Direct.read, hcount, hone]
    rw [readFrom_one] at htake
    refine ⟨_, (Call.returns_read _).bind ?_, htaken, rest_take _ _, rfl⟩
    dsimp only
    rw [if_pos hmore]
    have hhead : d.body[d.pos]? = d.body[d.pos]?.toList.head? := by
      cases d.body[d.pos]? <;> rfl
    rw [hhead]
    exact htake.bind (Call.returns_pure _ _)
  · have hless : ¬sb.get.next < sb.get.stop := fun hlt => hrest (Nat.sub_pos_of_lt hlt)
    obtain ⟨sb', hreturns, hreads⟩ := h.uflow env
    refine ⟨sb', (Call.returns_read _).bind ?_, hreads⟩
    rw [if_neg hless]
    exact hreturns

/-! ## Blocks -/

/-- The number of characters in front of the next one behind a block, from an empty get area. -/
def backMore (sb : StreamBuf σ) (d : Direct) (back n : ℕ) : ℕ :=
  if sb.size ≤ n then if d.body.length ≤ d.pos then back else 0
  else backFilled sb d back + min n (d.body.length - d.pos)

/-- The number of characters that the area has behind a block, from an empty get area. -/
def restMore (sb : StreamBuf σ) (d : Direct) (n : ℕ) : ℕ :=
  if sb.size ≤ n then 0 else min sb.size (d.body.length - d.pos) - n

/-- A long block is read from the archive, past the get area. -/
theorem Reading.direct (h : Reading sb front tail d back) (hrest : sb.get.rest = 0) {n : ℕ} (hn : n < 2 ^ 32)
    (hcount : (readFrom d.body d.pos n).length < 2 ^ 31) :
    ∃ mar, (StreamBuf.ioread n).Returns sb (((readFrom d.body d.pos n).length : ℤ), readFrom d.body d.pos n)
        { sb with mar } ∧
      Reading { sb with mar } front tail (d.read n).2 (if d.body.length ≤ d.pos ∨ n = 0 then back else 0) := by
  have hmar := h.mar
  rw [hrest, Nat.add_zero] at hmar
  obtain ⟨mar, hreturns, hmar'⟩ := ioread_returns hmar hn hcount
  refine ⟨mar, hreturns, ⟨⟨h.framed.openin, h.framed.openout, h.framed.pos, h.framed.small, h.framed.length⟩, h.state,
    h.put, h.place, ?_, ?_, ?_⟩⟩
  · dsimp only
    rw [hrest]
    exact hmar'
  · intro k hk
    dsimp only at hk
    omega
  · split_ifs with hnone
    · have hempty : (readFrom d.body d.pos n).length = 0 := by
        rw [readFrom_length]
        omega
      have hsame : (d.read n).2 = d := by
        rw [Direct.read, hempty]
        rfl
      rw [hsame]
      exact h.behind
    · exact ⟨Nat.zero_le _, Nat.zero_le _, nofun⟩

/-- What is read behind the characters of the get area. -/
theorem Reading.getmore (h : Reading sb front tail d back) (env : SeqImpl.Env σ) (hrest : sb.get.rest = 0) {n : ℕ}
    (hpos : 0 < n) (hn : n < 2 ^ 32) (hcount : min n (d.body.length - d.pos) < 2 ^ 31) (before : List UInt8) :
    ReadsTo (StreamBuf.getmore env before n) sb front tail (before ++ readFrom d.body d.pos n) (d.read n).2
      (backMore sb d back n) (restMore sb d n) := by
  have hsize := h.framed.pos
  have hlen := readFrom_length d.body d.pos n
  have hgsize := h.framed.gsize
  rw [backMore, restMore]
  by_cases hlong : sb.size ≤ n
  · rw [if_pos hlong, if_pos hlong]
    obtain ⟨mar, hread, hreading⟩ := h.direct hrest hn (by omega)
    have hcond : (d.body.length ≤ d.pos ∨ n = 0) ↔ d.body.length ≤ d.pos := by omega
    simp only [hcond] at hreading
    refine ⟨{ sb with mar }, (Call.returns_read _).bind ?_, hreading, hrest, rfl⟩
    dsimp only
    rw [if_pos (by omega)]
    apply hread.bind
    dsimp only
    have hall : (before ++ readFrom d.body d.pos n).take
        ((before.length : ℤ) + (readFrom d.body d.pos n).length).toNat = before ++ readFrom d.body d.pos n := by
      apply List.take_of_length_le
      rw [List.length_append]
      omega
    rw [if_neg (by omega), hall]
    exact Call.returns_pure _ _
  · rw [if_neg hlong, if_neg hlong]
    obtain ⟨sb', hreturns, hreading, hrest', hsize'⟩ := h.uflow env
    have hfilled : restFilled sb d = min sb.size (d.body.length - d.pos) := if_neg (by omega)
    rw [hfilled] at hrest'
    have hfirst := readFrom_length d.body d.pos 1
    rw [Direct.read, hfirst] at hreading
    rcases Nat.lt_or_ge d.pos d.body.length with hleft | hleft
    · obtain ⟨m, rfl⟩ : ∃ m, n = m + 1 := ⟨n - 1, by omega⟩
      have hone : min 1 (d.body.length - d.pos) = 1 := by omega
      rw [hone] at hreading hrest'
      have hc : d.body[d.pos]? = some d.body[d.pos] := List.getElem?_eq_getElem hleft
      have hrest'' : min m sb'.get.rest ≤ sb'.get.rest := Nat.min_le_right _ _
      obtain ⟨htake, htaken, hcount'⟩ := hreading.takechars hrest''
      have hsame : readFrom d.body (d.pos + 1) (min m sb'.get.rest) = readFrom d.body (d.pos + 1) m :=
        readFrom_min (by omega)
      have hlast : d.pos + 1 + min m sb'.get.rest = d.pos + (readFrom d.body d.pos (m + 1)).length := by omega
      have hback : backFilled sb d back + 1 + min m sb'.get.rest =
          backFilled sb d back + min (m + 1) (d.body.length - d.pos) := by omega
      rw [hc] at hreturns
      rw [hsame] at htake
      rw [hback] at htaken
      dsimp only at htaken
      rw [hlast] at htaken
      refine ⟨_, (Call.returns_read _).bind ?_, htaken, ?_, hsize'⟩
      · dsimp only
        rw [if_neg (by omega), readFrom_succ hc]
        exact hreturns.bind ((Call.returns_read _).bind (htake.bind (Call.returns_pure _ _)))
      · rw [rest_take]
        omega
    · have hnone : min 1 (d.body.length - d.pos) = 0 := by omega
      have hempty : min n (d.body.length - d.pos) = 0 := by omega
      rw [hnone] at hreading hrest'
      rw [List.getElem?_eq_none hleft] at hreturns
      rw [Direct.read, hlen, hempty, readFrom_behind hleft, List.append_nil]
      refine ⟨sb', (Call.returns_read _).bind ?_, hreading, by omega, hsize'⟩
      dsimp only
      rw [if_neg (by omega)]
      exact hreturns.bind (Call.returns_pure _ _)

/-- The stream buffer behind all characters of its get area. -/
def StreamBuf.drained (sb : StreamBuf σ) : StreamBuf σ :=
  { sb with get := { sb.get with next := sb.get.next + sb.get.rest } }

/-- The number of characters in front of the next one behind a block. -/
def backBlock (sb : StreamBuf σ) (d : Direct) (back n : ℕ) : ℕ :=
  if n ≤ sb.get.rest then back + n
  else backMore sb.drained { d with pos := d.pos + sb.get.rest } (back + sb.get.rest) (n - sb.get.rest)

/-- The number of characters that the area has behind a block. -/
def restBlock (sb : StreamBuf σ) (d : Direct) (n : ℕ) : ℕ :=
  if n ≤ sb.get.rest then sb.get.rest - n
  else restMore sb.drained { d with pos := d.pos + sb.get.rest } (n - sb.get.rest)

/-- `xsgetn` gives the characters from the position on, and moves behind them. -/
theorem Reading.xsgetn (h : Reading sb front tail d back) (env : SeqImpl.Env σ) {n : ℕ} (hpos : n ≠ 0)
    (hn : n - sb.get.rest < 2 ^ 32)
    (hcount : min (n - sb.get.rest) (d.body.length - (d.pos + sb.get.rest)) < 2 ^ 31) :
    ReadsTo (StreamBuf.xsgetn env n) sb front tail (readFrom d.body d.pos n) (d.read n).2 (backBlock sb d back n)
      (restBlock sb d n) := by
  rw [backBlock, restBlock]
  by_cases hall : n ≤ sb.get.rest
  · obtain ⟨htake, htaken, hlen⟩ := h.takechars hall
    have hmin : min n sb.get.rest = n := Nat.min_eq_left hall
    rw [if_pos hall, if_pos hall, Direct.read, hlen]
    refine ⟨_, ?_, htaken, rest_take _ _, rfl⟩
    rw [StreamBuf.xsgetn, if_neg hpos]
    apply (h.setin env).bind
    rw [if_pos rfl]
    apply (Call.returns_read _).bind
    dsimp only
    rw [hmin, Nat.sub_self]
    apply htake.bind
    rw [if_pos rfl]
    exact Call.returns_pure _ _
  · obtain ⟨htake, htaken, hlen⟩ := h.takechars (le_refl sb.get.rest)
    have hmin : min n sb.get.rest = sb.get.rest := Nat.min_eq_right (by omega)
    have hdrained : sb.drained.get.rest = 0 := by
      rw [StreamBuf.drained, rest_take, Nat.sub_self]
    obtain ⟨sb', hmore, hreading, hrest, hsize⟩ :=
      Reading.getmore htaken env hdrained (n := n - sb.get.rest) (by omega) hn hcount (readFrom d.body d.pos sb.get.rest)
    have hcut : readFrom d.body d.pos n =
        readFrom d.body d.pos sb.get.rest ++ readFrom d.body (d.pos + sb.get.rest) (n - sb.get.rest) := by
      rw [← readFrom_add]
      congr 1
      omega
    have hlast : (d.read n).2 = (Direct.read { d with pos := d.pos + sb.get.rest } (n - sb.get.rest)).2 := by
      rw [Direct.read, Direct.read, hcut, List.length_append, hlen, Nat.add_assoc]
    rw [if_neg hall, if_neg hall, hlast, hcut]
    refine ⟨sb', ?_, hreading, hrest, hsize⟩
    rw [StreamBuf.xsgetn, if_neg hpos]
    apply (h.setin env).bind
    rw [if_pos rfl]
    apply (Call.returns_read _).bind
    dsimp only
    rw [hmin]
    apply htake.bind
    rw [if_neg (by omega)]
    exact hmore

/-! ## Put-backs -/

/-- The character in front of the position. -/
theorem Reading.last (h : Reading sb front tail d back) (hback : 0 < back) :
    ∃ c, d.last = some c ∧ sb.chars[sb.get.next - 1]? = some c ∧ sb.get.start < sb.get.next := by
  have hplace := h.place
  have hnext := hplace.next
  have hhigh := hplace.high
  have hlength := h.framed.length
  have hroom := h.behind.room
  have hpos := h.behind.pos
  have hsame := h.behind.same 0 hback
  have hin : sb.get.next - 1 < sb.chars.length := by omega
  rw [Nat.sub_zero, Nat.sub_zero, List.getElem?_eq_getElem hin] at hsame
  refine ⟨sb.chars[sb.get.next - 1], ?_, List.getElem?_eq_getElem hin, by omega⟩
  rw [Direct.last, if_pos (by omega)]
  exact hsame.symm

/-- `sungetc` gives the character in front of the position, and moves in front of it. -/
theorem Reading.sungetc (h : Reading sb front tail d back) (hback : 0 < back) :
    ReadsTo StreamBuf.sungetc sb front tail d.last { d with pos := d.pos - 1 } (back - 1) (sb.get.rest + 1) := by
  obtain ⟨c, hlast, hchar, hstart⟩ := h.last hback
  have hplace := h.place
  have hlow := hplace.low
  have hnext := hplace.next
  have hroom := h.behind.room
  have hpos := h.behind.pos
  have hsame := h.behind.same
  have hrest : sb.get.rest = sb.get.stop - sb.get.next := rfl
  have hmore : ({ sb.get with next := sb.get.next - 1 } : Area).rest = sb.get.rest + 1 := by
    rw [Area.rest]
    dsimp only
    omega
  refine ⟨{ sb with get := { sb.get with next := sb.get.next - 1 } }, (Call.returns_read _).bind ?_, ⟨⟨h.framed.openin,
    h.framed.openout, h.framed.pos, h.framed.small, h.framed.length⟩, h.state, h.put, ⟨hplace.low, hplace.start,
    hplace.base, hplace.high, ?_, ?_⟩, ?_, ?_, ⟨?_, ?_, ?_⟩⟩, hmore, rfl⟩
  · rw [if_pos hstart, hlast]
    exact (Call.returns_access hchar _).bind ((Call.returns_modify _ _).bind (Call.returns_pure _ _))
  · dsimp only
    omega
  · dsimp only
    omega
  · have hstays : d.pos - 1 + (sb.get.rest + 1) = d.pos + sb.get.rest := by omega
    dsimp only
    rw [hmore, hstays]
    exact h.mar
  · intro k hk
    dsimp only at hk ⊢
    rw [hmore] at hk
    cases k with
    | zero => exact hsame 0 hback
    | succ k =>
      have harea : sb.get.next - 1 + (k + 1) = sb.get.next + k := by omega
      have hbody : d.pos - 1 + (k + 1) = d.pos + k := by omega
      rw [harea, hbody]
      exact h.ahead k (by omega)
  · dsimp only
    omega
  · dsimp only
    omega
  · intro k hk
    dsimp only
    have harea : sb.get.next - 1 - 1 - k = sb.get.next - 1 - (k + 1) := by omega
    have hbody : d.pos - 1 - 1 - k = d.pos - 1 - (k + 1) := by omega
    rw [harea, hbody]
    exact hsame (k + 1) (by omega)

/-- `sputbackc` gives the character in front of the position if it is the one that is put back. -/
theorem Reading.sputbackc (h : Reading sb front tail d back) (hback : 0 < back) (c : UInt8) :
    if d.last = some c then
      ReadsTo (StreamBuf.sputbackc c) sb front tail (some c) { d with pos := d.pos - 1 } (back - 1) (sb.get.rest + 1)
    else (StreamBuf.sputbackc c).Returns sb none sb := by
  obtain ⟨last, hlast, hchar, hstart⟩ := h.last hback
  split_ifs with hsame
  · obtain ⟨sb', hreturns, hreads⟩ := h.sungetc hback
    have heq : last = c := Option.some.inj (hlast.symm.trans hsame)
    rw [hsame] at hreturns
    refine ⟨sb', (Call.returns_read _).bind ?_, hreads⟩
    rw [if_pos hstart]
    apply (Call.returns_access hchar _).bind
    rw [if_pos heq]
    exact hreturns
  · apply (Call.returns_read _).bind
    rw [if_pos hstart]
    apply (Call.returns_access hchar _).bind
    have hother : ¬last = c := fun heq => hsame (hlast.trans (congrArg some heq))
    rw [if_neg hother]
    exact Call.returns_pure _ _

end Aug.Marpp
