import Aug.Marpp.StreamGet
import Aug.Marpp.StreamWriting

/-!
# Stream buffers that agree with direct access

A stream buffer is in step with the body and its position in one of three ways: it is reading there, the archive is
there itself, or it is writing what is still to be written there. Each call that does not stray gives the characters
that it should, and leaves the stream buffer in step.
-/

namespace Aug.Marpp

open Lib Mar

variable {σ : Type} [SizedSeq σ]

/-- The stream buffer is in step with the body and its position. -/
inductive InStep (front tail : List UInt8) (sb : StreamBuf σ) (d : Direct) (h : History) : Prop
  | reading (hreading : Reading sb front tail d h.back) (hsought : h.sought = true → sb.get.rest = 0 ∧ h.back = 0)
  | apart (hapart : Apart sb front tail d) (hback : h.back = 0) (hsought : h.sought = false → sb.area.rest = 0)
  | writing (base : Direct) (waits : List UInt8) (hwriting : Writing sb front tail base waits)
    (hdirect : base.write waits = d) (hback : h.back = 0) (hsought : h.sought = false → sb.gsaved.rest = 0)

variable {env : SeqImpl.Env σ} {front tail : List UInt8} {sb : StreamBuf σ} {d : Direct} {h : History}

/-- A call that gives what it should and leaves the stream buffer in step. -/
def Agrees {α : Type} (x : Call (StreamBuf σ) Empty α) (front tail : List UInt8) (sb : StreamBuf σ) (a : α) (d : Direct)
    (h : History) : Prop :=
  ∃ sb', x.Returns sb a sb' ∧ InStep front tail sb' d h

/-- What has been read to is in step. -/
theorem ReadsTo.agrees {α : Type} {x : Call (StreamBuf σ) Empty α} {a : α} {back rest : ℕ}
    (hreads : ReadsTo x sb front tail a d back rest) (hback : h.back = back)
    (hsought : h.sought = true → rest = 0 ∧ back = 0) : Agrees x front tail sb a d h := by
  obtain ⟨sb', hreturns, hreading, rfl, -⟩ := hreads
  subst hback
  exact ⟨sb', hreturns, .reading hreading hsought⟩

/-- The same result from another state. -/
theorem Agrees.of_eq {α : Type} {x y : Call (StreamBuf σ) Empty α} {sb' : StreamBuf σ} {a : α}
    (hagrees : Agrees y front tail sb' a d h) (heq : x sb = y sb') : Agrees x front tail sb a d h := by
  obtain ⟨last, hreturns, hstep⟩ := hagrees
  exact ⟨last, Eq.trans heq hreturns, hstep⟩

/-- What is made of the result. -/
theorem Agrees.map {α β : Type} {x : Call (StreamBuf σ) Empty α} {a : α} (hagrees : Agrees x front tail sb a d h)
    (f : α → β) : Agrees (x >>= fun a => pure (f a)) front tail sb (f a) d h := by
  obtain ⟨last, hreturns, hstep⟩ := hagrees
  exact ⟨last, hreturns.bind (Call.returns_pure _ _), hstep⟩

/-! ## Turning to reading -/

/-- The stream buffer in step has turned to reading. -/
structure Turned (env : SeqImpl.Env σ) (front tail : List UInt8) (sb sb' : StreamBuf σ) (d : Direct) (h : History) :
    Prop where
  set : (StreamBuf.setin env).Returns sb true sb'
  reading : Reading sb' front tail d h.back
  get : sb'.get = sb.area
  gbase : sb'.gbase = sb.gbase
  size : sb'.size = sb.size
  sought : h.sought = true → sb'.get.rest = 0 ∧ h.back = 0
  same : sb.state = .get → sb' = sb
  null : ¬sb.state = .get → sb.get = .null

/-- Turning to reading is possible where a seek has not passed the get area by. -/
theorem InStep.turned (hstep : InStep front tail sb d h) (hgrant : GrantsAll env)
    (hfresh : ¬(h.sought = true ∧ 0 < sb.area.rest)) : ∃ sb', Turned env front tail sb sb' d h := by
  have hnone (hsought : h.sought = false → sb.area.rest = 0) : sb.area.rest = 0 := by
    cases hmode : h.sought with
    | false => exact hsought hmode
    | true =>
      by_contra hrest
      exact hfresh ⟨hmode, Nat.pos_of_ne_zero hrest⟩
  cases hstep with
  | reading hreading hsought =>
    exact ⟨sb, hreading.setin env, hreading, (area_get hreading.state).symm, rfl, rfl, hsought, fun _ => rfl,
      fun hother => absurd hreading.state hother⟩
  | apart hapart hback hsought =>
    obtain ⟨sb', hset, hreading, hget, hsize, hsame⟩ := hapart.setin env (hnone hsought)
    have hgbase : sb'.gbase = sb.gbase := by rw [hreading.framed.gbase, hapart.framed.gbase, hsize]
    refine ⟨sb', hset, ?_, hget, hgbase, hsize, fun _ => ⟨?_, hback⟩, hsame, ?_⟩
    · rw [hback]
      exact hreading
    · rw [hget]
      exact hnone hsought
    · intro hother
      cases hstate : sb.state with
      | neutral => exact hapart.get hstate
      | get => exact absurd hstate hother
      | put => exact absurd hstate hapart.state
  | writing base waits hwriting hdirect hback hsought =>
    have hother : ¬sb.state = .get := by
      rw [hwriting.state]
      decide
    rw [area_saved hother] at hnone
    obtain ⟨sb', hset, hreading, hget, hsize⟩ := hwriting.setin hgrant (hnone hsought)
    have hgbase : sb'.gbase = sb.gbase := by rw [hreading.framed.gbase, hwriting.framed.gbase, hsize]
    refine ⟨sb', hset, ?_, hget.trans (area_saved hother).symm, hgbase, hsize, fun _ => ⟨?_, hback⟩,
      fun hget => absurd hget hother, fun _ => hwriting.get⟩
    · rw [hback, ← hdirect]
      exact hreading
    · rw [hget]
      exact hnone hsought

variable {sb' : StreamBuf σ}

/-- `underflow` first turns to reading. -/
theorem Turned.underflow (hturned : Turned env front tail sb sb' d h) :
    StreamBuf.underflow env sb = StreamBuf.underflow env sb' :=
  Call.bind_eq_of (hturned.set.trans (hturned.reading.setin env).symm) _

/-- Without a get area a character is read by `underflow`. -/
theorem sgetc_null (hget : sb.get = .null) : StreamBuf.sgetc env sb = StreamBuf.underflow env sb := by
  apply ((Call.returns_read sb).bind_eq _).trans
  rw [hget, if_neg (by decide)]

/-- Without a get area a character is taken by `uflow`. -/
theorem sbumpc_null (hget : sb.get = .null) : StreamBuf.sbumpc env sb = StreamBuf.uflow env sb := by
  apply ((Call.returns_read sb).bind_eq _).trans
  rw [hget, if_neg (by decide)]

/-- `xsgetn` first turns to reading. -/
theorem Turned.xsgetn (hturned : Turned env front tail sb sb' d h) {n : ℕ} (hn : n ≠ 0) :
    StreamBuf.xsgetn env n sb = StreamBuf.xsgetn env n sb' := by
  rw [StreamBuf.xsgetn, if_neg hn]
  exact Call.bind_eq_of (hturned.set.trans (hturned.reading.setin env).symm) _

/-! ## Reading -/

variable {t : Tracked σ}

/-- The history behind filling the area is that of the stream buffer that has turned to reading. -/
theorem Turned.refilled (hturned : Turned env front tail t.sb sb' t.direct t.history) :
    (if 0 < t.sb.area.rest then t.history else t.refilled).back = backFilled sb' t.direct t.history.back ∧
      ((if 0 < t.sb.area.rest then t.history else t.refilled).sought = true →
        restFilled sb' t.direct = 0 ∧ backFilled sb' t.direct t.history.back = 0) := by
  have hsought := hturned.sought
  rw [backFilled, restFilled, hturned.get, hturned.gbase]
  rw [hturned.get] at hsought
  by_cases hrest : 0 < t.sb.area.rest
  · rw [if_pos hrest, if_pos hrest, if_pos hrest]
    exact ⟨rfl, hsought⟩
  · have hleft : t.left = t.direct.body.length - t.direct.pos := by
      rw [Tracked.left]
      omega
    rw [if_neg hrest, if_neg hrest, if_neg hrest, Tracked.refilled, hleft, History.refill]
    by_cases hnone : t.direct.body.length ≤ t.direct.pos
    · rw [if_pos (by omega), if_pos hnone]
      refine ⟨rfl, fun hpassed => ?_⟩
      have := (hsought hpassed).2
      omega
    · rw [if_neg (by omega), if_neg hnone]
      refine ⟨rfl, fun hpassed => ?_⟩
      cases hpassed

/-- A character is looked at. -/
theorem agrees_sgetc (hstep : InStep front tail t.sb t.direct t.history) (hgrant : GrantsAll env)
    (hnot : ¬t.Strays .sgetc) :
    Agrees (StreamOp.sgetc.call env) front tail t.sb (t.direct.step .sgetc).1 (t.direct.step .sgetc).2
      (t.next .sgetc) := by
  obtain ⟨sb', hturned⟩ := hstep.turned hgrant hnot
  obtain ⟨hback, hpassed⟩ := hturned.refilled
  have hchar : (t.direct.step .sgetc).1 = t.direct.body[t.direct.pos]?.toList := readFrom_one _ _
  rw [hchar]
  apply Agrees.map
  by_cases hstate : t.sb.state = .get
  · rw [← hturned.same hstate]
    exact (hturned.reading.sgetc env).agrees hback hpassed
  · apply ((hturned.reading.underflow env).agrees hback hpassed).of_eq
    rw [sgetc_null (hturned.null hstate)]
    exact hturned.underflow

/-- A character is read. -/
theorem agrees_sbumpc (hstep : InStep front tail t.sb t.direct t.history) (hgrant : GrantsAll env)
    (hnot : ¬t.Strays .sbumpc) :
    Agrees (StreamOp.sbumpc.call env) front tail t.sb (t.direct.step .sbumpc).1 (t.direct.step .sbumpc).2
      (t.next .sbumpc) := by
  obtain ⟨sb', hturned⟩ := hstep.turned hgrant hnot
  have hfilled := hturned.reading.filled_iff
  obtain ⟨hback, hpassed⟩ := hturned.refilled
  have hchar : (t.direct.step .sbumpc).1 = t.direct.body[t.direct.pos]?.toList := readFrom_one _ _
  have hnext : t.next .sbumpc = (if 0 < t.sb.area.rest then t.history else t.refilled).take
      (min 1 (t.direct.body.length - t.direct.pos)) := by
    have hleft := hturned.reading.left
    rw [hturned.get] at hleft
    rw [Tracked.next]
    by_cases hrest : 0 < t.sb.area.rest
    · have hone : min 1 (t.direct.body.length - t.direct.pos) = 1 := by
        have := hleft hrest
        omega
      rw [if_pos hrest, if_pos hrest, hone]
    · rw [if_neg hrest, if_neg hrest, Tracked.left]
      by_cases hnone : t.direct.body.length - (t.direct.pos + t.sb.area.rest) = 0
      · have hzero : min 1 (t.direct.body.length - t.direct.pos) = 0 := by omega
        rw [if_pos hnone, hzero]
        rfl
      · have hone : min 1 (t.direct.body.length - t.direct.pos) = 1 := by omega
        rw [if_neg hnone, hone]
  have hcount : (t.next .sbumpc).back =
      backFilled sb' t.direct t.history.back + min 1 (t.direct.body.length - t.direct.pos) := by
    rw [hnext, History.take, hback]
  have hsought : (t.next .sbumpc).sought = true →
      restFilled sb' t.direct - min 1 (t.direct.body.length - t.direct.pos) = 0 ∧
        backFilled sb' t.direct t.history.back + min 1 (t.direct.body.length - t.direct.pos) = 0 := by
    rw [hnext]
    intro hpast
    obtain ⟨hrest, hzero⟩ := hpassed hpast
    omega
  rw [hchar]
  apply Agrees.map
  by_cases hstate : t.sb.state = .get
  · rw [← hturned.same hstate]
    exact (hturned.reading.sbumpc env).agrees hcount hsought
  · apply ((hturned.reading.uflow env).agrees hcount hsought).of_eq
    rw [sbumpc_null (hturned.null hstate)]
    exact Call.bind_eq_of hturned.underflow _

/-- The history behind a block is that of the stream buffer that has turned to reading. -/
theorem Turned.block (hturned : Turned env front tail t.sb sb' t.direct t.history) {n : ℕ} (hn : n ≠ 0) :
    (t.next (.sgetn n)).back = backBlock sb' t.direct t.history.back n ∧
      ((t.next (.sgetn n)).sought = true →
        restBlock sb' t.direct n = 0 ∧ backBlock sb' t.direct t.history.back n = 0) := by
  have hsought := hturned.sought
  have hdrained : sb'.drained.get.rest = 0 := by rw [StreamBuf.drained, rest_take, Nat.sub_self]
  have hsize : sb'.drained.size = t.sb.size := hturned.size
  have hstop : sb'.drained.get.stop - sb'.drained.gbase = t.sb.area.stop - t.sb.gbase := by
    rw [← hturned.get, ← hturned.gbase]
    rfl
  rw [backBlock, restBlock, backMore, restMore, backFilled, hdrained, hsize, hstop, hturned.get, Tracked.next, Tracked.left]
  rw [hturned.get] at hsought
  dsimp only
  by_cases hall : n ≤ t.sb.area.rest
  · rw [if_pos hall, if_pos hall, if_pos hall, Nat.min_eq_left hall]
    refine ⟨rfl, fun hpassed => ?_⟩
    have := (hsought hpassed).1
    omega
  · rw [if_neg hall, if_neg hall, if_neg hall, Nat.min_eq_right (by omega)]
    by_cases hlong : t.sb.size ≤ n - t.sb.area.rest
    · rw [if_pos hlong, if_pos hlong, if_pos hlong]
      by_cases hnone : t.direct.body.length ≤ t.direct.pos + t.sb.area.rest
      · rw [if_pos (by omega), if_pos hnone]
        refine ⟨rfl, fun hpassed => ⟨rfl, ?_⟩⟩
        obtain ⟨hrest, hback⟩ := hsought hpassed
        omega
      · rw [if_neg (by omega), if_neg hnone]
        exact ⟨rfl, fun _ => ⟨rfl, rfl⟩⟩
    · rw [if_neg hlong, if_neg hlong, if_neg hlong, if_neg (Nat.lt_irrefl 0), History.refill]
      by_cases hnone : t.direct.body.length ≤ t.direct.pos + t.sb.area.rest
      · rw [if_pos (by omega), if_pos hnone]
        refine ⟨by simp only [History.take]; omega, fun hpassed => ?_⟩
        obtain ⟨hrest, hback⟩ := hsought hpassed
        omega
      · rw [if_neg (by omega), if_neg hnone]
        refine ⟨by simp only [History.take]; omega, fun hpassed => ?_⟩
        cases hpassed

/-- Characters are read. -/
theorem agrees_sgetn (hstep : InStep front tail t.sb t.direct t.history) (hgrant : GrantsAll env) (n : ℕ)
    (hnot : ¬t.Strays (.sgetn n)) :
    Agrees ((StreamOp.sgetn n).call env) front tail t.sb (t.direct.step (.sgetn n)).1 (t.direct.step (.sgetn n)).2
      (t.next (.sgetn n)) := by
  by_cases hn : n = 0
  · subst hn
    have hnext : t.next (.sgetn 0) = t.history := by
      simp [Tracked.next, History.take]
    rw [hnext]
    exact ⟨t.sb, Call.returns_pure _ _, hstep⟩
  · have hkeeps : ¬(t.Stale ∨ 2 ^ 32 ≤ n - t.sb.area.rest ∨ 2 ^ 31 ≤ min (n - t.sb.area.rest) t.left) :=
      fun hstrays => hnot ⟨hn, hstrays⟩
    rw [not_or, not_or, not_le, not_le] at hkeeps
    obtain ⟨hfresh, hlong, hcount⟩ := hkeeps
    obtain ⟨sb', hturned⟩ := hstep.turned hgrant hfresh
    obtain ⟨hback, hpassed⟩ := hturned.block hn
    rw [Tracked.left, ← hturned.get] at hcount
    rw [← hturned.get] at hlong
    exact ((hturned.reading.xsgetn env hn hlong hcount).agrees hback hpassed).of_eq (hturned.xsgetn hn)

/-! ## Put-backs -/

/-- Where something can be put back the stream buffer is reading. -/
theorem InStep.behind (hstep : InStep front tail sb d h) (hback : ¬h.back = 0) :
    Reading sb front tail d h.back ∧ h.sought = false := by
  cases hstep with
  | reading hreading hsought =>
    refine ⟨hreading, ?_⟩
    cases hmode : h.sought with
    | false => rfl
    | true => exact absurd (hsought hmode).2 hback
  | apart hapart hnone hsought => exact absurd hnone hback
  | writing base waits hwriting hdirect hnone hsought => exact absurd hnone hback

/-- The last character is put back. -/
theorem agrees_sungetc (hstep : InStep front tail t.sb t.direct t.history) (hnot : ¬t.Strays .sungetc) :
    Agrees ((StreamOp.sungetc).call env) front tail t.sb (t.direct.step .sungetc).1 (t.direct.step .sungetc).2
      (t.next .sungetc) := by
  obtain ⟨hreading, hfresh⟩ := hstep.behind hnot
  have hback : 0 < t.history.back := Nat.pos_of_ne_zero hnot
  obtain ⟨c, hlast, -, -⟩ := hreading.last hback
  have hsought : (t.next .sungetc).sought = false := hfresh
  have hstep' : t.direct.step .sungetc = (t.direct.last.toList, { t.direct with pos := t.direct.pos - 1 }) := by
    rw [Direct.step, hlast]
    rfl
  rw [hstep']
  apply Agrees.map
  apply (hreading.sungetc hback).agrees rfl
  intro hpassed
  rw [hsought] at hpassed
  cases hpassed

/-- A character is put back if it is the last one. -/
theorem agrees_sputbackc (hstep : InStep front tail t.sb t.direct t.history) (c : UInt8) (hnot : ¬t.Strays (.sputbackc c)) :
    Agrees ((StreamOp.sputbackc c).call env) front tail t.sb (t.direct.step (.sputbackc c)).1
      (t.direct.step (.sputbackc c)).2 (t.next (.sputbackc c)) := by
  obtain ⟨hreading, hfresh⟩ := hstep.behind hnot
  have hback : 0 < t.history.back := Nat.pos_of_ne_zero hnot
  have hput := hreading.sputbackc hback c
  rw [Direct.step, Tracked.next]
  split_ifs at hput ⊢ with hlast
  · have hagrees : Agrees (StreamBuf.sputbackc c) front tail t.sb (some c) { t.direct with pos := t.direct.pos - 1 }
        { t.history with back := t.history.back - 1 } := by
      apply hput.agrees rfl
      intro hpassed
      rw [hfresh] at hpassed
      cases hpassed
    exact hagrees.map Option.toList
  · have hagrees : Agrees (StreamBuf.sputbackc c) front tail t.sb none t.direct t.history := ⟨t.sb, hput, hstep⟩
    exact hagrees.map Option.toList

/-! ## Writing -/

/-- What has been written to is in step. -/
theorem WritesTo.agrees {α : Type} {x : Call (StreamBuf σ) Empty α} {gsaved : Area}
    (hwrites : WritesTo x sb front tail d gsaved) (hback : h.back = 0)
    (hsought : h.sought = false → gsaved.rest = 0) :
    Agrees (x >>= fun _ => pure ([] : List UInt8)) front tail sb [] d h := by
  obtain ⟨a, last, base, waits, hreturns, hwriting, hdirect, rfl⟩ := hwrites
  exact ⟨last, hreturns.bind (Call.returns_pure _ _), .writing base waits hwriting hdirect hback hsought⟩

/-- The size of the archive without its body is that of what is around the body. -/
theorem InStep.overhead (hstep : InStep front tail t.sb t.direct t.history) :
    t.overhead = front.length + tail.length := by
  cases hstep with
  | reading hreading hsought => exact hreading.mar.overhead
  | apart hapart hback hsought => exact hapart.mar.overhead
  | writing base waits hwriting hdirect hback hsought => exact hwriting.mar.overhead

/-- What is written without straying fits. -/
theorem InStep.fits (hstep : InStep front tail t.sb t.direct t.history) {bytes : List UInt8}
    (hnot : ¬t.StraysWriting bytes.length) (hsome : bytes ≠ []) :
    front.length + (t.direct.write bytes).body.length + tail.length < 2 ^ 32 := by
  have hlarge : ¬2 ^ 32 ≤ t.overhead + max t.direct.body.length (t.direct.pos + bytes.length) :=
    fun hlarge => hnot (.inr hlarge)
  rw [hstep.overhead] at hlarge
  rw [Direct.write_size, if_neg hsome]
  omega

/-- Writing without straying begins where the archive is, or goes on. -/
theorem InStep.output (hstep : InStep front tail t.sb t.direct t.history) {n : ℕ} (hnot : ¬t.StraysWriting n) :
    (Apart t.sb front tail t.direct ∨
        ∃ base waits, Writing t.sb front tail base waits ∧ base.write waits = t.direct) ∧
      (t.history.sought = false → t.sb.area.rest = 0) := by
  cases hstep with
  | reading hreading hsought =>
    have hrest : t.sb.get.rest = 0 := by
      by_contra hrest
      cases hmode : t.history.sought with
      | false =>
        apply hnot
        left
        rw [area_get hreading.state]
        exact ⟨hreading.state, hmode, Nat.pos_of_ne_zero hrest⟩
      | true => exact hrest (hsought hmode).1
    refine ⟨.inl (hreading.apart hrest), fun _ => ?_⟩
    rw [area_get hreading.state]
    exact hrest
  | apart hapart hback hsought => exact ⟨.inl hapart, hsought⟩
  | writing base waits hwriting hdirect hback hsought =>
    have hother : ¬t.sb.state = .get := by
      rw [hwriting.state]
      decide
    rw [area_saved hother]
    exact ⟨.inr ⟨base, waits, hwriting, hdirect⟩, hsought⟩

/-- A character is written. -/
theorem agrees_sputc (hstep : InStep front tail t.sb t.direct t.history) (hgrant : GrantsAll env) (c : UInt8)
    (hnot : ¬t.Strays (.sputc c)) :
    Agrees ((StreamOp.sputc c).call env) front tail t.sb (t.direct.step (.sputc c)).1 (t.direct.step (.sputc c)).2
      (t.next (.sputc c)) := by
  have hone : ¬t.StraysWriting [c].length := hnot
  have hfits := hstep.fits hone (List.cons_ne_nil _ _)
  obtain ⟨hapart | ⟨base, waits, hwriting, hdirect⟩, hsought⟩ := hstep.output hnot
  · exact (hapart.sputc hgrant hfits).agrees rfl hsought
  · have hother : ¬t.sb.state = .get := by
      rw [hwriting.state]
      decide
    have hcall : (t.direct.step (.sputc c)).2 = (base.write waits).write [c] := by
      rw [hdirect]
      rfl
    rw [← hdirect] at hfits
    rw [area_saved hother] at hsought
    rw [hcall]
    exact (hwriting.sputc hgrant hfits).agrees rfl hsought

/-- Characters are written. -/
theorem agrees_sputn (hstep : InStep front tail t.sb t.direct t.history) (hgrant : GrantsAll env) (bytes : List UInt8)
    (hnot : ¬t.Strays (.sputn bytes)) :
    Agrees ((StreamOp.sputn bytes).call env) front tail t.sb (t.direct.step (.sputn bytes)).1
      (t.direct.step (.sputn bytes)).2 (t.next (.sputn bytes)) := by
  by_cases hsome : bytes = []
  · subst hsome
    exact ⟨t.sb, Call.returns_pure _ _, by simpa [Direct.step, Tracked.next] using hstep⟩
  · have hkeeps : ¬t.StraysWriting bytes.length := fun hstrays => hnot ⟨hsome, hstrays⟩
    have hfits := hstep.fits hkeeps hsome
    have hnext : t.next (.sputn bytes) = { t.history with back := 0 } := if_neg hsome
    obtain ⟨houtput, hsought⟩ := hstep.output hkeeps
    obtain ⟨sb', base, waits, hset, hwriting, hdirect, hsaved⟩ : ∃ sb' base waits,
        StreamBuf.setout.Returns t.sb true sb' ∧ Writing sb' front tail base waits ∧ base.write waits = t.direct ∧
          sb'.gsaved = t.sb.area := by
      rcases houtput with hapart | ⟨base, waits, hwriting, hdirect⟩
      · obtain ⟨sb', hset, hwriting, hsaved⟩ := hapart.setout
        exact ⟨sb', t.direct, [], hset, hwriting, Direct.write_nil _, hsaved⟩
      · have hother : ¬t.sb.state = .get := by
          rw [hwriting.state]
          decide
        exact ⟨t.sb, base, waits, hwriting.setout, hwriting, hdirect, (area_saved hother).symm⟩
    have hcall : (t.direct.step (.sputn bytes)).2 = (base.write waits).write bytes := by
      rw [hdirect]
      rfl
    rw [← hdirect] at hfits
    rw [← hsaved] at hsought
    rw [hcall, hnext]
    exact (xsputn_writes hset hwriting hgrant hsome hfits).agrees rfl hsought

/-- What is still to be written is written. -/
theorem InStep.sync (hstep : InStep front tail sb d h) (hgrant : GrantsAll env) :
    ∃ sb', (StreamBuf.sync env).Returns sb 0 sb' ∧ InStep front tail sb' d h ∧ ∃ pos, BodyAt sb'.mar front d.body tail pos := by
  have hidle (hopen : sb.openout = true) (hstate : ¬sb.state = .put) : (StreamBuf.sync env).Returns sb 0 sb := by
    apply (Call.returns_read _).bind
    rw [if_pos hopen]
    apply (Call.returns_read _).bind
    rw [if_neg hstate]
    exact Call.returns_pure _ _
  cases hstep with
  | reading hreading hsought =>
    have hother : ¬sb.state = .put := by
      rw [hreading.state]
      decide
    exact ⟨sb, hidle hreading.framed.openout hother, .reading hreading hsought, _, hreading.mar⟩
  | apart hapart hback hsought =>
    exact ⟨sb, hidle hapart.framed.openout hapart.state, .apart hapart hback hsought, _, hapart.mar⟩
  | writing base waits hwriting hdirect hback hsought =>
    obtain ⟨sb', hsync, hflushed, hsaved, -⟩ := hwriting.syncout hgrant
    rw [← hsaved] at hsought
    rw [hdirect] at hflushed
    refine ⟨sb', ?_, .writing d [] hflushed (Direct.write_nil d) hback hsought, _, hflushed.mar⟩
    apply (Call.returns_read _).bind
    rw [if_pos hwriting.framed.openout]
    exact hsync

/-! ## Seeks -/

/-- A seek that is refused, or to where the archive is, leaves the stream buffer. -/
theorem seekoff_stays {body : List UInt8} {pos : ℕ} (hbody : BodyAt sb.mar front body tail pos) {off whence : ℤ}
    (hoff : -2 ^ 63 ≤ off ∧ off < 2 ^ 63)
    (hstays : (whence = 1 ∧ off = 0) ∨ ∀ target ∈ seektarget body.length pos off whence, target < 0) :
    ∃ num, (StreamBuf.seekoff off whence).Returns sb num sb := by
  have hposfits := hbody.posfits
  have hfits : ∀ target ∈ seektarget body.length pos off whence, target < 2 ^ 32 := by
    intro target htarget
    rcases hstays with ⟨rfl, rfl⟩ | hneg
    · cases htarget
      omega
    · have := hneg target htarget
      omega
  rcases hbody.seek hoff hfits with ⟨target, htarget, hreturns, -⟩ | ⟨-, e, hfails⟩
  · have hsame : { sb.mar with offset := target } = sb.mar := by
      rcases hstays with ⟨rfl, rfl⟩ | hneg
      · have hpos : target = pos := by
          have hat : (pos : ℤ) + 0 = target := Option.some.inj htarget
          omega
        rw [hpos, ← hbody.offset]
      · have := hneg target htarget
        omega
    rw [hsame] at hreturns
    exact ⟨target, (onMar_returns hreturns).bind (Call.returns_pure _ _)⟩
  · exact ⟨-1, (onMar_fails hfails).bind (Call.returns_pure _ _)⟩

/-- A seek moves the archive. -/
theorem seekoff_moves {body : List UInt8} {pos : ℕ} (hbody : BodyAt sb.mar front body tail pos) {off whence target : ℤ}
    (hoff : -2 ^ 63 ≤ off ∧ off < 2 ^ 63) (htarget : seektarget body.length pos off whence = some target)
    (hlow : 0 ≤ target) (hhigh : target < 2 ^ 32) :
    ∃ num mar, (StreamBuf.seekoff off whence).Returns sb num { sb with mar } ∧
      BodyAt mar front body tail target.toNat := by
  have hfits : ∀ other ∈ seektarget body.length pos off whence, other < 2 ^ 32 := by
    rw [htarget]
    rintro _ ⟨⟩
    exact hhigh
  rcases hbody.seek hoff hfits with ⟨n, hn, hreturns, hmoved⟩ | ⟨hneg, -⟩
  · have hsame : target.toNat = n := by
      have hat : target = n := Option.some.inj (htarget.symm.trans hn)
      omega
    rw [hsame]
    exact ⟨n, _, (onMar_returns hreturns).bind (Call.returns_pure _ _), hmoved⟩
  · have := hneg target htarget
    omega

omit [SizedSeq σ] in
/-- Without a move the position stays. -/
theorem Tracked.seek_stays {off whence : ℤ} (hstays : ¬t.moves off whence) :
    t.direct.seek off whence = t.direct ∧
      ((whence = 1 ∧ off = 0) ∨ ∀ target ∈ t.direct.target off whence, target < 0) := by
  rw [Direct.seek]
  by_cases hhere : whence = 1 ∧ off = 0
  · refine ⟨?_, .inl hhere⟩
    obtain ⟨rfl, rfl⟩ := hhere
    have htarget : t.direct.target 0 1 = some ((t.direct.pos : ℤ) + 0) := rfl
    rw [htarget]
    dsimp only
    rw [if_neg (by omega), add_zero, Int.toNat_natCast]
  · have hneg : ∀ target ∈ t.direct.target off whence, target < 0 := by
      intro target htarget
      by_contra hlow
      exact hstays ⟨hhere, target, htarget, not_lt.mp hlow⟩
    refine ⟨?_, .inr hneg⟩
    cases htarget : t.direct.target off whence with
    | none => rfl
    | some target => exact if_pos (hneg target htarget)

/-- A seek that moves the archive leaves it at the position, whatever the get area has. -/
theorem Reading.moved {back n : ℕ} {mar : Archive σ} (hreading : Reading sb front tail d back)
    (hmar : BodyAt mar front d.body tail n) : Apart { sb with mar } front tail { d with pos := n } where
  framed := ⟨hreading.framed.openin, hreading.framed.openout, hreading.framed.pos, hreading.framed.small,
    hreading.framed.length⟩
  state := by
    dsimp only
    rw [hreading.state]
    decide
  get hstate := by
    dsimp only at hstate
    rw [hreading.state] at hstate
    cases hstate
  put := hreading.put
  place := by
    have hplace : InPlace sb.size sb.area := by
      rw [area_get hreading.state]
      exact hreading.place
    exact hplace
  mar := hmar

/-- A seek that moves the archive from the position moves the position. -/
theorem Apart.moved {n : ℕ} {mar : Archive σ} (hapart : Apart sb front tail d) (hmar : BodyAt mar front d.body tail n) :
    Apart { sb with mar } front tail { d with pos := n } where
  framed := ⟨hapart.framed.openin, hapart.framed.openout, hapart.framed.pos, hapart.framed.small, hapart.framed.length⟩
  state := hapart.state
  get := hapart.get
  put := hapart.put
  place := hapart.place
  mar := hmar

/-- A seek that moves the archive while nothing waits to be written moves the position. -/
theorem Writing.moved {n : ℕ} {mar : Archive σ} (hwriting : Writing sb front tail d [])
    (hmar : BodyAt mar front d.body tail n) : Writing { sb with mar } front tail { d with pos := n } [] where
  framed := ⟨hwriting.framed.openin, hwriting.framed.openout, hwriting.framed.pos, hwriting.framed.small,
    hwriting.framed.length⟩
  state := hwriting.state
  get := hwriting.get
  place := hwriting.place
  put := hwriting.put
  room := hwriting.room
  mar := hmar
  waiting := hwriting.waiting
  fits := by
    rw [Direct.write_nil]
    exact hmar.total

/-- A seek. -/
theorem agrees_seek (hstep : InStep front tail t.sb t.direct t.history) (off : Offset) (whence : ℤ)
    (hnot : ¬t.StraysSeeking off.1 whence) :
    Agrees (StreamBuf.seekoff off.1 whence >>= fun _ => pure ([] : List UInt8)) front tail t.sb []
      (t.direct.seek off.1 whence) (t.passed off.1 whence) := by
  rw [Tracked.StraysSeeking, not_or, not_or] at hnot
  obtain ⟨hwaiting, hahead, hlarge⟩ := hnot
  by_cases hmoves : t.moves off.1 whence
  · have hpassed : t.passed off.1 whence = ⟨true, 0⟩ := if_pos hmoves
    obtain ⟨hleaves, target, htarget, hlow⟩ := hmoves
    have hhigh : target < 2 ^ 32 := by
      by_contra hhigh
      exact hlarge ⟨target, htarget, not_lt.mp hhigh⟩
    have hseek : t.direct.seek off.1 whence = { t.direct with pos := target.toNat } := by
      rw [Direct.seek, Option.mem_def.mp htarget]
      exact if_neg (not_lt.mpr hlow)
    rw [hpassed, hseek]
    cases hstep with
    | reading hreading hsought =>
      have hat : seektarget t.direct.body.length (t.direct.pos + t.sb.get.rest) off.1 whence = some target := by
        apply mem_seektarget.mpr
        rcases mem_seektarget.mp htarget with hbeg | ⟨hcur, hpos⟩ | hend
        · exact .inl hbeg
        · have hrest : t.sb.get.rest = 0 := by
            by_contra hrest
            cases hmode : t.history.sought with
            | true => exact hrest (hsought hmode).1
            | false =>
              rw [area_get hreading.state] at hahead
              exact hahead ⟨hreading.state, hmode, Nat.pos_of_ne_zero hrest, hcur, fun hzero => hleaves ⟨hcur, hzero⟩,
                by omega⟩
          rw [hrest]
          exact .inr (.inl ⟨hcur, hpos⟩)
        · exact .inr (.inr hend)
      obtain ⟨num, mar, hreturns, hmar⟩ := seekoff_moves hreading.mar off.2 hat hlow hhigh
      exact ⟨_, hreturns.bind (Call.returns_pure _ _), .apart (hreading.moved hmar) rfl nofun⟩
    | apart hapart hback hsought =>
      obtain ⟨num, mar, hreturns, hmar⟩ := seekoff_moves hapart.mar off.2 htarget hlow hhigh
      exact ⟨_, hreturns.bind (Call.returns_pure _ _), .apart (hapart.moved hmar) rfl nofun⟩
    | writing base waits hwriting hdirect hback hsought =>
      have hcount : t.waiting = waits.length := by
        rw [Tracked.waiting, hwriting.put]
        rfl
      have hnone : waits = [] := by
        by_contra hsome
        apply hwaiting
        rw [hcount]
        exact ⟨List.length_pos_iff.mpr hsome, hleaves, target, htarget, hlow⟩
      subst hnone
      rw [Direct.write_nil] at hdirect
      subst hdirect
      obtain ⟨num, mar, hreturns, hmar⟩ := seekoff_moves hwriting.mar off.2 htarget hlow hhigh
      exact ⟨_, hreturns.bind (Call.returns_pure _ _),
        .writing _ [] (hwriting.moved hmar) (Direct.write_nil _) rfl nofun⟩
  · obtain ⟨hsame, hstays⟩ := t.seek_stays hmoves
    have hpassed : t.passed off.1 whence = t.history := if_neg hmoves
    rw [hsame, hpassed]
    have hdone : ∃ num, (StreamBuf.seekoff off.1 whence).Returns t.sb num t.sb := by
      cases hstep with
      | reading hreading hsought =>
        apply seekoff_stays hreading.mar off.2
        rcases hstays with hhere | hneg
        · exact .inl hhere
        · right
          intro target htarget
          rcases mem_seektarget.mp htarget with hbeg | ⟨hcur, hpos⟩ | hend
          · exact hneg target (mem_seektarget.mpr (.inl hbeg))
          · have hback := hneg _ (mem_seektarget.mpr (.inr (.inl ⟨hcur, rfl⟩)))
            by_contra hlow
            cases hmode : t.history.sought with
            | true =>
              have := (hsought hmode).1
              omega
            | false =>
              rw [area_get hreading.state] at hahead
              exact hahead ⟨hreading.state, hmode, by omega, hcur, by omega, by omega⟩
          · exact hneg target (mem_seektarget.mpr (.inr (.inr hend)))
      | apart hapart hback hsought => exact seekoff_stays hapart.mar off.2 hstays
      | writing base waits hwriting hdirect hback hsought =>
        apply seekoff_stays hwriting.mar off.2
        rcases hstays with hhere | hneg
        · exact .inl hhere
        · right
          intro target htarget
          have hpos := base.write_pos waits
          have hsize := base.size_le_write waits
          rw [hdirect] at hpos hsize
          rcases mem_seektarget.mp htarget with hbeg | ⟨hcur, hto⟩ | ⟨hend, hto⟩
          · exact hneg target (mem_seektarget.mpr (.inl hbeg))
          · have hback := hneg _ (mem_seektarget.mpr (.inr (.inl ⟨hcur, rfl⟩)))
            omega
          · have hback := hneg _ (mem_seektarget.mpr (.inr (.inr ⟨hend, rfl⟩)))
            omega
    obtain ⟨num, hreturns⟩ := hdone
    exact ⟨t.sb, hreturns.bind (Call.returns_pure _ _), hstep⟩

/-! ## Runs -/

/-- Each call that does not stray gives what it should and leaves the stream buffer in step. -/
theorem InStep.step (hstep : InStep front tail t.sb t.direct t.history) (hgrant : GrantsAll env) (op : StreamOp)
    (hnot : ¬t.Strays op) :
    Agrees (op.call env) front tail t.sb (t.direct.step op).1 (t.direct.step op).2 (t.next op) := by
  cases op with
  | sgetc => exact agrees_sgetc hstep hgrant hnot
  | sbumpc => exact agrees_sbumpc hstep hgrant hnot
  | sgetn n => exact agrees_sgetn hstep hgrant n hnot
  | sputc c => exact agrees_sputc hstep hgrant c hnot
  | sputn bytes => exact agrees_sputn hstep hgrant bytes hnot
  | sungetc => exact agrees_sungetc hstep hnot
  | sputbackc c => exact agrees_sputbackc hstep c hnot
  | pubsync =>
    obtain ⟨sb', hsync, hstep', -⟩ := hstep.sync hgrant
    exact ⟨sb', hsync.bind (Call.returns_pure _ _), hstep'⟩
  | pubseekoff off way => exact agrees_seek hstep off way.whence hnot
  | pubseekpos pos => exact agrees_seek hstep pos 0 hnot

/-- A new stream buffer for input and output next to the body of its archive. -/
def Tracked.start (ar : Archive σ) (body : List UInt8) (size : ℕ) (fresh : ℕ → UInt8) : Tracked σ where
  sb := StreamBuf.create ar true true size fresh
  direct := ⟨body, ar.offset⟩
  history := ⟨false, 0⟩
  heard := []
  wanted := []

/-- A new stream buffer is in step. -/
theorem inStep_start {ar : Archive σ} {body : List UInt8} {pos : ℕ} (hbody : BodyAt ar front body tail pos) {size : ℕ}
    (hpos : 0 < size) (hsmall : size < 2 ^ 31) (fresh : ℕ → UInt8) :
    InStep front tail (Tracked.start ar body size fresh).sb (Tracked.start ar body size fresh).direct
      (Tracked.start ar body size fresh).history := by
  have hplace : InPlace size ⟨size + pbacksize, size + pbacksize, size + pbacksize⟩ := by
    constructor <;> dsimp only <;> omega
  refine .apart ⟨⟨rfl, rfl, hpos, hsmall, ?_⟩, nofun, fun _ => rfl, rfl, hplace, ?_⟩ rfl (fun _ => Nat.sub_self _)
  · simp [Tracked.start, StreamBuf.create]
  · have hoffset : (Tracked.start ar body size fresh).direct.pos = pos := hbody.offset
    rw [hoffset]
    exact hbody

/-- A run without straying calls goes through. The characters that have been read are those that direct access reads,
and after a flush the body is the one that direct access leaves. -/
theorem stream_agrees {ar : Archive σ} {body : List UInt8} {pos : ℕ} (hbody : BodyAt ar front body tail pos)
    (hgrant : GrantsAll env) {size : ℕ} (hpos : 0 < size) (hsmall : size < 2 ^ 31) (fresh : ℕ → UInt8)
    {ops : List StreamOp}
    (havoids : Avoids (Tracked.step env) Tracked.Strays (Tracked.start ar body size fresh) ops) :
    ∃ t, run (Tracked.step env) (Tracked.start ar body size fresh) ops = some t ∧ t.heard = t.wanted ∧
      ∃ sb last, (StreamBuf.sync env).Returns t.sb 0 sb ∧ BodyAt sb.mar front t.direct.body tail last := by
  have hstep (t : Tracked σ) (op : StreamOp)
      (ht : InStep front tail t.sb t.direct t.history ∧ t.heard = t.wanted) (hnot : ¬t.Strays op) :
      ∃ next, t.step env op = some next ∧
        InStep front tail next.sb next.direct next.history ∧ next.heard = next.wanted := by
    obtain ⟨sb, hreturns, hinstep⟩ := ht.1.step hgrant op hnot
    have hheard : t.heard ++ (t.direct.step op).1 = t.wanted ++ (t.direct.step op).1 := by rw [ht.2]
    have hnext : t.step env op = some ⟨sb, (t.direct.step op).2, t.next op, t.heard ++ (t.direct.step op).1,
        t.wanted ++ (t.direct.step op).1⟩ := by
      rw [Tracked.step, hreturns]
      rfl
    exact ⟨_, hnext, hinstep, hheard⟩
  obtain ⟨t, hrun, hinstep, hheard⟩ := run_of_avoids hstep ⟨inStep_start hbody hpos hsmall fresh, rfl⟩ havoids
  obtain ⟨sb, hsync, -, last, hlast⟩ := hinstep.sync hgrant
  exact ⟨t, hrun, hheard, sb, last, hsync, hlast⟩

/-- An archive in memory whose body is two characters. -/
def twomar : Archive MemSeq where
  seq := { impl := { addr := some (newleader ++ [97, 98]), len := leadersize + 2 }, offset := 0, len := leadersize + 2 }
  info := { newmar.info with bsize := 2 }
  flags := newmar.flags
  offset := 0

theorem bodyAt_twomar : BodyAt twomar newleader [97, 98] [] 0 where
  holds _ := ⟨[], by decide +kernel, by decide⟩
  hsize := rfl
  bsize := rfl
  total := by decide
  flags := rfl
  offset := rfl
  posfits := by decide

/-- A character is read and put back, two are read, and a third is written behind them. -/
theorem stream_agrees_two : ∃ t, run (Tracked.step MPool.always) (Tracked.start twomar [97, 98] 4 fun _ => 0)
      [.sbumpc, .sungetc, .sgetn 2, .sputc 120] = some t ∧ t.heard = t.wanted ∧
    ∃ sb last, (StreamBuf.sync MPool.always).Returns t.sb 0 sb ∧ BodyAt sb.mar newleader t.direct.body [] last :=
  stream_agrees bodyAt_twomar (fun _ _ _ => rfl) (by decide) (by decide) (fun _ => 0) (by decide +kernel)

/-- A character that is written behind the first one does not take the place of the second one, which has been read
ahead. -/
theorem write_behind_ahead : ¬∃ t, run (Tracked.step MPool.always) (Tracked.start twomar [97, 98] 4 fun _ => 0)
      [.sbumpc, .sputc 120] = some t ∧ t.heard = t.wanted ∧
    ∃ sb last, (StreamBuf.sync MPool.always).Returns t.sb 0 sb ∧ BodyAt sb.mar newleader t.direct.body [] last := by
  rintro ⟨t, hrun, -, sb, last, hsync, hbody⟩
  have hsize : ((run (Tracked.step MPool.always) (Tracked.start twomar [97, 98] 4 fun _ => 0) [.sbumpc, .sputc 120]).bind
      fun t => (StreamBuf.sync MPool.always t.sb).map fun r => (t.direct.body.length, r.2.mar.info.bsize)) =
        some (2, 3) := by
    decide +kernel
  rw [hrun, Option.bind_some, hsync, Option.map_some] at hsize
  have hpair : (t.direct.body.length, sb.mar.info.bsize) = (2, 3) := Option.some.inj hsize
  rw [hbody.bsize] at hpair
  obtain ⟨htwo, hthree⟩ := Prod.mk.inj hpair
  omega

end Aug.Marpp
