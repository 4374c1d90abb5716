import Aug.Lib.Transition
import Aug.Net.Ssl

/-!
# The end of an SSL channel

What the user may rely on once the channel has recorded an error or the end of its data: the state says so, the
library is not asked for more, and reads give the error, or the rest of the buffer and then nothing. A round keeps
this unless it reads or writes on from such a state, or a deferred shutdown fails, whose error is forgotten at once.
-/

namespace Aug.Net.Ssl

open Lib Sys

/-- A round of the channel, or a call of its user. -/
inductive SslAction where
  | cprocess (round : Round)
  | sread (size : ℕ)
  | sreadv (iov : List ℕ)
  | swrite (buf : List UInt8)
  | swritev (iov : List (List UInt8))
  | sshutdown (answer : ShutdownAnswer)
  | csetwantwr (wantwr : Bool)
  | cclose

/-- An entry of the history: an event of the channel, or a read of so many bytes with its result. -/
inductive SslEntry where
  | event (event : SslEvent)
  | reading (size : ℕ) (result : SslResult)
  deriving DecidableEq

/-- The channel with its history, the latest entry in front. -/
structure SslHistory where
  impl : Impl
  log : List SslEntry

/-- The channel after an action, with the entries of the action in their order. -/
def Impl.act (impl : Impl) : SslAction → Option (Impl × List SslEntry)
  | .cprocess round => (impl.cprocess round).map fun (impl, log, _) => (impl, log.map .event)
  | .sread size => (impl.sread size).map fun (impl, result) => (impl, [.reading size result])
  | .sreadv iov => (impl.sreadv iov).map fun (impl, result) => (impl, [.reading iov.sum result])
  | .swrite buf => (impl.swrite buf).map fun (impl, _) => (impl, [])
  | .swritev iov => (impl.swritev iov).map fun (impl, _) => (impl, [])
  | .sshutdown answer => let (impl, log, _) := impl.sshutdown answer; some (impl, log.map .event)
  | .csetwantwr wantwr => some ({ impl with wantwr }, [])
  | .cclose => some ({ impl with closed := true }, [])

/-- The library keeps its promises to the buffers. -/
def SslAction.Kept (impl : Impl) : SslAction → Prop
  | .cprocess round =>
    BufCall.Kept impl.inbuf (.sslread round.read.n round.read.stored) ∧
      BufCall.Kept impl.outbuf (.sslwriteshake round.write.n)
  | _ => True

instance (impl : Impl) : DecidablePred (SslAction.Kept impl)
  | .cprocess round => inferInstanceAs (Decidable (BufCall.Kept impl.inbuf (.sslread round.read.n round.read.stored) ∧
      BufCall.Kept impl.outbuf (.sslwriteshake round.write.n)))
  | .sread _ => .isTrue trivial
  | .sreadv _ => .isTrue trivial
  | .swrite _ => .isTrue trivial
  | .swritev _ => .isTrue trivial
  | .sshutdown _ => .isTrue trivial
  | .csetwantwr _ => .isTrue trivial
  | .cclose => .isTrue trivial

namespace SslHistory

/-- A new channel. -/
def create (wantwr : Bool) (incells outcells : Vector UInt8 bufsize) : SslHistory :=
  ⟨.create wantwr incells outcells, []⟩

/-- One action, where the library keeps its promises. -/
def step (s : SslHistory) (action : SslAction) : Option SslHistory :=
  if action.Kept s.impl then (s.impl.act action).map fun (impl, log) => ⟨impl, log.reverse ++ s.log⟩ else none

end SslHistory

/-- A state that is not terminal. -/
def State.Live (state : UInt32) : Prop := state ≠ State.endof ∧ state ≠ State.error

instance (state : UInt32) : Decidable (State.Live state) :=
  inferInstanceAs (Decidable (state ≠ State.endof ∧ state ≠ State.error))

/-- What a channel has come to: nothing yet, the end of its data with some bytes left, or an error. -/
inductive Phase where
  | active
  | endof (left : List UInt8)
  | error (errinfo : ErrInfo)

namespace Phase

/-- An error replaces everything, and the end of data replaces no error. Reads take from what is left. -/
def next (phase : Phase) : SslEntry → Phase
  | .event (.endof left) =>
    match phase with
    | .error errinfo => .error errinfo
    | _ => .endof left
  | .event (.error errinfo) => .error errinfo
  | .event _ => phase
  | .reading size _ =>
    match phase with
    | .endof left => .endof (left.drop size)
    | _ => phase

/-- What a history has come to. -/
def of : List SslEntry → Phase
  | [] => .active
  | entry :: log => (of log).next entry

/-- What an entry may be after what a channel has come to: no read of the library, and no other result for a user. -/
def Allows : Phase → SslEntry → Prop
  | .active, _ => True
  | _, .event .read => False
  | .endof left, .reading size result => result = .bytes (left.take size)
  | .error errinfo, .reading _ result => result = .failed errinfo
  | _, _ => True

/-- The state of the channel says what it has come to. -/
def Agrees (impl : Impl) : Phase → Prop
  | .active => State.Live impl.state
  | .endof left => impl.state = State.endof ∧ impl.inbuf.content = left
  | .error errinfo => impl.state = State.error ∧ impl.errinfo = errinfo

end Phase

/-- Every entry of a history is allowed by the entries before it. -/
def Allowed : List SslEntry → Prop
  | [] => True
  | entry :: log => (Phase.of log).Allows entry ∧ Allowed log

/-- The law of the terminal states. -/
structure Terminal (s : SslHistory) : Prop where
  allowed : Allowed s.log
  agrees : (Phase.of s.log).Agrees s.impl

namespace Impl

/-- The round reaches the library. -/
def Enters (impl : Impl) (round : Round) : Prop :=
  impl.closed = false ∧ socketError round = none ∧ impl.peeked round ≠ 0

instance (impl : Impl) (round : Round) : Decidable (impl.Enters round) :=
  inferInstanceAs (Decidable (_ ∧ _ ∧ _))

/-- Some events ask the library for more. -/
def Reads (impl : Impl) (events : UInt16) : Prop := impl.isread events = true ∧ impl.inbuf.buffull = false

instance (impl : Impl) (events : UInt16) : Decidable (impl.Reads events) :=
  inferInstanceAs (Decidable (_ ∧ _))

/-- Some events lead to a write, perhaps behind a read that leaves nothing pending. -/
def Writes (impl : Impl) (events : UInt16) (answer : ReadAnswer) : Prop :=
  if impl.Reads events then answer.error = .none ∧ answer.pending = 0 ∧ events &&& mdeventwr ≠ 0
  else impl.iswrite events = true

instance (impl : Impl) (events : UInt16) (answer : ReadAnswer) : Decidable (impl.Writes events answer) :=
  inferInstanceAs (Decidable (if impl.Reads events then
    answer.error = .none ∧ answer.pending = 0 ∧ events &&& mdeventwr ≠ 0 else impl.iswrite events = true))

/-- A write of `n` bytes leaves nothing in the output buffer. -/
def Drains (impl : Impl) (n : ℤ) : Prop := impl.outbuf.bufempty = true ∨ (impl.outbuf.wr : ℤ) - impl.outbuf.rd ≤ n

instance (impl : Impl) (n : ℤ) : Decidable (impl.Drains n) := inferInstanceAs (Decidable (_ ∨ _))

/-- A write drains the output buffer for a shutdown that fails. -/
def Slips (impl : Impl) (answer : WriteAnswer) : Prop :=
  answer.error = .none ∧ impl.shutdown = true ∧ impl.Drains answer.n ∧ answer.shutdown.ret < 0

instance (impl : Impl) (answer : WriteAnswer) : Decidable (impl.Slips answer) :=
  inferInstanceAs (Decidable (_ ∧ _ ∧ _ ∧ _))

end Impl

/-- The errors that a write records. -/
def SslError.Fatal (error : SslError) : Prop := error ≠ .none ∧ error ≠ .wantRead ∧ error ≠ .wantWrite

instance (error : SslError) : Decidable error.Fatal := inferInstanceAs (Decidable (_ ∧ _ ∧ _))

/-- A round that breaks the law: from a terminal state it reads, or it makes a write that does not fail; or the
shutdown fails that a write has left the output buffer empty for. -/
def Breaks (impl : Impl) : SslAction → Prop
  | .cprocess round => impl.Enters round ∧
      (¬State.Live impl.state ∧ impl.Reads (impl.peeked round) ∨
        impl.Writes (impl.peeked round) round.read ∧
          (¬State.Live impl.state ∧ ¬round.write.error.Fatal ∨ impl.Slips round.write))
  | _ => False

instance (impl : Impl) : DecidablePred (Breaks impl)
  | .cprocess _ => inferInstanceAs (Decidable (_ ∧ (_ ∨ _ ∧ (_ ∨ _))))
  | .sread _ => .isFalse id
  | .sreadv _ => .isFalse id
  | .swrite _ => .isFalse id
  | .swritev _ => .isFalse id
  | .sshutdown _ => .isFalse id
  | .csetwantwr _ => .isFalse id
  | .cclose => .isFalse id

variable {impl impl' : Impl} {phase : Phase} {log : List SslEvent}

/-- Entries in their order, after what a channel has come to. -/
def AllowsAll : Phase → List SslEntry → Prop
  | _, [] => True
  | phase, entry :: entries => phase.Allows entry ∧ AllowsAll (phase.next entry) entries

/-- What the entries of an action lead to is what the state says then. -/
def Lawful (phase : Phase) (impl : Impl) (entries : List SslEntry) : Prop :=
  AllowsAll phase entries ∧ (entries.foldl Phase.next phase).Agrees impl

theorem of_reverse_append (entries log : List SslEntry) :
    Phase.of (entries.reverse ++ log) = entries.foldl Phase.next (Phase.of log) := by
  induction entries generalizing log with
  | nil => rfl
  | cons entry entries ih =>
    rw [List.reverse_cons, List.append_assoc]
    exact ih (entry :: log)

theorem allowed_reverse_append (entries log : List SslEntry) :
    Allowed (entries.reverse ++ log) ↔ Allowed log ∧ AllowsAll (Phase.of log) entries := by
  induction entries generalizing log with
  | nil => exact (and_iff_left trivial).symm
  | cons entry entries ih =>
    have hentry : Allowed (entry :: log) ↔ (Phase.of log).Allows entry ∧ Allowed log := Iff.rfl
    rw [List.reverse_cons, List.append_assoc]
    refine (ih (entry :: log)).trans ?_
    rw [hentry, AllowsAll, and_comm (a := (Phase.of log).Allows entry), and_assoc]
    rfl

/-- Both buffers lie in their blocks. -/
structure Buffered (impl : Impl) : Prop where
  inbuf : ∃ content, impl.inbuf.Holds content
  outbuf : ∃ content, impl.outbuf.Holds content

theorem create_buffered (wantwr : Bool) (incells outcells : Vector UInt8 bufsize) :
    Buffered (.create wantwr incells outcells) :=
  ⟨⟨[], Buf.Holds.clear (by simp)⟩, ⟨[], Buf.Holds.clear (by simp)⟩⟩

/-- A state is live exactly when nothing has been recorded. -/
theorem Phase.Agrees.live_iff (h : phase.Agrees impl) : State.Live impl.state ↔ phase = .active := by
  cases phase with
  | active => exact iff_of_true h rfl
  | endof left => exact iff_of_false (fun hlive => hlive.1 h.1) (by simp)
  | error errinfo => exact iff_of_false (fun hlive => hlive.2 h.1) (by simp)

/-- A live state agrees with nothing but a channel that goes on. -/
theorem agrees_iff_active (hlive : State.Live impl.state) : phase.Agrees impl ↔ phase = .active := by
  cases phase with
  | active => exact iff_of_true hlive rfl
  | endof left => exact iff_of_false (fun h => hlive.1 h.1) (by simp)
  | error errinfo => exact iff_of_false (fun h => hlive.2 h.1) (by simp)

/-- What a write leaves of the output buffer. -/
theorem bufempty_iff_drains {n : ℤ} {content : List UInt8} {outbuf : Buf} (h : impl.outbuf.Holds content)
    (hout : outbuf.Holds (content.drop n.toNat)) :
    outbuf.bufempty = true ↔ impl.Drains n := by
  rw [hout.bufempty_iff, List.drop_eq_nil_iff, Impl.Drains, h.bufempty_iff, h.wr_sub, ← List.length_eq_zero_iff]
  omega

@[simp] theorem allows_write (phase : Phase) : phase.Allows (.event .write) := by cases phase <;> trivial

@[simp] theorem allows_shutdown (phase : Phase) : phase.Allows (.event .shutdown) := by cases phase <;> trivial

@[simp] theorem allows_error (phase : Phase) (errinfo : ErrInfo) : phase.Allows (.event (.error errinfo)) := by
  cases phase <;> trivial

@[simp] theorem allows_endof (phase : Phase) (left : List UInt8) : phase.Allows (.event (.endof left)) := by
  cases phase <;> trivial

@[simp] theorem allows_read_iff (phase : Phase) : phase.Allows (.event .read) ↔ phase = .active := by
  cases phase <;> simp [Phase.Allows]

@[simp] theorem next_read (phase : Phase) : phase.next (.event .read) = phase := rfl

@[simp] theorem next_write (phase : Phase) : phase.next (.event .write) = phase := rfl

@[simp] theorem next_shutdown (phase : Phase) : phase.next (.event .shutdown) = phase := rfl

@[simp] theorem next_error (phase : Phase) (errinfo : ErrInfo) :
    phase.next (.event (.error errinfo)) = .error errinfo := rfl

@[simp] theorem fail_agrees (impl : Impl) (errinfo : ErrInfo) : (Phase.error errinfo).Agrees (impl.fail errinfo) :=
  ⟨rfl, rfl⟩

/-- A write that is not followed by a record is lawful exactly when nothing has been recorded. -/
theorem lawful_write_iff {entries : List SslEvent} (hentries : entries = [] ∨ entries = [.shutdown])
    (hlive : State.Live impl.state) :
    Lawful phase impl (.event .write :: entries.map .event) ↔ phase = .active := by
  rw [← agrees_iff_active hlive]
  rcases hentries with rfl | rfl <;> simp [Lawful, AllowsAll]

/-- A write that fails is lawful. -/
theorem lawful_write_fail (phase : Phase) (impl : Impl) (errinfo : ErrInfo) :
    Lawful phase (impl.fail errinfo) [.event .write, .event (.error errinfo)] := by
  simp [Lawful, AllowsAll]

/-- A shutdown that fails is recorded, and the state says nothing of it. -/
theorem not_lawful_shutdown (phase : Phase) (hlive : State.Live impl.state) (errinfo : ErrInfo) :
    ¬Lawful phase impl [.event .write, .event .shutdown, .event (.error errinfo)] :=
  fun h => hlive.2 h.2.1

/-- A write that records nothing is lawful exactly when nothing has been recorded, one that fails is lawful, and
one whose shutdown fails is not. -/
theorem writeSwitch_lawful_iff (phase : Phase) (impl : Impl) (answer : WriteAnswer) :
    Lawful phase (impl.writeSwitch answer).1 ((impl.writeSwitch answer).2.map .event) ↔
      (answer.error.Fatal ∨ phase = .active) ∧
        ¬(answer.error = .none ∧ impl.shutdown = true ∧ impl.outbuf.bufempty = true ∧ answer.shutdown.ret < 0) := by
  rw [Impl.writeSwitch]
  cases herror : answer.error with
  | none =>
    have hfatal : ¬SslError.none.Fatal := fun h => h.1 rfl
    by_cases hdeferred : impl.shutdown = true ∧ impl.outbuf.bufempty = true
    · by_cases hfailed : answer.shutdown.ret < 0
      · simp only [hdeferred, Impl.shutwr, hfailed, Bool.and_self, if_true, and_self, not_true, and_false, iff_false]
        exact not_lawful_shutdown phase (by decide : State.Live State.neutral) answer.shutdown.errinfo
      · simp only [hdeferred, Impl.shutwr, hfailed, Bool.and_self, if_true, if_false, and_false, not_false_iff,
          and_true, hfatal, false_or]
        exact lawful_write_iff (.inr rfl) (by decide : State.Live State.neutral)
    · have hlater : ¬(impl.shutdown = true ∧ impl.outbuf.bufempty = true ∧ answer.shutdown.ret < 0) :=
        fun h => hdeferred ⟨h.1, h.2.1⟩
      simp only [Bool.and_eq_true, hdeferred, if_false, hlater, and_false, not_false_iff, and_true, hfatal, false_or]
      exact lawful_write_iff (.inl rfl) (by decide : State.Live State.neutral)
  | wantRead =>
    have hfatal : ¬SslError.wantRead.Fatal := fun h => h.2.1 rfl
    simp only [hfatal, false_or, reduceCtorEq, false_and, not_false_iff, and_true]
    exact lawful_write_iff (.inl rfl) (by decide : State.Live State.wrwantrd)
  | wantWrite =>
    have hfatal : ¬SslError.wantWrite.Fatal := fun h => h.2.2 rfl
    simp only [hfatal, false_or, reduceCtorEq, false_and, not_false_iff, and_true]
    exact lawful_write_iff (.inl rfl) (by decide : State.Live State.wrwantwr)
  | syscall => exact iff_of_true (lawful_write_fail phase impl _) (by simp [SslError.Fatal])
  | zeroReturn => exact iff_of_true (lawful_write_fail phase impl _) (by simp [SslError.Fatal])
  | other err => exact iff_of_true (lawful_write_fail phase impl _) (by simp [SslError.Fatal])

/-- The outcome of a write says nothing of the buffers. -/
theorem writeSwitch_buffered (h : Buffered impl) (answer : WriteAnswer) : Buffered (impl.writeSwitch answer).1 := by
  rw [Impl.writeSwitch]
  split
  · split_ifs
    · cases Impl.shutwr answer.shutdown <;> exact ⟨h.inbuf, h.outbuf⟩
    · exact ⟨h.inbuf, h.outbuf⟩
  all_goals exact ⟨h.inbuf, h.outbuf⟩

/-- The outcome of a read says nothing of the buffers. -/
theorem readSwitch_buffered (h : Buffered impl) (answer : ReadAnswer) : Buffered (impl.readSwitch answer).1 := by
  rw [Impl.readSwitch]
  split
  · split_ifs <;> exact ⟨h.inbuf, h.outbuf⟩
  all_goals exact ⟨h.inbuf, h.outbuf⟩

/-- The first entry of a read is the call of the library. -/
theorem readSwitch_log (impl : Impl) (answer : ReadAnswer) : ∃ log, (impl.readSwitch answer).2.1 = .read :: log := by
  rw [Impl.readSwitch]
  split
  · split_ifs <;> exact ⟨_, rfl⟩
  all_goals exact ⟨_, rfl⟩

/-- A read proceeds with a write in the neutral state. -/
theorem readSwitch_proceeds {answer : ReadAnswer} (h : answer.error = .none ∧ answer.pending = 0) :
    impl.readSwitch answer = ({ impl with state := State.neutral }, [.read], true) := by
  simp [Impl.readSwitch, h.1, h.2]

/-- A read that does not proceed is lawful as long as nothing has been recorded. -/
theorem readSwitch_stops {answer : ReadAnswer} (h : ¬(answer.error = .none ∧ answer.pending = 0)) :
    (impl.readSwitch answer).2.2 = false ∧
      Lawful .active (impl.readSwitch answer).1 ((impl.readSwitch answer).2.1.map .event) := by
  have hwaits : ∀ state, State.Live state → Lawful .active { impl with state } [.event .read] :=
    fun state hlive => ⟨by simp [AllowsAll], hlive⟩
  have hfails : ∀ errinfo, Lawful .active (impl.fail errinfo) [.event .read, .event (.error errinfo)] :=
    fun errinfo => by simp [Lawful, AllowsAll]
  rw [Impl.readSwitch]
  cases herror : answer.error with
  | none =>
    rw [herror] at h
    have hpending : answer.pending ≠ 0 := fun hzero => h ⟨rfl, hzero⟩
    rw [if_pos hpending]
    exact ⟨rfl, hwaits _ (by decide)⟩
  | wantRead => exact ⟨rfl, hwaits _ (by decide)⟩
  | wantWrite => exact ⟨rfl, hwaits _ (by decide)⟩
  | syscall => exact ⟨rfl, hfails _⟩
  | zeroReturn =>
    cases hshutdown : impl.shutdown
    all_goals
      refine ⟨rfl, ?_, rfl, rfl⟩
      simp [AllowsAll]
  | other err => exact ⟨rfl, hfails _⟩

/-- Entries behind others. -/
theorem lawful_append (phase : Phase) (impl : Impl) (entries others : List SslEntry) :
    Lawful phase impl (entries ++ others) ↔
      AllowsAll phase entries ∧ Lawful (entries.foldl Phase.next phase) impl others := by
  have hall : AllowsAll phase (entries ++ others) ↔
      AllowsAll phase entries ∧ AllowsAll (entries.foldl Phase.next phase) others := by
    induction entries generalizing phase with
    | nil => exact (and_iff_right trivial).symm
    | cons entry entries ih =>
      rw [List.cons_append, AllowsAll, ih (phase.next entry), AllowsAll, List.foldl_cons, and_assoc]
  rw [Lawful, hall, List.foldl_append, and_assoc]
  rfl

/-- The rest of `readwrite_` behind a read. -/
theorem write_lawful_iff (hbuf : Buffered impl) (hagrees : phase.Agrees impl) (events : UInt16)
    {answer : WriteAnswer} (hkept : BufCall.Kept impl.outbuf (.sslwriteshake answer.n)) :
    ∃ impl' log, impl.writeIf events answer = some (impl', log) ∧
      Buffered impl' ∧ (Lawful phase impl' (log.map .event) ↔
        ¬(impl.iswrite events = true ∧ (phase ≠ .active ∧ ¬answer.error.Fatal ∨ impl.Slips answer))) := by
  by_cases hwrite : impl.iswrite events = true
  · obtain ⟨content, hholds⟩ := hbuf.outbuf
    have horder := hholds.order
    have hn : content = [] ∨ answer.n.toNat ≤ content.length := by
      rcases hkept with hempty | hle
      · exact .inl (hholds.bufempty_iff.mp hempty)
      · exact .inr (by omega)
    obtain ⟨outbuf, hout, hrest⟩ := Buf.sslwriteshake_spec hholds hn
    have hiff := writeSwitch_lawful_iff phase { impl with outbuf } answer
    rw [bufempty_iff_drains hholds hrest] at hiff
    refine ⟨_, _, by rw [Impl.writeIf, if_pos hwrite, Impl.writeHalf, hout]; rfl, ?_, hiff.trans ?_⟩
    · have hafter : Buffered { impl with outbuf } := ⟨hbuf.inbuf, _, hrest⟩
      exact writeSwitch_buffered hafter answer
    · simp only [hwrite, true_and, not_or, not_and, not_not, Impl.Slips]
      tauto
  · refine ⟨impl, [], by rw [Impl.writeIf, if_neg hwrite], hbuf, iff_of_true ⟨trivial, hagrees⟩ fun h => hwrite h.1⟩

/-- What the channel keeps of a read that goes well. -/
theorem neutral_iswrite (impl : Impl) (events : UInt16) :
    { impl with state := State.neutral }.iswrite events = true ↔ events &&& mdeventwr ≠ 0 := by
  have hread : ¬State.neutral &&& State.read ≠ 0 := by decide
  have hblocked : ¬State.wrwantrd = State.neutral := by decide
  simp [Impl.iswrite, hread, hblocked]

/-- A call of the library is lawful as long as nothing has been recorded. -/
theorem lawful_read_iff (phase : Phase) (impl : Impl) (entries : List SslEntry) :
    Lawful phase impl (.event .read :: entries) ↔ phase = .active ∧ Lawful phase impl entries := by
  rw [Lawful, AllowsAll, allows_read_iff, and_assoc]
  rfl

/-- Behind a read that proceeds is the second half. -/
theorem readwrite_proceeds {events : UInt16} {round : Round} {next : Impl} (hreads : impl.Reads events)
    (hhalf : impl.readHalf round.read = some (next, log, true)) :
    impl.readwrite events round =
      (next.writeIf events round.write).map fun (last, others) => (last, log ++ others) := by
  rw [Impl.readwrite, if_pos (by simpa [Impl.Reads] using hreads), hhalf]
  rfl

/-- Behind a read that stops is nothing. -/
theorem readwrite_stops {events : UInt16} {round : Round} {next : Impl} (hreads : impl.Reads events)
    (hhalf : impl.readHalf round.read = some (next, log, false)) : impl.readwrite events round = some (next, log) := by
  rw [Impl.readwrite, if_pos (by simpa [Impl.Reads] using hreads), hhalf]
  rfl

/-- `readwrite_` keeps the law unless it breaks it. -/
theorem readwrite_lawful_iff (hbuf : Buffered impl) (hagrees : phase.Agrees impl) (events : UInt16) {round : Round}
    (hkept : SslAction.Kept impl (.cprocess round)) :
    ∃ impl' log, impl.readwrite events round = some (impl', log) ∧ Buffered impl' ∧
      (Lawful phase impl' (log.map .event) ↔ ¬(phase ≠ .active ∧ impl.Reads events ∨
        impl.Writes events round.read ∧ (phase ≠ .active ∧ ¬round.write.error.Fatal ∨ impl.Slips round.write))) := by
  obtain ⟨⟨hroom, hn⟩, hwriteKept⟩ := hkept
  by_cases hreads : impl.Reads events
  · obtain ⟨content, hholds⟩ := hbuf.inbuf
    rw [hholds.size] at hroom
    obtain ⟨inbuf, hin, hrest⟩ := Buf.sslread_spec hholds hroom hn
    have hread : Buffered { impl with inbuf } := ⟨⟨_, hrest⟩, hbuf.outbuf⟩
    have hhalf : impl.readHalf round.read = some ({ impl with inbuf }.readSwitch round.read) := by
      rw [Impl.readHalf, hin]
      rfl
    rw [Impl.Writes, if_pos hreads]
    by_cases hproceeds : round.read.error = .none ∧ round.read.pending = 0
    · have hneutral : Phase.Agrees { impl with inbuf, state := State.neutral } .active :=
        (by decide : State.Live State.neutral)
      have hnext : Buffered { impl with inbuf, state := State.neutral } := ⟨hread.inbuf, hread.outbuf⟩
      obtain ⟨last, log, hlast, hbuffered, hiff⟩ := write_lawful_iff hnext hneutral events hwriteKept
      have hwrites := hiff.trans (not_congr (and_congr_left' (neutral_iswrite { impl with inbuf } events)))
      refine ⟨last, .read :: log, ?_, hbuffered, ?_⟩
      · rw [readSwitch_proceeds hproceeds] at hhalf
        rw [readwrite_proceeds hreads hhalf, hlast]
        rfl
      · have hslips : Impl.Slips { impl with inbuf, state := State.neutral } round.write ↔ impl.Slips round.write := Iff.rfl
        rw [List.map_cons, lawful_read_iff]
        by_cases hactive : phase = .active
        · subst hactive
          rw [hwrites, hslips]
          simp [hproceeds]
        · simp [hactive, hreads]
    · obtain ⟨hstop, hlawful⟩ := @readSwitch_stops { impl with inbuf } round.read hproceeds
      obtain ⟨log, hlog⟩ := readSwitch_log { impl with inbuf } round.read
      refine ⟨_, .read :: log, ?_, readSwitch_buffered hread round.read, ?_⟩
      · rw [← hlog]
        apply readwrite_stops hreads
        rw [hhalf, ← hstop]
      · rw [hlog] at hlawful
        by_cases hactive : phase = .active
        · subst hactive
          exact iff_of_true hlawful fun h => h.elim (fun h => h.1 rfl) fun h => hproceeds ⟨h.1.1, h.1.2.1⟩
        · rw [List.map_cons, lawful_read_iff]
          simp [hactive, hreads]
  · obtain ⟨last, log, hlast, hbuffered, hiff⟩ := write_lawful_iff hbuf hagrees events hwriteKept
    refine ⟨last, log, ?_, hbuffered, hiff.trans ?_⟩
    · rw [Impl.readwrite, if_neg (by simpa [Impl.Reads] using hreads), hlast]
    rw [Impl.Writes, if_neg hreads]
    tauto

/-- A round keeps the law unless it breaks it. -/
theorem cprocess_lawful_iff (hbuf : Buffered impl) (hagrees : phase.Agrees impl) {round : Round}
    (hkept : SslAction.Kept impl (.cprocess round)) :
    ∃ impl' log result, impl.cprocess round = some (impl', log, result) ∧ Buffered impl' ∧
      (Lawful phase impl' (log.map .event) ↔ ¬Breaks impl (.cprocess round)) := by
  have hsame : ∀ result, impl.cprocess round = some (impl, [], result) → ¬impl.Enters round →
      ∃ impl' log result, impl.cprocess round = some (impl', log, result) ∧ Buffered impl' ∧
        (Lawful phase impl' (log.map .event) ↔ ¬Breaks impl (.cprocess round)) :=
    fun result hprocess henters =>
      ⟨impl, [], result, hprocess, hbuf, iff_of_true ⟨trivial, hagrees⟩ fun h => henters h.1⟩
  by_cases hclosed : impl.closed = true
  · exact hsame _ (if_pos hclosed) fun h => by simp [h.1] at hclosed
  by_cases hsock : (Impl.socketError round).isSome = true
  · exact hsame _ (by rw [Impl.cprocess, if_neg hclosed, if_pos hsock]) fun h => by simp [h.2.1] at hsock
  by_cases hevents : impl.peeked round = 0
  · have hskipped : impl.cprocess round = some (impl, [], .processed (impl.readyevents = 0 || round.keep)) := by
      simp [Impl.cprocess, hclosed, hsock, hevents]
    exact hsame _ hskipped fun h => h.2.2 hevents
  · have henters : impl.Enters round := ⟨by simpa using hclosed, by simpa using hsock, hevents⟩
    obtain ⟨impl', log, hreadwrite, hbuffered, hiff⟩ := readwrite_lawful_iff hbuf hagrees (impl.peeked round) hkept
    refine ⟨impl', log, _, by simp [Impl.cprocess, hclosed, hsock, hevents, hreadwrite]; rfl, hbuffered, ?_⟩
    rw [hiff, Breaks, and_iff_right henters, hagrees.live_iff]

/-- A read of the user gives what the channel has come to. -/
theorem sreadWith_lawful (hbuf : Buffered impl) (hagrees : phase.Agrees impl) (size : ℕ)
    (readbuf : Buf → Option (ℕ × List UInt8 × Buf)) (hread : ∀ content, impl.inbuf.Holds content →
      ∃ ret y, readbuf impl.inbuf = some (ret, content.take size, y) ∧ y.Holds (content.drop size)) :
    ∃ impl' result, impl.sreadWith readbuf = some (impl', result) ∧ Buffered impl' ∧
      Lawful phase impl' [.reading size result] := by
  obtain ⟨content, hholds⟩ := hbuf.inbuf
  obtain ⟨ret, y, hy, hrest⟩ := hread content hholds
  have hempty := hholds.bufempty_iff
  have hcontent := hholds.content_eq
  cases phase with
  | active =>
    have herror : ¬State.error = impl.state := hagrees.2.symm
    have hendof : ¬State.endof = impl.state := hagrees.1.symm
    by_cases hnone : content = []
    · refine ⟨impl, .blocks, ?_, hbuf, ⟨trivial, trivial⟩, hagrees⟩
      simp [Impl.sreadWith, herror, hendof, hempty.mpr hnone]
    · refine ⟨{ impl with inbuf := y }, .bytes (content.take size), ?_, ⟨⟨_, hrest⟩, hbuf.outbuf⟩, ⟨trivial, trivial⟩,
        hagrees⟩
      simp [Impl.sreadWith, herror, hendof, hempty, hnone, hy]
  | endof left =>
    have herror : ¬State.error = impl.state := by rw [hagrees.1]; decide
    have hleft : content = left := hcontent.symm.trans hagrees.2
    subst hleft
    by_cases hnone : content = []
    · subst hnone
      refine ⟨impl, .bytes [], ?_, hbuf, ⟨by simp [Phase.Allows], trivial⟩, hagrees.1, ?_⟩
      · rw [Impl.sreadWith, if_neg herror, if_pos ⟨hagrees.1.symm, hempty.mpr rfl⟩]
      · simpa using hcontent
    · refine ⟨{ impl with inbuf := y }, .bytes (content.take size), ?_, ⟨⟨_, hrest⟩, hbuf.outbuf⟩, ⟨rfl, trivial⟩,
        hagrees.1, hrest.content_eq⟩
      simp [Impl.sreadWith, herror, hempty, hnone, hy]
  | error errinfo =>
    refine ⟨impl, .failed errinfo, ?_, hbuf, ⟨rfl, trivial⟩, hagrees⟩
    rw [Impl.sreadWith, if_pos hagrees.1.symm, hagrees.2]

/-- A write of the user has no part in the law. -/
theorem swriteWith_lawful (hbuf : Buffered impl) (hagrees : phase.Agrees impl)
    (writebuf : Buf → Option (ℕ × List UInt8 × Buf)) (hwrite : ∀ content, impl.outbuf.Holds content →
      ∃ ret bytes y content', writebuf impl.outbuf = some (ret, bytes, y) ∧ y.Holds content') :
    ∃ impl' result, impl.swriteWith writebuf = some (impl', result) ∧ Buffered impl' ∧ Lawful phase impl' [] := by
  obtain ⟨content, hholds⟩ := hbuf.outbuf
  obtain ⟨ret, bytes, y, content', hy, hrest⟩ := hwrite content hholds
  by_cases hfull : impl.outbuf.buffull = true
  · exact ⟨impl, .blocks, by simp [Impl.swriteWith, hfull], hbuf, trivial, hagrees⟩
  by_cases hshutdown : impl.shutdown = true
  · exact ⟨impl, .eshutdown, by simp [Impl.swriteWith, hfull, hshutdown], hbuf, trivial, hagrees⟩
  · refine ⟨{ impl with outbuf := y }, .count ret, ?_, ⟨hbuf.inbuf, _, hrest⟩, trivial, ?_⟩
    · simp [Impl.swriteWith, hfull, hshutdown, hy]
    · cases phase <;> exact hagrees

/-- An action keeps the law exactly unless it breaks it, and it is defined. -/
theorem act_lawful_iff (hbuf : Buffered impl) (hagrees : phase.Agrees impl) {action : SslAction}
    (hkept : action.Kept impl) :
    ∃ impl' entries, impl.act action = some (impl', entries) ∧ Buffered impl' ∧
      (Lawful phase impl' entries ↔ ¬Breaks impl action) := by
  cases action with
  | cprocess round =>
    obtain ⟨impl', log, result, hprocess, hbuffered, hiff⟩ := cprocess_lawful_iff hbuf hagrees hkept
    exact ⟨impl', _, by rw [Impl.act, hprocess]; rfl, hbuffered, hiff⟩
  | sread size =>
    obtain ⟨impl', result, hread, hbuffered, hlawful⟩ :=
      sreadWith_lawful hbuf hagrees size (·.readbuf size) fun _ h => ⟨_, Buf.readbuf_spec h size⟩
    exact ⟨impl', _, by rw [Impl.act, Impl.sread, hread]; rfl, hbuffered, iff_of_true hlawful id⟩
  | sreadv iov =>
    obtain ⟨impl', result, hread, hbuffered, hlawful⟩ :=
      sreadWith_lawful hbuf hagrees iov.sum (·.readbufv iov) fun _ h => ⟨_, Buf.readbufv_spec h iov⟩
    exact ⟨impl', _, by rw [Impl.act, Impl.sreadv, hread]; rfl, hbuffered, iff_of_true hlawful id⟩
  | swrite buf =>
    obtain ⟨impl', result, hwrite, hbuffered, hlawful⟩ := swriteWith_lawful hbuf hagrees (·.writebuf buf) fun _ h =>
      let ⟨y, hy, hholds, _⟩ := Buf.writebuf_spec h buf
      ⟨_, _, y, _, hy, hholds⟩
    exact ⟨impl', [], by rw [Impl.act, Impl.swrite, hwrite]; rfl, hbuffered, iff_of_true hlawful id⟩
  | swritev iov =>
    obtain ⟨impl', result, hwrite, hbuffered, hlawful⟩ := swriteWith_lawful hbuf hagrees (·.writebufv iov) fun _ h =>
      let ⟨y, hy, hholds⟩ := Buf.writebufv_spec h iov
      ⟨_, _, y, _, hy, hholds⟩
    exact ⟨impl', [], by rw [Impl.act, Impl.swritev, hwrite]; rfl, hbuffered, iff_of_true hlawful id⟩
  | sshutdown answer =>
    have hagrees' : phase.Agrees { impl with shutdown := true } := by cases phase <;> exact hagrees
    by_cases hempty : impl.outbuf.bufempty = true
    · cases hshut : Impl.shutwr answer
      all_goals
        refine ⟨{ impl with shutdown := true }, [.event .shutdown], by simp [Impl.act, Impl.sshutdown, hempty, hshut],
          ⟨hbuf.inbuf, hbuf.outbuf⟩, iff_of_true ⟨?_, hagrees'⟩ id⟩
        simp [AllowsAll]
    · exact ⟨{ impl with shutdown := true }, [], by simp [Impl.act, Impl.sshutdown, hempty],
        ⟨hbuf.inbuf, hbuf.outbuf⟩, iff_of_true ⟨trivial, hagrees'⟩ id⟩
  | csetwantwr wantwr =>
    exact ⟨_, [], rfl, ⟨hbuf.inbuf, hbuf.outbuf⟩, iff_of_true ⟨trivial, by cases phase <;> exact hagrees⟩ id⟩
  | cclose =>
    exact ⟨_, [], rfl, ⟨hbuf.inbuf, hbuf.outbuf⟩, iff_of_true ⟨trivial, by cases phase <;> exact hagrees⟩ id⟩

/-- A step that follows a lawful history is lawful exactly unless it breaks the law. -/
theorem step_terminal_iff {s next : SslHistory} {action : SslAction} (hbuf : Buffered s.impl) (hs : Terminal s)
    (h : s.step action = some next) : Buffered next.impl ∧ (Terminal next ↔ ¬Breaks s.impl action) := by
  rw [SslHistory.step] at h
  split_ifs at h with hkept
  obtain ⟨impl', entries, hact, hbuffered, hiff⟩ := act_lawful_iff hbuf hs.agrees hkept
  rw [hact, Option.map_some, Option.some.injEq] at h
  subst h
  refine ⟨hbuffered, Iff.trans ?_ hiff⟩
  constructor
  · rintro ⟨hallowed, hagrees⟩
    rw [of_reverse_append] at hagrees
    exact ⟨((allowed_reverse_append entries s.log).mp hallowed).2, hagrees⟩
  · rintro ⟨hall, hagrees⟩
    refine ⟨(allowed_reverse_append entries s.log).mpr ⟨hs.allowed, hall⟩, ?_⟩
    rw [of_reverse_append]
    exact hagrees

/-- In every run of a channel, with any results of the library and any events, the law of the terminal states holds
throughout exactly if no round breaks it. -/
theorem terminal_iff_avoids (wantwr : Bool) (incells outcells : Vector UInt8 bufsize) (actions : List SslAction)
    (last : SslHistory) (h : run SslHistory.step (.create wantwr incells outcells) actions = some last) :
    Always SslHistory.step Terminal (.create wantwr incells outcells) actions ↔
      Avoids SslHistory.step (fun s action => Breaks s.impl action) (.create wantwr incells outcells) actions := by
  have hcreate : Terminal (.create wantwr incells outcells) := ⟨trivial, (by decide : State.Live State.handshake)⟩
  apply always_iff_avoids_of (q := fun s => Terminal s ∧ Buffered s.impl) (fun _ hq => hq.1) _ _
    ⟨hcreate, create_buffered wantwr incells outcells⟩ h
  · intro s action next hq hstep hgood
    obtain ⟨hbuffered, hiff⟩ := step_terminal_iff hq.2 hq.1 hstep
    exact ⟨hiff.mpr hgood, hbuffered⟩
  · intro s action next hq hstep hbad hterminal
    exact (step_terminal_iff hq.2 hq.1 hstep).2.mp hterminal hbad

/-- A round with some events and some results of the library, on a socket without an error. -/
def Round.plain (events : UInt16) (read : SslError) (stored : List UInt8) (write : SslError) : Round where
  events := events
  sockerr := none
  peekBlocks := false
  read := ⟨stored.length, stored, read, 0, .clear⟩
  write := ⟨if write = .none then 1 else 0, write, .clear, ⟨0, .clear⟩⟩
  keep := true

/-- After a handshake and two bytes the peer ends; the user gets the bytes in two reads, and then nothing. -/
theorem terminal_iff_avoids_ended :
    Always SslHistory.step Terminal (.create true (.replicate bufsize 0) (.replicate bufsize 0))
      [.cprocess (.plain mdeventwr .wantRead [] .none), .cprocess (.plain mdeventrd .none [97, 98] .none),
        .cprocess (.plain mdeventrd .zeroReturn [] .none), .sread 1, .sreadv [1, 1], .sread 1] := by
  have hrun : (run SslHistory.step (.create true (.replicate bufsize 0) (.replicate bufsize 0))
      [.cprocess (.plain mdeventwr .wantRead [] .none), .cprocess (.plain mdeventrd .none [97, 98] .none),
        .cprocess (.plain mdeventrd .zeroReturn [] .none), .sread 1, .sreadv [1, 1], .sread 1]).isSome = true := by
    decide +kernel
  obtain ⟨last, hlast⟩ := Option.isSome_iff_exists.mp hrun
  exact (terminal_iff_avoids true _ _ _ last hlast).mpr (by decide +kernel)

/-- A channel in a terminal state is always ready for another round, whatever its events. -/
theorem cisready_of_terminal (h : ¬State.Live impl.state) (events : UInt16) : impl.cisready events = true := by
  have hexcept : impl.isexcept events = true := by
    rw [State.Live, not_and_or, not_not, not_not] at h
    have hendof : State.endof &&& (State.endof ||| State.error) ≠ 0 := by decide
    have herror : State.error &&& (State.endof ||| State.error) ≠ 0 := by decide
    rcases h with hstate | hstate <;> simp [Impl.isexcept, hstate, hendof, herror]
  simp [Impl.cisready, hexcept]

/-- The event that has brought the end of data is still set in the next round, which reads on. -/
theorem ended_reads_on : ¬∀ (wantwr : Bool) (incells outcells : Vector UInt8 bufsize) (actions : List SslAction)
    (last : SslHistory), run SslHistory.step (.create wantwr incells outcells) actions = some last →
      Always SslHistory.step Terminal (.create wantwr incells outcells) actions := by
  intro h
  have hrun : (run SslHistory.step (.create true (.replicate bufsize 0) (.replicate bufsize 0))
      [.cprocess (.plain mdeventwr .wantRead [] .none), .cprocess (.plain mdeventrd .zeroReturn [] .none),
        .cprocess (.plain mdeventrd .zeroReturn [] .none)]).map SslHistory.log =
      some [.event (.endof []), .event .shutdown, .event .read, .event (.endof []), .event .shutdown, .event .read,
        .event .write] := by
    decide +kernel
  obtain ⟨last, hlast, hlog⟩ := Option.map_eq_some_iff.mp hrun
  have hallowed := ((h true _ _ _ last hlast).final hlast).allowed
  rw [hlog] at hallowed
  exact hallowed.2.2.1

end Aug.Net.Ssl
