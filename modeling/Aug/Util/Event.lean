import Aug.Lib.LinkedList
import Mathlib.Data.List.Infix

/-!
# The event queue

The functions of `event.c`, cut into their atomic steps: any number of producers in
`aug_writeevent_B` and one consumer in `aug_readevent`. What a thread does to memory that no other
thread reaches is part of the step before it. The links are in a heap whose addresses may be used
again once a link has been destroyed.
-/

namespace Aug.Util

open Aug.Lib

/-- A pointer of type `void*` as `shared_` holds it: null, `WAKEUP_` or a link. -/
inductive Ptr (A : Type)
  | null
  | wakeup
  | link (a : A)
deriving DecidableEq, Repr

/-- The link that a pointer leads to, where the marker counts as null. -/
def Ptr.head {A : Type} : Ptr A → Option A
  | .link a => some a
  | _ => none

theorem Ptr.head_eq_none {A : Type} {top : Ptr A} (h : ∀ a, top ≠ .link a) : top.head = none := by
  cases top with
  | null => rfl
  | wakeup => rfl
  | link a => exact absurd rfl (h a)

/-- The pointer in a link's `next_`. -/
def Ptr.next {A : Type} : Option A → Ptr A
  | some a => .link a
  | none => .null

/-- Where a producer is: outside of a call, in front of the acquiring load or the compare-and-swap of
`pushcasptr_B`, or in `wakeup_B`. -/
inductive Producer (A : Type)
  | idle
  | acquire (link : A)
  | cas (link : A) (next : Ptr A)
  | wake
deriving DecidableEq, Repr

/-- Where the consumer is: outside of a call, in front of the acquiring load or the compare-and-swap
of `loadcasptr_`, in `flush_`, or in the loop of `reverse_`. -/
inductive Consumer (A : Type)
  | idle
  | acquire
  | cas
  | flush
  | reverse (revd : Option A)
deriving DecidableEq, Repr

/-- The outcome of a write to the pipe. -/
inductive Mwrite
  | wrote
  | intr
  | fail
deriving DecidableEq, Repr

/-- The outcome of a read from the pipe. -/
inductive Mread
  | read (size : ℕ)
  | intr
  | block
  | fail
deriving DecidableEq, Repr

/-- The state of an event queue and of its threads, with the events written and delivered so far and
whether the consumer has been told to wait since the last write. -/
structure Events (P A E : Type) where
  heap : A → Option (Cell A E)
  shared : Ptr A
  local' : Ptr A
  wakeups : ℕ
  pipe : ℕ
  producer : P → Producer A
  consumer : Consumer A
  written : List E
  delivered : List E
  blocked : Bool

/-- A step of one thread. A write brings the address that its link is allocated at. -/
inductive Action (P A E : Type)
  | write (p : P) (a : A) (event : E)
  | acquireptr (p : P)
  | casptr (p : P)
  | mwrite (p : P) (outcome : Mwrite)
  | read
  | acquire
  | cas
  | mread (outcome : Mread)
  | reverse

namespace Events

variable {P A E : Type}

/-- `aug_createevents_BIN`. -/
def create : Events P A E where
  heap _ := none
  shared := .wakeup
  local' := .null
  wakeups := 0
  pipe := 0
  producer _ := .idle
  consumer := .idle
  written := []
  delivered := []
  blocked := false

variable [DecidableEq P] [DecidableEq A]

/-- The producer is at another place. -/
def goto (p : P) (producer : Producer A) (events : Events P A E) : Events P A E :=
  { events with producer := Function.update events.producer p producer }

/-- The end of `aug_readevent`: pop a link off `local_`, hand out its event and destroy it. -/
def deliver (events : Events P A E) : Option (Events P A E) :=
  match events.local' with
  | .link a =>
    match events.heap a with
    | some link =>
      some { events with
        heap := Function.update events.heap a none
        local' := .next link.next
        consumer := .idle
        delivered := events.delivered ++ [link.value] }
    | none => none
  | _ => none

/-- The end of `loadcasptr_` and what follows it: nothing to read, or a stack to reverse. -/
def loaded (events : Events P A E) : Events P A E :=
  match events.local' with
  | .link _ => { events with consumer := .reverse none }
  | _ => { events with consumer := .idle, blocked := true }

/-- The steps of `aug_writeevent_B` and `aug_readevent`. -/
def step (events : Events P A E) : Action P A E → Option (Events P A E)
  | .write p a event =>
    match events.producer p, events.heap a with
    | .idle, none =>
      some ({ events with heap := Function.update events.heap a (some { next := none, value := event }) }.goto p
        (.acquire a))
    | _, _ => none
  | .acquireptr p =>
    match events.producer p with
    | .acquire a =>
      match events.heap a with
      | some link =>
        some ({ events with
          heap := Function.update events.heap a (some { link with next := events.shared.head }) }.goto p
          (.cas a events.shared))
      | none => none
    | _ => none
  | .casptr p =>
    match events.producer p with
    | .cas a next =>
      if events.shared = next then
        match events.heap a with
        | some link =>
          some ({ events with
            shared := .link a
            written := events.written ++ [link.value]
            blocked := false }.goto p (if next = Ptr.wakeup then .wake else .idle))
        | none => none
      else some (events.goto p (.acquire a))
    | _ => none
  | .mwrite p outcome =>
    match events.producer p, outcome with
    | .wake, .wrote => some ({ events with pipe := events.pipe + 1 }.goto p .idle)
    | .wake, .intr => some events
    | .wake, .fail => some (events.goto p .idle)
    | _, _ => none
  | .read =>
    match events.consumer, events.local' with
    | .idle, .link _ => events.deliver
    | .idle, _ => some { events with consumer := .acquire }
    | _, _ => none
  | .acquire =>
    match events.consumer with
    | .acquire =>
      -- the condition of `if (head)` is always true, as `head` is the address of `local_`
      if events.shared = .wakeup then some { events with local' := .null }.loaded
      else some { events with local' := events.shared, consumer := .cas }
    | _ => none
  | .cas =>
    match events.consumer with
    | .cas =>
      if events.shared = events.local' then
        if 0 < events.wakeups then some { events with shared := .null, consumer := .flush }
        else some { events with shared := .null }.loaded
      else some { events with consumer := .acquire }
    | _ => none
  | .mread outcome =>
    match events.consumer, outcome with
    -- `rsize` is the truth value of the comparison: zero, taken for the end of the file, after a read
    | .flush, .read size =>
      if size ≤ events.pipe ∧ size ≤ events.wakeups then
        some { events with pipe := events.pipe - size, consumer := .idle }
      else none
    | .flush, .intr => some events
    | .flush, .block => some events.loaded
    | .flush, .fail => some { events with wakeups := events.wakeups - 1 }.loaded
    | _, _ => none
  | .reverse =>
    match events.consumer with
    | .reverse revd =>
      match events.local' with
      | .link a =>
        match events.heap a with
        | some link =>
          some { events with
            heap := Function.update events.heap a (some { link with next := revd })
            local' := .next link.next
            consumer := .reverse (some a) }
        | none => none
      | _ => { events with local' := .next revd }.deliver
    | _ => none

/-- What a step can do. Of a read from the pipe it only says what it leaves. -/
inductive Change (events : Events P A E) : Action P A E → Events P A E → Prop
  | write {p : P} {a : A} (event : E) : events.producer p = .idle → events.heap a = none →
    Change events (.write p a event)
      ({ events with heap := Function.update events.heap a (some { next := none, value := event }) }.goto p
        (.acquire a))
  | acquireptr {p : P} {a : A} {link : Cell A E} : events.producer p = .acquire a → events.heap a = some link →
    Change events (.acquireptr p)
      ({ events with
        heap := Function.update events.heap a (some { link with next := events.shared.head }) }.goto p
        (.cas a events.shared))
  | push {p : P} {a : A} {link : Cell A E} : events.producer p = .cas a events.shared → events.heap a = some link →
    Change events (.casptr p)
      ({ events with
        shared := .link a
        written := events.written ++ [link.value]
        blocked := false }.goto p (if events.shared = Ptr.wakeup then .wake else .idle))
  | retry {p : P} {a : A} {next : Ptr A} : events.producer p = .cas a next → events.shared ≠ next →
    Change events (.casptr p) (events.goto p (.acquire a))
  | wake {p : P} : events.producer p = .wake →
    Change events (.mwrite p .wrote) ({ events with pipe := events.pipe + 1 }.goto p .idle)
  | interrupt {p : P} : events.producer p = .wake → Change events (.mwrite p .intr) events
  | lose {p : P} : events.producer p = .wake → Change events (.mwrite p .fail) (events.goto p .idle)
  | pop {a : A} {next : Events P A E} : events.consumer = .idle → events.local' = .link a →
    events.deliver = some next → Change events .read next
  | look : events.consumer = .idle → (∀ a, events.local' ≠ .link a) →
    Change events .read { events with consumer := .acquire }
  | marked : events.consumer = .acquire → events.shared = .wakeup →
    Change events .acquire { events with local' := .null }.loaded
  | load : events.consumer = .acquire → events.shared ≠ .wakeup →
    Change events .acquire { events with local' := events.shared, consumer := .cas }
  | flush : events.consumer = .cas → events.shared = events.local' → 0 < events.wakeups →
    Change events .cas { events with shared := .null, consumer := .flush }
  | detach : events.consumer = .cas → events.shared = events.local' → events.wakeups = 0 →
    Change events .cas { events with shared := .null }.loaded
  | reload : events.consumer = .cas → events.shared ≠ events.local' →
    Change events .cas { events with consumer := .acquire }
  | drain {outcome : Mread} {next : Events P A E} : events.consumer = .flush →
    next.shared = events.shared → next.written = events.written → Change events (.mread outcome) next
  | turn {revd : Option A} {a : A} {link : Cell A E} : events.consumer = .reverse revd →
    events.local' = .link a → events.heap a = some link →
    Change events .reverse { events with
      heap := Function.update events.heap a (some { link with next := revd })
      local' := .next link.next
      consumer := .reverse (some a) }
  | out {revd : Option A} {next : Events P A E} : events.consumer = .reverse revd →
    (∀ a, events.local' ≠ .link a) → { events with local' := .next revd }.deliver = some next →
    Change events .reverse next

variable {events next : Events P A E} {action : Action P A E}

omit [DecidableEq P] in
/-- An event is handed out from the top of the private queue. -/
theorem deliver_some {top : Ptr A} (h : ({ events with local' := top }).deliver = some next) :
    ∃ a link, top = .link a ∧ events.heap a = some link ∧ next = { events with
      heap := Function.update events.heap a none
      local' := .next link.next
      consumer := .idle
      delivered := events.delivered ++ [link.value] } := by
  unfold deliver at h
  split at h
  · rename_i a hlocal
    split at h
    · rename_i link hheap
      rw [Option.some.injEq] at h
      exact ⟨a, link, hlocal, hheap, h.symm⟩
    · cases h
  · cases h

omit [DecidableEq P] [DecidableEq A] in
@[simp] theorem loaded_shared (events : Events P A E) : events.loaded.shared = events.shared := by
  unfold loaded
  split <;> rfl

omit [DecidableEq P] [DecidableEq A] in
@[simp] theorem loaded_written (events : Events P A E) : events.loaded.written = events.written := by
  unfold loaded
  split <;> rfl

/-- Every step makes one of the changes. -/
theorem step_change (h : events.step action = some next) : Change events action next := by
  cases action with
  | write p a event =>
    simp only [step] at h
    split at h
    case h_1 hidle hfree =>
      cases h
      exact .write event hidle hfree
    case h_2 => cases h
  | acquireptr p =>
    simp only [step] at h
    split at h
    case h_1 a hproducer =>
      split at h
      case h_1 link hheap =>
        cases h
        exact .acquireptr hproducer hheap
      case h_2 => cases h
    case h_2 => cases h
  | casptr p =>
    simp only [step] at h
    split at h
    case h_1 a head hproducer =>
      split at h
      case isTrue hsame =>
        split at h
        case h_1 link hheap =>
          cases h
          rw [← hsame] at hproducer ⊢
          exact .push hproducer hheap
        case h_2 => cases h
      case isFalse hdiffers =>
        cases h
        exact .retry hproducer hdiffers
    case h_2 => cases h
  | mwrite p outcome =>
    simp only [step] at h
    split at h
    case h_1 hproducer =>
      cases h
      exact .wake hproducer
    case h_2 hproducer =>
      cases h
      exact .interrupt hproducer
    case h_3 hproducer =>
      cases h
      exact .lose hproducer
    case h_4 => cases h
  | read =>
    simp only [step] at h
    split at h
    case h_1 a hconsumer hlocal => exact .pop hconsumer hlocal h
    case h_2 hconsumer hlocal =>
      cases h
      exact .look hconsumer hlocal
    case h_3 => cases h
  | acquire =>
    simp only [step] at h
    split at h
    case h_1 hconsumer =>
      split at h
      case isTrue hshared =>
        cases h
        exact .marked hconsumer hshared
      case isFalse hshared =>
        cases h
        exact .load hconsumer hshared
    case h_2 => cases h
  | cas =>
    simp only [step] at h
    split at h
    case h_1 hconsumer =>
      split at h
      case isTrue hsame =>
        split at h
        case isTrue hwakeups =>
          cases h
          exact .flush hconsumer hsame hwakeups
        case isFalse hwakeups =>
          cases h
          exact .detach hconsumer hsame (Nat.eq_zero_of_not_pos hwakeups)
      case isFalse hdiffers =>
        cases h
        exact .reload hconsumer hdiffers
    case h_2 => cases h
  | mread outcome =>
    simp only [step] at h
    split at h
    case h_1 hconsumer =>
      split at h
      case isTrue =>
        cases h
        exact .drain hconsumer rfl rfl
      case isFalse => cases h
    case h_2 hconsumer =>
      cases h
      exact .drain hconsumer rfl rfl
    case h_3 hconsumer =>
      cases h
      exact .drain hconsumer (loaded_shared _) (loaded_written _)
    case h_4 hconsumer =>
      cases h
      exact .drain hconsumer (loaded_shared _) (loaded_written _)
    case h_5 => cases h
  | reverse =>
    simp only [step] at h
    split at h
    case h_1 revd hconsumer =>
      split at h
      case h_1 a hlocal =>
        split at h
        case h_1 link hheap =>
          cases h
          exact .turn hconsumer hlocal hheap
        case h_2 => cases h
      case h_2 hlocal => exact .out hconsumer hlocal h
    case h_2 => cases h

end Events

end Aug.Util
