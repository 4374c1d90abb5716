import Aug.Util.EventDelivery

/-!
# Waking up the consumer

The marker in the shared pointer is swapped away by the first event and never comes back, and no
wake-up is ever owed: the consumer waits on a null pointer, and a byte in the pipe stays there.
-/

namespace Aug.Util

open Aug.Lib

variable {P A E : Type}

namespace Events

/-- A consumer that was told to wait will be woken by the next event. -/
def Armed (events : Events P A E) : Prop := events.blocked = true → events.shared = .wakeup

/-- The bytes in the pipe are among those that the consumer intends to flush. -/
def Owed (events : Events P A E) : Prop := events.pipe ≤ events.wakeups

/-- The consumer swaps null for null: there is nothing to read and no marker. -/
def Empties (events : Events P A E) (action : Action P A E) : Prop :=
  action = .cas ∧ events.consumer = .cas ∧ events.local' = .null ∧ events.shared = .null

/-- A wake-up goes into the pipe. -/
def Wakes (events : Events P A E) (action : Action P A E) : Prop :=
  ∃ p, action = .mwrite p .wrote ∧ events.producer p = .wake

/-- What a step does to the shared pointer, the pipe and the consumer's waiting. -/
inductive Signal (events : Events P A E) (action : Action P A E) (next : Events P A E) : Prop
  | quiet : next.shared = events.shared → next.blocked = events.blocked → next.pipe = events.pipe →
    Signal events action next
  | push (a : A) : next.shared = .link a → next.blocked = false → next.pipe = events.pipe →
    Signal events action next
  | wake : Wakes events action → next.shared = events.shared → next.blocked = events.blocked →
    next.pipe = events.pipe + 1 → Signal events action next
  | wait : events.shared = .wakeup → next.shared = .wakeup → next.pipe = events.pipe →
    Signal events action next
  | detach (a : A) : events.shared = .link a → next.shared = .null → next.blocked = events.blocked →
    next.pipe = events.pipe → Signal events action next
  | empty : Empties events action → next.shared = .null → next.blocked = true → next.pipe = events.pipe →
    Signal events action next

variable [DecidableEq A] {events next : Events P A E} {action : Action P A E}

/-- Handing out an event gives no signal. -/
theorem deliver_signal {top : Ptr A} (h : ({ events with local' := top }).deliver = some next) :
    Signal events action next := by
  obtain ⟨a, link, -, -, heq⟩ := deliver_some h
  rw [heq]
  exact .quiet rfl rfl rfl

variable [DecidableEq P]

/-- Every step gives one of the signals. -/
theorem InOrder.signal (hin : events.InOrder) (h : events.step action = some next) :
    Signal events action next := by
  obtain ⟨stack, queue, shared, hordered⟩ := hin
  have hwakeups := hordered.wakeups
  cases step_change h with
  | write => exact .quiet rfl rfl rfl
  | acquireptr => exact .quiet rfl rfl rfl
  | push => exact .push _ rfl rfl rfl
  | retry => exact .quiet rfl rfl rfl
  | wake hwake => exact .wake ⟨_, rfl, hwake⟩ rfl rfl rfl
  | interrupt => exact .quiet rfl rfl rfl
  | lose => exact .quiet rfl rfl rfl
  | pop _ _ hdeliver => exact deliver_signal hdeliver
  | look => exact .quiet rfl rfl rfl
  | marked _ hshared => exact .wait hshared hshared rfl
  | load => exact .quiet rfl rfl rfl
  | flush _ _ hpos => exact absurd hwakeups (Nat.ne_of_gt hpos)
  | detach hconsumer hsame =>
    cases hlocal : events.local' with
    | link a =>
      rw [hlocal] at hsame
      exact .detach a hsame rfl rfl rfl
    | null =>
      rw [hlocal] at hsame
      exact .empty ⟨rfl, hconsumer, hlocal, hsame⟩ rfl rfl rfl
    | wakeup => exact absurd hlocal hordered.marker
  | reload => exact .quiet rfl rfl rfl
  | drain hconsumer =>
    have hprivate := hordered.private'
    simp [Private, hconsumer] at hprivate
  | turn => exact .quiet rfl rfl rfl
  | out _ _ hdeliver => exact deliver_signal hdeliver

/-- Once it has been swapped away, the marker never comes back. -/
theorem InOrder.unmarked (hin : events.InOrder) (h : events.step action = some next)
    (hshared : events.shared ≠ .wakeup) : next.shared ≠ .wakeup := by
  cases hin.signal h with
  | quiet hsame => rwa [hsame]
  | push a hlink => simp [hlink]
  | wake _ hsame => rwa [hsame]
  | wait hmarker => exact absurd hmarker hshared
  | detach a _ hnull => simp [hnull]
  | empty _ hnull => simp [hnull]

/-- A byte in the pipe is never read. -/
theorem InOrder.pipe_le (hin : events.InOrder) (h : events.step action = some next) :
    events.pipe ≤ next.pipe := by
  cases hin.signal h <;> omega

/-- A producer that swaps the marker away goes on to write a byte. -/
theorem marker_wakes {p : P} (h : events.step (.casptr p) = some next) (hshared : events.shared = .wakeup)
    (hpush : next.shared ≠ .wakeup) : next.producer p = .wake := by
  cases step_change h with
  | push => rw [goto_producer, if_pos rfl, if_pos hshared]
  | retry => exact absurd hshared hpush

/-- A step that neither wakes nor finds the stack empty keeps the consumer armed and the pipe clear. -/
theorem InOrder.armed (hin : events.InOrder) (hevents : events.Armed ∧ events.Owed)
    (h : events.step action = some next) (hgood : ¬(Wakes events action ∨ Empties events action)) :
    next.Armed ∧ next.Owed := by
  obtain ⟨harmed, howed⟩ := hevents
  rw [not_or] at hgood
  obtain ⟨stack, queue, shared, hordered⟩ := hin
  obtain ⟨_, _, _, hnext⟩ := InOrder.step ⟨stack, queue, shared, hordered⟩ h
  unfold Owed at howed ⊢
  rw [hordered.wakeups] at howed
  rw [hnext.wakeups]
  cases InOrder.signal ⟨stack, queue, shared, hordered⟩ h with
  | quiet hshared hblocked hpipe =>
    rw [hpipe]
    refine ⟨?_, howed⟩
    intro hwait
    rw [hshared]
    exact harmed (hblocked ▸ hwait)
  | push a _ hblocked hpipe =>
    rw [hpipe]
    refine ⟨?_, howed⟩
    intro hwait
    rw [hblocked] at hwait
    cases hwait
  | wake hwakes => exact absurd hwakes hgood.1
  | wait _ hshared hpipe =>
    rw [hpipe]
    exact ⟨fun _ => hshared, howed⟩
  | detach a hshared _ hblocked hpipe =>
    rw [hpipe]
    refine ⟨?_, howed⟩
    intro hwait
    rw [hblocked] at hwait
    have hmarker := harmed hwait
    rw [hshared] at hmarker
    cases hmarker
  | empty hempties => exact absurd hempties hgood.2

/-- A step that wakes leaves a byte that nobody owes, and one that finds the stack empty leaves the
consumer waiting without the marker. -/
theorem InOrder.disarmed (hin : events.InOrder) (h : events.step action = some next)
    (hbad : Wakes events action ∨ Empties events action) : ¬(next.Armed ∧ next.Owed) := by
  rintro ⟨harmed, howed⟩
  obtain ⟨_, _, _, hnext⟩ := hin.step h
  obtain ⟨_, _, _, hordered⟩ := hin
  rcases hbad with ⟨p, rfl, hwake⟩ | ⟨rfl, hconsumer, hlocal, hshared⟩
  · simp only [Events.step, hwake, Option.some.injEq] at h
    unfold Owed at howed
    rw [hnext.wakeups, ← h] at howed
    simp [goto] at howed
  · simp only [Events.step, hconsumer, hlocal, hshared, hordered.wakeups, lt_irrefl, if_false, if_true,
      loaded, Option.some.injEq] at h
    rw [← h] at harmed
    have hmarker := harmed rfl
    cases hmarker

/-- Along a run from a new queue, the consumer is always armed and the pipe always clear if and only
if no byte is ever written to the pipe and the consumer never finds the shared pointer null. -/
theorem armed_iff (actions : List (Action P A E)) (h : run step create actions = some events) :
    Always step (fun events => events.Armed ∧ events.Owed) create actions ↔
      Avoids step (fun events action => Wakes events action ∨ Empties events action) create actions := by
  have hcreate : (create : Events P A E).InOrder := ⟨[], [], [], ordered_create⟩
  exact always_iff_avoids (fun _ _ _ hin hstep => InOrder.step hin hstep)
    (fun _ _ _ hin hevents hstep => InOrder.armed hin hevents hstep)
    (fun _ _ _ hin _ hstep => InOrder.disarmed hin hstep) hcreate ⟨nofun, le_refl 0⟩ h

/-- A consumer that waits from the start, and takes the event before its producer writes the byte. -/
def readFirst : List (Action Unit ℕ ℕ) :=
  [.read, .acquire, .write () 0 7, .acquireptr (), .casptr (), .read, .acquire, .cas, .reverse, .reverse]

theorem armed_iff_read_first : ∃ events : Events Unit ℕ ℕ,
    run step create readFirst = some events ∧ events.delivered = [7] ∧
      (Always step (fun events => events.Armed ∧ events.Owed) create readFirst ↔
        Avoids step (fun events action => Wakes events action ∨ Empties events action) create readFirst) :=
  ⟨_, rfl, rfl, armed_iff readFirst rfl⟩

/-- One event is written and read, and the consumer reads once more. -/
def readTwice : List (Action Unit ℕ ℕ) :=
  [.write () 0 7, .acquireptr (), .casptr (), .mwrite () .wrote, .read, .acquire, .cas, .reverse, .reverse,
    .read, .acquire, .cas]

/-- The consumer is told to wait with a null pointer shared, and the pipe stays readable. -/
theorem waits_unmarked : ∃ events : Events Unit ℕ ℕ, run step create readTwice = some events ∧
    events.consumer = .idle ∧ ¬events.Armed ∧ ¬events.Owed := by
  refine ⟨_, rfl, rfl, ?_, ?_⟩
  · intro harmed
    exact absurd (harmed rfl) (by decide)
  · exact Nat.not_succ_le_zero 0

end Events

end Aug.Util
