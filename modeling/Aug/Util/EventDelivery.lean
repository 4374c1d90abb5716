import Aug.Util.Event
import Aug.Lib.Transition
import Mathlib.Data.List.Nodup

/-!
# Delivery of events

Under every interleaving the events delivered, those on the consumer's private list and those on
the shared stack, from its bottom up, are exactly the events written, in the order of the successful
compare-and-swaps.
-/

namespace Aug.Util

open Aug.Lib

variable {P A E : Type}

@[simp] theorem Ptr.head_next (next : Option A) : (Ptr.next next).head = next := by
  cases next <;> rfl

@[simp] theorem Ptr.next_ne_wakeup (next : Option A) : Ptr.next next ≠ .wakeup := by
  cases next <;> nofun

/-- The link that a producer has created and not yet put on the stack. -/
def Producer.owns : Producer A → Option A
  | .acquire a => some a
  | .cas a _ => some a
  | _ => none

namespace Events

/-- The consumer's private list: a stack that is still to be reversed, and a queue after it. -/
def Private (events : Events P A E) (stack queue : List (A × E)) : Prop :=
  match events.consumer with
  | .idle => stack = [] ∧ Chain events.heap events.local'.head queue
  | .reverse revd => Chain events.heap events.local'.head stack ∧ Chain events.heap revd queue ∧
      (stack ≠ [] ∨ queue ≠ [])
  | .flush => False
  | _ => stack = [] ∧ queue = []

/-- The invariant of an event queue, on the links of its private list and of its shared stack. -/
structure Ordered (events : Events P A E) (stack queue shared : List (A × E)) : Prop where
  chain : Chain events.heap events.shared.head shared
  private' : events.Private stack queue
  wakeups : events.wakeups = 0
  nodup : (addresses (stack ++ queue ++ shared)).Nodup
  written : events.written =
    events.delivered ++ (values stack).reverse ++ values queue ++ (values shared).reverse
  owned {p : P} {a : A} : (events.producer p).owns = some a → a ∉ addresses (stack ++ queue ++ shared) ∧
    ∃ link, events.heap a = some link ∧
      ∀ next, events.producer p = .cas a next → link.next = next.head
  distinct {p q : P} {a : A} : (events.producer p).owns = some a → (events.producer q).owns = some a → p = q
  marker : events.local' ≠ .wakeup

variable {events next : Events P A E} {stack queue shared : List (A × E)}

theorem ordered_create : (create : Events P A E).Ordered [] [] [] where
  chain := .nil
  private' := ⟨rfl, .nil⟩
  wakeups := rfl
  nodup := by simp [addresses]
  written := by simp [create, values]
  owned h := by simp [create, Producer.owns] at h
  distinct h := by simp [create, Producer.owns] at h
  marker := nofun

theorem mem_addresses {cells cells' : List (A × E)} {a : A} :
    a ∈ addresses (cells ++ cells') ↔ a ∈ addresses cells ∨ a ∈ addresses cells' := by
  simp [addresses]

/-- Every link on one of the lists is allocated. -/
theorem Ordered.allocated (h : events.Ordered stack queue shared) {a : A}
    (ha : a ∈ addresses (stack ++ queue ++ shared)) : events.heap a ≠ none := by
  have hprivate := h.private'
  rw [mem_addresses, mem_addresses] at ha
  rcases ha with (hstack | hqueue) | hshared
  · unfold Private at hprivate
    cases hconsumer : events.consumer <;> simp only [hconsumer] at hprivate
    case reverse => exact hprivate.1.allocated hstack
    all_goals simp [hprivate, addresses] at hstack
  · unfold Private at hprivate
    cases hconsumer : events.consumer <;> simp only [hconsumer] at hprivate
    case reverse => exact hprivate.2.1.allocated hqueue
    case idle => exact hprivate.2.allocated hqueue
    all_goals simp [hprivate, addresses] at hqueue
  · exact h.chain.allocated hshared

/-- The private list stays as it is if its links do. -/
theorem Private.frame (h : events.Private stack queue) (hconsumer : next.consumer = events.consumer)
    (hlocal : next.local' = events.local')
    (hsame : ∀ a ∈ addresses (stack ++ queue), next.heap a = events.heap a) : next.Private stack queue := by
  unfold Private at h ⊢
  rw [hconsumer, hlocal]
  have hstack : ∀ a ∈ addresses stack, next.heap a = events.heap a :=
    fun a ha => hsame a (mem_addresses.mpr (.inl ha))
  have hqueue : ∀ a ∈ addresses queue, next.heap a = events.heap a :=
    fun a ha => hsame a (mem_addresses.mpr (.inr ha))
  cases hcase : events.consumer <;> simp only [hcase] at h ⊢
  case idle => exact ⟨h.1, h.2.frame hqueue⟩
  case reverse => exact ⟨h.1.frame hstack, h.2.1.frame hqueue, h.2.2⟩
  all_goals exact h

/-- The events of the links that a pointer leads to. -/
def Listed (events : Events P A E) (p : Option A) (list : List E) : Prop :=
  ∃ cells, Chain events.heap p cells ∧ values cells = list

/-- The events on the consumer's private list, in the order in which they will be returned: while the
list is being reversed, those already reversed come after those that are not. -/
def Privately (events : Events P A E) (list : List E) : Prop :=
  match events.consumer with
  | .idle => events.Listed events.local'.head list
  | .flush => ∃ stack, events.Listed events.local'.head stack ∧ list = stack.reverse
  | .reverse revd => ∃ stack queue, events.Listed events.local'.head stack ∧ events.Listed revd queue ∧
      list = stack.reverse ++ queue
  | _ => list = []

theorem Private.privately (h : events.Private stack queue) :
    events.Privately ((values stack).reverse ++ values queue) := by
  unfold Private at h
  unfold Privately
  cases hconsumer : events.consumer <;> simp only [hconsumer] at h ⊢
  case idle =>
    rw [h.1]
    exact ⟨queue, h.2, rfl⟩
  case reverse => exact ⟨values stack, values queue, ⟨stack, h.1, rfl⟩, ⟨queue, h.2.1, rfl⟩, rfl⟩
  all_goals simp [h.1, h.2, values]

/-- Some lists of links are in order. -/
def InOrder (events : Events P A E) : Prop := ∃ stack queue shared, events.Ordered stack queue shared

section Producers

variable [DecidableEq P]

@[simp] theorem goto_producer (p q : P) (producer : Producer A) (events : Events P A E) :
    ((events.goto p producer).producer q) = if q = p then producer else events.producer q := by
  simp [goto, Function.update_apply]

/-- A producer without a link of its own may go anywhere that owns none. -/
theorem Ordered.goto (h : events.Ordered stack queue shared) (p : P) {producer : Producer A}
    (howns : producer.owns = none) : (events.goto p producer).Ordered stack queue shared where
  chain := h.chain
  private' := h.private'.frame rfl rfl fun _ _ => rfl
  wakeups := h.wakeups
  nodup := h.nodup
  written := h.written
  owned {q a} hq := by
    rw [goto_producer] at hq ⊢
    split_ifs at hq ⊢
    · simp [howns] at hq
    · exact h.owned hq
  distinct {q r a} hq hr := by
    rw [goto_producer] at hq hr
    split_ifs at hq hr
    · simp [howns] at hq
    · simp [howns] at hq
    · simp [howns] at hr
    · exact h.distinct hq hr
  marker := h.marker

/-- A link that points to the top of the shared stack becomes its top. -/
theorem Ordered.push (h : events.Ordered stack queue shared) {p : P} {a : A} {link : Cell A E}
    {producer : Producer A} (howns : (events.producer p).owns = some a) (hlink : events.heap a = some link)
    (hnext : link.next = events.shared.head) (hnone : producer.owns = none) :
    ({ events with
      shared := .link a
      written := events.written ++ [link.value]
      blocked := false }.goto p producer).Ordered stack queue ((a, link.value) :: shared) where
  chain := by
    have hchain := h.chain
    rw [← hnext] at hchain
    exact .cons hlink hchain
  private' := h.private'.frame rfl rfl fun _ _ => rfl
  wakeups := h.wakeups
  nodup := by
    have hnodup := h.nodup
    have ha := (h.owned howns).1
    simp only [addresses, List.map_append, List.map_cons] at hnodup ha ⊢
    exact (List.nodup_middle.mpr (List.nodup_cons.mpr ⟨ha, hnodup⟩))
  written := by
    have hwritten := h.written
    simp only [values, List.map_cons, List.reverse_cons, List.append_assoc] at hwritten ⊢
    simp only [Events.goto, hwritten, List.append_assoc]
  owned {q b} hq := by
    rw [goto_producer] at hq ⊢
    split_ifs at hq ⊢ with hqp
    · simp [hnone] at hq
    · obtain ⟨hb, hlink'⟩ := h.owned hq
      have hne : b ≠ a := by
        rintro rfl
        exact hqp (h.distinct hq howns)
      refine ⟨?_, hlink'⟩
      simp only [addresses, List.map_append, List.map_cons, List.mem_append, List.mem_cons] at hb ⊢
      tauto
  distinct {q r b} hq hr := by
    rw [goto_producer] at hq hr
    split_ifs at hq hr
    · simp [hnone] at hq
    · simp [hnone] at hq
    · simp [hnone] at hr
    · exact h.distinct hq hr
  marker := h.marker

end Producers

section Heap

variable [DecidableEq A]

/-- A link that is on no list may be changed. -/
theorem Ordered.update (h : events.Ordered stack queue shared) {a : A}
    (ha : a ∉ addresses (stack ++ queue ++ shared)) (cell : Option (Cell A E)) :
    Chain (Function.update events.heap a cell) events.shared.head shared ∧
      ({ events with heap := Function.update events.heap a cell }).Private stack queue := by
  rw [mem_addresses, not_or] at ha
  constructor
  · exact h.chain.update ha.2 cell
  · have hsame : ∀ b ∈ addresses (stack ++ queue),
        Function.update events.heap a cell b = events.heap b := by
      intro b hb
      apply Function.update_of_ne
      rintro rfl
      exact ha.1 hb
    exact h.private'.frame rfl rfl hsame

/-- The consumer hands out the oldest event when nothing is left to be reversed. -/
theorem Ordered.deliver (h : events.Ordered stack queue shared) (top : Ptr A) {cells : List (A × E)}
    (hlocal : Chain events.heap top.head cells)
    (hcells : (values stack).reverse ++ values queue = values cells)
    (hnodup : (addresses (cells ++ shared)).Nodup)
    (howned : ∀ a ∈ addresses (cells ++ shared), a ∈ addresses (stack ++ queue ++ shared))
    (hstep : ({ events with local' := top }).deliver = some next) : next.InOrder := by
  obtain ⟨a, link, rfl, hlink, rfl⟩ := deliver_some hstep
  obtain ⟨following, value, rest, rfl, hcell, hrest⟩ := hlocal.eq_cons
  rw [hlink, Option.some.injEq] at hcell
  subst hcell
  have hnotin : a ∉ addresses (rest ++ shared) := (List.nodup_cons.mp hnodup).1
  have hkeep : ∀ b ∈ addresses (rest ++ shared), b ∈ addresses (stack ++ queue ++ shared) :=
    fun b hb => howned b (List.mem_cons_of_mem a hb)
  refine ⟨[], rest, shared, ?_⟩
  rw [mem_addresses, not_or] at hnotin
  constructor
  · exact h.chain.update hnotin.2 none
  · apply And.intro rfl
    simpa using hrest.update hnotin.1 none
  · exact h.wakeups
  · exact (List.nodup_cons.mp hnodup).2
  · rw [h.written, List.append_assoc, List.append_assoc, ← List.append_assoc _ (values queue), hcells]
    simp [values]
  · intro p b hb
    obtain ⟨hnot, link, hheap, hnext⟩ := h.owned hb
    have hne : b ≠ a := by
      rintro rfl
      exact hnot (howned b (List.mem_cons_self ..))
    exact ⟨fun hmem => hnot (hkeep b hmem), link, by simpa [Function.update_of_ne hne] using hheap, hnext⟩
  · exact h.distinct
  · exact Ptr.next_ne_wakeup following

variable [DecidableEq P]

/-- A read hands out the head of the private queue, or has to look at the shared stack. -/
theorem Ordered.read (h : events.Ordered stack queue shared) (hstep : events.step .read = some next) :
    next.InOrder := by
  have hprivate := h.private'
  cases step_change hstep with
  | pop hconsumer _ hdeliver =>
    simp only [Private, hconsumer] at hprivate
    obtain ⟨rfl, hqueue⟩ := hprivate
    exact h.deliver events.local' hqueue (by simp [values]) h.nodup (fun _ ha => ha) hdeliver
  | look hconsumer hlocal =>
    simp only [Private, hconsumer] at hprivate
    obtain ⟨rfl, hqueue⟩ := hprivate
    rw [Ptr.head_eq_none hlocal] at hqueue
    exact ⟨[], queue, shared, h.chain, ⟨rfl, hqueue.eq_nil⟩, h.wakeups, h.nodup, h.written, h.owned,
      h.distinct, h.marker⟩

/-- The acquiring load finds the marker and nothing to read, or the top of the shared stack. -/
theorem Ordered.acquire (h : events.Ordered stack queue shared) (hstep : events.step .acquire = some next) :
    next.InOrder := by
  have hprivate := h.private'
  cases step_change hstep with
  | marked hconsumer =>
    simp only [Private, hconsumer] at hprivate
    obtain ⟨rfl, rfl⟩ := hprivate
    exact ⟨[], [], shared, h.chain, ⟨rfl, .nil⟩, h.wakeups, h.nodup, h.written, h.owned, h.distinct, nofun⟩
  | load hconsumer hshared =>
    simp only [Private, hconsumer] at hprivate
    exact ⟨stack, queue, shared, h.chain, hprivate, h.wakeups, h.nodup, h.written, h.owned, h.distinct,
      hshared⟩

/-- The compare-and-swap makes the whole shared stack private, or has to be tried again. -/
theorem Ordered.cas (h : events.Ordered stack queue shared) (hstep : events.step .cas = some next) :
    next.InOrder := by
  have hprivate := h.private'
  cases step_change hstep with
  | flush _ _ hpos => exact absurd h.wakeups (Nat.ne_of_gt hpos)
  | detach hconsumer hsame =>
    simp only [Private, hconsumer] at hprivate
    obtain ⟨rfl, rfl⟩ := hprivate
    have hchain := h.chain
    rw [hsame] at hchain
    have hnodup := h.nodup
    simp only [List.nil_append] at hnodup
    have hwritten := h.written
    simp only [values, List.map_nil, List.reverse_nil, List.append_nil] at hwritten
    cases hlocal : events.local' with
    | link a =>
      rw [hlocal] at hchain
      obtain ⟨following, value, rest, rfl, -⟩ := hchain.eq_cons
      simp only [loaded]
      refine ⟨(a, value) :: rest, [], [], .nil, ⟨?_, .nil, .inl (List.cons_ne_nil _ _)⟩, h.wakeups, ?_, ?_, ?_,
        h.distinct, nofun⟩
      · exact hchain
      · simpa using hnodup
      · simpa [values] using hwritten
      · intro p b hb
        simpa using h.owned hb
    | null =>
      rw [hlocal] at hchain
      rw [hchain.eq_nil] at hwritten hnodup
      simp only [loaded]
      refine ⟨[], [], [], .nil, ⟨rfl, .nil⟩, h.wakeups, hnodup, ?_, ?_, h.distinct, nofun⟩
      · simpa [values] using hwritten
      · intro p b hb
        simpa [hchain.eq_nil] using h.owned hb
    | wakeup => exact absurd hlocal h.marker
  | reload hconsumer =>
    simp only [Private, hconsumer] at hprivate
    obtain ⟨rfl, rfl⟩ := hprivate
    exact ⟨[], [], shared, h.chain, ⟨rfl, rfl⟩, h.wakeups, h.nodup, h.written, h.owned, h.distinct, h.marker⟩

/-- The consumer never owes a wake-up, so that it does not flush. -/
theorem Ordered.mread (h : events.Ordered stack queue shared) {outcome : Mread}
    (hstep : events.step (.mread outcome) = some next) : next.InOrder := by
  have hprivate := h.private'
  cases step_change hstep with
  | drain hconsumer => simp [Private, hconsumer] at hprivate

/-- A link moves from the stack to the queue; once the stack is empty, the oldest event goes out. -/
theorem Ordered.reverse (h : events.Ordered stack queue shared) (hstep : events.step .reverse = some next) :
    next.InOrder := by
  have hprivate := h.private'
  cases step_change hstep with
  | @turn revd a link hconsumer hlocal hlink =>
    simp only [Private, hconsumer] at hprivate
    obtain ⟨hstack, hqueue, -⟩ := hprivate
    rw [hlocal] at hstack
    obtain ⟨following, value, rest, rfl, hcell, hrest⟩ := hstack.eq_cons
    rw [hlink, Option.some.injEq] at hcell
    subst hcell
    have hperm : (rest ++ (a, value) :: queue ++ shared).Perm ((a, value) :: rest ++ queue ++ shared) :=
      List.perm_middle.append_right shared
    have hmem : ∀ b, b ∈ addresses (rest ++ (a, value) :: queue ++ shared) ↔
        b ∈ addresses ((a, value) :: rest ++ queue ++ shared) := fun b => (hperm.map Prod.fst).mem_iff
    have hnotin : a ∉ addresses (rest ++ queue ++ shared) := (List.nodup_cons.mp h.nodup).1
    rw [mem_addresses, mem_addresses, not_or, not_or] at hnotin
    refine ⟨rest, (a, value) :: queue, shared, ?_⟩
    constructor
    · exact h.chain.update hnotin.2 _
    · refine ⟨?_, hqueue.push hnotin.1.2 value, .inr (List.cons_ne_nil _ _)⟩
      simpa using hrest.update hnotin.1.1 _
    · exact h.wakeups
    · exact (hperm.map Prod.fst).nodup_iff.mpr h.nodup
    · rw [h.written]
      simp [values]
    · intro p b hb
      obtain ⟨hnot, link, hheap, hnext⟩ := h.owned hb
      have hne : b ≠ a := by
        rintro rfl
        exact hnot (List.mem_cons_self ..)
      have hheap' : Function.update events.heap a (some { next := revd, value }) b = some link := by
        rwa [Function.update_of_ne hne]
      exact ⟨fun hin => hnot ((hmem b).mp hin), link, hheap', hnext⟩
    · exact h.distinct
    · exact Ptr.next_ne_wakeup following
  | @out revd _ hconsumer hlocal hdeliver =>
    simp only [Private, hconsumer] at hprivate
    obtain ⟨hstack, hqueue, -⟩ := hprivate
    rw [Ptr.head_eq_none hlocal] at hstack
    rw [hstack.eq_nil] at h
    exact h.deliver (.next revd) (by simpa using hqueue) (by simp [values]) h.nodup (fun _ ha => ha) hdeliver

/-- A producer gets hold of a link, new or already its own. -/
theorem Ordered.own (h : events.Ordered stack queue shared) (p : P) {a : A} (cell : Cell A E)
    (producer : Producer A) (ha : a ∉ addresses (stack ++ queue ++ shared)) (howns : producer.owns = some a)
    (hother : ∀ q, (events.producer q).owns = some a → q = p)
    (hcas : ∀ next, producer = .cas a next → cell.next = next.head) :
    ({ events with heap := Function.update events.heap a (some cell) }.goto p producer).Ordered
      stack queue shared where
  chain := (h.update ha (some cell)).1
  private' := (h.update ha (some cell)).2.frame rfl rfl fun _ _ => rfl
  wakeups := h.wakeups
  nodup := h.nodup
  written := h.written
  owned {q b} hq := by
    rw [goto_producer] at hq ⊢
    split_ifs at hq ⊢ with hqp
    · rw [howns, Option.some.injEq] at hq
      rw [← hq]
      exact ⟨ha, cell, Function.update_self a _ _, hcas⟩
    · have hne : b ≠ a := by
        rintro rfl
        exact hqp (hother q hq)
      obtain ⟨hb, link, hlink, hnext⟩ := h.owned hq
      exact ⟨hb, link, by simpa [Events.goto, Function.update_of_ne hne] using hlink, hnext⟩
  distinct {q r b} hq hr := by
    rw [goto_producer] at hq hr
    split_ifs at hq hr with hqp hrp hrp
    · rw [hqp, hrp]
    · rw [howns, Option.some.injEq] at hq
      rw [← hq] at hr
      exact absurd (hother r hr) hrp
    · rw [howns, Option.some.injEq] at hr
      rw [← hr] at hq
      exact absurd (hother q hq) hqp
    · exact h.distinct hq hr
  marker := h.marker

/-- A new link belongs to its producer alone. -/
theorem Ordered.write (h : events.Ordered stack queue shared) {p : P} {a : A} {event : E}
    (hstep : events.step (.write p a event) = some next) : next.Ordered stack queue shared := by
  cases step_change hstep with
  | write _ hidle hfree =>
    apply h.own p
    · intro ha
      exact h.allocated ha hfree
    · rfl
    · intro q hq
      obtain ⟨-, link, hlink, -⟩ := h.owned hq
      rw [hfree] at hlink
      cases hlink
    · nofun

/-- The acquiring load sets the link's next pointer. -/
theorem Ordered.acquireptr (h : events.Ordered stack queue shared) {p : P}
    (hstep : events.step (.acquireptr p) = some next) : next.Ordered stack queue shared := by
  cases step_change hstep with
  | @acquireptr _ a _ hproducer hlink =>
    have howns : (events.producer p).owns = some a := by rw [hproducer]; rfl
    have ⟨ha, _⟩ := h.owned howns
    apply h.own p _ _ ha
    · rfl
    · intro q hq
      exact h.distinct hq howns
    · rintro next hnext
      simp only [Producer.cas.injEq, true_and] at hnext
      rw [← hnext]

/-- The compare-and-swap puts the link on top of the shared stack, or has to be tried again. -/
theorem Ordered.casptr (h : events.Ordered stack queue shared) {p : P}
    (hstep : events.step (.casptr p) = some next) : next.InOrder := by
  cases step_change hstep with
  | @push _ a link hproducer hlink =>
    have howns : (events.producer p).owns = some a := by rw [hproducer]; rfl
    obtain ⟨_, cell, hcell, hnext⟩ := h.owned howns
    rw [hlink, Option.some.injEq] at hcell
    subst hcell
    exact ⟨stack, queue, _, h.push howns hlink (hnext _ hproducer) (by split_ifs <;> rfl)⟩
  | @retry _ a head hproducer =>
    have howns : (events.producer p).owns = some a := by rw [hproducer]; rfl
    obtain ⟨ha, link, hlink, -⟩ := h.owned howns
    have hsame : Function.update events.heap a (some link) = events.heap := by
      rw [← hlink, Function.update_eq_self]
    have hown := h.own p link (.acquire a) ha rfl (fun q hq => h.distinct hq howns) nofun
    rw [hsame] at hown
    exact ⟨stack, queue, shared, hown⟩

/-- The wake-up concerns the pipe only. -/
theorem Ordered.mwrite (h : events.Ordered stack queue shared) {p : P} {outcome : Mwrite}
    (hstep : events.step (.mwrite p outcome) = some next) : next.Ordered stack queue shared := by
  cases step_change hstep with
  | wake =>
    have hpipe : ({ events with pipe := events.pipe + 1 } : Events P A E).Ordered stack queue shared :=
      ⟨h.chain, h.private'.frame rfl rfl fun _ _ => rfl, h.wakeups, h.nodup, h.written, h.owned, h.distinct,
        h.marker⟩
    exact hpipe.goto p rfl
  | interrupt => exact h
  | lose => exact h.goto p rfl

/-- Every step keeps the links in order. -/
theorem InOrder.step (h : events.InOrder) {action : Action P A E} (hstep : events.step action = some next) :
    next.InOrder := by
  obtain ⟨stack, queue, shared, h⟩ := h
  cases action with
  | write p a event => exact ⟨stack, queue, shared, h.write hstep⟩
  | acquireptr p => exact ⟨stack, queue, shared, h.acquireptr hstep⟩
  | casptr p => exact h.casptr hstep
  | mwrite p outcome => exact ⟨stack, queue, shared, h.mwrite hstep⟩
  | read => exact h.read hstep
  | acquire => exact h.acquire hstep
  | cas => exact h.cas hstep
  | mread outcome => exact h.mread hstep
  | reverse => exact h.reverse hstep

/-- Every reachable state is in order. -/
theorem reachable_inOrder {actions : List (Action P A E)} (h : run step create actions = some events) :
    events.InOrder :=
  run_invariant (fun _ _ _ hin hstep => hin.step hstep) ⟨[], [], [], ordered_create⟩ h

/-- Where the thread of an action has to be for the action to be its next step. -/
def Enabled (events : Events P A E) : Action P A E → Prop
  | .write p a _ => events.producer p = .idle ∧ events.heap a = none
  | .acquireptr p => ∃ a, events.producer p = .acquire a
  | .casptr p => ∃ a next, events.producer p = .cas a next
  | .mwrite p _ => events.producer p = .wake
  | .read => events.consumer = .idle
  | .acquire => events.consumer = .acquire
  | .cas => events.consumer = .cas
  | .mread _ => events.consumer = .flush
  | .reverse => ∃ revd, events.consumer = .reverse revd

/-- A thread is never stuck: no step touches a link that has been destroyed. -/
theorem InOrder.progress (h : events.InOrder) {action : Action P A E} (henabled : events.Enabled action) :
    (events.step action).isSome := by
  obtain ⟨stack, queue, shared, h⟩ := h
  have hprivate := h.private'
  cases action with
  | write p a event => simp [Events.step, henabled.1, henabled.2]
  | acquireptr p =>
    obtain ⟨a, ha⟩ := henabled
    obtain ⟨-, link, hlink, -⟩ := h.owned (show (events.producer p).owns = some a by rw [ha]; rfl)
    simp [Events.step, ha, hlink]
  | casptr p =>
    obtain ⟨a, head, ha⟩ := henabled
    obtain ⟨-, link, hlink, -⟩ := h.owned (show (events.producer p).owns = some a by rw [ha]; rfl)
    simp only [Events.step, ha, hlink]
    split_ifs <;> rfl
  | mwrite p outcome =>
    change events.producer p = .wake at henabled
    cases outcome <;> simp [Events.step, henabled]
  | read =>
    change events.consumer = .idle at henabled
    simp only [Private, henabled] at hprivate
    cases hlocal : events.local' with
    | link a =>
      rw [hlocal] at hprivate
      obtain ⟨following, value, rest, -, hcell, -⟩ := hprivate.2.eq_cons
      simp [Events.step, henabled, hlocal, Events.deliver, hcell]
    | null => simp [Events.step, henabled, hlocal]
    | wakeup => simp [Events.step, henabled, hlocal]
  | acquire =>
    change events.consumer = .acquire at henabled
    simp only [Events.step, henabled]
    split_ifs <;> rfl
  | cas =>
    change events.consumer = .cas at henabled
    simp only [Events.step, henabled, h.wakeups, lt_irrefl, if_false]
    split_ifs <;> rfl
  | mread outcome =>
    change events.consumer = .flush at henabled
    simp [Private, henabled] at hprivate
  | reverse =>
    obtain ⟨revd, hrevd⟩ := henabled
    simp only [Private, hrevd] at hprivate
    obtain ⟨hstack, hqueue, hsome⟩ := hprivate
    cases hlocal : events.local' with
    | link a =>
      rw [hlocal] at hstack
      obtain ⟨following, value, rest, -, hcell, -⟩ := hstack.eq_cons
      simp [Events.step, hrevd, hlocal, hcell]
    | null =>
      rw [hlocal] at hstack
      cases revd with
      | none => exact absurd hqueue.eq_nil (hsome.resolve_left (not_not.mpr hstack.eq_nil))
      | some b =>
        obtain ⟨following, value, rest, -, hcell, -⟩ := hqueue.eq_cons
        simp [Events.step, hrevd, hlocal, Events.deliver, Ptr.next, hcell]
    | wakeup => exact absurd hlocal h.marker

/-- In every reachable state the events delivered, then those on the private list, then those on the
shared stack from its bottom up are the events written. -/
theorem events_delivered_in_order (actions : List (Action P A E))
    (h : run step create actions = some events) : ∃ queue shared,
    events.Privately queue ∧ events.Listed events.shared.head shared ∧
      events.written = events.delivered ++ queue ++ shared.reverse := by
  obtain ⟨stack, queue, shared, hordered⟩ := reachable_inOrder h
  refine ⟨_, values shared, hordered.private'.privately, ⟨shared, hordered.chain, rfl⟩, ?_⟩
  rw [hordered.written, List.append_assoc events.delivered]

/-- One producer puts two links on the stack, and the consumer takes both and returns the first. -/
def twoEvents : List (Action Unit ℕ ℕ) :=
  [.write () 0 7, .acquireptr (), .casptr (), .mwrite () .wrote, .write () 1 8, .acquireptr (), .casptr (),
    .read, .acquire, .cas, .reverse, .reverse, .reverse]

theorem events_delivered_in_order_two : ∃ events : Events Unit ℕ ℕ,
    run step create twoEvents = some events ∧ events.delivered = [7] ∧ ∃ queue shared,
      events.Privately queue ∧ events.Listed events.shared.head shared ∧
        events.written = events.delivered ++ queue ++ shared.reverse :=
  ⟨_, rfl, rfl, events_delivered_in_order twoEvents rfl⟩

end Heap

end Events

end Aug.Util
