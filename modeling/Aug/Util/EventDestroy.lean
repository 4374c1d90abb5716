import Aug.Util.EventDelivery

/-!
# Destroying an event queue

`aug_destroyevents` pops the links of the private list and then those of the shared stack. The shared pointer
holds the marker from the creation of the queue to the first event written, and never again.
-/

namespace Aug.Util

open Aug.Lib

variable {P A E O : Type}

/-- What is done to destroy a link. -/
inductive Disposal (O A : Type)
  | release (ob : O)
  | free (a : A)
deriving DecidableEq, Repr

/-- How far a loop that destroys links has come. -/
inductive Drained (O A E : Type)
  | running
  | undefined
  | done (heap : A → Option (Cell A E)) (effects : List (Disposal O A))

/-- The loop after what it has done before. -/
def Drained.after (effects : List (Disposal O A)) : Drained O A E → Drained O A E
  | .done heap rest => .done heap (effects ++ rest)
  | other => other

namespace Events

section Destroy

variable (ob : E → Option O)

/-- `destroylink_`, for events whose objects are given. -/
def destroylink (a : A) (event : E) : List (Disposal O A) := (ob event).toList.map .release ++ [.free a]

variable [DecidableEq A]

/-- The loops of `aug_destroyevents`, for so many tests of their condition. The marker is a pointer to pop like
any other, and leads to no link. -/
def destroylinks : ℕ → (A → Option (Cell A E)) → Ptr A → Drained O A E
  | 0, _, _ => .running
  | _ + 1, heap, .null => .done heap []
  | _ + 1, _, .wakeup => .undefined
  | n + 1, heap, .link a =>
    match heap a with
    | some link =>
      (destroylinks n (Function.update heap a none) (.next link.next)).after (destroylink ob a link.value)
    | none => .undefined

/-- `aug_destroyevents`. -/
def destroyevents (n : ℕ) (events : Events P A E) : Drained O A E :=
  match destroylinks ob n events.heap events.local' with
  | .done heap effects => (destroylinks ob n heap events.shared).after effects
  | other => other

/-- The events that have been written and not been delivered. -/
def undelivered (events : Events P A E) : List E := events.written.drop events.delivered.length

/-- The links with these events are destroyed, each once. -/
structure Disposes (events : Events P A E) (heap : A → Option (Cell A E)) (effects : List (Disposal O A))
    (cells : List (A × E)) : Prop where
  undelivered : (values cells).Perm events.undelivered
  once : (addresses cells).Nodup
  effects : effects = cells.flatMap fun (a, event) => destroylink ob a event
  linked : ∀ cell ∈ cells, ∃ next, events.heap cell.1 = some { next, value := cell.2 }
  freed : ∀ a ∈ addresses cells, heap a = none

/-- The queue is destroyed with all that is in it. -/
def Destroys (events : Events P A E) : Prop :=
  ∃ n heap effects, destroyevents ob n events = .done heap effects ∧ ∃ cells, Disposes ob events heap effects cells

/-- The heap without some cells. -/
def without (cells : List (A × E)) (heap : A → Option (Cell A E)) (a : A) : Option (Cell A E) :=
  if a ∈ addresses cells then none else heap a

variable {ob} {heap : A → Option (Cell A E)} {cells : List (A × E)}

/-- A pointer that is no marker leads to the links of its list, which are all destroyed. -/
theorem destroylinks_chain {p : Ptr A} (hchain : Chain heap p.head cells) (hmarker : p ≠ .wakeup)
    (hnodup : (addresses cells).Nodup) {n : ℕ} (hn : cells.length < n) : destroylinks ob n heap p =
      .done (without cells heap) (cells.flatMap fun (a, event) => destroylink ob a event) := by
  induction n generalizing heap p cells with
  | zero => exact absurd hn (Nat.not_lt_zero _)
  | succ n ih =>
    cases p with
    | null =>
      rw [hchain.eq_nil]
      rfl
    | wakeup => exact absurd rfl hmarker
    | link a =>
      obtain ⟨next, value, rest, rfl, hcell, hrest⟩ := hchain.eq_cons
      obtain ⟨hnot, hnodup⟩ := List.nodup_cons.mp hnodup
      have hupdated : Chain (Function.update heap a none) (Ptr.next next).head rest := by
        rw [Ptr.head_next]
        exact hrest.update hnot none
      have hdone := ih hupdated (Ptr.next_ne_wakeup next) hnodup (Nat.lt_of_succ_lt_succ hn)
      rw [destroylinks, hcell]
      dsimp only
      rw [hdone]
      have hheap : without rest (Function.update heap a none) = without ((a, value) :: rest) heap := by
        funext b
        have hmem : b ∈ addresses ((a, value) :: rest) ↔ b = a ∨ b ∈ addresses rest := List.mem_cons
        unfold without
        by_cases hb : b = a
        · rw [if_pos (hmem.mpr (.inl hb)), hb, Function.update_self, ite_self]
        · rw [Function.update_of_ne hb]
          apply if_congr _ rfl rfl
          rw [hmem, or_iff_right hb]
      rw [hheap]
      rfl

variable {events next : Events P A E} {stack queue shared : List (A × E)}

omit [DecidableEq A] in
/-- What has been written and not delivered is on the two lists. -/
theorem Ordered.undelivered (h : events.Ordered stack queue shared) :
    events.undelivered = (values stack).reverse ++ values queue ++ (values shared).reverse := by
  have hwritten := h.written
  rw [List.append_assoc, List.append_assoc] at hwritten
  rw [Events.undelivered, hwritten, List.drop_left, List.append_assoc]

/-- Between two reads, the links of the private list and of the shared stack are destroyed, if that is not
marked. -/
theorem Ordered.destroys (h : events.Ordered stack queue shared) (hidle : events.consumer = .idle)
    (hmarker : events.shared ≠ .wakeup) : events.Destroys ob := by
  have hprivate := h.private'
  simp only [Private, hidle] at hprivate
  have hnodup := h.nodup
  have hundelivered := h.undelivered
  rw [hprivate.1] at hnodup hundelivered
  have happend : addresses (queue ++ shared) = addresses queue ++ addresses shared := List.map_append
  rw [List.nil_append, happend] at hnodup
  have hqueue : (addresses queue).Nodup := hnodup.of_append_left
  have hshared : (addresses shared).Nodup := hnodup.of_append_right
  have hdisjoint : ∀ a ∈ addresses shared, a ∉ addresses queue :=
    fun a ha hmem => List.disjoint_of_nodup_append hnodup hmem ha
  have hchain : Chain (without queue events.heap) events.shared.head shared :=
    h.chain.frame fun a ha => if_neg (hdisjoint a ha)
  have hn : queue.length < queue.length + shared.length + 1 := by omega
  have hn' : shared.length < queue.length + shared.length + 1 := by omega
  have hdone : destroyevents ob (queue.length + shared.length + 1) events = .done
      (without shared (without queue events.heap))
      ((queue ++ shared).flatMap fun (a, event) => destroylink ob a event) := by
    rw [destroyevents, destroylinks_chain hprivate.2 h.marker hqueue hn]
    dsimp only
    rw [destroylinks_chain hchain hmarker hshared hn', List.flatMap_append]
    rfl
  refine ⟨_, _, _, hdone, queue ++ shared, ?_⟩
  constructor
  · rw [hundelivered]
    simp only [values, List.map_append, List.map_nil, List.reverse_nil, List.nil_append]
    exact (List.reverse_perm _).symm.append_left _
  · rwa [happend]
  · rfl
  · intro cell hcell
    cases List.mem_append.mp hcell with
    | inl hleft => exact hprivate.2.linked hleft
    | inr hright => exact h.chain.linked hright
  · intro a ha
    rw [happend] at ha
    unfold without
    by_cases hin : a ∈ addresses shared
    · exact if_pos hin
    · rw [if_neg hin]
      exact if_pos ((List.mem_append.mp ha).resolve_right hin)

/-- A queue whose shared pointer holds the marker is not destroyed. -/
theorem not_destroys (hmarker : events.shared = .wakeup) : ¬events.Destroys ob := by
  rintro ⟨n, heap, effects, hdone, -⟩
  unfold destroyevents at hdone
  split at hdone
  case h_1 after effects _ =>
    rw [hmarker] at hdone
    cases n <;> cases hdone
  case h_2 hother => exact hother _ _ hdone

end Destroy

section Marker

variable [DecidableEq A] {events next : Events P A E}

/-- Handing out an event writes none and leaves the shared pointer. -/
theorem deliver_shared {top : Ptr A} (h : ({ events with local' := top }).deliver = some next) :
    next.shared = events.shared ∧ next.written = events.written := by
  obtain ⟨a, link, -, -, heq⟩ := deliver_some h
  rw [heq]
  exact ⟨rfl, rfl⟩

/-- The shared pointer is marked until the first event has been written. -/
def Marked (events : Events P A E) : Prop := events.shared = .wakeup ↔ events.written = []

omit [DecidableEq A] in
/-- A step that writes nothing and leaves the shared pointer keeps this. -/
theorem Marked.congr (h : events.Marked) (hsame : next.shared = events.shared ∧ next.written = events.written) :
    next.Marked := by
  unfold Marked
  rw [hsame.1, hsame.2]
  exact h

variable [DecidableEq P]

/-- The first event written takes the marker away, and nothing brings it back. -/
theorem Marked.step (h : events.Marked) (hin : events.InOrder) {action : Action P A E}
    (hstep : events.step action = some next) : next.Marked := by
  obtain ⟨stack, queue, shared, hordered⟩ := hin
  have hwakeups := hordered.wakeups
  cases step_change hstep with
  | write => exact h.congr ⟨rfl, rfl⟩
  | acquireptr => exact h.congr ⟨rfl, rfl⟩
  | push => simp [Marked, goto]
  | retry => exact h.congr ⟨rfl, rfl⟩
  | wake => exact h.congr ⟨rfl, rfl⟩
  | interrupt => exact h
  | lose => exact h.congr ⟨rfl, rfl⟩
  | pop _ _ hdeliver => exact h.congr (deliver_shared hdeliver)
  | look => exact h.congr ⟨rfl, rfl⟩
  | marked => exact h.congr ⟨loaded_shared _, loaded_written _⟩
  | load => exact h.congr ⟨rfl, rfl⟩
  | flush _ _ hpos => exact absurd hwakeups (Nat.ne_of_gt hpos)
  | detach _ hsame =>
    have hmarker : events.shared ≠ .wakeup := by
      rw [hsame]
      exact hordered.marker
    have hwritten : events.written ≠ [] := fun hnil => hmarker (h.mpr hnil)
    simp [Marked, hwritten]
  | reload => exact h.congr ⟨rfl, rfl⟩
  | drain _ hshared hwritten => exact h.congr ⟨hshared, hwritten⟩
  | turn => exact h.congr ⟨rfl, rfl⟩
  | out _ _ hdeliver => exact h.congr (deliver_shared hdeliver)

/-- In every reachable state the shared pointer is marked if and only if nothing has been written. -/
theorem reachable_marked {actions : List (Action P A E)} (h : run step create actions = some events) :
    events.Marked := by
  have hboth : events.InOrder ∧ events.Marked := by
    apply run_invariant (fun _ _ _ hin hstep => ⟨hin.1.step hstep, hin.2.step hin.1 hstep⟩) _ h
    exact ⟨⟨[], [], [], ordered_create⟩, by simp [Marked, create]⟩
  exact hboth.2

/-- After any run, and between two reads, the queue is destroyed with every event that has not been delivered,
each once, if and only if an event has ever been written. -/
theorem destroys_iff_written (ob : E → Option O) {actions : List (Action P A E)}
    (h : run step create actions = some events) (hidle : events.consumer = .idle) :
    events.Destroys ob ↔ events.written ≠ [] := by
  obtain ⟨stack, queue, shared, hordered⟩ := reachable_inOrder h
  have hmarked := reachable_marked h
  constructor
  · intro hdestroys hnil
    exact not_destroys (hmarked.mpr hnil) hdestroys
  · intro hwritten
    exact hordered.destroys hidle fun hshared => hwritten (hmarked.mp hshared)

/-- One event is written, and nobody reads it. -/
def oneEvent : List (Action Unit ℕ ℕ) := [.write () 0 7, .acquireptr (), .casptr (), .mwrite () .wrote]

theorem destroys_iff_written_one : ∃ events : Events Unit ℕ ℕ,
    run step create oneEvent = some events ∧ events.Destroys some := by
  have hrun : ∃ events : Events Unit ℕ ℕ, run step create oneEvent = some events ∧ events.consumer = .idle ∧
      events.written ≠ [] := ⟨_, rfl, rfl, nofun⟩
  obtain ⟨events, hrun, hidle, hwritten⟩ := hrun
  exact ⟨events, hrun, (destroys_iff_written some hrun hidle).mpr hwritten⟩

/-- A queue that is destroyed right after its creation follows the marker as if it were a link. -/
theorem create_not_destroyed : run step create [] = some (create : Events Unit ℕ ℕ) ∧
    (∀ p, (create : Events Unit ℕ ℕ).producer p = .idle) ∧ (create : Events Unit ℕ ℕ).consumer = .idle ∧
      destroyevents some 1 (create : Events Unit ℕ ℕ) = .undefined ∧
        ¬(create : Events Unit ℕ ℕ).Destroys some :=
  ⟨rfl, fun _ => rfl, rfl, rfl, not_destroys rfl⟩

end Marker

end Events

end Aug.Util
