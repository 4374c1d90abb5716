import Mathlib.Data.List.Basic

/-!
# Runs of a system

A system that takes one step for each action, where an action that is not enabled has no step.
Invariants are carried from one step to a run, and a property of states that one kind of step
breaks holds along exactly the runs without such a step.
-/

namespace Aug.Lib

variable {S A : Type*}

/-- Take the actions in order. -/
def run (step : S → A → Option S) : S → List A → Option S
  | s, [] => some s
  | s, a :: actions => (step s a).bind fun next => run step next actions

variable {step : S → A → Option S} {s next last : S} {a : A} {actions : List A}

theorem run_cons (h : step s a = some next) : run step s (a :: actions) = run step next actions := by
  rw [run, h]
  rfl

/-- A run of at least one action takes its first step. -/
theorem run_cons_some (h : run step s (a :: actions) = some last) :
    ∃ next, step s a = some next ∧ run step next actions = some last :=
  Option.bind_eq_some_iff.mp h

/-- A run in two parts. -/
theorem run_append (step : S → A → Option S) (s : S) (actions more : List A) :
    run step s (actions ++ more) = (run step s actions).bind fun next => run step next more := by
  induction actions generalizing s with
  | nil => rfl
  | cons a actions ih =>
    rw [List.cons_append, run, run, Option.bind_assoc]
    exact congrArg _ (funext ih)

/-- One more step at the end of a run. -/
theorem run_concat (h : run step s actions = some next) (hlast : step next a = some last) :
    run step s (actions ++ [a]) = some last := by
  induction actions generalizing s with
  | nil =>
    rw [run, Option.some.injEq] at h
    rw [List.nil_append, h, run_cons hlast]
    rfl
  | cons b actions ih =>
    obtain ⟨other, hother, hrun⟩ := run_cons_some h
    rw [List.cons_append, run_cons hother]
    exact ih hrun

/-- What every step preserves is preserved by a run. -/
theorem run_invariant {inv : S → Prop} (hstep : ∀ s a next, inv s → step s a = some next → inv next)
    (hs : inv s) (h : run step s actions = some last) : inv last := by
  induction actions generalizing s with
  | nil =>
    rw [run, Option.some.injEq] at h
    rwa [← h]
  | cons a actions ih =>
    obtain ⟨next, hnext, hrun⟩ := run_cons_some h
    exact ih (hstep s a next hs hnext) hrun

/-- What the steps of some actions preserve is preserved by a run of such actions. -/
theorem run_invariant_on {inv : S → Prop} {good : A → Prop}
    (hstep : ∀ s a next, inv s → good a → step s a = some next → inv next) (hs : inv s)
    (hgood : ∀ a ∈ actions, good a) (h : run step s actions = some last) : inv last := by
  induction actions generalizing s with
  | nil =>
    rw [run, Option.some.injEq] at h
    rwa [← h]
  | cons a actions ih =>
    obtain ⟨next, hnext, hrun⟩ := run_cons_some h
    obtain ⟨hfirst, hrest⟩ := List.forall_mem_cons.mp hgood
    exact ih (hstep s a next hs hfirst hnext) hrest hrun

/-- The property holds in the first state and in every state after it. -/
def Always (step : S → A → Option S) (p : S → Prop) : S → List A → Prop
  | s, [] => p s
  | s, a :: actions => p s ∧ ∀ next, step s a = some next → Always step p next actions

/-- No step of the run is a bad one. -/
def Avoids (step : S → A → Option S) (bad : S → A → Prop) : S → List A → Prop
  | _, [] => True
  | s, a :: actions => ¬bad s a ∧ ∀ next, step s a = some next → Avoids step bad next actions

/-- Whether a run avoids bad steps can be computed. -/
def decidableAvoids (step : S → A → Option S) (bad : S → A → Prop) [∀ s a, Decidable (bad s a)] :
    ∀ s actions, Decidable (Avoids step bad s actions)
  | _, [] => .isTrue trivial
  | s, a :: actions =>
    have : ∀ next, Decidable (Avoids step bad next actions) := fun next => decidableAvoids step bad next actions
    inferInstanceAs (Decidable (¬bad s a ∧ ∀ next ∈ step s a, Avoids step bad next actions))

instance {step : S → A → Option S} {bad : S → A → Prop} [∀ s a, Decidable (bad s a)] {s : S} {actions : List A} :
    Decidable (Avoids step bad s actions) :=
  decidableAvoids step bad s actions

theorem Always.head {p : S → Prop} (h : Always step p s actions) : p s := by
  cases actions with
  | nil => exact h
  | cons a actions => exact h.1

/-- What holds always holds at the end. -/
theorem Always.final {p : S → Prop} (h : Always step p s actions) (hrun : run step s actions = some last) : p last := by
  induction actions generalizing s with
  | nil =>
    rw [run, Option.some.injEq] at hrun
    rwa [← hrun]
  | cons a actions ih =>
    obtain ⟨next, hnext, hrest⟩ := run_cons_some hrun
    exact ih (h.2 next hnext) hrest

/-- A weaker property holds always as well. -/
theorem Always.imp {p q : S → Prop} (hpq : ∀ s, p s → q s) (h : Always step p s actions) :
    Always step q s actions := by
  induction actions generalizing s with
  | nil => exact hpq s h
  | cons a actions ih => exact ⟨hpq s h.1, fun next hnext => ih (h.2 next hnext)⟩

/-- What every step preserves holds always. -/
theorem always_invariant {inv : S → Prop} (hstep : ∀ s a next, inv s → step s a = some next → inv next) (hs : inv s) :
    Always step inv s actions := by
  induction actions generalizing s with
  | nil => exact hs
  | cons a actions ih => exact ⟨hs, fun next hnext => ih (hstep s a next hs hnext)⟩

/-- What a step preserves into states with a property is preserved where the property holds always. -/
theorem Always.carries {p q : S → Prop} (hstep : ∀ s a next, q s → step s a = some next → p next → q next) (hs : q s)
    (h : Always step p s actions) : Always step q s actions := by
  induction actions generalizing s with
  | nil => exact hs
  | cons a actions ih =>
    apply And.intro hs
    intro next hnext
    exact ih (hstep s a next hs hnext (h.2 next hnext).head) (h.2 next hnext)

/-- A property that bad steps break holds always if and only if no step is bad, where other steps
preserve something that implies it. -/
theorem always_iff_avoids_of {p q : S → Prop} {bad : S → A → Prop} (himp : ∀ s, q s → p s)
    (hgood : ∀ s a next, q s → step s a = some next → ¬bad s a → q next)
    (hbad : ∀ s a next, q s → step s a = some next → bad s a → ¬p next)
    (hs : q s) (h : run step s actions = some last) :
    Always step p s actions ↔ Avoids step bad s actions := by
  induction actions generalizing s with
  | nil => exact ⟨fun _ => trivial, fun _ => himp s hs⟩
  | cons a actions ih =>
    obtain ⟨next, hnext, hrun⟩ := run_cons_some h
    have hthis : ∀ other, step s a = some other → other = next := by
      intro other hother
      rw [hnext, Option.some.injEq] at hother
      exact hother.symm
    constructor
    · rintro ⟨-, halways⟩
      have hstep : ¬bad s a := by
        intro hstep
        exact hbad s a next hs hnext hstep (halways next hnext).head
      apply And.intro hstep
      intro other hother
      rw [hthis other hother]
      exact (ih (hgood s a next hs hnext hstep) hrun).mp (halways next hnext)
    · rintro ⟨hstep, havoids⟩
      apply And.intro (himp s hs)
      intro other hother
      rw [hthis other hother]
      exact (ih (hgood s a next hs hnext hstep) hrun).mpr (havoids next hnext)

/-- A property holds always in a run without bad steps, where other steps preserve something that implies
it. -/
theorem always_of_avoids {p q : S → Prop} {bad : S → A → Prop} (himp : ∀ s, q s → p s)
    (hgood : ∀ s a next, q s → step s a = some next → ¬bad s a → q next)
    (hs : q s) (h : Avoids step bad s actions) : Always step p s actions := by
  induction actions generalizing s with
  | nil => exact himp s hs
  | cons a actions ih =>
    apply And.intro (himp s hs)
    intro next hnext
    exact ih (hgood s a next hs hnext h.1) (h.2 next hnext)

/-- Under an invariant, a property that bad steps break and other steps preserve holds always if and
only if no step is bad. -/
theorem always_iff_avoids {inv p : S → Prop} {bad : S → A → Prop}
    (hinv : ∀ s a next, inv s → step s a = some next → inv next)
    (hgood : ∀ s a next, inv s → p s → step s a = some next → ¬bad s a → p next)
    (hbad : ∀ s a next, inv s → p s → step s a = some next → bad s a → ¬p next)
    (hs : inv s) (hp : p s) (h : run step s actions = some last) :
    Always step p s actions ↔ Avoids step bad s actions := by
  apply always_iff_avoids_of (q := fun s => inv s ∧ p s) (fun _ hq => hq.2) _ _ ⟨hs, hp⟩ h
  · intro s a next hq hstep hgoodstep
    exact ⟨hinv s a next hq.1 hstep, hgood s a next hq.1 hq.2 hstep hgoodstep⟩
  · intro s a next hq hstep
    exact hbad s a next hq.1 hq.2 hstep

/-- A run without bad steps goes through, where other steps are enabled and preserve an invariant. -/
theorem run_of_avoids {inv : S → Prop} {bad : S → A → Prop}
    (hstep : ∀ s a, inv s → ¬bad s a → ∃ next, step s a = some next ∧ inv next) (hs : inv s)
    (h : Avoids step bad s actions) : ∃ last, run step s actions = some last ∧ inv last := by
  induction actions generalizing s with
  | nil => exact ⟨s, rfl, hs⟩
  | cons a actions ih =>
    obtain ⟨next, hnext, hinv⟩ := hstep s a hs h.1
    rw [run_cons hnext]
    exact ih hinv (h.2 next hnext)

end Aug.Lib
