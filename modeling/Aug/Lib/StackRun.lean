import Mathlib
import Aug.Lib.Transition

/-!
# Runs of a stack

A stack is pushed to, popped from or left alone by each move, and an empty stack has nothing to pop. A run gets
stuck exactly when some part of it from the start pops more than has been there.
-/

namespace Aug.Lib

variable {α : Type*}

/-- What a move does to a stack. -/
inductive Move (α : Type*) where
  | push (a : α)
  | pop
  | pass

namespace Move

/-- A move on a stack with its top in front. -/
def step : List α → Move α → Option (List α)
  | stack, .push a => some (a :: stack)
  | [], .pop => none
  | _ :: stack, .pop => some stack
  | stack, .pass => some stack

/-- How far the stack rises. -/
def rise : Move α → ℤ
  | .push _ => 1
  | .pop => -1
  | .pass => 0

/-- How far the stack rises over several moves. -/
def rises (moves : List (Move α)) : ℤ := (moves.map rise).sum

@[simp] theorem rises_nil : rises ([] : List (Move α)) = 0 := rfl

@[simp] theorem rises_cons (move : Move α) (moves : List (Move α)) : rises (move :: moves) = rise move + rises moves :=
  List.sum_cons

/-- A move gets stuck exactly when it takes the stack below its ground. -/
theorem step_eq_none_iff (stack : List α) (move : Move α) : step stack move = none ↔ stack.length + rise move < 0 := by
  cases move with
  | push a => simp only [step, rise, reduceCtorEq, false_iff]; omega
  | pop => cases stack <;> simp [step, rise]
  | pass => simp [step, rise]

/-- A move that is not stuck takes the stack to its new height. -/
theorem step_length {stack next : List α} {move : Move α} (h : step stack move = some next) :
    (next.length : ℤ) = stack.length + rise move := by
  cases move with
  | push a => cases h; simp [rise]
  | pop => cases stack <;> cases h; simp [rise]
  | pass => cases h; simp [rise]

/-- A run gets stuck exactly when some moves from the start take the stack below its ground. -/
theorem run_eq_none_iff (stack : List α) (moves : List (Move α)) :
    run step stack moves = none ↔ ∃ front, front <+: moves ∧ stack.length + rises front < 0 := by
  induction moves generalizing stack with
  | nil =>
    simp only [run, reduceCtorEq, List.prefix_nil, false_iff]
    rintro ⟨front, rfl, hlow⟩
    simp only [rises_nil] at hlow
    omega
  | cons move moves ih =>
    have hground : ¬(stack.length : ℤ) + rises ([] : List (Move α)) < 0 := by
      simp only [rises_nil]
      omega
    have hcons : (∃ front, front <+: move :: moves ∧ (stack.length : ℤ) + rises front < 0) ↔
        ∃ front, front <+: moves ∧ (stack.length : ℤ) + rises (move :: front) < 0 := by
      constructor
      · rintro ⟨front, hfront, hlow⟩
        rcases List.prefix_cons_iff.mp hfront with rfl | ⟨rest, rfl, hrest⟩
        · exact absurd hlow hground
        · exact ⟨rest, hrest, hlow⟩
      · rintro ⟨front, hfront, hlow⟩
        exact ⟨move :: front, List.prefix_cons_iff.mpr (.inr ⟨front, rfl, hfront⟩), hlow⟩
    rw [hcons]
    cases hstep : step stack move with
    | none =>
      have hlow := (step_eq_none_iff stack move).mp hstep
      rw [run, hstep]
      exact ⟨fun _ => ⟨[], List.nil_prefix, by simpa using hlow⟩, fun _ => rfl⟩
    | some next =>
      rw [run_cons hstep, ih next]
      simp only [step_length hstep, rises_cons, add_assoc]

/-- What is on the stack has been there or has been pushed. -/
theorem mem_run {stack last : List α} {moves : List (Move α)} (h : run step stack moves = some last) :
    ∀ a ∈ last, a ∈ stack ∨ .push a ∈ moves := by
  induction moves generalizing stack with
  | nil =>
    cases h
    exact fun a ha => .inl ha
  | cons move moves ih =>
    obtain ⟨next, hstep, hrun⟩ := run_cons_some h
    intro a ha
    rcases ih hrun a ha with hnext | hpush
    · cases move with
      | push b =>
        cases hstep
        rcases List.mem_cons.mp hnext with rfl | hold
        · exact .inr List.mem_cons_self
        · exact .inl hold
      | pop =>
        cases stack <;> cases hstep
        exact .inl (List.mem_cons_of_mem _ hnext)
      | pass =>
        cases hstep
        exact .inl hnext
    · exact .inr (List.mem_cons_of_mem _ hpush)

/-- A run of pushes alone. -/
theorem run_pushes (stack as : List α) : run step stack (as.map .push) = some (as.reverse ++ stack) := by
  induction as generalizing stack with
  | nil => rfl
  | cons a as ih =>
    rw [List.map_cons, run_cons (show step stack (.push a) = some (a :: stack) from rfl), ih, List.reverse_cons,
      List.append_assoc]
    rfl

end Move

end Aug.Lib
