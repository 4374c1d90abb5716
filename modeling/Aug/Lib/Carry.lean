import Mathlib.Data.Prod.Lex
import Mathlib.Order.Bounds.Basic

/-!
# Counting with carries

A pair is ordered by its first component, and then by its second. Among the pairs of an allowed first
component and a second one that it allows, the least above a pair keeps the first component if a greater
second one is allowed with it, and otherwise carries to the next first component.
-/

namespace Aug.Lib

variable {α β : Type*} [LinearOrder α] [LinearOrder β]

/-- The pairs of an allowed first component and a second one that it allows. -/
def allowedPairs (S : Set α) (B : α → Set β) : Set (α ×ₗ β) :=
  {p | (ofLex p).1 ∈ S ∧ (ofLex p).2 ∈ B (ofLex p).1}

/-- The least allowed element above another. -/
def IsNext (S : Set α) (a next : α) : Prop := IsLeast {x | x ∈ S ∧ a < x} next

variable {S : Set α} {B : α → Set β} {a a' : α} {b b' : β}

/-- There is one least element above another. -/
theorem IsNext.unique {x y : α} (hx : IsNext S a x) (hy : IsNext S a y) : x = y := IsLeast.unique hx hy

/-- The second component goes on where it can. -/
theorem isNext_stay (ha : a ∈ S) (hb : IsNext (B a) b b') :
    IsNext (allowedPairs S B) (toLex (a, b)) (toLex (a, b')) := by
  have ⟨⟨hallowed, hlt⟩, hleast⟩ := hb
  constructor
  · exact ⟨⟨ha, hallowed⟩, Prod.Lex.toLex_lt_toLex.mpr (.inr ⟨rfl, hlt⟩)⟩
  · intro p ⟨⟨_, hp⟩, hltp⟩
    cases Prod.Lex.lt_iff.mp hltp with
    | inl hfirst => exact Prod.Lex.le_iff.mpr (.inl hfirst)
    | inr hsame =>
      have hfirst : a = (ofLex p).1 := hsame.1
      have hp : (ofLex p).2 ∈ B a := by
        rw [hfirst]
        exact hp
      exact Prod.Lex.le_iff.mpr (.inr ⟨hfirst, hleast ⟨hp, hsame.2⟩⟩)

/-- Otherwise the first component goes on, and the second one begins again. -/
theorem isNext_carry (hnone : a ∈ S → ∀ x ∈ B a, ¬b < x) (ha : IsNext S a a') (hb : IsLeast (B a') b') :
    IsNext (allowedPairs S B) (toLex (a, b)) (toLex (a', b')) := by
  have ⟨⟨hallowed, hlt⟩, hleast⟩ := ha
  constructor
  · exact ⟨⟨hallowed, hb.1⟩, Prod.Lex.toLex_lt_toLex.mpr (.inl hlt)⟩
  · intro p ⟨⟨hfirst, hsecond⟩, hltp⟩
    cases Prod.Lex.lt_iff.mp hltp with
    | inl hgt =>
      cases (hleast ⟨hfirst, hgt⟩).lt_or_eq with
      | inl hless => exact Prod.Lex.le_iff.mpr (.inl hless)
      | inr hsame =>
        have hmem : (ofLex p).2 ∈ B a' := by
          rw [hsame]
          exact hsecond
        exact Prod.Lex.le_iff.mpr (.inr ⟨hsame, hb.2 hmem⟩)
    | inr hafter =>
      have hsame : a = (ofLex p).1 := hafter.1
      rw [← hsame] at hfirst hsecond
      exact absurd hafter.2 (hnone hfirst _ hsecond)

end Aug.Lib
