import Mathlib.Tactic.TypeStar

/-!
# Dialogues with an environment

A program asks questions, and an environment replies to each by all that has been said before. A history has
the exchanges, the last one first. `Ends` says what holds of the value and the history at the end whatever the
environment is, and its rules follow the sequencing of statements.
-/

namespace Aug.Lib

/-- A question and its reply. -/
abbrev Exchange {Q : Type} (R : Q → Type) : Type := Σ q, R q

/-- A reply to every question, by what has been said before. -/
abbrev Environment {Q : Type} (R : Q → Type) : Type := List (Exchange R) → (q : Q) → R q

/-- A program that asks an environment. -/
def Dialogue {Q : Type} (R : Q → Type) (α : Type) : Type := Environment R → List (Exchange R) → α × List (Exchange R)

namespace Dialogue

variable {Q α β : Type} {R : Q → Type}

/-- Run `x`, then pass its value to `f`. -/
protected def bind (x : Dialogue R α) (f : α → Dialogue R β) : Dialogue R β := fun env history =>
  let (a, later) := x env history
  f a env later

instance : Monad (Dialogue R) where
  pure a := fun _ history => (a, history)
  bind := Dialogue.bind

/-- Ask, and record the reply. -/
def ask (q : Q) : Dialogue R (R q) := fun env history =>
  let r := env history q
  (r, ⟨q, r⟩ :: history)

/-- What holds at the end, whatever the replies. -/
structure Ends (x : Dialogue R α) (history : List (Exchange R)) (post : α → List (Exchange R) → Prop) : Prop where
  holds : ∀ env, post (x env history).1 (x env history).2

variable {x : Dialogue R α} {f : α → Dialogue R β} {history : List (Exchange R)}
  {post post' : α → List (Exchange R) → Prop} {last : β → List (Exchange R) → Prop}

/-- A value ends where it is. -/
theorem ends_pure {a : α} (h : post a history) : Ends (pure a) history post := ⟨fun _ => h⟩

/-- What holds at the end may be weakened. -/
theorem Ends.imp (hx : Ends x history post) (h : ∀ a later, post a later → post' a later) : Ends x history post' :=
  ⟨fun env => h _ _ (hx.holds env)⟩

/-- The rest of a sequence starts where its first statement has ended. -/
theorem Ends.bind (hx : Ends x history post) (hf : ∀ a later, post a later → Ends (f a) later last) :
    Ends (x >>= f) history last :=
  ⟨fun env => (hf _ _ (hx.holds env)).holds env⟩

/-- A sequence that starts with a value goes on with it. -/
theorem ends_pure_bind {a : α} (hf : Ends (f a) history last) : Ends (pure a >>= f) history last :=
  (ends_pure ⟨rfl, rfl⟩ : Ends (pure a) history fun b later => b = a ∧ later = history).bind
    fun _ _ heq => heq.1 ▸ heq.2 ▸ hf

/-- A question may have any reply. -/
theorem ends_ask (q : Q) {post : R q → List (Exchange R) → Prop} (h : ∀ r, post r (⟨q, r⟩ :: history)) :
    Ends (ask q) history post :=
  ⟨fun env => h (env history q)⟩

/-- So the rest of a sequence goes on from any. -/
theorem ends_ask_bind (q : Q) {f : R q → Dialogue R β} (hf : ∀ r, Ends (f r) (⟨q, r⟩ :: history) last) :
    Ends (ask q >>= f) history last :=
  (ends_ask q fun _ => rfl : Ends (ask q) history fun r later => later = ⟨q, r⟩ :: history).bind
    fun r _ heq => heq ▸ hf r

end Dialogue

end Aug.Lib
