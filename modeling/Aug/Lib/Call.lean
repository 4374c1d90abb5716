import Mathlib.Tactic.TypeStar

/-!
# Calls that may fail or be undefined

A call runs on a state. Its behaviour is undefined (`none`), it returns a value, or it
fails; a failing call leaves the state it had reached, as a function does that returns an
error code after part of its work. `Returns`, `Fails` and `Undefined` name the outcomes, `Ends` says
what holds of any outcome, and the rules below follow the sequencing of statements.
-/

namespace Aug.Lib

/-- A computation on `σ` that fails with `ε` or returns an `α`. -/
def Call (σ ε α : Type) : Type := σ → Option (Except ε α × σ)

namespace Call

variable {σ τ ε α β : Type}

/-- Run `x`, then pass its value and state to `f`; a failure is the outcome of the whole. -/
protected def bind (x : Call σ ε α) (f : α → Call σ ε β) : Call σ ε β := fun s =>
  match x s with
  | none => none
  | some (Except.error e, s') => some (Except.error e, s')
  | some (Except.ok a, s') => f a s'

instance : Monad (Call σ ε) where
  pure a := fun s => some (.ok a, s)
  bind := Call.bind

/-- Fail at once, keeping the state. -/
def fail (e : ε) : Call σ ε α := fun s => some (.error e, s)

/-- The current state. -/
def read : Call σ ε σ := fun s => some (.ok s, s)

/-- Update the state. -/
def modify (f : σ → σ) : Call σ ε Unit := fun s => some (.ok (), f s)

/-- An access that is undefined where the option is empty. -/
def access (x : Option α) : Call σ ε α := fun s => x.map fun a => (.ok a, s)

/-- Run a call on a component of a larger state. -/
def zoom (get : τ → σ) (set : σ → τ → τ) (x : Call σ ε α) : Call τ ε α := fun t =>
  (x (get t)).map fun r => (r.1, set r.2 t)

/-- Change the error of a call. -/
def mapError {ε' : Type} (f : ε → ε') (x : Call σ ε α) : Call σ ε' α := fun s =>
  (x s).map fun r => (match r.1 with | .error e => .error (f e) | .ok a => .ok a, r.2)

/-- Run a call whose failure is not looked at. -/
def ignore (x : Call σ ε Unit) : Call σ ε Unit := fun s => (x s).map fun r => (.ok (), r.2)

/-- Run a call and look at whether it has failed. -/
def attempt {ε' : Type} (x : Call σ ε α) : Call σ ε' (Option α) := fun s =>
  (x s).map fun r => (.ok r.1.toOption, r.2)

/-- The call is defined and returns `a` in state `s'`. -/
def Returns (x : Call σ ε α) (s : σ) (a : α) (s' : σ) : Prop := x s = some (.ok a, s')

/-- The call is defined and fails with `e` in state `s'`. -/
def Fails (x : Call σ ε α) (s : σ) (e : ε) (s' : σ) : Prop := x s = some (.error e, s')

/-- The call has no defined behaviour. -/
def Undefined (x : Call σ ε α) (s : σ) : Prop := x s = none

/-- Where the call is defined, its result and its state are as `post` says. -/
structure Ends (x : Call σ ε α) (s : σ) (post : Except ε α → σ → Prop) : Prop where
  holds : ∀ result s', x s = some (result, s') → post result s'

theorem returns_pure (a : α) (s : σ) : Returns (pure a : Call σ ε α) s a s := rfl

theorem fails_fail (e : ε) (s : σ) : Fails (fail e : Call σ ε α) s e s := rfl

theorem returns_read (s : σ) : Returns (read : Call σ ε σ) s s s := rfl

theorem returns_modify (f : σ → σ) (s : σ) : Returns (modify f : Call σ ε Unit) s () (f s) := rfl

theorem returns_access {x : Option α} {a : α} (h : x = some a) (s : σ) :
    Returns (access x : Call σ ε α) s a s := by
  subst h
  rfl

theorem undefined_access (s : σ) : Undefined (access none : Call σ ε α) s := rfl

/-- After a statement that returns, the sequence is the rest. -/
theorem Returns.bind_eq {x : Call σ ε α} {s s' : σ} {a : α} (hx : Returns x s a s') (f : α → Call σ ε β) :
    (x >>= f) s = f a s' := by
  change Call.bind x f s = _
  rw [Call.bind, hx]

/-- What is made of a result depends on it and the state behind it only. -/
theorem bind_eq_of {x y : Call σ ε α} {s s' : σ} (h : x s = y s') (f : α → Call σ ε β) : (x >>= f) s = (y >>= f) s' := by
  change Call.bind x f s = Call.bind y f s'
  simp only [Call.bind, h]

/-- A statement that returns passes its value and state on. -/
theorem Returns.bind {x : Call σ ε α} {f : α → Call σ ε β} {s s' s'' : σ} {a : α} {b : β}
    (hx : Returns x s a s') (hf : Returns (f a) s' b s'') : Returns (x >>= f) s b s'' := by
  change Call.bind x f s = _
  rw [Call.bind, hx]
  exact hf

/-- A later failure is the failure of the whole sequence. -/
theorem Returns.bind_fails {x : Call σ ε α} {f : α → Call σ ε β} {s s' s'' : σ} {a : α} {e : ε}
    (hx : Returns x s a s') (hf : Fails (f a) s' e s'') : Fails (x >>= f) s e s'' := by
  change Call.bind x f s = _
  rw [Call.bind, hx]
  exact hf

/-- A failing statement ends the sequence. -/
theorem Fails.bind {x : Call σ ε α} {f : α → Call σ ε β} {s s' : σ} {e : ε}
    (hx : Fails x s e s') : Fails (x >>= f) s e s' := by
  change Call.bind x f s = _
  rw [Call.bind, hx]

/-- Undefined behaviour later on is undefined behaviour of the whole sequence. -/
theorem Returns.bind_undefined {x : Call σ ε α} {f : α → Call σ ε β} {s s' : σ} {a : α}
    (hx : Returns x s a s') (hf : Undefined (f a) s') : Undefined (x >>= f) s := by
  change Call.bind x f s = _
  rw [Call.bind, hx]
  exact hf

theorem Undefined.bind {x : Call σ ε α} {f : α → Call σ ε β} {s : σ} (hx : Undefined x s) :
    Undefined (x >>= f) s := by
  change Call.bind x f s = _
  rw [Call.bind, hx]

/-- A component's call returns in the larger state. -/
theorem Returns.zoom {get : τ → σ} {set : σ → τ → τ} {x : Call σ ε α} {t : τ} {a : α} {s' : σ}
    (hx : Returns x (get t) a s') : Returns (zoom get set x) t a (set s' t) := by
  change (x (get t)).map _ = _
  rw [hx]
  rfl

/-- A component's call fails in the larger state. -/
theorem Fails.zoom {get : τ → σ} {set : σ → τ → τ} {x : Call σ ε α} {t : τ} {e : ε} {s' : σ}
    (hx : Fails x (get t) e s') : Fails (Call.zoom get set x) t e (set s' t) := by
  change (x (get t)).map _ = _
  rw [hx]
  rfl

theorem Returns.mapError {ε' : Type} {f : ε → ε'} {x : Call σ ε α} {s s' : σ} {a : α} (hx : Returns x s a s') :
    Returns (x.mapError f) s a s' := by
  change (x s).map _ = _
  rw [hx]
  rfl

theorem Fails.mapError {ε' : Type} {f : ε → ε'} {x : Call σ ε α} {s s' : σ} {e : ε} (hx : Fails x s e s') :
    Fails (Call.mapError f x) s (f e) s' := by
  change (x s).map _ = _
  rw [hx]
  rfl

theorem Returns.ignore {x : Call σ ε Unit} {s s' : σ} (hx : Returns x s () s') : Returns (x.ignore) s () s' := by
  change (x s).map _ = _
  rw [hx]
  rfl

theorem Returns.attempt {ε' : Type} {x : Call σ ε α} {s s' : σ} {a : α} (hx : Returns x s a s') :
    Returns (x.attempt : Call σ ε' (Option α)) s (some a) s' := by
  change (x s).map _ = _
  rw [hx]
  rfl

theorem Fails.attempt {ε' : Type} {x : Call σ ε α} {s s' : σ} {e : ε} (hx : Fails x s e s') :
    Returns (Call.attempt x : Call σ ε' (Option α)) s none s' := by
  change (x s).map _ = _
  rw [hx]
  rfl

/-- A call whose result is known ends in it. -/
theorem ends_of_eq {x : Call σ ε α} {s s' : σ} {result : Except ε α} {post : Except ε α → σ → Prop}
    (hx : x s = some (result, s')) (h : post result s') : Ends x s post := by
  constructor
  intro other last hother
  rw [hx, Option.some.injEq, Prod.mk.injEq] at hother
  rwa [← hother.1, ← hother.2]

/-- What holds at the end may be weakened. -/
theorem Ends.imp {x : Call σ ε α} {s : σ} {post post' : Except ε α → σ → Prop} (hx : Ends x s post)
    (h : ∀ result s', post result s' → post' result s') : Ends x s post' :=
  ⟨fun result s' hresult => h result s' (hx.holds result s' hresult)⟩

/-- After a statement that returns, the sequence ends as the rest does. -/
theorem Returns.bind_ends {x : Call σ ε α} {f : α → Call σ ε β} {s s' : σ} {a : α}
    {post : Except ε β → σ → Prop} (hx : Returns x s a s') (hf : Ends (f a) s' post) :
    Ends (x >>= f) s post := by
  constructor
  intro result last hlast
  apply hf.holds result last
  change Call.bind x f s = _ at hlast
  rwa [Call.bind, hx] at hlast

/-- After an access the sequence ends as the rest does with what was there. -/
theorem access_bind_ends {x : Option α} {f : α → Call σ ε β} {s : σ} {post : Except ε β → σ → Prop}
    (hf : ∀ a, x = some a → Ends (f a) s post) : Ends (access x >>= f) s post := by
  cases x with
  | none => exact ⟨fun _ _ h => nomatch h⟩
  | some a => exact (returns_access rfl s).bind_ends (hf a rfl)

/-- The rest of a sequence starts where the first statement has ended. -/
theorem Ends.bind {x : Call σ ε α} {f : α → Call σ ε β} {s : σ} {mid : Except ε α → σ → Prop}
    {post : Except ε β → σ → Prop} (hx : Ends x s mid) (herror : ∀ e s', mid (.error e) s' → post (.error e) s')
    (hf : ∀ a s', mid (.ok a) s' → Ends (f a) s' post) : Ends (x >>= f) s post := by
  constructor
  intro result last hlast
  change Call.bind x f s = _ at hlast
  rw [Call.bind] at hlast
  match hfirst : x s with
  | none => simp [hfirst] at hlast
  | some (.error e, s') =>
    rw [hfirst, Option.some.injEq, Prod.mk.injEq] at hlast
    rw [← hlast.1, ← hlast.2]
    exact herror e s' (hx.holds _ _ hfirst)
  | some (.ok a, s') =>
    rw [hfirst] at hlast
    exact (hf a s' (hx.holds _ _ hfirst)).holds result last hlast

/-- A statement that returns leaves whether the sequence is defined to the rest. -/
theorem Returns.bind_undefined_iff {x : Call σ ε α} {f : α → Call σ ε β} {s s' : σ} {a : α} (hx : Returns x s a s') :
    Undefined (x >>= f) s ↔ Undefined (f a) s' := by
  change Call.bind x f s = none ↔ _
  rw [Call.bind, hx]
  rfl

/-- In a defined sequence every access finds something. -/
theorem defined_access {x : Option α} {f : α → Call σ ε β} {s : σ} (h : ¬Undefined (access x >>= f) s) :
    ∃ a, x = some a ∧ ¬Undefined (f a) s := by
  cases x with
  | none => exact absurd (Undefined.bind (undefined_access s)) h
  | some a =>
    refine ⟨a, rfl, ?_⟩
    rwa [(returns_access rfl s).bind_undefined_iff] at h

/-- A call that is defined has an outcome, which is as `post` says. -/
def Runs (x : Call σ ε α) (s : σ) (post : Except ε α → σ → Prop) : Prop :=
  ∃ result s', x s = some (result, s') ∧ post result s'

theorem Runs.not_undefined {x : Call σ ε α} {s : σ} {post : Except ε α → σ → Prop} (hx : Runs x s post) :
    ¬Undefined x s := by
  obtain ⟨result, s', hresult, -⟩ := hx
  intro h
  exact Option.some_ne_none _ (hresult.symm.trans h)

/-- What holds of the outcome holds of any that is known. -/
theorem Runs.holds {x : Call σ ε α} {s s' : σ} {post : Except ε α → σ → Prop} {result : Except ε α} (hx : Runs x s post)
    (hresult : x s = some (result, s')) : post result s' := by
  obtain ⟨other, last, hother, hpost⟩ := hx
  rw [hresult, Option.some.injEq, Prod.mk.injEq] at hother
  rwa [hother.1, hother.2]

theorem Runs.imp {x : Call σ ε α} {s : σ} {post post' : Except ε α → σ → Prop} (hx : Runs x s post)
    (h : ∀ result s', post result s' → post' result s') : Runs x s post' := by
  obtain ⟨result, s', hresult, hpost⟩ := hx
  exact ⟨result, s', hresult, h result s' hpost⟩

theorem Returns.runs {x : Call σ ε α} {s s' : σ} {a : α} {post : Except ε α → σ → Prop} (hx : Returns x s a s')
    (h : post (.ok a) s') : Runs x s post :=
  ⟨.ok a, s', hx, h⟩

theorem Fails.runs {x : Call σ ε α} {s s' : σ} {e : ε} {post : Except ε α → σ → Prop} (hx : Fails x s e s')
    (h : post (.error e) s') : Runs x s post :=
  ⟨.error e, s', hx, h⟩

/-- After a statement that returns, the sequence runs as the rest does. -/
theorem Returns.bind_runs {x : Call σ ε α} {f : α → Call σ ε β} {s s' : σ} {a : α}
    {post : Except ε β → σ → Prop} (hx : Returns x s a s') (hf : Runs (f a) s' post) : Runs (x >>= f) s post := by
  obtain ⟨result, last, hresult, hpost⟩ := hf
  refine ⟨result, last, ?_, hpost⟩
  change Call.bind x f s = _
  rw [Call.bind, hx]
  exact hresult

/-- The rest of a sequence runs from where the first statement has ended. -/
theorem Runs.bind {x : Call σ ε α} {f : α → Call σ ε β} {s : σ} {mid : Except ε α → σ → Prop}
    {post : Except ε β → σ → Prop} (hx : Runs x s mid) (herror : ∀ e s', mid (.error e) s' → post (.error e) s')
    (hf : ∀ a s', mid (.ok a) s' → Runs (f a) s' post) : Runs (x >>= f) s post := by
  obtain ⟨result, s', hresult, hmid⟩ := hx
  cases result with
  | error e => exact (Fails.bind hresult).runs (herror e s' hmid)
  | ok a => exact Returns.bind_runs hresult (hf a s' hmid)

/-- A component's call ends in the larger state as it does in its own. -/
theorem Ends.zoom {get : τ → σ} {set : σ → τ → τ} {x : Call σ ε α} {t : τ} {post : Except ε α → σ → Prop}
    (hx : Ends x (get t) post) :
    Ends (Call.zoom get set x) t fun result t' => ∃ s', t' = set s' t ∧ post result s' := by
  constructor
  intro result t' hresult
  change (x (get t)).map _ = _ at hresult
  rw [Option.map_eq_some_iff] at hresult
  obtain ⟨⟨other, s'⟩, hother, heq⟩ := hresult
  cases heq
  exact ⟨s', rfl, hx.holds _ _ hother⟩

/-- A component's undefined call is undefined in the larger state. -/
theorem Undefined.zoom {get : τ → σ} {set : σ → τ → τ} {x : Call σ ε α} {t : τ}
    (hx : Undefined x (get t)) : Undefined (Call.zoom get set x) t := by
  change (x (get t)).map _ = _
  rw [hx]
  rfl

end Call

end Aug.Lib
