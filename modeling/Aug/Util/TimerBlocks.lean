import Aug.Util.Timer

/-!
# The memory of timers

The timers of `timer.c` with what they allocate and retain. A callback may itself call `aug_processexpired`, so
that callbacks may be in progress inside of others; timers are not destroyed as a whole in a callback, where
they are still in use.
-/

namespace Aug.Util

open Aug.Sys

/-- What a timer was created with: the number of timers before it, its callback and its object. -/
structure Block (C : Type) where
  serial : ℕ
  cb : C
  ob : Option ℕ
deriving DecidableEq, Repr

/-- A call on the memory pool, or on the object of a timer. -/
inductive Effect (C : Type)
  | alloc (block : Block C)
  | retain (block : Block C)
  | release (block : Block C)
  | free (block : Block C)
deriving DecidableEq, Repr

/-- The timers, the callbacks around the innermost one, and all effects so far. -/
structure Store (C : Type) where
  timers : Timers (Block C)
  outer : List (Timeval × Timer (Block C))
  effects : List (Effect C)
  serial : ℕ
  destroyed : Bool
deriving DecidableEq, Repr

/-- A call, or the return from the innermost callback with the period that it leaves. -/
inductive StoreAction (C : Type)
  | settimer (id : ℤ) (ms : ℕ) (cb : C) (ob : Option ℕ) (reading : Option Reading) (created : Bool)
  | resettimer (id : ℤ) (ms : ℕ) (reading : Option Reading)
  | canceltimer (id : ℤ)
  | processexpired (force : Bool) (reading : Option Reading)
  | return' (ms : ℕ) (reading : Option Reading)
  | destroytimers

namespace Store

variable {C : Type}

/-- `aug_createtimers`. -/
def create : Store C where
  timers := .create
  outer := []
  effects := []
  serial := 0
  destroyed := false

/-- `createtimer_`, where the memory is granted. -/
def createtimer (block : Block C) : List (Effect C) :=
  .alloc block :: if block.ob.isSome then [.retain block] else []

/-- `destroytimer_`. -/
def destroytimer (block : Block C) : List (Effect C) :=
  (if block.ob.isSome then [.release block] else []) ++ [.free block]

/-- The store with another list and more effects. -/
def withList (list : List (Timer (Block C))) (effects : List (Effect C)) (store : Store C) : Store C :=
  { store with timers := { store.timers with list }, effects := store.effects ++ effects }

/-- `aug_canceltimer`. -/
def canceltimer (id : ℤ) (store : Store C) : Store C × ℤ :=
  match store.timers.list.find? (·.id == id) with
  | some it => (store.withList (store.timers.list.eraseP (·.id == id)) (destroytimer it.cb), 0)
  | none => (store, -1)

/-- `aug_settimer`. -/
def settimer (id : ℤ) (ms : ℕ) (cb : C) (ob : Option ℕ) (reading : Option Reading) (created : Bool)
    (store : Store C) : Store C × ℤ :=
  let (id, store) :=
    if id ≤ 0 then
      ((Timers.nextid store.timers.counter).1,
        { store with timers := { store.timers with counter := (Timers.nextid store.timers.counter).2 } })
    else (id, (store.canceltimer id).1)
  match Timers.setexpiry reading ms, created with
  | some tv, true =>
    let block := { serial := store.serial, cb, ob }
    ({ store.withList (Timers.inserttimer { id, ms, tv, cb := block } store.timers.list) (createtimer block) with
       serial := store.serial + 1 }, id)
  | _, _ => (store, -1)

/-- `aug_resettimer`. -/
def resettimer (id : ℤ) (ms : ℕ) (reading : Option Reading) (store : Store C) : Store C × ℤ :=
  match store.timers.list.find? (·.id == id) with
  | some it =>
    let rest := store.timers.list.eraseP (·.id == id)
    let ms := if ms = 0 then it.ms else ms
    match Timers.setexpiry reading ms with
    | some tv => (store.withList (Timers.inserttimer { it with ms, tv } rest) [], 0)
    | none => (store.withList rest (destroytimer it.cb), -1)
  | none => (store, -1)

/-- What follows a callback in `aug_processexpired`, up to the test of the loop. -/
def reschedule (it : Timer (Block C)) (ms : ℕ) (reading : Option Reading) (store : Store C) : Store C :=
  if ms = 0 then store.withList store.timers.list (destroytimer it.cb)
  else
    match Timers.setexpiry reading ms with
    | some tv => store.withList (Timers.inserttimer { it with ms, tv } store.timers.list) []
    | none => store

/-- The callback around a call that has ended is the innermost one again. -/
def leave (store : Store C) : Store C :=
  match store.timers.process, store.outer with
  | .idle, (now, it) :: outer => { store with timers := { store.timers with process := .callback now it }, outer }
  | _, _ => store

/-- The call starts inside of the callback that is in progress. -/
def enter (store : Store C) : Store C :=
  match store.timers.process with
  | .callback now it =>
    { store with timers := { store.timers with process := .idle }, outer := (now, it) :: store.outer }
  | _ => store

/-- `aug_processexpired`, up to its first callback. -/
def processexpired (force : Bool) (reading : Option Reading) (store : Store C) : Store C :=
  let store := store.enter
  leave { store with timers := store.timers.processexpired force reading }

/-- `aug_destroytimers`. -/
def destroytimers (store : Store C) : Store C :=
  { store.withList [] (store.timers.list.flatMap fun it => destroytimer it.cb) with destroyed := true }

/-- One action, while the timers have not been destroyed. -/
def step (store : Store C) (action : StoreAction C) : Option (Store C) :=
  if store.destroyed then none
  else
    match action with
    | .settimer id ms cb ob reading created => some (store.settimer id ms cb ob reading created).1
    | .resettimer id ms reading => some (store.resettimer id ms reading).1
    | .canceltimer id => some (store.canceltimer id).1
    | .processexpired force reading => some (store.processexpired force reading)
    | .return' ms reading =>
      match store.timers.process with
      | .callback now it =>
        let store := store.reschedule it ms reading
        some (leave { store with timers := store.timers.expire now })
      | _ => none
    | .destroytimers =>
      match store.timers.process with
      | .idle => some store.destroytimers
      | _ => none

end Store

end Aug.Util
