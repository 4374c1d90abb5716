import Aug.Net.Client
import Mathlib.Data.List.Sublists

/-!
# The sockets of client channels

What a history of calls says about descriptors: which one is held, that is, has been obtained and not been closed
or handed over since, and which are connected. A history is legal where sockets are made one after the other, a
descriptor is passed to a call only while it is held, and a new channel is announced once. Runs of client
channels are legal, hold no descriptor in the end, and go through the addresses in their order.
-/

namespace Aug.Net

open Aug.Lib Aug.Sys

variable {A : Type}

/-- A call of a client channel and what it returned. -/
abbrev ClientExchange (A : Type) : Type := Exchange (ClientReply (A := A))

/-- The descriptor that a socket call or a new channel is given. -/
def ClientCall.passed : ClientCall A → Option ℕ
  | .ssetnonblock sd => some sd
  | .connect sd _ => some sd
  | .established sd => some sd
  | .getsockerr sd => some sd
  | .sclose sd => some sd
  | .createplain sd _ => some sd
  | _ => none

namespace ClientExchange

/-- A descriptor is obtained. -/
def obtains (sd : ℕ) : ClientExchange A → Bool
  | ⟨.socket _, some other⟩ => decide (other = sd)
  | _ => false

/-- A descriptor is closed, or handed over to a new channel. -/
def disposes (sd : ℕ) : ClientExchange A → Bool
  | ⟨.sclose other, _⟩ => decide (other = sd)
  | ⟨.createplain other _, true⟩ => decide (other = sd)
  | _ => false

/-- A new channel is announced. -/
def announces : ClientExchange A → Bool
  | ⟨.estabchan _, _⟩ => true
  | _ => false

/-- The address that a socket is made for. -/
def tries : ClientExchange A → Option A
  | ⟨.socket ep, _⟩ => some ep
  | _ => none

/-- The address that a socket is connected to. -/
def connects : ClientExchange A → Option A
  | ⟨.connect _ ep, _⟩ => some ep
  | _ => none

end ClientExchange

namespace ClientHistory

open ClientExchange

/-- How often a descriptor has been obtained. -/
def obtained (sd : ℕ) (history : List (ClientExchange A)) : ℕ := history.countP (obtains sd)

/-- How often it has been closed or handed over. -/
def disposed (sd : ℕ) (history : List (ClientExchange A)) : ℕ := history.countP (disposes sd)

/-- How often a new channel has been announced. -/
def announced (history : List (ClientExchange A)) : ℕ := history.countP announces

/-- The addresses that have been tried, the last one first. -/
def tried (history : List (ClientExchange A)) : List A := history.filterMap tries

/-- Those that a socket was connected to. -/
def attempted (history : List (ClientExchange A)) : List A := history.filterMap connects

/-- The descriptor that is held. -/
def held : List (ClientExchange A) → Option ℕ
  | [] => none
  | ⟨.socket _, some sd⟩ :: _ => some sd
  | ⟨.sclose _, _⟩ :: _ => none
  | ⟨.createplain _ _, true⟩ :: _ => none
  | _ :: earlier => held earlier

/-- A descriptor has been found connected since it was obtained. -/
def Connected (sd : ℕ) : List (ClientExchange A) → Prop
  | [] => False
  | ⟨.socket _, some other⟩ :: earlier => other ≠ sd ∧ Connected sd earlier
  | ⟨.connect other _, .connected⟩ :: earlier => other = sd ∨ Connected sd earlier
  | ⟨.established other, .established⟩ :: earlier => other = sd ∨ Connected sd earlier
  | _ :: earlier => Connected sd earlier

/-- A call may be made after a history. -/
def Permits (history : List (ClientExchange A)) : ClientCall A → Prop
  | .socket _ => held history = none
  | .estabchan sd => Connected sd history ∧ announced history = 0
  | .connect sd ep => held history = some sd ∧ ∃ before, tried history = ep :: before ∧ (attempted history).Sublist before
  | call => ∀ sd ∈ call.passed, held history = some sd

/-- Every call was permitted when it was made. -/
def Legal : List (ClientExchange A) → Prop
  | [] => True
  | ⟨call, _⟩ :: earlier => Permits earlier call ∧ Legal earlier

variable {history : List (ClientExchange A)}

/-- What is passed to a permitted call is held. -/
theorem Permits.held {call : ClientCall A} {sd : ℕ} (h : Permits history call) (hpassed : call.passed = some sd) :
    held history = some sd := by
  cases call with
  | connect other ep =>
    cases hpassed
    exact h.1
  | ssetnonblock | established | getsockerr | sclose | createplain => exact h sd hpassed
  | _ => cases hpassed

/-- A descriptor has been obtained once more than it has been disposed of if it is held, and else as often. -/
theorem Legal.balance (h : Legal history) (sd : ℕ) :
    obtained sd history = disposed sd history + if held history = some sd then 1 else 0 := by
  induction history with
  | nil => rfl
  | cons exchange earlier ih =>
    obtain ⟨call, reply⟩ := exchange
    have ih := ih h.2
    cases call with
    | socket ep =>
      have hnone : held earlier = none := h.1
      cases reply with
      | none => exact ih
      | some other =>
        simp only [hnone, reduceCtorEq, if_false, Nat.add_zero] at ih
        change (_ :: earlier).countP (obtains sd) = disposed sd earlier + if some other = some sd then 1 else 0
        rw [List.countP_cons, ← ih]
        simp only [obtains, decide_eq_true_eq, Option.some.injEq]
        rfl
    | sclose other =>
      have hheld : held earlier = some other := h.1 other rfl
      change obtained sd earlier = (_ :: earlier).countP (disposes sd) + 0
      rw [ih, hheld, List.countP_cons]
      simp only [disposes, decide_eq_true_eq, Option.some.injEq]
      rfl
    | createplain other wantwr =>
      cases reply with
      | false => exact ih
      | true =>
        have hheld : held earlier = some other := h.1 other rfl
        change obtained sd earlier = (_ :: earlier).countP (disposes sd) + 0
        rw [ih, hheld, List.countP_cons]
        simp only [disposes, decide_eq_true_eq, Option.some.injEq]
        rfl
    | _ => exact ih

/-- Sockets are connected in the order in which addresses are tried, each for its own. -/
theorem Legal.attempted_sublist (h : Legal history) : (attempted history).Sublist (tried history) := by
  induction history with
  | nil => exact List.Sublist.slnil
  | cons exchange earlier ih =>
    obtain ⟨call, reply⟩ := exchange
    have ih := ih h.2
    cases call with
    | socket ep => exact ih.cons ep
    | connect sd ep =>
      obtain ⟨_, before, htried, hsublist⟩ := h.1
      change (ep :: attempted earlier).Sublist (tried earlier)
      rw [htried]
      exact hsublist.cons_cons ep
    | _ => exact ih

/-- A new channel is announced at most once. -/
theorem Legal.announced_le (h : Legal history) : announced history ≤ 1 := by
  induction history with
  | nil => exact Nat.zero_le 1
  | cons exchange earlier ih =>
    obtain ⟨call, reply⟩ := exchange
    cases call with
    | estabchan sd =>
      have hnone : announced earlier = 0 := h.1.2
      change (_ :: earlier).countP announces ≤ 1
      rw [List.countP_cons]
      exact (congrArg (· + 1) hnone).le
    | _ => exact ih h.2

/-- A part of a legal history is legal up to any of its calls. -/
theorem Legal.split {later earlier : List (ClientExchange A)} {exchange : ClientExchange A}
    (h : Legal (later ++ exchange :: earlier)) : Permits earlier exchange.1 ∧ Legal earlier := by
  induction later with
  | nil => exact h
  | cons _ later ih => exact ih h.2

end ClientHistory

end Aug.Net
