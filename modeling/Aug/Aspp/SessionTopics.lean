import Aug.Aspp.Sessions
import Mathlib.Data.List.Induction

/-!
# Topics and their sessions

Which sessions an event reaches after any sequence of `insert` calls, and while a further session is starting. The
two multimaps hold one entry for each time a session has been entered for a topic, so that an event comes as often
as its topic was entered.
-/

namespace Aug.Aspp

open Lib Util

variable {σ δ : Type*}

/-- A call of `insert`. -/
structure InsertCall (σ : Type*) where
  name : Topic
  session : σ
  topics : Option (List UInt8)
  start : Start

/-- The entries of a call. -/
def InsertCall.entries (call : InsertCall σ) : Topics σ := (topicsOf call.name call.topics).map (·, call.session)

/-- The calls whose sessions have started. -/
def startedEntries (calls : List (InsertCall σ)) : Topics σ :=
  (calls.filter (·.start = .started)).flatMap InsertCall.entries

/-- What sessions are entered for, by the calls whose sessions have started, or by the one that is starting. -/
def entriesOf (calls : List (InsertCall σ)) (starting : Option (InsertCall σ)) : Topics σ :=
  startedEntries calls ++ (starting.map InsertCall.entries).getD []

namespace Sessions

/-- The registry after some calls. -/
def after (calls : List (InsertCall σ)) : Sessions σ :=
  calls.foldl (fun s call => s.insert call.name call.session call.topics call.start) create

/-- The registry after some calls, or while the session of a further call is starting. -/
def during (calls : List (InsertCall σ)) : Option (InsertCall σ) → Sessions σ
  | none => after calls
  | some call => (after calls).entered call.name call.session call.topics

end Sessions

/-- An event with its payload. -/
structure Msg (δ : Type*) where
  sender : List UInt8
  target : Topic
  type : List UInt8
  id : ℕ
  payload : δ

/-- `dispatch`: the sessions with the event that they receive. -/
def dispatch (s : Sessions σ) (sname target type : List UInt8) (id : ℕ) (ob : δ) : List (σ × Msg δ) :=
  (s.getbytopic target).map fun session => (session, ⟨sname, target, type, id, ob⟩)

/-- `readevent_BI` for an event that has been posted. -/
def readevent (s : Sessions σ) (msg : Msg δ) : List (σ × Msg δ) := (s.getbytopic msg.target).map fun session => (session, msg)

theorem insertAll_perm (topics entries : Topics σ) : (topics.insertAll entries).Perm (topics ++ entries) := by
  induction entries generalizing topics with
  | nil => rw [List.append_nil]; exact .refl _
  | cons entry entries ih =>
    have hplace : (topics.insert entry).Perm (entry :: topics) := OrderedMap.place_perm _ _ _ topics
    exact (ih (topics.insert entry)).trans ((hplace.append_right entries).trans List.perm_middle.symm)

/-- A registry holds some entries, as often as they have been made. -/
def Holds (s : Sessions σ) (entries : Topics σ) : Prop := (s.topics ++ s.tmptopics).Perm entries

/-- A call of `insert` adds its entries if its session starts. -/
theorem after_topics (calls : List (InsertCall σ)) :
    (Sessions.after calls).tmptopics = [] ∧ (Sessions.after calls).topics.Perm (startedEntries calls) := by
  induction calls using List.reverseRecOn with
  | nil => exact ⟨rfl, .refl _⟩
  | append_singleton calls call ih =>
    obtain ⟨htmp, htopics⟩ := ih
    have hafter : Sessions.after (calls ++ [call]) =
        (Sessions.after calls).insert call.name call.session call.topics call.start := by
      rw [Sessions.after, List.foldl_append]
      rfl
    have hentries : startedEntries (calls ++ [call]) =
        startedEntries calls ++ if call.start = .started then call.entries else [] := by
      rw [startedEntries, List.filter_append, List.flatMap_append]
      by_cases hstart : call.start = .started <;> simp [startedEntries, hstart]
    have hwaits : ((Sessions.after calls).tmptopics.insertAll call.entries).Perm call.entries := by
      rw [htmp]
      exact insertAll_perm [] call.entries
    rw [hafter, hentries]
    refine ⟨insert_tmptopics _ _ _ _ _, ?_⟩
    cases hstart : call.start with
    | started =>
      rw [if_pos rfl]
      exact (insertAll_perm _ _).trans (htopics.append hwaits)
    | refused => simpa [Sessions.insert, Sessions.entered] using htopics
    | threw => simpa [Sessions.insert, Sessions.entered] using htopics

/-- At any time, the registry holds what sessions are entered for. -/
theorem during_holds (calls : List (InsertCall σ)) (starting : Option (InsertCall σ)) :
    Holds (Sessions.during calls starting) (entriesOf calls starting) := by
  obtain ⟨htmp, htopics⟩ := after_topics calls
  cases starting with
  | none =>
    rw [Holds, Sessions.during, htmp, List.append_nil]
    simpa [entriesOf] using htopics
  | some call =>
    have hwaits : ((Sessions.after calls).tmptopics.insertAll call.entries).Perm call.entries := by
      rw [htmp]
      exact insertAll_perm [] call.entries
    exact htopics.append hwaits

variable [DecidableEq σ]

/-- A session is found for a topic as often as it has been entered for it. -/
theorem count_getbytopic {s : Sessions σ} {entries : Topics σ} (h : Holds s entries) (topic : Topic) (session : σ) :
    (s.getbytopic topic).count session = entries.count (topic, session) := by
  have hrange : ∀ topics : Topics σ, (topics.equalRange topic).count session = topics.count (topic, session) := by
    intro topics
    induction topics with
    | nil => rfl
    | cons entry topics ih =>
      obtain ⟨other, found⟩ := entry
      rw [List.count_cons, ← ih]
      by_cases htopic : other = topic
      · simp [Topics.equalRange, htopic, List.count_cons]
      · simp [Topics.equalRange, htopic]
  rw [Sessions.getbytopic, List.count_append, hrange, hrange, ← List.count_append]
  exact h.count_eq (topic, session)

/-- Each session that is entered for a topic receives an event once, and no other receives it. -/
structure DeliveredOnce (δ : Type*) (s : Sessions σ) (entries : Topics σ) : Prop where
  dispatched : ∀ (sname target type : List UInt8) (id : ℕ) (ob : δ) (session : σ),
    ((dispatch s sname target type id ob).map Prod.fst).count session = if (target, session) ∈ entries then 1 else 0
  posted : ∀ (msg : Msg δ) (session : σ),
    ((readevent s msg).map Prod.fst).count session = if (msg.target, session) ∈ entries then 1 else 0

/-- An event is delivered once to each session if and only if no session is entered twice for a topic. -/
theorem deliveredOnce_iff_nodup [Inhabited δ] {s : Sessions σ} {entries : Topics σ} (h : Holds s entries) :
    DeliveredOnce δ s entries ↔ entries.Nodup := by
  have hcount : ∀ (topic : Topic) (session : σ),
      (s.getbytopic topic).count session = entries.count (topic, session) := count_getbytopic h
  have hpairs : ∀ found : List σ, ∀ msg : Msg δ, (found.map fun session => (session, msg)).map Prod.fst = found := by
    intro found msg
    rw [List.map_map]
    exact List.map_id found
  constructor
  · intro honce
    rw [List.nodup_iff_count_le_one]
    intro ⟨topic, session⟩
    have hone := honce.posted ⟨[], topic, [], 0, default⟩ session
    rw [readevent, hpairs, hcount] at hone
    rw [hone]
    split_ifs <;> simp
  · intro hnodup
    have hone : ∀ (topic : Topic) (session : σ),
        (s.getbytopic topic).count session = if (topic, session) ∈ entries then 1 else 0 := by
      intro topic session
      rw [hcount]
      split_ifs with hmem
      · exact List.count_eq_one_of_mem hnodup hmem
      · exact List.count_eq_zero_of_not_mem hmem
    constructor
    · intro sname target type id ob session
      rw [dispatch, hpairs, hone]
    · intro msg session
      rw [readevent, hpairs, hone]

/-- After any calls of `insert`, and while a further session is starting, each subscribed session receives an event
exactly once, and no other does, exactly if no session has been entered twice for a topic. -/
theorem delivered_once_iff [Inhabited δ] (calls : List (InsertCall σ)) (starting : Option (InsertCall σ)) :
    DeliveredOnce δ (Sessions.during calls starting) (entriesOf calls starting) ↔ (entriesOf calls starting).Nodup :=
  deliveredOnce_iff_nodup (during_holds calls starting)

/-- A session that lists its own name as a topic is entered for it twice, and an event for the name comes twice. -/
theorem own_name_twice : ¬∀ (calls : List (InsertCall ℕ)) (starting : Option (InsertCall ℕ)),
    DeliveredOnce ℕ (Sessions.during calls starting) (entriesOf calls starting) := by
  intro h
  exact absurd ((h [⟨[97], 1, some [97, 32, 98], .started⟩] none).dispatched [] [97] [] 0 0 1) (by decide +kernel)

end Aug.Aspp
