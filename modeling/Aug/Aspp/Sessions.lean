import Aug.Lib.OrderedMap
import Aug.Util.Words
import Mathlib.Data.List.Lex

/-!
# The sessions of an engine

The registry of `sessions.cpp`: a map from names to sessions, and two multimaps from topics to sessions, one of
which has the topics of a session that is starting. What `start` returns is left open, and so is whether it throws;
while it runs, it finds the session entered.
-/

namespace Aug.Aspp

open Lib Util

/-- The name of a session, or a topic. -/
abbrev Topic := List UInt8

/-- The order of strings. -/
def Topic.lt (a b : Topic) : Bool := decide (a < b)

/-- What `>>` reads from a stream, one word after the other. -/
def streamWords (text : List UInt8) : List Topic := (text.splitOnP isspace).filter (· ≠ [])

/-- The multimap `topics`. -/
abbrev Topics (σ : Type*) := List (Topic × σ)

/-- What `start` comes to. -/
inductive Start where
  | started
  | refused
  | threw
  deriving DecidableEq

/-- `sessions`. -/
structure Sessions (σ : Type*) where
  sessions : OrderedMap Topic σ
  topics : Topics σ
  tmptopics : Topics σ

variable {σ : Type*}

namespace Topics

/-- `insert` of one entry. -/
def insert (topics : Topics σ) (entry : Topic × σ) : Topics σ := OrderedMap.place Topic.lt entry.1 entry.2 topics

/-- `insert` of a range. -/
def insertAll (topics entries : Topics σ) : Topics σ := entries.foldl insert topics

/-- The sessions of `equal_range`. -/
def equalRange (topics : Topics σ) (topic : Topic) : List σ := (topics.filter (·.1 = topic)).map Prod.snd

end Topics

/-- The topics that a session is entered for: its name and the words of the list. -/
def topicsOf (name : Topic) (topics : Option (List UInt8)) : List Topic := name :: (topics.map streamWords).getD []

namespace Sessions

/-- A new registry. -/
def create : Sessions σ := ⟨.empty, [], []⟩

/-- `insert` up to the call of `start`. -/
def entered (s : Sessions σ) (name : Topic) (session : σ) (topics : Option (List UInt8)) : Sessions σ where
  sessions := s.sessions.put Topic.lt name session
  topics := s.topics
  tmptopics := s.tmptopics.insertAll ((topicsOf name topics).map (·, session))

/-- `insert`. The topics that wait are cleared in any case. -/
def insert (s : Sessions σ) (name : Topic) (session : σ) (topics : Option (List UInt8)) (start : Start) : Sessions σ :=
  let s := s.entered name session topics
  match start with
  | .started => { s with topics := s.topics.insertAll s.tmptopics, tmptopics := [] }
  | .refused => { s with sessions := s.sessions.erase name, tmptopics := [] }
  | .threw => { s with tmptopics := [] }

/-- `getsessions`. -/
def getsessions (s : Sessions σ) : List σ := s.sessions.entries.map Prod.snd

/-- `getbyname`, which throws for a name that is not there. -/
def getbyname (s : Sessions σ) (name : Topic) : Option σ := s.sessions.find name

/-- `getbytopic`. -/
def getbytopic (s : Sessions σ) (topic : Topic) : List σ := s.topics.equalRange topic ++ s.tmptopics.equalRange topic

end Sessions

/-- Two registries give the same answers. -/
structure SameAnswers (s s' : Sessions σ) : Prop where
  getbyname : ∀ name, s'.getbyname name = s.getbyname name
  getsessions : s'.getsessions = s.getsessions
  getbytopic : ∀ topic, s'.getbytopic topic = s.getbytopic topic

variable {s : Sessions σ} {name : Topic} {session : σ} {topics : Option (List UInt8)} {start : Start}

/-- No topic waits outside of a call. -/
theorem insert_tmptopics (s : Sessions σ) (name : Topic) (session : σ) (topics : Option (List UInt8)) (start : Start) :
    (s.insert name session topics start).tmptopics = [] := by
  cases start <;> rfl

/-- Nothing waits for any topic if and only if nothing waits. -/
theorem equalRange_eq_nil_iff (topics : Topics σ) : (∀ topic, topics.equalRange topic = []) ↔ topics = [] := by
  constructor
  · intro h
    cases topics with
    | nil => rfl
    | cons entry topics => simpa [Topics.equalRange] using h entry.1
  · rintro rfl topic
    rfl

/-- Without what has waited, the answers to topics are the same if and only if nothing has waited. -/
theorem getbytopic_same_iff (sessions : OrderedMap Topic σ) :
    (∀ topic, Sessions.getbytopic ⟨sessions, s.topics, []⟩ topic = s.getbytopic topic) ↔ s.tmptopics = [] := by
  have htopic : ∀ topic, Sessions.getbytopic ⟨sessions, s.topics, []⟩ topic = s.getbytopic topic ↔
      s.tmptopics.equalRange topic = [] := by
    intro topic
    rw [Sessions.getbytopic, Sessions.getbytopic, List.append_right_inj, eq_comm]
    rfl
  simp only [htopic, equalRange_eq_nil_iff]

/-- A refused session leaves the answers as they were if and only if its name was free and no topic waited. -/
theorem refused_same_iff : SameAnswers s (s.insert name session topics .refused) ↔
    s.tmptopics = [] ∧ s.sessions.find name = none := by
  have hbytopic := @getbytopic_same_iff σ s ((s.sessions.put Topic.lt name session).erase name)
  constructor
  · rintro ⟨hname, -, htopic⟩
    refine ⟨hbytopic.mp htopic, ?_⟩
    rw [show s.sessions.find name = s.getbyname name from rfl, ← hname name]
    exact (OrderedMap.find_erase name name _).trans (if_pos rfl)
  · rintro ⟨htmp, hfree⟩
    have hentries := OrderedMap.erase_put Topic.lt session hfree
    exact ⟨OrderedMap.find_congr hentries, congrArg (List.map Prod.snd) hentries, hbytopic.mpr htmp⟩

/-- A session that throws leaves the answers as they were if and only if it was entered before and no topic waited. -/
theorem threw_same_iff : SameAnswers s (s.insert name session topics .threw) ↔
    s.tmptopics = [] ∧ s.sessions.find name = some session := by
  have hbytopic := @getbytopic_same_iff σ s (s.sessions.put Topic.lt name session)
  constructor
  · rintro ⟨hname, -, htopic⟩
    refine ⟨hbytopic.mp htopic, ?_⟩
    rw [show s.sessions.find name = s.getbyname name from rfl, ← hname name]
    exact (OrderedMap.find_put Topic.lt name name session s.sessions).trans (if_pos rfl)
  · rintro ⟨htmp, hsame⟩
    have hentries := OrderedMap.put_same Topic.lt hsame
    exact ⟨OrderedMap.find_congr hentries, congrArg (List.map Prod.snd) hentries, hbytopic.mpr htmp⟩

/-- A session that does not start leaves the answers as they were exactly if no topic waited and, where it is
refused, its name was free, or, where it throws, its name was its own. -/
theorem insert_undone_iff (s : Sessions σ) (name : Topic) (session : σ) (topics : Option (List UInt8)) (start : Start)
    (hfailed : start ≠ .started) :
    SameAnswers s (s.insert name session topics start) ↔
      s.tmptopics = [] ∧ s.sessions.find name = if start = .refused then none else some session := by
  cases start with
  | started => exact absurd rfl hfailed
  | refused => exact refused_same_iff
  | threw => exact threw_same_iff

/-- A session with a name of its own is refused. -/
theorem insert_undone_iff_free :
    SameAnswers (Sessions.create.insert [97] 1 none .started)
      ((Sessions.create.insert [97] 1 none .started).insert [98] 2 (some [97]) .refused) :=
  (insert_undone_iff (Sessions.create.insert [97] 1 none .started) [98] 2 (some [97]) .refused (by decide)).mpr
    ⟨rfl, by decide +kernel⟩

/-- A session is refused whose name is taken: the session that had the name is not found any more. -/
theorem refused_name_lost : ¬∀ (s : Sessions ℕ) (name : Topic) (session : ℕ) (topics : Option (List UInt8))
    (start : Start), start ≠ .started → SameAnswers s (s.insert name session topics start) := by
  intro h
  have hsame := h (Sessions.create.insert [97] 1 none .started) [97] 2 none .refused (by decide)
  exact absurd (hsame.getbyname [97]) (by decide +kernel)

end Aug.Aspp
