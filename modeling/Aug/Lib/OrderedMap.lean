import Mathlib.Data.List.Basic
import Mathlib.Data.List.Nodup

/-!
# Ordered maps

Maps as lists of entries, no two with one key, that are kept in the order of a comparison. A sweep
visits the entries in order, keeps or erases each, and collects what the visits put out.
-/

namespace Aug.Lib

/-- Entries with distinct keys. -/
structure OrderedMap (K V : Type*) where
  entries : List (K × V)
  unique : (entries.map Prod.fst).Nodup

namespace OrderedMap

variable {K V E : Type*}

/-- The map without entries. -/
def empty : OrderedMap K V := ⟨[], List.nodup_nil⟩

/-- The output of some visits, and the entries that they keep. -/
def visit (f : K → V → List E × Option V) : List (K × V) → List (K × E) × List (K × V)
  | [] => ([], [])
  | (k, v) :: entries =>
    ((f k v).1.map (k, ·) ++ (visit f entries).1,
      (f k v).2.toList.map (k, ·) ++ (visit f entries).2)

theorem visit_keys (f : K → V → List E × Option V) (entries : List (K × V)) :
    ((visit f entries).2.map Prod.fst).Sublist (entries.map Prod.fst) := by
  induction entries with
  | nil => exact .refl _
  | cons entry entries ih =>
    obtain ⟨k, v⟩ := entry
    cases hkeep : (f k v).2 with
    | none => simpa [visit, hkeep] using ih.cons k
    | some kept => simpa [visit, hkeep] using ih

/-- Visit every entry. -/
def sweep (f : K → V → List E × Option V) (m : OrderedMap K V) : List (K × E) × OrderedMap K V :=
  ((visit f m.entries).1, ⟨(visit f m.entries).2, m.unique.sublist (visit_keys f m.entries)⟩)

/-- Put an entry in front of the first one with a greater key. -/
def place (lt : K → K → Bool) (k : K) (v : V) : List (K × V) → List (K × V)
  | [] => [(k, v)]
  | entry :: entries =>
    if lt k entry.1 then (k, v) :: entry :: entries else entry :: place lt k v entries

theorem place_perm (lt : K → K → Bool) (k : K) (v : V) (entries : List (K × V)) :
    (place lt k v entries).Perm ((k, v) :: entries) := by
  induction entries with
  | nil => exact .refl _
  | cons entry entries ih =>
    unfold place
    split_ifs
    · exact .refl _
    · exact (ih.cons entry).trans (.swap (k, v) entry entries)

variable [DecidableEq K]

/-- The value of a key. -/
def find (m : OrderedMap K V) (k : K) : Option V := m.entries.lookup k

/-- Remove the entry of a key. -/
def erase (m : OrderedMap K V) (k : K) : OrderedMap K V :=
  ⟨m.entries.filter (·.1 ≠ k), m.unique.sublist (List.filter_sublist.map Prod.fst)⟩

/-- Give a key a value, in the place of the value it had. -/
def put (lt : K → K → Bool) (k : K) (v : V) (m : OrderedMap K V) : OrderedMap K V where
  entries :=
    if k ∈ m.entries.map Prod.fst then m.entries.map fun entry => if entry.1 = k then (k, v) else entry
    else place lt k v m.entries
  unique := by
    split_ifs with hk
    · have hkeys : (m.entries.map fun entry => if entry.1 = k then (k, v) else entry).map Prod.fst =
          m.entries.map Prod.fst := by
        rw [List.map_map]
        apply List.map_congr_left
        intro entry _
        by_cases hentry : entry.1 = k <;> simp [hentry]
      rw [hkeys]
      exact m.unique
    · rw [((place_perm lt k v m.entries).map Prod.fst).nodup_iff]
      exact List.nodup_cons.mpr ⟨hk, m.unique⟩

/-- Give a key a value or none. -/
def assign (lt : K → K → Bool) (k : K) : Option V → OrderedMap K V → OrderedMap K V
  | some v, m => m.put lt k v
  | none, m => m.erase k

/-- A value is found if and only if it is in the entry of the key. -/
theorem find_eq_some {m : OrderedMap K V} {k : K} {v : V} : m.find k = some v ↔ (k, v) ∈ m.entries := by
  obtain ⟨entries, hunique⟩ := m
  unfold find
  induction entries with
  | nil => simp
  | cons entry entries ih =>
    obtain ⟨j, w⟩ := entry
    obtain ⟨hj, hrest⟩ := List.nodup_cons.mp hunique
    rw [List.lookup_cons, List.mem_cons, Prod.mk.injEq]
    by_cases hkey : k = j
    · rw [hkey, beq_self_eq_true]
      have hnot : (j, v) ∉ entries := fun hmem => hj (List.mem_map.mpr ⟨(j, v), hmem, rfl⟩)
      simp [hnot, eq_comm]
    · rw [beq_false_of_ne hkey]
      simpa [hkey] using ih hrest

theorem find_put (lt : K → K → Bool) (k j : K) (v : V) (m : OrderedMap K V) :
    (m.put lt k v).find j = if j = k then some v else m.find j := by
  apply Option.ext
  intro w
  rw [find_eq_some]
  simp only [put]
  split_ifs with hk hj hj
  · rw [Option.some.injEq, List.mem_map]
    constructor
    · rintro ⟨entry, -, hentry⟩
      split_ifs at hentry with hkey
      · exact (Prod.ext_iff.mp hentry).2
      · exact absurd ((Prod.ext_iff.mp hentry).1.trans hj) hkey
    · rintro rfl
      obtain ⟨entry, hmem, hkey⟩ := List.mem_map.mp hk
      exact ⟨entry, hmem, by rw [if_pos hkey, hj]⟩
  · rw [find_eq_some, List.mem_map]
    constructor
    · rintro ⟨entry, hmem, hentry⟩
      split_ifs at hentry with hkey
      · exact absurd (Prod.ext_iff.mp hentry).1.symm hj
      · rwa [← hentry]
    · intro hmem
      exact ⟨(j, w), hmem, if_neg hj⟩
  · rw [(place_perm lt k v m.entries).mem_iff, List.mem_cons, hj, Prod.mk.injEq, Option.some.injEq]
    have hnot : (k, w) ∉ m.entries := fun hmem => hk (List.mem_map_of_mem hmem)
    simp [hnot, eq_comm]
  · rw [(place_perm lt k v m.entries).mem_iff, List.mem_cons, Prod.mk.injEq, find_eq_some]
    simp [hj]

/-- What is found depends on the entries alone. -/
theorem find_congr {m m' : OrderedMap K V} (h : m.entries = m'.entries) (k : K) : m.find k = m'.find k := by
  rw [find, find, h]

/-- A key without a value has no entry. -/
theorem find_eq_none {m : OrderedMap K V} {k : K} : m.find k = none ↔ ∀ entry ∈ m.entries, entry.1 ≠ k := by
  constructor
  · rintro h ⟨j, w⟩ hmem rfl
    rw [find_eq_some.mpr hmem] at h
    cases h
  · intro h
    rw [Option.eq_none_iff_forall_not_mem]
    intro v hv
    exact h (k, v) (find_eq_some.mp hv) rfl

/-- An entry that is put where none is and erased again leaves the map as it was. -/
theorem erase_put (lt : K → K → Bool) {m : OrderedMap K V} {k : K} (v : V) (h : m.find k = none) :
    ((m.put lt k v).erase k).entries = m.entries := by
  have hkeys : k ∉ m.entries.map Prod.fst := by
    rw [List.mem_map]
    rintro ⟨entry, hmem, hkey⟩
    exact find_eq_none.mp h entry hmem hkey
  have hplace : ∀ entries : List (K × V),
      (place lt k v entries).filter (·.1 ≠ k) = entries.filter (·.1 ≠ k) := by
    intro entries
    induction entries with
    | nil => simp [place]
    | cons entry entries ih =>
      rw [place]
      split_ifs
      · simp
      · rw [List.filter_cons, List.filter_cons, ih]
  have hall : m.entries.filter (·.1 ≠ k) = m.entries :=
    List.filter_eq_self.mpr fun entry hmem => decide_eq_true (find_eq_none.mp h entry hmem)
  simp only [erase, put, if_neg hkeys]
  rw [hplace, hall]

/-- An entry that is put in place of itself leaves the map as it was. -/
theorem put_same (lt : K → K → Bool) {m : OrderedMap K V} {k : K} {v : V} (h : m.find k = some v) :
    (m.put lt k v).entries = m.entries := by
  have hmem := find_eq_some.mp h
  have hkeys : k ∈ m.entries.map Prod.fst := List.mem_map.mpr ⟨(k, v), hmem, rfl⟩
  simp only [put, if_pos hkeys]
  refine (List.map_congr_left ?_).trans (List.map_id _)
  intro entry hentry
  split_ifs with hkey
  · exact List.inj_on_of_nodup_map m.unique hmem hentry hkey.symm
  · rfl

theorem find_erase (k j : K) (m : OrderedMap K V) :
    (m.erase k).find j = if j = k then none else m.find j := by
  apply Option.ext
  intro w
  rw [find_eq_some]
  split_ifs with hj <;> simp [erase, hj, find_eq_some]

@[simp] theorem find_assign (lt : K → K → Bool) (k j : K) (o : Option V) (m : OrderedMap K V) :
    (m.assign lt k o).find j = if j = k then o else m.find j := by
  cases o with
  | none => exact find_erase k j m
  | some v => exact find_put lt k j v m

/-- What a list of outputs holds for one key. -/
def outputs (k : K) (list : List (K × E)) : List E :=
  list.filterMap fun output => if output.1 = k then some output.2 else none

@[simp] theorem outputs_append (k : K) (list list' : List (K × E)) :
    outputs k (list ++ list') = outputs k list ++ outputs k list' :=
  List.filterMap_append

@[simp] theorem outputs_map (k j : K) (list : List E) :
    outputs k (list.map (j, ·)) = if j = k then list else [] := by
  unfold outputs
  rw [List.filterMap_map]
  split_ifs with hj <;> simp [hj]

/-- A sweep keeps of every entry what its visit keeps. -/
theorem find_sweep (f : K → V → List E × Option V) (m : OrderedMap K V) (k : K) :
    (m.sweep f).2.find k = (m.find k).bind fun v => (f k v).2 := by
  apply Option.ext
  intro w
  rw [find_eq_some, Option.bind_eq_some_iff]
  simp only [find_eq_some, sweep]
  induction m.entries with
  | nil => simp [visit]
  | cons entry entries ih =>
    obtain ⟨j, v⟩ := entry
    simp only [visit, List.mem_append, ih, List.mem_cons, List.mem_map, Option.mem_toList, Prod.mk.injEq]
    grind

/-- A key without an entry has no output. -/
theorem outputs_visit (f : K → V → List E × Option V) {entries : List (K × V)} {k : K}
    (hk : k ∉ entries.map Prod.fst) : outputs k (visit f entries).1 = [] := by
  induction entries with
  | nil => rfl
  | cons entry entries ih =>
    obtain ⟨j, v⟩ := entry
    rw [List.map_cons, List.mem_cons, not_or] at hk
    rw [visit, outputs_append, outputs_map, if_neg (Ne.symm hk.1), ih hk.2]
    rfl

/-- A sweep puts out for every entry what its visit does. -/
theorem outputs_sweep (f : K → V → List E × Option V) (m : OrderedMap K V) (k : K) :
    outputs k (m.sweep f).1 = (m.find k).elim [] fun v => (f k v).1 := by
  obtain ⟨entries, hunique⟩ := m
  unfold sweep find
  induction entries with
  | nil => rfl
  | cons entry entries ih =>
    obtain ⟨j, v⟩ := entry
    obtain ⟨hj, hrest⟩ := List.nodup_cons.mp hunique
    simp only [visit, outputs_append, outputs_map, List.lookup_cons]
    by_cases hkey : j = k
    · rw [if_pos hkey, hkey, beq_self_eq_true, outputs_visit f (hkey ▸ hj), List.append_nil]
      rfl
    · rw [if_neg hkey, beq_false_of_ne (Ne.symm hkey)]
      exact ih hrest

end OrderedMap

end Aug.Lib
