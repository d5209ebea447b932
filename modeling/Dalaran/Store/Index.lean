import Dalaran.Base.OrdSet
import Dalaran.Chunk.Rows

/-
  The time indices of the store (`ChunkIdSetPerTime` in `store.rs`).

  The source nests its maps by entity, timeline and component; here one map is
  keyed by the tuple, and since the two indices of the store differ in nothing
  but their key, everything in this module is about an index over any key type.
  A `BTreeMap<TimeInt, BTreeSet<ChunkId>>` that never keeps an empty set is the
  ordered set of its (time, id) pairs.

  `Listed index key edge time id` says that `id` is listed under `time` in the start
  or the end map of a key. `insertAll` adds the listings of some ranges
  (`insertAll_listed`), `removeAll` takes them away (`removeAll_listed`). The
  interval length of a key only grows (`maxLength`).

  Correspondence (Rust ↔ Lean):
    the index updates of `insert_chunk_impl` and `insert_dlr_manifest` ↔ `insertRange`, `insertAll`
    those of `remove_chunk_from_virtual_indices` ↔ `removeRange`, `removeAll`
-/

namespace Dalaran

open List Assoc

/-- A time and a chunk id, ordered by time first. -/
abbrev TimeAndId := TimeInt ×ₗ ChunkId

/-- The ids listed under their start and end times, with the longest interval ever listed. -/
structure ChunkIdSetPerTime where
  maxIntervalLength : Nat
  perStartTime : OrdSet TimeAndId
  perEndTime : OrdSet TimeAndId

namespace ChunkIdSetPerTime

def empty : ChunkIdSetPerTime := ⟨0, OrdSet.empty, OrdSet.empty⟩

/-- List an id under a range. -/
def insertRange (s : ChunkIdSetPerTime) (r : AbsoluteTimeRange) (id : ChunkId) : ChunkIdSetPerTime where
  maxIntervalLength := max s.maxIntervalLength r.absLength
  perStartTime := s.perStartTime.insert (toLex (r.min, id))
  perEndTime := s.perEndTime.insert (toLex (r.max, id))

/-- Whether a time is a key of a start or end map. -/
def occupied (s : OrdSet TimeAndId) (t : TimeInt) : Bool := s.elems.any fun p => decide ((ofLex p).1 = t)

/-- Unlist an id from a range, and whether either key was occupied. -/
def removeRange (s : ChunkIdSetPerTime) (r : AbsoluteTimeRange) (id : ChunkId) : ChunkIdSetPerTime × Bool :=
  ({ s with
     perStartTime := s.perStartTime.erase (toLex (r.min, id))
     perEndTime := s.perEndTime.erase (toLex (r.max, id)) },
   occupied s.perStartTime r.min || occupied s.perEndTime r.max)

end ChunkIdSetPerTime

abbrev TimeIndex (K : Type) := Assoc K ChunkIdSetPerTime

/-- The two maps of an index entry. -/
inductive Edge where
  | start
  | stop
  deriving DecidableEq

def AbsoluteTimeRange.edge (r : AbsoluteTimeRange) : Edge → TimeInt
  | .start => r.min
  | .stop => r.max

/-- The map of an index entry an edge names. -/
def ChunkIdSetPerTime.edge (s : ChunkIdSetPerTime) : Edge → OrdSet TimeAndId
  | .start => s.perStartTime
  | .stop => s.perEndTime

namespace TimeIndex

variable {K : Type} [DecidableEq K]

/-- List an id under every given key and range. -/
def insertAll (index : TimeIndex K) (ranges : List (K × AbsoluteTimeRange)) (id : ChunkId) : TimeIndex K :=
  ranges.foldl (fun index e =>
    Assoc.upsert index e.1 ChunkIdSetPerTime.empty (·.insertRange e.2 id)) index

def removeOne (index : TimeIndex K) (key : K) (r : AbsoluteTimeRange) (id : ChunkId) : TimeIndex K × Bool :=
  match index.lookup key with
  | none => (index, false)
  | some s => (AList.insert key (s.removeRange r id).1 index, (s.removeRange r id).2)

/-- Unlist an id from every given key and range. -/
def removeAll (index : TimeIndex K) (ranges : List (K × AbsoluteTimeRange)) (id : ChunkId) : TimeIndex K × Bool :=
  ranges.foldl (fun acc e =>
    ((removeOne acc.1 e.1 e.2 id).1, acc.2 || (removeOne acc.1 e.1 e.2 id).2)) (index, false)

/-! ## Listings -/

def Listed (index : TimeIndex K) (key : K) (edge : Edge) (time : TimeInt) (id : ChunkId) : Prop :=
  ∃ s, index.lookup key = some s ∧ toLex (time, id) ∈ s.edge edge

instance (index : TimeIndex K) (key : K) (edge : Edge) (time : TimeInt) (id : ChunkId) :
    Decidable (Listed index key edge time id) :=
  decidable_of_iff ((index.lookup key).any fun s => decide (toLex (time, id) ∈ s.edge edge)) (by
    simp [Listed, Option.any_eq_true])

/-- The longest interval ever listed under a key. -/
def maxLength (index : TimeIndex K) (key : K) : Nat :=
  (index.lookup key).elim 0 (·.maxIntervalLength)

def OwnedBy (ranges : List (K × AbsoluteTimeRange)) (key : K) (edge : Edge) (time : TimeInt) : Prop :=
  ∃ r, (key, r) ∈ ranges ∧ time = r.edge edge

variable {id : ChunkId} {edge : Edge} {r : AbsoluteTimeRange}

theorem insertRange_edge {s : ChunkIdSetPerTime} {p : TimeAndId} :
    p ∈ (s.insertRange r id).edge edge ↔ p = toLex (r.edge edge, id) ∨ p ∈ s.edge edge := by
  cases edge <;> exact OrdSet.mem_insert

theorem removeRange_edge {s : ChunkIdSetPerTime} {p : TimeAndId} :
    p ∈ (s.removeRange r id).1.edge edge ↔ p ≠ toLex (r.edge edge, id) ∧ p ∈ s.edge edge := by
  cases edge <;> exact OrdSet.mem_erase

theorem not_mem_empty_edge {p : TimeAndId} : p ∉ ChunkIdSetPerTime.empty.edge edge := by
  cases edge <;> exact OrdSet.not_mem_empty p

variable {id' : ChunkId} {t t' : TimeInt}

theorem toLex_eq_iff : (toLex (t, id) : TimeAndId) = toLex (t', id') ↔ t = t' ∧ id = id' := by
  rw [toLex_inj, Prod.mk.injEq]

variable {index : TimeIndex K}

theorem upsert_listed {key key' : K} :
    Listed (Assoc.upsert index key ChunkIdSetPerTime.empty (·.insertRange r id)) key' edge t id' ↔
      (key' = key ∧ t = r.edge edge ∧ id' = id) ∨ Listed index key' edge t id' := by
  unfold Listed
  rw [lookup_upsert]
  by_cases hk : key' = key
  · subst hk
    simp only [if_true, Option.some.injEq, exists_eq_left', insertRange_edge, toLex_eq_iff, true_and]
    cases h : index.lookup key' with
    | none => simp [not_mem_empty_edge]
    | some s => simp
  · simp [hk]

variable {ranges : List (K × AbsoluteTimeRange)}

theorem insertAll_listed {key : K} :
    ∀ (index : TimeIndex K), Listed (insertAll index ranges id) key edge t id' ↔
      (OwnedBy ranges key edge t ∧ id' = id) ∨ Listed index key edge t id' := by
  induction ranges with
  | nil => simp [insertAll, OwnedBy]
  | cons e ranges ih =>
    intro index
    have := ih (Assoc.upsert index e.1 ChunkIdSetPerTime.empty (·.insertRange e.2 id))
    unfold insertAll at this ⊢
    rw [foldl_cons, this, upsert_listed]
    constructor
    · rintro (⟨⟨r, hr, ht⟩, hid⟩ | ⟨hk, ht, hid⟩ | h)
      · exact .inl ⟨⟨r, mem_cons_of_mem _ hr, ht⟩, hid⟩
      · exact .inl ⟨⟨e.2, by rw [hk]; exact mem_cons_self, ht⟩, hid⟩
      · exact .inr h
    · rintro (⟨⟨r, hr, ht⟩, hid⟩ | h)
      · rcases mem_cons.mp hr with he | hr
        · rw [← he]
          exact .inr (.inl ⟨rfl, ht, hid⟩)
        · exact .inl ⟨⟨r, hr, ht⟩, hid⟩
      · exact .inr (.inr h)

theorem removeOne_listed {key key' : K} :
    Listed (removeOne index key r id).1 key' edge t id' ↔
      ¬ (key' = key ∧ t = r.edge edge ∧ id' = id) ∧ Listed index key' edge t id' := by
  unfold removeOne
  cases hs : index.lookup key with
  | none =>
    simp only [iff_and_self]
    rintro ⟨s, hs', -⟩ ⟨rfl, -⟩
    simp [hs] at hs'
  | some s =>
    unfold Listed
    by_cases hk : key' = key
    · subst hk
      simp [removeRange_edge, hs]
    · simp [hk]

theorem removeAll_aux {key : K} : ∀ {acc : TimeIndex K × Bool},
    Listed (ranges.foldl (fun acc e =>
      ((removeOne acc.1 e.1 e.2 id).1, acc.2 || (removeOne acc.1 e.1 e.2 id).2)) acc).1 key edge t id' ↔
      ¬ (OwnedBy ranges key edge t ∧ id' = id) ∧ Listed acc.1 key edge t id' := by
  induction ranges with
  | nil => simp [OwnedBy]
  | cons e ranges ih =>
    intro acc
    rw [foldl_cons, ih, removeOne_listed]
    constructor
    · rintro ⟨h1, h2, h3⟩
      refine ⟨fun ⟨⟨r, hr, ht⟩, hid⟩ => ?_, h3⟩
      rcases mem_cons.mp hr with he | hr
      · rw [← he] at h2
        exact h2 ⟨rfl, ht, hid⟩
      · exact h1 ⟨⟨r, hr, ht⟩, hid⟩
    · rintro ⟨h1, h3⟩
      refine ⟨fun ⟨⟨r, hr, ht⟩, hid⟩ => h1 ⟨⟨r, mem_cons_of_mem _ hr, ht⟩, hid⟩, ?_, h3⟩
      rintro ⟨hk, ht, hid⟩
      exact h1 ⟨⟨e.2, by rw [hk]; exact mem_cons_self, ht⟩, hid⟩

theorem removeAll_listed {key : K} :
    Listed (removeAll index ranges id).1 key edge t id' ↔
      ¬ (OwnedBy ranges key edge t ∧ id' = id) ∧ Listed index key edge t id' :=
  removeAll_aux

/-! ## Interval lengths -/

theorem maxLength_upsert (index : TimeIndex K) (key key' : K) (r : AbsoluteTimeRange) (id : ChunkId) :
    maxLength (Assoc.upsert index key ChunkIdSetPerTime.empty (·.insertRange r id)) key' =
      if key' = key then max (maxLength index key') r.absLength else maxLength index key' := by
  unfold maxLength
  rw [lookup_upsert]
  by_cases hk : key' = key
  · subst hk
    cases h : index.lookup key' <;> simp [ChunkIdSetPerTime.insertRange, ChunkIdSetPerTime.empty]
  · simp [hk]

theorem le_maxLength_insertAll (key : K) :
    ∀ (index : TimeIndex K), maxLength index key ≤ maxLength (insertAll index ranges id) key ∧
      ∀ r, (key, r) ∈ ranges → r.absLength ≤ maxLength (insertAll index ranges id) key := by
  induction ranges with
  | nil => simp [insertAll]
  | cons e ranges ih =>
    intro index
    have h := ih (Assoc.upsert index e.1 ChunkIdSetPerTime.empty (·.insertRange e.2 id))
    unfold insertAll at h ⊢
    rw [foldl_cons]
    rw [maxLength_upsert] at h
    refine ⟨?_, fun r hr => ?_⟩
    · split at h <;> omega
    · rcases mem_cons.mp hr with he | hr
      · subst he
        rw [if_pos rfl] at h
        exact (le_max_right _ _).trans h.1
      · exact h.2 r hr

theorem maxLength_removeOne (index : TimeIndex K) (key key' : K) (r : AbsoluteTimeRange)
    (id : ChunkId) : maxLength (removeOne index key r id).1 key' = maxLength index key' := by
  unfold removeOne
  cases hs : index.lookup key with
  | none => rfl
  | some s =>
    unfold maxLength
    by_cases hk : key' = key
    · subst hk
      simp [hs, ChunkIdSetPerTime.removeRange]
    · simp [hk]

theorem maxLength_removeAll (ranges : List (K × AbsoluteTimeRange)) (id : ChunkId) (key : K) :
    ∀ (index : TimeIndex K), maxLength (removeAll index ranges id).1 key = maxLength index key := by
  intro index
  suffices h : ∀ acc : TimeIndex K × Bool, maxLength (ranges.foldl (fun acc e =>
      ((removeOne acc.1 e.1 e.2 id).1, acc.2 || (removeOne acc.1 e.1 e.2 id).2)) acc).1 key =
      maxLength acc.1 key from h (index, false)
  induction ranges with
  | nil => intro acc; rfl
  | cons e ranges ih =>
    intro acc
    rw [foldl_cons, ih, maxLength_removeOne]

end TimeIndex

/-! ## The ranges of a chunk -/

/-- What a chunk is listed under in the index per component. -/
def Chunk.componentRanges (c : Chunk) :
    List ((EntityPath × TimelineName × ComponentIdentifier) × AbsoluteTimeRange) :=
  (Assoc.toList c.timeRangePerComponent).flatMap fun (timeline, perComponent) =>
    (Assoc.toList perComponent).map fun (component, r) => ((c.entityPath, timeline, component), r)

/-- What a chunk is listed under in the index without components. -/
def Chunk.timelineRanges (c : Chunk) : List ((EntityPath × TimelineName) × AbsoluteTimeRange) :=
  (Assoc.toList c.timelines).map fun (timeline, tc) => ((c.entityPath, timeline), tc.timeRange)

theorem Chunk.mem_componentRanges {c : Chunk} {e : EntityPath} {timeline : TimelineName}
    {component : ComponentIdentifier} {r : AbsoluteTimeRange} :
    ((e, timeline, component), r) ∈ c.componentRanges ↔
      e = c.entityPath ∧ c.componentRange timeline component = some r := by
  rw [← Chunk.timeRangePerComponent_lookup]
  simp only [componentRanges, mem_flatMap, mem_map, Prod.exists, mem_toList, Prod.mk.injEq, Option.bind_eq_some_iff]
  constructor
  · rintro ⟨tl, per, htl, co, r', hr', ⟨rfl, rfl, rfl⟩, rfl⟩
    exact ⟨rfl, per, htl, hr'⟩
  · rintro ⟨rfl, per, htl, hr⟩
    exact ⟨timeline, per, htl, component, r, hr, ⟨rfl, rfl, rfl⟩, rfl⟩

theorem Chunk.mem_timelineRanges {c : Chunk} {e : EntityPath} {timeline : TimelineName}
    {r : AbsoluteTimeRange} :
    ((e, timeline), r) ∈ c.timelineRanges ↔
      e = c.entityPath ∧ ∃ tc, c.timelines.lookup timeline = some tc ∧ r = tc.timeRange := by
  simp only [timelineRanges, mem_map, Prod.exists, mem_toList, Prod.mk.injEq]
  constructor
  · rintro ⟨tl, tc, htc, ⟨rfl, rfl⟩, rfl⟩
    exact ⟨rfl, tc, htc, rfl⟩
  · rintro ⟨rfl, tc, htc, rfl⟩
    exact ⟨timeline, tc, htc, ⟨rfl, rfl⟩, rfl⟩

end Dalaran
