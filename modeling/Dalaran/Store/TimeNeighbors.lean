import Dalaran.Base.Best
import Dalaran.Store.DroppingEntities

/-
  The next and the previous time on a timeline.

  Both walk the entries of the timeline in the index, one entity after the other,
  and ask every chunk for its own closest time. Chunks that lie beyond the cursor
  come in the order of the ends that face it, so that the walk stops at one that is
  no closer than what has been found. It finds the closest of all times
  (`nextTimeOnTimeline_prevTimeOnTimeline`).

  Correspondence (Rust ↔ Lean):
    `opt_min`, `opt_max` ↔ `Best.pick (· ≤ ·)`, `Best.pick (· ≥ ·)`
-/

namespace Dalaran

open List Best ChunkIdSetPerTime

/-! ## The closest time of a column -/

namespace TimeColumn

def findNextTime (tc : TimeColumn) (after : TimeInt) : Option TimeInt :=
  if tc.isSorted then
    let idx := (tc.times.takeWhile fun t => decide (t ≤ after.asI64)).length
    (tc.times[idx]?).map TimeInt.newTemporal
  else ((tc.times.filter fun t => decide (after.asI64 < t)).min?).map TimeInt.newTemporal

def findPrevTime (tc : TimeColumn) (before : TimeInt) : Option TimeInt :=
  if tc.isSorted then
    let idx := (tc.times.takeWhile fun t => decide (t < before.asI64)).length
    if 0 < idx then (tc.times[idx - 1]?).map TimeInt.newTemporal else none
  else ((tc.times.filter fun t => decide (t < before.asI64)).max?).map TimeInt.newTemporal

variable {tc : TimeColumn}

theorem newTemporal_of_mem (hwf : tc.WellFormed) {t : I64} (ht : t ∈ tc.times) : TimeInt.newTemporal t = ⟨t⟩ :=
  TimeInt.newTemporal_of_ne (hwf.temporal t ht)

theorem finds_newTemporal (hwf : tc.WellFormed) {le : I64 → I64 → Prop} {le' : TimeInt → TimeInt → Prop}
    {p : I64 → Prop} {q : TimeInt → Prop} {found : Option I64} (hq : ∀ t, p t ↔ q ⟨t⟩)
    (hle : ∀ t u, le t u → le' ⟨t⟩ ⟨u⟩)
    (h : Best.Finds le (fun t => t ∈ tc.times ∧ p t) (fun t => t ∈ tc.times ∧ p t) found) :
    Best.Finds le' (fun u => u.asI64 ∈ tc.times ∧ q u) (fun u => u.asI64 ∈ tc.times ∧ q u)
      (found.map TimeInt.newTemporal) := by
  apply h.map
  · intro u hu
    exact ⟨u.asI64, ⟨hu.1, (hq u.asI64).mpr hu.2⟩, newTemporal_of_mem hwf hu.1⟩
  · intro t ht
    rw [newTemporal_of_mem hwf ht.1]
    exact ⟨ht.1, (hq t).mp ht.2⟩
  · intro t u ht hu htu
    rw [newTemporal_of_mem hwf ht.1, newTemporal_of_mem hwf hu.1]
    exact hle t u htu

theorem findNextTime_finds (hwf : tc.WellFormed) (after : TimeInt) :
    Best.Finds (· ≤ ·) (fun u => u.asI64 ∈ tc.times ∧ after < u) (fun u => u.asI64 ∈ tc.times ∧ after < u)
      (tc.findNextTime after) := by
  unfold findNextTime
  split
  · rename_i hsorted
    have hasc : tc.times.Pairwise (· ≤ ·) := by
      apply Seq.ascending_iff.mp
      rw [← hwf.isSorted_eq, hsorted]
    refine finds_newTemporal hwf (fun t => ?_) (fun t u htu => htu) (next_finds hasc fun t u htu hu => ?_)
    · rw [decide_eq_false_iff_not]
      exact not_le
    · exact decide_eq_true (htu.trans (of_decide_eq_true hu))
  · refine finds_newTemporal hwf (fun t => ?_) (fun t u htu => htu) (min?_finds tc.times _)
    rw [decide_eq_true_iff]
    exact Iff.rfl

theorem findPrevTime_finds (hwf : tc.WellFormed) (before : TimeInt) :
    Best.Finds (· ≥ ·) (fun u => u.asI64 ∈ tc.times ∧ u < before) (fun u => u.asI64 ∈ tc.times ∧ u < before)
      (tc.findPrevTime before) := by
  have hbefore : ∀ t : I64, decide (t < before.asI64) = true ↔ (⟨t⟩ : TimeInt) < before := by
    intro t
    rw [decide_eq_true_iff]
    exact Iff.rfl
  unfold findPrevTime
  split
  · rename_i hsorted
    have hasc : tc.times.Pairwise (· ≤ ·) := by
      apply Seq.ascending_iff.mp
      rw [← hwf.isSorted_eq, hsorted]
    have hfinds := @finds_newTemporal tc hwf (· ≥ ·) (· ≥ ·) _ (· < before) _ hbefore (fun t u htu => htu)
      (prev_finds hasc fun t u htu hu => decide_eq_true (htu.trans_lt (of_decide_eq_true hu)))
    rwa [apply_ite (Option.map TimeInt.newTemporal)] at hfinds
  · exact @finds_newTemporal tc hwf (· ≥ ·) (· ≥ ·) _ _ _ hbefore (fun t u htu => htu) (max?_finds tc.times _)

end TimeColumn

/-! ## The walks -/

namespace ChunkStore

variable {st : ChunkStore} {timeline : TimelineName}

def searchChunkByTime (st : ChunkStore) (timeline : TimelineName) (id : ChunkId)
    (search : TimeColumn → Option TimeInt) : Option TimeInt :=
  (st.physical id).bind fun c => (c.timelines.lookup timeline).bind search

/-- The keys of a start or end map, ascending. -/
def edgeTimes (s : OrdSet TimeAndId) : List TimeInt := (s.elems.map fun p => (ofLex p).1).dedup

/-- What the chunks under a key find. -/
def searchIdsAt (st : ChunkStore) (timeline : TimelineName) (search : TimeColumn → Option TimeInt)
    (s : OrdSet TimeAndId) (t : TimeInt) : List (Option TimeInt) :=
  (idsAt s t).map fun id => st.searchChunkByTime timeline id search

/-- The walk of one entity: the keys beyond the cursor up to one that is no closer, and all others. -/
def searchEntity (st : ChunkStore) (timeline : TimelineName) (le : TimeInt → TimeInt → Prop) [DecidableRel le]
    (search : TimeColumn → Option TimeInt) (s : OrdSet TimeAndId) (beyond others : List TimeInt)
    (result : Option TimeInt) : Option TimeInt :=
  let result := Best.scan le (st.searchIdsAt timeline search s) result beyond
  others.foldl (fun result t => Best.pickAll le result (st.searchIdsAt timeline search s t)) result

def entriesOn (st : ChunkStore) (timeline : TimelineName) : List ChunkIdSetPerTime :=
  ((Assoc.toList st.temporalChunkIdsPerEntity).filter fun e => decide (e.1.2 = timeline)).map (·.2)

def nextTimeOnTimeline (st : ChunkStore) (timeline : TimelineName) (after : TimeInt) : Option TimeInt :=
  (st.entriesOn timeline).foldl (fun result s =>
    let keys := edgeTimes s.perStartTime
    st.searchEntity timeline (· ≤ ·) (·.findNextTime after) s.perStartTime
      (keys.filter fun start => decide (after < start))
      (keys.filter fun start => decide (start ≤ after)).reverse result) none

def prevTimeOnTimeline (st : ChunkStore) (timeline : TimelineName) (before : TimeInt) : Option TimeInt :=
  (st.entriesOn timeline).foldl (fun result s =>
    let keys := edgeTimes s.perEndTime
    st.searchEntity timeline (· ≥ ·) (·.findPrevTime before) s.perEndTime
      (keys.filter fun stop => decide (stop < before)).reverse
      (keys.filter fun stop => decide (before ≤ stop)) result) none

/-! ## What the walks find -/

theorem mem_edgeTimes {s : OrdSet TimeAndId} {t : TimeInt} : t ∈ edgeTimes s ↔ ∃ id, toLex (t, id) ∈ s := by
  rw [edgeTimes, List.mem_dedup, mem_map]
  constructor
  · intro ⟨p, hp, ht⟩
    exact ⟨(ofLex p).2, ht ▸ hp⟩
  · intro ⟨id, hid⟩
    exact ⟨toLex (t, id), hid, rfl⟩

theorem edgeTimes_sorted (s : OrdSet TimeAndId) : (edgeTimes s).Pairwise (· ≤ ·) := by
  apply List.Pairwise.sublist (dedup_sublist _)
  apply pairwise_map.mpr
  apply s.sorted.imp
  intro p q hpq
  rcases Prod.Lex.lt_iff.mp hpq with h | h
  · exact h.le
  · exact h.1.le

theorem mem_searchIdsAt {search : TimeColumn → Option TimeInt} {s : OrdSet TimeAndId} {t x : TimeInt} :
    some x ∈ st.searchIdsAt timeline search s t ↔
      ∃ id c tc, toLex (t, id) ∈ s ∧ st.physical id = some c ∧ c.timelines.lookup timeline = some tc ∧
        search tc = some x := by
  rw [searchIdsAt, mem_map]
  constructor
  · intro ⟨id, hid, hfound⟩
    obtain ⟨c, hc, hfound⟩ := Option.bind_eq_some_iff.mp hfound
    obtain ⟨tc, htc, hfound⟩ := Option.bind_eq_some_iff.mp hfound
    exact ⟨id, c, tc, mem_idsAt.mp hid, hc, htc, hfound⟩
  · intro ⟨id, c, tc, hid, hc, htc, hfound⟩
    refine ⟨id, mem_idsAt.mpr hid, ?_⟩
    rw [searchChunkByTime, hc, Option.bind_some, htc, Option.bind_some, hfound]

def HasTime (st : ChunkStore) (timeline : TimelineName) (t : TimeInt) : Prop :=
  ∃ id c tc, st.physical id = some c ∧ c.timelines.lookup timeline = some tc ∧ t.asI64 ∈ tc.times

theorem mem_entriesOn {s : ChunkIdSetPerTime} : s ∈ st.entriesOn timeline ↔
    ∃ e, st.temporalChunkIdsPerEntity.lookup (e, timeline) = some s := by
  rw [entriesOn, mem_map]
  constructor
  · intro ⟨entry, hentry, hs⟩
    obtain ⟨hmem, htimeline⟩ := mem_filter.mp hentry
    obtain ⟨⟨e, t⟩, s'⟩ := entry
    obtain rfl : t = timeline := of_decide_eq_true htimeline
    obtain rfl : s' = s := hs
    exact ⟨e, Assoc.mem_toList.mp hmem⟩
  · intro ⟨e, he⟩
    refine ⟨((e, timeline), s), mem_filter.mpr ⟨Assoc.mem_toList.mpr he, decide_eq_true rfl⟩, rfl⟩

section Walk

variable {le : TimeInt → TimeInt → Prop} [DecidableRel le] [Std.Total le] [IsTrans TimeInt le]
  {search : TimeColumn → Option TimeInt}

theorem searchEntity_finds (st : ChunkStore) (timeline : TimelineName) (search : TimeColumn → Option TimeInt)
    (s : OrdSet TimeAndId) {beyond : List TimeInt} (others : List TimeInt) {P Q : TimeInt → Prop}
    {result : Option TimeInt} (hsorted : beyond.Pairwise le) (h : Best.Finds le P Q result) :
    Best.Finds le
      (fun x => P x ∨ ∃ key, some x ∈ st.searchIdsAt timeline search s key ∧
        (key ∈ beyond ∧ le key x ∨ key ∈ others))
      (fun x => Q x ∨ ∃ key, some x ∈ st.searchIdsAt timeline search s key)
      (st.searchEntity timeline le search s beyond others result) := by
  have hscan : Best.Finds le
      (fun x => P x ∨ ∃ key ∈ beyond, some x ∈ st.searchIdsAt timeline search s key ∧ le key x)
      (fun x => Q x ∨ ∃ key ∈ beyond, some x ∈ st.searchIdsAt timeline search s key)
      (Best.scan le (st.searchIdsAt timeline search s) result beyond) := scan_finds hsorted h
  have hall := foldl_finds (l := others) (R := fun t x => some x ∈ st.searchIdsAt timeline search s t)
    (fun t _ P Q r hr => pickAll_finds (st.searchIdsAt timeline search s t) hr) hscan
  apply hall.imp
  · intro x hx
    rcases hx with hx | ⟨key, hfound, ⟨hkey, hle⟩ | hkey⟩
    · exact .inl (.inl hx)
    · exact .inl (.inr ⟨key, hkey, hfound, hle⟩)
    · exact .inr ⟨key, hkey, hfound⟩
  · intro x hx
    rcases hx with (hx | ⟨key, -, hfound⟩) | ⟨key, -, hfound⟩
    · exact .inl hx
    · exact .inr ⟨key, hfound⟩
    · exact .inr ⟨key, hfound⟩

theorem walk_finds (hv : st.catalog.Sound) (hlists : st.catalog.ListsChunks) (edge : Edge)
    (beyond others : ChunkIdSetPerTime → List TimeInt) {R : TimeInt → Prop} (hsorted : ∀ s, (beyond s).Pairwise le)
    (hcover : ∀ s, ∀ key ∈ edgeTimes (s.edge edge), key ∈ beyond s ∨ key ∈ others s)
    (hsearch : ∀ tc : TimeColumn, tc.WellFormed →
      Best.Finds le (fun u => u.asI64 ∈ tc.times ∧ R u) (fun u => u.asI64 ∈ tc.times ∧ R u) (search tc))
    (hfacing : ∀ tc : TimeColumn, tc.WellFormed → ∀ u, u.asI64 ∈ tc.times → le (tc.timeRange.edge edge) u) :
    Best.Finds le (fun u => st.HasTime timeline u ∧ R u) (fun u => st.HasTime timeline u ∧ R u)
      ((st.entriesOn timeline).foldl (fun result s =>
        st.searchEntity timeline le search (s.edge edge) (beyond s) (others s) result) none) := by
  have hwf : ∀ {id c tc}, st.physical id = some c → c.timelines.lookup timeline = some tc → tc.WellFormed :=
    fun hc htc => (hv.chunk _ _ hc).wf.times_wf timeline _ htc
  have hnone : Best.Finds le (fun _ => False) (fun _ => False) none := fun _ h => h
  have hall := foldl_finds (l := st.entriesOn timeline)
    (fun s _ P Q r hr => searchEntity_finds st timeline search (s.edge edge) (others s) (hsorted s) hr) hnone
  apply hall.of_dominated
  · intro y ⟨⟨id, c, tc, hc, htc, hy⟩, hR⟩
    -- the chunk is listed at the end of its own that faces the cursor
    have hlisted : st.ListedAt id (.timeline c.entityPath timeline edge (tc.timeRange.edge edge)) :=
      hlists id c (.timeline _ _ _ _) hc ⟨rfl, tc, htc, rfl⟩
    obtain ⟨s, hs, hid⟩ := hlisted
    have hfound := hsearch tc (hwf hc htc)
    cases hx : search tc with
    | none =>
      rw [hx] at hfound
      exact absurd ⟨hy, hR⟩ (hfound y)
    | some x =>
      rw [hx] at hfound
      refine ⟨x, .inr ⟨s, mem_entriesOn.mpr ⟨_, hs⟩, tc.timeRange.edge edge, ?_, ?_⟩, hfound.2 y ⟨hy, hR⟩⟩
      · exact mem_searchIdsAt.mpr ⟨id, c, tc, hid, hc, htc, hx⟩
      · rcases hcover s _ (mem_edgeTimes.mpr ⟨id, hid⟩) with hkey | hkey
        · exact .inl ⟨hkey, hfacing tc (hwf hc htc) x hfound.1.1⟩
        · exact .inr hkey
  · intro x hx
    obtain ⟨s, -, key, hfound⟩ := hx.resolve_left id
    obtain ⟨id, c, tc, -, hc, htc, hx⟩ := mem_searchIdsAt.mp hfound
    have hspec := hsearch tc (hwf hc htc)
    rw [hx] at hspec
    exact ⟨⟨id, c, tc, hc, htc, hspec.1.1⟩, hspec.1.2⟩

end Walk

theorem nextTimeOnTimeline_finds (hst : Reachable (fun _ _ => True) st) (timeline : TimelineName) (after : TimeInt) :
    Best.Finds (· ≤ ·) (fun u => st.HasTime timeline u ∧ after < u) (fun u => st.HasTime timeline u ∧ after < u)
      (st.nextTimeOnTimeline timeline after) := by
  apply walk_finds hst.sound hst.listsChunks .start
    (fun s => (edgeTimes s.perStartTime).filter fun start => decide (after < start))
  · intro s
    exact (edgeTimes_sorted s.perStartTime).filter _
  · intro s key hkey
    rcases lt_or_ge after key with h | h
    · exact .inl (mem_filter.mpr ⟨hkey, decide_eq_true h⟩)
    · exact .inr (mem_reverse.mpr (mem_filter.mpr ⟨hkey, decide_eq_true h⟩))
  · intro tc hwf
    exact TimeColumn.findNextTime_finds hwf after
  · intro tc hwf u hu
    exact hwf.min_le u.asI64 hu

theorem prevTimeOnTimeline_finds (hst : Reachable (fun _ _ => True) st) (timeline : TimelineName) (before : TimeInt) :
    Best.Finds (· ≥ ·) (fun u => st.HasTime timeline u ∧ u < before) (fun u => st.HasTime timeline u ∧ u < before)
      (st.prevTimeOnTimeline timeline before) := by
  apply walk_finds hst.sound hst.listsChunks .stop
    (fun s => ((edgeTimes s.perEndTime).filter fun stop => decide (stop < before)).reverse)
  · intro s
    apply pairwise_reverse.mpr
    exact (edgeTimes_sorted s.perEndTime).filter _
  · intro s key hkey
    rcases lt_or_ge key before with h | h
    · exact .inl (mem_reverse.mpr (mem_filter.mpr ⟨hkey, decide_eq_true h⟩))
    · exact .inr (mem_filter.mpr ⟨hkey, decide_eq_true h⟩)
  · intro tc hwf
    exact TimeColumn.findPrevTime_finds hwf before
  · intro tc hwf u hu
    exact hwf.le_max u.asI64 hu

/-- The next time is the least one after the cursor and the previous one the greatest before it, of all rows
on the timeline in physical chunks, and there is none only if there is no such row. -/
theorem nextTimeOnTimeline_prevTimeOnTimeline (hst : Reachable (fun _ _ => True) st) (timeline : TimelineName)
    (t : TimeInt) :
    ((∀ u, st.nextTimeOnTimeline timeline t = some u ↔ IsLeast {u | st.HasTime timeline u ∧ t < u} u) ∧
      (st.nextTimeOnTimeline timeline t = none ↔ ∀ u, ¬(st.HasTime timeline u ∧ t < u))) ∧
    (∀ u, st.prevTimeOnTimeline timeline t = some u ↔ IsGreatest {u | st.HasTime timeline u ∧ u < t} u) ∧
      (st.prevTimeOnTimeline timeline t = none ↔ ∀ u, ¬(st.HasTime timeline u ∧ u < t)) := by
  have hnext := nextTimeOnTimeline_finds hst timeline t
  have hprev := prevTimeOnTimeline_finds hst timeline t
  refine ⟨⟨fun u => ?_, hnext.eq_none_iff⟩, fun u => ?_, hprev.eq_none_iff⟩
  · exact hnext.eq_some_iff fun x y hxy hyx => le_antisymm hxy hyx
  · exact hprev.eq_some_iff fun x y hxy hyx => le_antisymm hyx hxy

/-- Seen from time 10, the neighbours are in the chunk that is out of order and in one before it. -/
theorem nextTimeOnTimeline_prevTimeOnTimeline_scattered :
    (((∀ u, scatteredStore.nextTimeOnTimeline ⟨"frame"⟩ ⟨.sat 10⟩ = some u ↔
          IsLeast {u | scatteredStore.HasTime ⟨"frame"⟩ u ∧ ⟨.sat 10⟩ < u} u) ∧
        (scatteredStore.nextTimeOnTimeline ⟨"frame"⟩ ⟨.sat 10⟩ = none ↔
          ∀ u, ¬(scatteredStore.HasTime ⟨"frame"⟩ u ∧ ⟨.sat 10⟩ < u))) ∧
      (∀ u, scatteredStore.prevTimeOnTimeline ⟨"frame"⟩ ⟨.sat 10⟩ = some u ↔
          IsGreatest {u | scatteredStore.HasTime ⟨"frame"⟩ u ∧ u < ⟨.sat 10⟩} u) ∧
        (scatteredStore.prevTimeOnTimeline ⟨"frame"⟩ ⟨.sat 10⟩ = none ↔
          ∀ u, ¬(scatteredStore.HasTime ⟨"frame"⟩ u ∧ u < ⟨.sat 10⟩))) ∧
    scatteredStore.nextTimeOnTimeline ⟨"frame"⟩ ⟨.sat 10⟩ = some ⟨.sat 14⟩ ∧
    scatteredStore.prevTimeOnTimeline ⟨"frame"⟩ ⟨.sat 10⟩ = some ⟨.sat 8⟩ :=
  ⟨nextTimeOnTimeline_prevTimeOnTimeline scatteredStore_reachable ⟨"frame"⟩ ⟨.sat 10⟩, by decide, by decide⟩

end ChunkStore

end Dalaran
