import Mathlib.Data.Finset.Basic
import Dalaran.Base.Tally
import Dalaran.Manifest.TimeRangeMerger

/-
  Which merged ranges are loaded (`MergedRanges` in `time_range_merger.rs`).

  The merged ranges are kept as their ends and a count each; the chunks they
  depend on only as one span of indices for each chunk. `Counts` says what the
  counts stand for in terms of these spans, and every update keeps it.

  Correspondence (Rust ↔ Lean):
    `ResolvedRange`, `MergedRanges`, `RangeInclusive<usize>` ↔ `ResolvedRange`, `MergedRanges`,
      `IndexSpan`
    the loop of `loaded_ranges` ↔ `LoadedScan`
  An entity path stands for its hash.
-/

namespace Dalaran

open List Option

structure ComponentPathKey where
  entityPath : EntityPath
  component : ComponentIdentifier
  deriving DecidableEq

/-- An end, and how many chunks are not loaded; no count when no chunk is of interest. -/
structure ResolvedRange where
  endTime : TimeInt
  unloadedCount : Option Nat
  deriving DecidableEq

structure IndexSpan where
  start : Nat
  last : Nat
  deriving DecidableEq

def IndexSpan.contains (s : IndexSpan) (i : Nat) : Bool := decide (s.start ≤ i) && decide (i ≤ s.last)

structure MergedRanges where
  startTime : TimeInt
  ranges : List ResolvedRange
  rangesFromChunk : Assoc ChunkId IndexSpan
  componentsOfInterest : Finset ComponentPathKey

namespace MergedRanges

def isChunkInteresting (m : MergedRanges) (paths : Assoc ChunkId (List ComponentPathKey))
    (chunk : ChunkId) : Bool :=
  match paths.lookup chunk with
  | some paths => paths.any fun p => decide (p ∈ m.componentsOfInterest)
  | none => false

def mapSpan (f : Option Nat → Option Nat) (span : IndexSpan) (ranges : List ResolvedRange) : List ResolvedRange :=
  ranges.mapIdx fun i r => if span.contains i then { r with unloadedCount := f r.unloadedCount } else r

def count (isUnloaded : Bool) (c : Option Nat) : Option Nat :=
  some (c.getD 0 + if isUnloaded then 1 else 0)

def updateComponentsOfInterest (m : MergedRanges) (componentsOfInterest : Finset ComponentPathKey)
    (paths : Assoc ChunkId (List ComponentPathKey)) (isUnloaded : ChunkId → Bool) : MergedRanges :=
  if m.componentsOfInterest = componentsOfInterest then m
  else
    let m : MergedRanges :=
      { m with
        componentsOfInterest := componentsOfInterest
        ranges := m.ranges.map fun r => { r with unloadedCount := none } }
    { m with
      ranges := (Assoc.toList m.rangesFromChunk).foldl (fun ranges e =>
        if m.isChunkInteresting paths e.1 then mapSpan (count (isUnloaded e.1)) e.2 ranges
        else ranges) m.ranges }

/-- The range at an index depends on a chunk. -/
def extendSpan (idx : Nat) (spans : Assoc ChunkId IndexSpan) (chunk : ChunkId) : Assoc ChunkId IndexSpan :=
  match spans.lookup chunk with
  | some span => spans.insert chunk { span with last := idx }
  | none => spans.insert chunk ⟨idx, idx⟩

def spansOf (ranges : List TimeRange) : Assoc ChunkId IndexSpan :=
  ranges.zipIdx.foldl (fun spans e => e.1.dependsOn.elems.foldl (extendSpan e.2) spans) ∅

def new (ranges : List TimeRange) (componentsOfInterest : Finset ComponentPathKey)
    (paths : Assoc ChunkId (List ComponentPathKey)) (isUnloaded : ChunkId → Bool) : MergedRanges :=
  let m : MergedRanges :=
    { startTime := ranges.foldl (fun t r => min t r.range.min) TimeInt.MAX
      ranges := ranges.map fun r => ⟨r.range.max, none⟩
      rangesFromChunk := spansOf ranges
      componentsOfInterest := ∅ }
  m.updateComponentsOfInterest componentsOfInterest paths isUnloaded

/-- Change the counts of the ranges of a chunk of interest. -/
def onChunk (m : MergedRanges) (f : Nat → Nat) (chunk : ChunkId)
    (paths : Assoc ChunkId (List ComponentPathKey)) : MergedRanges :=
  if m.isChunkInteresting paths chunk then
    match m.rangesFromChunk.lookup chunk with
    | some span => { m with ranges := mapSpan (Option.map f) span m.ranges }
    | none => m
  else m

def onChunkLoaded (m : MergedRanges) : ChunkId → Assoc ChunkId (List ComponentPathKey) → MergedRanges :=
  m.onChunk fun n => n - 1

def onChunkUnloaded (m : MergedRanges) : ChunkId → Assoc ChunkId (List ComponentPathKey) → MergedRanges :=
  m.onChunk fun n => n + 1

end MergedRanges

/-- What the loop over the ranges has so far. -/
structure LoadedScan where
  loadedRanges : List AbsoluteTimeRange
  inProgress : Option AbsoluteTimeRange
  lastEnd : TimeInt

def LoadedScan.next (s : LoadedScan) (range : ResolvedRange) : LoadedScan :=
  match range.unloadedCount, s.inProgress with
  | none, some p => { s with inProgress := some { p with max := range.endTime }, lastEnd := range.endTime }
  | none, none => s
  | some 0, some p => { s with inProgress := some { p with max := range.endTime }, lastEnd := range.endTime }
  | some 0, none =>
    { s with
      inProgress := some (AbsoluteTimeRange.new s.lastEnd range.endTime)
      lastEnd := range.endTime }
  | some (_ + 1), p =>
    { loadedRanges := s.loadedRanges ++ p.toList, inProgress := none, lastEnd := range.endTime }

def MergedRanges.loadedRanges (m : MergedRanges) : List AbsoluteTimeRange :=
  let s := m.ranges.foldl LoadedScan.next ⟨[], none, m.startTime⟩
  s.loadedRanges ++ s.inProgress.toList

/-! ## Spans -/

def DependsAt (ranges : List TimeRange) (chunk : ChunkId) (i : Nat) : Prop :=
  ∃ r, ranges[i]? = some r ∧ chunk ∈ r.dependsOn

variable {chunk : ChunkId} {ranges : List TimeRange}

theorem dependsAt_concat {r : TimeRange} {i : Nat} :
    DependsAt (ranges ++ [r]) chunk i ↔ DependsAt ranges chunk i ∨ (i = ranges.length ∧ chunk ∈ r.dependsOn) := by
  unfold DependsAt
  rcases lt_trichotomy i ranges.length with h | h | h
  · rw [List.getElem?_append_left h]
    exact (or_iff_left fun hi => absurd hi.1 h.ne).symm
  · subst h
    simp
  · rw [List.getElem?_eq_none (by simp; omega), List.getElem?_eq_none (by omega)]
    simp only [reduceCtorEq, false_and, exists_false, false_or, false_iff, not_and]
    exact fun hi => absurd hi h.ne'

theorem DependsAt.lt {i : Nat} (h : DependsAt ranges chunk i) : i < ranges.length := by
  obtain ⟨r, hr, -⟩ := h
  exact (List.getElem?_eq_some_iff.mp hr).1

namespace MergedRanges

theorem lookup_extendSpan (idx : Nat) (spans : Assoc ChunkId IndexSpan) (a c : ChunkId) :
    (extendSpan idx spans a).lookup c =
      if c = a then some ⟨((spans.lookup a).map IndexSpan.start).getD idx, idx⟩ else spans.lookup c := by
  unfold extendSpan
  cases h : spans.lookup a with
  | none | some span => simp only [Assoc.lookup_insert_ite]; rfl

theorem lookup_foldl_extendSpan {idx : Nat} (l : List ChunkId) (spans : Assoc ChunkId IndexSpan)
    (c : ChunkId) :
    (l.foldl (extendSpan idx) spans).lookup c =
      if c ∈ l then some ⟨((spans.lookup c).map IndexSpan.start).getD idx, idx⟩ else spans.lookup c := by
  induction l generalizing spans with
  | nil => simp
  | cons a l ih =>
    rw [foldl_cons, ih, lookup_extendSpan]
    by_cases hca : c = a
    · subst hca
      simp
    · simp [hca]

structure IsSpan (ranges : List TimeRange) (chunk : ChunkId) (span : IndexSpan) : Prop where
  start : DependsAt ranges chunk span.start
  last : DependsAt ranges chunk span.last
  bounds : ∀ i, DependsAt ranges chunk i → span.start ≤ i ∧ i ≤ span.last

theorem spansOf_spec (ranges : List TimeRange) (chunk : ChunkId) :
    (∀ span, (spansOf ranges).lookup chunk = some span → IsSpan ranges chunk span) ∧
      ((spansOf ranges).lookup chunk = none → ∀ i, ¬ DependsAt ranges chunk i) := by
  induction ranges using reverseRecOn with
  | nil =>
    refine ⟨?_, ?_⟩
    · intro span h
      simp [spansOf] at h
    · intro _ i h
      exact absurd h.lt (Nat.not_lt_zero _)
  | append_singleton ranges r ih =>
    obtain ⟨hsome, hnone⟩ := ih
    have hstep : (spansOf (ranges ++ [r])).lookup chunk =
        if chunk ∈ r.dependsOn.elems then
          some ⟨(((spansOf ranges).lookup chunk).map IndexSpan.start).getD ranges.length, ranges.length⟩
        else (spansOf ranges).lookup chunk := by
      unfold spansOf
      rw [zipIdx_append, foldl_append]
      simp only [zipIdx_singleton, foldl_cons, foldl_nil, Nat.zero_add]
      exact lookup_foldl_extendSpan ..
    rw [hstep]
    split
    · rename_i hmem
      refine ⟨?_, by simp⟩
      intro span hspan
      have hlast : DependsAt (ranges ++ [r]) chunk ranges.length :=
        dependsAt_concat.mpr (.inr ⟨rfl, hmem⟩)
      cases hl : (spansOf ranges).lookup chunk with
      | none =>
        rw [hl] at hspan
        cases hspan
        refine ⟨hlast, hlast, ?_⟩
        intro i hi
        rcases dependsAt_concat.mp hi with hi | hi
        · exact absurd hi (hnone hl i)
        · exact ⟨hi.1.ge, hi.1.le⟩
      | some old =>
        rw [hl] at hspan
        cases hspan
        have hold := hsome old hl
        refine ⟨dependsAt_concat.mpr (.inl hold.start), hlast, ?_⟩
        intro i hi
        rcases dependsAt_concat.mp hi with hi | hi
        · exact ⟨(hold.bounds i hi).1, hi.lt.le⟩
        · exact ⟨hi.1 ▸ hold.start.lt.le, hi.1.le⟩
    · rename_i hmem
      have hiff : ∀ i, DependsAt (ranges ++ [r]) chunk i ↔ DependsAt ranges chunk i := fun i =>
        dependsAt_concat.trans (or_iff_left fun h => hmem h.2)
      refine ⟨?_, ?_⟩
      · intro span hspan
        obtain ⟨h₁, h₂, h₃⟩ := hsome span hspan
        exact ⟨(hiff _).mpr h₁, (hiff _).mpr h₂, fun i hi => h₃ i ((hiff i).mp hi)⟩
      · intro hl i hi
        exact hnone hl i ((hiff i).mp hi)

def Contiguous (ranges : List TimeRange) (chunk : ChunkId) : Prop :=
  ∀ i j k, i ≤ j → j ≤ k → DependsAt ranges chunk i → DependsAt ranges chunk k → DependsAt ranges chunk j

theorem IsSpan.contains_iff {span : IndexSpan} (h : IsSpan ranges chunk span) (hc : Contiguous ranges chunk)
    (i : Nat) :
    span.contains i = true ↔ DependsAt ranges chunk i := by
  simp only [IndexSpan.contains, Bool.and_eq_true, decide_eq_true_eq]
  exact ⟨fun hi => hc _ _ _ hi.1 hi.2 h.start h.last, fun hi => h.bounds i hi⟩

/-! ## Counts -/

section Counts

variable {m : MergedRanges} {paths : Assoc ChunkId (List ComponentPathKey)}

/-- The chunks of interest whose span has an index. -/
def chunksAt (m : MergedRanges) (paths : Assoc ChunkId (List ComponentPathKey)) (i : Nat) : List ChunkId :=
  ((Assoc.toList m.rangesFromChunk).filter fun e =>
    m.isChunkInteresting paths e.1 && e.2.contains i).map Prod.fst

theorem mem_chunksAt {i : Nat} :
    chunk ∈ m.chunksAt paths i ↔ m.isChunkInteresting paths chunk = true ∧
      ∃ span, m.rangesFromChunk.lookup chunk = some span ∧ span.contains i = true := by
  unfold chunksAt
  simp only [List.mem_map, mem_filter, Prod.exists, Assoc.mem_toList, Bool.and_eq_true]
  refine ⟨?_, ?_⟩
  · rintro ⟨c, span, ⟨hl, hc, hi⟩, rfl⟩
    exact ⟨hc, span, hl, hi⟩
  · rintro ⟨hc, span, hl, hi⟩
    exact ⟨chunk, span, ⟨hl, hc, hi⟩, rfl⟩

theorem keys_toList_nodup {V : Type} (s : Assoc ChunkId V) : ((Assoc.toList s).map Prod.fst).Nodup := by
  have h : (Assoc.toList s).map Prod.fst = s.keys := by
    unfold Assoc.toList
    rw [List.map_map]
    rfl
  exact h ▸ s.keys_nodup

theorem chunksAt_nodup (i : Nat) : (m.chunksAt paths i).Nodup :=
  (keys_toList_nodup m.rangesFromChunk).sublist (filter_sublist.map _)

/-- Every count is the number of chunks of interest in whose span it is and that are not loaded. -/
def Counts (m : MergedRanges) (paths : Assoc ChunkId (List ComponentPathKey))
    (isUnloaded : ChunkId → Bool) : Prop :=
  ∀ i r, m.ranges[i]? = some r → r.unloadedCount = tally isUnloaded (m.chunksAt paths i)

theorem getElem?_mapSpan {f : Option Nat → Option Nat} {span : IndexSpan} {ranges : List ResolvedRange}
    {i : Nat} : (mapSpan f span ranges)[i]? = (ranges[i]?).map fun r =>
      if span.contains i then { r with unloadedCount := f r.unloadedCount } else r :=
  List.getElem?_mapIdx

theorem endTimes_mapSpan (f : Option Nat → Option Nat) (span : IndexSpan) (ranges : List ResolvedRange) :
    (mapSpan f span ranges).map (·.endTime) = ranges.map (·.endTime) := by
  apply ext_getElem?
  intro i
  rw [List.getElem?_map, getElem?_mapSpan, List.getElem?_map, Option.map_map]
  refine congrArg (Option.map · ranges[i]?) (funext fun r => ?_)
  split <;> rfl

variable {interesting isUnloaded : ChunkId → Bool}

theorem foldl_count (l : List (ChunkId × IndexSpan)) {ranges : List ResolvedRange}
    (hnone : ∀ r ∈ ranges, r.unloadedCount = none) (i : Nat) :
    ((l.foldl (fun ranges e =>
        if interesting e.1 then mapSpan (count (isUnloaded e.1)) e.2 ranges else ranges) ranges)[i]?) =
      (ranges[i]?).map fun r => ⟨r.endTime, tally isUnloaded
        ((l.filter fun e => interesting e.1 && e.2.contains i).map Prod.fst)⟩ := by
  induction l using reverseRecOn with
  | nil =>
    cases hr : ranges[i]? with
    | none => simp [hr]
    | some r =>
      have hcount := hnone r (mem_of_getElem? hr)
      cases r with
      | mk endTime unloadedCount =>
        subst hcount
        simp [hr]
  | append_singleton l e ih =>
    rw [foldl_append, foldl_cons, foldl_nil, filter_append, map_append]
    cases hinteresting : interesting e.1 with
    | false =>
      simp only [Bool.false_eq_true, if_false]
      rw [ih]
      simp [hinteresting]
    | true =>
      simp only [if_true]
      rw [getElem?_mapSpan, ih, Option.map_map]
      refine congrArg (Option.map · ranges[i]?) (funext fun r => ?_)
      cases hcontains : e.2.contains i with
      | false => simp [hinteresting, hcontains]
      | true =>
        simp [count, hinteresting, hcontains, tally_concat]

theorem updateComponentsOfInterest_counts {componentsOfInterest : Finset ComponentPathKey}
    (h : m.componentsOfInterest = componentsOfInterest → m.Counts paths isUnloaded) :
    (m.updateComponentsOfInterest componentsOfInterest paths isUnloaded).Counts paths isUnloaded := by
  unfold updateComponentsOfInterest
  split
  · rename_i heq
    exact h heq
  · intro i r hr
    rw [foldl_count _ (by simp)] at hr
    obtain ⟨r', -, rfl⟩ := map_eq_some_iff.mp hr
    rfl

theorem updateComponentsOfInterest_frame (m : MergedRanges)
    (componentsOfInterest : Finset ComponentPathKey) (paths : Assoc ChunkId (List ComponentPathKey))
    (isUnloaded : ChunkId → Bool) :
    let m' := m.updateComponentsOfInterest componentsOfInterest paths isUnloaded
    m'.startTime = m.startTime ∧ m'.rangesFromChunk = m.rangesFromChunk ∧
      m'.ranges.map (·.endTime) = m.ranges.map (·.endTime) ∧
      m'.componentsOfInterest = componentsOfInterest := by
  simp only [updateComponentsOfInterest]
  split
  · rename_i heq
    exact ⟨rfl, rfl, rfl, heq⟩
  · refine ⟨rfl, rfl, ?_, rfl⟩
    have hnone : ∀ r ∈ m.ranges.map fun r : ResolvedRange => { r with unloadedCount := none },
        r.unloadedCount = none := by simp
    apply ext_getElem?
    intro i
    rw [List.getElem?_map, foldl_count _ hnone, List.getElem?_map, List.getElem?_map]
    cases m.ranges[i]? <;> rfl

theorem new_counts (ranges : List TimeRange) (componentsOfInterest : Finset ComponentPathKey)
    (paths : Assoc ChunkId (List ComponentPathKey)) (isUnloaded : ChunkId → Bool) :
    (new ranges componentsOfInterest paths isUnloaded).Counts paths isUnloaded := by
  apply updateComponentsOfInterest_counts
  rintro -
  intro i r hr
  -- Nothing is of interest yet.
  have hempty : MergedRanges.chunksAt
      { startTime := ranges.foldl (fun t r => min t r.range.min) TimeInt.MAX
        ranges := ranges.map fun r => ⟨r.range.max, none⟩
        rangesFromChunk := spansOf ranges
        componentsOfInterest := ∅ } paths i = [] := by
    apply eq_nil_iff_forall_not_mem.mpr
    intro c hc
    have hinteresting := (mem_chunksAt.mp hc).1
    unfold isChunkInteresting at hinteresting
    split at hinteresting
    · simp at hinteresting
    · exact absurd hinteresting Bool.false_ne_true
  rw [hempty]
  simp only [List.getElem?_map, map_eq_some_iff] at hr
  obtain ⟨r', -, rfl⟩ := hr
  rfl

theorem onChunk_frame (m : MergedRanges) (f : Nat → Nat) (chunk : ChunkId)
    (paths : Assoc ChunkId (List ComponentPathKey)) :
    (m.onChunk f chunk paths).startTime = m.startTime ∧
      (m.onChunk f chunk paths).rangesFromChunk = m.rangesFromChunk ∧
      (m.onChunk f chunk paths).ranges.map (·.endTime) = m.ranges.map (·.endTime) ∧
      (m.onChunk f chunk paths).componentsOfInterest = m.componentsOfInterest := by
  unfold onChunk
  split
  · split
    · exact ⟨rfl, rfl, endTimes_mapSpan .., rfl⟩
    · exact ⟨rfl, rfl, rfl, rfl⟩
  · exact ⟨rfl, rfl, rfl, rfl⟩

theorem onChunk_chunksAt (m : MergedRanges) (f : Nat → Nat) (chunk : ChunkId)
    (paths : Assoc ChunkId (List ComponentPathKey)) (i : Nat) :
    (m.onChunk f chunk paths).chunksAt paths i = m.chunksAt paths i := by
  obtain ⟨-, hspans, -, hinterest⟩ := m.onChunk_frame f chunk paths
  unfold chunksAt isChunkInteresting
  rw [hspans, hinterest]

variable {isUnloaded' : ChunkId → Bool}

theorem onChunk_counts {f : Nat → Nat} (h : m.Counts paths isUnloaded) (hin : ∀ i, chunk ∈ m.chunksAt paths i →
      tally isUnloaded' (m.chunksAt paths i) = (tally isUnloaded (m.chunksAt paths i)).map f)
    (hother : ∀ b, b ≠ chunk → isUnloaded b = isUnloaded' b) :
    (m.onChunk f chunk paths).Counts paths isUnloaded' := by
  intro i r hr
  rw [onChunk_chunksAt]
  have hout : chunk ∉ m.chunksAt paths i →
      tally isUnloaded' (m.chunksAt paths i) = tally isUnloaded (m.chunksAt paths i) := fun hc =>
    tally_congr fun b hb => (hother b fun hbc => hc (hbc ▸ hb)).symm
  unfold onChunk at hr
  split at hr
  · rename_i hinteresting
    split at hr
    · rename_i span hspan
      simp only [getElem?_mapSpan] at hr
      obtain ⟨r', hr', rfl⟩ := map_eq_some_iff.mp hr
      split
      · rename_i hcontains
        rw [hin i (mem_chunksAt.mpr ⟨hinteresting, span, hspan, hcontains⟩), ← h i r' hr']
      · rename_i hcontains
        rw [hout, ← h i r' hr']
        intro hc
        obtain ⟨-, span', hspan', hi⟩ := mem_chunksAt.mp hc
        rw [hspan] at hspan'
        exact hcontains (some.inj hspan' ▸ hi)
    · rename_i hspan
      rw [hout, ← h i r hr]
      intro hc
      obtain ⟨-, span', hspan', -⟩ := mem_chunksAt.mp hc
      rw [hspan] at hspan'
      cases hspan'
  · rename_i hinteresting
    rw [hout, ← h i r hr]
    exact fun hc => hinteresting (mem_chunksAt.mp hc).1

theorem onChunkLoaded_counts (h : m.Counts paths isUnloaded) (hbefore : isUnloaded chunk = true)
    (hafter : isUnloaded' chunk = false) (hother : ∀ b, b ≠ chunk → isUnloaded b = isUnloaded' b) :
    (m.onChunkLoaded chunk paths).Counts paths isUnloaded' :=
  onChunk_counts h
    (fun i hi => tally_unmark (chunksAt_nodup i) hi hbefore hafter fun b _ => hother b) hother

theorem onChunkUnloaded_counts (h : m.Counts paths isUnloaded) (hbefore : isUnloaded chunk = false)
    (hafter : isUnloaded' chunk = true) (hother : ∀ b, b ≠ chunk → isUnloaded b = isUnloaded' b) :
    (m.onChunkUnloaded chunk paths).Counts paths isUnloaded' :=
  onChunk_counts h
    (fun i hi => tally_mark (chunksAt_nodup i) hi hbefore hafter fun b _ => hother b) hother

end Counts

theorem chunksAt_perm {m : MergedRanges} {paths : Assoc ChunkId (List ComponentPathKey)}
    (hspans : m.rangesFromChunk = spansOf ranges)
    (hcontiguous : ∀ chunk, m.isChunkInteresting paths chunk = true → Contiguous ranges chunk) {i : Nat}
    {r : TimeRange} (hr : ranges[i]? = some r) :
    (m.chunksAt paths i).Perm (r.dependsOn.elems.filter (m.isChunkInteresting paths)) := by
  refine (perm_ext_iff_of_nodup (chunksAt_nodup i) (r.dependsOn.nodup.filter _)).mpr ?_
  intro chunk
  rw [mem_chunksAt, mem_filter, and_comm, hspans]
  refine and_congr_left fun hinteresting => ?_
  have hdepends : DependsAt ranges chunk i ↔ chunk ∈ r.dependsOn.elems := by
    refine ⟨?_, fun h => ⟨r, hr, h⟩⟩
    rintro ⟨r', hr', h⟩
    rw [hr] at hr'
    exact some.inj hr' ▸ h
  rw [← hdepends]
  refine ⟨?_, ?_⟩
  · rintro ⟨span, hspan, hi⟩
    have hspec := (spansOf_spec ranges chunk).1 span hspan
    exact (hspec.contains_iff (hcontiguous chunk hinteresting) i).mp hi
  · intro h
    cases hl : (spansOf ranges).lookup chunk with
    | none => exact absurd h ((spansOf_spec ranges chunk).2 hl i)
    | some span =>
      have hspec := (spansOf_spec ranges chunk).1 span hl
      exact ⟨span, rfl, (hspec.contains_iff (hcontiguous chunk hinteresting) i).mpr h⟩

end MergedRanges

/-! ## The loaded ranges -/

def ResolvedRange.missing (start : TimeInt) (r : ResolvedRange) : List AbsoluteTimeRange :=
  match r.unloadedCount with
  | some (_ + 1) => [⟨start, r.endTime⟩]
  | _ => []

/-- The ranges with a missing chunk of interest, the first of them starting at a time. -/
def missingFrom (start : TimeInt) : List ResolvedRange → List AbsoluteTimeRange
  | [] => []
  | r :: l => r.missing start ++ missingFrom r.endTime l

/-- The ranges so far are in order, and apart from the missing ones, which all end before a time. -/
structure LoadedScan.Sound (s : LoadedScan) (time : TimeInt) (missing : List AbsoluteTimeRange) : Prop where
  lastEnd : TimeInt.MIN ≤ s.lastEnd ∧ s.lastEnd ≤ time
  sorted : s.loadedRanges.Pairwise fun a b => a.max ≤ b.min
  ended : ∀ o ∈ s.loadedRanges, o.max ≤ s.lastEnd
  inProgress : ∀ p ∈ s.inProgress, p.max = time ∧ ∀ o ∈ s.loadedRanges, o.max ≤ p.min
  apart : ∀ x ∈ missing, ∀ o ∈ s.loadedRanges, o.max ≤ x.min ∨ x.max ≤ o.min
  behind : ∀ x ∈ missing, x.max ≤ s.lastEnd ∧ ∀ p ∈ s.inProgress, x.max ≤ p.min

namespace LoadedScan.Sound

variable {s : LoadedScan} {time : TimeInt} {missing : List AbsoluteTimeRange}

theorem grow {p : AbsoluteTimeRange} (h : s.Sound time missing) (hp : s.inProgress = some p)
    {endTime : TimeInt} (hend : time ≤ endTime) :
    LoadedScan.Sound { s with inProgress := some { p with max := endTime }, lastEnd := endTime }
      endTime missing := by
  have hle : s.lastEnd ≤ endTime := h.lastEnd.2.trans hend
  refine ⟨⟨h.lastEnd.1.trans hle, le_refl _⟩, h.sorted, fun o ho => (h.ended o ho).trans hle, ?_, h.apart, ?_⟩
  · intro q hq
    cases hq
    exact ⟨rfl, (h.inProgress p hp).2⟩
  · intro x hx
    refine ⟨(h.behind x hx).1.trans hle, ?_⟩
    intro q hq
    cases hq
    exact (h.behind x hx).2 p hp

theorem next {r : ResolvedRange} (h : s.Sound time missing) (hend : time ≤ r.endTime) :
    (s.next r).Sound r.endTime (missing ++ r.missing time) := by
  have hle : s.lastEnd ≤ r.endTime := h.lastEnd.2.trans hend
  unfold LoadedScan.next ResolvedRange.missing
  rcases hcount : r.unloadedCount with _ | _ | n
  · simp only [append_nil]
    cases hp : s.inProgress with
    | some p => exact h.grow hp hend
    | none =>
      refine ⟨⟨h.lastEnd.1, hle⟩, h.sorted, h.ended, ?_, h.apart, h.behind⟩
      · intro q hq
        rw [hp] at hq
        cases hq
  · simp only [append_nil]
    cases hp : s.inProgress with
    | some p => exact h.grow hp hend
    | none =>
      have hnew : AbsoluteTimeRange.new s.lastEnd r.endTime = ⟨s.lastEnd, r.endTime⟩ := by
        rw [AbsoluteTimeRange.new, TimeInt.saturatedTemporal_of_le h.lastEnd.1,
          TimeInt.saturatedTemporal_of_le (h.lastEnd.1.trans hle)]
      simp only [hnew]
      refine ⟨⟨h.lastEnd.1.trans hle, le_refl _⟩, h.sorted, fun o ho => (h.ended o ho).trans hle, ?_, h.apart, ?_⟩
      · intro q hq
        cases hq
        exact ⟨rfl, h.ended⟩
      · intro x hx
        refine ⟨(h.behind x hx).1.trans hle, ?_⟩
        intro q hq
        cases hq
        exact (h.behind x hx).1
  · simp only
    refine ⟨⟨h.lastEnd.1.trans hle, le_refl _⟩, ?_, ?_, by simp, ?_, ?_⟩
    · refine pairwise_append.mpr ⟨h.sorted, ?_, ?_⟩
      · cases s.inProgress <;> simp
      · intro o ho p hp
        exact (h.inProgress p (mem_toList.mp hp)).2 o ho
    · intro o ho
      rcases mem_append.mp ho with ho | ho
      · exact (h.ended o ho).trans hle
      · exact (h.inProgress o (mem_toList.mp ho)).1.le.trans hend
    · intro x hx o ho
      rcases mem_append.mp hx with hx | hx
      · rcases mem_append.mp ho with ho | ho
        · exact h.apart x hx o ho
        · exact .inr ((h.behind x hx).2 o (mem_toList.mp ho))
      · rw [mem_singleton.mp hx]
        rcases mem_append.mp ho with ho | ho
        · exact .inl ((h.ended o ho).trans h.lastEnd.2)
        · exact .inl (h.inProgress o (mem_toList.mp ho)).1.le
    · intro x hx
      rcases mem_append.mp hx with hx | hx
      · exact ⟨(h.behind x hx).1.trans hle, by simp⟩
      · rw [mem_singleton.mp hx]
        exact ⟨le_refl _, by simp⟩

theorem foldl {l : List ResolvedRange} : ∀ {s : LoadedScan} {time : TimeInt}
    {missing : List AbsoluteTimeRange}, s.Sound time missing →
    (time :: l.map (·.endTime)).IsChain (· ≤ ·) →
    ∃ time', (l.foldl LoadedScan.next s).Sound time' (missing ++ missingFrom time l) := by
  induction l with
  | nil =>
    intro s time missing h _
    exact ⟨time, by simpa [missingFrom] using h⟩
  | cons r l ih =>
    intro s time missing h hchain
    rw [map_cons, isChain_cons_cons] at hchain
    obtain ⟨time', hfold⟩ := ih (h.next hchain.1) hchain.2
    exact ⟨time', by simpa [missingFrom] using hfold⟩

end LoadedScan.Sound

namespace MergedRanges

theorem loadedRanges_spec {m : MergedRanges} (hstart : TimeInt.MIN ≤ m.startTime)
    (hchain : (m.startTime :: m.ranges.map (·.endTime)).IsChain (· ≤ ·)) :
    m.loadedRanges.Pairwise (fun a b => a.max ≤ b.min) ∧
      ∀ x ∈ missingFrom m.startTime m.ranges, ∀ o ∈ m.loadedRanges, o.max ≤ x.min ∨ x.max ≤ o.min := by
  have hsound : LoadedScan.Sound ⟨[], none, m.startTime⟩ m.startTime [] :=
    ⟨⟨hstart, le_refl _⟩, by simp, by simp, by simp, by simp, by simp⟩
  obtain ⟨time, h⟩ := hsound.foldl hchain
  refine ⟨?_, ?_⟩
  · refine pairwise_append.mpr ⟨h.sorted, ?_, ?_⟩
    · cases (m.ranges.foldl LoadedScan.next ⟨[], none, m.startTime⟩).inProgress <;> simp
    · intro o ho p hp
      exact (h.inProgress p (mem_toList.mp hp)).2 o ho
  · intro x hx o ho
    rcases mem_append.mp ho with ho | ho
    · exact h.apart x hx o ho
    · exact .inr ((h.behind x hx).2 o (mem_toList.mp ho))

theorem mem_missingFrom {merged : List TimeRange} : ∀ {ranges : List ResolvedRange} {start : TimeInt},
    ranges.map (·.endTime) = merged.map (·.range.max) →
    merged.IsChain (fun a b => a.range.max = b.range.min) →
    (∀ r ∈ merged.head?, r.range.min = start) →
    ∀ (i : Nat) (r : TimeRange) (x : ResolvedRange) (n : Nat), merged[i]? = some r →
      ranges[i]? = some x → x.unloadedCount = some (n + 1) → r.range ∈ missingFrom start ranges := by
  induction merged with
  | nil =>
    intro ranges start _ _ _ i r x n hr
    simp at hr
  | cons a merged ih =>
    intro ranges start hends hchain hstart i r x n hr hx hn
    cases ranges with
    | nil => simp at hx
    | cons y ranges =>
      rw [map_cons, map_cons, List.cons.injEq] at hends
      have hmin : a.range.min = start := hstart a (by simp)
      cases i with
      | zero =>
        simp only [List.getElem?_cons_zero, some_inj] at hr hx
        subst hr hx
        refine mem_append_left _ ?_
        have hrange : a.range = ⟨start, y.endTime⟩ := by
          rw [hends.1, ← hmin]
        rw [ResolvedRange.missing, hn, hrange]
        exact mem_singleton.mpr rfl
      | succ i =>
        refine mem_append_right _ (ih hends.2 (isChain_cons.mp hchain).2 ?_ i r x n hr hx hn)
        intro b hb
        rw [hends.1]
        exact ((isChain_cons.mp hchain).1 b hb).symm

end MergedRanges

end Dalaran
