import Dalaran.Query.LatestPaths

/-
  The rows of a range query on a chunk (`dl_chunk/src/range.rs`).

  `Chunk::range` drops the columns that the query does not ask to keep, drops the
  rows without a cell of the component, puts the rest in the order of the queried
  timeline and cuts out what lies between two partition points. On a temporal chunk
  with that timeline these are the rows with a cell and a time in the range, whatever
  columns are kept (`range_rows`).

  A static chunk has no times. What it has counts at every time, so a range query on
  it is a latest-at query, as the source notes.

  Correspondence (Rust ↔ Lean):
    its slices by timeline and by component ↔ `Chunk.preSliced`
    its sort ↔ `Chunk.inTimeOrder`
    `RangeQuery::{new, with_extras, everything}` ↔ any `RangeQuery`
-/

namespace Dalaran

open List Option Assoc RangeQuery

/-! ## The query -/

namespace Chunk

def preSliced (env : Env) (k : Nat) (c : Chunk) (query : RangeQuery) (component : ComponentIdentifier) :
    Chunk × Nat :=
  let chunk :=
    if query.options.keepExtraTimelines then (c, k)
    else (c.timelineSliced (env.newId k) (env.sizeBytes (env.newId k)) query.timeline, k + 1)
  if query.options.keepExtraComponents then chunk
  else
    (chunk.1.componentSliced (env.newId chunk.2) (env.sizeBytes (env.newId chunk.2)) component, chunk.2 + 1)

/-- The rows with a cell of the component, in the order of the queried timeline. -/
def inTimeOrder (env : Env) (k : Nat) (c : Chunk) (isSortedByTime : Bool) (timeline : TimelineName)
    (component : ComponentIdentifier) : Chunk × Nat :=
  let densified := c.densified env k component
  if isSortedByTime then (densified.1, densified.2.2)
  else densified.1.sortedByTimelineIfUnsorted env densified.2.2 timeline

/-- The rows of a chunk that a range query selects. -/
def range (env : Env) (k : Nat) (c : Chunk) (query : RangeQuery) (component : ComponentIdentifier) : Chunk × Nat :=
  if c.isEmpty then (c, k)
  else
    let chunk := c.preSliced env k query component
    let id := env.newId chunk.2
    if chunk.1.isStatic then
      match chunk.1.latestAt .newStatic component with
      | some i => (chunk.1.rowSlicedShallow id (env.sizeBytes id) i 1, chunk.2 + 1)
      | none => (chunk.1.emptied id (env.sizeBytes id), chunk.2 + 1)
    else
      match chunk.1.timelines.lookup query.timeline with
      | none => (chunk.1.emptied id (env.sizeBytes id), chunk.2 + 1)
      | some tc =>
        let sorted := chunk.1.inTimeOrder env chunk.2 tc.isSorted query.timeline component
        let id := env.newId sorted.2
        match sorted.1.timelines.lookup query.timeline with
        | none => (sorted.1.emptied id (env.sizeBytes id), sorted.2 + 1)
        | some tc =>
          let start := (tc.times.takeWhile fun time => decide (time < query.range.min.asI64)).length
          let stop := (tc.times.takeWhile fun time => decide (time ≤ query.range.max.asI64)).length
          let bounds :=
            if query.options.includeExtendedBounds then (start - 1, min c.numRows (stop + 1)) else (start, stop)
          (sorted.1.rowSlicedShallow id (env.sizeBytes id) bounds.1 (bounds.2 - bounds.1), sorted.2 + 1)

end Chunk

/-! ## What it asks for -/

def Row.indexOn (row : Row) (timeline : TimelineName) : Option (I64 ×ₗ RowId) :=
  (row.times timeline).map fun t => toLex (t, row.rowId)

/-- The times of two rows ascend. -/
def Row.NotLater (timeline : TimelineName) (a b : Row) : Prop :=
  ∀ t ∈ a.times timeline, ∀ u ∈ b.times timeline, t ≤ u

/-- The times and row ids of two rows ascend. -/
def Row.NotAfter (timeline : TimelineName) (a b : Row) : Prop :=
  ∀ x ∈ a.indexOn timeline, ∀ y ∈ b.indexOn timeline, x ≤ y

namespace RangeQuery

/-- The row has a cell of the component, and a time in the range. -/
def asksFor (query : RangeQuery) (component : ComponentIdentifier) (row : Row) : Bool :=
  (row.cells component).isSome &&
    (row.times query.timeline).any fun t =>
      decide (query.range.min.asI64 ≤ t) && decide (t ≤ query.range.max.asI64)

def keep (query : RangeQuery) (component : ComponentIdentifier) (row : Row) : Row where
  entityPath := row.entityPath
  rowId := row.rowId
  times := fun name => if query.options.keepExtraTimelines ∨ name = query.timeline then row.times name else none
  cells := fun name => if query.options.keepExtraComponents ∨ name = component then row.cells name else none

@[simp] theorem keep_times (query : RangeQuery) (component : ComponentIdentifier) (row : Row) :
    (query.keep component row).times query.timeline = row.times query.timeline := if_pos (.inr rfl)

@[simp] theorem keep_cells (query : RangeQuery) (component : ComponentIdentifier) (row : Row) :
    (query.keep component row).cells component = row.cells component := if_pos (.inr rfl)

@[simp] theorem keep_indexOn (query : RangeQuery) (component : ComponentIdentifier) (row : Row) :
    (query.keep component row).indexOn query.timeline = row.indexOn query.timeline := by
  unfold Row.indexOn
  rw [keep_times]
  rfl

/-- The query with the default options, which keeps no other columns. -/
def bare (query : RangeQuery) : RangeQuery :=
  { query with options := ⟨false, false, false⟩ }

theorem bare_keep (query : RangeQuery) (options : RangeQueryOptions) (component : ComponentIdentifier) :
    query.bare.keep component ∘ RangeQuery.keep { query with options := options } component =
      query.bare.keep component := by
  funext row
  refine Row.ext rfl rfl (funext fun name => ?_) (funext fun name => ?_)
  · show (if _ then (if _ then _ else _) else _) = if _ then _ else _
    by_cases hname : name = query.timeline
    · simp [bare, hname]
    · simp [bare, hname]
  · show (if _ then (if _ then _ else _) else _) = if _ then _ else _
    by_cases hname : name = component
    · simp [bare, hname]
    · simp [bare, hname]

theorem pairwise_notLater_keep {query : RangeQuery} {component : ComponentIdentifier} {rows : List Row} :
    (rows.map (query.keep component)).Pairwise (Row.NotLater query.timeline) ↔
      rows.Pairwise (Row.NotLater query.timeline) := by
  show _ ↔ rows.Pairwise fun a b => Row.NotLater query.timeline a b
  simp only [pairwise_map, Row.NotLater, keep_times]

theorem pairwise_notAfter_keep {query : RangeQuery} {component : ComponentIdentifier} {rows : List Row} :
    (rows.map (query.keep component)).Pairwise (Row.NotAfter query.timeline) ↔
      rows.Pairwise (Row.NotAfter query.timeline) := by
  show _ ↔ rows.Pairwise fun a b => Row.NotAfter query.timeline a b
  simp only [pairwise_map, Row.NotAfter, keep_indexOn]

end RangeQuery

namespace Chunk

variable {c : Chunk} {env : Env} {k : Nat} {query : RangeQuery} {timeline : TimelineName}
  {component : ComponentIdentifier} {tc : TimeColumn}

/-! ## Rows in time order -/

theorem rows_map_indexOn (hwf : c.WellFormed) (htc : c.timelines.lookup timeline = some tc) :
    c.rows.map (·.indexOn timeline) = (Seq.lexZip tc.times c.rowIds).map some := by
  have hlen : tc.times.length = c.rowIds.length := hwf.times_length _ _ htc
  apply ext_getElem?
  intro i
  rw [getElem?_map, getElem?_map, rows_getElem?, Option.map_map, Seq.lexZip_getElem?]
  by_cases hi : i < c.rowIds.length
  · rw [getElem?_eq_getElem hi, getElem?_eq_getElem (by omega)]
    show some ((c.timeAt i timeline).map _) = _
    rw [timeAt, htc, bind_some, getElem?_eq_getElem (by omega)]
    rfl
  · rw [getElem?_eq_none (by omega), getElem?_eq_none (by omega)]
    rfl

theorem pairwise_key_iff {κ : Type} [LinearOrder κ] {key : Row → Option κ} {rows : List Row} {keys : List κ}
    (h : rows.map key = keys.map some) :
    rows.Pairwise (fun a b => ∀ x ∈ key a, ∀ y ∈ key b, x ≤ y) ↔ Seq.ascending keys = true := by
  rw [Seq.ascending_iff, ← pairwise_map (f := key) (R := fun a b => ∀ x ∈ a, ∀ y ∈ b, x ≤ y), h, pairwise_map]
  simp [mem_def]

theorem pairwise_notLater_iff (hwf : c.WellFormed) (htc : c.timelines.lookup timeline = some tc) :
    c.rows.Pairwise (Row.NotLater timeline) ↔ Seq.ascending tc.times = true :=
  pairwise_key_iff (rows_map_times hwf htc)

theorem pairwise_notAfter_iff (hwf : c.WellFormed) (htc : c.timelines.lookup timeline = some tc) :
    c.rows.Pairwise (Row.NotAfter timeline) ↔ Seq.ascending (Seq.lexZip tc.times c.rowIds) = true :=
  pairwise_key_iff (rows_map_indexOn hwf htc)

/-! ## Kept columns -/

structure KeepsColumns (s c : Chunk) (query : RangeQuery) (component : ComponentIdentifier) : Prop where
  entityPath : s.entityPath = c.entityPath
  rowIds : s.rowIds = c.rowIds
  isSorted : s.isSorted = c.isSorted
  timelines : ∀ name, s.timelines.lookup name =
    if query.options.keepExtraTimelines ∨ name = query.timeline then c.timelines.lookup name else none
  components : ∀ name, s.components.lookup name =
    if query.options.keepExtraComponents ∨ name = component then c.components.lookup name else none

theorem preSliced_keepsColumns (env : Env) (k : Nat) (c : Chunk) (query : RangeQuery)
    (component : ComponentIdentifier) : (c.preSliced env k query component).1.KeepsColumns c query component := by
  have htimelines : ∀ id size name, (c.timelineSliced id size query.timeline).timelines.lookup name =
      if name = query.timeline then c.timelines.lookup name else none := by
    intro id size name
    rw [timelineSliced, lookup_filterMap]
    by_cases hname : name = query.timeline
    · simp [hname]
    · simp [hname]
  have hcomponents : ∀ (s : Chunk) id size name, (s.componentSliced id size component).components.lookup name =
      if name = component then s.components.lookup name else none := by
    intro s id size name
    rw [componentSliced, lookup_filterMap]
    by_cases hname : name = component
    · simp [hname]
    · simp [hname]
  unfold preSliced
  cases ht : query.options.keepExtraTimelines with
  | true =>
    cases hc : query.options.keepExtraComponents with
    | true => exact ⟨rfl, rfl, rfl, fun name => by simp [ht], fun name => by simp [hc]⟩
    | false => exact ⟨rfl, rfl, rfl, fun name => by simp [ht, componentSliced], fun name => by simp [hc, hcomponents]⟩
  | false =>
    cases hc : query.options.keepExtraComponents with
    | true => exact ⟨rfl, rfl, rfl, fun name => by simp [ht, htimelines], fun name => by simp [hc, timelineSliced]⟩
    | false =>
      refine ⟨rfl, rfl, rfl, fun name => ?_, fun name => ?_⟩
      · simpa [ht, componentSliced] using htimelines _ _ name
      · simp [hc, hcomponents, timelineSliced]

namespace KeepsColumns

variable {s : Chunk}

theorem lookup_timeline (h : s.KeepsColumns c query component) :
    s.timelines.lookup query.timeline = c.timelines.lookup query.timeline := by
  rw [h.timelines, if_pos (.inr rfl)]

theorem lookup_component (h : s.KeepsColumns c query component) :
    s.components.lookup component = c.components.lookup component := by
  rw [h.components, if_pos (.inr rfl)]

theorem wf (h : s.KeepsColumns c query component) (hwf : c.WellFormed) : s.WellFormed := by
  have hkept : ∀ {K V : Type} {P : Prop} [Decidable P] {o o' : Option V} {v : V},
      o = (if P then o' else none) → o = some v → o' = some v := by
    intro K V P _ o o' v heq hv
    rw [hv] at heq
    split at heq
    · exact heq.symm
    · cases heq
  have hrows : s.numRows = c.numRows := congrArg length h.rowIds
  refine ⟨?_, fun name tc htc => ?_, fun name tc htc => ?_, fun name column hcol => ?_⟩
  · rw [h.isSorted, h.rowIds]
    exact hwf.isSorted_eq
  · rw [hrows]
    exact hwf.times_length name tc (hkept (K := Nat) (h.timelines name) htc)
  · exact hwf.times_wf name tc (hkept (K := Nat) (h.timelines name) htc)
  · rw [hrows]
    exact hwf.cells_length name column (hkept (K := Nat) (h.components name) hcol)

theorem rows (h : s.KeepsColumns c query component) : s.rows = c.rows.map (query.keep component) := by
  have hrow : ∀ i id, s.rowAt i id = query.keep component (c.rowAt i id) := by
    intro i id
    refine Row.ext h.entityPath rfl (funext fun name => ?_) (funext fun name => ?_)
    · show s.timeAt i name = ite _ (c.timeAt i name) none
      unfold timeAt
      rw [h.timelines]
      split <;> rfl
    · show s.cellAt i name = ite _ (c.cellAt i name) none
      unfold cellAt
      rw [h.components]
      split <;> rfl
  apply ext_getElem?
  intro i
  rw [getElem?_map, rows_getElem?, rows_getElem?, h.rowIds, Option.map_map]
  exact congrArg (fun f => Option.map f c.rowIds[i]?) (funext (hrow i))

theorem latestAt_newStatic (h : s.KeepsColumns c query component) (hs : s.isStatic = true)
    (hc : c.isStatic = true) : s.latestAt .newStatic component = c.latestAt .newStatic component := by
  unfold latestAt closestRowId isEmpty numRows
  rw [h.lookup_component, h.rowIds, h.isSorted, hs, hc]
  rfl

theorem isStatic_of_isStatic (h : s.KeepsColumns c query component) (hc : c.isStatic = true) :
    s.isStatic = true := by
  by_contra hs
  have hne : s.timelines.entries ≠ [] := fun hnil => hs (isEmpty_iff.mpr hnil)
  obtain ⟨name, hname⟩ := entries_ne_nil_iff.mp hne
  rw [h.timelines] at hname
  split at hname
  · exact entries_ne_nil_iff.mpr ⟨name, hname⟩ (isEmpty_iff.mp hc)
  · cases hname

theorem isStatic_of_timeline (h : s.KeepsColumns c query component) {tc : TimeColumn}
    (htc : c.timelines.lookup query.timeline = some tc) : s.isStatic = false := by
  apply Bool.eq_false_of_not_eq_true
  intro hs
  have hsome : (s.timelines.lookup query.timeline).isSome := by
    rw [h.lookup_timeline, htc]
    rfl
  exact entries_ne_nil_iff.mpr ⟨query.timeline, hsome⟩ (isEmpty_iff.mp hs)

end KeepsColumns

/-! ## Dense rows in time order -/

theorem densified_timelines (env : Env) (k : Nat) (c : Chunk) (component : ComponentIdentifier) (name : TimelineName) :
    ((c.densified env k component).1.timelines.lookup name).isSome = (c.timelines.lookup name).isSome := by
  unfold densified
  split
  · rfl
  · split
    · rfl
    · dsimp only
      split
      · rw [lookup_map, isSome_map]
      · rfl

theorem densified_components (env : Env) (k : Nat) (c : Chunk) (component name : ComponentIdentifier) :
    ((c.densified env k component).1.components.lookup name).isSome = (c.components.lookup name).isSome := by
  unfold densified
  split
  · rfl
  · split
    · rfl
    · dsimp only
      split
      · rw [lookup_map, isSome_map]
      · rfl

theorem sortedByTimelineIfUnsorted_spec (env : Env) (k : Nat) (hwf : c.WellFormed)
    (htc : c.timelines.lookup timeline = some tc) {s : Chunk}
    (hs : s = (c.sortedByTimelineIfUnsorted env k timeline).1) :
    s.WellFormed ∧ s.rows.Perm c.rows ∧ (s.timelines.lookup timeline).isSome ∧
      s.rows.Pairwise (Row.NotLater timeline) ∧
      (s = c ∨ ¬ c.rows.Pairwise (Row.NotLater timeline) ∧ s.rows.Pairwise (Row.NotAfter timeline)) := by
  have hordered := pairwise_notLater_iff hwf htc
  rw [← (hwf.times_wf _ _ htc).isSorted_eq] at hordered
  cases hsorted : tc.isSorted with
  | true =>
    rw [sortedByTimelineIfUnsorted_of_sorted env _ htc hsorted] at hs
    rw [hs, htc]
    exact ⟨hwf, .refl _, rfl, hordered.mpr hsorted, .inl rfl⟩
  | false =>
    obtain ⟨hreordered, hascends, -⟩ := sortedByTimelineIfUnsorted_of_unsorted env k hwf htc hsorted
    rw [← hs] at hreordered hascends
    have hswf := sanityCheck_iff.mp hreordered.sane
    have hstl := hreordered.timelines timeline
    rw [htc, map_some] at hstl
    obtain ⟨stc, hstc, -⟩ := map_eq_some_iff.mp hstl
    have hlex := hascends stc hstc
    have htimes := ((Seq.ascending_lexZip_iff (hswf.times_length _ _ hstc)).mp hlex).1
    rw [hstc]
    refine ⟨hswf, hreordered.rows, rfl, (pairwise_notLater_iff hswf hstc).mpr htimes, .inr ⟨?_, ?_⟩⟩
    · intro hin
      rw [hordered.mp hin] at hsorted
      cases hsorted
    · exact (pairwise_notAfter_iff hswf hstc).mpr hlex

theorem inTimeOrder_spec (env : Env) (k : Nat) (hwf : c.WellFormed) (htc : c.timelines.lookup timeline = some tc)
    {column : ComponentColumn} (hcol : c.components.lookup component = some column) {s : Chunk}
    (hs : s = (c.inTimeOrder env k tc.isSorted timeline component).1) {dense : List Row}
    (hdense : dense = c.rows.filter fun row => (row.cells component).isSome) :
    s.WellFormed ∧ s.rows.Perm dense ∧ (s.timelines.lookup timeline).isSome ∧
      s.rows.Pairwise (Row.NotLater timeline) ∧
      ((dense.Pairwise (Row.NotLater timeline) → dense.Pairwise (Row.NotAfter timeline)) →
        s.rows.Pairwise (Row.NotAfter timeline)) := by
  obtain ⟨hdwf, hdrows⟩ := densified_spec env k hwf hcol
  have hdtl := densified_timelines env k c component timeline
  rw [htc, isSome_some] at hdtl
  obtain ⟨dtc, hdtc⟩ := isSome_iff_exists.mp hdtl
  rw [← hdense] at hdrows
  unfold inTimeOrder at hs
  cases hsorted : tc.isSorted with
  | true =>
    rw [hsorted, if_pos rfl] at hs
    -- the rows that are left are in the order they were in
    have hrows := (pairwise_notLater_iff hwf htc).mpr ((hwf.times_wf _ _ htc).isSorted_eq.symm.trans hsorted)
    have horder : dense.Pairwise (Row.NotLater timeline) := hdense ▸ hrows.filter _
    rw [hs, hdrows, hdtc]
    exact ⟨hdwf, .refl _, rfl, horder, fun h => h horder⟩
  | false =>
    rw [hsorted, if_neg Bool.false_ne_true] at hs
    obtain ⟨hswf, hperm, hlookup, horder, hcases⟩ := sortedByTimelineIfUnsorted_spec env _ hdwf hdtc hs
    rw [hdrows] at hperm hcases
    refine ⟨hswf, hperm, hlookup, horder, fun h => ?_⟩
    rcases hcases with heq | ⟨-, hafter⟩
    · rw [heq, hdrows] at horder ⊢
      exact h horder
    · exact hafter

theorem takeWhile_times_length (hwf : c.WellFormed) (htc : c.timelines.lookup timeline = some tc)
    (p : I64 → Bool) : (tc.times.takeWhile p).length =
      (c.rows.takeWhile fun row => (row.times timeline).any p).length := by
  have hmap := congrArg (fun l => (l.takeWhile fun o => o.any p).length) (rows_map_times hwf htc)
  simpa only [takeWhile_map, length_map, Function.comp_def, any_some] using hmap.symm

theorem rowSliced_between (hwf : c.WellFormed) (htc : c.timelines.lookup timeline = some tc)
    (hasc : Seq.ascending tc.times = true) (lo hi : I64) (id : ChunkId) (size : Nat) :
    (c.rowSlicedShallow id size (tc.times.takeWhile fun time => decide (time < lo)).length
      ((tc.times.takeWhile fun time => decide (time ≤ hi)).length -
        (tc.times.takeWhile fun time => decide (time < lo)).length)).rows =
      c.rows.filter fun row => (row.times timeline).any fun t => decide (lo ≤ t) && decide (t ≤ hi) := by
  have hkeys := rows_map_times hwf htc
  have hmem : ∀ row ∈ c.rows, ∃ t, row.times timeline = some t := by
    intro row hrow
    have hkey : row.times timeline ∈ tc.times.map some := hkeys ▸ mem_map_of_mem hrow
    obtain ⟨t, -, ht⟩ := mem_map.mp hkey
    exact ⟨t, ht.symm⟩
  have hpairs := (pairwise_notLater_iff hwf htc).mpr hasc
  have hmono : ∀ p : I64 → Bool, (∀ t u, t ≤ u → p u = true → p t = true) →
      c.rows.Pairwise fun a b => (b.times timeline).any p = true → (a.times timeline).any p = true := by
    intro p hp
    refine hpairs.imp_of_mem fun {a b} ha hb hab hpb => ?_
    obtain ⟨t, ht⟩ := hmem a ha
    obtain ⟨u, hu⟩ := hmem b hb
    rw [hu] at hpb
    rw [ht]
    exact hp t u (hab t ht u hu) hpb
  rw [rowSlicedShallow_rows hwf, takeWhile_times_length hwf htc, takeWhile_times_length hwf htc,
    Seq.drop_take_eq_filter]
  · refine filter_congr fun row hrow => ?_
    obtain ⟨t, ht⟩ := hmem row hrow
    simp [ht, ← decide_not]
  · exact hmono _ fun t u htu h => decide_eq_true (htu.trans_lt (of_decide_eq_true h))
  · exact hmono _ fun t u htu h => decide_eq_true (htu.trans (of_decide_eq_true h))

/-! ## The selected rows -/

theorem rows_eq_nil_of_isEmpty (h : c.isEmpty = true) : c.rows = [] := by
  unfold rows
  rw [isEmpty_iff.mp h]
  rfl

theorem range_static (env : Env) (k : Nat) (hwf : c.WellFormed) (hstatic : c.isStatic = true) :
    (c.range env k query component).1.rows =
      ((c.latestAt .newStatic component).bind fun i => c.rows[i]?).toList.map (query.keep component) := by
  have hkeeps := preSliced_keepsColumns env k c query component
  have hs := hkeeps.isStatic_of_isStatic hstatic
  have hlatest := hkeeps.latestAt_newStatic hs hstatic
  unfold range
  by_cases hempty : c.isEmpty = true
  · rw [if_pos hempty, rows_eq_nil_of_isEmpty hempty]
    cases c.latestAt .newStatic component <;> rfl
  · rw [if_neg hempty]
    rw [if_pos hs, hlatest]
    cases c.latestAt .newStatic component with
    | none => rfl
    | some i =>
      rw [bind_some]
      show (Chunk.rowSlicedShallow _ _ _ i 1).rows = _
      rw [rowSlicedShallow_rows (hkeeps.wf hwf), hkeeps.rows, ← map_drop, ← map_take]
      by_cases hi : i < c.rows.length
      · rw [drop_eq_getElem_cons hi, take_succ_cons, take_zero, getElem?_eq_getElem hi]
        rfl
      · rw [drop_eq_nil_of_le (by omega), getElem?_eq_none (by omega)]
        rfl

theorem range_temporal (env : Env) (k : Nat) (query : RangeQuery) (hwf : c.WellFormed)
    (hbounds : query.options.includeExtendedBounds = false)
    (htc : c.timelines.lookup query.timeline = some tc) {column : ComponentColumn}
    (hcol : c.components.lookup component = some column) {dense : List Row}
    (hdense : dense = c.rows.filter fun row => (row.cells component).isSome) :
    (c.range env k query component).1.rows.Perm
        ((c.rows.filter (query.asksFor component)).map (query.keep component)) ∧
      (c.range env k query component).1.rows.Pairwise (Row.NotLater query.timeline) ∧
      ((dense.Pairwise (Row.NotLater query.timeline) → dense.Pairwise (Row.NotAfter query.timeline)) →
        (c.range env k query component).1.rows.Pairwise (Row.NotAfter query.timeline)) := by
  have hkeeps := preSliced_keepsColumns env k c query component
  unfold range
  by_cases hempty : c.isEmpty = true
  · rw [if_pos hempty, rows_eq_nil_of_isEmpty hempty]
    exact ⟨.refl _, .nil, fun _ => .nil⟩
  · rw [if_neg hempty]
    dsimp only
    rw [hkeeps.isStatic_of_timeline htc, if_neg Bool.false_ne_true, hkeeps.lookup_timeline, htc]
    dsimp only
    obtain ⟨hsorted, hperm, htl, horder, hties⟩ := inTimeOrder_spec env
      (c.preSliced env k query component).2 (hkeeps.wf hwf) (hkeeps.lookup_timeline.trans htc)
      (hkeeps.lookup_component.trans hcol) rfl rfl
    -- the dense rows are what is kept of the dense rows of the chunk
    have hkept : ((c.preSliced env k query component).1.rows.filter fun row => (row.cells component).isSome) =
        dense.map (query.keep component) := by
      rw [hkeeps.rows, List.filter_map, hdense]
      congr 2
      funext row
      simp [keep_cells]
    obtain ⟨tc', htc'⟩ := isSome_iff_exists.mp htl
    rw [hkept] at hperm hties
    rw [htc', hbounds]
    dsimp only
    rw [if_neg Bool.false_ne_true, rowSliced_between hsorted htc' ((pairwise_notLater_iff hsorted htc').mp horder)]
    refine ⟨?_, horder.filter _, fun hdenseTies => (hties ?_).filter _⟩
    · refine (hperm.filter _).trans (Perm.of_eq ?_)
      rw [List.filter_map, hdense, List.filter_filter]
      congr 2
      funext row
      simp only [Function.comp_apply, keep_times]
      exact Bool.and_comm _ _
    · rw [pairwise_notLater_keep, pairwise_notAfter_keep]
      exact hdenseTies

theorem range_without_timeline (env : Env) (k : Nat) (hstatic : c.isStatic = false)
    (hkeep : query.options.keepExtraTimelines = true) (htc : c.timelines.lookup query.timeline = none) :
    (c.range env k query component).1.rows = [] := by
  have hkeeps := preSliced_keepsColumns env k c query component
  have hs : (c.preSliced env k query component).1.isStatic = false := by
    unfold preSliced
    dsimp only
    split
    · exact hstatic
    · exact hstatic
  unfold range
  by_cases hempty : c.isEmpty = true
  · rw [if_pos hempty, rows_eq_nil_of_isEmpty hempty]
  · rw [if_neg hempty]
    dsimp only
    rw [hs, if_neg Bool.false_ne_true, hkeeps.lookup_timeline, htc]
    rfl

/-- A range query without extended bounds, on a chunk that has the component. A static chunk gives its
latest row. A temporal chunk with the timeline gives the rows with a cell and a time in the range, in
the order of their times, and in that of their row ids too unless the rows with a cell were in the
order of their times and not in that; without the timeline it gives nothing, where columns are kept.
Which columns are kept makes no difference to the rows. -/
theorem range_rows (env : Env) (k : Nat) (c : ValidChunk) (query : RangeQuery)
    (component : ComponentIdentifier) (hbounds : query.options.includeExtendedBounds = false)
    (hcol : (c.components.lookup component).isSome) :
    (c.isStatic = true → (c.range env k query component).1.rows =
      ((c.latestAt .newStatic component).bind fun i => c.rows[i]?).toList.map (query.keep component)) ∧
    (c.isStatic = false → (c.timelines.lookup query.timeline).isSome →
      (c.range env k query component).1.rows.Perm
          ((c.rows.filter (query.asksFor component)).map (query.keep component)) ∧
        (c.range env k query component).1.rows.Pairwise (Row.NotLater query.timeline) ∧
        (((c.rows.filter fun row => (row.cells component).isSome).Pairwise (Row.NotLater query.timeline) →
            (c.rows.filter fun row => (row.cells component).isSome).Pairwise (Row.NotAfter query.timeline)) →
          (c.range env k query component).1.rows.Pairwise (Row.NotAfter query.timeline))) ∧
    (c.isStatic = false → c.timelines.lookup query.timeline = none →
      query.options.keepExtraTimelines = true → (c.range env k query component).1.rows = []) ∧
    ∀ options : RangeQueryOptions, options.includeExtendedBounds = false →
      (c.isStatic = true ∨ (c.timelines.lookup query.timeline).isSome) →
      ((c.range env k { query with options := options } component).1.rows.map (query.bare.keep component)).Perm
        ((c.range env k query component).1.rows.map (query.bare.keep component)) := by
  obtain ⟨column, hcol⟩ := isSome_iff_exists.mp hcol
  refine ⟨range_static env k c.wf, fun hstatic htl => ?_, fun hstatic htl hkeep => ?_, fun options hoptions hor => ?_⟩
  · obtain ⟨tc, htc⟩ := isSome_iff_exists.mp htl
    exact range_temporal env k query c.wf hbounds htc hcol rfl
  · exact range_without_timeline env k hstatic hkeep htl
  · have hkept : query.bare.keep component ∘ query.keep component = query.bare.keep component :=
      query.bare_keep query.options component
    rcases hor with hstatic | htl
    · apply Perm.of_eq
      rw [range_static env k c.wf hstatic, range_static env k c.wf hstatic, List.map_map, List.map_map,
        query.bare_keep options, hkept]
    · obtain ⟨tc, htc⟩ := isSome_iff_exists.mp htl
      have hthis := (range_temporal env k query c.wf hbounds htc hcol rfl).1
      have hother := (range_temporal env k { query with options := options } c.wf hoptions htc hcol rfl).1
      refine (hother.map (query.bare.keep component)).trans
        (.trans (.of_eq ?_) (hthis.map (query.bare.keep component)).symm)
      rw [List.map_map, List.map_map, query.bare_keep options, hkept]
      rfl

def earlyFrames : RangeQuery := ⟨⟨"frame"⟩, ⟨⟨I64.sat 0⟩, ⟨I64.sat 9⟩⟩, ⟨false, false, false⟩⟩

/-- Both rows of a chunk that is not in the order of its times are found. -/
theorem range_rows_unordered :
    (unorderedPositions.range (.countingFrom 100) 0 earlyFrames ⟨"position"⟩).1.rows.Perm
      ((unorderedPositions.rows.filter (earlyFrames.asksFor ⟨"position"⟩)).map
        (earlyFrames.keep ⟨"position"⟩)) :=
  ((range_rows (.countingFrom 100) 0 unorderedPositions earlyFrames ⟨"position"⟩ rfl (by decide)).2.1
    (by decide) (by decide)).1

def staticPosition : ValidChunk where
  toChunk := ofColumns 1 ⟨["robot"]⟩ 0 [1] [] [(⟨"position"⟩, [some [[1]]])]
  sane := rfl

/-- It is found by a range query, although it has no time in the range; and so is a row of a temporal
chunk without the timeline, unless the chunk keeps its other timelines. -/
theorem range_of_static :
    (staticPosition.range (.countingFrom 100) 0 earlyFrames ⟨"position"⟩).1.rowIds = [1] ∧
      staticPosition.rows.filter (earlyFrames.asksFor ⟨"position"⟩) = [] ∧
      (laterPosition.range (.countingFrom 100) 0 { earlyFrames with timeline := ⟨"log"⟩ } ⟨"position"⟩).1.rowIds =
        [1] ∧
      (laterPosition.range (.countingFrom 100) 0 ⟨⟨"log"⟩, earlyFrames.range, ⟨true, false, false⟩⟩
        ⟨"position"⟩).1.rowIds = [] ∧
      ¬ (∀ (env : Env) (k : Nat) (c : ValidChunk) (query : RangeQuery) component,
        query.options.includeExtendedBounds = false → (c.components.lookup component).isSome →
        (c.range env k query component).1.rows.Perm
          ((c.rows.filter (query.asksFor component)).map (query.keep component))) := by
  have hfound : (staticPosition.range (.countingFrom 100) 0 earlyFrames ⟨"position"⟩).1.rowIds = [1] := by decide
  have hnothing : staticPosition.rows.filter (earlyFrames.asksFor ⟨"position"⟩) = [] := by rfl
  refine ⟨hfound, hnothing, by decide, by decide, fun h => ?_⟩
  have hperm := h (.countingFrom 100) 0 staticPosition earlyFrames ⟨"position"⟩ rfl (by decide)
  have hlen := hperm.length_eq
  cases hlen

end Chunk

end Dalaran
