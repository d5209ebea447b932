import Dalaran.Pushdown.Sound

/-
  The ways through a filter.

  The result of the pushdown is multiplied out into ways (`ways`), each a choice of
  comparisons with the base queries they are applied to. The results are what the
  ways are merged to (`follows_apply`).
-/

namespace Dalaran.Pushdown

open List Collect QueryDatasetRequest

/-! ## The times of a query -/

inductive Times where
  | specific (latestAt : QueryLatestAt)
  | range (range : QueryRange)

def Times.Admits (row : Row) : Times → Prop
  | .specific latestAt => latestAt.Admits row
  | .range r => r.Admits row

def Times.isSpecific : Times → Bool
  | .specific _ => true
  | .range _ => false

/-- A latest-at next to a range only fills. -/
def Query.times (query : Query) : Option Times :=
  match query.range, query.latestAt with
  | some range, _ => some (.range range)
  | none, some latestAt => some (.specific latestAt)
  | none, none => none

def QueryDatasetRequest.times (request : QueryDatasetRequest) : Option Times :=
  request.query.bind Query.times

def QueryDatasetRequest.Lists (request : QueryDatasetRequest) (id : String) : Prop :=
  request.segmentIds = [] ∨ id ∈ request.segmentIds

theorem Query.admits_iff {query : Query} {row : Row} :
    query.Admits row ↔ ∀ times ∈ query.times, times.Admits row := by
  unfold Query.Admits Query.times
  cases query.range with
  | some range => simp [Times.Admits]
  | none => cases query.latestAt <;> simp [Times.Admits]

theorem admits_iff_times {request : QueryDatasetRequest} {row : Row} :
    request.Admits row ↔ request.Lists row.segmentId ∧ ∀ times ∈ request.times, times.Admits row := by
  unfold Admits times
  cases request.query with
  | none => simp [QueryDatasetRequest.Lists]
  | some query => simp [QueryDatasetRequest.Lists, Query.admits_iff]

/-- What some restrictions come to: the first specific time, or all the ranges. -/
def HoldsAll (row : Row) (restrictions : List Times) : Prop :=
  match restrictions.find? Times.isSpecific with
  | some specific => specific.Admits row
  | none => ∀ times ∈ restrictions, times.Admits row

def Sums (times : Option Times) (restrictions : List Times) : Prop :=
  match restrictions.find? Times.isSpecific with
  | some specific => times = some specific
  | none => (∀ t ∈ times, t.isSpecific = false) ∧
      ∀ row : Row, (∀ t ∈ times, t.Admits row) ↔ ∀ t ∈ restrictions, t.Admits row

theorem Sums.admits_iff {times : Option Times} {restrictions : List Times} {row : Row}
    (h : Sums times restrictions) : (∀ t ∈ times, t.Admits row) ↔ HoldsAll row restrictions := by
  unfold Sums at h
  unfold HoldsAll
  cases hfind : restrictions.find? Times.isSpecific with
  | some specific =>
    rw [hfind] at h
    simp [h]
  | none =>
    rw [hfind] at h
    exact h.2 row

theorem sums_toList (times : Option Times) : Sums times times.toList := by
  unfold Sums
  cases times with
  | none => simp
  | some t => cases t <;> simp [Times.isSpecific]

/-! ## Merging -/

section Merge

variable {left right merged : QueryDatasetRequest} {synthesizeLatestAt : Bool}

theorem computeRangeOverlap_admits_iff {left right range : QueryRange} {row : Row}
    (h : computeRangeOverlap left right = .ok range) :
    range.Admits row ↔ left.Admits row ∧ right.Admits row := by
  refine ⟨fun hrange => ?_, fun hboth => computeRangeOverlap_admits h hboth.1 hboth.2⟩
  unfold computeRangeOverlap at h
  split at h
  · cases h
  · rename_i hindex
    split at h
    · cases h
    · cases h
      obtain ⟨time, htime, hmin, hmax⟩ := hrange
      refine ⟨⟨time, htime, (le_max_left _ _).trans hmin, hmax.trans (min_le_left _ _)⟩, time, ?_,
        (le_max_right _ _).trans hmin, hmax.trans (min_le_right _ _)⟩
      rw [← not_not.mp hindex]
      exact htime

/-- The times of a merged query: a specific time wins over a range, the left one over the right. -/
def MergesTimes (left right merged : Option Times) : Prop :=
  (∃ a b c, left = some (.range a) ∧ right = some (.range b) ∧
    merged = some (.range c) ∧ computeRangeOverlap a b = .ok c) ∨
  (∃ a b, left = some (.range a) ∧ right = some (.specific b) ∧ merged = some (.specific b)) ∨
  (∃ a, left = some (.specific a) ∧ merged = some (.specific a)) ∨
  (right = none ∧ merged = left) ∨
  left = none ∧ merged = right

theorem mergeTimes_times {left right merged : Query}
    (h : mergeTimes left right synthesizeLatestAt = .ok merged) :
    MergesTimes left.times right.times merged.times := by
  unfold mergeTimes at h
  split at h
  · rename_i lr rr hlr hrr
    obtain ⟨range, hoverlap, h⟩ := bind_eq_ok.mp h
    cases h
    exact .inl ⟨lr, rr, range, by simp [Query.times, hlr], by simp [Query.times, hrr], rfl, hoverlap⟩
  · rename_i lr rla hlr hrla hrr
    split at h
    · cases h
      exact .inr (.inl ⟨lr, rla, by simp [Query.times, hlr], by simp [Query.times, hrla, hrr], rfl⟩)
    · cases h
  · rename_i lla rr hlla hlr hrr
    split at h
    · cases h
      have hleft : left.times = some (.specific lla) := by simp [Query.times, hlla, hlr]
      exact .inr (.inr (.inl ⟨lla, hleft, hleft⟩))
    · cases h
  · rename_i lla rla hlla hlr hrla hrr
    split at h
    · cases h
    · cases h
      have hleft : left.times = some (.specific lla) := by simp [Query.times, hlla, hlr]
      exact .inr (.inr (.inl ⟨lla, hleft, hleft⟩))
  · rename_i hrla hrr
    cases h
    exact .inr (.inr (.inr (.inl ⟨by simp [Query.times, hrla, hrr], rfl⟩)))
  · rename_i hlla hlr _
    cases h
    exact .inr (.inr (.inr (.inr ⟨by simp [Query.times, hlla, hlr], rfl⟩)))

theorem mergeSegmentIds_lists {left right merged : List String} {id : String}
    (h : mergeSegmentIds left right = .ok merged) :
    (merged = [] ∨ id ∈ merged) ↔ (left = [] ∨ id ∈ left) ∧ (right = [] ∨ id ∈ right) := by
  refine ⟨fun hmerged => ?_, fun hboth => mergeSegmentIds_mem h hboth.1 hboth.2⟩
  unfold mergeSegmentIds at h
  split at h
  · next hright =>
    cases h
    exact ⟨hmerged, .inl (List.isEmpty_iff.mp hright)⟩
  · split at h
    · next hleft =>
      cases h
      exact ⟨.inl (List.isEmpty_iff.mp hleft), hmerged⟩
    · simp only at h
      split at h
      · cases h
      · next hsome =>
        cases h
        have hmem := hmerged.resolve_left fun hnil => hsome (List.isEmpty_iff.mpr hnil)
        obtain ⟨hl, hr⟩ := mem_filter.mp hmem
        exact ⟨.inr hl, .inr (contains_iff_mem.mp hr)⟩

theorem mergeQueriesAnd_lists {id : String}
    (h : mergeQueriesAnd left right synthesizeLatestAt = .ok merged) :
    merged.Lists id ↔ left.Lists id ∧ right.Lists id :=
  mergeSegmentIds_lists (mergeQueriesAnd_parts h).1

theorem mergeQueriesAnd_times (h : mergeQueriesAnd left right synthesizeLatestAt = .ok merged) :
    MergesTimes left.times right.times merged.times := by
  unfold times
  obtain ⟨lq, rq, mq, hlq, hrq, hmq, htimes⟩ | ⟨hlq, hmq⟩ | ⟨hrq, hmq⟩ := (mergeQueriesAnd_parts h).2
  · rw [hlq, hrq, hmq]
    exact mergeTimes_times htimes
  · rw [hlq, hmq]
    exact .inr (.inr (.inr (.inr ⟨rfl, rfl⟩)))
  · rw [hrq, hmq]
    exact .inr (.inr (.inr (.inl ⟨rfl, rfl⟩)))

theorem Sums.merge {onLeft onRight : List Times} (hl : Sums left.times onLeft)
    (hr : Sums right.times onRight) (h : mergeQueriesAnd left right synthesizeLatestAt = .ok merged) :
    Sums merged.times (onLeft ++ onRight) := by
  have htimes := mergeQueriesAnd_times h
  unfold Sums at hl hr ⊢
  rw [List.find?_append]
  cases hfl : onLeft.find? Times.isSpecific with
  | some specific =>
    rw [hfl] at hl
    have hspecific := List.find?_some hfl
    obtain ⟨a, b, c, ha, -⟩ | ⟨a, b, ha, -⟩ | ⟨a, ha, hm⟩ | ⟨-, hm⟩ | ⟨ha, -⟩ := htimes
    · rw [hl] at ha
      cases ha
      cases hspecific
    · rw [hl] at ha
      cases ha
      cases hspecific
    · exact hm.trans (ha.symm.trans hl)
    · exact hm.trans hl
    · rw [hl] at ha
      cases ha
  | none =>
    rw [hfl] at hl
    cases hfr : onRight.find? Times.isSpecific with
    | some specific =>
      rw [hfr] at hr
      have hspecific := List.find?_some hfr
      obtain ⟨a, b, c, -, hb, -⟩ | ⟨a, b, -, hb, hm⟩ | ⟨a, ha, -⟩ | ⟨hb, -⟩ | ⟨-, hm⟩ := htimes
      · rw [hr] at hb
        cases hb
        cases hspecific
      · exact hm.trans (hb.symm.trans hr)
      · exact absurd (hl.1 _ ha) (by simp [Times.isSpecific])
      · rw [hr] at hb
        cases hb
      · exact hm.trans hr
    | none =>
      rw [hfr] at hr
      simp only [forall_mem_append]
      obtain ⟨a, b, c, ha, hb, hm, hc⟩ | ⟨a, b, -, hb, -⟩ | ⟨a, ha, -⟩ | ⟨hb, hm⟩ | ⟨ha, hm⟩ := htimes
      · refine ⟨by simp [hm, Times.isSpecific], fun row => ?_⟩
        rw [← hl.2 row, ← hr.2 row, ha, hb, hm]
        simpa [Times.Admits] using computeRangeOverlap_admits_iff hc
      · exact absurd (hr.1 _ hb) (by simp [Times.isSpecific])
      · exact absurd (hl.1 _ ha) (by simp [Times.isSpecific])
      · refine ⟨hm ▸ hl.1, fun row => ?_⟩
        rw [← hl.2 row, ← hr.2 row, hm, hb]
        simp
      · refine ⟨hm ▸ hr.1, fun row => ?_⟩
        rw [← hl.2 row, ← hr.2 row, hm, ha]
        simp

end Merge

/-! ## Ways through a filter -/

/-- A choice of comparisons with the base queries they are applied to. At an `OR` that is not gone
into it is a base query as it was. -/
inductive Way where
  | base (query : QueryDatasetRequest)
  | segment (query : QueryDatasetRequest) (id : String)
  | index (query : QueryDatasetRequest) (name : String) (op : Operator) (time : TimeInt)
  | and (left right : Way)

namespace Way

def merged (synthesizeLatestAt : Bool) : Way → Except DataFusionError QueryDatasetRequest
  | base query => .ok query
  | segment query id => .ok { query with segmentIds := [id] }
  | index query name op time => replaceTimeInQuery query name time op synthesizeLatestAt
  | and left right => do
    mergeQueriesAnd (← left.merged synthesizeLatestAt) (← right.merged synthesizeLatestAt)
      synthesizeLatestAt

/-- The restrictions to times along the way, in the order they are merged. -/
def times : Way → List Times
  | base query => query.times.toList
  | segment query _ => query.times.toList
  | index query name op time => match timesOf op time with
    | .ok range => query.times.toList ++ [.range ⟨⟨name⟩, range⟩]
    | .error _ => query.times.toList
  | and left right => left.times ++ right.times

/-- Every equality names the segment, and every other base query lists it. -/
def TakesSegment (segmentId : String) : Way → Prop
  | base query => query.Lists segmentId
  | segment _ id => segmentId = id
  | index query _ _ _ => query.Lists segmentId
  | and left right => left.TakesSegment segmentId ∧ right.TakesSegment segmentId

def LetsIn (row : Row) (way : Way) : Prop :=
  way.TakesSegment row.segmentId ∧ HoldsAll row way.times

/-- An equality replaces a list of segments that its own is not in. -/
def Overrides : Way → Prop
  | base _ => False
  | segment query id => ¬ query.Lists id
  | index _ _ _ _ => False
  | and left right => left.Overrides ∨ right.Overrides

def Over (queries : List QueryDatasetRequest) : Way → Prop
  | base query => query ∈ queries
  | segment query _ => query ∈ queries
  | index query _ _ _ => query ∈ queries
  | and left right => left.Over queries ∧ right.Over queries

end Way

def comparisonWays (schema : List Field) (queries : List QueryDatasetRequest) (left : Expr)
    (op : Operator) (right : Expr) : Option (List Way) :=
  if comparisonPushed schema left op right then
    match arrangeBinaryExprAsColOnLeft left op right with
    | (left, op, right) => match knownFilterColumn left right schema with
      | .index name time => some (queries.map fun query => .index query name op time)
      | .segmentId id => some (queries.map fun query => .segment query id)
      | .unknown => none
  else none

def andWays : Option (List Way) → Option (List Way) → Option (List Way)
  | some left, some right => some ((left.product right).map fun pair => .and pair.1 pair.2)
  | some left, none => some left
  | none, right => right

def orWays (queries : List QueryDatasetRequest) : Option (List Way) → Option (List Way) → Option (List Way)
  | some left, some right => some (left ++ right)
  | _, _ => some (queries.map Way.base)

/-- The ways through a filter; `none` where it is not pushed down. -/
def ways (schema : List Field) (queries : List QueryDatasetRequest) : Expr → Option (List Way)
  | .alias expr _ => ways schema queries expr
  | .binaryExpr left op right =>
    match op with
    | .and =>
      if left.isColumn then andWays (ways schema queries left) (ways schema queries right)
      else andWays (ways schema queries right) (ways schema queries left)
    | .or =>
      if left.isColumn then orWays queries (ways schema queries left) (ways schema queries right)
      else orWays queries (ways schema queries right) (ways schema queries left)
    | _ => comparisonWays schema queries left op right
  | .between expr negated low high =>
    if negated then none
    else andWays (comparisonWays schema queries expr .ltEq high)
      (comparisonWays schema queries expr .gtEq low)
  | .inList expr list _ =>
    match list with
    | [] => none
    | first :: rest =>
      rest.foldl (fun acc item => orWays queries (comparisonWays schema queries expr .eq item) acc)
        (comparisonWays schema queries expr .eq first)
  | _ => none

/-! ## What a way admits -/

section Admits

variable {synthesizeLatestAt : Bool} {row : Row}

variable {query : QueryDatasetRequest}

theorem withTimes_times {latestAt : Option QueryLatestAt}
    {range : QueryRange} : (query.withTimes latestAt range).times = some (.range range) := by
  unfold withTimes times
  cases query.query <;> rfl

theorem withTimes_lists {latestAt : Option QueryLatestAt} {range : QueryRange}
    {id : String} : (query.withTimes latestAt range).Lists id ↔ query.Lists id := by
  unfold withTimes
  cases query.query <;> rfl

variable {result : QueryDatasetRequest}

theorem index_merged {name : String} {op : Operator} {time : TimeInt}
    (h : replaceTimeInQuery query name time op synthesizeLatestAt = .ok result) :
    (∀ id, result.Lists id ↔ query.Lists id) ∧ Sums result.times (Way.index query name op time).times := by
  unfold replaceTimeInQuery timelineNameTryNew at h
  unfold Way.times
  split at h
  · cases h
  · obtain ⟨timeline, htimeline, h⟩ := bind_eq_ok.mp h
    cases htimeline
    obtain ⟨range, htimes, h⟩ := bind_eq_ok.mp h
    rw [htimes]
    refine ⟨fun id => ?_, ?_⟩
    · rw [mergeQueriesAnd_lists h, withTimes_lists, and_self]
    · apply Sums.merge (sums_toList query.times) _ h
      rw [withTimes_times]
      exact sums_toList (some (.range ⟨⟨name⟩, range⟩))

theorem Way.merged_spec {way : Way} (h : way.merged synthesizeLatestAt = .ok result) :
    (∀ id, result.Lists id ↔ way.TakesSegment id) ∧ Sums result.times way.times := by
  induction way generalizing result with
  | base query =>
    cases h
    exact ⟨fun id => Iff.rfl, sums_toList _⟩
  | segment query id =>
    cases h
    refine ⟨fun id' => ?_, sums_toList query.times⟩
    simp [QueryDatasetRequest.Lists, Way.TakesSegment]
  | index query name op time => exact index_merged h
  | and left right ihl ihr =>
    obtain ⟨l, hl, h⟩ := bind_eq_ok.mp h
    obtain ⟨r, hr, h⟩ := bind_eq_ok.mp h
    obtain ⟨hlSegments, hlTimes⟩ := ihl hl
    obtain ⟨hrSegments, hrTimes⟩ := ihr hr
    refine ⟨fun id => ?_, hlTimes.merge hrTimes h⟩
    rw [mergeQueriesAnd_lists h, hlSegments, hrSegments, Way.TakesSegment]

theorem Way.merged_admits_iff {way : Way}
    (h : way.merged synthesizeLatestAt = .ok result) : result.Admits row ↔ way.LetsIn row := by
  obtain ⟨hsegments, htimes⟩ := Way.merged_spec h
  rw [admits_iff_times, hsegments, htimes.admits_iff, Way.LetsIn]

end Admits

/-! ## The results are the ways -/

/-- The result is what the ways are merged to, and they are ways over the queries. -/
def Follows (synthesizeLatestAt : Bool) (queries : List QueryDatasetRequest) (pushed : Pushed)
    (ways : Option (List Way)) : Prop :=
  ∀ answer, pushed = .ok answer → (answer = none ∧ ways = none) ∨
    ∃ results through, answer = some results ∧ ways = some through ∧
      (∀ way ∈ through, way.Over queries ∧ ∃ result ∈ results, way.merged synthesizeLatestAt = .ok result) ∧
      ∀ result ∈ results, ∃ way ∈ through, way.merged synthesizeLatestAt = .ok result

section Follows

variable {schema : List Field} {synthesizeLatestAt : Bool} {queries : List QueryDatasetRequest}
  {onLeft onRight : Pushed} {left right : Option (List Way)}

theorem follows_none : Follows synthesizeLatestAt queries (.ok none) none := by
  intro answer h
  exact .inl ⟨(Except.ok.inj h).symm, rfl⟩

theorem follows_error {e : DataFusionError} {ways : Option (List Way)} :
    Follows synthesizeLatestAt queries (.error e) ways := by
  intro answer h
  cases h

theorem follows_mapM {f : QueryDatasetRequest → Except DataFusionError QueryDatasetRequest}
    {g : QueryDatasetRequest → Way} (hover : ∀ query ∈ queries, (g query).Over queries)
    (h : ∀ query ∈ queries, (g query).merged synthesizeLatestAt = f query) :
    Follows synthesizeLatestAt queries (some <$> queries.mapM f) (some (queries.map g)) := by
  intro answer hanswer
  obtain ⟨results, hmap, hsome⟩ := map_eq_ok.mp hanswer
  refine .inr ⟨results, queries.map g, hsome.symm, rfl, fun way hway => ?_, fun result hresult => ?_⟩
  · obtain ⟨a, ha, rfl⟩ := mem_map.mp hway
    obtain ⟨result, hresult, hf⟩ := mem_of_mapM_ok hmap ha
    exact ⟨hover a ha, result, hresult, (h a ha).trans hf⟩
  · obtain ⟨a, ha, hf⟩ := exists_of_mem_mapM_ok hmap hresult
    exact ⟨g a, mem_map_of_mem ha, (h a ha).trans hf⟩

theorem follows_base : Follows synthesizeLatestAt queries (.ok (some queries)) (some (queries.map Way.base)) := by
  intro answer h
  refine .inr ⟨queries, queries.map Way.base, (Except.ok.inj h).symm, rfl, fun way hway => ?_,
    fun result hresult => ⟨.base result, mem_map_of_mem hresult, rfl⟩⟩
  obtain ⟨query, hquery, rfl⟩ := mem_map.mp hway
  exact ⟨hquery, query, hquery, rfl⟩

theorem follows_comparison {left right : Expr} {op : Operator} :
    Follows synthesizeLatestAt queries (applyOperator schema synthesizeLatestAt left op right queries)
      (comparisonWays schema queries left op right) := by
  unfold comparisonWays
  split
  · next hpushed =>
    unfold comparisonPushed at hpushed
    generalize harranged : arrangeBinaryExprAsColOnLeft left op right = arranged at hpushed ⊢
    obtain ⟨left', op', right'⟩ := arranged
    obtain ⟨hop, hknown⟩ := Bool.and_eq_true_iff.mp hpushed
    rw [applyOperator_of_pushed harranged hop, applyComparison]
    cases hcolumn : knownFilterColumn left' right' schema with
    | index name time =>
      simp only [hcolumn]
      exact follows_mapM (fun query hquery => hquery) fun query _ => rfl
    | segmentId id =>
      rw [hcolumn] at hknown
      simp only [hcolumn, if_pos (of_decide_eq_true hknown)]
      intro answer h
      refine .inr ⟨_, _, (Except.ok.inj h).symm, rfl, fun way hway => ?_, fun result hresult => ?_⟩
      · obtain ⟨query, hquery, rfl⟩ := mem_map.mp hway
        exact ⟨hquery, _, mem_map_of_mem hquery, rfl⟩
      · obtain ⟨query, hquery, rfl⟩ := mem_map.mp hresult
        exact ⟨.segment query id, mem_map_of_mem hquery, rfl⟩
    | unknown =>
      rw [hcolumn] at hknown
      cases hknown
  · next hpushed =>
    intro answer h
    cases answer with
    | none => exact .inl ⟨rfl, rfl⟩
    | some results => exact absurd h (applyOperator_ne_some (Bool.not_eq_true _ ▸ hpushed) results)

theorem follows_and (hl : Follows synthesizeLatestAt queries onLeft left)
    (hr : Follows synthesizeLatestAt queries onRight right) :
    Follows synthesizeLatestAt queries (applyAnd synthesizeLatestAt onLeft onRight) (andWays left right) := by
  intro answer h
  obtain ⟨l, rfl, hright⟩ := bind_eq_ok.mp h
  obtain ⟨r, rfl, h⟩ := bind_eq_ok.mp hright
  obtain ⟨rfl, rfl⟩ | ⟨leftResults, leftWays, rfl, rfl, hlall, hlfrom⟩ := hl l rfl
  · refine hr answer (Eq.trans ?_ h)
    cases r <;> rfl
  · obtain ⟨rfl, rfl⟩ | ⟨rightResults, rightWays, rfl, rfl, hrall, hrfrom⟩ := hr r rfl
    · cases h
      exact hl _ rfl
    · have hmerged : ∀ l r lq rq, l.merged synthesizeLatestAt = .ok lq → r.merged synthesizeLatestAt = .ok rq →
          (Way.and l r).merged synthesizeLatestAt = mergeQueriesAnd lq rq synthesizeLatestAt := by
        intro l r lq rq hlq hrq
        rw [Way.merged, hlq, hrq]
        rfl
      obtain ⟨results, hmap, hsome⟩ := map_eq_ok.mp h
      refine .inr ⟨results, _, hsome.symm, rfl, fun way hway => ?_, fun result hresult => ?_⟩
      · obtain ⟨⟨l, r⟩, hpair, rfl⟩ := mem_map.mp hway
        obtain ⟨hl, hr⟩ := mem_product.mp hpair
        obtain ⟨hlover, lq, hlq, hlm⟩ := hlall l hl
        obtain ⟨hrover, rq, hrq, hrm⟩ := hrall r hr
        obtain ⟨result, hresult, hf⟩ := mem_of_mapM_ok hmap (mem_product.mpr ⟨hlq, hrq⟩)
        exact ⟨⟨hlover, hrover⟩, result, hresult, (hmerged l r lq rq hlm hrm).trans hf⟩
      · obtain ⟨⟨lq, rq⟩, hpair, hf⟩ := exists_of_mem_mapM_ok hmap hresult
        obtain ⟨hlq, hrq⟩ := mem_product.mp hpair
        obtain ⟨l, hl, hlm⟩ := hlfrom lq hlq
        obtain ⟨r, hr, hrm⟩ := hrfrom rq hrq
        exact ⟨.and l r, mem_map.mpr ⟨(l, r), mem_product.mpr ⟨hl, hr⟩, rfl⟩, (hmerged l r lq rq hlm hrm).trans hf⟩

theorem follows_or (hl : Follows synthesizeLatestAt queries onLeft left)
    (hr : Follows synthesizeLatestAt queries onRight right) :
    Follows synthesizeLatestAt queries (applyOr queries onLeft onRight) (orWays queries left right) := by
  intro answer h
  obtain ⟨l, rfl, hright⟩ := bind_eq_ok.mp h
  obtain ⟨rfl, rfl⟩ | ⟨leftResults, leftWays, rfl, rfl, hlall, hlfrom⟩ := hl l rfl
  · exact follows_base answer h
  · obtain ⟨r, rfl, h⟩ := bind_eq_ok.mp hright
    obtain ⟨rfl, rfl⟩ | ⟨rightResults, rightWays, rfl, rfl, hrall, hrfrom⟩ := hr r rfl
    · exact follows_base answer h
    · refine .inr ⟨leftResults ++ rightResults, leftWays ++ rightWays, (Except.ok.inj h).symm, rfl,
        fun way hway => ?_, fun result hresult => ?_⟩
      · obtain hway | hway := mem_append.mp hway
        · obtain ⟨hover, result, hresult, hm⟩ := hlall way hway
          exact ⟨hover, result, mem_append_left _ hresult, hm⟩
        · obtain ⟨hover, result, hresult, hm⟩ := hrall way hway
          exact ⟨hover, result, mem_append_right _ hresult, hm⟩
      · obtain hresult | hresult := mem_append.mp hresult
        · obtain ⟨way, hway, hm⟩ := hlfrom result hresult
          exact ⟨way, mem_append_left _ hway, hm⟩
        · obtain ⟨way, hway, hm⟩ := hrfrom result hresult
          exact ⟨way, mem_append_right _ hway, hm⟩

theorem follows_apply {expr : Expr} : Follows synthesizeLatestAt queries
    (applyFilterExprToQueries schema synthesizeLatestAt expr queries) (ways schema queries expr) := by
  induction expr using Expr.parts with
  | aliased expr name ih => exact ih
  | binaryExpr left op right ihl ihr =>
    unfold applyFilterExprToQueries ways
    cases op with
    | and =>
      dsimp only
      split
      · exact follows_and ihl ihr
      · exact follows_and ihr ihl
    | or =>
      dsimp only
      split
      · exact follows_or ihl ihr
      · exact follows_or ihr ihl
    | _ => exact follows_comparison
  | between expr negated low high =>
    unfold applyFilterExprToQueries ways
    split
    · exact follows_none
    · exact follows_and follows_comparison follows_comparison
  | inList expr list negated =>
    cases list with
    | nil => exact follows_error
    | cons first rest =>
      -- The chain of `OR`s follows whatever its start follows.
      have hchain : ∀ (pushed : Pushed) (start : Option (List Way)), Follows synthesizeLatestAt queries pushed start →
          Follows synthesizeLatestAt queries
            (rest.foldl (fun acc item => applyOr queries
              (applyOperator schema synthesizeLatestAt expr .eq item queries) acc) pushed)
            (rest.foldl (fun acc item => orWays queries (comparisonWays schema queries expr .eq item) acc)
              start) := by
        induction rest with
        | nil => exact fun _ _ h => h
        | cons item rest ih => exact fun _ _ h => ih _ _ (follows_or follows_comparison h)
      exact hchain _ _ follows_comparison
  | column | literal | not | other =>
    exact follows_none

end Follows

end Dalaran.Pushdown
