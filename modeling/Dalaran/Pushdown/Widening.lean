import Dalaran.Pushdown.Ways

/-
  Which rows a filter brings in.

  Merging and index comparisons intersect, so a way through the filter that lets a
  row in has it from a base query. The equality with a segment replaces the segments
  of its base query (`Way.Overrides`), and the ways with such an equality are the
  only ones that bring in rows (`Way.narrows`).
-/

namespace Dalaran.Pushdown

open List Option

/-! ## What holds on a way holds on a part of it -/

section Narrows

variable {row : Row}

theorem HoldsAll.of_append {left right : List Times} (h : HoldsAll row (left ++ right)) :
    HoldsAll row left ∨ HoldsAll row right := by
  unfold HoldsAll at *
  rw [List.find?_append] at h
  cases hl : left.find? Times.isSpecific with
  | some specific =>
    rw [hl] at h
    exact .inl h
  | none =>
    rw [hl, none_or] at h
    cases hr : right.find? Times.isSpecific with
    | some specific =>
      rw [hr] at h
      exact .inr h
    | none =>
      rw [hr] at h
      exact .inl fun t ht => h t (mem_append_left _ ht)

theorem HoldsAll.of_concat {restrictions : List Times} {range : QueryRange}
    (h : HoldsAll row (restrictions ++ [.range range])) : HoldsAll row restrictions := by
  unfold HoldsAll at *
  rw [List.find?_append] at h
  cases hfind : restrictions.find? Times.isSpecific with
  | some specific =>
    rw [hfind] at h
    exact h
  | none =>
    rw [hfind] at h
    intro t ht
    exact h t (mem_append_left _ ht)

theorem admits_of_holdsAll {query : QueryDatasetRequest} (hlists : query.Lists row.segmentId)
    (h : HoldsAll row query.times.toList) : query.Admits row :=
  admits_iff_times.mpr ⟨hlists, (sums_toList query.times).admits_iff.mpr h⟩

/-- A way that overrides no list has its rows from a base query: a merge holds a row only where one of
its sides does. -/
theorem Way.narrows {way : Way} {queries : List QueryDatasetRequest} (hover : way.Over queries)
    (hoverrides : ¬ way.Overrides) (h : way.LetsIn row) : ∃ query ∈ queries, query.Admits row := by
  obtain ⟨hsegment, htimes⟩ := h
  induction way with
  | base query => exact ⟨query, hover, admits_of_holdsAll hsegment htimes⟩
  | segment query id =>
    have hlists : query.Lists row.segmentId := by
      rw [show row.segmentId = id from hsegment]
      exact not_not.mp hoverrides
    exact ⟨query, hover, admits_of_holdsAll hlists htimes⟩
  | index query name op time =>
    refine ⟨query, hover, admits_of_holdsAll hsegment ?_⟩
    unfold Way.times at htimes
    split at htimes
    · exact htimes.of_concat
    · exact htimes
  | and left right ihl ihr =>
    obtain ⟨hl, hr⟩ := not_or.mp hoverrides
    obtain htimes | htimes := htimes.of_append
    · exact ihl hover.1 hl hsegment.1 htimes
    · exact ihr hover.2 hr hsegment.2 htimes

end Narrows

/-! ## Rows that are brought in -/

section Widening

variable {schema : List Field} {synthesizeLatestAt : Bool} {queries results : List QueryDatasetRequest}
  {expr : Expr} {row : Row}

theorem exists_admits_iff
    (h : applyFilterExprToQueries schema synthesizeLatestAt expr queries = .ok (some results)) :
    ∃ through, ways schema queries expr = some through ∧ (∀ way ∈ through, way.Over queries) ∧
      ∀ row : Row, (∃ result ∈ results, result.Admits row) ↔ ∃ way ∈ through, way.LetsIn row := by
  obtain ⟨hnone, -⟩ | ⟨_, through, hresults, hways, hall, hfrom⟩ := follows_apply _ h
  · cases hnone
  · cases hresults
    refine ⟨through, hways, fun way hway => (hall way hway).1, fun row => ⟨fun hadmitted => ?_, fun hway => ?_⟩⟩
    · obtain ⟨result, hresult, hadmits⟩ := hadmitted
      obtain ⟨way, hway, hmerged⟩ := hfrom result hresult
      exact ⟨way, hway, (Way.merged_admits_iff hmerged).mp hadmits⟩
    · obtain ⟨way, hway, hlets⟩ := hway
      obtain ⟨-, result, hresult, hmerged⟩ := hall way hway
      exact ⟨result, hresult, (Way.merged_admits_iff hmerged).mpr hlets⟩

/-- A filter brings in no row that the base queries exclude, exactly when the ways that let a row in by
overriding a list of segments let in rows that some base query admits anyway. -/
theorem apply_widens_iff (E : Engine) (schema : List Field) (synthesizeLatestAt : Bool) (expr : Expr)
    (queries results : List QueryDatasetRequest)
    (h : applyFilterExprToQueries schema synthesizeLatestAt expr queries = .ok (some results)) :
    (∀ row : Row, expr.Satisfied E schema row → (∃ result ∈ results, result.Admits row) →
      ∃ query ∈ queries, query.Admits row) ↔
    ∀ row : Row, expr.Satisfied E schema row → ∀ way ∈ (ways schema queries expr).getD [],
      way.Overrides → way.LetsIn row → ∃ query ∈ queries, query.Admits row := by
  obtain ⟨through, hways, hover, hiff⟩ := exists_admits_iff h
  rw [hways, getD_some]
  constructor
  · intro hnarrow row hsat way hway _ hlets
    exact hnarrow row hsat ((hiff row).mpr ⟨way, hway, hlets⟩)
  · intro hoverriding row hsat hadmitted
    obtain ⟨way, hway, hlets⟩ := (hiff row).mp hadmitted
    by_cases hoverrides : way.Overrides
    · exact hoverriding row hsat way hway hoverrides hlets
    · exact Way.narrows (hover way hway) hoverrides hlets

end Widening

/-! A scan of one segment, and a filter for one. -/

def segmentEq (id : String) : Expr :=
  .binaryExpr (.column "dalaran_segment_id") .eq (segmentLiteral id)

def segmentScan (id : String) : QueryDatasetRequest := ⟨[id], none⟩

theorem apply_segmentEq (scanned id : String) :
    applyFilterExprToQueries [] false (segmentEq id) [segmentScan scanned] = .ok (some [segmentScan id]) := rfl

/-- A scan of the segment that the filter names is not widened. -/
theorem apply_widens_iff_segment : (segmentEq "a").Satisfied nullEngine [] (rowAtFrame 0) ∧
    ∃ query ∈ [segmentScan "a"], query.Admits (rowAtFrame 0) := by
  refine ⟨rfl, (apply_widens_iff nullEngine [] false (segmentEq "a") [segmentScan "a"] [segmentScan "a"]
    (apply_segmentEq "a" "a")).mpr ?_ (rowAtFrame 0) rfl
      ⟨segmentScan "a", mem_singleton_self _, .inr (mem_singleton_self "a"), fun _ h => nomatch h⟩⟩
  intro row hsat way hway hoverrides
  have hways : ways [] [segmentScan "a"] (segmentEq "a") = some [.segment (segmentScan "a") "a"] := rfl
  obtain rfl := mem_singleton.mp hway
  exact absurd (.inr (mem_singleton_self "a")) hoverrides

/-- The scan of the segment `b` admits no row of `a`, and a filter for `a` brings them in. -/
theorem apply_widens : ¬ ∀ (E : Engine) (schema : List Field) (synthesizeLatestAt : Bool) (expr : Expr)
    (queries results : List QueryDatasetRequest),
    applyFilterExprToQueries schema synthesizeLatestAt expr queries = .ok (some results) →
      ∀ row : Row, expr.Satisfied E schema row → (∃ result ∈ results, result.Admits row) →
        ∃ query ∈ queries, query.Admits row := by
  intro h
  have hsat : (segmentEq "a").Satisfied nullEngine [] (rowAtFrame 0) := rfl
  obtain ⟨query, hquery, hadmits⟩ := h nullEngine [] false (segmentEq "a") [segmentScan "b"]
    [segmentScan "a"] (apply_segmentEq "b" "a") (rowAtFrame 0) hsat
    ⟨segmentScan "a", mem_singleton_self _, .inr (mem_singleton_self "a"), fun _ h => nomatch h⟩
  obtain rfl := mem_singleton.mp hquery
  obtain hnil | hmem := hadmits.1
  · cases hnil
  · exact absurd (mem_singleton.mp hmem) (by decide)

end Dalaran.Pushdown
