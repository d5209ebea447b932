import Dalaran.Pushdown.Semantics

/-
  Which filters keep their rows.

  Merging keeps the rows that both queries admit (`mergeQueriesAnd_admits`), and so
  does every comparison whose literal is read as the number it is. Two readings go
  wrong. An `IN` is read the same whether it is negated or not, and the time of a
  literal in seconds, milliseconds or microseconds can leave the 64 bits of
  nanoseconds. `ReadRight` is a filter with neither at a place that the pushdown
  gets to, and it keeps its rows (`apply_keeps_rows`).
-/

namespace Dalaran.Pushdown

open List Bool Option Operator Pushdown.Expr
open Collect (bind_eq_ok map_eq_ok)

/-! ## Merging keeps what both queries admit -/

section Merge

variable {row : Row} {synthesizeLatestAt : Bool}

theorem computeRangeOverlap_admits {left right range : QueryRange}
    (h : computeRangeOverlap left right = .ok range) (hl : left.Admits row) (hr : right.Admits row) :
    range.Admits row := by
  unfold computeRangeOverlap at h
  split at h
  · cases h
  · rename_i hindex
    split at h
    · cases h
    · obtain ⟨time, htime, hmin, hmax⟩ := hl
      obtain ⟨time', htime', hmin', hmax'⟩ := hr
      rw [← not_not.mp hindex, htime] at htime'
      cases htime'
      cases h
      exact ⟨time, htime, max_le hmin hmin', le_min hmax hmax'⟩

theorem mergeSegmentIds_mem {left right merged : List String} {id : String}
    (h : mergeSegmentIds left right = .ok merged) (hl : left = [] ∨ id ∈ left)
    (hr : right = [] ∨ id ∈ right) : merged = [] ∨ id ∈ merged := by
  unfold mergeSegmentIds at h
  split at h
  · cases h
    exact hl
  · rename_i hright
    have hidr : id ∈ right := hr.resolve_left fun hnil => hright (by simp [hnil])
    split at h
    · cases h
      exact Or.inr hidr
    · rename_i hleft
      have hidl : id ∈ left := hl.resolve_left fun hnil => hleft (by simp [hnil])
      simp only at h
      split at h
      · cases h
      · cases h
        exact Or.inr (mem_filter.mpr ⟨hidl, contains_iff_mem.mpr hidr⟩)

theorem mergeTimes_admits {left right merged : Query}
    (h : mergeTimes left right synthesizeLatestAt = .ok merged) (hl : left.Admits row)
    (hr : right.Admits row) : merged.Admits row := by
  unfold mergeTimes at h
  split at h
  · rename_i lr rr hlr hrr
    obtain ⟨range, hoverlap, h⟩ := bind_eq_ok.mp h
    cases h
    rw [Query.Admits, hlr] at hl
    rw [Query.Admits, hrr] at hr
    exact computeRangeOverlap_admits hoverlap hl hr
  · rename_i lr rla hlr hrla hrr
    split at h
    · cases h
      rw [Query.Admits, hrla, hrr] at hr
      exact hr
    · cases h
  · split at h
    · cases h
      exact hl
    · cases h
  · split at h
    · cases h
    · cases h
      exact hl
  · cases h
    exact hl
  · cases h
    exact hr

theorem mergeQueriesAnd_parts {left right merged : QueryDatasetRequest}
    (h : mergeQueriesAnd left right synthesizeLatestAt = .ok merged) :
    mergeSegmentIds left.segmentIds right.segmentIds = .ok merged.segmentIds ∧
      ((∃ lq rq mq, left.query = some lq ∧ right.query = some rq ∧ merged.query = some mq ∧
        mergeTimes lq rq synthesizeLatestAt = .ok mq) ∨
      (left.query = none ∧ merged.query = right.query) ∨
      right.query = none ∧ merged.query = left.query) := by
  obtain ⟨segments, hsegments, h⟩ := bind_eq_ok.mp h
  cases hrq : right.query with
  | none =>
    rw [hrq] at h
    cases h
    exact ⟨hsegments, .inr (.inr ⟨rfl, rfl⟩)⟩
  | some rq =>
    cases hlq : left.query with
    | none =>
      rw [hrq, hlq] at h
      cases h
      exact ⟨hsegments, .inr (.inl ⟨rfl, rfl⟩)⟩
    | some lq =>
      rw [hrq, hlq] at h
      obtain ⟨query, hquery, h⟩ := bind_eq_ok.mp h
      obtain ⟨times, htimes, rfl⟩ := map_eq_ok.mp hquery
      cases h
      exact ⟨hsegments, .inl ⟨lq, rq, times, rfl, rfl, rfl, htimes⟩⟩

theorem mergeQueriesAnd_admits {left right merged : QueryDatasetRequest}
    (h : mergeQueriesAnd left right synthesizeLatestAt = .ok merged) (hl : left.Admits row)
    (hr : right.Admits row) : merged.Admits row := by
  obtain ⟨hsegments, htimes⟩ := mergeQueriesAnd_parts h
  refine ⟨mergeSegmentIds_mem hsegments hl.1 hr.1, fun query hquery => ?_⟩
  rcases htimes with ⟨lq, rq, mq, hlq, hrq, hmq, htimes⟩ | ⟨-, heq⟩ | ⟨-, heq⟩
  · cases hmq.symm.trans hquery
    exact mergeTimes_admits htimes (hl.2 lq hlq) (hr.2 rq hrq)
  · exact hr.2 query (heq.symm.trans hquery)
  · exact hl.2 query (heq.symm.trans hquery)

end Merge

/-! ## Reading a literal -/

/-- Whether a literal is scaled to nanoseconds. -/
def ScalarValue.isTime : ScalarValue → Bool
  | .timestamp .. | .duration .. => true
  | _ => false

/-- Whether a number is on the side of the 64 bits where a comparison with it still says something. -/
def Operator.Fits (op : Operator) (n : Int) : Prop :=
  match op with
  | .gt | .gtEq => -9223372036854775808 ≤ n
  | .lt | .ltEq => n ≤ 9223372036854775807
  | _ => True

/-- Scaling the literal to nanoseconds does not carry it across the end it bounds. -/
def ScalarValue.FitsFor (op : Operator) (value : ScalarValue) : Prop :=
  value.isTime = true → ∀ n, value.exact = some n → op.Fits n

/-- The number that a time is compared with: `time op n`, leniently. -/
def Operator.Within (op : Operator) (time n : Int) : Prop :=
  match op with
  | .eq => time = n
  | .gt | .gtEq => n ≤ time
  | .lt | .ltEq => time ≤ n
  | _ => False

variable {op : Operator}

theorem within_of_test {time n : Int} (hop : op ≠ .notEq) (h : op.test time n = true) : op.Within time n := by
  cases op with
  | eq => simpa [test, Within] using h
  | notEq => exact absurd rfl hop
  | lt | gt => exact (of_decide_eq_true h).le
  | ltEq | gtEq => simpa [test, Within] using h
  | and | or | other => exact absurd h Bool.false_ne_true

theorem within_of_test_arranged {time n : Int} (hop : op ≠ .notEq)
    (h : op.test n time = true) : op.arranged.Within time n := by
  cases op with
  | eq => simpa [test, Within, arranged, eq_comm] using h
  | notEq => exact absurd rfl hop
  | lt | gt => exact (of_decide_eq_true h).le
  | ltEq | gtEq => simpa [test, Within, arranged] using h
  | and | or | other => exact absurd h Bool.false_ne_true

variable {value : ScalarValue}

theorem indexValue_cases {word : I64} (h : value.indexValue = some word) :
    ∃ n, value.exact = some n ∧
      (word = I64.sat n ∧ -9223372036854775808 ≤ n ∨ word = I64.wrap n ∧ value.isTime = true) := by
  cases value with
  | utf8 | utf8View | largeUtf8 | other => cases h
  | uint8 v | uint16 v | uint32 v | uint64 v =>
    obtain ⟨v, rfl, rfl⟩ := map_eq_some_iff.mp h
    exact ⟨v.toNat, rfl, Or.inl ⟨rfl, by omega⟩⟩
  | int8 v | int16 v | int32 v =>
    obtain ⟨v, rfl, rfl⟩ := map_eq_some_iff.mp h
    exact ⟨v.toInt, rfl, Or.inl ⟨rfl, by have := v.le_toInt; omega⟩⟩
  | int64 v =>
    obtain rfl : v = some word := h
    refine ⟨word.val, rfl, Or.inl ⟨I64.val_injective ?_, word.lo⟩⟩
    have hlo := word.lo
    have hhi := word.hi
    rw [I64.sat_val]
    omega
  | timestamp unit v | duration unit v =>
    obtain ⟨v, rfl, rfl⟩ := map_eq_some_iff.mp h
    exact ⟨v.val * unit.nanos, rfl, Or.inr ⟨rfl, rfl⟩⟩

variable {time : TimeInt}

theorem newTemporal_val_of_within {word : I64} {n : Int} (hword : value.indexValue = some word)
    (hn : value.exact = some n) (hfits : value.FitsFor op) (htime : TimeInt.MIN ≤ time)
    (hwithin : op.Within time.asI64.val n) :
    (TimeInt.newTemporal word).asI64.val =
      max (-9223372036854775807) (max (-9223372036854775808) (min n 9223372036854775807)) := by
  have hmin : -9223372036854775807 ≤ time.asI64.val := htime
  have hmax : time.asI64.val ≤ 9223372036854775807 := time.asI64.hi
  obtain ⟨n', hn', hcases⟩ := indexValue_cases hword
  obtain rfl : n = n' := mem_unique hn hn'
  rw [TimeInt.newTemporal_val]
  rcases hcases with ⟨rfl, -⟩ | ⟨rfl, htemporal⟩
  · rw [I64.sat_val]
  · have hop := hfits htemporal n hn
    have hbounds : -9223372036854775808 ≤ n ∧ n ≤ 9223372036854775807 := by
      cases op with
      | eq | lt | ltEq | gt | gtEq =>
        simp only [Within, Fits] at hwithin hop
        omega
      | notEq | and | or | other => exact absurd hwithin id
    rw [I64.wrap_of_fits hbounds.1 hbounds.2]
    omega

theorem timesOf_contains {word : I64} {n : Int} {range : AbsoluteTimeRange} (hword : value.indexValue = some word)
    (hn : value.exact = some n) (hfits : value.FitsFor op)
    (hrange : timesOf op (TimeInt.newTemporal word) = .ok range) (htime : TimeInt.MIN ≤ time)
    (hwithin : op.Within time.asI64.val n) :
    range.min ≤ time ∧ time ≤ range.max := by
  have hval := newTemporal_val_of_within hword hn hfits htime hwithin
  have hmin : -9223372036854775807 ≤ time.asI64.val := htime
  have hmax : time.asI64.val ≤ 9223372036854775807 := time.asI64.hi
  cases op with
  | eq | lt | ltEq | gt | gtEq =>
    cases hrange
    simp only [Within] at hwithin
    simp only [TimeInt.le_def, TimeInt.MIN_val, TimeInt.MAX_val]
    omega
  | notEq | and | or | other => cases hrange

/-! ## Reading a comparison -/

section Read

variable {E : Engine} {schema : List Field} {row : Row} {synthesizeLatestAt : Bool}
  {queries : List QueryDatasetRequest} {left right : Expr} {op : Operator}

theorem knownFilterColumn_index {name : String} (h : knownFilterColumn left right schema = .index name time) :
    left = .column name ∧ name ≠ "dalaran_segment_id" ∧ isTimeIndex name schema = true ∧
      ∃ value word, right.toLiteralScalar = some value ∧ value.indexValue = some word ∧
        time = TimeInt.newTemporal word := by
  unfold knownFilterColumn at h
  split at h
  · rename_i name' value hvalue
    split at h
    · split at h <;> cases h
    · rename_i hname
      split at h
      · rename_i hindex
        split at h
        · rename_i word hword
          cases h
          exact ⟨rfl, hname, hindex, value, word, hvalue, hword, rfl⟩
        · cases h
      · cases h
  · cases h

theorem knownFilterColumn_segmentId {id : String}
    (h : knownFilterColumn left right schema = .segmentId id) :
    left = .column "dalaran_segment_id" ∧ ∃ value, right.toLiteralScalar = some value ∧ value.text = some id := by
  unfold knownFilterColumn at h
  split at h
  · rename_i name' value hvalue
    split at h
    · rename_i hname
      split at h
      · rename_i id' hid
        cases h
        exact ⟨by rw [hname], value, hvalue, hid⟩
      · cases h
    · split at h
      · split at h <;> cases h
      · cases h
  · cases h

theorem eval_of_toLiteralScalar {expr : Expr}
    (h : expr.toLiteralScalar = some value) : expr.eval E schema row = value.datum E row := by
  induction expr using parts with
  | literal v =>
    cases h
    rw [eval]
  | aliased expr name ih =>
    exact ih h
  | column | binaryExpr | not | between | inList | other => cases h

theorem datum_of_exact {n : Int} (h : value.exact = some n) : value.datum E row = .number n := by
  unfold ScalarValue.datum
  cases value with
  | utf8 | utf8View | largeUtf8 | other => cases h
  | _ => simp [h, ScalarValue.text]

theorem datum_of_text {id : String} (h : value.text = some id) : value.datum E row = .text id := by
  unfold ScalarValue.datum
  rw [h]

theorem column_of_index {name : String} (hname : name ≠ "dalaran_segment_id")
    (hindex : isTimeIndex name schema = true) :
    row.column E schema name = (row.index ⟨name⟩).elim .null fun time => .number time.asI64.val := by
  simp only [Row.column, if_neg hname, hindex, if_true]
  cases row.index ⟨name⟩ <;> rfl

/-- What a comparison with its column on the left says of a row. -/
def Reads (schema : List Field) (row : Row) (left : Expr) (op : Operator) (right : Expr) : Prop :=
  match knownFilterColumn left right schema with
  | .index name time => ∃ t, row.index ⟨name⟩ = some t ∧
      ∀ range, timesOf op time = .ok range → range.min ≤ t ∧ t ≤ range.max
  | .segmentId id => op = .eq → row.segmentId = id
  | .unknown => True

/-- The literals of a comparison fit, where they are times the pushdown reads. -/
def ComparisonFits (schema : List Field) (left : Expr) (op : Operator) (right : Expr) : Prop :=
  match arrangeBinaryExprAsColOnLeft left op right with
  | (left, op, right) => match knownFilterColumn left right schema with
    | .index _ _ => ∀ value, right.toLiteralScalar = some value → value.FitsFor op
    | _ => True

theorem equality_fits (schema : List Field) (left right : Expr) : ComparisonFits schema left .eq right := by
  unfold ComparisonFits arrangeBinaryExprAsColOnLeft
  cases left.isColumn with
  | true =>
    simp only [if_true]
    split
    · exact fun value _ _ n _ => trivial
    · trivial
  | false =>
    simp only [false_eq_true, if_false, arranged]
    split
    · exact fun value _ _ n _ => trivial
    · trivial

theorem reads_index {name : String} (hknown : knownFilterColumn left right schema = .index name time)
    (hfits : ∀ value, right.toLiteralScalar = some value → value.FitsFor op)
    (hcompare : ∀ t n, row.index ⟨name⟩ = some t → right.eval E schema row = .number n →
      op.Within t.asI64.val n) (hindex : row.index ⟨name⟩ ≠ none) : Reads schema row left op right := by
  obtain ⟨-, -, -, value, word, hvalue, hword, rfl⟩ := knownFilterColumn_index hknown
  obtain ⟨n, hn, -⟩ := indexValue_cases hword
  obtain ⟨t, ht⟩ := ne_none_iff_exists'.mp hindex
  rw [Reads, hknown]
  refine ⟨t, ht, fun range hrange => ?_⟩
  refine timesOf_contains hword hn (hfits value hvalue) hrange (row.temporal _ t ht) ?_
  exact hcompare t n ht ((eval_of_toLiteralScalar hvalue).trans (datum_of_exact hn))

theorem reads_of_satisfied (hpushed : op.isPushed = true)
    (hfits : ComparisonFits schema left op right)
    (h : (Expr.binaryExpr left op right).Satisfied E schema row) :
    Reads schema row (arrangeBinaryExprAsColOnLeft left op right).1
      (arrangeBinaryExprAsColOnLeft left op right).2.1
      (arrangeBinaryExprAsColOnLeft left op right).2.2 := by
  have hne : op ≠ .notEq := by
    intro hop
    rw [hop] at hpushed
    exact Bool.false_ne_true hpushed
  rw [satisfied_comparison hpushed] at h
  by_cases hcolumn : left.isColumn = true
  · rw [ComparisonFits, arrangeBinaryExprAsColOnLeft, if_pos hcolumn] at hfits
    rw [arrangeBinaryExprAsColOnLeft, if_pos hcolumn]
    cases hknown : knownFilterColumn left right schema with
    | unknown =>
      rw [Reads, hknown]
      trivial
    | index name time =>
      simp only [hknown] at hfits
      obtain ⟨rfl, hname, hindex, -⟩ := knownFilterColumn_index hknown
      rw [eval, column_of_index hname hindex] at h
      refine reads_index (E := E) hknown hfits (fun t n ht hn => within_of_test hne ?_) (fun hnone => ?_)
      · rw [ht, hn] at h
        exact some.inj h
      · rw [hnone] at h
        exact absurd h (by simp [Engine.compare])
    | segmentId id =>
      obtain ⟨rfl, value, hvalue, hid⟩ := knownFilterColumn_segmentId hknown
      rw [Reads, hknown]
      intro heq
      obtain rfl := heq
      rw [eval, eval_of_toLiteralScalar hvalue, datum_of_text hid] at h
      exact of_decide_eq_true (some.inj h)
  · rw [ComparisonFits, arrangeBinaryExprAsColOnLeft, if_neg hcolumn] at hfits
    rw [arrangeBinaryExprAsColOnLeft, if_neg hcolumn]
    cases hknown : knownFilterColumn right left schema with
    | unknown =>
      rw [Reads, hknown]
      trivial
    | index name time =>
      simp only [hknown] at hfits
      obtain ⟨rfl, hname, hindex, -⟩ := knownFilterColumn_index hknown
      rw [eval, column_of_index hname hindex] at h
      refine reads_index (E := E) hknown hfits (fun t n ht hn => within_of_test_arranged hne ?_) (fun hnone => ?_)
      · rw [ht, hn] at h
        exact some.inj h
      · rw [hnone] at h
        exact absurd h (by cases left.eval E schema row <;> simp [Engine.compare])
    | segmentId id =>
      obtain ⟨rfl, value, hvalue, hid⟩ := knownFilterColumn_segmentId hknown
      rw [Reads, hknown]
      intro heq
      obtain rfl : op = .eq := by cases op <;> simp_all [arranged]
      rw [eval, eval_of_toLiteralScalar hvalue, datum_of_text hid] at h
      exact (of_decide_eq_true (some.inj h)).symm

end Read

/-! ## The arms keep their rows -/

/-- When one of the queries admits the row, one of the pushed ones does. -/
def Keeps (queries : List QueryDatasetRequest) (pushed : Pushed) (row : Row) : Prop :=
  ∀ results, pushed = .ok (some results) → (∃ query ∈ queries, query.Admits row) →
    ∃ result ∈ results, result.Admits row

section Arms

variable {schema : List Field} {row : Row} {synthesizeLatestAt : Bool}
  {queries : List QueryDatasetRequest} {left right : Expr} {op : Operator}

theorem none_ne_some (results : List QueryDatasetRequest) : (.ok none : Pushed) ≠ .ok (some results) := by
  intro h
  cases h

theorem error_ne_some {e : DataFusionError} (results : List QueryDatasetRequest) :
    (.error e : Pushed) ≠ .ok (some results) := by
  intro h
  cases h

theorem keeps_of_not_some {pushed : Pushed} (h : ∀ results, pushed ≠ .ok (some results)) :
    Keeps queries pushed row := fun results hresults => absurd hresults (h results)

theorem withTimes_admits {query : QueryDatasetRequest} {latestAt : Option QueryLatestAt}
    {range : QueryRange} (h : query.Admits row) (hrange : range.Admits row) :
    (query.withTimes latestAt range).Admits row := by
  unfold QueryDatasetRequest.withTimes
  cases query.query with
  | none =>
    refine ⟨h.1, fun q hq => ?_⟩
    cases hq
    exact hrange
  | some q =>
    refine ⟨h.1, fun q' hq => ?_⟩
    cases hq
    exact hrange

variable {t : TimeInt}

theorem replaceTimeInQuery_admits {query result : QueryDatasetRequest} {name : String}
    (h : replaceTimeInQuery query name time op synthesizeLatestAt = .ok result) (hq : query.Admits row)
    (ht : row.index ⟨name⟩ = some t) (hrange : ∀ range, timesOf op time = .ok range → range.min ≤ t ∧ t ≤ range.max) :
    result.Admits row := by
  unfold replaceTimeInQuery timelineNameTryNew at h
  split at h
  · cases h
  · obtain ⟨timeline, htimeline, h⟩ := bind_eq_ok.mp h
    cases htimeline
    obtain ⟨range, htimes, h⟩ := bind_eq_ok.mp h
    exact mergeQueriesAnd_admits h hq (withTimes_admits hq ⟨t, ht, hrange range htimes⟩)

theorem applyComparison_keeps (h : Reads schema row left op right) :
    Keeps queries (applyComparison schema synthesizeLatestAt left op right queries) row := by
  unfold applyComparison
  intro results hresults hadmitted
  obtain ⟨query, hquery, hadmits⟩ := hadmitted
  cases hknown : knownFilterColumn left right schema with
  | unknown =>
    rw [hknown] at hresults
    cases hresults
  | segmentId id =>
    rw [Reads, hknown] at h
    simp only [hknown] at hresults
    split at hresults
    · rename_i hop
      cases hresults
      refine ⟨_, mem_map_of_mem hquery, Or.inr ?_, hadmits.2⟩
      rw [h hop]
      exact mem_singleton_self id
    · cases hresults
  | index name time =>
    rw [Reads, hknown] at h
    obtain ⟨t, ht, hrange⟩ := h
    simp only [hknown] at hresults
    obtain ⟨results', hmap, hsome⟩ := map_eq_ok.mp hresults
    cases hsome
    obtain ⟨result, hresult, hreplaced⟩ := Collect.mem_of_mapM_ok hmap hquery
    exact ⟨result, hresult, replaceTimeInQuery_admits hreplaced hadmits ht hrange⟩

theorem applyOperator_keeps {E : Engine} (hfits : ComparisonFits schema left op right)
    (h : (Expr.binaryExpr left op right).Satisfied E schema row) :
    Keeps queries (applyOperator schema synthesizeLatestAt left op right queries) row := by
  cases hpushed : op.isPushed with
  | false =>
    rw [applyOperator_of_not_pushed hpushed]
    exact keeps_of_not_some none_ne_some
  | true =>
    have harranged : (arrangeBinaryExprAsColOnLeft left op right).2.1.isPushed = true := by
      rw [arrangeBinaryExprAsColOnLeft]
      split
      · exact hpushed
      · exact isPushed_arranged.trans hpushed
    rw [applyOperator_of_pushed rfl harranged]
    exact applyComparison_keeps (reads_of_satisfied hpushed hfits h)

theorem applyAnd_keeps {onLeft onRight : Pushed} (hl : Keeps queries onLeft row)
    (hr : Keeps queries onRight row) : Keeps queries (applyAnd synthesizeLatestAt onLeft onRight) row := by
  intro results hresults hadmitted
  obtain ⟨l, rfl, hright⟩ := bind_eq_ok.mp hresults
  obtain ⟨r, rfl, hresults⟩ := bind_eq_ok.mp hright
  cases l with
  | none =>
    cases r with
    | none => cases hresults
    | some rightQueries =>
      cases hresults
      exact hr results rfl hadmitted
  | some leftQueries =>
    cases r with
    | none =>
      cases hresults
      exact hl results rfl hadmitted
    | some rightQueries =>
      obtain ⟨lq, hlq, hladmits⟩ := hl leftQueries rfl hadmitted
      obtain ⟨rq, hrq, hradmits⟩ := hr rightQueries rfl hadmitted
      obtain ⟨merged, hmap, hsome⟩ := map_eq_ok.mp hresults
      cases hsome
      obtain ⟨result, hresult, hmerged⟩ := Collect.mem_of_mapM_ok hmap (mem_product.mpr ⟨hlq, hrq⟩)
      exact ⟨result, hresult, mergeQueriesAnd_admits hmerged hladmits hradmits⟩

theorem applyOr_keeps {onLeft onRight : Pushed}
    (h : (Keeps queries onLeft row ∨ Keeps queries onRight row) ∨
      (∀ results, onLeft ≠ .ok (some results)) ∨ ∀ results, onRight ≠ .ok (some results)) :
    Keeps queries (applyOr queries onLeft onRight) row := by
  intro results hresults hadmitted
  obtain ⟨l, rfl, hright⟩ := bind_eq_ok.mp hresults
  cases l with
  | none =>
    cases hresults
    exact hadmitted
  | some leftQueries =>
    obtain ⟨r, rfl, hresults⟩ := bind_eq_ok.mp hright
    cases r with
    | none =>
      cases hresults
      exact hadmitted
    | some rightQueries =>
      cases hresults
      rcases h with (h | h) | (h | h)
      · obtain ⟨result, hresult, hadmits⟩ := h leftQueries rfl hadmitted
        exact ⟨result, mem_append_left _ hresult, hadmits⟩
      · obtain ⟨result, hresult, hadmits⟩ := h rightQueries rfl hadmitted
        exact ⟨result, mem_append_right _ hresult, hadmits⟩
      · exact absurd rfl (h leftQueries)
      · exact absurd rfl (h rightQueries)

end Arms

/-! ## Filters that are read right -/

def comparisonPushed (schema : List Field) (left : Expr) (op : Operator) (right : Expr) : Bool :=
  match arrangeBinaryExprAsColOnLeft left op right with
  | (left, op, right) => op.isPushed && match knownFilterColumn left right schema with
    | .index _ _ => true
    | .segmentId _ => decide (op = .eq)
    | .unknown => false

/-- Whether an expression is pushed down, when it is no error. -/
def Expr.pushed (schema : List Field) : Expr → Bool
  | .alias expr _ => expr.pushed schema
  | .binaryExpr left op right =>
    match op with
    | .and => left.pushed schema || right.pushed schema
    | .or => true
    | _ => comparisonPushed schema left op right
  | .between expr negated low high =>
    !negated && (comparisonPushed schema expr .ltEq high || comparisonPushed schema expr .gtEq low)
  | .inList expr list _ =>
    match list with
    | [] => false
    | [item] => comparisonPushed schema expr .eq item
    | _ => true
  | _ => false

/-- No `IN` whose values are all pushed down is negated, and no literal leaves its 64 bits on the
side it bounds, at a place that the pushdown gets to: an `OR` with a side that is not pushed down
is not gone into. -/
def Expr.ReadRight (schema : List Field) : Expr → Prop
  | .alias expr _ => expr.ReadRight schema
  | .binaryExpr left op right =>
    match op with
    | .and => left.ReadRight schema ∧ right.ReadRight schema
    | .or => left.pushed schema = false ∨ right.pushed schema = false ∨
        left.ReadRight schema ∧ right.ReadRight schema
    | _ => ComparisonFits schema left op right
  | .between expr negated low high =>
    negated = true ∨ ComparisonFits schema expr .gtEq low ∧ ComparisonFits schema expr .ltEq high
  | .inList expr list negated =>
    negated = true → list = [] ∨ ∃ item ∈ list, comparisonPushed schema expr .eq item = false
  | _ => True

/-! A schema with one index, and rows on it. -/

def frameSchema : List Field := [⟨"frame", [(dalaranKind, "index")]⟩]

def frameLiteral (n : Int) : Expr := .literal (.int64 (some (I64.sat n)))

def rowAtFrame (n : Int) : Row where
  segmentId := "a"
  index := fun name => if name.name = "frame" then some (TimeInt.newTemporal (I64.sat n)) else none
  temporal := by
    intro name time h
    split at h
    · cases h
      exact TimeInt.MIN_le_newTemporal _
    · cases h

def nullEngine : Engine := ⟨fun _ _ => .null, fun _ _ _ => .null⟩

theorem default_admits (row : Row) : QueryDatasetRequest.default.Admits row := by
  refine ⟨Or.inl rfl, fun query hquery => ?_⟩
  cases hquery

theorem frame_fits (n : Int) : ComparisonFits frameSchema (.column "frame") .gtEq (frameLiteral n) := by
  intro value hvalue htime
  cases hvalue
  cases htime

section ReadRight

variable {E : Engine} {schema : List Field} {row : Row} {synthesizeLatestAt : Bool}
  {queries : List QueryDatasetRequest}

theorem applyOperator_ne_some {left right : Expr} (h : comparisonPushed schema left op right = false)
    (results : List QueryDatasetRequest) :
    applyOperator schema synthesizeLatestAt left op right queries ≠ .ok (some results) := by
  intro hresults
  unfold comparisonPushed at h
  unfold applyOperator at hresults
  revert h hresults
  generalize arrangeBinaryExprAsColOnLeft left op right = arranged
  obtain ⟨left', op', right'⟩ := arranged
  intro h hresults
  cases op' with
  | notEq | and | or | other => cases hresults
  | _ =>
    simp only [applyComparison] at hresults
    simp only [isPushed, Bool.true_and] at h
    cases hknown : knownFilterColumn left' right' schema with
    | index => simp [hknown] at h
    | segmentId => simp_all
    | unknown =>
      rw [hknown] at hresults
      cases hresults

theorem applyAnd_ne_some {onLeft onRight : Pushed} (hl : ∀ results, onLeft ≠ .ok (some results))
    (hr : ∀ results, onRight ≠ .ok (some results)) (results : List QueryDatasetRequest) :
    applyAnd synthesizeLatestAt onLeft onRight ≠ .ok (some results) := by
  intro h
  obtain ⟨l, rfl, hright⟩ := bind_eq_ok.mp h
  obtain ⟨r, rfl, h⟩ := bind_eq_ok.mp hright
  cases l with
  | some leftQueries => exact hl _ rfl
  | none =>
    cases r with
    | some rightQueries => exact hr _ rfl
    | none => cases h

theorem apply_ne_some {expr : Expr} (h : expr.pushed schema = false) : ∀ results,
    applyFilterExprToQueries schema synthesizeLatestAt expr queries ≠ .ok (some results) := by
  induction expr using parts with
  | aliased expr name ih => exact ih h
  | binaryExpr left op right ihl ihr =>
    cases op with
    | and =>
      simp only [pushed, or_eq_false_iff] at h
      simp only [applyFilterExprToQueries]
      split
      · exact applyAnd_ne_some (ihl h.1) (ihr h.2)
      · exact applyAnd_ne_some (ihr h.2) (ihl h.1)
    | or => exact absurd h.symm Bool.false_ne_true
    | _ => exact applyOperator_ne_some h
  | between expr negated low high =>
    cases negated with
    | true => exact none_ne_some
    | false =>
      simp only [pushed, Bool.not_false, Bool.true_and, or_eq_false_iff] at h
      exact applyAnd_ne_some (applyOperator_ne_some h.1) (applyOperator_ne_some h.2)
  | inList expr list negated =>
    cases list with
    | nil => exact error_ne_some
    | cons item rest =>
      cases rest with
      | nil => exact applyOperator_ne_some h
      | cons => exact absurd h.symm Bool.false_ne_true
  | column | literal | not | other => exact none_ne_some

theorem inList_keeps {expr first : Expr} {rest : List Expr} {negated : Bool}
    (h : ∃ item ∈ first :: rest,
      Keeps queries (applyOperator schema synthesizeLatestAt expr .eq item queries) row ∨
        comparisonPushed schema expr .eq item = false) :
    Keeps queries
      (applyFilterExprToQueries schema synthesizeLatestAt (.inList expr (first :: rest) negated) queries)
      row := by
  simp only [applyFilterExprToQueries]
  induction rest using reverseRecOn with
  | nil =>
    obtain ⟨item, hitem, h⟩ := h
    obtain rfl := mem_singleton.mp hitem
    exact h.elim id fun h => keeps_of_not_some (applyOperator_ne_some h)
  | append_singleton rest last ih =>
    rw [foldl_append, foldl_cons, foldl_nil]
    apply applyOr_keeps
    obtain ⟨item, hitem, h⟩ := h
    rw [← cons_append, mem_append, mem_singleton] at hitem
    rcases hitem with hitem | rfl
    · exact Or.inl (Or.inr (ih ⟨item, hitem, h⟩))
    · exact h.elim (fun h => Or.inl (Or.inl h)) fun h => Or.inr (Or.inl (applyOperator_ne_some h))

/-- A filter that is read right keeps the rows that satisfy it. One case for each form of the
expression; the two sides of `AND` and `OR` may come in either order. -/
theorem apply_keeps {expr : Expr} (h : expr.ReadRight schema) (hsat : expr.Satisfied E schema row) :
    Keeps queries (applyFilterExprToQueries schema synthesizeLatestAt expr queries) row := by
  induction expr using parts with
  | aliased expr name ih =>
    exact ih h hsat
  | binaryExpr left op right ihl ihr =>
    cases op with
    | and =>
      obtain ⟨hl, hr⟩ := satisfied_and.mp hsat
      simp only [applyFilterExprToQueries]
      split
      · exact applyAnd_keeps (ihl h.1 hl) (ihr h.2 hr)
      · exact applyAnd_keeps (ihr h.2 hr) (ihl h.1 hl)
    | or =>
      have hkeeps : (Keeps queries (applyFilterExprToQueries schema synthesizeLatestAt left queries) row ∨
          Keeps queries (applyFilterExprToQueries schema synthesizeLatestAt right queries) row) ∨
          (∀ results, applyFilterExprToQueries schema synthesizeLatestAt left queries ≠ .ok (some results)) ∨
          ∀ results, applyFilterExprToQueries schema synthesizeLatestAt right queries ≠ .ok (some results) := by
        rcases h with h | h | ⟨hl, hr⟩
        · exact Or.inr (Or.inl (apply_ne_some h))
        · exact Or.inr (Or.inr (apply_ne_some h))
        · refine Or.inl ?_
          rcases satisfied_or.mp hsat with hsat | hsat
          · exact Or.inl (ihl hl hsat)
          · exact Or.inr (ihr hr hsat)
      simp only [applyFilterExprToQueries]
      split
      · exact applyOr_keeps hkeeps
      · exact applyOr_keeps (hkeeps.imp Or.symm Or.symm)
    | _ => exact applyOperator_keeps h hsat
  | between expr negated low high =>
    cases negated with
    | true => exact keeps_of_not_some none_ne_some
    | false =>
      obtain ⟨hlow, hhigh⟩ := satisfied_between.mp hsat
      obtain ⟨hlowFits, hhighFits⟩ := h.resolve_left Bool.false_ne_true
      exact applyAnd_keeps (applyOperator_keeps hhighFits hhigh) (applyOperator_keeps hlowFits hlow)
  | inList expr list negated =>
    cases list with
    | nil => exact keeps_of_not_some error_ne_some
    | cons first rest =>
      apply inList_keeps
      cases negated with
      | true =>
        obtain ⟨item, hitem, hunknown⟩ := (h rfl).resolve_left (cons_ne_nil _ _)
        exact ⟨item, hitem, Or.inr hunknown⟩
      | false =>
        obtain ⟨item, hitem, hsat⟩ := satisfied_inList.mp hsat
        exact ⟨item, hitem, Or.inl (applyOperator_keeps (equality_fits ..) hsat)⟩
  | column | literal | not | other => exact keeps_of_not_some none_ne_some

/-- **A filter that is read right loses no row.** Whatever the engine makes of the rest, a row that
one of the queries admits and that satisfies the filter is admitted by a pushed query. -/
theorem apply_keeps_rows {expr : Expr} {results : List QueryDatasetRequest}
    (h : applyFilterExprToQueries schema synthesizeLatestAt expr queries = .ok (some results))
    (hread : expr.ReadRight schema) {query : QueryDatasetRequest} (hquery : query ∈ queries)
    (hadmits : query.Admits row) (hsat : expr.Satisfied E schema row) :
    ∃ result ∈ results, result.Admits row :=
  apply_keeps hread hsat results h ⟨query, hquery, hadmits⟩

/-- `frame >= 5 AND frame IN (6, 7) OR frame BETWEEN 1 AND 2` -/
def lateFrames : Expr :=
  .binaryExpr
    (.binaryExpr (.binaryExpr (.column "frame") .gtEq (frameLiteral 5)) .and
      (.inList (.column "frame") [frameLiteral 6, frameLiteral 7] false))
    .or (.between (.column "frame") false (frameLiteral 1) (frameLiteral 2))

theorem apply_keeps_rows_lateFrames : ∃ results,
    applyFilterExprToQueries frameSchema false lateFrames [⟨["b"], none⟩, .default] = .ok (some results) ∧
      ∃ result ∈ results, result.Admits (rowAtFrame 7) := by
  refine ⟨_, rfl, @apply_keeps_rows nullEngine frameSchema (rowAtFrame 7) false [⟨["b"], none⟩, .default] lateFrames _ rfl
    (Or.inr (Or.inr ⟨⟨frame_fits 5, fun h => absurd h (by decide)⟩, Or.inr ⟨frame_fits 1, ?_⟩⟩)) .default
      (by decide) (default_admits _) rfl⟩
  intro value hvalue htime
  cases hvalue
  cases htime

/-- `frame NOT IN (5)` is pushed down to the frame five alone, and loses the frame seven. -/
theorem notIn_loses_rows : ¬ ∀ (E : Engine) (schema : List Field) (synthesizeLatestAt : Bool) (expr : Expr)
    (queries results : List QueryDatasetRequest),
    applyFilterExprToQueries schema synthesizeLatestAt expr queries = .ok (some results) →
    ∀ row query, query ∈ queries → query.Admits row → expr.Satisfied E schema row →
      ∃ result ∈ results, result.Admits row := by
  intro hall
  obtain ⟨result, hresult, hadmits⟩ := hall nullEngine frameSchema false
    (.inList (.column "frame") [frameLiteral 5] true) [.default] _ rfl (rowAtFrame 7) .default
    (mem_singleton_self _) (default_admits _) rfl
  obtain rfl := mem_singleton.mp hresult
  obtain ⟨time, htime, -, hmax⟩ := hadmits.2 _ rfl
  cases htime
  exact absurd hmax (by decide)

end ReadRight

/-! ## A list that is negated -/

def segmentLiteral (id : String) : Expr := .literal (.utf8 (some id))

end Dalaran.Pushdown
