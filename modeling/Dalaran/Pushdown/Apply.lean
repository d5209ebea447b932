import Dalaran.Base.Collect
import Dalaran.Pushdown.Expr

/-
  The pushdown (`apply_filter_expr_to_queries`).

  Queries of one list are effectively ORed together. A comparison restricts each
  of them, an `OR` joins the two lists, and an `AND` merges every query of the
  one side with every query of the other. A filter that cannot be pushed down
  gives `none`; a merge that would return nothing is an error.

  The source rewrites a `BETWEEN` to an `AND` and an `IN` to a chain of `OR`s and
  starts over. To recurse on the expression alone, the model has the arm of each
  operator as a function of its own.
-/

namespace Dalaran.Pushdown

open List

/-! ## Merging two queries -/

def latestAtFromRange (range : QueryRange) : QueryLatestAt :=
  .global (some range.index) range.indexRange.min

def computeRangeOverlap (left right : QueryRange) : Except DataFusionError QueryRange :=
  if left.index ≠ right.index then
    .error (.execution "Attempting to compute range overlaps with different indexes")
  else if left.indexRange.max < right.indexRange.min ∨ right.indexRange.max < left.indexRange.min then
    .error (.execution "Attempting to compute range overlaps that are mutually exclusive")
  else
    .ok ⟨left.index, ⟨max left.indexRange.min right.indexRange.min, min left.indexRange.max right.indexRange.max⟩⟩

def mergeSegmentIds (left right : List String) : Except DataFusionError (List String) :=
  if right.isEmpty then .ok left
  else if left.isEmpty then .ok right
  else
    let merged := left.filter fun id => right.contains id
    if merged.isEmpty then
      .error (.execution
        "Attempting to perform AND statement that would return no results due to segment ID mismatch")
    else .ok merged

def mergeTimes (left right : Query) (synthesizeLatestAt : Bool) : Except DataFusionError Query :=
  match left.latestAt, left.range, right.latestAt, right.range with
  | _, some leftRange, _, some rightRange => do
    let newRange ← computeRangeOverlap leftRange rightRange
    .ok { left with
      latestAt := if synthesizeLatestAt then some (latestAtFromRange newRange) else none
      range := some newRange }
  | _, some leftRange, some rightLa, none =>
    -- On the right we want one specific time.
    if leftRange.indexRange.contains rightLa.atTime then
      .ok { left with range := none, latestAt := some rightLa }
    else
      .error (.execution "Attempting to merge time range and specific time that are mutually exclusive")
  | some leftLa, none, _, some rightRange =>
    -- The left is already limited to one time.
    if rightRange.indexRange.contains leftLa.atTime then .ok left
    else
      .error (.execution "Attempting to merge time range and specific time that are mutually exclusive")
  | some leftLa, none, some rightLa, none =>
    if leftLa.atTime ≠ rightLa.atTime then
      .error (.execution "Attempting to merge two specific time requests that are mutually exclusive")
    else .ok left
  | _, _, none, none => .ok left
  | none, none, _, _ => .ok { left with range := right.range, latestAt := right.latestAt }

def mergeQueriesAnd (left right : QueryDatasetRequest) (synthesizeLatestAt : Bool) :
    Except DataFusionError QueryDatasetRequest := do
  let segmentIds ← mergeSegmentIds left.segmentIds right.segmentIds
  let query ← match right.query, left.query with
    | some rightQuery, some leftQuery => some <$> mergeTimes leftQuery rightQuery synthesizeLatestAt
    | some rightQuery, none => .ok (some rightQuery)
    | none, leftQuery => .ok leftQuery
  .ok ⟨segmentIds, query⟩

/-! ## Restricting a query to the times of a comparison -/

/-- The times that a comparison with an operator asks for. The strict comparisons ask for the time
itself, too. -/
def timesOf (op : Operator) (time : TimeInt) : Except DataFusionError AbsoluteTimeRange :=
  match op with
  | .eq => .ok ⟨time, time⟩
  | .gt | .gtEq => .ok ⟨time, TimeInt.MAX⟩
  | .lt | .ltEq => .ok ⟨TimeInt.MIN, time⟩
  | _ => .error (.execution "Invalid operator for merge_time_to_query")

/-- The latest values that a comparison asks for along with its times. -/
def latestAtOf (timeline : TimelineName) (time : TimeInt) (op : Operator) (synthesizeLatestAt : Bool) :
    Option QueryLatestAt :=
  match op with
  | .lt | .ltEq => none
  | _ => if synthesizeLatestAt then some (.global (some timeline) time) else none

def QueryDatasetRequest.withTimes (query : QueryDatasetRequest) (latestAt : Option QueryLatestAt)
    (range : QueryRange) : QueryDatasetRequest :=
  match query.query with
  | some q => { query with query := some { q with latestAt := latestAt, range := some range } }
  | none => { query with query := some ⟨latestAt, some range, false, false, false, false, false, false⟩ }

/-- The query, restricted to the times of a comparison. -/
def replaceTimeInQuery (datasetQuery : QueryDatasetRequest) (index : String) (time : TimeInt)
    (op : Operator) (synthesizeLatestAt : Bool) : Except DataFusionError QueryDatasetRequest := do
  let timeline ← timelineNameTryNew index
  let indexRange ← timesOf op time
  mergeQueriesAnd datasetQuery
    (datasetQuery.withTimes (latestAtOf timeline time op synthesizeLatestAt) ⟨timeline, indexRange⟩)
    synthesizeLatestAt

/-! ## The arms -/

/-- The result of one expression: the restricted queries, or `none` where it is not pushed down. -/
abbrev Pushed := Except DataFusionError (Option (List QueryDatasetRequest))

def applyComparison (schema : List Field) (synthesizeLatestAt : Bool) (left : Expr) (op : Operator)
    (right : Expr) (queries : List QueryDatasetRequest) : Pushed :=
  match knownFilterColumn left right schema with
  | .index name time =>
    some <$> queries.mapM fun query => replaceTimeInQuery query name time op synthesizeLatestAt
  | .segmentId id =>
    -- The segments of before are overridden.
    if op = .eq then .ok (some (queries.map fun query => { query with segmentIds := [id] })) else .ok none
  | .unknown => .ok none

def applyAnd (synthesizeLatestAt : Bool) (left right : Pushed) : Pushed := do
  let left ← left
  let right ← right
  match left, right with
  | none, none => .ok none
  | some queries, none => .ok (some queries)
  | none, some queries => .ok (some queries)
  | some leftQueries, some rightQueries =>
    some <$> (leftQueries.product rightQueries).mapM fun pair =>
      mergeQueriesAnd pair.1 pair.2 synthesizeLatestAt

/-- The arm of `OR`: the queries of both sides, or those of before where one side is not pushed
down. The right side is not looked at when the left one is not pushed down. -/
def applyOr (queries : List QueryDatasetRequest) (left right : Pushed) : Pushed := do
  match ← left with
  | none => .ok (some queries)
  | some leftQueries =>
    match ← right with
    | none => .ok (some queries)
    | some rightQueries => .ok (some (leftQueries ++ rightQueries))

def applyOperator (schema : List Field) (synthesizeLatestAt : Bool) (left : Expr) (op : Operator)
    (right : Expr) (queries : List QueryDatasetRequest) : Pushed :=
  match arrangeBinaryExprAsColOnLeft left op right with
  | (left, op, right) =>
    match op with
    | .eq | .gt | .gtEq | .lt | .ltEq => applyComparison schema synthesizeLatestAt left op right queries
    | _ => .ok none

/-! ## The pushdown -/

/-- Apply a filter to queries. `AND` and `OR` take their sides in the arranged order. -/
def applyFilterExprToQueries (schema : List Field) (synthesizeLatestAt : Bool) :
    Expr → List QueryDatasetRequest → Pushed
  | .alias expr _, queries => applyFilterExprToQueries schema synthesizeLatestAt expr queries
  | .binaryExpr left op right, queries =>
    let onLeft := applyFilterExprToQueries schema synthesizeLatestAt left queries
    let onRight := applyFilterExprToQueries schema synthesizeLatestAt right queries
    match op with
    | .and =>
      if left.isColumn then applyAnd synthesizeLatestAt onLeft onRight
      else applyAnd synthesizeLatestAt onRight onLeft
    | .or => if left.isColumn then applyOr queries onLeft onRight else applyOr queries onRight onLeft
    | _ => applyOperator schema synthesizeLatestAt left op right queries
  | .between expr negated low high, queries =>
    -- `expr >= low AND expr <= high`, the second comparison first: an `AND` is no column. Its negation
    -- is not pushed down.
    if negated then .ok none
    else
      applyAnd synthesizeLatestAt (applyOperator schema synthesizeLatestAt expr .ltEq high queries)
        (applyOperator schema synthesizeLatestAt expr .gtEq low queries)
  | .inList expr list _, queries =>
    match list with
    | [] => .error (.execution
        "Attempting to perform InList statement that would return no results due to empty list")
    | first :: rest =>
      -- The chain grows to the left, and an `OR` is no column, so the last value comes first.
      rest.foldl
        (fun acc item => applyOr queries (applyOperator schema synthesizeLatestAt expr .eq item queries) acc)
        (applyOperator schema synthesizeLatestAt expr .eq first queries)
  | .column _, _ => .ok none
  | .literal _, _ => .ok none
  | .not _, _ => .ok none
  | .other _, _ => .ok none

section Equations

variable {schema : List Field} {synthesizeLatestAt : Bool} {queries : List QueryDatasetRequest}

def Operator.isPushed : Operator → Bool
  | .eq | .gt | .gtEq | .lt | .ltEq => true
  | _ => false

theorem Operator.isPushed_arranged {op : Operator} : op.arranged.isPushed = op.isPushed := by
  cases op <;> rfl

theorem applyOperator_of_pushed {left left' right right' : Expr} {op op' : Operator}
    (harranged : arrangeBinaryExprAsColOnLeft left op right = (left', op', right'))
    (h : op'.isPushed = true) :
    applyOperator schema synthesizeLatestAt left op right queries =
      applyComparison schema synthesizeLatestAt left' op' right' queries := by
  rw [applyOperator, harranged]
  cases op' with
  | eq | gt | gtEq | lt | ltEq => rfl
  | notEq | and | or | other => exact absurd h Bool.false_ne_true

theorem applyOperator_of_not_pushed {left right : Expr} {op : Operator} (h : op.isPushed = false) :
    applyOperator schema synthesizeLatestAt left op right queries = .ok none := by
  unfold applyOperator arrangeBinaryExprAsColOnLeft
  cases op with
  | eq | gt | gtEq | lt | ltEq => exact absurd h.symm Bool.false_ne_true
  | notEq | and | or | other => cases left.isColumn <;> rfl

end Equations

end Dalaran.Pushdown
