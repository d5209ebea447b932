import Dalaran.Base.Kleene
import Dalaran.Pushdown.Apply

/-
  What a filter and a query mean for a row.

  A row has a segment and, on each index, a time or none. A filter keeps the rows
  on which it is true, in the three-valued logic of SQL (`Expr.eval`). What the
  pushdown does not look into is up to the engine (`Engine`). A query admits the
  rows of its segments and times: those in its range, or those at the one time of
  a latest-at that stands alone; next to a range the latest-at only fills.
-/

namespace Dalaran.Pushdown

open Pushdown.Expr

structure Row where
  segmentId : String
  index : TimelineName → Option TimeInt
  temporal : ∀ name time, index name = some time → TimeInt.MIN ≤ time

/-! ## What a query admits -/

def QueryRange.Admits (range : QueryRange) (row : Row) : Prop :=
  ∃ time, row.index range.index = some time ∧ range.indexRange.min ≤ time ∧ time ≤ range.indexRange.max

/-- One specific time, or no index value at all for the static data. -/
def QueryLatestAt.Admits (latestAt : QueryLatestAt) (row : Row) : Prop :=
  match latestAt.index with
  | some name => row.index name = some latestAt.atTime
  | none => ∀ name, row.index name = none

def Query.Admits (query : Query) (row : Row) : Prop :=
  match query.range, query.latestAt with
  | some range, _ => range.Admits row
  | none, some latestAt => latestAt.Admits row
  | none, none => True

/-- Whether the row is of the segments and the times of the query. -/
def QueryDatasetRequest.Admits (request : QueryDatasetRequest) (row : Row) : Prop :=
  (request.segmentIds = [] ∨ row.segmentId ∈ request.segmentIds) ∧
    ∀ query, request.query = some query → query.Admits row

/-! ## What an expression means -/

inductive Datum where
  | null
  | bool (b : Bool)
  | text (s : String)
  | number (n : Int)
  | other (text : String)

/-- The meaning of what the pushdown does not look into. -/
structure Engine where
  value : Row → Expr → Datum
  operate : Operator → Datum → Datum → Datum

/-- Whether two values are in the order that an operator asks for. -/
def Operator.test {α : Type} [DecidableEq α] [LT α] [DecidableLT α] (op : Operator) (a b : α) : Bool :=
  match op with
  | .eq => decide (a = b)
  | .notEq => decide (a ≠ b)
  | .lt => decide (a < b)
  | .ltEq => !decide (b < a)
  | .gt => decide (b < a)
  | .gtEq => !decide (a < b)
  | _ => false

def Datum.truth : Datum → Option Bool
  | .bool b => some b
  | _ => none

def Datum.ofTruth : Option Bool → Datum
  | some b => .bool b
  | none => .null

@[simp] theorem Datum.truth_ofTruth (b : Option Bool) : (Datum.ofTruth b).truth = b := by
  cases b <;> rfl

/-- A comparison; with a null it is unknown. -/
def Engine.compare (E : Engine) (op : Operator) : Datum → Datum → Option Bool
  | .null, _ => none
  | _, .null => none
  | .number a, .number b => some (op.test a b)
  | .text a, .text b => some (op.test a b)
  | a, b => (E.operate op a b).truth

/-- The number that a literal stands for. Times count nanoseconds. -/
def ScalarValue.exact : ScalarValue → Option Int
  | .uint8 v => v.map fun v => (v.toNat : Int)
  | .uint16 v => v.map fun v => (v.toNat : Int)
  | .uint32 v => v.map fun v => (v.toNat : Int)
  | .uint64 v => v.map fun v => (v.toNat : Int)
  | .int8 v => v.map fun v => v.toInt
  | .int16 v => v.map fun v => v.toInt
  | .int32 v => v.map fun v => v.toInt
  | .int64 v => v.map fun v => v.val
  | .timestamp unit v _ | .duration unit v => v.map fun v => v.val * unit.nanos
  | _ => none

/-- The value of a literal; one without a text or a number is up to the engine. -/
def ScalarValue.datum (E : Engine) (row : Row) (value : ScalarValue) : Datum :=
  match value.text, value.exact with
  | some text, _ => .text text
  | none, some n => .number n
  | none, none => match value with
    | .other _ => E.value row (.literal value)
    | _ => .null

def Row.column (E : Engine) (schema : List Field) (row : Row) (name : String) : Datum :=
  if name = "dalaran_segment_id" then .text row.segmentId
  else if isTimeIndex name schema then
    match row.index ⟨name⟩ with
    | some time => .number time.asI64.val
    | none => .null
  else E.value row (.column name)

mutual

def Expr.eval (E : Engine) (schema : List Field) (row : Row) : Expr → Datum
  | .alias expr _ => expr.eval E schema row
  | .column name => row.column E schema name
  | .literal value => value.datum E row
  | .binaryExpr left op right =>
    match op with
    | .and => .ofTruth (Kleene.and (left.eval E schema row).truth (right.eval E schema row).truth)
    | .or => .ofTruth (Kleene.or (left.eval E schema row).truth (right.eval E schema row).truth)
    | .other symbol => E.operate (.other symbol) (left.eval E schema row) (right.eval E schema row)
    | _ => .ofTruth (E.compare op (left.eval E schema row) (right.eval E schema row))
  | .not expr => .ofTruth (Kleene.not (expr.eval E schema row).truth)
  | .between expr negated low high =>
    let inside := Kleene.and (E.compare .gtEq (expr.eval E schema row) (low.eval E schema row))
      (E.compare .ltEq (expr.eval E schema row) (high.eval E schema row))
    .ofTruth (if negated then Kleene.not inside else inside)
  | .inList expr list negated =>
    let found := evalAny E schema row (expr.eval E schema row) list
    .ofTruth (if negated then Kleene.not found else found)
  | .other text => E.value row (.other text)

def evalAny (E : Engine) (schema : List Field) (row : Row) (value : Datum) : List Expr → Option Bool
  | [] => some false
  | item :: rest => Kleene.or (E.compare .eq value (item.eval E schema row)) (evalAny E schema row value rest)

end

/-- Whether the row satisfies the filter: the expression is true, not false and not unknown. -/
def Expr.Satisfied (E : Engine) (schema : List Field) (row : Row) (expr : Expr) : Prop :=
  (expr.eval E schema row).truth = some true

section Satisfied

variable {E : Engine} {schema : List Field} {row : Row} {expr left right low high : Expr} {list : List Expr}

theorem satisfied_and : (Expr.binaryExpr left .and right).Satisfied E schema row ↔
    left.Satisfied E schema row ∧ right.Satisfied E schema row := by
  simp [Satisfied, eval]

theorem satisfied_or : (Expr.binaryExpr left .or right).Satisfied E schema row ↔
    left.Satisfied E schema row ∨ right.Satisfied E schema row := by
  simp [Satisfied, eval]

theorem satisfied_comparison {op : Operator} (h : op.isPushed = true) :
    (Expr.binaryExpr left op right).Satisfied E schema row ↔
      E.compare op (left.eval E schema row) (right.eval E schema row) = some true := by
  cases op with
  | notEq | and | or | other => exact absurd h Bool.false_ne_true
  | _ => simp [Satisfied, eval]

theorem satisfied_between : (Expr.between expr false low high).Satisfied E schema row ↔
    (Expr.binaryExpr expr .gtEq low).Satisfied E schema row ∧
      (Expr.binaryExpr expr .ltEq high).Satisfied E schema row := by
  simp [Satisfied, eval]

theorem evalAny_eq_true {value : Datum} : evalAny E schema row value list = some true ↔
    ∃ item ∈ list, E.compare .eq value (item.eval E schema row) = some true := by
  induction list with
  | nil => simp [evalAny]
  | cons item rest ih => simp [evalAny, ih]

theorem satisfied_inList : (Expr.inList expr list false).Satisfied E schema row ↔
    ∃ item ∈ list, (Expr.binaryExpr expr .eq item).Satisfied E schema row := by
  simp [Satisfied, eval, evalAny_eq_true]

end Satisfied

end Dalaran.Pushdown
