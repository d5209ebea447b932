import Dalaran.Chunk.Chunk

/-
  Filter expressions and dataset queries (`dl_datafusion::pushdown_expressions`).

  A filter is an expression of the SQL engine. The pushdown looks into a few of
  its forms: `AND`, `OR`, `BETWEEN`, `IN` and the comparisons of a column with a
  literal, where the column is the segment id or an index of the schema
  (`knownFilterColumn`). What it turns them into are dataset queries: a list of
  segments and a selection of times.

  Correspondence (Rust ↔ Lean):
    `expr_to_literal_scalar` ↔ `Expr.toLiteralScalar`
  A column's relation is left out, as is the position a literal was parsed at.
-/

namespace Dalaran.Pushdown

/-! ## Expressions -/

inductive TimeUnit where
  | second
  | millisecond
  | microsecond
  | nanosecond
  deriving DecidableEq

def TimeUnit.nanos : TimeUnit → Int
  | .second => 1000000000
  | .millisecond => 1000000
  | .microsecond => 1000
  | .nanosecond => 1

/-- A literal. The time of a timestamp or a duration is in its unit; `other` is a literal of any
other type. -/
inductive ScalarValue where
  | utf8 (v : Option String)
  | utf8View (v : Option String)
  | largeUtf8 (v : Option String)
  | uint8 (v : Option UInt8)
  | uint16 (v : Option UInt16)
  | uint32 (v : Option UInt32)
  | uint64 (v : Option UInt64)
  | int8 (v : Option Int8)
  | int16 (v : Option Int16)
  | int32 (v : Option Int32)
  | int64 (v : Option I64)
  | timestamp (unit : TimeUnit) (v : Option I64) (timezone : Option String)
  | duration (unit : TimeUnit) (v : Option I64)
  | other (text : String)
  deriving DecidableEq

/-- An operator; `other` is one that the pushdown does not tell apart. -/
inductive Operator where
  | eq
  | notEq
  | lt
  | ltEq
  | gt
  | gtEq
  | and
  | or
  | other (symbol : String)
  deriving DecidableEq

/-- An expression; `other` is one of a form that the pushdown does not look into. -/
inductive Expr where
  | alias (expr : Expr) (name : String)
  | column (name : String)
  | literal (value : ScalarValue)
  | binaryExpr (left : Expr) (op : Operator) (right : Expr)
  | not (expr : Expr)
  | between (expr : Expr) (negated : Bool) (low high : Expr)
  | inList (expr : Expr) (list : List Expr) (negated : Bool)
  | other (text : String)

/-- Induction over the parts of an expression that the pushdown recurses into. -/
@[elab_as_elim]
theorem Expr.parts {P : Expr → Prop} (aliased : ∀ expr name, P expr → P (.alias expr name))
    (binaryExpr : ∀ left op right, P left → P right → P (.binaryExpr left op right))
    (between : ∀ expr negated low high, P (.between expr negated low high))
    (inList : ∀ expr list negated, P (.inList expr list negated)) (column : ∀ name, P (.column name))
    (literal : ∀ value, P (.literal value)) (not : ∀ expr, P (.not expr))
    (other : ∀ text, P (.other text)) : ∀ expr, P expr
  | .alias expr name => aliased expr name (parts aliased binaryExpr between inList column literal not other expr)
  | .binaryExpr left op right =>
    binaryExpr left op right (parts aliased binaryExpr between inList column literal not other left)
      (parts aliased binaryExpr between inList column literal not other right)
  | .between expr negated low high => between expr negated low high
  | .inList expr list negated => inList expr list negated
  | .column name => column name
  | .literal value => literal value
  | .not expr => not expr
  | .other text => other text

def Expr.isColumn : Expr → Bool
  | .column _ => true
  | _ => false

/-- The operator of the arranged comparison. The strict comparisons become lenient ones here, and the
lenient ones strict. -/
def Operator.arranged : Operator → Operator
  | .gt => .ltEq
  | .gtEq => .lt
  | .lt => .gtEq
  | .ltEq => .gt
  | op => op

/-- Exchange the two sides unless the left one is a column. -/
def arrangeBinaryExprAsColOnLeft (left : Expr) (op : Operator) (right : Expr) : Expr × Operator × Expr :=
  if left.isColumn then (left, op, right) else (right, op.arranged, left)

/-- The literal that an expression is, through its aliases. -/
def Expr.toLiteralScalar : Expr → Option ScalarValue
  | .literal value => some value
  | .alias expr _ => expr.toLiteralScalar
  | _ => none

/-! ## Queries -/

/-- `index` is `none` for the static data. -/
structure QueryLatestAt where
  index : Option TimelineName
  atTime : TimeInt
  deriving DecidableEq

def QueryLatestAt.global (index : Option TimelineName) (time : TimeInt) : QueryLatestAt := ⟨index, time⟩

structure QueryRange where
  index : TimelineName
  indexRange : AbsoluteTimeRange
  deriving DecidableEq

structure Query where
  latestAt : Option QueryLatestAt
  range : Option QueryRange
  columnsAlwaysIncludeEverything : Bool
  columnsAlwaysIncludeByteOffsets : Bool
  columnsAlwaysIncludeEntityPaths : Bool
  columnsAlwaysIncludeStaticIndexes : Bool
  columnsAlwaysIncludeGlobalIndexes : Bool
  columnsAlwaysIncludeComponentIndexes : Bool
  deriving DecidableEq

structure QueryDatasetRequest where
  segmentIds : List String
  query : Option Query
  deriving DecidableEq

def QueryDatasetRequest.default : QueryDatasetRequest := ⟨[], none⟩

/-! ## Errors -/

inductive DataFusionError where
  | execution (message : String)
  | external (message : String)
  deriving DecidableEq

/-- `TimelineName::try_new`: every name but the empty one. -/
def timelineNameTryNew (index : String) : Except DataFusionError TimelineName :=
  if index = "" then .error (.external "Invalid `TimelineName`: must not be empty") else .ok ⟨index⟩

/-! ## The columns of the schema -/

structure Field where
  name : String
  metadata : List (String × String)

def dalaranKind : String := "dalaran:kind"

def isTimeIndex (colName : String) (schema : List Field) : Bool :=
  match schema.find? fun field => field.name == colName with
  | some field => field.metadata.lookup dalaranKind == some "index"
  | none => false

def ScalarValue.text : ScalarValue → Option String
  | .utf8 v | .utf8View v | .largeUtf8 v => v
  | _ => none

/-- The time of a literal as the pushdown computes it. Release builds wrap when a time does not fit
in nanoseconds; the unsigned literals saturate. -/
def ScalarValue.indexValue : ScalarValue → Option I64
  | .uint8 v => v.map fun v => I64.ofLength v.toNat
  | .uint16 v => v.map fun v => I64.ofLength v.toNat
  | .uint32 v => v.map fun v => I64.ofLength v.toNat
  | .uint64 v => v.map fun v => I64.ofLength v.toNat
  | .int8 v => v.map fun v => I64.sat v.toInt
  | .int16 v => v.map fun v => I64.sat v.toInt
  | .int32 v => v.map fun v => I64.sat v.toInt
  | .int64 v => v
  | .timestamp unit v _ | .duration unit v => v.map fun v => I64.wrap (v.val * unit.nanos)
  | _ => none

inductive KnownFilterColumn where
  | segmentId (id : String)
  | index (name : String) (time : TimeInt)
  | unknown
  deriving DecidableEq

/-- The column and the value of a comparison, where the pushdown knows both. -/
def knownFilterColumn (columnExpr valueExpr : Expr) (schema : List Field) : KnownFilterColumn :=
  match columnExpr, valueExpr.toLiteralScalar with
  | .column name, some value =>
    if name = "dalaran_segment_id" then
      match value.text with
      | some id => .segmentId id
      | none => .unknown
    else if isTimeIndex name schema then
      match value.indexValue with
      | some value => .index name (TimeInt.newTemporal value)
      | none => .unknown
    else .unknown
  | _, _ => .unknown

end Dalaran.Pushdown
