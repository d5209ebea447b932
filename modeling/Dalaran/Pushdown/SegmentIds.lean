import Mathlib.Data.Finset.Sort
import Mathlib.Data.String.Basic
import Dalaran.Pushdown.Sound

/-
  The scan hint on segment ids (`dl_datafusion::pushdown_expressions`).

  Scans of the segment table and of the manifest send the server the segments to
  scan, or the segments to skip. Expressions over `AND`, `OR`, `NOT`, `=`, `!=` and
  `[NOT] IN` on the segment-id column have such a hint (`segmentIdSelection`).
-/

namespace Dalaran.Pushdown

open List Option Datum

/-! ## Selections -/

inductive SegmentIdSelection where
  | scanOnly (ids : Finset String)
  | skip (ids : Finset String)
  deriving DecidableEq

namespace SegmentIdSelection

def and : SegmentIdSelection → SegmentIdSelection → SegmentIdSelection
  | scanOnly left, scanOnly right => scanOnly (left ∩ right)
  | scanOnly left, skip right => scanOnly (left \ right)
  | skip right, scanOnly left => scanOnly (left \ right)
  | skip left, skip right => skip (left ∪ right)

def or : SegmentIdSelection → SegmentIdSelection → SegmentIdSelection
  | scanOnly left, scanOnly right => scanOnly (left ∪ right)
  | scanOnly left, skip right => skip (right \ left)
  | skip left, scanOnly right => skip (left \ right)
  | skip left, skip right => skip (left ∩ right)

def negate : SegmentIdSelection → SegmentIdSelection
  | scanOnly ids => skip ids
  | skip ids => scanOnly ids

end SegmentIdSelection

def sorted (ids : Finset String) : List String := ids.sort

inductive Strategy where
  | scanOnly (segmentIds : List String)
  | skip (segmentIds : List String)
  deriving DecidableEq

structure SegmentIdFilter where
  strategy : Option Strategy
  deriving DecidableEq

def SegmentIdSelection.intoProto : SegmentIdSelection → SegmentIdFilter
  | scanOnly ids => ⟨some (.scanOnly (sorted ids))⟩
  | skip ids => ⟨some (.skip (sorted ids))⟩

/-! ## Selections of expressions -/

def segmentIdLiteral : Expr → Option String
  | .literal (.utf8 (some value)) | .literal (.utf8View (some value))
  | .literal (.largeUtf8 (some value)) => some value
  | _ => none

def isSegmentIdColumn (columnName : String) : Expr → Bool
  | .column name => name == columnName
  | _ => false

/-- The literal that the segment-id column is compared with, on whichever side it stands. -/
def comparedSegmentId (columnName : String) (left right : Expr) : Option String :=
  if isSegmentIdColumn columnName left then segmentIdLiteral right
  else if isSegmentIdColumn columnName right then segmentIdLiteral left
  else none

/-- The segments on which an expression is true, where it is one of the column's. -/
def segmentIdSelection (columnName : String) : Expr → Option SegmentIdSelection
  | .binaryExpr left .eq right =>
    (comparedSegmentId columnName left right).map fun value => .scanOnly {value}
  | .binaryExpr left .notEq right =>
    (comparedSegmentId columnName left right).map fun value => .skip {value}
  | .binaryExpr left .and right => do
    let left ← segmentIdSelection columnName left
    let right ← segmentIdSelection columnName right
    some (left.and right)
  | .binaryExpr left .or right => do
    let left ← segmentIdSelection columnName left
    let right ← segmentIdSelection columnName right
    some (left.or right)
  | .inList expr list negated =>
    if isSegmentIdColumn columnName expr then do
      let ids ← list.mapM segmentIdLiteral
      some (if negated then .skip ids.toFinset else .scanOnly ids.toFinset)
    else none
  | .not inner => (segmentIdSelection columnName inner).map SegmentIdSelection.negate
  | _ => none

/-- One hint for all the filters that have one; `none` when no filter has. -/
def segmentIdFilterFromFilters (filters : List Expr) (columnName : String) : Option SegmentIdFilter :=
  match filters.filterMap (segmentIdSelection columnName) with
  | [] => none
  | first :: rest => some (rest.foldl SegmentIdSelection.and first).intoProto

/-! ## What a selection selects -/

def SegmentIdSelection.selects (id : String) : SegmentIdSelection → Bool
  | scanOnly ids => id ∈ ids
  | skip ids => id ∉ ids

/-- Without a strategy every segment is scanned. -/
def SegmentIdFilter.selects (id : String) (filter : SegmentIdFilter) : Bool :=
  match filter.strategy with
  | some (.scanOnly segmentIds) => id ∈ segmentIds
  | some (.skip segmentIds) => id ∉ segmentIds
  | none => true

section Selects

variable {id : String} {selection left right : SegmentIdSelection}

@[simp] theorem selects_and : (left.and right).selects id = (left.selects id && right.selects id) := by
  cases left <;> cases right <;> simp [SegmentIdSelection.and, SegmentIdSelection.selects, Bool.and_comm]

@[simp] theorem selects_or : (left.or right).selects id = (left.selects id || right.selects id) := by
  cases left <;> cases right <;>
    simp [SegmentIdSelection.or, SegmentIdSelection.selects, Bool.or_comm, imp_iff_or_not]

@[simp] theorem selects_negate : selection.negate.selects id = !selection.selects id := by
  cases selection <;> simp [SegmentIdSelection.negate, SegmentIdSelection.selects]

@[simp] theorem selects_intoProto : selection.intoProto.selects id = selection.selects id := by
  cases selection <;>
    simp [SegmentIdSelection.intoProto, SegmentIdFilter.selects, SegmentIdSelection.selects, sorted]

theorem selects_foldl {rest : List SegmentIdSelection} {first : SegmentIdSelection} :
    (rest.foldl SegmentIdSelection.and first).selects id =
      (first.selects id && rest.all fun selection => selection.selects id) := by
  induction rest generalizing first with
  | nil => simp
  | cons next rest ih => simp [ih, Bool.and_assoc]

end Selects

/-! ## The selection is the expression -/

section Exact

variable {E : Engine} {schema : List Field} {row : Row} {columnName id value : String}
  {expr left right : Expr} {selection : SegmentIdSelection}

theorem eval_segmentIdColumn (hcol : row.column E schema columnName = .text id)
    (h : isSegmentIdColumn columnName expr = true) : expr.eval E schema row = .text id := by
  cases expr with
  | column name =>
    have hname : name = columnName := by simpa [isSegmentIdColumn] using h
    rw [Expr.eval, hname, hcol]
  | _ => exact absurd h Bool.false_ne_true

theorem eval_segmentIdLiteral (h : segmentIdLiteral expr = some value) : expr.eval E schema row = .text value := by
  unfold segmentIdLiteral at h
  split at h
  · cases h; rfl
  · cases h; rfl
  · cases h; rfl
  · cases h

theorem compare_eq_text (a b : String) : E.compare .eq (.text a) (.text b) = some (decide (a = b)) := rfl

theorem compare_notEq_text (a b : String) : E.compare .notEq (.text a) (.text b) = some (decide (a ≠ b)) := rfl

/-- The two comparisons that have a selection. -/
def Operator.comparesIds : Operator → Bool
  | .eq | .notEq => true
  | _ => false

theorem truth_comparison {op : Operator} (h : op.comparesIds = true) :
    ((Expr.binaryExpr left op right).eval E schema row).truth =
      E.compare op (left.eval E schema row) (right.eval E schema row) := by
  cases op with
  | eq | notEq => simp [Expr.eval]
  | _ => exact absurd h Bool.false_ne_true

theorem eval_compared (hcol : row.column E schema columnName = .text id)
    (h : comparedSegmentId columnName left right = some value) :
    (left.eval E schema row = .text id ∧ right.eval E schema row = .text value) ∨
      (left.eval E schema row = .text value ∧ right.eval E schema row = .text id) := by
  unfold comparedSegmentId at h
  split at h
  · next hleft => exact .inl ⟨eval_segmentIdColumn hcol hleft, eval_segmentIdLiteral h⟩
  · split at h
    · next hright => exact .inr ⟨eval_segmentIdLiteral h, eval_segmentIdColumn hcol hright⟩
    · cases h

theorem truth_eq (hcol : row.column E schema columnName = .text id)
    (h : comparedSegmentId columnName left right = some value) :
    ((Expr.binaryExpr left .eq right).eval E schema row).truth = some (decide (id = value)) := by
  rw [truth_comparison rfl]
  obtain ⟨hl, hr⟩ | ⟨hl, hr⟩ := eval_compared hcol h
  · rw [hl, hr, compare_eq_text]
  · rw [hl, hr, compare_eq_text]
    simp [eq_comm]

theorem truth_notEq (hcol : row.column E schema columnName = .text id)
    (h : comparedSegmentId columnName left right = some value) :
    ((Expr.binaryExpr left .notEq right).eval E schema row).truth = some (decide (id ≠ value)) := by
  rw [truth_comparison rfl]
  obtain ⟨hl, hr⟩ | ⟨hl, hr⟩ := eval_compared hcol h
  · rw [hl, hr, compare_notEq_text]
  · rw [hl, hr, compare_notEq_text]
    simp [eq_comm]

theorem evalAny_literals {list : List Expr} {ids : List String}
    (h : list.mapM segmentIdLiteral = some ids) :
    evalAny E schema row (.text id) list = some (decide (id ∈ ids)) := by
  induction list generalizing ids with
  | nil =>
    cases h
    simp [evalAny]
  | cons item rest ih =>
    obtain ⟨value, hvalue, others, hothers, rfl⟩ :
        ∃ value, segmentIdLiteral item = some value ∧
          ∃ others, rest.mapM segmentIdLiteral = some others ∧ ids = value :: others := by
      obtain ⟨value, hvalue, others, hothers, hids⟩ := by
        simpa [mapM_cons, bind_eq_some_iff] using h
      exact ⟨value, hvalue, others, hothers, hids.symm⟩
    rw [evalAny, eval_segmentIdLiteral hvalue, compare_eq_text, ih hothers, Kleene.or_some]
    simp

theorem truth_of_selection (hcol : row.column E schema columnName = .text id)
    (h : segmentIdSelection columnName expr = some selection) :
    (expr.eval E schema row).truth = some (selection.selects id) := by
  induction expr using segmentIdSelection.induct columnName generalizing selection with
  | case1 left right =>
    obtain ⟨value, hvalue, rfl⟩ := by simpa [segmentIdSelection] using h
    rw [truth_eq hcol hvalue]
    simp [SegmentIdSelection.selects]
  | case2 left right =>
    obtain ⟨value, hvalue, rfl⟩ := by simpa [segmentIdSelection] using h
    rw [truth_notEq hcol hvalue]
    simp [SegmentIdSelection.selects]
  | case3 left right ihLeft ihRight =>
    obtain ⟨l, hl, r, hr, rfl⟩ : ∃ l, segmentIdSelection columnName left = some l ∧
        ∃ r, segmentIdSelection columnName right = some r ∧ l.and r = selection := by
      simpa [segmentIdSelection, bind_eq_some_iff] using h
    rw [Expr.eval, truth_ofTruth, ihLeft hl, ihRight hr, Kleene.and_some, selects_and]
  | case4 left right ihLeft ihRight =>
    obtain ⟨l, hl, r, hr, rfl⟩ : ∃ l, segmentIdSelection columnName left = some l ∧
        ∃ r, segmentIdSelection columnName right = some r ∧ l.or r = selection := by
      simpa [segmentIdSelection, bind_eq_some_iff] using h
    rw [Expr.eval, truth_ofTruth, ihLeft hl, ihRight hr, Kleene.or_some, selects_or]
  | case5 expr list negated hexpr =>
    obtain ⟨ids, hids, rfl⟩ : ∃ ids, list.mapM segmentIdLiteral = some ids ∧
        (if negated then SegmentIdSelection.skip ids.toFinset else .scanOnly ids.toFinset) = selection := by
      simpa only [segmentIdSelection, if_pos hexpr, bind, bind_eq_some_iff, Option.some.injEq] using h
    rw [Expr.eval, truth_ofTruth, eval_segmentIdColumn hcol hexpr, evalAny_literals hids]
    cases negated <;> simp [SegmentIdSelection.selects, Kleene.not_some]
  | case6 expr list negated hexpr => simp [segmentIdSelection, hexpr] at h
  | case7 inner ih =>
    obtain ⟨of, hof, rfl⟩ : ∃ of, segmentIdSelection columnName inner = some of ∧ of.negate = selection := by
      simpa [segmentIdSelection] using h
    rw [Expr.eval, truth_ofTruth, ih hof, Kleene.not_some, selects_negate]
  | case8 expr => simp_all [segmentIdSelection]

theorem selects_iff_satisfied (hcol : row.column E schema columnName = .text id)
    (h : segmentIdSelection columnName expr = some selection) :
    selection.selects id = true ↔ expr.Satisfied E schema row := by
  rw [Expr.Satisfied, truth_of_selection hcol h, some_inj]

theorem filters_selected {filters : List Expr} {filter : SegmentIdFilter}
    (hcol : row.column E schema columnName = .text id)
    (h : segmentIdFilterFromFilters filters columnName = some filter)
    (hsat : ∀ expr ∈ filters, expr.Satisfied E schema row) : filter.selects id = true := by
  have hselects : ∀ selection ∈ filters.filterMap (segmentIdSelection columnName), selection.selects id = true := by
    intro selection hselection
    obtain ⟨expr, hexpr, hof⟩ := mem_filterMap.mp hselection
    exact (selects_iff_satisfied hcol hof).mpr (hsat expr hexpr)
  unfold segmentIdFilterFromFilters at h
  split at h
  · cases h
  · next first rest heq =>
    rw [heq] at hselects
    cases h
    rw [selects_intoProto, selects_foldl, Bool.and_eq_true, List.all_eq_true]
    exact ⟨hselects first mem_cons_self, fun selection hrest => hselects selection (mem_cons_of_mem first hrest)⟩

end Exact

/-! ## Which expressions have a selection -/

def ComparesId (columnName : String) (left right : Expr) : Prop :=
  ∃ value, comparedSegmentId columnName left right = some value

/-- The trees over `AND`, `OR`, `NOT`, `=`, `!=` and `[NOT] IN` on the column, with texts to compare
it with. -/
inductive OnSegmentId (columnName : String) : Expr → Prop where
  | eq {left right} : ComparesId columnName left right → OnSegmentId columnName (.binaryExpr left .eq right)
  | notEq {left right} : ComparesId columnName left right → OnSegmentId columnName (.binaryExpr left .notEq right)
  | and {left right} : OnSegmentId columnName left → OnSegmentId columnName right →
    OnSegmentId columnName (.binaryExpr left .and right)
  | or {left right} : OnSegmentId columnName left → OnSegmentId columnName right →
    OnSegmentId columnName (.binaryExpr left .or right)
  | not {inner} : OnSegmentId columnName inner → OnSegmentId columnName (.not inner)
  | inList {expr list negated} : isSegmentIdColumn columnName expr = true →
    (∀ item ∈ list, (segmentIdLiteral item).isSome) → OnSegmentId columnName (.inList expr list negated)

theorem mapM_literal_isSome {list : List Expr} (h : ∀ item ∈ list, (segmentIdLiteral item).isSome) :
    ∃ ids, list.mapM segmentIdLiteral = some ids := by
  induction list with
  | nil => exact ⟨[], rfl⟩
  | cons item rest ih =>
    obtain ⟨value, hvalue⟩ := isSome_iff_exists.mp (h item mem_cons_self)
    obtain ⟨ids, hids⟩ := ih fun item hitem => h item (mem_cons_of_mem _ hitem)
    exact ⟨value :: ids, by simp [mapM_cons, hvalue, hids]⟩

theorem selection_of_onSegmentId {columnName : String} {expr : Expr} (h : OnSegmentId columnName expr) :
    ∃ selection, segmentIdSelection columnName expr = some selection := by
  induction h with
  | eq hcompares =>
    obtain ⟨value, hvalue⟩ := hcompares
    exact ⟨.scanOnly {value}, by rw [segmentIdSelection, hvalue]; rfl⟩
  | notEq hcompares =>
    obtain ⟨value, hvalue⟩ := hcompares
    exact ⟨.skip {value}, by rw [segmentIdSelection, hvalue]; rfl⟩
  | and _ _ ihLeft ihRight =>
    obtain ⟨left, hl⟩ := ihLeft
    obtain ⟨right, hr⟩ := ihRight
    exact ⟨left.and right, by rw [segmentIdSelection, hl, hr]; rfl⟩
  | or _ _ ihLeft ihRight =>
    obtain ⟨left, hl⟩ := ihLeft
    obtain ⟨right, hr⟩ := ihRight
    exact ⟨left.or right, by rw [segmentIdSelection, hl, hr]; rfl⟩
  | not _ ih =>
    obtain ⟨selection, hsel⟩ := ih
    exact ⟨selection.negate, by rw [segmentIdSelection, hsel]; rfl⟩
  | inList hexpr hlist =>
    obtain ⟨ids, hids⟩ := mapM_literal_isSome hlist
    exact ⟨_, by rw [segmentIdSelection, if_pos hexpr, hids]; rfl⟩

/-! ## The hint -/

/-- A selection is exactly the segments on which the expression is true, and the hint of some filters
leaves no segment out that satisfies them all. -/
theorem segmentIds_exact (E : Engine) (schema : List Field) (columnName : String) (row : Row)
    (id : String) (hcol : row.column E schema columnName = .text id) :
    (∀ expr, OnSegmentId columnName expr → ∃ selection, segmentIdSelection columnName expr = some selection) ∧
    (∀ expr selection, segmentIdSelection columnName expr = some selection →
      (selection.selects id = true ↔ expr.Satisfied E schema row)) ∧
    ∀ filters filter, segmentIdFilterFromFilters filters columnName = some filter →
      (∀ expr ∈ filters, expr.Satisfied E schema row) → filter.selects id = true := by
  refine ⟨fun expr h => selection_of_onSegmentId h, fun expr selection h => ?_, fun filters filter h hsat => ?_⟩
  · exact selects_iff_satisfied hcol h
  · exact filters_selected hcol h hsat

/-- The row of segment `a` passes a filter that leaves segment `b` out. -/
theorem segmentIds_exact_negated :
    segmentIdSelection "dalaran_segment_id"
        (.not (.binaryExpr (segmentLiteral "b") .eq (.column "dalaran_segment_id"))) = some (.skip {"b"}) ∧
      (Expr.not (.binaryExpr (segmentLiteral "b") .eq (.column "dalaran_segment_id"))).Satisfied
        nullEngine [] (rowAtFrame 0) :=
  ⟨rfl, ((segmentIds_exact nullEngine [] "dalaran_segment_id" (rowAtFrame 0) "a" rfl).2.1 _ _ rfl).mp
    (by decide)⟩

end Dalaran.Pushdown
