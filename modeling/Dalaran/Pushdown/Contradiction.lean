import Dalaran.Pushdown.Sound

/-
  When the pushdown fails.

  What the filter multiplies out are pairings (`pairings`): for every leaf that a
  row has to satisfy, one query and the leaf, with one branch chosen of each `OR`
  and one value of each `IN`. A pairing whose pieces clash is an error, and one
  error is the error of the whole (`collects_apply`). So the filter fails only on
  contradictions when a clash in one pairing means that all of them are
  contradictory (`apply_error_iff_contradictory`).
-/

namespace Dalaran.Pushdown

open List Collect

/-! ## Queries that clash -/

/-- Both lists name segments, and none of them in common. -/
def SegmentsClash (left right : List String) : Prop :=
  left ≠ [] ∧ right ≠ [] ∧ ∀ id ∈ left, id ∉ right

/-- Two ranges of different timelines or with no time in common, a specific time outside of a range,
or two different specific times. -/
def TimesClash (left right : Query) : Prop :=
  match left.latestAt, left.range, right.latestAt, right.range with
  | _, some leftRange, _, some rightRange => leftRange.index ≠ rightRange.index ∨
      leftRange.indexRange.max < rightRange.indexRange.min ∨
      rightRange.indexRange.max < leftRange.indexRange.min
  | _, some leftRange, some rightLa, none => leftRange.indexRange.contains rightLa.atTime = false
  | some leftLa, none, _, some rightRange => rightRange.indexRange.contains leftLa.atTime = false
  | some leftLa, none, some rightLa, none => leftLa.atTime ≠ rightLa.atTime
  | _, _, _, _ => False

def QueryDatasetRequest.Clash (left right : QueryDatasetRequest) : Prop :=
  SegmentsClash left.segmentIds right.segmentIds ∨
    ∃ leftQuery rightQuery, left.query = some leftQuery ∧ right.query = some rightQuery ∧
      TimesClash leftQuery rightQuery

section Clash

variable {synthesizeLatestAt : Bool}

theorem mergeSegmentIds_error_iff {left right : List String} :
    (∃ e, mergeSegmentIds left right = .error e) ↔ SegmentsClash left right := by
  unfold mergeSegmentIds SegmentsClash
  by_cases hright : right = []
  · simp [hright]
  · by_cases hleft : left = []
    · simp [hleft, hright]
    · have hnil : (left.filter fun id => right.contains id) = [] ↔ ∀ id ∈ left, id ∉ right := by
        simp [filter_eq_nil_iff]
      rw [if_neg (by simp [hright]), if_neg (by simp [hleft])]
      by_cases hcommon : ∀ id ∈ left, id ∉ right
      · rw [if_pos (List.isEmpty_iff.mpr (hnil.mpr hcommon))]
        exact ⟨fun _ => ⟨hleft, hright, hcommon⟩, fun _ => ⟨_, rfl⟩⟩
      · rw [if_neg fun h => hcommon (hnil.mp (List.isEmpty_iff.mp h))]
        constructor
        · intro h
          obtain ⟨e, he⟩ := h
          cases he
        · intro h
          exact absurd h.2.2 hcommon

theorem computeRangeOverlap_error_iff {left right : QueryRange} :
    (∃ e, computeRangeOverlap left right = .error e) ↔ left.index ≠ right.index ∨
      left.indexRange.max < right.indexRange.min ∨ right.indexRange.max < left.indexRange.min := by
  unfold computeRangeOverlap
  by_cases hindex : left.index = right.index
  · by_cases hends : left.indexRange.max < right.indexRange.min ∨ right.indexRange.max < left.indexRange.min
    · simp [hindex, hends]
    · simp [hindex, hends]
  · simp [hindex]

theorem ite_error_iff {α : Type} {c : Prop} [Decidable c] {a : α} {e : DataFusionError} :
    (∃ e', (if c then (Except.ok a : Except DataFusionError α) else .error e) = .error e') ↔ ¬c := by
  by_cases h : c <;> simp [h]

theorem mergeTimes_error_iff {left right : Query} :
    (∃ e, mergeTimes left right synthesizeLatestAt = .error e) ↔ TimesClash left right := by
  obtain ⟨leftLa, leftRange, _, _, _, _, _, _⟩ := left
  obtain ⟨rightLa, rightRange, _, _, _, _, _, _⟩ := right
  cases leftRange with
  | some lr =>
    cases rightRange with
    | some rr =>
      simp only [mergeTimes, TimesClash, ← computeRangeOverlap_error_iff]
      cases computeRangeOverlap lr rr <;> simp [bind, Except.bind]
    | none =>
      cases rightLa with
      | some rla => simp [mergeTimes, TimesClash, ite_error_iff]
      | none => cases leftLa <;> simp [mergeTimes, TimesClash]
  | none =>
    cases leftLa with
    | some lla =>
      cases rightRange with
      | some rr => simp [mergeTimes, TimesClash, ite_error_iff]
      | none =>
        cases rightLa with
        | some rla => by_cases h : lla.atTime = rla.atTime <;> simp [mergeTimes, TimesClash, h]
        | none => simp [mergeTimes, TimesClash]
    | none => cases rightRange <;> cases rightLa <;> simp [mergeTimes, TimesClash]

theorem mergeQueriesAnd_error_iff {left right : QueryDatasetRequest} :
    (∃ e, mergeQueriesAnd left right synthesizeLatestAt = .error e) ↔ left.Clash right := by
  rw [QueryDatasetRequest.Clash, ← mergeSegmentIds_error_iff]
  unfold mergeQueriesAnd
  cases mergeSegmentIds left.segmentIds right.segmentIds with
  | error e => simp [bind, Except.bind]
  | ok segments =>
    cases hright : right.query with
    | none => simp [bind, Except.bind]
    | some rq =>
      cases hleft : left.query with
      | none => simp [bind, Except.bind]
      | some lq =>
        simp only [reduceCtorEq, exists_false, false_or, Option.some.injEq, exists_and_left, exists_eq_left']
        rw [← @mergeTimes_error_iff synthesizeLatestAt]
        cases mergeTimes lq rq synthesizeLatestAt <;> simp [bind, Except.bind]

end Clash

/-! ## Pairings -/

/-- What one row has to satisfy in one way through a filter: leaves of the filter, each with one of
the queries. A leaf has the filter it is and the comparison it is read as; an empty list is read as
no comparison. -/
inductive Pairing where
  | leaf (query : QueryDatasetRequest) (filter left : Expr) (op : Operator) (right : Expr)
  | empty (query : QueryDatasetRequest) (filter : Expr)
  | and (left right : Pairing)

/-- Every pairing of one side with every one of the other. -/
def Pairing.product (left right : List Pairing) : List Pairing :=
  (List.product left right).map fun pair => .and pair.1 pair.2

def leaves (queries : List QueryDatasetRequest) (filter left : Expr) (op : Operator) (right : Expr) :
    List Pairing :=
  queries.map fun query => .leaf query filter left op right

def pairings (queries : List QueryDatasetRequest) : Expr → List Pairing
  | .alias expr _ => pairings queries expr
  | .binaryExpr left op right =>
    match op with
    | .and =>
      if left.isColumn then Pairing.product (pairings queries left) (pairings queries right)
      else Pairing.product (pairings queries right) (pairings queries left)
    | .or => pairings queries left ++ pairings queries right
    | _ => leaves queries (.binaryExpr left op right) left op right
  | .between expr _ low high =>
    Pairing.product (leaves queries (.binaryExpr expr .ltEq high) expr .ltEq high)
      (leaves queries (.binaryExpr expr .gtEq low) expr .gtEq low)
  | .inList expr list negated =>
    match list with
    | [] => queries.map fun query => .empty query (.inList expr [] negated)
    | first :: rest => (first :: rest).flatMap fun item =>
        leaves queries
          (if negated then .inList expr (first :: rest) true else .binaryExpr expr .eq item) expr .eq item
  | _ => []

def Pairing.Holds (E : Engine) (schema : List Field) (row : Row) : Pairing → Prop
  | .leaf query filter _ _ _ => query.Admits row ∧ filter.Satisfied E schema row
  | .empty query filter => query.Admits row ∧ filter.Satisfied E schema row
  | .and left right => left.Holds E schema row ∧ right.Holds E schema row

def Pairing.Contradictory (E : Engine) (schema : List Field) (pairing : Pairing) : Prop :=
  ∀ row, ¬ pairing.Holds E schema row

def restrict (schema : List Field) (synthesizeLatestAt : Bool) (query : QueryDatasetRequest)
    (left : Expr) (op : Operator) (right : Expr) : Except DataFusionError QueryDatasetRequest :=
  match arrangeBinaryExprAsColOnLeft left op right with
  | (left, op, right) => match knownFilterColumn left right schema with
    | .index name time => replaceTimeInQuery query name time op synthesizeLatestAt
    | .segmentId id => .ok { query with segmentIds := [id] }
    | .unknown => .ok query

def Pairing.merged (schema : List Field) (synthesizeLatestAt : Bool) :
    Pairing → Except DataFusionError QueryDatasetRequest
  | .leaf query _ left op right => restrict schema synthesizeLatestAt query left op right
  | .empty _ _ => .error (.execution
      "Attempting to perform InList statement that would return no results due to empty list")
  | .and left right => do
    mergeQueriesAnd (← left.merged schema synthesizeLatestAt) (← right.merged schema synthesizeLatestAt)
      synthesizeLatestAt

/-- The times of a comparison clash with those of the query, or its column is no timeline. -/
def LeafClashes (schema : List Field) (synthesizeLatestAt : Bool) (query : QueryDatasetRequest)
    (left : Expr) (op : Operator) (right : Expr) : Prop :=
  match arrangeBinaryExprAsColOnLeft left op right with
  | (left, op, right) => match knownFilterColumn left right schema with
    | .index name time => name = "" ∨ ∀ range, timesOf op time = .ok range →
        query.Clash (query.withTimes (latestAtOf ⟨name⟩ time op synthesizeLatestAt) ⟨⟨name⟩, range⟩)
    | _ => False

/-- Two pieces of the pairing clash: a query and its comparison, or what two parts are merged to. -/
def Pairing.Clashes (schema : List Field) (synthesizeLatestAt : Bool) : Pairing → Prop
  | .leaf query _ left op right => LeafClashes schema synthesizeLatestAt query left op right
  | .empty _ _ => True
  | .and left right => left.Clashes schema synthesizeLatestAt ∨ right.Clashes schema synthesizeLatestAt ∨
      ∃ l r, left.merged schema synthesizeLatestAt = .ok l ∧ right.merged schema synthesizeLatestAt = .ok r ∧
        l.Clash r

section Merged

variable {schema : List Field} {synthesizeLatestAt : Bool} {queries : List QueryDatasetRequest}

theorem replaceTimeInQuery_error_iff {query : QueryDatasetRequest} {name : String} {time : TimeInt}
    {op : Operator} :
    (∃ e, replaceTimeInQuery query name time op synthesizeLatestAt = .error e) ↔
      name = "" ∨ ∀ range, timesOf op time = .ok range →
        query.Clash (query.withTimes (latestAtOf ⟨name⟩ time op synthesizeLatestAt) ⟨⟨name⟩, range⟩) := by
  unfold replaceTimeInQuery timelineNameTryNew
  by_cases hname : name = ""
  · simp [hname, bind, Except.bind]
  · cases htimes : timesOf op time with
    | error e => simp [hname, bind, Except.bind]
    | ok range =>
      simp only [hname, if_false, bind, Except.bind, mergeQueriesAnd_error_iff, false_or]
      constructor
      · intro h range' hrange
        cases hrange
        exact h
      · intro h
        exact h range rfl

theorem restrict_error_iff {query : QueryDatasetRequest} {left right : Expr} {op : Operator} :
    (∃ e, restrict schema synthesizeLatestAt query left op right = .error e) ↔
      LeafClashes schema synthesizeLatestAt query left op right := by
  unfold restrict LeafClashes
  generalize arrangeBinaryExprAsColOnLeft left op right = arranged
  obtain ⟨left', op', right'⟩ := arranged
  dsimp only
  cases knownFilterColumn left' right' schema with
  | index name time => exact replaceTimeInQuery_error_iff
  | segmentId id => simp
  | unknown => simp

theorem Pairing.merged_error_iff {pairing : Pairing} :
    (∃ e, pairing.merged schema synthesizeLatestAt = .error e) ↔ pairing.Clashes schema synthesizeLatestAt := by
  induction pairing with
  | leaf => exact restrict_error_iff
  | empty => exact ⟨fun _ => trivial, fun _ => ⟨_, rfl⟩⟩
  | and left right ihl ihr =>
    rw [Pairing.Clashes, ← ihl, ← ihr, Pairing.merged]
    cases left.merged schema synthesizeLatestAt with
    | error e => simp [bind, Except.bind]
    | ok l =>
      cases right.merged schema synthesizeLatestAt with
      | error e => simp [bind, Except.bind]
      | ok r => simp [bind, Except.bind, mergeQueriesAnd_error_iff]

end Merged

/-! ## The pushdown collects the pairings -/

/-- A filter all of whose leaves are pushed down. -/
def Expr.Supported (schema : List Field) : Expr → Prop
  | .alias expr _ => expr.Supported schema
  | .binaryExpr left op right =>
    match op with
    | .and => left.Supported schema ∧ right.Supported schema
    | .or => left.Supported schema ∧ right.Supported schema
    | _ => comparisonPushed schema left op right = true
  | .between expr negated low high =>
    negated = false ∧ comparisonPushed schema expr .gtEq low = true ∧ comparisonPushed schema expr .ltEq high = true
  | .inList expr list _ => ∀ item ∈ list, comparisonPushed schema expr .eq item = true
  | _ => False

/-- The result is an error when merging one of the pairings is, and else what they are merged to. -/
def Collects (schema : List Field) (synthesizeLatestAt : Bool) (pushed : Pushed)
    (ps : List Pairing) : Prop :=
  ((∃ e, pushed = .error e) ∧ ∃ p ∈ ps, ∃ e, p.merged schema synthesizeLatestAt = .error e) ∨
    ∃ results, pushed = .ok (some results) ∧
      (∀ p ∈ ps, ∃ result ∈ results, p.merged schema synthesizeLatestAt = .ok result) ∧
      ∀ result ∈ results, ∃ p ∈ ps, p.merged schema synthesizeLatestAt = .ok result

section Collects

variable {schema : List Field} {synthesizeLatestAt : Bool} {queries : List QueryDatasetRequest}
  {onLeft onRight : Pushed} {left right ps : List Pairing}

theorem Collects.error_iff {pushed : Pushed} (h : Collects schema synthesizeLatestAt pushed ps) :
    (∃ e, pushed = .error e) ↔ ∃ p ∈ ps, p.Clashes schema synthesizeLatestAt := by
  constructor
  · intro herror
    obtain ⟨e, he⟩ := herror
    rcases h with ⟨-, p, hp, hmerged⟩ | ⟨results, hok, -⟩
    · exact ⟨p, hp, Pairing.merged_error_iff.mp hmerged⟩
    · rw [he] at hok
      cases hok
  · intro hclash
    obtain ⟨p, hp, hclash⟩ := hclash
    rcases h with ⟨herror, -⟩ | ⟨results, -, hall, -⟩
    · exact herror
    · obtain ⟨e, he⟩ := Pairing.merged_error_iff.mpr hclash
      obtain ⟨result, -, hresult⟩ := hall p hp
      rw [he] at hresult
      cases hresult

theorem collects_mapM {α : Type} {f : α → Except DataFusionError QueryDatasetRequest} {g : α → Pairing}
    {l : List α} (h : ∀ a ∈ l, (g a).merged schema synthesizeLatestAt = f a) :
    Collects schema synthesizeLatestAt (some <$> l.mapM f) (l.map g) := by
  cases hmap : l.mapM f with
  | error e =>
    refine Or.inl ⟨⟨e, rfl⟩, ?_⟩
    obtain ⟨a, ha, e', he⟩ := mapM_error_iff.mp ⟨e, hmap⟩
    exact ⟨g a, mem_map_of_mem ha, e', (h a ha).trans he⟩
  | ok results =>
    refine Or.inr ⟨results, rfl, fun p hp => ?_, fun result hresult => ?_⟩
    · obtain ⟨a, ha, rfl⟩ := mem_map.mp hp
      obtain ⟨result, hresult, hf⟩ := mem_of_mapM_ok hmap ha
      exact ⟨result, hresult, (h a ha).trans hf⟩
    · obtain ⟨a, ha, hf⟩ := exists_of_mem_mapM_ok hmap hresult
      exact ⟨g a, mem_map_of_mem ha, (h a ha).trans hf⟩

theorem collects_leaves {filter left right : Expr} {op : Operator}
    (h : comparisonPushed schema left op right = true) :
    Collects schema synthesizeLatestAt (applyOperator schema synthesizeLatestAt left op right queries)
      (leaves queries filter left op right) := by
  have hmapM : applyOperator schema synthesizeLatestAt left op right queries =
      some <$> queries.mapM fun query => restrict schema synthesizeLatestAt query left op right := by
    unfold comparisonPushed at h
    unfold restrict
    revert h
    generalize harranged : arrangeBinaryExprAsColOnLeft left op right = arranged
    obtain ⟨left', op', right'⟩ := arranged
    intro h
    simp only [Bool.and_eq_true] at h
    rw [applyOperator_of_pushed harranged h.1, applyComparison]
    cases hknown : knownFilterColumn left' right' schema with
    | index name time => simp only [hknown]
    | segmentId id =>
      rw [hknown] at h
      simp only [decide_eq_true_eq] at h
      simp only [hknown, if_pos h.2]
      rw [mapM_of_ok fun query _ => rfl]
      rfl
    | unknown =>
      rw [hknown] at h
      exact absurd h.2 Bool.false_ne_true
  rw [hmapM]
  exact collects_mapM fun query _ => rfl

theorem collects_and (hl : Collects schema synthesizeLatestAt onLeft left)
    (hr : Collects schema synthesizeLatestAt onRight right) (hleft : left ≠ []) (hright : right ≠ []) :
    Collects schema synthesizeLatestAt (applyAnd synthesizeLatestAt onLeft onRight)
      (Pairing.product left right) := by
  obtain ⟨l₀, hl₀⟩ := exists_mem_of_ne_nil left hleft
  obtain ⟨r₀, hr₀⟩ := exists_mem_of_ne_nil right hright
  rcases hl with ⟨⟨e, rfl⟩, p, hp, e', he⟩ | ⟨leftQueries, rfl, hlall, hlfrom⟩
  · refine Or.inl ⟨⟨e, rfl⟩, .and p r₀, mem_map.mpr ⟨(p, r₀), mem_product.mpr ⟨hp, hr₀⟩, rfl⟩, e', ?_⟩
    rw [Pairing.merged, he]
    rfl
  · rcases hr with ⟨⟨e, rfl⟩, p, hp, e', he⟩ | ⟨rightQueries, rfl, hrall, hrfrom⟩
    · obtain ⟨lq, -, hlq⟩ := hlall l₀ hl₀
      refine Or.inl ⟨⟨e, rfl⟩, .and l₀ p, mem_map.mpr ⟨(l₀, p), mem_product.mpr ⟨hl₀, hp⟩, rfl⟩, e', ?_⟩
      rw [Pairing.merged, hlq, he]
      rfl
    · have happly : applyAnd synthesizeLatestAt (.ok (some leftQueries)) (.ok (some rightQueries)) =
          some <$> (leftQueries.product rightQueries).mapM fun pair =>
            mergeQueriesAnd pair.1 pair.2 synthesizeLatestAt := rfl
      have hmerged : ∀ l r lq rq, l.merged schema synthesizeLatestAt = .ok lq →
          r.merged schema synthesizeLatestAt = .ok rq →
          (Pairing.and l r).merged schema synthesizeLatestAt = mergeQueriesAnd lq rq synthesizeLatestAt := by
        intro l r lq rq hlq hrq
        rw [Pairing.merged, hlq, hrq]
        rfl
      rw [happly]
      cases hmap : (leftQueries.product rightQueries).mapM fun pair =>
          mergeQueriesAnd pair.1 pair.2 synthesizeLatestAt with
      | error e =>
        obtain ⟨⟨lq, rq⟩, hpair, e', he⟩ := mapM_error_iff.mp ⟨e, hmap⟩
        obtain ⟨hlq, hrq⟩ := mem_product.mp hpair
        obtain ⟨l, hl, hlm⟩ := hlfrom lq hlq
        obtain ⟨r, hr, hrm⟩ := hrfrom rq hrq
        exact Or.inl ⟨⟨e, rfl⟩, .and l r, mem_map.mpr ⟨(l, r), mem_product.mpr ⟨hl, hr⟩, rfl⟩, e',
          (hmerged l r lq rq hlm hrm).trans he⟩
      | ok results =>
        refine Or.inr ⟨results, rfl, fun p hp => ?_, fun result hresult => ?_⟩
        · obtain ⟨⟨l, r⟩, hpair, rfl⟩ := mem_map.mp hp
          obtain ⟨hl, hr⟩ := mem_product.mp hpair
          obtain ⟨lq, hlq, hlm⟩ := hlall l hl
          obtain ⟨rq, hrq, hrm⟩ := hrall r hr
          obtain ⟨result, hresult, hf⟩ := mem_of_mapM_ok hmap (mem_product.mpr ⟨hlq, hrq⟩)
          exact ⟨result, hresult, (hmerged l r lq rq hlm hrm).trans hf⟩
        · obtain ⟨⟨lq, rq⟩, hpair, hf⟩ := exists_of_mem_mapM_ok hmap hresult
          obtain ⟨hlq, hrq⟩ := mem_product.mp hpair
          obtain ⟨l, hl, hlm⟩ := hlfrom lq hlq
          obtain ⟨r, hr, hrm⟩ := hrfrom rq hrq
          exact ⟨.and l r, mem_map.mpr ⟨(l, r), mem_product.mpr ⟨hl, hr⟩, rfl⟩,
            (hmerged l r lq rq hlm hrm).trans hf⟩

theorem collects_or (hl : Collects schema synthesizeLatestAt onLeft left)
    (hr : Collects schema synthesizeLatestAt onRight right) (hps : ∀ p, p ∈ ps ↔ p ∈ left ∨ p ∈ right) :
    Collects schema synthesizeLatestAt (applyOr queries onLeft onRight) ps := by
  rcases hl with ⟨⟨e, rfl⟩, p, hp, he⟩ | ⟨leftQueries, rfl, hlall, hlfrom⟩
  · exact Or.inl ⟨⟨e, rfl⟩, p, (hps p).mpr (Or.inl hp), he⟩
  · rcases hr with ⟨⟨e, rfl⟩, p, hp, he⟩ | ⟨rightQueries, rfl, hrall, hrfrom⟩
    · exact Or.inl ⟨⟨e, rfl⟩, p, (hps p).mpr (Or.inr hp), he⟩
    · refine Or.inr ⟨leftQueries ++ rightQueries, rfl, fun p hp => ?_, fun result hresult => ?_⟩
      · rcases (hps p).mp hp with hp | hp
        · obtain ⟨result, hresult, hm⟩ := hlall p hp
          exact ⟨result, mem_append_left _ hresult, hm⟩
        · obtain ⟨result, hresult, hm⟩ := hrall p hp
          exact ⟨result, mem_append_right _ hresult, hm⟩
      · rcases mem_append.mp hresult with hresult | hresult
        · obtain ⟨p, hp, hm⟩ := hlfrom result hresult
          exact ⟨p, (hps p).mpr (Or.inl hp), hm⟩
        · obtain ⟨p, hp, hm⟩ := hrfrom result hresult
          exact ⟨p, (hps p).mpr (Or.inr hp), hm⟩

end Collects

/-! ## The pairings of a filter -/

def frameEq (n : Int) : Expr := .binaryExpr (.column "frame") .eq (frameLiteral n)

section Pairings

variable {E : Engine} {schema : List Field} {row : Row} {synthesizeLatestAt : Bool}
  {queries : List QueryDatasetRequest} {left right : List Pairing}

theorem product_ne_nil (hl : left ≠ []) (hr : right ≠ []) : Pairing.product left right ≠ [] := by
  obtain ⟨l, hl⟩ := exists_mem_of_ne_nil left hl
  obtain ⟨r, hr⟩ := exists_mem_of_ne_nil right hr
  exact ne_nil_of_mem (mem_map.mpr ⟨(l, r), mem_product.mpr ⟨hl, hr⟩, rfl⟩)

theorem leaves_ne_nil {filter left right : Expr} {op : Operator} (hq : queries ≠ []) :
    leaves queries filter left op right ≠ [] := by
  rw [leaves, ne_eq, map_eq_nil_iff]
  exact hq

variable {expr first : Expr} {f : Expr → Expr}

theorem flatMap_leaves_ne_nil {rest : List Expr} (hq : queries ≠ []) :
    ((first :: rest).flatMap fun item => leaves queries (f item) expr .eq item) ≠ [] := by
  exact append_ne_nil_of_left_ne_nil (leaves_ne_nil hq) _

theorem pairings_ne_nil (hq : queries ≠ []) (h : expr.Supported schema) : pairings queries expr ≠ [] := by
  induction expr using Expr.parts with
  | aliased expr name ih => exact ih h
  | binaryExpr left op right ihl ihr =>
    cases op with
    | and =>
      simp only [pairings]
      split
      · exact product_ne_nil (ihl h.1) (ihr h.2)
      · exact product_ne_nil (ihr h.2) (ihl h.1)
    | or => exact append_ne_nil_of_left_ne_nil (ihl h.1) _
    | _ => exact leaves_ne_nil hq
  | between expr negated low high => exact product_ne_nil (leaves_ne_nil hq) (leaves_ne_nil hq)
  | inList expr list negated =>
    cases list with
    | nil =>
      simp only [pairings, ne_eq, map_eq_nil_iff]
      exact hq
    | cons first rest => exact flatMap_leaves_ne_nil hq
  | column | literal | not | other => exact absurd h id

theorem collects_inList {rest : List Expr}
    (h : ∀ item ∈ first :: rest, comparisonPushed schema expr .eq item = true) :
    Collects schema synthesizeLatestAt
      (rest.foldl
        (fun acc item => applyOr queries (applyOperator schema synthesizeLatestAt expr .eq item queries) acc)
        (applyOperator schema synthesizeLatestAt expr .eq first queries))
      ((first :: rest).flatMap fun item => leaves queries (f item) expr .eq item) := by
  induction rest using reverseRecOn with
  | nil =>
    rw [flatMap_singleton]
    exact collects_leaves (h first mem_cons_self)
  | append_singleton rest last ih =>
    rw [foldl_append, foldl_cons, foldl_nil]
    rw [← cons_append] at h ⊢
    have hrest := ih fun item hitem => h item (mem_append_left _ hitem)
    have hlast : Collects schema synthesizeLatestAt
        (applyOperator schema synthesizeLatestAt expr .eq last queries)
        (leaves queries (f last) expr .eq last) :=
      collects_leaves (h last (mem_append_right _ (mem_singleton_self _)))
    refine collects_or hlast hrest fun p => ?_
    rw [flatMap_append, flatMap_singleton, mem_append, or_comm]

/-- The result of a filter is that of its pairings. One case for each form of the expression. -/
theorem collects_apply (hq : queries ≠ []) (h : expr.Supported schema) :
    Collects schema synthesizeLatestAt (applyFilterExprToQueries schema synthesizeLatestAt expr queries)
      (pairings queries expr) := by
  induction expr using Expr.parts with
  | aliased expr name ih => exact ih h
  | binaryExpr left op right ihl ihr =>
    cases op with
    | and =>
      have hl := pairings_ne_nil hq h.1
      have hr := pairings_ne_nil hq h.2
      simp only [applyFilterExprToQueries, pairings]
      split
      · exact collects_and (ihl h.1) (ihr h.2) hl hr
      · exact collects_and (ihr h.2) (ihl h.1) hr hl
    | or =>
      simp only [applyFilterExprToQueries, pairings]
      split
      · exact collects_or (ihl h.1) (ihr h.2) fun p => mem_append
      · exact collects_or (ihr h.2) (ihl h.1) fun p => mem_append.trans or_comm
    | _ => exact collects_leaves h
  | between expr negated low high =>
    obtain ⟨rfl, hlow, hhigh⟩ := h
    exact collects_and (collects_leaves hhigh) (collects_leaves hlow) (leaves_ne_nil hq) (leaves_ne_nil hq)
  | inList expr list negated =>
    cases list with
    | nil =>
      obtain ⟨query, hquery⟩ := exists_mem_of_ne_nil queries hq
      exact Or.inl ⟨⟨_, rfl⟩, .empty query _, mem_map_of_mem hquery, _, rfl⟩
    | cons first rest => exact collects_inList h
  | column | literal | not | other => exact absurd h id

/-! A row that is admitted and satisfies the filter is in a pairing, and the other way around. -/

theorem mem_leaves_holds {filter left right : Expr} {op : Operator} :
    (∃ p ∈ leaves queries filter left op right, p.Holds E schema row) ↔
      (∃ query ∈ queries, query.Admits row) ∧ filter.Satisfied E schema row := by
  simp only [leaves, mem_map, exists_exists_and_eq_and, Pairing.Holds]
  constructor
  · intro h
    obtain ⟨query, hquery, hadmits, hsat⟩ := h
    exact ⟨⟨query, hquery, hadmits⟩, hsat⟩
  · intro h
    obtain ⟨⟨query, hquery, hadmits⟩, hsat⟩ := h
    exact ⟨query, hquery, hadmits, hsat⟩

theorem mem_product_holds : (∃ p ∈ Pairing.product left right, p.Holds E schema row) ↔
    (∃ p ∈ left, p.Holds E schema row) ∧ ∃ p ∈ right, p.Holds E schema row := by
  simp only [Pairing.product, mem_map, exists_exists_and_eq_and, Pairing.Holds]
  constructor
  · intro h
    obtain ⟨⟨l, r⟩, hpair, hl, hr⟩ := h
    obtain ⟨hlmem, hrmem⟩ := mem_product.mp hpair
    exact ⟨⟨l, hlmem, hl⟩, r, hrmem, hr⟩
  · intro h
    obtain ⟨⟨l, hlmem, hl⟩, r, hrmem, hr⟩ := h
    exact ⟨(l, r), mem_product.mpr ⟨hlmem, hrmem⟩, hl, hr⟩

theorem mem_flatMap_holds {list : List Expr} :
    (∃ p ∈ (list.flatMap fun item => leaves queries (f item) expr .eq item), p.Holds E schema row) ↔
      (∃ query ∈ queries, query.Admits row) ∧ ∃ item ∈ list, (f item).Satisfied E schema row := by
  constructor
  · intro h
    obtain ⟨p, hp, hholds⟩ := h
    obtain ⟨item, hitem, hp⟩ := mem_flatMap.mp hp
    obtain ⟨hadmits, hsat⟩ := mem_leaves_holds.mp ⟨p, hp, hholds⟩
    exact ⟨hadmits, item, hitem, hsat⟩
  · intro h
    obtain ⟨hadmits, item, hitem, hsat⟩ := h
    obtain ⟨p, hp, hholds⟩ := mem_leaves_holds.mpr ⟨hadmits, hsat⟩
    exact ⟨p, mem_flatMap.mpr ⟨item, hitem, hp⟩, hholds⟩

theorem mem_pairings_holds (h : expr.Supported schema) :
    (∃ p ∈ pairings queries expr, p.Holds E schema row) ↔
      (∃ query ∈ queries, query.Admits row) ∧ expr.Satisfied E schema row := by
  induction expr using Expr.parts with
  | aliased expr name ih =>
    exact ih h
  | binaryExpr left op right ihl ihr =>
    cases op with
    | and =>
      have hl := ihl h.1
      have hr := ihr h.2
      simp only [pairings]
      split
      · rw [mem_product_holds, hl, hr, satisfied_and]
        exact and_and_left.symm
      · rw [mem_product_holds, hl, hr, satisfied_and]
        exact and_comm.trans and_and_left.symm
    | or =>
      have hl := ihl h.1
      have hr := ihr h.2
      simp only [pairings, mem_append, or_and_right, exists_or, hl, hr, satisfied_or]
      exact and_or_left.symm
    | _ => exact mem_leaves_holds
  | between expr negated low high =>
    obtain ⟨rfl, -, -⟩ := h
    simp only [pairings]
    rw [mem_product_holds, mem_leaves_holds, mem_leaves_holds, satisfied_between]
    exact and_comm.trans and_and_left.symm
  | inList expr list negated =>
    cases list with
    | nil =>
      simp only [pairings, mem_map, exists_exists_and_eq_and, Pairing.Holds]
      simp only [← and_assoc, ← exists_and_right]
    | cons first rest =>
      cases negated with
      | false =>
        rw [satisfied_inList]
        exact mem_flatMap_holds
      | true =>
        refine mem_flatMap_holds.trans (and_congr_right' ?_)
        exact ⟨fun h => h.choose_spec.2, fun h => ⟨first, mem_cons_self, h⟩⟩
  | column | literal | not | other => exact absurd h id

theorem frameEq_satisfied {n : Int} (h : (frameEq n).Satisfied nullEngine frameSchema row) :
    (row.index ⟨"frame"⟩).map (fun time => time.asI64.val) = some (I64.sat n).val := by
  have hcompare := (satisfied_comparison rfl).mp h
  have hliteral : (frameLiteral n).eval nullEngine frameSchema row = .number (I64.sat n).val :=
    (eval_of_toLiteralScalar rfl).trans (datum_of_exact rfl)
  rw [hliteral, Expr.eval, column_of_index (by decide) rfl] at hcompare
  cases hindex : row.index ⟨"frame"⟩ with
  | none =>
    rw [hindex] at hcompare
    cases hcompare
  | some time =>
    rw [hindex] at hcompare
    exact congrArg some (of_decide_eq_true (Option.some.inj hcompare))

/-- **The pushdown fails only on contradictions when a clash in one pairing means that all pairings
are contradictory.** -/
theorem apply_error_iff_contradictory (E : Engine) (schema : List Field) (synthesizeLatestAt : Bool)
    {queries : List QueryDatasetRequest} (hq : queries ≠ []) {expr : Expr} (h : expr.Supported schema) :
    ((∃ e, applyFilterExprToQueries schema synthesizeLatestAt expr queries = .error e) →
      ∀ query ∈ queries, ∀ row : Row, query.Admits row → ¬ expr.Satisfied E schema row) ↔
    ((∃ p ∈ pairings queries expr, p.Clashes schema synthesizeLatestAt) →
      ∀ p ∈ pairings queries expr, p.Contradictory E schema) := by
  rw [(collects_apply hq h).error_iff]
  refine imp_congr_right fun _ => ?_
  constructor
  · intro hall p hp row hholds
    obtain ⟨⟨query, hquery, hadmits⟩, hsat⟩ := (mem_pairings_holds h).mp ⟨p, hp, hholds⟩
    exact hall query hquery row hadmits hsat
  · intro hall query hquery row hadmits hsat
    obtain ⟨p, hp, hholds⟩ := (mem_pairings_holds h).mpr ⟨⟨query, hquery, hadmits⟩, hsat⟩
    exact hall p hp row hholds

/-- A frame of five and of seven is a contradiction, and the pushdown fails on it. -/
theorem apply_error_iff_contradictory_frames :
    (∃ e, applyFilterExprToQueries frameSchema false
      (.binaryExpr (frameEq 5) .and (frameEq 7)) [.default] = .error e) ∧
    ∀ query ∈ [QueryDatasetRequest.default], ∀ row : Row, query.Admits row →
      ¬ (Expr.binaryExpr (frameEq 5) .and (frameEq 7)).Satisfied nullEngine frameSchema row := by
  have hsupported : (Expr.binaryExpr (frameEq 5) .and (frameEq 7)).Supported frameSchema := ⟨rfl, rfl⟩
  refine ⟨⟨_, rfl⟩, (apply_error_iff_contradictory nullEngine frameSchema false
    (cons_ne_nil _ _) hsupported).mpr (fun _ p hp row hholds => ?_) ⟨_, rfl⟩⟩
  obtain rfl := mem_singleton.mp hp
  have hseven := frameEq_satisfied hholds.1.2
  have hfive := frameEq_satisfied hholds.2.2
  rw [hseven] at hfive
  exact absurd (Option.some.inj hfive) (by decide)

/-- `frame IN (1, 20) AND frame <= 5` is an error, for the twenty is not at most five; the one is. -/
theorem inList_fails : ¬ ∀ (E : Engine) (schema : List Field) (synthesizeLatestAt : Bool)
    (queries : List QueryDatasetRequest) (expr : Expr), queries ≠ [] → expr.Supported schema →
    (∃ e, applyFilterExprToQueries schema synthesizeLatestAt expr queries = .error e) →
      ∀ query ∈ queries, ∀ row : Row, query.Admits row → ¬ expr.Satisfied E schema row := by
  intro hall
  refine hall nullEngine frameSchema false [.default]
    (.binaryExpr (.inList (.column "frame") [frameLiteral 1, frameLiteral 20] false) .and
      (.binaryExpr (.column "frame") .ltEq (frameLiteral 5)))
    (cons_ne_nil _ _) ⟨?_, rfl⟩ ⟨_, rfl⟩ .default (mem_singleton_self _) (rowAtFrame 1)
    (default_admits _) rfl
  intro item hitem
  rcases mem_cons.mp hitem with rfl | hitem
  · rfl
  · obtain rfl := mem_singleton.mp hitem
    rfl

end Pairings

end Dalaran.Pushdown
