import Dalaran.Query.LatestRow

/-
  When `Chunk::latest_at` is right, on every chunk.

  The row it should return is the one with the greatest time and row id among the
  rows that qualify: those with a cell of the component at or before the query time.

  Three shortcuts miss it. The scans start from the smallest time and row id zero,
  and a row of exactly that index is not closer. The time-sorted path steps back
  from the partition point with a saturating subtraction. And it takes the last row
  of the greatest time, whatever order the row ids of that time are in.
  `latestAt_right_iff` says that nothing else goes wrong.

  Correspondence (Rust ↔ Lean):
    `Chunk::latest_at`, time-sorted ↔ `Chunk.lastAt`
    `Chunk::latest_at`, unsorted ↔ `Chunk.closestTime`
-/

namespace Dalaran

open List Option

/-! ## Queries -/

namespace LatestAtQuery

def new (timeline : TimelineName) (at_ : TimeInt) : LatestAtQuery := ⟨some timeline, max at_ TimeInt.MIN⟩

def newStatic : LatestAtQuery := ⟨none, TimeInt.STATIC⟩

/-- What the constructors guarantee: a query on a timeline is never about the static time. -/
def NeverStatic (query : LatestAtQuery) : Prop := ∀ timeline, query.timeline = some timeline → TimeInt.MIN ≤ query.at_

theorem new_neverStatic (timeline : TimelineName) (at_ : TimeInt) : (new timeline at_).NeverStatic :=
  fun _ _ => le_max_right _ _

end LatestAtQuery

namespace Chunk

variable {c : Chunk} {query : LatestAtQuery} {timeline : TimelineName} {component : ComponentIdentifier}

/-! ## The right answer -/

def Qualifies (c : Chunk) (query : LatestAtQuery) (component : ComponentIdentifier) (i : Nat)
    (index : TimeInt ×ₗ RowId) : Prop :=
  c.CellIndex query.timeline component i index ∧ (ofLex index).1 ≤ query.at_

/-- The row with the greatest index of those that qualify, and none if none does. -/
def IsLatest (c : Chunk) (query : LatestAtQuery) (component : ComponentIdentifier) : Option Nat → Prop
  | some i => ∃ index, c.Qualifies query component i index ∧
      ∀ j index', c.Qualifies query component j index' → index' ≤ index
  | none => ∀ i index, ¬ c.Qualifies query component i index

theorem IsLatest.index_unique {row row' : Option Nat} (h : c.IsLatest query component row)
    (h' : c.IsLatest query component row') :
    row.bind (c.unitIndex query.timeline) = row'.bind (c.unitIndex query.timeline) := by
  cases row with
  | none =>
    cases row' with
    | none => rfl
    | some i =>
      obtain ⟨index, hindex, -⟩ := h'
      exact absurd hindex (h i index)
  | some i =>
    obtain ⟨index, hindex, hgreatest⟩ := h
    cases row' with
    | none => exact absurd hindex (h' i index)
    | some j =>
      obtain ⟨index', hindex', hgreatest'⟩ := h'
      rw [bind_some, bind_some, hindex.1.2, hindex'.1.2]
      exact congrArg some (le_antisymm (hgreatest' i index hindex) (hgreatest j index' hindex'))

/-! ## The two paths -/

def validRows (column : ComponentColumn) (i : Nat) : Bool := decide (column.listArray.validity[i]? = some true)

/-- The path for time-sorted chunks: back from the partition point, over the nulls. -/
def lastAt (isValid : Nat → Bool) (times : List I64) (at_ : TimeInt) : Option Nat :=
  lastValid isValid ((times.takeWhile fun time => decide (time ≤ at_.asI64)).length - 1 + 1)

/-- Where the time-sorted path may be taken, the other path finds a row of the same time and row id. -/
def PathsAgree (c : Chunk) (query : LatestAtQuery) (component : ComponentIdentifier) : Prop :=
  ∀ timeline tc column, query.timeline = some timeline → c.timelines.lookup timeline = some tc →
    c.components.lookup component = some column → tc.isSorted = true →
    (lastAt (validRows column) tc.times query.at_).bind (c.unitIndex query.timeline) =
      (c.closestTime (validRows column) tc.times query.at_).bind (c.unitIndex query.timeline)

def scanStart (c : Chunk) : TimeInt ×ₗ RowId := toLex (if c.isStatic then TimeInt.STATIC else TimeInt.MIN, 0)

/-- A row qualifies, and no later row does. -/
def LastQualifying (c : Chunk) (query : LatestAtQuery) (component : ComponentIdentifier) (i : Nat)
    (index : TimeInt ×ₗ RowId) : Prop :=
  c.Qualifies query component i index ∧ ∀ j index', c.Qualifies query component j index' → j ≤ i

/-- The inputs that no shortcut gets wrong. -/
structure ShortcutsHold (c : Chunk) (query : LatestAtQuery) (component : ComponentIdentifier) : Prop where
  /-- A scan has something greater than its start to find, if it has anything to find. -/
  scanned : (c.isStatic = true → c.isSorted = false) → (∃ i index, c.Qualifies query component i index) →
    ∃ i index, c.Qualifies query component i index ∧ index ≠ c.scanStart
  /-- Where all rows are later than the query, the first one has no cell. -/
  firstRow : ∀ timeline tc, query.timeline = some timeline → c.timelines.lookup timeline = some tc →
    tc.isSorted = true → (∀ t ∈ tc.times, query.at_.asI64 < t) → c.cellAt 0 component = none
  /-- In a time-sorted chunk, the last row that qualifies has the greatest row id of its time. -/
  ties : ∀ timeline tc, query.timeline = some timeline → c.timelines.lookup timeline = some tc →
    tc.isSorted = true → ∀ i index, c.LastQualifying query component i index →
      ∀ j index', c.Qualifies query component j index' → (ofLex index').1 = (ofLex index).1 →
        (ofLex index').2 ≤ (ofLex index).2

/-! ## Temporal chunks -/

section Temporal

variable {tc : TimeColumn} {column : ComponentColumn}

theorem validRows_iff (hcol : c.components.lookup component = some column) (i : Nat) :
    validRows column i = true ↔ (c.cellAt i component).isSome := isValid_iff hcol i

theorem qualifies_iff (hwf : c.WellFormed) (hstatic : c.isStatic = false)
    (htimeline : query.timeline = some timeline) {i : Nat} {index : TimeInt ×ₗ RowId} :
    c.Qualifies query component i index ↔ ∃ t r, c.HasCellAt timeline component i t ∧
      c.rowIds[i]? = some r ∧ index = toLex (⟨t⟩, r) ∧ (⟨t⟩ : TimeInt) ≤ query.at_ := by
  unfold Qualifies
  rw [htimeline, cellIndex_iff hstatic hwf]
  constructor
  · intro ⟨⟨t, r, hcell, hr, hindex⟩, hle⟩
    exact ⟨t, r, hcell, hr, hindex, by rwa [hindex] at hle⟩
  · intro ⟨t, r, hcell, hr, hindex, hle⟩
    exact ⟨⟨t, r, hcell, hr, hindex⟩, by rwa [hindex]⟩

theorem closestTime_isLatest_iff (hwf : c.WellFormed) (hstatic : c.isStatic = false)
    (htimeline : query.timeline = some timeline) (hat : TimeInt.MIN ≤ query.at_)
    (htc : c.timelines.lookup timeline = some tc) (hcol : c.components.lookup component = some column) :
    c.IsLatest query component (c.closestTime (validRows column) tc.times query.at_) ↔
      ((∃ i index, c.Qualifies query component i index) →
        ∃ i index, c.Qualifies query component i index ∧ index ≠ c.scanStart) := by
  have hstart : c.scanStart = firstIndex := by
    unfold scanStart
    rw [hstatic]
    rfl
  obtain ⟨hsome, hnone⟩ := closestTime_spec hwf hstatic htimeline hat htc (validRows_iff hcol)
  rw [hstart]
  cases hrow : c.closestTime (validRows column) tc.times query.at_ with
  | some i =>
    obtain ⟨index, hindex, hle, hlt, hgreatest⟩ := hsome i hrow
    constructor
    · exact fun _ _ => ⟨i, index, ⟨hindex, hle⟩, hlt.ne'⟩
    · exact fun _ => ⟨index, ⟨hindex, hle⟩, fun j index' hj => hgreatest j index' hj.1 hj.2⟩
  | none =>
    constructor
    · intro h ⟨i, index, hindex⟩
      exact absurd hindex (h i index)
    · intro h i index hindex
      obtain ⟨j, index', hj, hne⟩ := h ⟨i, index, hindex⟩
      have hle : index' ≤ firstIndex := hnone hrow j index' hj.1 hj.2
      obtain ⟨t, r, -, -, rfl, -⟩ := (qualifies_iff hwf hstatic htimeline).mp hj
      have hmin : TimeInt.MIN ≤ (⟨t⟩ : TimeInt) := by
        have hcell := hj.1
        rw [htimeline] at hcell
        exact hcell.MIN_le hstatic
      refine hne (le_antisymm hle ?_)
      exact Prod.Lex.toLex_mono ⟨hmin, Fin.zero_le r⟩

theorem not_qualifies_of_later (component : ComponentIdentifier) (hwf : c.WellFormed) (hstatic : c.isStatic = false)
    (htimeline : query.timeline = some timeline) (htc : c.timelines.lookup timeline = some tc)
    (hlater : ∀ t ∈ tc.times, query.at_.asI64 < t) (i : Nat) (index : TimeInt ×ₗ RowId) :
    ¬ c.Qualifies query component i index := by
  intro hi
  obtain ⟨t, r, hcell, -, -, hle⟩ := (qualifies_iff hwf hstatic htimeline).mp hi
  have htime : tc.times[i]? = some t := by
    have ht := hcell.1
    rwa [timeAt, htc] at ht
  exact absurd hle (not_le.mpr (hlater t (mem_of_getElem? htime)))

theorem lastAt_isLatest_iff_of_later (hwf : c.WellFormed) (hstatic : c.isStatic = false)
    (htimeline : query.timeline = some timeline) (htc : c.timelines.lookup timeline = some tc)
    (hcol : c.components.lookup component = some column) (hlater : ∀ t ∈ tc.times, query.at_.asI64 < t) :
    c.IsLatest query component (lastAt (validRows column) tc.times query.at_) ↔ c.cellAt 0 component = none := by
  have hnil : tc.times.takeWhile (fun time => decide (time ≤ query.at_.asI64)) = [] := by
    cases htimes : tc.times with
    | nil => rfl
    | cons t times =>
      have hlt := hlater t (by rw [htimes]; exact mem_cons_self)
      rw [takeWhile_cons, decide_eq_false (not_le.mpr hlt)]
      rfl
  have hnobody := not_qualifies_of_later component hwf hstatic htimeline htc hlater
  have hfirst : lastAt (validRows column) tc.times query.at_ = if validRows column 0 then some 0 else none := by
    unfold lastAt
    rw [hnil]
    show (List.find? _ [0]) = _
    rw [List.find?_singleton]
  have hvalid := validRows_iff hcol 0
  rw [hfirst]
  cases hcell : c.cellAt 0 component with
  | none =>
    rw [hcell] at hvalid
    rw [if_neg (by simpa using hvalid)]
    exact iff_of_true hnobody rfl
  | some cell =>
    rw [hcell] at hvalid
    rw [if_pos (hvalid.mpr rfl)]
    refine iff_of_false (fun h => ?_) (by simp)
    obtain ⟨index, hindex, -⟩ := h
    exact hnobody 0 index hindex

theorem lastAt_isLatest_iff_of_exists (hwf : c.WellFormed) (hstatic : c.isStatic = false)
    (htimeline : query.timeline = some timeline) (htc : c.timelines.lookup timeline = some tc)
    (hcol : c.components.lookup component = some column) (hsorted : tc.isSorted = true)
    (hreached : ∃ t ∈ tc.times, t ≤ query.at_.asI64) :
    c.IsLatest query component (lastAt (validRows column) tc.times query.at_) ↔
      ∀ i index, c.LastQualifying query component i index → ∀ j index',
        c.Qualifies query component j index' → (ofLex index').1 = (ofLex index).1 →
          (ofLex index').2 ≤ (ofLex index).2 := by
  have hasc : tc.times.Pairwise (· ≤ ·) :=
    Seq.ascending_iff.mp ((hwf.times_wf _ _ htc).isSorted_eq.symm.trans hsorted)
  have hvalid := validRows_iff hcol
  have hat : ∀ {i t}, c.timeAt i timeline = some t → tc.times[i]? = some t := by
    intro i t ht
    rwa [timeAt, htc] at ht
  -- the rows at or before the query time are a prefix that is not empty
  have hpos : (tc.times.takeWhile fun time => decide (time ≤ query.at_.asI64)).length - 1 + 1 =
      (tc.times.takeWhile fun time => decide (time ≤ query.at_.asI64)).length := by
    obtain ⟨t, ht, hle⟩ := hreached
    obtain ⟨k, hk⟩ := mem_iff_getElem?.mp ht
    have hprefix := (lt_prefix_iff hwf htc hsorted query.at_ (i := k) (t := t) (by rw [timeAt, htc]; exact hk)).mpr hle
    omega
  have hbefore : ∀ {i index}, c.Qualifies query component i index →
      i < (tc.times.takeWhile fun time => decide (time ≤ query.at_.asI64)).length ∧ validRows column i = true := by
    intro i index hi
    obtain ⟨t, r, hcell, -, -, hle⟩ := (qualifies_iff hwf hstatic htimeline).mp hi
    exact ⟨(lt_prefix_iff hwf htc hsorted query.at_ hcell.1).mpr hle, (hvalid i).mpr hcell.2⟩
  unfold lastAt
  rw [hpos]
  cases hrow : lastValid (validRows column)
      (tc.times.takeWhile fun time => decide (time ≤ query.at_.asI64)).length with
  | none =>
    have hnobody : ∀ i index, ¬ c.Qualifies query component i index := by
      intro i index hi
      obtain ⟨hlt, hv⟩ := hbefore hi
      rw [lastValid_eq_none_iff.mp hrow i hlt] at hv
      cases hv
    exact iff_of_true hnobody fun i index hi => absurd hi.1 (hnobody i index)
  | some i =>
    obtain ⟨hlt, hv, hnext⟩ := lastValid_eq_some_iff.mp hrow
    -- the row it takes is the last one that qualifies
    obtain ⟨t, ht⟩ : ∃ t, tc.times[i]? = some t :=
      ⟨_, List.getElem?_eq_getElem (hlt.trans_le (takeWhile_sublist _).length_le)⟩
    have htime : c.timeAt i timeline = some t := by rw [timeAt, htc]; exact ht
    have hcell : c.HasCellAt timeline component i t := ⟨htime, (hvalid i).mp hv⟩
    obtain ⟨r, hindex⟩ := hcell.cellIndex hstatic hwf
    have hle : (⟨t⟩ : TimeInt) ≤ query.at_ := (lt_prefix_iff hwf htc hsorted query.at_ htime).mp hlt
    have hi : c.Qualifies query component i (toLex (⟨t⟩, r)) := ⟨htimeline ▸ hindex, hle⟩
    have hlast : ∀ j index', c.Qualifies query component j index' → j ≤ i := by
      intro j index' hj
      obtain ⟨hjlt, hjv⟩ := hbefore hj
      by_contra hne
      rw [hnext j (by omega) hjlt] at hjv
      cases hjv
    constructor
    · intro hlatest k index' hk j index'' hj htie
      obtain ⟨index, hself, hgreatest⟩ := hlatest
      have hki : k = i := le_antisymm (hlast k index' hk.1) (hk.2 i _ hi)
      subst hki
      have heq : index' = index := mem_unique hk.1.1.2 hself.1.2
      have hle' := hgreatest j index'' hj
      rw [heq] at htie ⊢
      rcases Prod.Lex.le_iff.mp hle' with hlt' | ⟨-, hle'⟩
      · exact absurd htie hlt'.ne
      · exact hle'
    · intro hties
      refine ⟨_, hi, fun j index' hj => ?_⟩
      have htie := hties i _ ⟨hi, hlast⟩ j index' hj
      obtain ⟨t', r', hcell', -, rfl, -⟩ := (qualifies_iff hwf hstatic htimeline).mp hj
      have hle' : t' ≤ t := by
        rcases Nat.lt_or_eq_of_le (hlast j _ hj) with hlt' | rfl
        · obtain ⟨hj', hjt⟩ := List.getElem?_eq_some_iff.mp (hat hcell'.1)
          obtain ⟨hi', hit⟩ := List.getElem?_eq_some_iff.mp ht
          rw [← hjt, ← hit]
          exact pairwise_iff_getElem.mp hasc j i hj' hi' hlt'
        · exact (some.inj ((hat hcell'.1).symm.trans ht)).le
      rcases hle'.lt_or_eq with hlt' | rfl
      · exact Prod.Lex.toLex_le_toLex.mpr (.inl hlt')
      · exact Prod.Lex.toLex_le_toLex.mpr (.inr ⟨rfl, htie rfl⟩)

theorem lastAt_isLatest_iff (hwf : c.WellFormed) (hstatic : c.isStatic = false)
    (htimeline : query.timeline = some timeline) (htc : c.timelines.lookup timeline = some tc)
    (hcol : c.components.lookup component = some column) (hsorted : tc.isSorted = true) :
    c.IsLatest query component (lastAt (validRows column) tc.times query.at_) ↔
      ((∀ t ∈ tc.times, query.at_.asI64 < t) → c.cellAt 0 component = none) ∧
        ∀ i index, c.LastQualifying query component i index → ∀ j index',
          c.Qualifies query component j index' → (ofLex index').1 = (ofLex index).1 →
            (ofLex index').2 ≤ (ofLex index).2 := by
  by_cases hlater : ∀ t ∈ tc.times, query.at_.asI64 < t
  · have hnobody := not_qualifies_of_later component hwf hstatic htimeline htc hlater
    rw [lastAt_isLatest_iff_of_later hwf hstatic htimeline htc hcol hlater]
    exact ⟨fun h => ⟨fun _ => h, fun i index hi => absurd hi.1 (hnobody i index)⟩, fun h => h.1 hlater⟩
  · have hreached : ∃ t ∈ tc.times, t ≤ query.at_.asI64 := by
      by_contra hnone
      exact hlater fun t ht => not_le.mp fun hle => hnone ⟨t, ht, hle⟩
    rw [lastAt_isLatest_iff_of_exists hwf hstatic htimeline htc hcol hsorted hreached]
    exact ⟨fun h => ⟨fun hl => absurd hl hlater, h⟩, fun h => h.2⟩

theorem paths_agree_iff (hwf : c.WellFormed) (hstatic : c.isStatic = false)
    (htimeline : query.timeline = some timeline) (hat : TimeInt.MIN ≤ query.at_)
    (htc : c.timelines.lookup timeline = some tc) (hcol : c.components.lookup component = some column)
    {row : Option Nat} (hrow : c.IsLatest query component row) :
    row.bind (c.unitIndex query.timeline) =
        (c.closestTime (validRows column) tc.times query.at_).bind (c.unitIndex query.timeline) ↔
      c.IsLatest query component (c.closestTime (validRows column) tc.times query.at_) := by
  refine ⟨fun heq => ?_, hrow.index_unique⟩
  obtain ⟨hsome, -⟩ := closestTime_spec hwf hstatic htimeline hat htc (validRows_iff hcol)
  cases hslow : c.closestTime (validRows column) tc.times query.at_ with
  | some i =>
    obtain ⟨index, hindex, hle, -, hgreatest⟩ := hsome i hslow
    exact ⟨index, ⟨hindex, hle⟩, fun j index' hj => hgreatest j index' hj.1 hj.2⟩
  | none =>
    -- then the right row has no index, so there is none
    cases row with
    | none => exact hrow
    | some i =>
      obtain ⟨index, hindex, -⟩ := hrow
      rw [hslow, bind_some, hindex.1.2] at heq
      cases heq

end Temporal

/-! ## Static chunks -/

section Static

variable {column : ComponentColumn}

theorem qualifies_static_iff (hstatic : c.isStatic = true) {i : Nat} {index : TimeInt ×ₗ RowId} :
    c.Qualifies query component i index ↔ (c.cellAt i component).isSome ∧
      ∃ r, c.rowIds[i]? = some r ∧ index = toLex (TimeInt.STATIC, r) := by
  unfold Qualifies CellIndex unitIndex
  rw [if_pos hstatic, map_eq_some_iff]
  constructor
  · intro ⟨⟨hcell, r, hr, hindex⟩, _⟩
    exact ⟨hcell, r, hr, hindex.symm⟩
  · intro ⟨hcell, r, hr, hindex⟩
    refine ⟨⟨hcell, r, hr, hindex.symm⟩, ?_⟩
    rw [hindex]
    exact query.at_.asI64.lo

theorem lastValid_isLatest (hwf : c.WellFormed) (hstatic : c.isStatic = true) (hsorted : c.isSorted = true)
    (hcol : c.components.lookup component = some column) :
    c.IsLatest query component (lastValid (validRows column) c.numRows) := by
  have hids : c.rowIds.Pairwise (· ≤ ·) := Seq.ascending_iff.mp (hwf.isSorted_eq.symm.trans hsorted)
  have hvalid := validRows_iff hcol
  cases hrow : lastValid (validRows column) c.numRows with
  | none =>
    intro i index hi
    obtain ⟨hcell, r, hr, -⟩ := (qualifies_static_iff hstatic).mp hi
    have hfalse := lastValid_eq_none_iff.mp hrow i (List.getElem?_eq_some_iff.mp hr).1
    rw [(hvalid i).mpr hcell] at hfalse
    cases hfalse
  | some i =>
    obtain ⟨hlt, hv, hlast⟩ := lastValid_eq_some_iff.mp hrow
    have hr : c.rowIds[i]? = some c.rowIds[i] := List.getElem?_eq_getElem hlt
    refine ⟨_, (qualifies_static_iff hstatic).mpr ⟨(hvalid i).mp hv, _, hr, rfl⟩, fun j index' hj => ?_⟩
    obtain ⟨hcell, r', hr', rfl⟩ := (qualifies_static_iff hstatic).mp hj
    obtain ⟨hj', rfl⟩ := List.getElem?_eq_some_iff.mp hr'
    have hji : j ≤ i := by
      by_contra hlt'
      have hfalse := hlast j (by omega) hj'
      rw [(hvalid j).mpr hcell] at hfalse
      cases hfalse
    have hle : c.rowIds[j] ≤ c.rowIds[i] := by
      rcases Nat.lt_or_eq_of_le hji with hlt' | rfl
      · exact pairwise_iff_getElem.mp hids j i hj' hlt hlt'
      · exact le_rfl
    exact Prod.Lex.toLex_mono ⟨le_rfl, hle⟩

theorem closestRowId_spec (c : Chunk) (isValid : Nat → Bool) :
    (∀ i, c.closestRowId isValid = some i → ∃ r, c.rowIds[i]? = some r ∧ isValid i = true ∧ 0 < r ∧
      ∀ j r', c.rowIds[j]? = some r' → isValid j = true → r' ≤ r) ∧
    (c.closestRowId isValid = none → ∀ j r', c.rowIds[j]? = some r' → isValid j = true → r' ≤ 0) := by
  obtain ⟨hend, hall⟩ := @Seq.foldl_greatest _ _ _ _
    (fun (acc : RowId × Option Nat) (r : RowId × Nat) =>
      if isValid r.2 && decide (acc.1 < r.1) then (r.1, some r.2) else acc)
    (fun _ => True) (fun r => isValid r.2 = true) (fun acc => acc.1) (fun r => (r.1, some r.2))
    (fun _ _ => trivial) (fun acc r _ => by
      split
      · rename_i hmoves
        rw [Bool.and_eq_true, decide_eq_true_eq] at hmoves
        exact .inr ⟨rfl, hmoves.1, hmoves.2⟩
      · rename_i hstays
        refine .inl ⟨rfl, fun hv => ?_⟩
        rw [hv, Bool.true_and, decide_eq_true_eq] at hstays
        exact not_lt.mp hstays) c.rowIds.zipIdx (0, none) trivial
  have hscan : ∃ res : RowId × Option Nat, c.closestRowId isValid = res.2 ∧
      (res = (0, none) ∨ ∃ r ∈ c.rowIds.zipIdx, isValid r.2 = true ∧ res = (r.1, some r.2) ∧ 0 < r.1) ∧
      ∀ r ∈ c.rowIds.zipIdx, isValid r.2 = true → r.1 ≤ res.1 := ⟨_, rfl, hend, hall⟩
  obtain ⟨res, hres, hend, hall⟩ := hscan
  have hgreatest : ∀ j r', c.rowIds[j]? = some r' → isValid j = true → r' ≤ res.1 := fun j r' hr' =>
    hall (r', j) (mk_mem_zipIdx_iff_getElem?.mpr hr')
  rw [hres]
  rcases hend with rfl | ⟨⟨r, i⟩, hr, hv, rfl, hlt⟩
  · refine ⟨fun i hi => ?_, fun _ => hgreatest⟩
    cases hi
  · refine ⟨fun j hj => ?_, fun hnone => by cases hnone⟩
    cases hj
    exact ⟨r, mk_mem_zipIdx_iff_getElem?.mp hr, hv, hlt, hgreatest⟩

theorem closestRowId_isLatest_iff (hstatic : c.isStatic = true)
    (hcol : c.components.lookup component = some column) :
    c.IsLatest query component (c.closestRowId (validRows column)) ↔
      ((∃ i index, c.Qualifies query component i index) →
        ∃ i index, c.Qualifies query component i index ∧ index ≠ c.scanStart) := by
  have hstart : c.scanStart = toLex (TimeInt.STATIC, 0) := by
    unfold scanStart
    rw [if_pos hstatic]
  have hvalid := validRows_iff hcol
  obtain ⟨hsome, hnone⟩ := closestRowId_spec c (validRows column)
  rw [hstart]
  cases hrow : c.closestRowId (validRows column) with
  | some i =>
    obtain ⟨r, hr, hv, hpos, hgreatest⟩ := hsome i hrow
    have hi : c.Qualifies query component i (toLex (TimeInt.STATIC, r)) :=
      (qualifies_static_iff hstatic).mpr ⟨(hvalid i).mp hv, r, hr, rfl⟩
    constructor
    · exact fun _ _ => ⟨i, _, hi, fun heq => hpos.ne' (congrArg Prod.snd (toLex.injective heq))⟩
    · refine fun _ => ⟨_, hi, fun j index' hj => ?_⟩
      obtain ⟨hcell, r', hr', rfl⟩ := (qualifies_static_iff hstatic).mp hj
      exact Prod.Lex.toLex_mono ⟨le_rfl, hgreatest j r' hr' ((hvalid j).mpr hcell)⟩
  | none =>
    constructor
    · intro h ⟨i, index, hindex⟩
      exact absurd hindex (h i index)
    · intro h i index hindex
      obtain ⟨j, index', hj, hne⟩ := h ⟨i, index, hindex⟩
      obtain ⟨hcell, r', hr', rfl⟩ := (qualifies_static_iff hstatic).mp hj
      have hle : r' ≤ 0 := hnone hrow j r' hr' ((hvalid j).mpr hcell)
      rw [le_antisymm hle (Fin.zero_le r')] at hne
      exact hne rfl

end Static

/-! ## Every chunk -/

variable {column : ComponentColumn}

theorem latestAt_of_column (hwf : c.WellFormed)
    (hcol : c.components.lookup component = some column) : c.latestAt query component =
      if c.isStatic then
        if c.isSorted then lastValid (validRows column) c.numRows else c.closestRowId (validRows column)
      else (query.timeline.bind fun timeline => c.timelines.lookup timeline).bind fun tc =>
        if tc.isSorted then lastAt (validRows column) tc.times query.at_
        else c.closestTime (validRows column) tc.times query.at_ := by
  unfold latestAt
  cases hempty : c.isEmpty with
  | false =>
    rw [if_neg Bool.false_ne_true, hcol, bind_some]
    rfl
  | true =>
    -- no row of an empty chunk is valid, so no path finds one
    have hids : c.rowIds = [] := List.isEmpty_iff.mp hempty
    have hlen : column.listArray.len = 0 := by rw [hwf.cells_length _ _ hcol, numRows, hids]; rfl
    have hnone : ∀ n, lastValid (validRows column) n = none := by
      intro n
      refine lastValid_eq_none_iff.mpr fun j _ => ?_
      unfold validRows
      rw [List.getElem?_eq_none (by rw [ListArray.validity_length, hlen]; exact Nat.zero_le j)]
      rfl
    have hscan : c.closestRowId (validRows column) = none := by
      unfold closestRowId
      rw [hids]
      rfl
    have hscan' : ∀ times at_, c.closestTime (validRows column) times at_ = none := by
      intro times at_
      unfold closestTime
      rw [hids]
      rfl
    simp [lastAt, hnone, hscan, hscan']

theorem qualifies_absurd_of_column (hcol : c.components.lookup component = none) (i : Nat)
    (index : TimeInt ×ₗ RowId) : ¬ c.Qualifies query component i index := by
  intro hi
  obtain ⟨column, hcol', -⟩ := cellAt_isSome_iff.mp hi.1.1
  rw [hcol] at hcol'
  cases hcol'

theorem qualifies_absurd_of_timeline (hstatic : c.isStatic = false)
    (htc : (query.timeline.bind fun timeline => c.timelines.lookup timeline) = none) (i : Nat)
    (index : TimeInt ×ₗ RowId) : ¬ c.Qualifies query component i index := by
  intro hi
  have hindex := hi.1.2
  unfold unitIndex at hindex
  rw [hstatic, if_neg Bool.false_ne_true, htc] at hindex
  cases hindex

/-- The answer is right and both paths agree on it. -/
def LatestAtRight (c : Chunk) (query : LatestAtQuery) (component : ComponentIdentifier) : Prop :=
  c.IsLatest query component (c.latestAt query component) ∧ c.PathsAgree query component

theorem latestAtRight_iff_of_nobody (hnobody : ∀ i index, ¬ c.Qualifies query component i index)
    (hnone : c.latestAt query component = none)
    (hpaths : c.cellAt 0 component = none ∧ c.PathsAgree query component ∨
      ∀ timeline tc, query.timeline = some timeline → c.timelines.lookup timeline ≠ some tc) :
    c.LatestAtRight query component ↔ c.ShortcutsHold query component := by
  have hscanned : ¬ ∃ i index, c.Qualifies query component i index := fun ⟨i, index, hi⟩ => hnobody i index hi
  have hright : c.IsLatest query component (c.latestAt query component) := hnone ▸ hnobody
  rcases hpaths with ⟨hcell, hagree⟩ | hlacks
  · exact iff_of_true ⟨hright, hagree⟩ ⟨fun _ h => absurd h hscanned, fun _ _ _ _ _ _ => hcell,
      fun _ _ _ _ _ i index hi => absurd hi.1 (hnobody i index)⟩
  · exact iff_of_true ⟨hright, fun _ _ _ htl htc => absurd htc (hlacks _ _ htl)⟩
      ⟨fun _ h => absurd h hscanned, fun _ _ htl htc => absurd htc (hlacks _ _ htl),
        fun _ _ htl htc => absurd htc (hlacks _ _ htl)⟩

theorem latestAtRight_iff_static (hwf : c.WellFormed) (hstatic : c.isStatic = true)
    (hcol : c.components.lookup component = some column) :
    c.LatestAtRight query component ↔ c.ShortcutsHold query component := by
  have hlacks : ∀ timeline tc, c.timelines.lookup timeline ≠ some tc := fun timeline tc htc => by
    have hnil : c.timelines.entries = [] := List.isEmpty_iff.mp hstatic
    exact Assoc.entries_ne_nil_iff.mpr ⟨timeline, isSome_of_eq_some htc⟩ hnil
  have hagree : c.PathsAgree query component := fun _ _ _ _ htc => absurd htc (hlacks _ _)
  -- there is no time column, so only the scan over row ids can be wrong
  have hholds : c.ShortcutsHold query component ↔ (c.isSorted = false →
      (∃ i index, c.Qualifies query component i index) →
        ∃ i index, c.Qualifies query component i index ∧ index ≠ c.scanStart) := by
    refine ⟨fun h hflag => h.scanned fun _ => hflag, fun h => ⟨fun hflag => h (hflag hstatic), ?_, ?_⟩⟩
    · exact fun _ _ _ htc => absurd htc (hlacks _ _)
    · exact fun _ _ _ htc => absurd htc (hlacks _ _)
  unfold LatestAtRight
  rw [latestAt_of_column hwf hcol, if_pos hstatic, hholds]
  cases hsorted : c.isSorted with
  | true =>
    exact iff_of_true ⟨lastValid_isLatest hwf hstatic hsorted hcol, hagree⟩ fun hflag => by cases hflag
  | false =>
    rw [if_neg Bool.false_ne_true, closestRowId_isLatest_iff hstatic hcol]
    exact ⟨fun h _ => h.1, fun h => ⟨h rfl, hagree⟩⟩

theorem latestAtRight_iff_temporal {tc : TimeColumn} (hwf : c.WellFormed) (hstatic : c.isStatic = false)
    (hquery : query.NeverStatic) (htimeline : query.timeline = some timeline)
    (htc : c.timelines.lookup timeline = some tc) (hcol : c.components.lookup component = some column) :
    c.LatestAtRight query component ↔ c.ShortcutsHold query component := by
  have hscanned : c.isStatic = true → c.isSorted = false := fun h => by
    rw [hstatic] at h
    cases h
  have hslow := closestTime_isLatest_iff hwf hstatic htimeline (hquery timeline htimeline) htc hcol
  -- what is said of any timeline of the query is said of this one
  have honly : ∀ {timeline' tc'}, query.timeline = some timeline' → c.timelines.lookup timeline' = some tc' →
      tc' = tc := by
    intro timeline' tc' htimeline' htc'
    rw [htimeline] at htimeline'
    cases htimeline'
    exact mem_unique htc' htc
  unfold LatestAtRight
  rw [latestAt_of_column hwf hcol, hstatic, if_neg Bool.false_ne_true, htimeline, bind_some, htc, bind_some]
  cases hsorted : tc.isSorted with
  | false =>
    rw [if_neg Bool.false_ne_true, hslow]
    have hunsorted : ∀ {timeline' tc'}, query.timeline = some timeline' →
        c.timelines.lookup timeline' = some tc' → ¬ tc'.isSorted = true := by
      intro timeline' tc' htimeline' htc'
      rw [honly htimeline' htc', hsorted]
      exact Bool.false_ne_true
    constructor
    · intro h
      exact ⟨fun _ => h.1, fun _ _ htl htc' hs => absurd hs (hunsorted htl htc'),
        fun _ _ htl htc' hs => absurd hs (hunsorted htl htc')⟩
    · intro h
      exact ⟨h.scanned hscanned, fun _ _ _ htl htc' _ hs => absurd hs (hunsorted htl htc')⟩
  | true =>
    have hfast := lastAt_isLatest_iff hwf hstatic htimeline htc hcol hsorted
    constructor
    · intro ⟨hright, hagree⟩
      obtain ⟨hfirst, hties⟩ := hfast.mp hright
      have hslowRight := (paths_agree_iff hwf hstatic htimeline (hquery timeline htimeline) htc hcol
        hright).mp (hagree timeline tc column htimeline htc hcol hsorted)
      refine ⟨fun _ => hslow.mp hslowRight, fun _ _ htl htc' _ hlater => ?_, fun _ _ _ _ _ => hties⟩
      rw [honly htl htc'] at hlater
      exact hfirst hlater
    · intro h
      have hright := hfast.mpr ⟨h.firstRow timeline tc htimeline htc hsorted,
        h.ties timeline tc htimeline htc hsorted⟩
      refine ⟨hright, fun timeline' tc' column' htl htc' hcol' _ => ?_⟩
      rw [honly htl htc', mem_unique hcol' hcol]
      exact hright.index_unique (hslow.mpr (h.scanned hscanned))

theorem latestAt_hasCell (hwf : c.WellFormed) (hquery : query.NeverStatic) {i : Nat}
    (h : c.latestAt query component = some i) : (c.cellAt i component).isSome := by
  cases hcol : c.components.lookup component with
  | none =>
    unfold latestAt at h
    rw [hcol, bind_none, ite_self] at h
    cases h
  | some column =>
    have hvalid := validRows_iff hcol
    rw [latestAt_of_column hwf hcol] at h
    split at h
    · split at h
      · exact (hvalid i).mp (lastValid_eq_some_iff.mp h).2.1
      · obtain ⟨-, -, hv, -⟩ := (closestRowId_spec c _).1 i h
        exact (hvalid i).mp hv
    · next hstatic =>
      obtain ⟨tc, htc, h⟩ := bind_eq_some_iff.mp h
      obtain ⟨timeline, htimeline, htc⟩ := bind_eq_some_iff.mp htc
      split at h
      · exact (hvalid i).mp (lastValid_eq_some_iff.mp h).2.1
      · have hspec := closestTime_spec hwf (Bool.eq_false_of_not_eq_true hstatic) htimeline
          (hquery timeline htimeline) htc hvalid
        obtain ⟨index, hindex, -⟩ := hspec.1 i h
        exact hindex.1

/-- A latest-at query gets the right row of a chunk, on whichever path, exactly on the inputs that no
shortcut gets wrong; and what it gets is that single row. -/
theorem latestAt_right_iff (c : ValidChunk) (query : LatestAtQuery) (hquery : query.NeverStatic)
    (component : ComponentIdentifier) :
    (c.LatestAtRight query component ↔ c.ShortcutsHold query component) ∧
      ∀ i, c.latestAt query component = some i → ∀ id size,
        (c.rowSlicedShallow id size i 1).rows = (c.rows[i]?).toList ∧ (c.rows[i]?).isSome := by
  have hwf := c.wf
  constructor
  · cases hcol : c.components.lookup component with
    | none =>
      refine latestAtRight_iff_of_nobody (qualifies_absurd_of_column hcol) ?_ (.inl ⟨?_, fun _ _ _ _ _ hcol' => ?_⟩)
      · unfold latestAt
        rw [hcol, bind_none, ite_self]
      · unfold cellAt
        rw [hcol, bind_none]
      · rw [hcol] at hcol'
        cases hcol'
    | some column =>
      cases hstatic : c.isStatic with
      | true => exact latestAtRight_iff_static hwf hstatic hcol
      | false =>
        cases htc : (query.timeline.bind fun timeline => c.timelines.lookup timeline) with
        | none =>
          refine latestAtRight_iff_of_nobody (qualifies_absurd_of_timeline hstatic htc) ?_ (.inr fun _ _ htl htc' => ?_)
          · rw [latestAt_of_column hwf hcol, hstatic, if_neg Bool.false_ne_true, htc, bind_none]
          · rw [htl, bind_some, htc'] at htc
            cases htc
        | some tc =>
          obtain ⟨timeline, htimeline, htc⟩ := bind_eq_some_iff.mp htc
          exact latestAtRight_iff_temporal hwf hstatic hquery htimeline htc hcol
  · intro i hi id size
    obtain ⟨column, hcol, hbit⟩ := cellAt_isSome_iff.mp (latestAt_hasCell hwf hquery hi)
    have hlt : i < c.rows.length := by
      have hbound := (List.getElem?_eq_some_iff.mp hbit).1
      rwa [ListArray.validity_length, hwf.cells_length _ _ hcol, ← rows_length] at hbound
    rw [rowSlicedShallow_rows hwf, List.getElem?_eq_getElem hlt]
    refine ⟨?_, rfl⟩
    rw [drop_eq_getElem_cons hlt, take_succ_cons, take_zero]
    rfl

def unorderedPositions : ValidChunk where
  toChunk := ofColumns 1 ⟨["robot"]⟩ 0 [1, 2] [(⟨"frame"⟩, [6, 5].map I64.sat)]
    [(⟨"position"⟩, [some [[1]], some [[2]]])]
  sane := rfl

/-- The scan finds the latest of them. -/
theorem latestAt_right_iff_unordered :
    unorderedPositions.LatestAtRight (.new ⟨"frame"⟩ ⟨I64.sat 9⟩) ⟨"position"⟩ := by
  refine (latestAt_right_iff unorderedPositions (.new ⟨"frame"⟩ ⟨I64.sat 9⟩)
    (LatestAtQuery.new_neverStatic _ _) ⟨"position"⟩).1.mpr ⟨fun _ _ => ?_, ?_, ?_⟩
  · exact ⟨0, toLex (⟨I64.sat 6⟩, 1), ⟨⟨by decide, by decide⟩, by decide⟩, by decide⟩
  · intro timeline tc htl htc hsorted
    cases htl
    cases htc
    exact absurd hsorted (by decide)
  · intro timeline tc htl htc hsorted
    cases htl
    cases htc
    exact absurd hsorted (by decide)

def laterPosition : ValidChunk where
  toChunk := ofColumns 1 ⟨["robot"]⟩ 0 [1] [(⟨"frame"⟩, [I64.sat 5])] [(⟨"position"⟩, [some [[1]]])]
  sane := rfl

/-- It is returned all the same, where the other path finds nothing. -/
theorem latestAt_before_first :
    laterPosition.latestAt (.new ⟨"frame"⟩ ⟨I64.sat 3⟩) ⟨"position"⟩ = some 0 ∧
      laterPosition.unitIndex (some ⟨"frame"⟩) 0 = some (toLex (⟨I64.sat 5⟩, 1)) ∧
      laterPosition.closestTime (fun _ => true) [I64.sat 5] ⟨I64.sat 3⟩ = none ∧
      ¬ (∀ (c : ValidChunk) (query : LatestAtQuery) component, query.NeverStatic →
        c.LatestAtRight query component) := by
  have hrow : laterPosition.latestAt (.new ⟨"frame"⟩ ⟨I64.sat 3⟩) ⟨"position"⟩ = some 0 := by decide
  have hindex : laterPosition.unitIndex (some ⟨"frame"⟩) 0 = some (toLex (⟨I64.sat 5⟩, 1)) := by decide
  refine ⟨hrow, hindex, by decide, fun h => ?_⟩
  have hright := (h laterPosition (.new ⟨"frame"⟩ ⟨I64.sat 3⟩) ⟨"position"⟩
    (LatestAtQuery.new_neverStatic _ _)).1
  obtain ⟨index, ⟨⟨-, hindex'⟩, hle⟩, -⟩ := hright
  have heq : index = toLex (⟨I64.sat 5⟩, 1) := some.inj (hindex'.symm.trans hindex)
  rw [heq] at hle
  exact absurd hle (by decide)

end Chunk

end Dalaran
