import Dalaran.Query.Cache

/-
  Which row a latest-at query selects in a chunk.

  The time-sorted branch takes the last row with a cell among those at or before the
  query time, the other branch scans for the greatest time and row id. On a sound
  chunk that has the component by then both yield the row with the greatest index
  (`latestAt_selects`), which depends on the rows up to the query time only
  (`latestAt_congr`).
-/

namespace Dalaran

open List Option TimeInt ListArray

/-- The smallest index a temporal row can have. -/
def firstIndex : TimeInt ×ₗ RowId := toLex (TimeInt.MIN, 0)

namespace Chunk

variable {c : Chunk} {timeline : TimelineName} {component : ComponentIdentifier}

def CellIndex (c : Chunk) (timeline : Option TimelineName) (component : ComponentIdentifier) (i : Nat)
    (index : TimeInt ×ₗ RowId) : Prop :=
  (c.cellAt i component).isSome ∧ c.unitIndex timeline i = some index

variable {isValid : Nat → Bool} {i n : Nat}

theorem lastValid_eq_some_iff : lastValid isValid n = some i ↔
    i < n ∧ isValid i = true ∧ ∀ j, i < j → j < n → isValid j = false := by
  induction n with
  | zero => simp [lastValid]
  | succ n ih =>
    have hsucc : lastValid isValid (n + 1) = if isValid n then some n else lastValid isValid n := by
      unfold lastValid
      rw [range_succ, reverse_append, reverse_singleton, singleton_append, List.find?_cons]
      cases isValid n <;> rfl
    rw [hsucc]
    cases hn : isValid n with
    | true =>
      rw [if_pos rfl, Option.some.injEq]
      constructor
      · intro heq
        rw [← heq]
        exact ⟨Nat.lt_succ_self n, hn, fun j hj hj' => by omega⟩
      · intro ⟨hi, _, hlast⟩
        by_contra hne
        have hfalse := hlast n (by omega) (Nat.lt_succ_self n)
        rw [hn] at hfalse
        cases hfalse
    | false =>
      rw [if_neg Bool.false_ne_true, ih]
      constructor
      · intro ⟨hi, hvalid, hlast⟩
        refine ⟨by omega, hvalid, fun j hj hj' => ?_⟩
        rcases Nat.lt_succ_iff_lt_or_eq.mp hj' with hlt | rfl
        · exact hlast j hj hlt
        · exact hn
      · intro ⟨hi, hvalid, hlast⟩
        refine ⟨?_, hvalid, fun j hj hj' => hlast j hj (by omega)⟩
        rcases Nat.lt_succ_iff_lt_or_eq.mp hi with hlt | rfl
        · exact hlt
        · rw [hn] at hvalid
          cases hvalid

theorem lastValid_eq_none_iff : lastValid isValid n = none ↔ ∀ j, j < n → isValid j = false := by
  unfold lastValid
  simp

/-! ## Temporal chunks -/

variable {index : TimeInt ×ₗ RowId}

theorem unitIndex_eq_some_iff (hstatic : c.isStatic = false) :
    c.unitIndex (some timeline) i = some index ↔ ∃ t r, c.timeAt i timeline = some t ∧
      c.rowIds[i]? = some r ∧ index = toLex (TimeInt.newTemporal t, r) := by
  unfold unitIndex timeAt
  rw [hstatic, if_neg Bool.false_ne_true, bind_some]
  simp only [bind, pure, bind_eq_some_iff, Option.some.injEq]
  constructor
  · intro ⟨tc, htc, t, ht, r, hr, hindex⟩
    exact ⟨t, r, ⟨tc, htc, ht⟩, hr, hindex.symm⟩
  · intro ⟨t, r, ⟨tc, htc, ht⟩, hr, hindex⟩
    exact ⟨tc, htc, t, ht, r, hr, hindex.symm⟩

theorem newTemporal_timeAt (hwf : c.WellFormed) {t : I64} (ht : c.timeAt i timeline = some t) :
    TimeInt.newTemporal t = ⟨t⟩ := by
  obtain ⟨tc, htc, htimes⟩ := bind_eq_some_iff.mp ht
  exact newTemporal_of_ne ((hwf.times_wf _ _ htc).temporal t (mem_of_getElem? htimes))

theorem cellIndex_iff (hstatic : c.isStatic = false)
    (hwf : c.WellFormed) : c.CellIndex (some timeline) component i index ↔
      ∃ t r, c.HasCellAt timeline component i t ∧ c.rowIds[i]? = some r ∧ index = toLex (⟨t⟩, r) := by
  unfold CellIndex HasCellAt
  rw [unitIndex_eq_some_iff hstatic]
  constructor
  · intro ⟨hcell, t, r, ht, hr, hindex⟩
    exact ⟨t, r, ⟨ht, hcell⟩, hr, by rw [hindex, newTemporal_timeAt hwf ht]⟩
  · intro ⟨t, r, ⟨ht, hcell⟩, hr, hindex⟩
    exact ⟨hcell, t, r, ht, hr, by rw [hindex, newTemporal_timeAt hwf ht]⟩

theorem HasCellAt.cellIndex (hstatic : c.isStatic = false) (hwf : c.WellFormed) {t : I64}
    (h : c.HasCellAt timeline component i t) :
    ∃ r, c.CellIndex (some timeline) component i (toLex (⟨t⟩, r)) := by
  obtain ⟨column, hcol, hvalid⟩ := cellAt_isSome_iff.mp h.2
  have hlt : i < c.rowIds.length := by
    have hlt' := (List.getElem?_eq_some_iff.mp hvalid).1
    rw [validity_length, hwf.cells_length _ _ hcol] at hlt'
    exact hlt'
  exact ⟨c.rowIds[i], (cellIndex_iff hstatic hwf).mpr ⟨t, _, h, List.getElem?_eq_getElem hlt, rfl⟩⟩

theorem CellIndex.MIN_le (hstatic : c.isStatic = false)
    (h : c.CellIndex (some timeline) component i index) : TimeInt.MIN ≤ (ofLex index).1 := by
  obtain ⟨time, r, -, -, rfl⟩ := (unitIndex_eq_some_iff hstatic).mp h.2
  exact TimeInt.MIN_le_newTemporal time

variable {range : AbsoluteTimeRange}

theorem MIN_le_componentRange (hc : c.Sound)
    (hrange : c.componentRange timeline component = some range) : TimeInt.MIN ≤ range.min := by
  obtain ⟨tc, htc, hbind⟩ := bind_eq_some_iff.mp hrange
  obtain ⟨column, hcol, -⟩ := bind_eq_some_iff.mp hbind
  by_cases hcell : ∃ i t, c.HasCellAt timeline component i t
  · obtain ⟨i, t, hit⟩ := hcell
    obtain ⟨lo, hi, htight, ⟨j, hj⟩, -⟩ := componentRange_tight hc.wf hit
    rw [hrange] at htight
    cases htight
    obtain ⟨tc', htc', htime⟩ := bind_eq_some_iff.mp hj.1
    have hne := (hc.wf.times_wf _ _ htc').temporal lo (mem_of_getElem? htime)
    have hle := TimeInt.MIN_le_newTemporal lo
    rw [newTemporal_of_ne hne] at hle
    exact hle
  · rw [componentRange_of_all_null hc.wf hc.nonempty htc hcol hcell] at hrange
    rw [← some.inj hrange]
    exact le_MAX _

theorem componentRange_min_le (hwf : c.WellFormed) (hrange : c.componentRange timeline component = some range)
    {t : I64} (h : c.HasCellAt timeline component i t) : range.min ≤ ⟨t⟩ ∧ ⟨t⟩ ≤ range.max ∧
      ∃ j lo, c.HasCellAt timeline component j lo ∧ range.min = ⟨lo⟩ := by
  obtain ⟨lo, hi, htight, ⟨j, hj⟩, -, hall⟩ := componentRange_tight hwf h
  rw [hrange] at htight
  cases htight
  exact ⟨(hall i t h).1, (hall i t h).2, j, lo, hj, rfl⟩

theorem isValid_iff {column : ComponentColumn} (hcol : c.components.lookup component = some column) (i : Nat) :
    decide (column.listArray.validity[i]? = some true) = true ↔ (c.cellAt i component).isSome := by
  rw [decide_eq_true_iff, cellAt_isSome_iff, hcol]
  simp

variable {tc : TimeColumn}

theorem lt_prefix_iff (hwf : c.WellFormed) (htc : c.timelines.lookup timeline = some tc)
    (hsorted : tc.isSorted = true) (at_ : TimeInt) {t : I64} (ht : c.timeAt i timeline = some t) :
    i < (tc.times.takeWhile fun time => decide (time ≤ at_.asI64)).length ↔ (⟨t⟩ : TimeInt) ≤ at_ := by
  have hasc : tc.times.Pairwise (· ≤ ·) :=
    Seq.ascending_iff.mp ((hwf.times_wf _ _ htc).isSorted_eq.symm.trans hsorted)
  have htime : tc.times[i]? = some t := by
    rw [timeAt, htc] at ht
    exact ht
  rw [Seq.lt_length_takeWhile_iff (hasc.imp fun hab hb => ?_) htime, decide_eq_true_iff]
  · exact Iff.rfl
  · exact decide_eq_true (hab.trans (of_decide_eq_true hb))

/-! ## The selected row -/

/-- What a query selects in a chunk, out of its cells: one of the greatest index at or before the
query time, or none, and then no cell has a greater index than the first one. -/
structure Selects (c : Chunk) (query : LatestAtQuery) (component : ComponentIdentifier)
    (row : Option Nat) : Prop where
  selected : ∀ i, row = some i → ∃ index, c.CellIndex query.timeline component i index ∧
    (ofLex index).1 ≤ query.at_ ∧ ∀ j index', c.CellIndex query.timeline component j index' →
      (ofLex index').1 ≤ query.at_ → index' ≤ index
  nothing : row = none → ∀ j index', c.CellIndex query.timeline component j index' →
    (ofLex index').1 ≤ query.at_ → index' ≤ firstIndex

variable {query : LatestAtQuery}

theorem lastValid_selects (hc : c.Sound) (hstatic : c.isStatic = false) (htimeline : query.timeline = some timeline)
    (htc : c.timelines.lookup timeline = some tc) (hsorted : tc.isSorted = true)
    (hvalid : ∀ i, isValid i = true ↔ (c.cellAt i component).isSome)
    (hn : ∀ i t, c.HasCellAt timeline component i t → (i < n ↔ (⟨t⟩ : TimeInt) ≤ query.at_)) :
    c.Selects query component (lastValid isValid n) := by
  have hasc : tc.times.Pairwise (· ≤ ·) :=
    Seq.ascending_iff.mp ((hc.wf.times_wf _ _ htc).isSorted_eq.symm.trans hsorted)
  have hids : c.rowIds.Pairwise (· ≤ ·) := Seq.ascending_iff.mp (hc.wf.isSorted_eq.symm.trans hc.sorted)
  have hmono : ∀ {α : Type} [LinearOrder α] {l : List α} {i j : Nat} {a b : α}, l.Pairwise (· ≤ ·) →
      i ≤ j → l[i]? = some a → l[j]? = some b → a ≤ b := by
    intro α _ l i j a b hl hij ha hb
    rcases Nat.lt_or_eq_of_le hij with hlt | rfl
    · obtain ⟨hi, rfl⟩ := List.getElem?_eq_some_iff.mp ha
      obtain ⟨hj, rfl⟩ := List.getElem?_eq_some_iff.mp hb
      exact pairwise_iff_getElem.mp hl i j hi hj hlt
    · exact (mem_unique ha hb).le
  refine ⟨fun i hi => ?_, fun hnone j index' hj hle => ?_⟩
  · obtain ⟨hlt, hiv, hlast⟩ := lastValid_eq_some_iff.mp hi
    have hcell := (hvalid i).mp hiv
    -- a row of a chunk with the timeline has a time
    have hrow : ∃ t, c.timeAt i timeline = some t := by
      obtain ⟨column, hcol, hbit⟩ := cellAt_isSome_iff.mp hcell
      have hbound := (List.getElem?_eq_some_iff.mp hbit).1
      rw [validity_length, hc.wf.cells_length _ _ hcol, ← hc.wf.times_length _ _ htc] at hbound
      refine ⟨tc.times[i], ?_⟩
      rw [timeAt, htc]
      exact List.getElem?_eq_getElem hbound
    obtain ⟨t, ht⟩ := hrow
    have hhas : c.HasCellAt timeline component i t := ⟨ht, hcell⟩
    obtain ⟨r, hindex⟩ := hhas.cellIndex hstatic hc.wf
    rw [htimeline]
    refine ⟨_, hindex, (hn i t hhas).mp hlt, fun j index' hj hle => ?_⟩
    obtain ⟨t', r', hhas', hr', rfl⟩ := (cellIndex_iff hstatic hc.wf).mp hj
    obtain ⟨t₀, r₀, hhas₀, hr₀, heq⟩ := (cellIndex_iff hstatic hc.wf).mp hindex
    have hji : j ≤ i := by
      by_contra hlt'
      have hfalse := hlast j (by omega) ((hn j t' hhas').mpr hle)
      rw [(hvalid j).mpr hhas'.2] at hfalse
      cases hfalse
    have htimes : ∀ k s, c.timeAt k timeline = some s → tc.times[k]? = some s := by
      intro k s hs
      rw [timeAt, htc] at hs
      exact hs
    have hle₁ : t' ≤ t := hmono hasc hji (htimes j t' hhas'.1) (htimes i t ht)
    have hle₂ : r' ≤ r := by
      have hrr : r₀ = r := (congrArg Prod.snd (toLex.injective heq)).symm
      exact hmono hids hji hr' (hrr ▸ hr₀)
    exact Prod.Lex.toLex_mono ⟨hle₁, hle₂⟩
  · rw [htimeline] at hj
    obtain ⟨t', r', hhas', -, rfl⟩ := (cellIndex_iff hstatic hc.wf).mp hj
    have hfalse := lastValid_eq_none_iff.mp hnone j ((hn j t' hhas').mpr hle)
    rw [(hvalid j).mpr hhas'.2] at hfalse
    cases hfalse

abbrev scanTime (times : List I64) (i : Nat) : TimeInt := (times[i]?).elim TimeInt.MIN TimeInt.newTemporal

theorem closestTime_spec (hwf : c.WellFormed) (hstatic : c.isStatic = false)
    (htimeline : query.timeline = some timeline) (hat : TimeInt.MIN ≤ query.at_)
    (htc : c.timelines.lookup timeline = some tc) (hvalid : ∀ i, isValid i = true ↔ (c.cellAt i component).isSome) :
    (∀ i, c.closestTime isValid tc.times query.at_ = some i → ∃ index,
      c.CellIndex query.timeline component i index ∧ (ofLex index).1 ≤ query.at_ ∧ firstIndex < index ∧
        ∀ j index', c.CellIndex query.timeline component j index' → (ofLex index').1 ≤ query.at_ → index' ≤ index) ∧
    (c.closestTime isValid tc.times query.at_ = none → ∀ j index',
      c.CellIndex query.timeline component j index' → (ofLex index').1 ≤ query.at_ → index' ≤ firstIndex) := by
  obtain ⟨hend, hall⟩ := @Seq.foldl_greatest _ _ _ _
    (fun (acc : TimeInt × RowId × Option Nat) (r : RowId × Nat) =>
      let dataTime := scanTime tc.times r.2
      let isCloserTime := decide (acc.1 < dataTime) && decide (dataTime ≤ query.at_)
      let isSameTimeButCloserRowId := decide (dataTime = acc.1) && decide (acc.2.1 < r.1)
      if isValid r.2 && (isCloserTime || isSameTimeButCloserRowId) then (dataTime, r.1, some r.2) else acc)
    (fun acc => acc.1 ≤ query.at_) (fun r => isValid r.2 = true ∧ scanTime tc.times r.2 ≤ query.at_)
    (fun acc => (toLex (acc.1, acc.2.1) : TimeInt ×ₗ RowId))
    (fun r => (scanTime tc.times r.2, r.1, some r.2)) (fun r hr => hr.2) (fun acc r hacc => by
      -- a row moves the scan exactly if it is eligible and its index is greater
      dsimp only
      split
      · rename_i hmoves
        rw [Bool.and_eq_true, Bool.or_eq_true, Bool.and_eq_true, Bool.and_eq_true] at hmoves
        simp only [decide_eq_true_eq] at hmoves
        obtain ⟨hv, ⟨hlt, hle⟩ | ⟨heq, hlt⟩⟩ := hmoves
        · exact .inr ⟨rfl, ⟨hv, hle⟩, Prod.Lex.toLex_lt_toLex.mpr (.inl hlt)⟩
        · exact .inr ⟨rfl, ⟨hv, heq.le.trans hacc⟩, Prod.Lex.toLex_lt_toLex.mpr (.inr ⟨heq.symm, hlt⟩)⟩
      · rename_i hstays
        refine .inl ⟨rfl, fun ⟨hv, hle⟩ => ?_⟩
        simp only [hv, Bool.true_and, Bool.or_eq_true, Bool.and_eq_true, decide_eq_true_eq, not_or,
          not_and] at hstays
        have htime : scanTime tc.times r.2 ≤ acc.1 := not_lt.mp fun hlt => hstays.1 hlt hle
        rcases htime.lt_or_eq with hlt | heq
        · exact Prod.Lex.toLex_le_toLex.mpr (.inl hlt)
        · exact Prod.Lex.toLex_le_toLex.mpr (.inr ⟨heq, not_lt.mp (hstays.2 heq)⟩))
    c.rowIds.zipIdx (TimeInt.MIN, 0, none) hat
  have hcells : ∀ j index, c.CellIndex query.timeline component j index → ∃ r, (r, j) ∈ c.rowIds.zipIdx ∧
      isValid j = true ∧ index = toLex (scanTime tc.times j, r) := by
    intro j index hj
    rw [htimeline] at hj
    obtain ⟨t, r, ht, hr, rfl⟩ := (unitIndex_eq_some_iff hstatic).mp hj.2
    refine ⟨r, mk_mem_zipIdx_iff_getElem?.mpr hr, (hvalid j).mpr hj.1, ?_⟩
    rw [timeAt, htc] at ht
    have htime : tc.times[j]? = some t := ht
    unfold scanTime
    rw [htime]
    rfl
  have hscan : ∃ res : TimeInt × RowId × Option Nat, c.closestTime isValid tc.times query.at_ = res.2.2 ∧
      (res = (TimeInt.MIN, 0, none) ∨ ∃ r ∈ c.rowIds.zipIdx, (isValid r.2 = true ∧
        scanTime tc.times r.2 ≤ query.at_) ∧ res = (scanTime tc.times r.2, r.1, some r.2) ∧
        firstIndex < toLex (scanTime tc.times r.2, r.1)) ∧
      ∀ r ∈ c.rowIds.zipIdx, isValid r.2 = true ∧ scanTime tc.times r.2 ≤ query.at_ →
        (toLex (scanTime tc.times r.2, r.1) : TimeInt ×ₗ RowId) ≤ toLex (res.1, res.2.1) :=
    ⟨_, rfl, hend, hall⟩
  obtain ⟨res, hres, hend, hall⟩ := hscan
  have hgreatest : ∀ j index', c.CellIndex query.timeline component j index' →
      (ofLex index').1 ≤ query.at_ → index' ≤ toLex (res.1, res.2.1) := by
    intro j index' hj hle
    obtain ⟨r, hr, hv, rfl⟩ := hcells j index' hj
    exact hall (r, j) hr ⟨hv, hle⟩
  rw [hres]
  rcases hend with rfl | ⟨⟨r, i⟩, hr, ⟨hv, hle⟩, rfl, hlt⟩
  · refine ⟨fun i hi => ?_, fun _ => hgreatest⟩
    cases hi
  · refine ⟨fun j hj => ?_, fun hnone => by cases hnone⟩
    cases hj
    refine ⟨toLex (scanTime tc.times i, r), ?_, hle, hlt, hgreatest⟩
    have hrow : c.rowIds[i]? = some r := mk_mem_zipIdx_iff_getElem?.mp hr
    have hbound : i < tc.times.length := by
      rw [hwf.times_length _ _ htc]
      exact (List.getElem?_eq_some_iff.mp hrow).1
    have htime : tc.times[i]? = some tc.times[i] := List.getElem?_eq_getElem hbound
    rw [htimeline]
    refine ⟨(hvalid i).mp hv, (unitIndex_eq_some_iff hstatic).mpr ⟨tc.times[i], r, ?_, hrow, ?_⟩⟩
    · rw [timeAt, htc]
      exact htime
    · unfold scanTime
      rw [htime]
      rfl

theorem closestTime_selects (hwf : c.WellFormed) (hstatic : c.isStatic = false)
    (htimeline : query.timeline = some timeline) (hat : TimeInt.MIN ≤ query.at_)
    (htc : c.timelines.lookup timeline = some tc) (hvalid : ∀ i, isValid i = true ↔ (c.cellAt i component).isSome) :
    c.Selects query component (c.closestTime isValid tc.times query.at_) := by
  obtain ⟨hsome, hnone⟩ := closestTime_spec hwf hstatic htimeline hat htc hvalid
  refine ⟨fun i hi => ?_, hnone⟩
  obtain ⟨index, hindex, hle, -, hgreatest⟩ := hsome i hi
  exact ⟨index, hindex, hle, hgreatest⟩

theorem latestAt_selects (hc : c.Sound) (hstatic : c.isStatic = false) (htimeline : query.timeline = some timeline)
    (hrange : c.componentRange timeline component = some range) (hat : range.min ≤ query.at_) :
    c.Selects query component (c.latestAt query component) := by
  obtain ⟨tc, htc, hbind⟩ := bind_eq_some_iff.mp hrange
  obtain ⟨column, hcol, -⟩ := bind_eq_some_iff.mp hbind
  have hempty : c.isEmpty = false := by simpa [isEmpty] using hc.nonempty
  have hvalid := isValid_iff hcol
  unfold latestAt
  rw [hempty, if_neg Bool.false_ne_true, hcol, bind_some]
  rw [hstatic, if_neg Bool.false_ne_true, htimeline, bind_some, htc, bind_some]
  cases hsorted : tc.isSorted with
  | true =>
    refine lastValid_selects hc hstatic htimeline htc hsorted hvalid fun i t hit => ?_
    rw [← lt_prefix_iff hc.wf htc hsorted query.at_ hit.1]
    -- there is a row at or before the query time, the first one with a cell
    obtain ⟨-, -, j, lo, hj, hmin⟩ := componentRange_min_le hc.wf hrange hit
    have hpos := (lt_prefix_iff hc.wf htc hsorted query.at_ hj.1).mpr (hmin ▸ hat)
    omega
  | false =>
    exact closestTime_selects hc.wf hstatic htimeline ((MIN_le_componentRange hc hrange).trans hat) htc hvalid

theorem latestAt_selects_static (hc : c.Sound) (hstatic : c.isStatic = true) {query : LatestAtQuery} :
    c.Selects query component (c.latestAt query component) ∧
      (c.latestAt query component = none → ∀ j, c.cellAt j component = none) := by
  have hempty : c.isEmpty = false := by simpa [isEmpty] using hc.nonempty
  have hids : c.rowIds.Pairwise (· ≤ ·) := Seq.ascending_iff.mp (hc.wf.isSorted_eq.symm.trans hc.sorted)
  have hindex : ∀ i, c.unitIndex query.timeline i = (c.rowIds[i]?).map fun rowId =>
      toLex (TimeInt.STATIC, rowId) := fun i => by
    unfold unitIndex
    rw [if_pos hstatic]
  unfold latestAt
  rw [hempty, if_neg Bool.false_ne_true]
  cases hcol : c.components.lookup component with
  | none =>
    have hnone : ∀ j, c.cellAt j component = none := fun j => by
      unfold cellAt
      rw [hcol, bind_none]
    refine ⟨⟨fun i hi => ?_, fun _ j index' hj _ => ?_⟩, fun _ => hnone⟩
    · cases hi
    · have hcell := hj.1
      rw [hnone j] at hcell
      cases hcell
  | some column =>
    have hvalid := isValid_iff hcol
    rw [bind_some]
    rw [if_pos hstatic, if_pos hc.sorted]
    have hbound : ∀ j, (c.cellAt j component).isSome → j < c.numRows := by
      intro j hj
      obtain ⟨column', hcol', hbit⟩ := cellAt_isSome_iff.mp hj
      rw [← hc.wf.cells_length _ _ hcol', ← validity_length]
      exact (List.getElem?_eq_some_iff.mp hbit).1
    have hnothing : lastValid (fun i => decide (column.listArray.validity[i]? = some true)) c.numRows = none →
        ∀ j, c.cellAt j component = none := by
      intro hnone j
      by_contra hne
      have hcell := isSome_iff_ne_none.mpr hne
      have hfalse := lastValid_eq_none_iff.mp hnone j (hbound j hcell)
      rw [(hvalid j).mpr hcell] at hfalse
      cases hfalse
    refine ⟨⟨fun i hi => ?_, fun hnone j index' hj _ => ?_⟩, hnothing⟩
    · obtain ⟨hlt, hiv, hlast⟩ := lastValid_eq_some_iff.mp hi
      have hrow : c.rowIds[i]? = some c.rowIds[i] := List.getElem?_eq_getElem hlt
      refine ⟨toLex (TimeInt.STATIC, c.rowIds[i]), ⟨(hvalid i).mp hiv, ?_⟩, query.at_.asI64.lo,
        fun j index' hj _ => ?_⟩
      · rw [hindex, hrow]
        rfl
      · obtain ⟨r', hr', rfl⟩ := map_eq_some_iff.mp ((hindex j).symm.trans hj.2)
        have hji : j ≤ i := by
          by_contra hlt'
          have hfalse := hlast j (by omega) (hbound j hj.1)
          rw [(hvalid j).mpr hj.1] at hfalse
          cases hfalse
        obtain ⟨hj', rfl⟩ := List.getElem?_eq_some_iff.mp hr'
        have hle : c.rowIds[j] ≤ c.rowIds[i] := by
          rcases Nat.lt_or_eq_of_le hji with hlt' | rfl
          · exact pairwise_iff_getElem.mp hids j i hj' hlt hlt'
          · exact le_rfl
        exact Prod.Lex.toLex_mono ⟨le_rfl, hle⟩
    · have hcell := hj.1
      rw [hnothing hnone j] at hcell
      cases hcell

/-! ## Rows after the query time -/

theorem lastValid_congr {m : Nat}
    (h : ∀ i, isValid i = true → (i < n ↔ i < m)) : lastValid isValid n = lastValid isValid m := by
  apply Option.ext
  intro i
  rw [lastValid_eq_some_iff, lastValid_eq_some_iff]
  have hlast : ∀ {n m : Nat}, (∀ i, isValid i = true → (i < n ↔ i < m)) →
      (i < n ∧ isValid i = true ∧ ∀ j, i < j → j < n → isValid j = false) →
      (i < m ∧ isValid i = true ∧ ∀ j, i < j → j < m → isValid j = false) := by
    intro n m h ⟨hi, hv, hlast⟩
    refine ⟨(h i hv).mp hi, hv, fun j hj hj' => ?_⟩
    by_contra hne
    have hjv : isValid j = true := by simpa using hne
    have hfalse := hlast j hj ((h j hjv).mpr hj')
    rw [hjv] at hfalse
    cases hfalse
  exact ⟨hlast h, hlast fun i hi => (h i hi).symm⟩

theorem latestAt_congr (hc : c.Sound) (hstatic : c.isStatic = false)
    (hrange : c.componentRange timeline component = some range) {t t' : TimeInt} (hmin : range.min ≤ t) (hle : t ≤ t')
    (h : ∀ i index, c.CellIndex (some timeline) component i index → (ofLex index).1 ≤ t' → (ofLex index).1 ≤ t) :
    c.latestAt ⟨some timeline, t'⟩ component = c.latestAt ⟨some timeline, t⟩ component := by
  obtain ⟨tc, htc, hbind⟩ := bind_eq_some_iff.mp hrange
  obtain ⟨column, hcol, -⟩ := bind_eq_some_iff.mp hbind
  have hempty : c.isEmpty = false := by simpa [isEmpty] using hc.nonempty
  have hvalid := isValid_iff hcol
  have htime : ∀ i, (c.cellAt i component).isSome → ∃ time, tc.times[i]? = some time ∧
      c.HasCellAt timeline component i time := by
    intro i hi
    obtain ⟨column', hcol', hbit⟩ := cellAt_isSome_iff.mp hi
    have hbound := (List.getElem?_eq_some_iff.mp hbit).1
    rw [validity_length, hc.wf.cells_length _ _ hcol', ← hc.wf.times_length _ _ htc] at hbound
    have hsome : tc.times[i]? = some tc.times[i] := List.getElem?_eq_getElem hbound
    refine ⟨tc.times[i], hsome, ?_, hi⟩
    rw [timeAt, htc]
    exact hsome
  -- a row with a cell is at or before both times, or neither
  have hsame : ∀ i time, c.HasCellAt timeline component i time →
      ((⟨time⟩ : TimeInt) ≤ t' ↔ (⟨time⟩ : TimeInt) ≤ t) := by
    intro i time hi
    obtain ⟨r, hindex⟩ := hi.cellIndex hstatic hc.wf
    exact ⟨h i _ hindex, fun ht => ht.trans hle⟩
  unfold latestAt
  rw [hempty, if_neg Bool.false_ne_true, hcol, bind_some]
  dsimp only
  rw [hstatic, if_neg Bool.false_ne_true, if_neg Bool.false_ne_true, bind_some, bind_some,
    htc, bind_some, bind_some]
  cases hsorted : tc.isSorted with
  | true =>
    refine lastValid_congr fun i hi => ?_
    obtain ⟨time, -, hcell⟩ := htime i ((hvalid i).mp hi)
    have hfirst := componentRange_min_le hc.wf hrange hcell
    obtain ⟨-, -, j, lo, hj, hmin'⟩ := hfirst
    have hpos := (lt_prefix_iff hc.wf htc hsorted t hj.1).mpr (hmin' ▸ hmin)
    have hpos' := (lt_prefix_iff hc.wf htc hsorted t' hj.1).mpr ((hmin' ▸ hmin).trans hle)
    have hiff := hsame i time hcell
    rw [← lt_prefix_iff hc.wf htc hsorted t hcell.1, ← lt_prefix_iff hc.wf htc hsorted t' hcell.1] at hiff
    omega
  | false =>
    apply congrArg fun res : TimeInt × RowId × Option Nat => res.2.2
    apply foldl_ext
    intro acc r _
    cases hv : decide (column.listArray.validity[r.2]? = some true) with
    | false => simp only [hv, Bool.false_and]
    | true =>
      obtain ⟨time, htimes, hcell⟩ := htime r.2 ((hvalid r.2).mp hv)
      have hdata : scanTime tc.times r.2 = ⟨time⟩ := by
        unfold scanTime
        rw [htimes, elim_some]
        exact newTemporal_of_ne ((hc.wf.times_wf _ _ htc).temporal time (mem_of_getElem? htimes))
      have hdecide : decide (scanTime tc.times r.2 ≤ t') = decide (scanTime tc.times r.2 ≤ t) := by
        rw [hdata]
        exact decide_eq_decide.mpr (hsame r.2 time hcell)
      dsimp only
      rw [hdecide]

/-! ## Units -/

variable {query : LatestAtQuery} {index : TimeInt ×ₗ RowId} {unit : UnitChunkShared}

theorem latestUnit_eq_some_iff : c.latestUnit query component = some (index, unit) ↔
    unit.chunk = c ∧ c.latestAt query component = some unit.row ∧
      c.unitIndex query.timeline unit.row = some index := by
  unfold latestUnit
  rw [bind_eq_some_iff]
  constructor
  · intro ⟨i, hi, hmap⟩
    obtain ⟨index', hindex, heq⟩ := map_eq_some_iff.mp hmap
    obtain ⟨rfl, rfl⟩ := Prod.mk.inj heq
    exact ⟨rfl, hi, hindex⟩
  · intro ⟨hchunk, hrow, hindex⟩
    subst hchunk
    exact ⟨unit.row, hrow, map_eq_some_iff.mpr ⟨index, hindex, rfl⟩⟩

theorem latestUnit_congr {t t' : TimeInt}
    (h : c.latestAt ⟨some timeline, t'⟩ component = c.latestAt ⟨some timeline, t⟩ component) :
    c.latestUnit ⟨some timeline, t'⟩ component = c.latestUnit ⟨some timeline, t⟩ component := by
  unfold latestUnit
  rw [h]

theorem Selects.greatest (h : c.Selects query component (c.latestAt query component))
    (hunit : c.latestUnit query component = some (index, unit)) :
    c.CellIndex query.timeline component unit.row index ∧ (ofLex index).1 ≤ query.at_ ∧
      ∀ j index', c.CellIndex query.timeline component j index' → (ofLex index').1 ≤ query.at_ →
        index' ≤ index := by
  obtain ⟨-, hrow, hindex⟩ := latestUnit_eq_some_iff.mp hunit
  obtain ⟨index', hcell, hle, hall⟩ := h.selected unit.row hrow
  obtain rfl := mem_unique hcell.2 hindex
  exact ⟨hcell, hle, hall⟩

theorem Selects.no_unit (h : c.Selects query component (c.latestAt query component))
    (hunit : c.latestUnit query component = none) {j : Nat} {index' : TimeInt ×ₗ RowId}
    (hj : c.CellIndex query.timeline component j index') (hle : (ofLex index').1 ≤ query.at_) :
    index' ≤ firstIndex := by
  cases hrow : c.latestAt query component with
  | none => exact h.nothing hrow j index' hj hle
  | some i =>
    obtain ⟨index, hcell, -⟩ := h.selected i hrow
    have hsome : c.latestUnit query component = some (index, ⟨c, i⟩) :=
      latestUnit_eq_some_iff.mpr ⟨rfl, hrow, hcell.2⟩
    rw [hunit] at hsome
    cases hsome

end Chunk

end Dalaran
