import Dalaran.Chunk.Chunk

/-
  Well-formed chunks.

  `Chunk.WellFormed` is the sanity check as a proposition (`sanityCheck_iff`), and
  `ValidChunk` the type of chunks that pass it: the chunks a store is given. On
  well-formed chunks the caches are right, so the ranges a chunk reports are the
  ranges of its rows.
-/

namespace Dalaran

open List Option Chunk Assoc TimeInt AbsoluteTimeRange ListArray

/-! ## The check as a proposition -/

/-- The caches of a time column are right, and no time is the static one. -/
structure TimeColumn.WellFormed (tc : TimeColumn) : Prop where
  isSorted_eq : tc.isSorted = Seq.ascending tc.times
  min_mem : tc.times ≠ [] → tc.timeRange.min.asI64 ∈ tc.times
  max_mem : tc.times ≠ [] → tc.timeRange.max.asI64 ∈ tc.times
  min_le : ∀ t ∈ tc.times, tc.timeRange.min.asI64 ≤ t
  le_max : ∀ t ∈ tc.times, t ≤ tc.timeRange.max.asI64
  temporal : ∀ t ∈ tc.times, t ≠ I64.MIN

/-- The columns have one length, and every cache is right. -/
structure Chunk.WellFormed (c : Chunk) : Prop where
  isSorted_eq : c.isSorted = Seq.ascending c.rowIds
  times_length : ∀ name tc, c.timelines.lookup name = some tc → tc.times.length = c.numRows
  times_wf : ∀ name tc, c.timelines.lookup name = some tc → tc.WellFormed
  cells_length : ∀ component column, c.components.lookup component = some column → column.listArray.len = c.numRows

theorem forM_ok_iff {α ε : Type} {l : List α} {f : α → Except ε Unit} :
    l.forM f = .ok () ↔ ∀ a ∈ l, f a = .ok () := by
  induction l with
  | nil => simp [pure, Except.pure]
  | cons a l ih =>
    rw [forall_mem_cons, ← ih]
    show (f a >>= fun _ => l.forM f) = .ok () ↔ _
    cases f a <;> simp [bind, Except.bind]

variable {tc : TimeColumn}

theorem TimeColumn.sanityCheck_iff : tc.sanityCheck = .ok () ↔ tc.WellFormed := by
  unfold TimeColumn.sanityCheck
  split
  · rename_i h
    simp only [reduceCtorEq, false_iff]
    exact fun hwf => h hwf.isSorted_eq
  · rename_i hsort
    split
    · rename_i h
      simp only [reduceCtorEq, false_iff]
      intro hwf
      simp only [Bool.and_eq_true, Bool.not_eq_true', isEmpty_eq_false_iff, ne_eq,
        Bool.and_eq_false_iff, contains_eq_mem, decide_eq_false_iff_not] at h
      rcases h with ⟨hne, h | h⟩
      · exact h (hwf.min_mem hne)
      · exact h (hwf.max_mem hne)
    · rename_i htight
      rw [forM_ok_iff]
      simp only [Bool.and_eq_true, Bool.not_eq_true', isEmpty_eq_false_iff, ne_eq,
        Bool.and_eq_false_iff, contains_eq_mem, decide_eq_false_iff_not, not_and, not_or,
        not_not] at htight hsort
      constructor
      · intro h
        have hcases : ∀ t ∈ tc.times, tc.timeRange.min.asI64 ≤ t ∧ t ≤ tc.timeRange.max.asI64 ∧ t ≠ I64.MIN := by
          intro t ht
          have := h t ht
          split at this
          · simp at this
          · rename_i hr
            split at this
            · simp at this
            · rename_i hs
              rw [not_or, not_lt, not_lt] at hr
              exact ⟨hr.1, hr.2, hs⟩
        exact ⟨hsort, fun hne => (htight hne).1, fun hne => (htight hne).2,
          fun t ht => (hcases t ht).1, fun t ht => (hcases t ht).2.1, fun t ht => (hcases t ht).2.2⟩
      · intro hwf t ht
        have h1 := not_lt.mpr (hwf.min_le t ht)
        have h2 := not_lt.mpr (hwf.le_max t ht)
        have h3 : t ≠ TimeInt.STATIC.asI64 := hwf.temporal t ht
        simp [h1, h2, h3]

theorem Chunk.checkTimeline_iff {c : Chunk} {name : TimelineName} :
    c.checkTimeline (name, tc) = .ok () ↔ tc.times.length = c.numRows ∧ tc.WellFormed := by
  unfold Chunk.checkTimeline
  by_cases hlen : tc.times.length = c.numRows
  · simp [hlen, TimeColumn.sanityCheck_iff]
  · simp [hlen]

theorem Chunk.checkComponent_iff {c : Chunk} {component : ComponentIdentifier}
    {column : ComponentColumn} :
    c.checkComponent (component, column) = .ok () ↔ column.listArray.len = c.numRows := by
  unfold Chunk.checkComponent
  by_cases hlen : column.listArray.len = c.numRows
  · -- a column as long as a non-empty chunk has validity bits
    have hempty : (!c.isEmpty && column.listArray.validityIsEmpty) = false := by
      by_contra hc
      simp only [Bool.not_eq_false, Bool.and_eq_true, Bool.not_eq_true', Chunk.isEmpty,
        validityIsEmpty, isEmpty_eq_false_iff, List.isEmpty_iff] at hc
      obtain ⟨hne, -, hnil⟩ := hc
      rw [len, hnil, Chunk.numRows] at hlen
      exact hne (length_eq_zero_iff.mp hlen.symm)
    simp [hlen, hempty]
  · simp [hlen]

theorem Chunk.sanityCheck_iff {c : Chunk} : c.sanityCheck = .ok () ↔ c.WellFormed := by
  unfold Chunk.sanityCheck
  split
  · rename_i h
    simp only [reduceCtorEq, false_iff]
    exact fun hwf => h hwf.isSorted_eq
  · rename_i hs
    have hbind : ∀ x y : Except ChunkError Unit, (x >>= fun _ => y) = .ok () ↔ x = .ok () ∧ y = .ok () := by
      intro x y
      cases x <;> simp [bind, Except.bind]
    rw [hbind, forM_ok_iff, forM_ok_iff]
    constructor
    · rintro ⟨ht, hc⟩
      have ht' := fun name tc hl => checkTimeline_iff.mp (ht (name, tc) (mem_toList.mpr hl))
      exact ⟨not_not.mp hs, fun name tc hl => (ht' name tc hl).1, fun name tc hl => (ht' name tc hl).2,
        fun co cl hl => checkComponent_iff.mp (hc (co, cl) (mem_toList.mpr hl))⟩
    · intro hwf
      refine ⟨?_, ?_⟩
      · rintro ⟨name, tc⟩ hmem
        have hl := mem_toList.mp hmem
        exact checkTimeline_iff.mpr ⟨hwf.times_length name tc hl, hwf.times_wf name tc hl⟩
      · rintro ⟨co, cl⟩ hmem
        exact checkComponent_iff.mpr (hwf.cells_length co cl (mem_toList.mp hmem))

/-- A chunk that passes its sanity check, which is what every constructor returns. -/
structure ValidChunk extends Chunk where
  sane : toChunk.sanityCheck = .ok ()

theorem ValidChunk.wf (c : ValidChunk) : c.toChunk.WellFormed := sanityCheck_iff.mp c.sane

def Chunk.new (id : ChunkId) (entityPath : EntityPath) (sizeBytes : Nat) (isSorted : Option Bool)
    (rowIds : List RowId) (timelines : Assoc TimelineName TimeColumn) (components : ChunkComponents) :
    Except ChunkError Chunk :=
  let chunk : Chunk :=
    { id, entityPath, sizeBytes, rowIds, timelines, components
      isSorted := isSorted.getD (Seq.ascending rowIds) }
  chunk.sanityCheck.map fun _ => chunk

/-! ## Ends of a sequence of times -/

theorem least_end {l : List I64} {s : Bool} (hs : s = true → Seq.ascending l = true)
    (hne : l ≠ []) :
    ∃ a, (if s then l.head? else l.min?) = some a ∧ a ∈ l ∧ ∀ b ∈ l, a ≤ b := by
  cases s with
  | true =>
    obtain ⟨a, ha⟩ := ne_none_iff_exists'.mp (fun h => hne (head?_eq_none_iff.mp h))
    refine ⟨a, ha, mem_of_head? ha, fun b hb => ?_⟩
    exact Seq.head?_le_of_ascending (hs rfl) ha hb
  | false =>
    cases h : l.min? with
    | none => exact absurd (min?_eq_none_iff.mp h) hne
    | some a =>
      exact ⟨a, by simp, min?_mem h, fun b hb => (le_min?_iff h).mp le_rfl b hb⟩

theorem greatest_end {l : List I64} {s : Bool} (hs : s = true → Seq.ascending l = true)
    (hne : l ≠ []) :
    ∃ a, (if s then l.getLast? else l.max?) = some a ∧ a ∈ l ∧ ∀ b ∈ l, b ≤ a := by
  cases s with
  | true =>
    obtain ⟨a, ha⟩ := ne_none_iff_exists'.mp (fun h => hne (getLast?_eq_none_iff.mp h))
    refine ⟨a, ha, mem_of_getLast? ha, fun b hb => ?_⟩
    exact Seq.le_getLast?_of_ascending (hs rfl) ha hb
  | false =>
    cases h : l.max? with
    | none => exact absurd (max?_eq_none_iff.mp h) hne
    | some a =>
      exact ⟨a, by simp, max?_mem h, fun b hb => (max?_le_iff h).mp le_rfl b hb⟩

theorem AbsoluteTimeRange.new_of_temporal {a b : I64} (ha : a ≠ I64.MIN) (hb : b ≠ I64.MIN) :
    AbsoluteTimeRange.new (TimeInt.newTemporal a) (TimeInt.newTemporal b) = ⟨⟨a⟩, ⟨b⟩⟩ := by
  unfold AbsoluteTimeRange.new
  rw [saturatedTemporal_newTemporal, saturatedTemporal_newTemporal, newTemporal_of_ne ha, newTemporal_of_ne hb]

theorem TimeColumn.new_wf {isSorted : Option Bool} {timeline : Timeline} {times : List I64}
    (hs : ∀ b, isSorted = some b → b = Seq.ascending times) (ht : ∀ t ∈ times, t ≠ I64.MIN) :
    (TimeColumn.new isSorted timeline times).WellFormed := by
  have hsorted : isSorted.getD (Seq.ascending times) = Seq.ascending times := by
    cases isSorted with
    | none => rfl
    | some b => exact hs b rfl
  by_cases hne : times = []
  · subst hne
    exact ⟨hsorted, by simp [TimeColumn.new], by simp [TimeColumn.new], by simp [TimeColumn.new],
      by simp [TimeColumn.new], by simp [TimeColumn.new]⟩
  · obtain ⟨lo, hlo, hlomem, hlole⟩ := least_end (fun h => hsorted.symm.trans h) hne
    obtain ⟨hi, hhi, himem, hile⟩ := greatest_end (fun h => hsorted.symm.trans h) hne
    have hrange : (TimeColumn.new isSorted timeline times).timeRange = ⟨⟨lo⟩, ⟨hi⟩⟩ := by
      simp only [TimeColumn.new, hlo, hhi, elim_some]
      exact new_of_temporal (ht lo hlomem) (ht hi himem)
    refine ⟨hsorted, fun _ => ?_, fun _ => ?_, fun t htm => ?_, fun t htm => ?_, ht⟩
    · rw [hrange]
      exact hlomem
    · rw [hrange]
      exact himem
    · rw [hrange]
      exact hlole t htm
    · rw [hrange]
      exact hile t htm

/-! ## The range of a component column -/

variable {a : ListArray}

theorem ListArray.validity_all_of_nullCount (h : a.nullCount = 0) : a.validity = replicate a.len true := by
  refine eq_replicate_iff.mpr ⟨a.validity_length, fun v hv => ?_⟩
  cases v with
  | true => rfl
  | false => exact absurd hv (count_eq_zero.mp h)

theorem ListArray.nullCount_of_dense (h : a.hasNulls = false) : a.nullCount = 0 := by
  refine count_eq_zero.mpr fun hv => ?_
  obtain ⟨e, he, hef⟩ := mem_map.mp hv
  simp [a.dense h e he] at hef

theorem Seq.select_replicate_true {α : Type} (l : List α) : Seq.select l (replicate l.length true) = l := by
  induction l with
  | nil => rfl
  | cons a l ih =>
    rw [length_cons, replicate_succ, Seq.select_cons, if_pos rfl, ih]

def TimeColumn.nonNullTimes (tc : TimeColumn) (a : ListArray) : List I64 :=
  Seq.select tc.times a.validity

theorem TimeColumn.nonNullTimes_of_nullCount (hlen : tc.times.length = a.len)
    (h : a.nullCount = 0) : tc.nonNullTimes a = tc.times := by
  rw [TimeColumn.nonNullTimes, validity_all_of_nullCount h, ← hlen, Seq.select_replicate_true]

theorem TimeColumn.componentTimeRange_tight (hwf : tc.WellFormed) (hlen : tc.times.length = a.len)
    (hne : tc.nonNullTimes a ≠ []) :
    ∃ lo hi, tc.componentTimeRange a = some ⟨⟨lo⟩, ⟨hi⟩⟩ ∧ lo ∈ tc.nonNullTimes a ∧
      hi ∈ tc.nonNullTimes a ∧ ∀ t ∈ tc.nonNullTimes a, lo ≤ t ∧ t ≤ hi := by
  by_cases hdense : a.nullCount = 0
  · have hall := nonNullTimes_of_nullCount hlen hdense
    have hne' : tc.times ≠ [] := by rwa [hall] at hne
    have hrange : tc.componentTimeRange a = some tc.timeRange := by
      have hbits : a.validityIsEmpty = false := by
        have : a.entries ≠ [] := fun h => hne' (length_eq_zero_iff.mp (by rw [hlen, len, h]; rfl))
        simp [validityIsEmpty, this]
      unfold componentTimeRange
      simp [hbits, hdense]
    refine ⟨tc.timeRange.min.asI64, tc.timeRange.max.asI64, hrange, ?_, ?_, fun t ht => ?_⟩
    · rw [hall]
      exact hwf.min_mem hne'
    · rw [hall]
      exact hwf.max_mem hne'
    · rw [hall] at ht
      exact ⟨hwf.min_le t ht, hwf.le_max t ht⟩
  · have hnulls : a.hasNulls = true := by
      by_contra h
      exact hdense (nullCount_of_dense (Bool.not_eq_true _ ▸ h))
    have hbits : a.validityIsEmpty = false := by
      have : a.entries ≠ [] := by
        intro h
        apply hdense
        simp [nullCount, validity, h]
      simp [validityIsEmpty, this]
    have hmem : ∀ t ∈ tc.nonNullTimes a, t ≠ I64.MIN := fun t ht =>
      hwf.temporal t ((Seq.select_sublist _ _).subset ht)
    obtain ⟨lo, hlo, hlomem, hlole⟩ :=
      least_end (s := Seq.ascending tc.times) (Seq.ascending_select a.validity) hne
    obtain ⟨hi, hhi, himem, hile⟩ :=
      greatest_end (s := Seq.ascending tc.times) (Seq.ascending_select a.validity) hne
    refine ⟨lo, hi, ?_, hlomem, himem, fun t ht => ⟨hlole t ht, hile t ht⟩⟩
    unfold componentTimeRange
    simp only [hnulls, hbits, hdense, hlo, hhi, if_true, Bool.false_eq_true, if_false, elim_some]
    rw [new_of_temporal (hmem lo hlomem) (hmem hi himem)]

theorem TimeColumn.componentTimeRange_of_all_null (hlen : tc.times.length = a.len) (hpos : a.len ≠ 0)
    (hnil : tc.nonNullTimes a = []) :
    tc.componentTimeRange a = some AbsoluteTimeRange.EMPTY := by
  have hdense : a.nullCount ≠ 0 := by
    intro h
    rw [nonNullTimes_of_nullCount hlen h] at hnil
    exact hpos (by rw [← hlen, hnil]; rfl)
  have hnulls : a.hasNulls = true := by
    by_contra h
    exact hdense (nullCount_of_dense (Bool.not_eq_true _ ▸ h))
  have hbits : a.validityIsEmpty = false := by
    have : a.entries ≠ [] := fun h => hpos (by rw [len, h]; rfl)
    simp [validityIsEmpty, this]
  rw [nonNullTimes] at hnil
  unfold componentTimeRange
  simp only [hnulls, hbits, hdense, hnil, if_true, Bool.false_eq_true, if_false, head?_nil,
    min?_nil, getLast?_nil, max?_nil, ite_self, elim_none]
  rfl

end Dalaran
