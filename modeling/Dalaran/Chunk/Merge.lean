import Dalaran.Chunk.Split

/-
  Sorting and concatenating chunks (`shuffle.rs`, `merge.rs`).

  `Chunk::concat_and_sort` is what compaction runs on two neighbours. The
  arguments are put in row-id order, every shared column is concatenated, a
  column only one side has is padded with nulls, and the result is shuffled into
  row-id order when the two overlap.

  On two well-formed, non-empty, concatenable chunks the call succeeds, and the
  result is well-formed, sorted, under a fresh id, has the row ids of both, and,
  when arrow joins the shared columns and the others can be padded, has exactly the
  rows of both (`concatAndSort_spec`).
-/

namespace Dalaran

open List Option Bool ListArray Assoc TimeColumn AbsoluteTimeRange

/-! ## Shuffling -/

namespace Chunk

/-- Move the rows into the given order, under a new id. -/
def shuffleWith (c : Chunk) (id : ChunkId) (sizeBytes : Nat) (swaps : List Nat) : Chunk where
  id := id
  entityPath := c.entityPath
  sizeBytes := sizeBytes
  isSorted := Seq.ascending (Seq.permute c.rowIds swaps)
  rowIds := Seq.permute c.rowIds swaps
  timelines := Assoc.map c.timelines fun _ tc =>
    let times := Seq.permute tc.times swaps
    { tc with times := times, isSorted := Seq.ascending times }
  components := Assoc.map c.components fun _ column =>
    { column with listArray := column.listArray.shuffle swaps }

/-- Sort the rows by row id. An id is drawn before the shuffle and again in it. -/
def sortByRowIdsIfNeeded (env : Env) (k : Nat) (c : Chunk) : Chunk × Nat :=
  if c.isSorted then (c, k)
  else
    let id := env.newId (k + 1)
    (c.shuffleWith id (env.sizeBytes id) (Seq.stableSortIndices c.rowIds), k + 2)

end Chunk

/-! ## Concatenation -/

def TimeColumn.concatenated (l r : TimeColumn) : Option TimeColumn :=
  if l.timeline ≠ r.timeline then none
  else
    some
      { timeline := l.timeline
        times := l.times ++ r.times
        isSorted := l.isSorted && r.isSorted && decide (l.timeRange.max ≤ r.timeRange.min)
        timeRange := l.timeRange.union r.timeRange }

namespace Chunk

/-- The same timelines by name and type. -/
def sameTimelines (l r : Chunk) : Bool :=
  l.timelines.entries.length == r.timelines.entries.length &&
    (Assoc.toList l.timelines).all fun (name, tc) =>
      (r.timelines.lookup name).any fun tc' => tc.timeline == tc'.timeline

def sameDatatypes (l r : Chunk) : Bool :=
  (Assoc.toList l.components).all fun (component, column) =>
    match r.components.lookup component with
    | some column' => column.listArray.dataType == column'.listArray.dataType
    | none => true

def concatenable (l r : Chunk) : Bool :=
  decide (l.entityPath = r.entityPath) && l.sameTimelines r && l.sameDatatypes r

/-- The columns of a concatenation: shared ones joined, the others padded. One that arrow cannot
join is left out. -/
def concatComponents (env : Env) (l r : Chunk) : ChunkComponents :=
  let len := l.numRows + r.numRows
  let lhs := Assoc.filterMap l.components fun component column =>
    match r.components.lookup component with
    | some column' =>
      if env.concatFails column.listArray column'.listArray then none
      else some { column with listArray := column.listArray.concat column'.listArray }
    | none => some { column with listArray := column.listArray.padBack len }
  let rhs := Assoc.filterMap r.components fun component column =>
    match l.components.lookup component with
    -- joined already, or the second try fails like the first
    | some _ => none
    | none => some { column with listArray := column.listArray.padFront len }
  lhs ∪ rhs

/-- `l`'s rows, then `r`'s. -/
def concatenatedUnsorted (env : Env) (k : Nat) (l r : Chunk) : Except ChunkError (Chunk × Nat) :=
  if !l.concatenable r then .error .notConcatenable
  else
    match l.rowIdRange, r.rowIdRange with
    | none, _ => .ok (r, k)
    | _, none => .ok (l, k)
    | some (_, l1), some (r0, _) =>
      let column := fun name (tc : TimeColumn) => (r.timelines.lookup name).bind tc.concatenated
      if (Assoc.toList l.timelines).all fun (name, tc) => (column name tc).isSome then
        let id := env.newId k
        .ok
          ({ id := id
             entityPath := l.entityPath
             sizeBytes := env.sizeBytes id
             isSorted := l.isSorted && r.isSorted && decide (l1 ≤ r0)
             rowIds := l.rowIds ++ r.rowIds
             timelines := Assoc.filterMap l.timelines column
             components := l.concatComponents env r }, k + 1)
      else .error .notConcatenable

/-- Concatenate, the chunk with the smaller first row id in front. -/
def concatenatedInOrder (env : Env) (k : Nat) (left right : Chunk) : Except ChunkError (Chunk × Nat) :=
  match left.minRowId, right.minRowId with
  | some l, some r =>
    if l < r then left.concatenatedUnsorted env k right else right.concatenatedUnsorted env k left
  | none, some _ => left.concatenatedUnsorted env k right
  | _, none => right.concatenatedUnsorted env k left

/-- Concatenate in row-id order, sort, and check the result. -/
def concatAndSort (env : Env) (k : Nat) (left right : Chunk) : Except ChunkError (Chunk × Nat) :=
  match left.concatenatedInOrder env k right with
  | .error e => .error e
  | .ok (compacted, k) =>
    let sorted := compacted.sortByRowIdsIfNeeded env k
    match sorted.1.sanityCheck with
    | .error e => .error e
    | .ok () => .ok sorted

end Chunk

/-! ## Shuffling keeps the rows -/

namespace Chunk

variable {c : Chunk} {swaps : List Nat}

theorem lt_of_mem_swaps {α : Type} {l : List α} (hs : swaps.Perm (range l.length)) :
    ∀ i ∈ swaps, i < l.length :=
  fun _ hi => mem_range.mp (hs.mem_iff.mp hi)

theorem shuffleWith_wf (hwf : c.WellFormed) (hs : swaps.Perm (range c.numRows)) (id : ChunkId)
    (size : Nat) : (c.shuffleWith id size swaps).WellFormed := by
  have hlen : (Seq.permute c.rowIds swaps).length = c.numRows := (Seq.permute_perm hs).length_eq
  refine ⟨rfl, ?_, ?_, ?_⟩
  · intro name tc' h
    rw [shuffleWith, lookup_map] at h
    obtain ⟨tc, htc, rfl⟩ := map_eq_some_iff.mp h
    have hl := hwf.times_length _ _ htc
    rw [← hl] at hs
    exact (Seq.permute_perm hs).length_eq.trans (hl.trans hlen.symm)
  · intro name tc' h
    rw [shuffleWith, lookup_map] at h
    obtain ⟨tc, htc, rfl⟩ := map_eq_some_iff.mp h
    have hl := hwf.times_length _ _ htc
    have htwf := hwf.times_wf _ _ htc
    rw [← hl] at hs
    have hmem : ∀ t, t ∈ Seq.permute tc.times swaps ↔ t ∈ tc.times := fun t =>
      (Seq.permute_perm hs).mem_iff
    have hne : Seq.permute tc.times swaps ≠ [] → tc.times ≠ [] := by
      intro h h'
      obtain ⟨t, ht⟩ := exists_mem_of_ne_nil _ h
      rw [hmem, h'] at ht
      simp at ht
    exact ⟨rfl, fun h => (hmem _).mpr (htwf.min_mem (hne h)),
      fun h => (hmem _).mpr (htwf.max_mem (hne h)), fun t ht => htwf.min_le t ((hmem t).mp ht),
      fun t ht => htwf.le_max t ((hmem t).mp ht), fun t ht => htwf.temporal t ((hmem t).mp ht)⟩
  · intro component column' h
    rw [shuffleWith, lookup_map] at h
    obtain ⟨column, hcol, rfl⟩ := map_eq_some_iff.mp h
    have hl := hwf.cells_length _ _ hcol
    rw [← hl] at hs
    exact (Seq.permute_perm hs).length_eq.trans (hl.trans hlen.symm)

theorem shuffleWith_rows (hwf : c.WellFormed) (hs : swaps.Perm (range c.numRows)) (id : ChunkId)
    (size : Nat) : (c.shuffleWith id size swaps).rows = Seq.permute c.rows swaps := by
  have hlt : ∀ i ∈ swaps, i < c.rowIds.length := lt_of_mem_swaps hs
  have hlt' : ∀ i ∈ swaps, i < c.rows.length := by
    rw [rows_length]
    exact hlt
  apply ext_getElem?
  intro n
  rw [rows_getElem?, Seq.permute_getElem? hlt']
  show ((Seq.permute c.rowIds swaps)[n]?).map _ = _
  rw [Seq.permute_getElem? hlt]
  cases hn : swaps[n]? with
  | none => rfl
  | some i =>
    simp only [bind_some, rows_getElem?]
    congr 1
    funext r
    refine Row.ext rfl rfl ?_ ?_
    · funext name
      show Option.bind _ _ = Option.bind _ _
      simp only [shuffleWith, lookup_map]
      cases htc : c.timelines.lookup name with
      | none => rfl
      | some tc =>
        have hl := hwf.times_length _ _ htc
        rw [← hl] at hs
        simp only [map_some, bind_some]
        rw [Seq.permute_getElem? (lt_of_mem_swaps hs), hn, bind_some]
    · funext component
      show Option.bind _ _ = Option.bind _ _
      simp only [shuffleWith, lookup_map]
      cases hcol : c.components.lookup component with
      | none => rfl
      | some column =>
        have hl := hwf.cells_length _ _ hcol
        rw [← hl, ← cells_length] at hs
        simp only [map_some, bind_some]
        rw [shuffle_cells, Seq.permute_getElem? (lt_of_mem_swaps hs), hn, bind_some]

/-! ## Concatenable chunks -/

variable {l r : Chunk}

theorem sameTimelines_iff :
    l.sameTimelines r = true ↔ l.timelines.entries.length = r.timelines.entries.length ∧
      ∀ name tc, l.timelines.lookup name = some tc →
        ∃ tc', r.timelines.lookup name = some tc' ∧ tc.timeline = tc'.timeline := by
  simp only [sameTimelines, and_eq_true, beq_iff_eq, List.all_eq_true, Prod.forall,
    Assoc.mem_toList, Option.any_eq_true]

theorem sameTimelines_symm (h : l.sameTimelines r = true) : r.sameTimelines l = true := by
  obtain ⟨hlen, hsub⟩ := sameTimelines_iff.mp h
  -- the keys of `l` are among those of `r`, and there are as many, so they are the same
  have hkeys : l.timelines.keys.Perm r.timelines.keys := by
    refine Subperm.perm_of_length_le ?_ ?_
    · refine subperm_of_subset (AList.keys_nodup _) fun name hname => ?_
      obtain ⟨tc, htc⟩ := mem_keys_iff.mp hname
      obtain ⟨tc', htc', _⟩ := hsub name tc htc
      exact mem_keys_iff.mpr ⟨tc', htc'⟩
    · simp only [AList.keys, keys, length_map]
      omega
  refine sameTimelines_iff.mpr ⟨hlen.symm, fun name tc htc => ?_⟩
  obtain ⟨tc', htc'⟩ := mem_keys_iff.mp (hkeys.mem_iff.mpr (mem_keys_iff.mpr ⟨tc, htc⟩))
  obtain ⟨tc'', htc'', heq⟩ := hsub name tc' htc'
  rw [htc] at htc''
  exact ⟨tc', htc', by rw [heq, ← some.inj htc'']⟩

theorem entityPath_of_concatenable (h : l.concatenable r = true) : l.entityPath = r.entityPath := by
  simp only [concatenable, and_eq_true, decide_eq_true_eq] at h
  exact h.1.1

theorem isStatic_of_concatenable (h : l.concatenable r = true) : l.isStatic = r.isStatic := by
  simp only [concatenable, and_eq_true] at h
  have hlen := (sameTimelines_iff.mp h.1.2).1
  unfold isStatic
  rw [Bool.eq_iff_iff, List.isEmpty_iff, List.isEmpty_iff, ← length_eq_zero_iff, ← length_eq_zero_iff, hlen]

theorem sameDatatypes_iff :
    l.sameDatatypes r = true ↔ ∀ component column column', l.components.lookup component = some column →
      r.components.lookup component = some column' → column.listArray.dataType = column'.listArray.dataType := by
  simp only [sameDatatypes, List.all_eq_true, Prod.forall, Assoc.mem_toList]
  constructor
  · intro h component column column' hl hr
    have := h component column hl
    simpa [hr] using this
  · intro h component column hl
    cases hr : r.components.lookup component with
    | none => rfl
    | some column' => simpa using h component column column' hl hr

theorem concatenable_symm (h : l.concatenable r = true) : r.concatenable l = true := by
  simp only [concatenable, and_eq_true, decide_eq_true_eq] at h ⊢
  refine ⟨⟨h.1.1.symm, sameTimelines_symm h.1.2⟩, sameDatatypes_iff.mpr fun co c c' hr hl => ?_⟩
  exact (sameDatatypes_iff.mp h.2 co c' c hl hr).symm

theorem concatComponents_lookup (env : Env) (l r : Chunk) (component : ComponentIdentifier) :
    (l.concatComponents env r).lookup component =
      match l.components.lookup component, r.components.lookup component with
      | some a, some b => if env.concatFails a.listArray b.listArray then none
          else some { a with listArray := a.listArray.concat b.listArray }
      | some a, none => some { a with listArray := a.listArray.padBack (l.numRows + r.numRows) }
      | none, some b => some { b with listArray := b.listArray.padFront (l.numRows + r.numRows) }
      | none, none => none := by
  unfold concatComponents
  rw [lookup_union, lookup_filterMap, lookup_filterMap]
  cases l.components.lookup component with
  | none => cases r.components.lookup component <;> rfl
  | some a =>
    cases r.components.lookup component with
    | none => rfl
    | some b => simp

@[elab_as_elim]
theorem concatComponents_elim {env : Env} {P : ComponentColumn → Prop} {column : ComponentColumn}
    (h : (l.concatComponents env r).lookup component = some column)
    (both : ∀ a b, l.components.lookup component = some a → r.components.lookup component = some b →
      P { a with listArray := a.listArray.concat b.listArray })
    (left : ∀ a, l.components.lookup component = some a → r.components.lookup component = none →
      P { a with listArray := a.listArray.padBack (l.numRows + r.numRows) })
    (right : ∀ b, r.components.lookup component = some b → l.components.lookup component = none →
      P { b with listArray := b.listArray.padFront (l.numRows + r.numRows) }) : P column := by
  rw [concatComponents_lookup] at h
  cases hl : l.components.lookup component with
  | some a =>
    cases hr : r.components.lookup component with
    | some b =>
      simp only [hl, hr] at h
      split at h
      · cases h
      · exact some.inj h ▸ both a b hl hr
    | none =>
      simp only [hl, hr] at h
      exact some.inj h ▸ left a hl hr
  | none =>
    cases hr : r.components.lookup component with
    | some b =>
      simp only [hl, hr] at h
      exact some.inj h ▸ right b hr hl
    | none => simp [hl, hr] at h

end Chunk

/-! ## Concatenation keeps the rows -/

theorem TimeColumn.concatenated_wf {l r t : TimeColumn} (hl : l.WellFormed) (hr : r.WellFormed)
    (hlne : l.times ≠ []) (hrne : r.times ≠ []) (h : l.concatenated r = some t) :
    t.WellFormed ∧ t.times = l.times ++ r.times := by
  unfold concatenated at h
  split at h
  · simp at h
  · cases h
    refine ⟨⟨?_, fun _ => ?_, fun _ => ?_, fun t ht => ?_, fun t ht => ?_, fun t ht => ?_⟩, rfl⟩
    · rw [Seq.ascending_append_eq (hl.max_mem hlne) (hr.min_mem hrne) hl.le_max hr.min_le,
        ← hl.isSorted_eq, ← hr.isSorted_eq]
      rfl
    · rcases min_choice l.timeRange.min r.timeRange.min with h | h
      · exact mem_append_left _ (by simpa [union, h] using hl.min_mem hlne)
      · exact mem_append_right _ (by simpa [union, h] using hr.min_mem hrne)
    · rcases max_choice l.timeRange.max r.timeRange.max with h | h
      · exact mem_append_left _ (by simpa [union, h] using hl.max_mem hlne)
      · exact mem_append_right _ (by simpa [union, h] using hr.max_mem hrne)
    · rcases mem_append.mp ht with ht | ht
      · have : (l.timeRange.union r.timeRange).min ≤ l.timeRange.min := min_le_left _ _
        exact le_trans this (hl.min_le t ht)
      · have : (l.timeRange.union r.timeRange).min ≤ r.timeRange.min := min_le_right _ _
        exact le_trans this (hr.min_le t ht)
    · rcases mem_append.mp ht with ht | ht
      · exact (hl.le_max t ht).trans (le_max_left l.timeRange.max r.timeRange.max)
      · exact (hr.le_max t ht).trans (le_max_right l.timeRange.max r.timeRange.max)
    · rcases mem_append.mp ht with ht | ht
      · exact hl.temporal t ht
      · exact hr.temporal t ht

namespace Chunk

/-- The columns that `r` lacks can be padded. -/
def PaddableNextTo (l r : Chunk) : Prop :=
  ∀ component column, l.components.lookup component = some column →
    r.components.lookup component = none → column.listArray.Paddable

variable {l : Chunk}

theorem Packed.paddableNextTo (h : l.Packed) (r : Chunk) : l.PaddableNextTo r :=
  fun component column hcolumn _ => (h component column hcolumn).paddable

/-- A component that both chunks have and whose columns arrow cannot join. -/
def fails (env : Env) (l r : Chunk) (component : ComponentIdentifier) : Bool :=
  match l.components.lookup component, r.components.lookup component with
  | some a, some b => env.concatFails a.listArray b.listArray
  | _, _ => false

/-- A component that a merge of two chunks loses, the one with the smaller first row id in front. -/
def loses (env : Env) (left right : Chunk) (component : ComponentIdentifier) : Bool :=
  match left.minRowId, right.minRowId with
  | some l, some r => if l < r then left.fails env right component else right.fails env left component
  | _, _ => false

def JoinsColumns (env : Env) (l r : Chunk) : Prop := ∀ component, l.loses env r component = false

theorem fails_of_joins {env : Env} (h : ∀ a b, env.concatFails a b = false) (l r : Chunk)
    (component : ComponentIdentifier) : l.fails env r component = false := by
  unfold fails
  split
  · exact h _ _
  · rfl

theorem joinsColumns_countingFrom (bound : Nat) (l r : Chunk) : l.JoinsColumns (.countingFrom bound) r := by
  intro component
  have hjoins := @fails_of_joins (.countingFrom bound) (fun _ _ => rfl)
  unfold loses
  split
  · split <;> exact hjoins _ _ _
  · rfl

/-- What a merge of two chunks is: sound, sorted, with the rows of both if no column is lost. -/
structure MergeOf (keeps : Prop) (m l r : Chunk) : Prop where
  entityPath : m.entityPath = l.entityPath
  wf : m.WellFormed
  nonempty : m.rowIds ≠ []
  timelines : ∀ name, (m.timelines.lookup name).isSome = (l.timelines.lookup name).isSome
  components : keeps → ∀ component, (l.components.lookup component).isSome ∨ (r.components.lookup component).isSome →
    (m.components.lookup component).isSome
  nonNull : ∀ component column, m.components.lookup component = some column →
    (∀ column', l.components.lookup component = some column' → true ∈ column'.listArray.validity) →
    (∀ column', r.components.lookup component = some column' → true ∈ column'.listArray.validity) →
    true ∈ column.listArray.validity
  packed : l.Packed → r.Packed → m.Packed
  rowIds : m.rowIds.Perm (l.rowIds ++ r.rowIds)
  rows : keeps → l.PaddableNextTo r → r.PaddableNextTo l → m.rows.Perm (l.rows ++ r.rows)

theorem rowIdRange_spec {c : Chunk} (hwf : c.WellFormed) (hne : c.rowIds ≠ []) :
    ∃ lo hi, c.rowIdRange = some (lo, hi) ∧ lo ∈ c.rowIds ∧ hi ∈ c.rowIds ∧ ∀ r ∈ c.rowIds, lo ≤ r ∧ r ≤ hi := by
  unfold rowIdRange
  cases hs : c.isSorted with
  | true =>
    have hasc := hwf.isSorted_eq.symm.trans hs
    obtain ⟨lo, hlo⟩ := ne_none_iff_exists'.mp (fun h => hne (head?_eq_none_iff.mp h))
    obtain ⟨hi, hhi⟩ := ne_none_iff_exists'.mp (fun h => hne (getLast?_eq_none_iff.mp h))
    refine ⟨lo, hi, by simp [hlo, hhi], mem_of_head? hlo, mem_of_getLast? hhi, fun r hr => ?_⟩
    exact ⟨Seq.head?_le_of_ascending hasc hlo hr, Seq.le_getLast?_of_ascending hasc hhi hr⟩
  | false =>
    obtain ⟨lo, hlo⟩ := ne_none_iff_exists'.mp (fun h => hne (min?_eq_none_iff.mp h))
    obtain ⟨hi, hhi⟩ := ne_none_iff_exists'.mp (fun h => hne (max?_eq_none_iff.mp h))
    refine ⟨lo, hi, by simp [hlo, hhi], min?_mem hlo, max?_mem hhi, fun r hr => ?_⟩
    exact ⟨(le_min?_iff hlo).mp le_rfl r hr, (max?_le_iff hhi).mp le_rfl r hr⟩

theorem padBack_len {a : ListArray} {m n : Nat} (h : a.len = m) : (a.padBack (m + n)).len = m + n := by
  rw [← validity_length, padBack_validity]
  simp [h]

theorem padFront_len {a : ListArray} {m n : Nat} (h : a.len = n) : (a.padFront (m + n)).len = m + n := by
  rw [← validity_length, padFront_validity]
  simp [h]

/-- The chunk `concatenated_unsorted` builds out of two non-empty chunks. -/
def concatenation (env : Env) (l r : Chunk) (id : ChunkId) (size : Nat) (isSorted : Bool) : Chunk where
  id := id
  entityPath := l.entityPath
  sizeBytes := size
  isSorted := isSorted
  rowIds := l.rowIds ++ r.rowIds
  timelines := Assoc.filterMap l.timelines fun name tc =>
    (r.timelines.lookup name).bind tc.concatenated
  components := l.concatComponents env r

section Concatenation

variable {env : Env} {l r : Chunk} (hl : l.WellFormed) (hr : r.WellFormed)
  (htl : ∀ name tc, l.timelines.lookup name = some tc →
    ∃ tc', r.timelines.lookup name = some tc' ∧ tc.timeline = tc'.timeline)
include hl hr

variable {column : ComponentColumn}

variable {component : ComponentIdentifier}

theorem concatenation_component_len (h : (l.concatComponents env r).lookup component = some column) :
    column.listArray.len = l.numRows + r.numRows := by
  refine concatComponents_elim h (fun a b ha hb => ?_) (fun a ha _ => padBack_len (hl.cells_length _ _ ha))
    fun b hb _ => padFront_len (hr.cells_length _ _ hb)
  rw [← cells_length, concat_cells, length_append, cells_length, cells_length, hl.cells_length _ _ ha,
    hr.cells_length _ _ hb]

omit hl hr in
theorem concatenation_nonNull (h : (l.concatComponents env r).lookup component = some column)
    (hln : ∀ c', l.components.lookup component = some c' → true ∈ c'.listArray.validity)
    (hrn : ∀ c', r.components.lookup component = some c' → true ∈ c'.listArray.validity) :
    true ∈ column.listArray.validity := by
  refine concatComponents_elim h (fun a b ha hb => ?_) (fun a ha _ => ?_) fun b hb _ => ?_
  · rw [concat_validity]
    exact mem_append_left _ (hln a ha)
  · rw [padBack_validity]
    exact mem_append_left _ (hln a ha)
  · rw [padFront_validity]
    exact mem_append_right _ (hrn b hb)

omit hl hr in
theorem concatenation_packed (hlp : l.Packed) (hrp : r.Packed)
    (h : (l.concatComponents env r).lookup component = some column) :
    column.listArray.Packed :=
  concatComponents_elim h (fun _ _ ha hb => concat_packed (hlp _ _ ha) (hrp _ _ hb))
    (fun _ ha _ => padBack_packed (hlp _ _ ha) _) fun _ hb _ => padFront_packed (hrp _ _ hb) _

omit hl hr in
theorem concatenation_column (hkeeps : l.fails env r component = false)
    (h : (l.components.lookup component).isSome ∨ (r.components.lookup component).isSome) :
    ((l.concatComponents env r).lookup component).isSome := by
  rw [concatComponents_lookup]
  unfold fails at hkeeps
  cases hlc : l.components.lookup component with
  | some a =>
    cases hrc : r.components.lookup component with
    | some b =>
      simp only [hlc, hrc] at hkeeps
      simp [hkeeps]
    | none => rfl
  | none =>
    cases hrc : r.components.lookup component with
    | some b => rfl
    | none => simp [hlc, hrc] at h

theorem concatenation_cellAt (hkeeps : ∀ component, l.fails env r component = false) (hlp : l.PaddableNextTo r) (hrp : r.PaddableNextTo l) (id : ChunkId) (size : Nat)
    (isSorted : Bool) (i : Nat) (component : ComponentIdentifier) :
    (concatenation env l r id size isSorted).cellAt i component =
      if i < l.numRows then l.cellAt i component else r.cellAt (i - l.numRows) component := by
  unfold cellAt concatenation
  simp only [concatComponents_lookup]
  cases hlc : l.components.lookup component with
  | some a =>
    have hal : a.listArray.cells.length = l.numRows := by
      rw [cells_length, hl.cells_length _ _ hlc]
    cases hrc : r.components.lookup component with
    | some b =>
      have hjoins : env.concatFails a.listArray b.listArray = false := by
        simpa only [fails, hlc, hrc] using hkeeps component
      simp only [hjoins, Bool.false_eq_true, if_false, bind_some, concat_cells, List.getElem?_append, hal]
      split <;> rfl
    | none =>
      simp only [bind_some, bind_none, padBack_cells (hlp _ _ hlc hrc),
        List.getElem?_append, hal, hl.cells_length _ _ hlc]
      split
      · rfl
      · rw [List.getElem?_replicate]
        split <;> rfl
  | none =>
    cases hrc : r.components.lookup component with
    | some b =>
      have hbl := hr.cells_length _ _ hrc
      simp only [bind_some, bind_none, padFront_cells (hrp _ _ hrc hlc),
        List.getElem?_append, length_replicate, hbl, Nat.add_sub_cancel]
      split
      · rw [List.getElem?_replicate]
        split <;> rfl
      · rfl
    | none => simp

omit hr in
include htl in
theorem concatenation_timeAt (id : ChunkId) (size : Nat) (isSorted : Bool) (i : Nat)
    (name : TimelineName)
    (hsub : ∀ tc, r.timelines.lookup name = some tc → (l.timelines.lookup name).isSome) :
    (concatenation env l r id size isSorted).timeAt i name =
      if i < l.numRows then l.timeAt i name else r.timeAt (i - l.numRows) name := by
  unfold timeAt concatenation
  simp only [lookup_filterMap]
  cases hlt : l.timelines.lookup name with
  | none =>
    cases hrt : r.timelines.lookup name with
    | none => simp
    | some tc' =>
      have := hsub tc' hrt
      simp [hlt] at this
  | some tc =>
    obtain ⟨tc', htc', heq⟩ := htl name tc hlt
    simp only [htc', bind_some, concatenated, heq, ne_eq, not_true_eq_false,
      if_false, List.getElem?_append, hl.times_length _ _ hlt]

include htl in
theorem concatenation_rows (hkeeps : ∀ component, l.fails env r component = false) (hlp : l.PaddableNextTo r) (hrp : r.PaddableNextTo l) (hpath : l.entityPath = r.entityPath)
    (hsub : ∀ name tc, r.timelines.lookup name = some tc → (l.timelines.lookup name).isSome)
    (id : ChunkId) (size : Nat) (isSorted : Bool) :
    (concatenation env l r id size isSorted).rows = l.rows ++ r.rows := by
  apply ext_getElem?
  intro i
  rw [rows_getElem?, List.getElem?_append, rows_length, rows_getElem?, rows_getElem?]
  show ((l.rowIds ++ r.rowIds)[i]?).map _ = _
  rw [List.getElem?_append]
  have hrow : ∀ rowId, (concatenation env l r id size isSorted).rowAt i rowId =
      if i < l.numRows then l.rowAt i rowId else r.rowAt (i - l.numRows) rowId := by
    intro rowId
    apply Row.ext
    · show l.entityPath = _
      split
      · rfl
      · exact hpath
    · split <;> rfl
    · funext name
      refine (concatenation_timeAt hl htl id size isSorted i name (hsub name)).trans ?_
      split <;> rfl
    · funext component
      refine (concatenation_cellAt hl hr hkeeps hlp hrp id size isSorted i component).trans ?_
      split <;> rfl
  by_cases hi : i < l.numRows
  · rw [if_pos hi, if_pos (show i < l.rowIds.length from hi)]
    congr 1
    funext rowId
    rw [hrow, if_pos hi]
  · rw [if_neg hi, if_neg (show ¬ i < l.rowIds.length from hi)]
    show (r.rowIds[i - l.rowIds.length]?).map _ = (r.rowIds[i - l.numRows]?).map _
    congr 1
    funext rowId
    rw [hrow, if_neg hi]

include htl in
theorem concatenation_mergeOf (hlne : l.rowIds ≠ []) (hrne : r.rowIds ≠ [])
    (hpath : l.entityPath = r.entityPath)
    (hsub : ∀ name tc, r.timelines.lookup name = some tc → (l.timelines.lookup name).isSome)
    (id : ChunkId) (size : Nat) {isSorted : Bool}
    (hs : isSorted = Seq.ascending (l.rowIds ++ r.rowIds)) :
    (concatenation env l r id size isSorted).MergeOf (∀ component, l.fails env r component = false) l r := by
  have hcolumn : ∀ name tc, (concatenation env l r id size isSorted).timelines.lookup name = some tc →
      tc.WellFormed ∧ tc.times.length = l.numRows + r.numRows := by
    intro name tc h
    rw [concatenation, lookup_filterMap] at h
    obtain ⟨tl, htl', h⟩ := bind_eq_some_iff.mp h
    obtain ⟨tr, htr, h⟩ := bind_eq_some_iff.mp h
    have hll := hl.times_length _ _ htl'
    have hrl := hr.times_length _ _ htr
    have hlne' : tl.times ≠ [] := fun h => hlne (length_eq_zero_iff.mp (by rw [h] at hll; exact hll.symm))
    have hrne' : tr.times ≠ [] := fun h => hrne (length_eq_zero_iff.mp (by rw [h] at hrl; exact hrl.symm))
    obtain ⟨hwf, htimes⟩ := concatenated_wf (hl.times_wf _ _ htl') (hr.times_wf _ _ htr)
      hlne' hrne' h
    exact ⟨hwf, by rw [htimes, length_append, hll, hrl]⟩
  have hnum : (concatenation env l r id size isSorted).numRows = l.numRows + r.numRows :=
    length_append
  refine ⟨rfl, ⟨hs, fun name tc h => ?_, fun name tc h => (hcolumn name tc h).1, fun co cl h => ?_⟩,
    ?_, fun name => ?_, fun hkeeps co => concatenation_column (hkeeps co), fun co cl h hln hrn => ?_,
    fun hlp hrp co cl h => ?_, .refl _, fun hkeeps hlp hrp => ?_⟩
  · rw [hnum]
    exact (hcolumn name tc h).2
  · rw [hnum]
    exact concatenation_component_len hl hr h
  · exact fun h => hlne (append_eq_nil_iff.mp h).1
  · rw [concatenation, lookup_filterMap]
    cases hlt : l.timelines.lookup name with
    | none => rfl
    | some tc =>
      obtain ⟨tc', htc', heq⟩ := htl name tc hlt
      simp [htc', concatenated, heq]
  · exact concatenation_nonNull h hln hrn
  · exact concatenation_packed hlp hrp h
  · rw [concatenation_rows hl hr htl hkeeps hlp hrp hpath hsub]

end Concatenation

variable {r : Chunk}

theorem concatenatedUnsorted_eq (env : Env) (k : Nat) (hl : l.WellFormed) (hr : r.WellFormed) (hlne : l.rowIds ≠ [])
    (hrne : r.rowIds ≠ []) (h : l.concatenable r = true) :
    l.concatenatedUnsorted env k r = .ok (concatenation env l r (env.newId k) (env.sizeBytes (env.newId k))
      (Seq.ascending (l.rowIds ++ r.rowIds)), k + 1) := by
  have h' := h
  simp only [concatenable, and_eq_true, decide_eq_true_eq] at h'
  obtain ⟨-, htl⟩ := sameTimelines_iff.mp h'.1.2
  obtain ⟨l0, l1, hlr, -, hl1, hlb⟩ := rowIdRange_spec hl hlne
  obtain ⟨r0, r1, hrr, hr0, -, hrb⟩ := rowIdRange_spec hr hrne
  have hs : (l.isSorted && r.isSorted && decide (l1 ≤ r0)) = Seq.ascending (l.rowIds ++ r.rowIds) := by
    rw [hl.isSorted_eq, hr.isSorted_eq]
    exact (Seq.ascending_append_eq hl1 hr0 (fun x hx => (hlb x hx).2) fun x hx => (hrb x hx).1).symm
  have hall : ((toList l.timelines).all fun (name, tc) =>
      ((r.timelines.lookup name).bind tc.concatenated).isSome) = true := by
    rw [List.all_eq_true]
    rintro ⟨name, tc⟩ hmem
    obtain ⟨tc', htc', heq⟩ := htl name tc (mem_toList.mp hmem)
    simp [htc', concatenated, heq]
  unfold concatenatedUnsorted
  simp only [h, hlr, hrr, Bool.not_true, false_eq_true, if_false]
  rw [if_pos hall, hs]
  rfl

theorem concatenatedUnsorted_spec (env : Env) (k : Nat) (hl : l.WellFormed) (hr : r.WellFormed) (hlne : l.rowIds ≠ [])
    (hrne : r.rowIds ≠ []) (h : l.concatenable r = true) :
    ∃ m, l.concatenatedUnsorted env k r = .ok (m, k + 1) ∧ m.id = env.newId k ∧
      m.MergeOf (∀ component, l.fails env r component = false) l r := by
  have h' := h
  simp only [concatenable, and_eq_true, decide_eq_true_eq] at h'
  obtain ⟨⟨hpath, htls⟩, -⟩ := h'
  obtain ⟨-, htl⟩ := sameTimelines_iff.mp htls
  obtain ⟨-, htr⟩ := sameTimelines_iff.mp (sameTimelines_symm htls)
  refine ⟨_, concatenatedUnsorted_eq env k hl hr hlne hrne h, rfl,
    concatenation_mergeOf hl hr htl hlne hrne hpath (fun name tc htc => ?_) _ _ rfl⟩
  obtain ⟨tc', htc', _⟩ := htr name tc htc
  rw [htc']
  rfl

variable {m : Chunk} {keeps : Prop}

theorem shuffleWith_mergeOf (h : m.MergeOf keeps l r) (hs : swaps.Perm (range m.numRows)) (id : ChunkId) (size : Nat) :
    (m.shuffleWith id size swaps).MergeOf keeps l r := by
  refine ⟨h.entityPath, shuffleWith_wf h.wf hs _ _, ?_, fun name => ?_, fun hkeeps co hcol => ?_,
    fun co cl hc hln hrn => ?_, fun hlp hrp co cl hc => ?_, (Seq.permute_perm hs).trans h.rowIds,
    fun hkeeps hlp hrp => ?_⟩
  · intro hnil
    have hlen := (Seq.permute_perm hs).length_eq
    rw [show Seq.permute m.rowIds _ = [] from hnil] at hlen
    exact h.nonempty (length_eq_zero_iff.mp hlen.symm)
  · rw [shuffleWith, lookup_map, isSome_map]
    exact h.timelines name
  · rw [shuffleWith, lookup_map, isSome_map]
    exact h.components hkeeps co hcol
  · rw [shuffleWith, lookup_map] at hc
    obtain ⟨column, hcol, rfl⟩ := map_eq_some_iff.mp hc
    rw [shuffle_validity]
    refine (Seq.mem_permute_of_perm ?_).mpr (h.nonNull co column hcol hln hrn)
    rw [validity_length, h.wf.cells_length _ _ hcol]
    exact hs
  · rw [shuffleWith, lookup_map] at hc
    obtain ⟨column, hcol, rfl⟩ := map_eq_some_iff.mp hc
    exact shuffle_packed (h.packed hlp hrp co column hcol) _
  · rw [shuffleWith_rows h.wf hs]
    refine (Seq.permute_perm ?_).trans (h.rows hkeeps hlp hrp)
    rw [rows_length]
    exact hs

theorem sortByRowIdsIfNeeded_mergeOf (env : Env) (k : Nat) (h : m.MergeOf keeps l r) :
    (m.sortByRowIdsIfNeeded env k).1.MergeOf keeps l r ∧ (m.sortByRowIdsIfNeeded env k).1.isSorted = true ∧
      ((m.sortByRowIdsIfNeeded env k).1.id = m.id ∨
        ∃ j, k ≤ j ∧ (m.sortByRowIdsIfNeeded env k).1.id = env.newId j) := by
  unfold sortByRowIdsIfNeeded
  split
  · rename_i hs
    exact ⟨h, hs, .inl rfl⟩
  · exact ⟨shuffleWith_mergeOf h (Seq.stableSortIndices_perm m.rowIds) _ _,
      Seq.ascending_permute_stableSortIndices m.rowIds, .inr ⟨k + 1, by omega, rfl⟩⟩

theorem MergeOf.symm (h : m.MergeOf keeps l r) (hpath : l.entityPath = r.entityPath)
    (htl : l.sameTimelines r = true) : m.MergeOf keeps r l := by
  refine ⟨h.entityPath.trans hpath, h.wf, h.nonempty, fun name => (h.timelines name).trans ?_,
    fun hkeeps co hcol => h.components hkeeps co hcol.symm, fun co cl hc h1 h2 => h.nonNull co cl hc h2 h1,
    fun h1 h2 => h.packed h2 h1, h.rowIds.trans perm_append_comm,
    fun hkeeps h1 h2 => (h.rows hkeeps h2 h1).trans perm_append_comm⟩
  have h1 := (sameTimelines_iff.mp htl).2 name
  have h2 := (sameTimelines_iff.mp (sameTimelines_symm htl)).2 name
  cases hl : l.timelines.lookup name with
  | some tc =>
    obtain ⟨tc', htc', _⟩ := h1 tc hl
    rw [htc']
    rfl
  | none =>
    cases hr : r.timelines.lookup name with
    | none => rfl
    | some tc' =>
      obtain ⟨tc, htc, _⟩ := h2 tc' hr
      rw [hl] at htc
      simp at htc

theorem concatAndSort_spec (env : Env) (k : Nat) (hl : l.WellFormed) (hr : r.WellFormed) (hlne : l.rowIds ≠ [])
    (hrne : r.rowIds ≠ []) (h : l.concatenable r = true) :
    ∃ m k', l.concatAndSort env k r = .ok (m, k') ∧ (∃ j, k ≤ j ∧ m.id = env.newId j) ∧
      m.MergeOf (l.JoinsColumns env r) l r ∧ m.isSorted = true := by
  have h' := h
  simp only [concatenable, and_eq_true, decide_eq_true_eq] at h'
  obtain ⟨⟨hpath, htls⟩, -⟩ := h'
  obtain ⟨l0, l1, hlr, -⟩ := rowIdRange_spec hl hlne
  obtain ⟨r0, r1, hrr, -⟩ := rowIdRange_spec hr hrne
  -- either order of the two yields a merge
  have hconcat : ∃ m, l.concatenatedInOrder env k r = .ok (m, k + 1) ∧ m.id = env.newId k ∧
      m.MergeOf (l.JoinsColumns env r) l r := by
    unfold concatenatedInOrder JoinsColumns loses minRowId
    simp only [hlr, hrr, map_some]
    by_cases hlt : l0 < r0
    · simp only [if_pos hlt]
      exact concatenatedUnsorted_spec env k hl hr hlne hrne h
    · simp only [if_neg hlt]
      obtain ⟨m, hok, hid, hm⟩ :=
        concatenatedUnsorted_spec env k hr hl hrne hlne (concatenable_symm h)
      exact ⟨m, hok, hid, hm.symm hpath.symm (sameTimelines_symm htls)⟩
  obtain ⟨m, hok, hid, hm⟩ := hconcat
  obtain ⟨hsort, hsorted, hids⟩ := sortByRowIdsIfNeeded_mergeOf env (k + 1) hm
  refine ⟨(m.sortByRowIdsIfNeeded env (k + 1)).1, (m.sortByRowIdsIfNeeded env (k + 1)).2, ?_, ?_, hsort, hsorted⟩
  · unfold concatAndSort
    simp only [hok, sanityCheck_iff.mpr hsort.wf]
  · rcases hids with hids | ⟨j, hj, hids⟩
    · exact ⟨k, le_rfl, hids.trans hid⟩
    · exact ⟨j, by omega, hids⟩

/-! ## Merging keeps the cells -/

variable {component : ComponentIdentifier} {timeline : TimelineName}

theorem concatenable_timeAt (hl : l.WellFormed) (h : l.concatenable r = true) (id : ChunkId) (size : Nat)
    (isSorted : Bool) (i : Nat) : (concatenation env l r id size isSorted).timeAt i timeline =
      if i < l.numRows then l.timeAt i timeline else r.timeAt (i - l.numRows) timeline := by
  simp only [concatenable, and_eq_true, decide_eq_true_eq] at h
  obtain ⟨-, htl⟩ := sameTimelines_iff.mp h.1.2
  obtain ⟨-, htr⟩ := sameTimelines_iff.mp (sameTimelines_symm h.1.2)
  refine concatenation_timeAt hl htl id size isSorted i timeline fun tc htc => ?_
  obtain ⟨tc', htc', -⟩ := htr timeline tc htc
  exact isSome_of_eq_some htc'

theorem concatenation_hasCellAt_left (hl : l.WellFormed) (h : l.concatenable r = true) {id : ChunkId} {size : Nat}
    {isSorted : Bool} {i : Nat} {t : I64} (hkept : ((l.concatComponents env r).lookup component).isSome)
    (hcell : l.HasCellAt timeline component i t) :
    (concatenation env l r id size isSorted).HasCellAt timeline component i t := by
  obtain ⟨column, hcol, hvalid⟩ := cellAt_isSome_iff.mp hcell.2
  have hlt := (List.getElem?_eq_some_iff.mp hvalid).1
  have hi : i < l.numRows := by
    rw [validity_length, hl.cells_length _ _ hcol] at hlt
    exact hlt
  constructor
  · rw [concatenable_timeAt hl h, if_pos hi]
    exact hcell.1
  · apply cellAt_isSome_iff.mpr
    obtain ⟨merged, hmerged⟩ := isSome_iff_exists.mp hkept
    refine ⟨merged, hmerged, ?_⟩
    refine concatComponents_elim hmerged (fun a b ha _ => ?_) (fun a ha _ => ?_) fun b _ hnone => ?_
    · cases hcol.symm.trans ha
      rw [concat_validity, List.getElem?_append_left hlt]
      exact hvalid
    · cases hcol.symm.trans ha
      rw [padBack_validity, List.getElem?_append_left hlt]
      exact hvalid
    · cases hcol.symm.trans hnone

theorem concatenation_hasCellAt_right (hl : l.WellFormed) (hr : r.WellFormed) (h : l.concatenable r = true)
    {id : ChunkId} {size : Nat} {isSorted : Bool} {i : Nat} {t : I64}
    (hkept : ((l.concatComponents env r).lookup component).isSome) (hcell : r.HasCellAt timeline component i t) :
    (concatenation env l r id size isSorted).HasCellAt timeline component (l.numRows + i) t := by
  obtain ⟨column, hcol, hvalid⟩ := cellAt_isSome_iff.mp hcell.2
  have hsub : l.numRows + i - l.numRows = i := Nat.add_sub_cancel_left ..
  have hge : ¬ l.numRows + i < l.numRows := by omega
  constructor
  · rw [concatenable_timeAt hl h, if_neg hge, hsub]
    exact hcell.1
  · apply cellAt_isSome_iff.mpr
    obtain ⟨merged, hmerged⟩ := isSome_iff_exists.mp hkept
    refine ⟨merged, hmerged, ?_⟩
    refine concatComponents_elim hmerged (fun a b ha hb => ?_) (fun a _ hnone => ?_) fun b hb _ => ?_
    · cases hcol.symm.trans hb
      have hlen : a.listArray.validity.length = l.numRows := by
        rw [validity_length]
        exact hl.cells_length _ _ ha
      rw [concat_validity, List.getElem?_append_right (by omega), hlen, hsub]
      exact hvalid
    · cases hcol.symm.trans hnone
    · cases hcol.symm.trans hb
      have hlen : column.listArray.len = r.numRows := hr.cells_length _ _ hcol
      have hpad : (replicate (l.numRows + r.numRows - column.listArray.len) false).length = l.numRows := by
        rw [length_replicate]
        omega
      rw [padFront_validity, List.getElem?_append_right (by omega), hpad, hsub]
      exact hvalid

theorem shuffleWith_hasCellAt (hwf : m.WellFormed) (hs : swaps.Perm (range m.numRows)) (id : ChunkId)
    (size : Nat) {i : Nat} {t : I64} (hcell : m.HasCellAt timeline component i t) :
    ∃ j, (m.shuffleWith id size swaps).HasCellAt timeline component j t := by
  obtain ⟨column, hcol, hvalid⟩ := cellAt_isSome_iff.mp hcell.2
  have hi : i < m.rowIds.length := by
    have hlt := (List.getElem?_eq_some_iff.mp hvalid).1
    rw [validity_length, hwf.cells_length _ _ hcol] at hlt
    exact hlt
  obtain ⟨j, hj⟩ := mem_iff_getElem?.mp (hs.mem_iff.mpr (mem_range.mpr hi))
  have hlt : ∀ i ∈ swaps, i < m.rows.length := by
    rw [rows_length]
    exact lt_of_mem_swaps hs
  -- the row in its new place is the row it was
  have hrow : (m.shuffleWith id size swaps).rows[j]? = m.rows[i]? := by
    rw [shuffleWith_rows hwf hs, Seq.permute_getElem? hlt, hj, bind_some]
  rw [rows_getElem?, rows_getElem?, List.getElem?_eq_getElem hi, map_some] at hrow
  obtain ⟨r, -, hrowAt⟩ := map_eq_some_iff.mp hrow
  refine ⟨j, (congrFun (congrArg Row.times hrowAt) timeline).trans hcell.1, ?_⟩
  have hcells : (m.shuffleWith id size swaps).cellAt j component = m.cellAt i component :=
    congrFun (congrArg Row.cells hrowAt) component
  rw [hcells]
  exact hcell.2

theorem concatAndSort_hasCellAt {env : Env} {k k' : Nat} (hl : l.WellFormed) (hr : r.WellFormed)
    (hlne : l.rowIds ≠ []) (hrne : r.rowIds ≠ []) (h : l.concatenable r = true)
    (hok : l.concatAndSort env k r = .ok (m, k')) (hkept : (m.components.lookup component).isSome)
    {i : Nat} {t : I64} (hcell : l.HasCellAt timeline component i t ∨ r.HasCellAt timeline component i t) :
    ∃ j, m.HasCellAt timeline component j t := by
  obtain ⟨l0, l1, hlr, -⟩ := rowIdRange_spec hl hlne
  obtain ⟨r0, r1, hrr, -⟩ := rowIdRange_spec hr hrne
  have hconcat : ∃ d, l.concatenatedInOrder env k r = .ok (d, k + 1) ∧ d.WellFormed ∧
      ((d.components.lookup component).isSome → ∃ j, d.HasCellAt timeline component j t) := by
    unfold concatenatedInOrder minRowId
    simp only [hlr, hrr, map_some]
    split
    · obtain ⟨d, hd, -, hmerge⟩ := concatenatedUnsorted_spec env k hl hr hlne hrne h
      refine ⟨d, hd, hmerge.wf, ?_⟩
      rw [concatenatedUnsorted_eq env k hl hr hlne hrne h] at hd
      obtain ⟨rfl, -⟩ := Prod.mk.inj (Except.ok.inj hd)
      exact fun hkept => hcell.elim (fun hcell => ⟨i, concatenation_hasCellAt_left hl h hkept hcell⟩)
        fun hcell => ⟨_, concatenation_hasCellAt_right hl hr h hkept hcell⟩
    · have h' := concatenable_symm h
      obtain ⟨d, hd, -, hmerge⟩ := concatenatedUnsorted_spec env k hr hl hrne hlne h'
      refine ⟨d, hd, hmerge.wf, ?_⟩
      rw [concatenatedUnsorted_eq env k hr hl hrne hlne h'] at hd
      obtain ⟨rfl, -⟩ := Prod.mk.inj (Except.ok.inj hd)
      exact fun hkept => hcell.elim (fun hcell => ⟨_, concatenation_hasCellAt_right hr hl h' hkept hcell⟩)
        fun hcell => ⟨i, concatenation_hasCellAt_left hr h' hkept hcell⟩
  obtain ⟨d, hd, hdwf, hcells⟩ := hconcat
  unfold concatAndSort at hok
  rw [hd] at hok
  dsimp only at hok
  split at hok
  · cases hok
  · obtain ⟨hm, -⟩ := Prod.mk.inj (Except.ok.inj hok)
    have hsorted : ∀ s : Chunk × Nat, s = d.sortByRowIdsIfNeeded env (k + 1) →
        (s.1.components.lookup component).isSome → ∃ j, s.1.HasCellAt timeline component j t := by
      rintro s rfl
      unfold sortByRowIdsIfNeeded
      split
      · exact hcells
      · intro hkept
        simp only [shuffleWith, lookup_map, isSome_map] at hkept
        obtain ⟨j, hj⟩ := hcells hkept
        exact shuffleWith_hasCellAt hdwf (Seq.stableSortIndices_perm d.rowIds) _ _ hj
    rw [← hm] at hkept ⊢
    exact hsorted _ rfl hkept

end Chunk

end Dalaran
