import Dalaran.Base.Runs
import Dalaran.Chunk.Slices

/-
  Merging any number of chunks (`merge.rs`).

  `concat_and_sort` of two concatenable chunks succeeds, and gives a sorted chunk
  that passes its sanity check and is concatenable again with whatever both its
  parts are. So a list of pairwise concatenable chunks is merged one after the
  other, as `rebatch_videos.rs` does.

  Padding lays the lengths of the cells out from the start of the child array
  (`ListArray.readFromStart`), and a shared column is lost if arrow cannot join it.
  So the rows of the merge are the rows of both as padding reads them
  (`paddedNextTo`), without the lost cells, and they are the right ones exactly if
  no row has such a cell and each chunk keeps its rows when it is read like that
  (`concatAndSort_keeps_rows`).

  Correspondence (Rust ↔ Lean):
    the loop of `chunk_from_gop` over `concat_and_sort` ↔ `Chunk.mergeNext`, `Runs.run`
-/

namespace Dalaran

open List Option Assoc ListArray

theorem ListArray.padBack_dataType (a : ListArray) (n : Nat) : (a.padBack n).dataType = a.dataType := by
  unfold ListArray.padBack
  split <;> rfl

theorem ListArray.padFront_dataType (a : ListArray) (n : Nat) : (a.padFront n).dataType = a.dataType := by
  unfold ListArray.padFront
  split <;> rfl

/-- A row without the cells of some components. -/
def Row.without (lost : ComponentIdentifier → Bool) (row : Row) : Row :=
  { row with cells := fun component => if lost component then none else row.cells component }

namespace Chunk

variable {l r m d : Chunk} {env : Env} {k : Nat}

/-! ## What padding reads -/

/-- A chunk as it is padded next to another one with rows: the columns that the other one lacks are
read from the start of their child arrays. -/
def paddedNextTo (l r : Chunk) : Chunk :=
  { l with components := Assoc.map l.components fun component column =>
      if r.isEmpty || (r.components.lookup component).isSome then column
      else { column with listArray := column.listArray.readFromStart } }

/-- The chunk has the same rows, up to their order, when it is read like that. -/
def SurvivesPadding (l r : Chunk) : Prop := (l.paddedNextTo r).rows.Perm l.rows

theorem rows_congr (hpath : m.entityPath = l.entityPath) (hids : m.rowIds = l.rowIds)
    (htimes : ∀ name, (m.timelines.lookup name).map (·.times) = (l.timelines.lookup name).map (·.times))
    (hcells : ∀ component, (m.components.lookup component).map (·.listArray.cells) =
      (l.components.lookup component).map (·.listArray.cells)) : m.rows = l.rows := by
  have hrow : m.rowAt = l.rowAt := by
    funext i id
    refine Row.ext hpath rfl ?_ ?_
    · funext name
      show (m.timelines.lookup name).bind (·.times[i]?) = (l.timelines.lookup name).bind (·.times[i]?)
      have h := congrArg (fun o : Option (List I64) => o.bind (·[i]?)) (htimes name)
      simpa only [bind_map, Function.comp_def] using h
    · funext component
      show (m.components.lookup component).bind (fun column => (column.listArray.cells[i]?).join) =
        (l.components.lookup component).bind fun column => (column.listArray.cells[i]?).join
      have h := congrArg (fun o : Option (List (Option Cell)) => o.bind fun cells => (cells[i]?).join)
        (hcells component)
      simpa only [bind_map, Function.comp_def] using h
  unfold rows
  rw [hids, hrow]

theorem paddedNextTo_lookup (l r : Chunk) (component : ComponentIdentifier) :
    (l.paddedNextTo r).components.lookup component = (l.components.lookup component).map fun column =>
      if r.isEmpty || (r.components.lookup component).isSome then column
      else { column with listArray := column.listArray.readFromStart } := by
  unfold paddedNextTo
  rw [lookup_map]

theorem paddedNextTo_rows_of_empty (hr : r.rowIds = []) : (l.paddedNextTo r).rows = l.rows := by
  have hempty : r.isEmpty = true := by
    rw [isEmpty, hr]
    rfl
  refine rows_congr (m := l.paddedNextTo r) rfl rfl (fun _ => rfl) fun component => ?_
  rw [paddedNextTo_lookup, hempty]
  simp

theorem paddedNextTo_rows_of_own_empty (hl : l.rowIds = []) : (l.paddedNextTo r).rows = [] := by
  show l.rowIds.mapIdx _ = []
  rw [hl]
  rfl

theorem paddedNextTo_wf (hl : l.WellFormed) (r : Chunk) : (l.paddedNextTo r).WellFormed := by
  refine ⟨hl.isSorted_eq, hl.times_length, hl.times_wf, fun component column hcol => ?_⟩
  rw [paddedNextTo_lookup] at hcol
  obtain ⟨column', hcol', rfl⟩ := map_eq_some_iff.mp hcol
  have hlen : column'.listArray.len = l.numRows := hl.cells_length _ _ hcol'
  split
  · exact hlen
  · exact (readFromStart_len _).trans hlen

theorem paddedNextTo_paddable (hr : r.rowIds ≠ []) (d : Chunk)
    (hd : ∀ component, (d.components.lookup component).isSome = (r.components.lookup component).isSome) :
    (l.paddedNextTo r).PaddableNextTo d := by
  have hempty : r.isEmpty = false := by simpa [isEmpty] using hr
  intro component column hcol hnone
  have hlacks : (r.components.lookup component).isSome = false := by
    rw [← hd, hnone]
    rfl
  rw [paddedNextTo_lookup, hempty, hlacks] at hcol
  obtain ⟨column, -, rfl⟩ := map_eq_some_iff.mp hcol
  exact (readFromStart_packed _).paddable

theorem paddedNextTo_cellAt_isSome (l r : Chunk) (i : Nat) (component : ComponentIdentifier) :
    ((l.paddedNextTo r).cellAt i component).isSome ↔ (l.cellAt i component).isSome := by
  rw [cellAt_isSome_iff, cellAt_isSome_iff, paddedNextTo_lookup]
  cases l.components.lookup component with
  | none => simp
  | some column =>
    simp only [map_some, Option.some.injEq, exists_eq_left']
    split
    · rfl
    · rw [readFromStart_validity]

theorem paddedNextTo_cellAt_of_shared {component : ComponentIdentifier}
    (h : (r.components.lookup component).isSome) (i : Nat) :
    (l.paddedNextTo r).cellAt i component = l.cellAt i component := by
  unfold cellAt
  rw [paddedNextTo_lookup, h]
  simp

theorem PaddableNextTo.survivesPadding (h : l.PaddableNextTo r) : l.SurvivesPadding r := by
  apply Perm.of_eq
  refine rows_congr (m := l.paddedNextTo r) rfl rfl (fun _ => rfl) fun component => ?_
  rw [paddedNextTo_lookup]
  cases hcol : l.components.lookup component with
  | none => rfl
  | some column =>
    cases hrc : r.components.lookup component with
    | some column' => simp
    | none =>
      have hcells : column.listArray.readFromStart.cells = column.listArray.cells := h component column hcol hrc
      simp only [map_some, isSome_none, Bool.or_false]
      split
      · rfl
      · rw [hcells]

/-! ## Concatenation -/

/-- Where arrow joins everything. -/
def joining (env : Env) : Env := { env with concatFails := fun _ _ => false }

theorem concatenation_rows_without (l r : Chunk) (id : ChunkId) (size : Nat) (isSorted : Bool) :
    (concatenation env l r id size isSorted).rows =
      (concatenation (joining env) l r id size isSorted).rows.map (Row.without (l.fails env r)) := by
  unfold rows
  rw [mapIdx_eq_zipIdx_map, mapIdx_eq_zipIdx_map, List.map_map]
  refine map_congr_left fun row _ => ?_
  refine Row.ext rfl rfl rfl (funext fun component => ?_)
  show Option.bind ((l.concatComponents env r).lookup component) _ = if l.fails env r component then none
    else Option.bind ((l.concatComponents (joining env) r).lookup component) _
  rw [concatComponents_lookup, concatComponents_lookup, fails]
  cases l.components.lookup component with
  | none => cases r.components.lookup component <;> rfl
  | some a =>
    cases r.components.lookup component with
    | none => rfl
    | some b =>
      cases hfails : env.concatFails a.listArray b.listArray <;> simp [hfails, joining]

theorem concatenation_rows_padded (hl : l.WellFormed) (hr : r.WellFormed) (hlne : l.rowIds ≠ [])
    (hrne : r.rowIds ≠ []) (h : l.concatenable r = true) (id : ChunkId) (size : Nat) (isSorted : Bool) :
    (concatenation env l r id size isSorted).rows =
      ((l.paddedNextTo r).rows ++ (r.paddedNextTo l).rows).map (Row.without (l.fails env r)) := by
  have hl' : l.isEmpty = false := by simpa [isEmpty] using hlne
  have hr' : r.isEmpty = false := by simpa [isEmpty] using hrne
  have hsome : ∀ (a b : Chunk) component, ((a.paddedNextTo b).components.lookup component).isSome =
      (a.components.lookup component).isSome := by
    intro a b component
    rw [paddedNextTo_lookup, isSome_map]
  have hlpos : 0 < l.numRows := length_pos_iff.mpr hlne
  have hrpos : 0 < r.numRows := length_pos_iff.mpr hrne
  -- padding reads nothing else of a column than what it reads from the start
  have hcells : ∀ component, ((l.concatComponents (joining env) r).lookup component).map (·.listArray.cells) =
      (((l.paddedNextTo r).concatComponents (joining env) (r.paddedNextTo l)).lookup component).map
        (·.listArray.cells) := by
    intro component
    rw [concatComponents_lookup, concatComponents_lookup, paddedNextTo_lookup, paddedNextTo_lookup]
    cases hlc : l.components.lookup component with
    | none =>
      cases hrc : r.components.lookup component with
      | none => rfl
      | some b =>
        have hlen := hr.cells_length _ _ hrc
        simp only [map_none, map_some, hl', isSome_none, Bool.or_false, Bool.false_eq_true, if_false]
        exact congrArg some (padFront_readFromStart _ (by rw [hlen]; exact Nat.lt_add_of_pos_left hlpos)).symm
    | some a =>
      cases hrc : r.components.lookup component with
      | some b => simp [joining]
      | none =>
        have hlen := hl.cells_length _ _ hlc
        simp only [map_none, map_some, hr', isSome_none, Bool.or_false, Bool.false_eq_true, if_false]
        exact congrArg some (padBack_readFromStart _ (by rw [hlen]; exact Nat.lt_add_of_pos_right hrpos)).symm
  simp only [concatenable, Bool.and_eq_true, decide_eq_true_eq] at h
  obtain ⟨-, htl⟩ := sameTimelines_iff.mp h.1.2
  obtain ⟨-, htr⟩ := sameTimelines_iff.mp (sameTimelines_symm h.1.2)
  rw [concatenation_rows_without]
  refine congrArg (List.map _) ?_
  calc (concatenation (joining env) l r id size isSorted).rows
      = (concatenation (joining env) (l.paddedNextTo r) (r.paddedNextTo l) id size isSorted).rows :=
        rows_congr rfl rfl (fun _ => rfl) hcells
    _ = (l.paddedNextTo r).rows ++ (r.paddedNextTo l).rows := by
        refine concatenation_rows (paddedNextTo_wf hl r) (paddedNextTo_wf hr l) htl
          (fails_of_joins (fun _ _ => rfl) _ _)
          (paddedNextTo_paddable hrne _ (hsome r l)) (paddedNextTo_paddable hlne _ (hsome l r)) h.1.1
          (fun name tc htc => ?_) id size isSorted
        obtain ⟨tc', htc', -⟩ := htr name tc htc
        exact isSome_of_eq_some htc'

theorem padded_rows_perm_iff (l r : Chunk) :
    ((l.paddedNextTo r).rows ++ (r.paddedNextTo l).rows).Perm (l.rows ++ r.rows) ↔
      l.SurvivesPadding r ∧ r.SurvivesPadding l := by
  apply Seq.perm_append_iff_of_unchanged
    (p := fun row => ∃ component, r.components.lookup component = none ∧ (row.cells component).isSome)
  · apply forall₂_iff_get.mpr
    refine ⟨by simp only [rows_length]; rfl, fun i h₁ h₂ => ?_⟩
    have hi : i < l.rowIds.length := lt_of_lt_of_eq h₁ l.rows_length
    have hget : l.rows.get ⟨i, h₁⟩ = l.rowAt i l.rowIds[i] := by simp [rows]
    have hget' : (l.paddedNextTo r).rows.get ⟨i, h₂⟩ = (l.paddedNextTo r).rowAt i l.rowIds[i] := by
      simp only [rows, get_eq_getElem, getElem_mapIdx]
      rfl
    rw [hget, hget']
    refine ⟨exists_congr fun component => and_congr_right fun _ =>
      (paddedNextTo_cellAt_isSome l r i component).symm, fun hunchanged => ?_⟩
    refine Row.ext rfl rfl rfl (funext fun component => ?_)
    show l.cellAt i component = (l.paddedNextTo r).cellAt i component
    cases hrc : r.components.lookup component with
    | some column => exact (paddedNextTo_cellAt_of_shared (isSome_of_eq_some hrc) i).symm
    | none =>
      have hnone : ¬ (l.cellAt i component).isSome := fun hsome => hunchanged ⟨component, hrc, hsome⟩
      have hnone' : ¬ ((l.paddedNextTo r).cellAt i component).isSome := fun hsome =>
        hnone ((paddedNextTo_cellAt_isSome l r i component).mp hsome)
      rw [not_isSome_iff_eq_none.mp hnone, not_isSome_iff_eq_none.mp hnone']
  · intro row hrow hcell
    obtain ⟨i, _, rfl⟩ := mem_mapIdx.mp hrow
    obtain ⟨component, hnone, hcell⟩ := hcell
    obtain ⟨column, hcol, -⟩ := cellAt_isSome_iff.mp hcell
    rw [hnone] at hcol
    cases hcol
  · intro row hrow hcell
    obtain ⟨i, _, rfl⟩ := mem_mapIdx.mp hrow
    obtain ⟨component, hnone, hcell⟩ := hcell
    obtain ⟨column, hcol, -⟩ := cellAt_isSome_iff.mp ((paddedNextTo_cellAt_isSome r l i component).mp hcell)
    rw [hnone] at hcol
    cases hcol

/-- A merge loses no cell with a column, and moves none by padding. -/
def LosesNothing (env : Env) (l r : Chunk) : Prop :=
  (∀ component, l.loses env r component = true → ∀ row ∈ l.rows ++ r.rows, row.cells component = none) ∧
    l.SurvivesPadding r ∧ r.SurvivesPadding l

theorem loses_shared {component : ComponentIdentifier} (h : l.loses env r component = true) :
    (l.components.lookup component).isSome ∧ (r.components.lookup component).isSome := by
  have hfails : ∀ {a b : Chunk}, a.fails env b component = true →
      (a.components.lookup component).isSome ∧ (b.components.lookup component).isSome := by
    intro a b h
    unfold fails at h
    split at h
    · rename_i ha hb
      exact ⟨isSome_of_eq_some ha, isSome_of_eq_some hb⟩
    · cases h
  unfold loses at h
  split at h
  · split at h
    · exact hfails h
    · exact (hfails h).symm
  · cases h

theorem paddedNextTo_without {lost : ComponentIdentifier → Bool}
    (hshared : ∀ component, lost component = true → (r.components.lookup component).isSome)
    (h : ∀ component, lost component = true → ∀ row ∈ l.rows, row.cells component = none) :
    (l.paddedNextTo r).rows.map (Row.without lost) = (l.paddedNextTo r).rows := by
  refine (map_congr_left fun row hrow => ?_).trans (map_id _)
  obtain ⟨i, hi, rfl⟩ := mem_mapIdx.mp hrow
  refine Row.ext rfl rfl rfl (funext fun component => ?_)
  show (if lost component then none else (l.paddedNextTo r).cellAt i component) = (l.paddedNextTo r).cellAt i component
  split
  · rename_i hlost
    rw [paddedNextTo_cellAt_of_shared (hshared component hlost)]
    exact (h component hlost _ (mem_mapIdx.mpr ⟨i, hi, rfl⟩)).symm
  · rfl

theorem losesNothing_iff (env : Env) (l r : Chunk) :
    (((l.paddedNextTo r).rows ++ (r.paddedNextTo l).rows).map (Row.without (l.loses env r))).Perm
      (l.rows ++ r.rows) ↔ l.LosesNothing env r := by
  have hsame : (∀ component, l.loses env r component = true → ∀ row ∈ l.rows ++ r.rows,
      row.cells component = none) → ((l.paddedNextTo r).rows ++ (r.paddedNextTo l).rows).map
        (Row.without (l.loses env r)) = (l.paddedNextTo r).rows ++ (r.paddedNextTo l).rows := by
    intro h
    rw [map_append, paddedNextTo_without (fun co hco => (loses_shared hco).2) fun co hco row hrow =>
      h co hco row (mem_append_left _ hrow), paddedNextTo_without (fun co hco => (loses_shared hco).1)
      fun co hco row hrow => h co hco row (mem_append_right _ hrow)]
  constructor
  · intro hperm
    have hnone : ∀ component, l.loses env r component = true → ∀ row ∈ l.rows ++ r.rows,
        row.cells component = none := by
      intro component hlost row hrow
      obtain ⟨padded, -, rfl⟩ := mem_map.mp (hperm.mem_iff.mpr hrow)
      exact if_pos hlost
    exact ⟨hnone, (padded_rows_perm_iff l r).mp (hsame hnone ▸ hperm)⟩
  · rintro ⟨hnone, hpads⟩
    rw [hsame hnone]
    exact (padded_rows_perm_iff l r).mpr hpads

/-! ## One merge -/

/-- What a merge of two chunks is, empty ones included: sound, of the same entity, timelines and
datatypes, with the rows of both as padding reads them, less the lost columns. -/
structure ConcatOf (lost : ComponentIdentifier → Bool) (m l r : Chunk) : Prop where
  wf : m.WellFormed
  entityPath : m.entityPath = l.entityPath
  timelines : ∀ name, (m.timelines.lookup name).map (·.timeline) = (l.timelines.lookup name).map (·.timeline)
  dataTypes : ∀ component column, m.components.lookup component = some column →
    ∃ column', (l.components.lookup component = some column' ∨ r.components.lookup component = some column') ∧
      column.listArray.dataType = column'.listArray.dataType
  rows : m.rows.Perm (((l.paddedNextTo r).rows ++ (r.paddedNextTo l).rows).map (Row.without lost))

theorem sameTimelines_iff_lookup : l.sameTimelines r = true ↔
    ∀ name, (l.timelines.lookup name).map (·.timeline) = (r.timelines.lookup name).map (·.timeline) := by
  constructor
  · intro h name
    obtain ⟨-, hlr⟩ := sameTimelines_iff.mp h
    obtain ⟨-, hrl⟩ := sameTimelines_iff.mp (sameTimelines_symm h)
    cases hl : l.timelines.lookup name with
    | some tc =>
      obtain ⟨tc', htc', heq⟩ := hlr name tc hl
      rw [htc', map_some, map_some, heq]
    | none =>
      cases hr : r.timelines.lookup name with
      | none => rfl
      | some tc' =>
        obtain ⟨tc, htc, -⟩ := hrl name tc' hr
        rw [hl] at htc
        cases htc
  · intro h
    have hmem : ∀ name, name ∈ l.timelines.keys ↔ name ∈ r.timelines.keys := by
      intro name
      have hsome := congrArg Option.isSome (h name)
      rw [isSome_map, isSome_map] at hsome
      rw [mem_keys_iff, mem_keys_iff, ← isSome_iff_exists, ← isSome_iff_exists, hsome]
    have hperm : l.timelines.keys.Perm r.timelines.keys :=
      (perm_ext_iff_of_nodup (AList.keys_nodup _) (AList.keys_nodup _)).mpr hmem
    refine sameTimelines_iff.mpr ⟨?_, fun name tc htc => ?_⟩
    · simpa only [AList.keys, List.keys, length_map] using hperm.length_eq
    · have heq := h name
      rw [htc, map_some] at heq
      obtain ⟨tc', htc', htl⟩ := map_eq_some_iff.mp heq.symm
      exact ⟨tc', htc', htl.symm⟩

theorem concatenable_iff : l.concatenable r = true ↔ l.entityPath = r.entityPath ∧
    l.sameTimelines r = true ∧ l.sameDatatypes r = true := by
  simp only [concatenable, Bool.and_eq_true, decide_eq_true_eq, and_assoc]

namespace ConcatOf

variable {lost : ComponentIdentifier → Bool}

theorem symm (h : m.ConcatOf lost l r) (hlr : l.concatenable r = true) : m.ConcatOf lost r l := by
  obtain ⟨hpath, htl, -⟩ := concatenable_iff.mp hlr
  refine ⟨h.wf, h.entityPath.trans hpath, fun name => (h.timelines name).trans ?_,
    fun component column hcol => ?_, h.rows.trans (perm_append_comm.map _)⟩
  · exact sameTimelines_iff_lookup.mp htl name
  · obtain ⟨column', hor, htype⟩ := h.dataTypes component column hcol
    exact ⟨column', hor.symm, htype⟩

theorem of_empty (hl : l.WellFormed) (hr : r.rowIds = []) : l.ConcatOf (fun _ => false) l r := by
  refine ⟨hl, rfl, fun _ => rfl, fun component column hcol => ⟨column, .inl hcol, rfl⟩, ?_⟩
  rw [paddedNextTo_rows_of_empty hr, paddedNextTo_rows_of_own_empty hr, append_nil]
  exact .of_eq (map_id _).symm

theorem shuffleWith (h : m.ConcatOf lost l r) {swaps : List Nat} (hs : swaps.Perm (List.range m.numRows))
    (id : ChunkId) (size : Nat) : (m.shuffleWith id size swaps).ConcatOf lost l r := by
  refine ⟨shuffleWith_wf h.wf hs id size, h.entityPath, fun name => ?_, fun component column hcol => ?_, ?_⟩
  · rw [← h.timelines name, Chunk.shuffleWith, lookup_map, Option.map_map]
    rfl
  · rw [Chunk.shuffleWith, lookup_map] at hcol
    obtain ⟨column', hcol', rfl⟩ := map_eq_some_iff.mp hcol
    exact h.dataTypes component column' hcol'
  · rw [shuffleWith_rows h.wf hs]
    refine (Seq.permute_perm ?_).trans h.rows
    rw [rows_length]
    exact hs

theorem sortByRowIdsIfNeeded (h : m.ConcatOf lost l r) (env : Env) (k : Nat) :
    (m.sortByRowIdsIfNeeded env k).1.ConcatOf lost l r ∧ (m.sortByRowIdsIfNeeded env k).1.isSorted = true := by
  refine ⟨?_, (sortByRowIdsIfNeeded_wf h.wf).2⟩
  unfold Chunk.sortByRowIdsIfNeeded
  split
  · exact h
  · exact h.shuffleWith (Seq.stableSortIndices_perm m.rowIds) _ _

theorem concatenable (h : m.ConcatOf lost l r) (hl : l.concatenable d = true) (hr : r.concatenable d = true) :
    m.concatenable d = true := by
  obtain ⟨hpath, htl, htype⟩ := concatenable_iff.mp hl
  obtain ⟨-, -, htype'⟩ := concatenable_iff.mp hr
  refine concatenable_iff.mpr ⟨h.entityPath.trans hpath, sameTimelines_iff_lookup.mpr fun name => ?_,
    sameDatatypes_iff.mpr fun component column columnd hcol hcold => ?_⟩
  · exact (h.timelines name).trans (sameTimelines_iff_lookup.mp htl name)
  · obtain ⟨column', hfrom, heq⟩ := h.dataTypes component column hcol
    rcases hfrom with hfrom | hfrom
    · exact heq.trans (sameDatatypes_iff.mp htype component column' columnd hfrom hcold)
    · exact heq.trans (sameDatatypes_iff.mp htype' component column' columnd hfrom hcold)

end ConcatOf

theorem rowIdRange_eq_none (h : l.rowIds = []) : l.rowIdRange = none := by
  unfold rowIdRange
  rw [h]
  split <;> rfl

theorem concatenatedUnsorted_concatOf (env : Env) (k : Nat) (hl : l.WellFormed) (hr : r.WellFormed)
    (hlne : l.rowIds ≠ []) (hrne : r.rowIds ≠ []) (h : l.concatenable r = true) :
    ∃ m k', l.concatenatedUnsorted env k r = .ok (m, k') ∧ m.ConcatOf (l.fails env r) l r := by
  obtain ⟨m, hok, -, hmerge⟩ := concatenatedUnsorted_spec env k hl hr hlne hrne h
  obtain ⟨hpath, htl, -⟩ := concatenable_iff.mp h
  rw [concatenatedUnsorted_eq env k hl hr hlne hrne h] at hok
  obtain ⟨rfl, -⟩ := Prod.mk.inj (Except.ok.inj hok)
  refine ⟨_, _, concatenatedUnsorted_eq env k hl hr hlne hrne h, hmerge.wf, rfl, fun name => ?_,
    fun component column hcol => ?_, ?_⟩
  · rw [concatenation, lookup_filterMap]
    cases hlt : l.timelines.lookup name with
    | none => rfl
    | some tc =>
      obtain ⟨tc', htc', heq⟩ := (sameTimelines_iff.mp htl).2 name tc hlt
      simp [htc', TimeColumn.concatenated, heq]
  · exact concatComponents_elim hcol (fun a _ ha _ => ⟨a, .inl ha, rfl⟩)
      (fun a ha _ => ⟨a, .inl ha, padBack_dataType _ _⟩) fun b hb _ => ⟨b, .inr hb, padFront_dataType _ _⟩
  · rw [concatenation_rows_padded hl hr hlne hrne h]

theorem concatenatedInOrder_concatOf (env : Env) (k : Nat) (hl : l.WellFormed) (hr : r.WellFormed)
    (h : l.concatenable r = true) :
    ∃ m k', l.concatenatedInOrder env k r = .ok (m, k') ∧ m.ConcatOf (l.loses env r) l r := by
  have h' := concatenable_symm h
  unfold concatenatedInOrder loses minRowId
  by_cases hlne : l.rowIds = []
  · -- the right chunk as it is, or both are empty and it is the left one
    have hlr := rowIdRange_eq_none hlne
    by_cases hrne : r.rowIds = []
    · simp only [hlr, rowIdRange_eq_none hrne, map_none]
      refine ⟨l, k, ?_, ConcatOf.of_empty hl hrne⟩
      simp [hlr, rowIdRange_eq_none hrne, concatenatedUnsorted, h']
    · obtain ⟨r0, r1, hrr, -⟩ := rowIdRange_spec hr hrne
      simp only [hlr, hrr, map_none, map_some]
      refine ⟨r, k, ?_, (ConcatOf.of_empty hr hlne).symm h'⟩
      simp [hlr, hrr, concatenatedUnsorted, h]
  · obtain ⟨l0, l1, hlr, -⟩ := rowIdRange_spec hl hlne
    by_cases hrne : r.rowIds = []
    · simp only [hlr, rowIdRange_eq_none hrne, map_none, map_some]
      refine ⟨l, k, ?_, ConcatOf.of_empty hl hrne⟩
      simp [hlr, rowIdRange_eq_none hrne, concatenatedUnsorted, h']
    · obtain ⟨r0, r1, hrr, -⟩ := rowIdRange_spec hr hrne
      simp only [hlr, hrr, map_some]
      by_cases hlt : l0 < r0
      · simp only [if_pos hlt]
        exact concatenatedUnsorted_concatOf env k hl hr hlne hrne h
      · simp only [if_neg hlt]
        obtain ⟨m, k', hok, hm⟩ := concatenatedUnsorted_concatOf env k hr hl hrne hlne h'
        exact ⟨m, k', hok, hm.symm h'⟩

theorem concatAndSort_concatOf (env : Env) (k : Nat) (hl : l.WellFormed) (hr : r.WellFormed)
    (h : l.concatenable r = true) :
    ∃ m k', l.concatAndSort env k r = .ok (m, k') ∧ m.ConcatOf (l.loses env r) l r ∧ m.isSorted = true := by
  obtain ⟨m, k', hok, hm⟩ := concatenatedInOrder_concatOf env k hl hr h
  obtain ⟨hsorted, hflag⟩ := hm.sortByRowIdsIfNeeded env k'
  refine ⟨_, (m.sortByRowIdsIfNeeded env k').2, ?_, hsorted, hflag⟩
  unfold concatAndSort
  simp only [hok, sanityCheck_iff.mpr hsorted.wf]

/-! ## One merge after the other -/

def mergeNext (env : Env) (s : Chunk × Nat) (c : ValidChunk) : Option (Chunk × Nat) :=
  (s.1.concatAndSort env s.2 c.toChunk).toOption

theorem mergeNext_spec (env : Env) (k : Nat) (hl : l.WellFormed) (c : ValidChunk)
    (h : l.concatenable c.toChunk = true) :
    ∃ m k', mergeNext env (l, k) c = some (m, k') ∧ m.ConcatOf (l.loses env c.toChunk) l c.toChunk ∧ m.isSorted = true := by
  obtain ⟨m, k', hok, hm, hsorted⟩ := concatAndSort_concatOf env k hl c.wf h
  refine ⟨m, k', ?_, hm, hsorted⟩
  unfold mergeNext
  rw [hok]
  rfl

theorem mergeNext_run (env : Env) (cs : List ValidChunk) (hl : l.WellFormed)
    (hall : ∀ c ∈ cs, l.concatenable c.toChunk = true)
    (hcs : cs.Pairwise fun a b => a.concatenable b.toChunk = true) :
    ∃ m k', Runs.run (mergeNext env) (l, k) cs = some (m, k') ∧ m.WellFormed ∧
      (l.isSorted = true ∨ cs ≠ [] → m.isSorted = true) ∧
      (Runs.StepsMeet (mergeNext env) (fun s c => s.1.LosesNothing env c.toChunk) (l, k) cs →
        m.rows.Perm (l.rows ++ cs.flatMap (·.rows))) := by
  induction cs generalizing l k with
  | nil =>
    refine ⟨l, k, rfl, hl, fun h => h.resolve_right fun hne => hne rfl, fun _ => ?_⟩
    rw [flatMap_nil, append_nil]
  | cons c cs ih =>
    obtain ⟨hc, hrest⟩ := pairwise_cons.mp hcs
    obtain ⟨next, k₁, hnext, hmerge, hsorted⟩ :=
      mergeNext_spec env k hl c (hall c mem_cons_self)
    have hall' : ∀ d ∈ cs, next.concatenable d.toChunk = true := fun d hd =>
      hmerge.concatenable (hall d (mem_cons_of_mem c hd)) (hc d hd)
    obtain ⟨m, k', hrun, hwf, hflag, hrows⟩ := ih (k := k₁) hmerge.wf hall' hrest
    refine ⟨m, k', Runs.run_cons_eq_some.mpr ⟨_, hnext, hrun⟩, hwf, fun _ => hflag (.inl hsorted), ?_⟩
    intro hmeets
    have hkept : next.rows.Perm (l.rows ++ c.rows) :=
      hmerge.rows.trans ((losesNothing_iff env l c.toChunk).mpr hmeets.1)
    rw [flatMap_cons, ← append_assoc]
    exact (hrows (hmeets.2 _ hnext)).trans (hkept.append_right _)

/-- Two concatenable chunks merge into a sorted chunk with tight caches, which has the rows of both
exactly if no row has a cell in a column that arrow cannot join and both survive padding. So does any
list of pairwise concatenable chunks, with all rows if every merge loses nothing. -/
theorem concatAndSort_keeps_rows (env : Env) (k : Nat) :
    (∀ l r : ValidChunk, l.concatenable r.toChunk = true →
      ∃ m k', l.concatAndSort env k r.toChunk = .ok (m, k') ∧ m.WellFormed ∧ Seq.ascending m.rowIds = true ∧
        (m.rows.Perm (l.rows ++ r.rows) ↔ l.LosesNothing env r.toChunk)) ∧
    ∀ (c : ValidChunk) (cs : List ValidChunk), cs ≠ [] →
      (c :: cs).Pairwise (fun a b => a.concatenable b.toChunk = true) →
      ∃ m k', Runs.run (mergeNext env) (c.toChunk, k) cs = some (m, k') ∧ m.WellFormed ∧
        Seq.ascending m.rowIds = true ∧
        (Runs.StepsMeet (mergeNext env) (fun s c => s.1.LosesNothing env c.toChunk) (c.toChunk, k) cs →
          m.rows.Perm ((c :: cs).flatMap (·.rows))) := by
  constructor
  · intro l r h
    obtain ⟨m, k', hok, hm, hsorted⟩ := concatAndSort_concatOf env k l.wf r.wf h
    refine ⟨m, k', hok, hm.wf, hm.wf.isSorted_eq.symm.trans hsorted, ?_⟩
    rw [← losesNothing_iff]
    exact ⟨fun hrows => hm.rows.symm.trans hrows, fun hrows => hm.rows.trans hrows⟩
  · intro c cs hne hpairwise
    obtain ⟨hc, hcs⟩ := pairwise_cons.mp hpairwise
    obtain ⟨m, k', hrun, hwf, hsorted, hrows⟩ := mergeNext_run (k := k) env cs c.wf hc hcs
    exact ⟨m, k', hrun, hwf, hwf.isSorted_eq.symm.trans (hsorted (.inr hne)), hrows⟩

def positioned : ValidChunk where
  toChunk := ofColumns 1 ⟨["robot"]⟩ 0 [4] [(⟨"frame"⟩, [I64.sat 5])] [(⟨"position"⟩, [some [[1]]])]
  sane := rfl

def labelled : ValidChunk where
  toChunk := ofColumns 2 ⟨["robot"]⟩ 0 [3] [(⟨"frame"⟩, [I64.sat 7])] [(⟨"label"⟩, [some [[3]]])]
  sane := rfl

/-- Columns with child arrays of their own keep all rows. -/
theorem concatAndSort_keeps_rows_positioned : ∃ m k',
    Runs.run (mergeNext (.countingFrom 100)) (positioned.toChunk, 0) [labelled] = some (m, k') ∧
      m.rows.Perm ([positioned, labelled].flatMap (·.rows)) := by
  obtain ⟨m, k', hrun, -, -, hrows⟩ := (concatAndSort_keeps_rows (.countingFrom 100) 0).2 positioned [labelled]
    (by decide) (by decide)
  refine ⟨m, k', hrun, hrows ⟨⟨fun component h => ?_, ?_, ?_⟩, fun _ _ => trivial⟩⟩
  · rw [joinsColumns_countingFrom 100] at h
    cases h
  · exact (Packed.paddableNextTo (by decide) _).survivesPadding
  · exact (Packed.paddableNextTo (by decide) _).survivesPadding

def slicedPosition : ValidChunk where
  toChunk := (ofColumns 1 ⟨["robot"]⟩ 0 [1, 2] [(⟨"frame"⟩, [5, 6].map I64.sat)]
    [(⟨"position"⟩, [some [[1]], some [[2]]])]).rowSlicedShallow 5 0 1 1
  sane := rfl

/-- Merged with a row that has no position, it has the position of the row that was sliced off. -/
theorem concatAndSort_moves_cells :
    slicedPosition.concatenable labelled.toChunk = true ∧
      slicedPosition.rows.map (·.cells ⟨"position"⟩) = [some [[2]]] ∧
      (∃ m k', slicedPosition.concatAndSort (.countingFrom 100) 0 labelled.toChunk = .ok (m, k') ∧
        m.rows.map (·.cells ⟨"position"⟩) = [some [[1]], none]) ∧
      ¬ (∀ (env : Env) (k : Nat) (l r : ValidChunk), l.concatenable r.toChunk = true →
        ∃ m k', l.concatAndSort env k r.toChunk = .ok (m, k') ∧ m.rows.Perm (l.rows ++ r.rows)) := by
  have hmerge : ∀ m k', slicedPosition.concatAndSort (.countingFrom 100) 0 labelled.toChunk = .ok (m, k') →
      m.rows.map (·.cells ⟨"position"⟩) = [some [[1]], none] := by
    intro m k' hok
    obtain ⟨rfl, rfl⟩ := Prod.mk.inj (Except.ok.inj hok)
    decide
  refine ⟨by decide, by decide, ⟨_, _, rfl, hmerge _ _ rfl⟩, fun h => ?_⟩
  obtain ⟨m, k', hok, hrows⟩ := h (.countingFrom 100) 0 slicedPosition labelled (by decide)
  have hcells := hrows.map (·.cells ⟨"position"⟩)
  rw [hmerge m k' hok] at hcells
  exact absurd hcells (by decide)

end Chunk

end Dalaran
