import Mathlib.Algebra.Order.Field.Rat
import Mathlib.Tactic.Positivity
import Dalaran.Base.Gaps
import Dalaran.Base.Grouping
import Dalaran.Chunk.Slices

/-
  Splitting chunks that mix thick and thin columns (`split_thick_thin.rs`).

  The columns of a chunk are grouped by archetype, a column without one being a
  group by itself. The groups are sorted by size and the chunk is cut between two
  neighbours of which the heavier is at least `ratio` times the lighter. Each part
  keeps all rows, with a part of the columns (`afterSplit_slices`).

  Only neighbours are compared. Two groups thus come into one chunk if and only if
  a chain of groups, each close to the next, leads from one to the other; that they
  are close themselves does not follow. No two groups of a chunk differ by more than
  the ratio exactly if no two groups linked by such a chain do
  (`splitChunk_within_ratio_iff`).

  Sizes are natural numbers and the ratio is a rational number here. The order in
  which the map of groups is emptied is a parameter; it decides between groups of
  one size.

  Correspondence (Rust ↔ Lean):
    `column.heap_size_bytes()` ↔ `GroupingEnv.heapSizeBytes`
    `groups.into_values()` ↔ `GroupingEnv.intoValues`
    `split_chunk` ↔ `Chunk.splitChunk`; `None` leaves the chunk as it is (`Chunk.afterSplit`)
-/

namespace Dalaran

open List Option Assoc

/-! ## Groups -/

inductive ComponentGroup where
  | archetype (name : String)
  | component (component : ComponentIdentifier)
  deriving DecidableEq

def ComponentGroup.of (column : ComponentIdentifier × ComponentColumn) : ComponentGroup :=
  match column.2.archetype with
  | some name => .archetype name
  | none => .component column.1

structure Chunk.Group where
  bytes : Nat
  components : List ComponentIdentifier

/-- The measured sizes of columns, and the order in which a map of groups is emptied. -/
structure GroupingEnv where
  heapSizeBytes : ComponentIdentifier × ComponentColumn → Nat
  intoValues : Assoc ComponentGroup Chunk.Group → List Chunk.Group
  intoValues_perm : ∀ groups, (intoValues groups).Perm (Assoc.values groups)

/-- By how much the heavier of two sizes exceeds the lighter. -/
def sizeRatio (heavier lighter : Nat) : Rat := heavier / max lighter 1

namespace Chunk

variable (E : GroupingEnv) (ratio : Rat)

def columns (c : Chunk) : List (ComponentIdentifier × ComponentColumn) := Assoc.toList c.components

def groupColumns (columns : List (ComponentIdentifier × ComponentColumn)) : Assoc ComponentGroup Group :=
  columns.foldl (fun groups column => Assoc.upsert groups (.of column) { bytes := 0, components := [] } fun group =>
    { bytes := group.bytes + E.heapSizeBytes column, components := group.components ++ [column.1] }) ∅

/-- Whether two neighbours in the order of size are cut apart. -/
def isGap (heavier lighter : Nat) : Bool := decide (ratio ≤ sizeRatio heavier lighter)

/-- `split_chunk`: `none` if no split is needed. -/
def splitChunk (env : Env) (k : Nat) (c : Chunk) : Option (List Chunk) :=
  if c.columns.length < 2 then none
  else
    let groups := groupColumns E c.columns
    if groups.entries.length < 2 then none
    else
      let sorted := (E.intoValues groups).mergeSort fun a b => decide (b.bytes ≤ a.bytes)
      let splitPoints := Seq.cutPoints (fun heavier lighter => isGap ratio heavier.bytes lighter.bytes) sorted
      if splitPoints.isEmpty then none
      else
        some ((Seq.piecesAt sorted 0 (splitPoints ++ [sorted.length])).mapIdx fun i piece =>
          let id := env.newId (k + i)
          c.componentsSliced id (env.sizeBytes id) (piece.flatMap (·.components)))

def afterSplit (env : Env) (k : Nat) (c : Chunk) : List Chunk := (c.splitChunk E ratio env k).getD [c]

/-! ## What the split is to do -/

def groups (c : Chunk) : List ComponentGroup := c.columns.map .of

def groupOf (c : Chunk) (group : ComponentGroup) : List (ComponentIdentifier × ComponentColumn) :=
  c.columns.filter fun column => ComponentGroup.of column = group

def groupBytes (c : Chunk) (group : ComponentGroup) : Nat := ((c.groupOf group).map E.heapSizeBytes).sum

/-- By how much two groups differ in size. -/
def groupRatio (c : Chunk) (g h : ComponentGroup) : Rat :=
  sizeRatio (max (c.groupBytes E g) (c.groupBytes E h)) (min (c.groupBytes E g) (c.groupBytes E h))

/-- Every column is in one of the chunks, with the rest of its archetype and all rows. -/
structure SplitsColumns (c : Chunk) (splits : List Chunk) : Prop where
  partition : (splits.flatMap (·.components.keys)).Perm c.components.keys
  column : ∀ split ∈ splits, ∀ component column, split.components.lookup component = some column →
    c.components.lookup component = some column
  together : ∀ split ∈ splits, ∀ component column, split.components.lookup component = some column →
    column.archetype.isSome → ∀ component' column', c.components.lookup component' = some column' →
      column'.archetype = column.archetype → split.components.lookup component' = some column'
  rowIds : ∀ split ∈ splits, split.rowIds = c.rowIds
  timelines : ∀ split ∈ splits, split.timelines = c.timelines

/-- No two groups of one of the chunks differ in size by more than the ratio. -/
def WithinRatio (c : Chunk) (splits : List Chunk) : Prop :=
  ∀ split ∈ splits, ∀ g ∈ split.groups, ∀ h ∈ split.groups, g ≠ h → c.groupRatio E g h ≤ ratio

/-- No two groups that are linked by groups, each close to the next, differ in size by more than the ratio. -/
def LinkedWithinRatio (c : Chunk) : Prop :=
  ∀ g ∈ c.groups, ∀ h ∈ c.groups, g ≠ h →
    Seq.Linked (fun g h => c.groupRatio E g h < ratio) c.groups g h → c.groupRatio E g h ≤ ratio

/-! ## The groups -/

def groupValue (columns : List (ComponentIdentifier × ComponentColumn)) : Group where
  bytes := (columns.map E.heapSizeBytes).sum
  components := columns.map (·.1)

variable {E ratio}

theorem groupColumns_lookup (columns : List (ComponentIdentifier × ComponentColumn)) (group : ComponentGroup) :
    (groupColumns E columns).lookup group =
      if columns.filter (fun column => ComponentGroup.of column = group) = [] then none
      else some (groupValue E (columns.filter fun column => ComponentGroup.of column = group)) := by
  induction columns using reverseRecOn with
  | nil => rfl
  | append_singleton columns column ih =>
    unfold groupColumns at ih ⊢
    rw [foldl_append, foldl_cons, foldl_nil, lookup_upsert, filter_append]
    by_cases hgroup : group = .of column
    · subst hgroup
      rw [if_pos rfl, ih]
      by_cases hnil : columns.filter (fun other => ComponentGroup.of other = .of column) = []
      · simp [hnil, groupValue]
      · simp [hnil, groupValue]
    · have hother : [column].filter (fun column => ComponentGroup.of column = group) = [] := by simp [Ne.symm hgroup]
      rw [if_neg hgroup, ih, hother, append_nil]

variable {c : Chunk}

theorem mem_groups {group : ComponentGroup} : group ∈ c.groups ↔ ∃ component column,
    c.components.lookup component = some column ∧ ComponentGroup.of (component, column) = group := by
  unfold groups columns
  rw [List.mem_map]
  constructor
  · intro h
    obtain ⟨⟨component, column⟩, hcolumn, hgroup⟩ := h
    exact ⟨component, column, mem_toList.mp hcolumn, hgroup⟩
  · intro h
    obtain ⟨component, column, hcolumn, hgroup⟩ := h
    exact ⟨(component, column), mem_toList.mpr hcolumn, hgroup⟩

theorem groupColumns_keys (c : Chunk) (group : ComponentGroup) :
    group ∈ (groupColumns E c.columns).keys ↔ group ∈ c.groups := by
  rw [← AList.mem_keys, ← AList.lookup_isSome, groupColumns_lookup]
  unfold groups
  rw [List.mem_map]
  by_cases hnil : c.columns.filter (fun column => ComponentGroup.of column = group) = []
  · rw [if_pos hnil]
    have hnone := filter_eq_nil_iff.mp hnil
    simpa using hnone
  · rw [if_neg hnil]
    obtain ⟨column, hcolumn⟩ := exists_mem_of_ne_nil _ hnil
    obtain ⟨hmem, hgroup⟩ := mem_filter.mp hcolumn
    exact ⟨fun _ => ⟨column, hmem, of_decide_eq_true hgroup⟩, fun _ => rfl⟩

theorem groupColumns_values (c : Chunk) :
    Assoc.values (groupColumns E c.columns) =
      (groupColumns E c.columns).keys.map fun group => groupValue E (c.groupOf group) := by
  have hvalues : ∀ e ∈ (groupColumns E c.columns).entries, e.2 = groupValue E (c.groupOf e.1) := by
    intro e he
    have hlookup := AList.mem_lookup_iff.mpr he
    rw [groupColumns_lookup] at hlookup
    split at hlookup
    · cases hlookup
    · exact (some.inj hlookup).symm
  unfold Assoc.values AList.keys List.keys
  rw [List.map_map]
  exact map_congr_left hvalues

/-! ## The pieces -/

structure SliceOf (c split : Chunk) (piece : List ComponentGroup) : Prop where
  rowIds : split.rowIds = c.rowIds
  timelines : split.timelines = c.timelines
  lookup : ∀ component column, split.components.lookup component = some column ↔
    c.components.lookup component = some column ∧ ComponentGroup.of (component, column) ∈ piece

variable {piece : List ComponentGroup}

theorem SliceOf.self (h : ∀ group ∈ c.groups, group ∈ piece) : c.SliceOf c piece where
  rowIds := rfl
  timelines := rfl
  lookup component column :=
    ⟨fun hcolumn => ⟨hcolumn, h _ (mem_groups.mpr ⟨component, column, hcolumn, rfl⟩)⟩, fun h => h.1⟩

theorem componentsSliced_sliceOf (c : Chunk) (id : ChunkId) (sizeBytes : Nat) (piece : List ComponentGroup) :
    c.SliceOf (c.componentsSliced id sizeBytes
      ((piece.map fun group => groupValue E (c.groupOf group)).flatMap (·.components))) piece where
  rowIds := rfl
  timelines := rfl
  lookup component column := by
    have hkeep : component ∈ (piece.map fun group => groupValue E (c.groupOf group)).flatMap (·.components) ↔
        ∃ column, c.components.lookup component = some column ∧ ComponentGroup.of (component, column) ∈ piece := by
      rw [mem_flatMap]
      constructor
      · intro h
        obtain ⟨value, hvalue, hcomponent⟩ := h
        obtain ⟨group, hgroup, rfl⟩ := List.mem_map.mp hvalue
        obtain ⟨column, hcolumn, rfl⟩ := List.mem_map.mp hcomponent
        obtain ⟨hmem, hof⟩ := mem_filter.mp hcolumn
        exact ⟨column.2, mem_toList.mp hmem, by rwa [of_decide_eq_true hof]⟩
      · intro h
        obtain ⟨column, hcolumn, hof⟩ := h
        refine ⟨_, List.mem_map_of_mem hof, List.mem_map.mpr ⟨(component, column), ?_, rfl⟩⟩
        exact mem_filter.mpr ⟨mem_toList.mpr hcolumn, decide_eq_true rfl⟩
    rw [componentsSliced_lookup]
    constructor
    · intro h
      split at h
      · next hmem =>
        obtain ⟨column', hcolumn', hof⟩ := hkeep.mp hmem
        obtain rfl := mem_unique hcolumn' h
        exact ⟨h, hof⟩
      · cases h
    · intro h
      rw [if_pos (hkeep.mpr ⟨column, h⟩)]
      exact h.1

theorem afterSplit_slices (env : Env) (k : Nat) (c : Chunk) : ∃ sorted : List ComponentGroup,
    sorted.Nodup ∧ (∀ group, group ∈ sorted ↔ group ∈ c.groups) ∧
    sorted.Pairwise (fun g h => c.groupBytes E h ≤ c.groupBytes E g) ∧
    Forall₂ c.SliceOf (c.afterSplit E ratio env k)
      (Seq.pieces (fun g h => isGap ratio (c.groupBytes E g) (c.groupBytes E h)) sorted) := by
  have hperm := (mergeSort_perm (E.intoValues (groupColumns E c.columns))
    fun a b => decide (b.bytes ≤ a.bytes)).trans
    (E.intoValues_perm _)
  rw [groupColumns_values] at hperm
  obtain ⟨sorted, hsorted, hkeys⟩ := (congrFun₂ (eq_map_comp_perm _) _ _).mpr hperm
  have hlength : (groupColumns E c.columns).entries.length = sorted.length := by
    rw [hkeys.length_eq]
    exact (length_map _).symm
  have hmem : ∀ group, group ∈ sorted ↔ group ∈ c.groups := fun group =>
    hkeys.mem_iff.trans (groupColumns_keys c group)
  have hnodup : sorted.Nodup := hkeys.nodup_iff.mpr (groupColumns E c.columns).nodupKeys
  have hwhole : Seq.cutPoints (fun g h => isGap ratio (c.groupBytes E g) (c.groupBytes E h)) sorted = [] →
      Forall₂ c.SliceOf [c]
        (Seq.pieces (fun g h => isGap ratio (c.groupBytes E g) (c.groupBytes E h)) sorted) := by
    intro h
    rw [Seq.pieces_of_cutPoints_nil h]
    exact .cons (.self fun group hgroup => (hmem group).mpr hgroup) .nil
  refine ⟨sorted, hnodup, hmem, ?_, ?_⟩
  · have hsort := @List.pairwise_mergeSort _ (fun a b : Group => decide (b.bytes ≤ a.bytes))
      (fun a b c hab hbc => by simp only [decide_eq_true_eq] at *; omega)
      (fun a b => by simp only [Bool.or_eq_true, decide_eq_true_eq]; omega)
      (E.intoValues (groupColumns E c.columns))
    rw [hsorted, pairwise_map] at hsort
    exact hsort.imp fun h => of_decide_eq_true h
  · unfold afterSplit splitChunk
    split
    · next hshort =>
      -- as many columns as groups, at the least
      have hle : sorted.length ≤ c.columns.length := by
        calc sorted.length ≤ c.groups.length :=
              (hnodup.subperm fun group hgroup => (hmem group).mp hgroup).length_le
          _ = c.columns.length := length_map _
      exact hwhole (Seq.cutPoints_of_short _ (lt_of_le_of_lt hle hshort))
    dsimp only
    rw [hlength, hsorted, Seq.cutPoints_map]
    split
    · next hshort => exact hwhole (Seq.cutPoints_of_short _ hshort)
    split
    · next hnone => exact hwhole (List.isEmpty_iff.mp hnone)
    rw [getD_some, Seq.piecesAt_map, length_map, forall₂_iff_get]
    refine ⟨by rw [length_mapIdx, length_map]; rfl, ?_⟩
    intro i hi hi'
    rw [get_eq_getElem, get_eq_getElem, getElem_mapIdx, getElem_map]
    exact componentsSliced_sliceOf c _ _ _

variable {split : Chunk}

theorem SliceOf.mem_groups (h : c.SliceOf split piece)
    (group : ComponentGroup) : group ∈ split.groups ↔ group ∈ c.groups ∧ group ∈ piece := by
  rw [Chunk.mem_groups, Chunk.mem_groups]
  constructor
  · intro hgroup
    obtain ⟨component, column, hcolumn, rfl⟩ := hgroup
    obtain ⟨hcolumn', hpiece⟩ := (h.lookup component column).mp hcolumn
    exact ⟨⟨component, column, hcolumn', rfl⟩, hpiece⟩
  · intro hgroup
    obtain ⟨⟨component, column, hcolumn, rfl⟩, hpiece⟩ := hgroup
    exact ⟨component, column, (h.lookup component column).mpr ⟨hcolumn, hpiece⟩, rfl⟩

theorem SliceOf.mem_keys (h : c.SliceOf split piece)
    (component : ComponentIdentifier) : component ∈ split.components.keys ↔
      ∃ column, c.components.lookup component = some column ∧ ComponentGroup.of (component, column) ∈ piece := by
  rw [← AList.mem_keys, ← AList.lookup_isSome, isSome_iff_exists]
  exact exists_congr fun column => h.lookup component column

theorem exists_paired {α β : Type} {R : α → β → Prop} {l : List α} {l' : List β} (h : Forall₂ R l l')
    {a : α} (ha : a ∈ l) : ∃ b ∈ l', R a b := by
  induction h with
  | nil => exact absurd ha not_mem_nil
  | @cons a' b l l' hab _ ih =>
    rcases mem_cons.mp ha with rfl | ha
    · exact ⟨b, mem_cons_self, hab⟩
    · obtain ⟨b', hb', hab'⟩ := ih ha
      exact ⟨b', mem_cons_of_mem b hb', hab'⟩

theorem slices_disjoint {splits : List Chunk} {pieces : List (List ComponentGroup)}
    (h : Forall₂ c.SliceOf splits pieces) (hpieces : pieces.Pairwise List.Disjoint) :
    splits.Pairwise fun a b => List.Disjoint a.components.keys b.components.keys := by
  induction h with
  | nil => exact List.Pairwise.nil
  | @cons split piece splits pieces hslice hslices ih =>
    obtain ⟨hpiece, hrest⟩ := pairwise_cons.mp hpieces
    refine pairwise_cons.mpr ⟨?_, ih hrest⟩
    intro other hother component hin hin'
    obtain ⟨piece', hpiece', hslice'⟩ := exists_paired hslices hother
    obtain ⟨column, hcolumn, hgroup⟩ := (hslice.mem_keys component).mp hin
    obtain ⟨column', hcolumn', hgroup'⟩ := (hslice'.mem_keys component).mp hin'
    obtain rfl := mem_unique hcolumn hcolumn'
    exact hpiece piece' hpiece' hgroup hgroup'

theorem splitsColumns_of_slices {splits : List Chunk} {pieces : List (List ComponentGroup)}
    (h : Forall₂ c.SliceOf splits pieces) (hnodup : pieces.flatten.Nodup)
    (hall : ∀ group ∈ c.groups, group ∈ pieces.flatten) : c.SplitsColumns splits where
  partition := by
    have hdisjoint := slices_disjoint h (nodup_flatten.mp hnodup).2
    have hsplits : (splits.flatMap (·.components.keys)).Nodup :=
      nodup_flatMap.mpr ⟨fun split _ => split.components.nodupKeys, hdisjoint⟩
    refine (perm_ext_iff_of_nodup hsplits c.components.nodupKeys).mpr ?_
    intro component
    rw [mem_flatMap, ← AList.keys, ← AList.mem_keys, ← AList.lookup_isSome, isSome_iff_exists]
    constructor
    · intro hin
      obtain ⟨split, hsplit, hkey⟩ := hin
      obtain ⟨piece, -, hslice⟩ := exists_paired h hsplit
      obtain ⟨column, hcolumn, -⟩ := (hslice.mem_keys component).mp hkey
      exact ⟨column, hcolumn⟩
    · intro hin
      obtain ⟨column, hcolumn⟩ := hin
      obtain ⟨piece, hpiece, hgroup⟩ :=
        mem_flatten.mp (hall _ (mem_groups.mpr ⟨component, column, hcolumn, rfl⟩))
      obtain ⟨split, hsplit, hslice⟩ := exists_paired h.flip hpiece
      exact ⟨split, hsplit, (hslice.mem_keys component).mpr ⟨column, hcolumn, hgroup⟩⟩
  column split hsplit component column hcolumn := by
    obtain ⟨piece, -, hslice⟩ := exists_paired h hsplit
    exact ((hslice.lookup component column).mp hcolumn).1
  together split hsplit component column hcolumn harchetype component' column' hcolumn' heq := by
    obtain ⟨piece, -, hslice⟩ := exists_paired h hsplit
    obtain ⟨name, hname⟩ := isSome_iff_exists.mp harchetype
    have hgroup : ComponentGroup.of (component', column') = ComponentGroup.of (component, column) := by
      simp [ComponentGroup.of, heq, hname]
    refine (hslice.lookup component' column').mpr ⟨hcolumn', ?_⟩
    rw [hgroup]
    exact ((hslice.lookup component column).mp hcolumn).2
  rowIds split hsplit := by
    obtain ⟨piece, -, hslice⟩ := exists_paired h hsplit
    exact hslice.rowIds
  timelines split hsplit := by
    obtain ⟨piece, -, hslice⟩ := exists_paired h hsplit
    exact hslice.timelines

theorem isGap_widens : Seq.Widens (isGap ratio) := by
  intro a b c d hab hbc hcd hgap
  refine decide_eq_true (le_trans (of_decide_eq_true hgap) ?_)
  have hba : (b : Rat) ≤ a := Nat.cast_le.mpr hab
  have hdc : ((max d 1 : Nat) : Rat) ≤ (max c 1 : Nat) := Nat.cast_le.mpr (max_le_max_right 1 hcd)
  have hpos : (0 : Rat) < (max d 1 : Nat) := by positivity
  exact div_le_div₀ (by positivity) hba hpos hdc

theorem close_iff (c : Chunk) (g h : ComponentGroup) :
    Seq.Close (c.groupBytes E) (isGap ratio) g h ↔ c.groupRatio E g h < ratio := by
  unfold Seq.Close isGap groupRatio
  rw [decide_eq_false_iff_not, not_le]

/-- The columns are split by archetypes, and no two groups of a chunk differ by more than the ratio exactly if no
two groups that are linked do. -/
theorem splitChunk_within_ratio_iff (E : GroupingEnv) (ratio : Rat) (env : Env) (k : Nat) (c : Chunk) :
    c.SplitsColumns (c.afterSplit E ratio env k) ∧
      (c.WithinRatio E ratio (c.afterSplit E ratio env k) ↔ c.LinkedWithinRatio E ratio) := by
  obtain ⟨sorted, hnodup, hmem, hsorted, hslices⟩ := @afterSplit_slices E ratio env k c
  have hflatten := Seq.flatten_pieces (fun g h => isGap ratio (c.groupBytes E g) (c.groupBytes E h)) sorted
  refine ⟨splitsColumns_of_slices hslices (by rwa [hflatten]) fun group hgroup => by rwa [hflatten, hmem], ?_⟩
  have hlinked : ∀ g ∈ c.groups, ∀ h, (∃ piece ∈ Seq.pieces (fun g h =>
      isGap ratio (c.groupBytes E g) (c.groupBytes E h)) sorted, g ∈ piece ∧ h ∈ piece) ↔
      Seq.Linked (fun g h => c.groupRatio E g h < ratio) c.groups g h := by
    intro g hg h
    rw [Seq.mem_piece_iff_linked isGap_widens hsorted ((hmem g).mpr hg)]
    exact Seq.linked_congr hmem (close_iff c) g h
  constructor
  · intro hwithin g hg h hh hne hlink
    obtain ⟨piece, hpiece, hgp, hhp⟩ := (hlinked g hg h).mpr hlink
    obtain ⟨split, hsplit, hslice⟩ := exists_paired hslices.flip hpiece
    exact hwithin split hsplit g ((hslice.mem_groups g).mpr ⟨hg, hgp⟩) h
      ((hslice.mem_groups h).mpr ⟨hh, hhp⟩) hne
  · intro hwithin split hsplit g hg h hh hne
    obtain ⟨piece, hpiece, hslice⟩ := exists_paired hslices hsplit
    obtain ⟨hg, hgp⟩ := (hslice.mem_groups g).mp hg
    obtain ⟨hh, hhp⟩ := (hslice.mem_groups h).mp hh
    exact hwithin g hg h hh hne ((hlinked g hg h).mp ⟨piece, hpiece, hgp, hhp⟩)

def tierColumns : ChunkComponents :=
  ((AList.singleton ⟨"video"⟩ ⟨some "Video", .ofCells [some [[1]]]⟩).insert
    ⟨"image"⟩ ⟨some "Image", .ofCells [some [[1]]]⟩).insert ⟨"points"⟩ ⟨some "Points", .ofCells [some [[1]]]⟩

def threeTiers : Chunk where
  id := 1
  entityPath := ⟨["tiers"]⟩
  sizeBytes := 0
  isSorted := true
  rowIds := [1]
  timelines := ∅
  components := tierColumns

def tierSizes : GroupingEnv where
  heapSizeBytes column := if column.1.name = "video" then 100000 else if column.1.name = "image" then 20000 else 4000
  intoValues groups := Assoc.values groups
  intoValues_perm _ := Perm.refl _

/-- At ratio 10 the chunk stays whole, though one of its groups is 25 times another one. -/
theorem threeTiers_not_within_ratio :
    ¬ threeTiers.WithinRatio tierSizes 10 (threeTiers.afterSplit tierSizes 10 (.countingFrom 100) 0) := by
  have hsorted : (tierSizes.intoValues (groupColumns tierSizes threeTiers.columns)).mergeSort
      (fun a b => decide (b.bytes ≤ a.bytes)) = tierSizes.intoValues (groupColumns tierSizes threeTiers.columns) :=
    mergeSort_of_pairwise (by decide)
  have hcuts : Seq.cutPoints (fun heavier lighter => isGap 10 heavier.bytes lighter.bytes)
      (tierSizes.intoValues (groupColumns tierSizes threeTiers.columns)) = [] := by
    decide +kernel
  have hwhole : threeTiers.afterSplit tierSizes 10 (.countingFrom 100) 0 = [threeTiers] := by
    unfold afterSplit splitChunk
    dsimp only
    rw [hsorted, hcuts]
    rfl
  rw [hwhole]
  intro h
  have hle := h threeTiers mem_cons_self (.archetype "Video") (by decide) (.archetype "Points") (by decide)
  revert hle
  decide +kernel

end Chunk

end Dalaran
