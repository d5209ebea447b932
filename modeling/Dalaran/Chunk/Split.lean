import Dalaran.Chunk.Rows

/-
  Slicing and splitting chunks (`slice.rs`, `split.rs`).

  `Chunk::split_chunk_if_needed` cuts a chunk that exceeds a limit into deep row
  slices. The pieces are non-empty, well-formed, of the same entity and with the
  same columns (`PieceOf`), and their rows are the rows of the chunk
  (`splitChunkIfNeeded_rows`).

  `ChunkId::new` and the measured size of a new chunk come from outside the
  model: `Env` carries the ids a call will be handed and the sizes its new
  chunks will have. A function that makes chunks takes the number of ids used
  so far and returns the new number.

  Correspondence (Rust ↔ Lean):
    its `while` loop ↔ `cutRows`
-/

namespace Dalaran

open List Option Assoc TimeColumn ListArray Chunk

/-- What a call reads from outside the store: the `k`-th new chunk id, no two of them equal, the
sizes of new chunks, the iteration order of a hash map of chunk ids, and whether arrow's `concat`
fails on two arrays of one type, whose dictionary keys or offsets may overflow. -/
structure Env where
  newId : Nat → ChunkId
  newId_injective : Function.Injective newId
  sizeBytes : ChunkId → Nat
  hashOrder : ChunkId → Nat
  concatFails : ListArray → ListArray → Bool

/-- New ids that count up from a bound, for stores that use smaller ids only. -/
def Env.countingFrom (bound : Nat) : Env where
  newId k := bound + k
  newId_injective _ _ h := Nat.add_left_cancel h
  sizeBytes _ := 0
  hashOrder id := id
  concatFails _ _ := false

/-- `ChunkSplitConfig`; zero disables a limit. -/
structure ChunkSplitConfig where
  chunkMaxBytes : Nat
  chunkMaxRows : Nat
  chunkMaxRowsIfUnsorted : Nat
  deriving DecidableEq

/-! ## Slices -/

def TimeColumn.emptied (tc : TimeColumn) : TimeColumn := TimeColumn.new (some true) tc.timeline []

def TimeColumn.rowSliced (tc : TimeColumn) (index len : Nat) : TimeColumn :=
  if tc.times.length ≤ index then tc.emptied
  else
    let len := min (index + len) tc.times.length - index
    if len = 0 then tc.emptied
    else
      let isSorted := tc.isSorted || decide (len < 2)
      TimeColumn.new (if isSorted then some true else none) tc.timeline ((tc.times.drop index).take len)

namespace Chunk

def emptied (c : Chunk) (id : ChunkId) (sizeBytes : Nat) : Chunk where
  id := id
  entityPath := c.entityPath
  sizeBytes := sizeBytes
  isSorted := true
  rowIds := []
  timelines := Assoc.map c.timelines fun _ tc => tc.emptied
  components := Assoc.map c.components fun _ column =>
    { column with listArray := column.listArray.emptied }

/-- A slice of rows under a new id, over arrays of its own. -/
def rowSlicedDeep (c : Chunk) (id : ChunkId) (sizeBytes : Nat) (index len : Nat) : Chunk :=
  if c.numRows ≤ index then c.emptied id sizeBytes
  else
    let len := min (index + len) c.numRows - index
    if len = 0 then c.emptied id sizeBytes
    else
      let rowIds := (c.rowIds.drop index).take len
      { id := id
        entityPath := c.entityPath
        sizeBytes := sizeBytes
        isSorted := c.isSorted || decide (len < 2) || Seq.ascending rowIds
        rowIds := rowIds
        timelines := Assoc.map c.timelines fun _ tc => tc.rowSliced index len
        components := Assoc.map c.components fun _ column =>
          { column with listArray := column.listArray.deepSlice index len } }

end Chunk

/-! ## Splitting -/

def cutRows (env : Env) (c : Chunk) (target : Nat) : Nat → Nat → Nat → List Chunk × Nat
  | 0, k, _ => ([], k)
  | fuel + 1, k, start =>
    if start < c.numRows then
      let size := min (c.numRows - start) target
      let piece := c.rowSlicedDeep (env.newId k) (env.sizeBytes (env.newId k)) start size
      let rest := cutRows env c target fuel (k + 1) (start + size)
      (piece :: rest.1, rest.2)
    else ([], k)

/-- The number of rows per piece, `none` when the chunk stays whole. -/
def targetRows (cfg : ChunkSplitConfig) (c : Chunk) : Option Nat :=
  if c.numRows ≤ 1 then none
  else
    let needsSplitBytes := 0 < cfg.chunkMaxBytes ∧ cfg.chunkMaxBytes < c.sizeBytes
    let needsSplitRows := 0 < cfg.chunkMaxRows ∧ cfg.chunkMaxRows < c.numRows
    let needsSplitUnsorted := 0 < cfg.chunkMaxRowsIfUnsorted ∧
      cfg.chunkMaxRowsIfUnsorted < c.numRows ∧ c.allTimelinesSorted = false
    if ¬ needsSplitBytes ∧ ¬ needsSplitRows ∧ ¬ needsSplitUnsorted then none
    else
      let target :=
        if needsSplitUnsorted then cfg.chunkMaxRowsIfUnsorted
        else if needsSplitRows then cfg.chunkMaxRows
        else cfg.chunkMaxBytes / max (c.sizeBytes / max c.numRows 1) 1
      some (max target 1)

def splitChunkIfNeeded (env : Env) (cfg : ChunkSplitConfig) (k : Nat) (c : Chunk) : List Chunk × Nat :=
  match targetRows cfg c with
  | none => ([c], k)
  | some target => cutRows env c target c.numRows k 0

/-! ## Pieces -/

/-- `p` holds some rows of `c`: the same entity and columns, and as sound as `c` is. -/
structure Chunk.PieceOf (p c : Chunk) : Prop where
  entityPath : p.entityPath = c.entityPath
  wf : p.WellFormed
  nonempty : p.rowIds ≠ []
  sorted : c.isSorted = true → p.isSorted = true
  timelines : ∀ name, (p.timelines.lookup name).isSome = (c.timelines.lookup name).isSome
  components : ∀ component, (p.components.lookup component).isSome = (c.components.lookup component).isSome
  packed : c.Packed → p.Packed

variable {c : Chunk}

theorem Chunk.PieceOf.refl (hwf : c.WellFormed) (hne : c.rowIds ≠ []) : c.PieceOf c :=
  ⟨rfl, hwf, hne, fun h => h, fun _ => rfl, fun _ => rfl, fun h => h⟩

variable {a b : Chunk}

theorem Chunk.PieceOf.trans (hab : a.PieceOf b) (hbc : b.PieceOf c) : a.PieceOf c :=
  ⟨hab.entityPath.trans hbc.entityPath, hab.wf, hab.nonempty, fun h => hab.sorted (hbc.sorted h),
    fun n => (hab.timelines n).trans (hbc.timelines n),
    fun n => (hab.components n).trans (hbc.components n), fun h => hab.packed (hbc.packed h)⟩

variable {index len : Nat}

theorem Chunk.rowSlicedDeep_of_le (hpos : 0 < len) (hle : index + len ≤ c.numRows) (id : ChunkId) (size : Nat) :
    c.rowSlicedDeep id size index len =
      { id := id
        entityPath := c.entityPath
        sizeBytes := size
        isSorted := c.isSorted || decide (len < 2) || Seq.ascending ((c.rowIds.drop index).take len)
        rowIds := (c.rowIds.drop index).take len
        timelines := Assoc.map c.timelines fun _ tc => tc.rowSliced index len
        components := Assoc.map c.components fun _ column =>
          { column with listArray := column.listArray.deepSlice index len } } := by
  unfold Chunk.rowSlicedDeep
  have h1 : ¬ c.numRows ≤ index := by omega
  have h2 : min (index + len) c.numRows - index = len := by omega
  have h3 : len ≠ 0 := by omega
  simp [h1, h2, h3]

theorem ascending_of_length_lt_two {α : Type} [LinearOrder α] {l : List α} (h : l.length < 2) :
    Seq.ascending l = true := by
  match l, h with
  | [], _ => rfl
  | [_], _ => rfl

theorem TimeColumn.rowSliced_of_le {tc : TimeColumn} (hpos : 0 < len) (hle : index + len ≤ tc.times.length) :
    tc.rowSliced index len = TimeColumn.new
      (if tc.isSorted || decide (len < 2) then some true else none) tc.timeline
      ((tc.times.drop index).take len) := by
  unfold TimeColumn.rowSliced
  have h1 : ¬ tc.times.length ≤ index := by omega
  have h2 : min (index + len) tc.times.length - index = len := by omega
  have h3 : len ≠ 0 := by omega
  simp [h1, h2, h3]

theorem TimeColumn.rowSliced_wf {tc : TimeColumn} (hwf : tc.WellFormed) (hpos : 0 < len)
    (hle : index + len ≤ tc.times.length) : (tc.rowSliced index len).WellFormed := by
  rw [rowSliced_of_le hpos hle]
  have hsub : ((tc.times.drop index).take len).Sublist tc.times :=
    (take_sublist _ _).trans (drop_sublist _ _)
  refine new_wf (fun b hb => ?_) fun t ht => hwf.temporal t (hsub.subset ht)
  split at hb
  · rename_i h
    obtain rfl : true = b := by simpa using hb
    rcases Bool.or_eq_true_iff.mp h with h | h
    · rw [hwf.isSorted_eq, Seq.ascending_iff] at h
      exact (Seq.ascending_iff.mpr (h.sublist hsub)).symm
    · refine (ascending_of_length_lt_two ?_).symm
      have := of_decide_eq_true h
      rw [length_take]
      omega
  · simp at hb

theorem TimeColumn.rowSliced_times {tc : TimeColumn} (hpos : 0 < len) (hle : index + len ≤ tc.times.length) :
    (tc.rowSliced index len).times = (tc.times.drop index).take len := by
  rw [rowSliced_of_le hpos hle]
  rfl

theorem Chunk.rowSlicedDeep_pieceOf (hwf : c.WellFormed) (hpos : 0 < len) (hle : index + len ≤ c.numRows)
    (id : ChunkId) (size : Nat) :
    (c.rowSlicedDeep id size index len).PieceOf c := by
  rw [rowSlicedDeep_of_le hpos hle]
  have hsub : ((c.rowIds.drop index).take len).Sublist c.rowIds :=
    (take_sublist _ _).trans (drop_sublist _ _)
  have hrows : ((c.rowIds.drop index).take len).length = len := by
    rw [length_take, length_drop]
    have : c.numRows = c.rowIds.length := rfl
    omega
  refine ⟨rfl, ⟨?_, ?_, ?_, ?_⟩, ?_, fun h => by simp [h], ?_, ?_, ?_⟩
  · -- the flag is right: a sorted chunk has sorted slices, and otherwise it is recomputed
    cases hasc : Seq.ascending ((c.rowIds.drop index).take len) with
    | true => simp
    | false =>
      have h1 : c.isSorted = false := by
        by_contra h
        have hs := hwf.isSorted_eq.symm.trans (Bool.not_eq_false _ ▸ h)
        rw [Seq.ascending_iff.mpr ((Seq.ascending_iff.mp hs).sublist hsub)] at hasc
        simp at hasc
      have h2 : ¬ len < 2 := by
        intro h
        rw [ascending_of_length_lt_two (by rw [hrows]; exact h)] at hasc
        simp at hasc
      simp [h1, h2]
  · intro name tc' h
    rw [lookup_map] at h
    obtain ⟨tc, htc, rfl⟩ := map_eq_some_iff.mp h
    have hl := hwf.times_length _ _ htc
    rw [rowSliced_times hpos (by omega)]
    show _ = ((c.rowIds.drop index).take len).length
    rw [hrows, length_take, length_drop]
    omega
  · intro name tc' h
    rw [lookup_map] at h
    obtain ⟨tc, htc, rfl⟩ := map_eq_some_iff.mp h
    have hl := hwf.times_length _ _ htc
    exact rowSliced_wf (hwf.times_wf _ _ htc) hpos (by omega)
  · intro component column' h
    rw [lookup_map] at h
    obtain ⟨column, hcol, rfl⟩ := map_eq_some_iff.mp h
    have hl := hwf.cells_length _ _ hcol
    show (column.listArray.deepSlice index len).len = ((c.rowIds.drop index).take len).length
    rw [hrows, ← cells_length, deepSlice_cells, length_take, length_drop, cells_length]
    omega
  · intro h
    have h' : ((c.rowIds.drop index).take len).length = 0 := by
      rw [show (c.rowIds.drop index).take len = [] from h]
      rfl
    omega
  · intro name
    rw [lookup_map, isSome_map]
  · intro component
    rw [lookup_map, isSome_map]
  · intro hp component column' h
    rw [lookup_map] at h
    obtain ⟨column, hcol, rfl⟩ := map_eq_some_iff.mp h
    exact deepSlice_packed (hp component column hcol) index len

theorem Chunk.rowSlicedDeep_rows (hwf : c.WellFormed) (hpos : 0 < len) (hle : index + len ≤ c.numRows) (id : ChunkId)
    (size : Nat) :
    (c.rowSlicedDeep id size index len).rows = (c.rows.drop index).take len := by
  rw [rowSlicedDeep_of_le hpos hle]
  apply ext_getElem?
  intro k
  rw [rows_getElem?, getElem?_take, getElem?_take, getElem?_drop, getElem?_drop, rows_getElem?]
  split
  · rename_i hk
    congr 1
    funext r
    refine Row.ext rfl rfl ?_ ?_
    · funext name
      show Option.bind _ _ = Option.bind _ _
      simp only [lookup_map]
      cases htc : c.timelines.lookup name with
      | none => rfl
      | some tc =>
        have hl := hwf.times_length _ _ htc
        simp only [map_some, bind_some]
        rw [rowSliced_times hpos (by omega), getElem?_take, if_pos hk, getElem?_drop]
    · funext component
      show Option.bind _ _ = Option.bind _ _
      simp only [lookup_map]
      cases c.components.lookup component with
      | none => rfl
      | some column =>
        simp only [map_some, bind_some]
        rw [deepSlice_cells, getElem?_take, if_pos hk, getElem?_drop]
  · rfl

/-! ## What splitting yields -/

/-- The ids of the chunks are distinct ones out of the `k`-th to the `k'`-th new id. -/
structure NewIds (env : Env) (k k' : Nat) (ps : List Chunk) : Prop where
  le : k ≤ k'
  mem : ∀ p ∈ ps, ∃ j, k ≤ j ∧ j < k' ∧ p.id = env.newId j
  nodup : (ps.map (·.id)).Nodup

theorem NewIds.nil (env : Env) (k : Nat) : NewIds env k k [] :=
  ⟨le_rfl, by simp, nodup_nil⟩

theorem NewIds.mono {env : Env} {k₁ k₂ k₁' k₂' : Nat} {ps : List Chunk} (h : NewIds env k₁ k₂ ps)
    (h1 : k₁' ≤ k₁) (h2 : k₂ ≤ k₂') : NewIds env k₁' k₂' ps := by
  refine ⟨h1.trans (h.le.trans h2), fun p hp => ?_, h.nodup⟩
  obtain ⟨j, hj1, hj2, hid⟩ := h.mem p hp
  exact ⟨j, by omega, by omega, hid⟩

theorem NewIds.append {env : Env} {k₁ k₂ k₃ : Nat} {ps qs : List Chunk} (h₁ : NewIds env k₁ k₂ ps)
    (h₂ : NewIds env k₂ k₃ qs) : NewIds env k₁ k₃ (ps ++ qs) := by
  refine ⟨h₁.le.trans h₂.le, fun p hp => ?_, ?_⟩
  · rcases mem_append.mp hp with hp | hp
    · exact (h₁.mono le_rfl h₂.le).mem p hp
    · exact (h₂.mono h₁.le le_rfl).mem p hp
  · rw [map_append]
    refine nodup_append.mpr ⟨h₁.nodup, h₂.nodup, fun a ha b hb hab => ?_⟩
    obtain ⟨p, hp, rfl⟩ := mem_map.mp ha
    obtain ⟨q, hq, rfl⟩ := mem_map.mp hb
    obtain ⟨i, _, hi, hpi⟩ := h₁.mem p hp
    obtain ⟨j, hj, _, hqj⟩ := h₂.mem q hq
    have := env.newId_injective (hpi.symm.trans (hab.trans hqj))
    omega

theorem NewIds.singleton {env : Env} {k : Nat} {p : Chunk} (h : p.id = env.newId k) : NewIds env k (k + 1) [p] :=
  ⟨by omega, fun q hq => ⟨k, by omega, by omega, by rw [mem_singleton.mp hq, h]⟩, by simp⟩

theorem cutRows_spec (env : Env) (hwf : c.WellFormed) {target : Nat} (htarget : 0 < target) :
    ∀ (fuel k start : Nat), c.numRows - start ≤ fuel → start ≤ c.numRows →
      (cutRows env c target fuel k start).1.flatMap Chunk.rows = c.rows.drop start ∧
      (∀ p ∈ (cutRows env c target fuel k start).1, p.PieceOf c) ∧
      NewIds env k (cutRows env c target fuel k start).2 (cutRows env c target fuel k start).1
  | 0, k, start, hfuel, hstart => by
    have h : c.rows.drop start = [] := drop_eq_nil_iff.mpr (by rw [rows_length]; omega)
    exact ⟨h.symm, by simp [cutRows], NewIds.nil env k⟩
  | fuel + 1, k, start, hfuel, hstart => by
    unfold cutRows
    split
    · rename_i hlt
      have hsize : 0 < min (c.numRows - start) target := by omega
      have hle : start + min (c.numRows - start) target ≤ c.numRows := by omega
      obtain ⟨hrows, hpieces, hids⟩ := cutRows_spec env hwf htarget fuel (k + 1)
        (start + min (c.numRows - start) target) (by omega) hle
      refine ⟨?_, ?_, ?_⟩
      · rw [flatMap_cons, rowSlicedDeep_rows hwf hsize hle, hrows, ← drop_drop, take_append_drop]
      · intro p hp
        rcases mem_cons.mp hp with rfl | hp
        · exact rowSlicedDeep_pieceOf hwf hsize hle _ _
        · exact hpieces p hp
      · exact (NewIds.singleton (by rw [rowSlicedDeep_of_le hsize hle])).append hids
    · have h : c.rows.drop start = [] := drop_eq_nil_iff.mpr (by rw [rows_length]; omega)
      exact ⟨h.symm, by simp, NewIds.nil env k⟩

theorem targetRows_pos {cfg : ChunkSplitConfig} {target : Nat} (h : targetRows cfg c = some target) : 0 < target := by
  unfold targetRows at h
  split at h
  · simp at h
  · dsimp only at h
    split at h
    · simp at h
    · have := some.inj h
      omega

theorem splitChunkIfNeeded_rows (env : Env) (cfg : ChunkSplitConfig) (k : Nat)
    (hwf : c.WellFormed) : (splitChunkIfNeeded env cfg k c).1.flatMap Chunk.rows = c.rows := by
  unfold splitChunkIfNeeded
  cases h : targetRows cfg c with
  | none => simp
  | some target =>
    exact (cutRows_spec env hwf (targetRows_pos h) c.numRows k 0 (by omega) (by omega)).1

theorem splitChunkIfNeeded_pieceOf (env : Env) (cfg : ChunkSplitConfig) (k : Nat) (hwf : c.WellFormed)
    (hne : c.rowIds ≠ []) :
    ∀ p ∈ (splitChunkIfNeeded env cfg k c).1, p.PieceOf c := by
  unfold splitChunkIfNeeded
  cases h : targetRows cfg c with
  | none =>
    intro p hp
    rw [mem_singleton.mp hp]
    exact Chunk.PieceOf.refl hwf hne
  | some target =>
    exact (cutRows_spec env hwf (targetRows_pos h) c.numRows k 0 (by omega) (by omega)).2.1

theorem splitChunkIfNeeded_ids (env : Env) (cfg : ChunkSplitConfig) (k : Nat) (hwf : c.WellFormed) :
    splitChunkIfNeeded env cfg k c = ([c], k) ∨
      NewIds env k (splitChunkIfNeeded env cfg k c).2 (splitChunkIfNeeded env cfg k c).1 := by
  unfold splitChunkIfNeeded
  cases h : targetRows cfg c with
  | none => exact .inl rfl
  | some target =>
    exact .inr (cutRows_spec env hwf (targetRows_pos h) c.numRows k 0 (by omega) (by omega)).2.2

end Dalaran
