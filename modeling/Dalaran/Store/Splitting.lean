import Dalaran.Base.Loop
import Dalaran.Store.Insertion

/-
  Splitting on ingest: both loops end, no row is lost, and the row limits hold.

  `splitChunkIfNeeded` and `splitChunks` compute the two loops with a bound on the
  rounds. Here each is shown to be the loop of the source (`Loop.Ends`): a slice has
  at least one row, and a round that does not leave the number of pieces as it is
  makes it greater, which the number of rows bounds.

  Correspondence (Rust ↔ Lean):
    the `while` loop of `Chunk::split_chunk_if_needed` ↔ `cutRowsBody`
    the `loop` of `insert_chunk_impl` ↔ `splitLoopBody`
-/

namespace Dalaran

open List Chunk

/-! ## The inner loop -/

/-- One round of the `while` loop: cut off the next slice, or stop at the end of the chunk. -/
def cutRowsBody (env : Env) (c : Chunk) (target : Nat) (s : Nat × Nat × List Chunk) :
    (Nat × Nat × List Chunk) ⊕ (List Chunk × Nat) :=
  if s.2.1 < c.numRows then
    let size := min (c.numRows - s.2.1) target
    let piece := c.rowSlicedDeep (env.newId s.1) (env.sizeBytes (env.newId s.1)) s.2.1 size
    .inl (s.1 + 1, s.2.1 + size, s.2.2 ++ [piece])
  else .inr (s.2.2, s.1)

/-- The loop ends, since every round moves on by at least one row. -/
theorem cutRows_ends (env : Env) (c : Chunk) {target : Nat} (htarget : 0 < target) :
    ∀ (fuel k start : Nat) (done : List Chunk), c.numRows - start ≤ fuel →
      Loop.Ends (cutRowsBody env c target) (k, start, done)
        (done ++ (cutRows env c target fuel k start).1, (cutRows env c target fuel k start).2)
  | 0, k, start, done, hfuel => by
    apply Loop.Ends.stop
    have hend : ¬ start < c.numRows := by omega
    simp [cutRowsBody, cutRows, hend]
  | fuel + 1, k, start, done, hfuel => by
    by_cases hlt : start < c.numRows
    · have ih := cutRows_ends env c htarget fuel (k + 1) (start + min (c.numRows - start) target)
        (done ++ [c.rowSlicedDeep (env.newId k) (env.sizeBytes (env.newId k)) start
          (min (c.numRows - start) target)]) (by omega)
      refine Loop.Ends.next (if_pos hlt) ?_
      rw [cutRows, if_pos hlt]
      simpa using ih
    · apply Loop.Ends.stop
      simp [cutRowsBody, cutRows, hlt]

/-! ## Pieces and limits -/

/-- A piece of more than one row is within the limit for all chunks, and within the one for unsorted
chunks if it is unsorted. -/
def WithinRowLimits (cfg : ChunkSplitConfig) (p : Chunk) : Prop :=
  1 < p.numRows → (0 < cfg.chunkMaxRows → p.numRows ≤ cfg.chunkMaxRows) ∧
    (0 < cfg.chunkMaxRowsIfUnsorted → p.allTimelinesSorted = false → p.numRows ≤ cfg.chunkMaxRowsIfUnsorted)

/-- The pieces are the rows of the chunk, in order, and none is empty; an empty chunk stays whole. -/
def SplitsRows (c : Chunk) (ps : List Chunk) : Prop :=
  ps.flatMap Chunk.rows = c.rows ∧ ((∀ p ∈ ps, p.rowIds ≠ []) ∨ c.rowIds = [] ∧ ps = [c])

theorem withinRowLimits_of_targetRows_none {cfg : ChunkSplitConfig} {c : Chunk}
    (h : targetRows cfg c = none) : WithinRowLimits cfg c := by
  intro hrows
  unfold targetRows at h
  rw [if_neg (by omega)] at h
  dsimp only at h
  split at h
  · rename_i hneed
    obtain ⟨-, hmax, hunsorted⟩ := hneed
    exact ⟨fun h0 => by omega, fun h0 hs => not_lt.mp fun hlt => hunsorted ⟨h0, hlt, hs⟩⟩
  · simp at h

theorem withinRowLimits_of_le_target {cfg : ChunkSplitConfig} {c : Chunk} {target : Nat}
    (h : targetRows cfg c = some target) (hle : c.numRows ≤ target) : WithinRowLimits cfg c := by
  intro hrows
  unfold targetRows at h
  rw [if_neg (by omega)] at h
  dsimp only at h
  split at h
  · simp at h
  · have htarget := Option.some.inj h
    by_cases hunsorted : 0 < cfg.chunkMaxRowsIfUnsorted ∧ cfg.chunkMaxRowsIfUnsorted < c.numRows ∧
        c.allTimelinesSorted = false
    · rw [if_pos hunsorted] at htarget
      omega
    · rw [if_neg hunsorted] at htarget
      by_cases hmax : 0 < cfg.chunkMaxRows ∧ cfg.chunkMaxRows < c.numRows
      · rw [if_pos hmax] at htarget
        omega
      · exact ⟨fun h0 => by omega, fun h0 hs => not_lt.mp fun hlt => hunsorted ⟨h0, hlt, hs⟩⟩

theorem rowSlicedDeep_allTimelinesSorted {c : Chunk} (hwf : c.WellFormed) {index len : Nat}
    (hpos : 0 < len) (hle : index + len ≤ c.numRows) (id : ChunkId) (size : Nat)
    (hs : c.allTimelinesSorted = true) :
    (c.rowSlicedDeep id size index len).allTimelinesSorted = true := by
  have hpiece := rowSlicedDeep_pieceOf hwf hpos hle id size
  refine all_eq_true.mpr fun tc' htc' => ?_
  obtain ⟨name, hname⟩ := Assoc.mem_values.mp htc'
  rw [(hpiece.wf.times_wf _ _ hname).isSorted_eq]
  rw [rowSlicedDeep_of_le hpos hle] at hname
  rw [Assoc.lookup_map] at hname
  obtain ⟨tc, htc, rfl⟩ := Option.map_eq_some_iff.mp hname
  have hlen := hwf.times_length _ _ htc
  rw [TimeColumn.rowSliced_times hpos (by omega)]
  have hsorted : tc.isSorted = true :=
    all_eq_true.mp hs tc (Assoc.mem_values.mpr ⟨name, htc⟩)
  rw [(hwf.times_wf _ _ htc).isSorted_eq, Seq.ascending_iff] at hsorted
  exact Seq.ascending_iff.mpr (hsorted.sublist ((take_sublist _ _).trans (drop_sublist _ _)))

theorem splitChunkIfNeeded_length (env : Env) (cfg : ChunkSplitConfig) (k : Nat) {c : Chunk}
    (hwf : c.WellFormed) (hne : c.rowIds ≠ []) :
    1 ≤ (splitChunkIfNeeded env cfg k c).1.length ∧
      ((splitChunkIfNeeded env cfg k c).1.length = 1 →
        ∀ q ∈ (splitChunkIfNeeded env cfg k c).1, WithinRowLimits cfg q) := by
  have hpos : 0 < c.numRows := length_pos_iff.mpr hne
  have hrows := splitChunkIfNeeded_rows env cfg k hwf
  refine ⟨?_, fun hone q hq => ?_⟩
  · by_contra hlen
    have hnil : (splitChunkIfNeeded env cfg k c).1 = [] := length_eq_zero_iff.mp (by omega)
    have hlength := congrArg List.length hrows
    rw [hnil, rows_length] at hlength
    simp at hlength
    omega
  · obtain ⟨q', hq'⟩ := length_eq_one_iff.mp hone
    rw [hq'] at hq hrows
    obtain rfl := mem_singleton.mp hq
    rw [flatMap_singleton] at hrows
    have hnum : q.numRows = c.numRows := by
      rw [← rows_length, hrows, rows_length]
    unfold splitChunkIfNeeded at hq'
    cases htarget : targetRows cfg c with
    | none =>
      rw [htarget] at hq'
      rw [← singleton_inj.mp hq']
      exact withinRowLimits_of_targetRows_none htarget
    | some target =>
      have htpos := targetRows_pos htarget
      obtain ⟨n, hn⟩ : ∃ n, c.numRows = n + 1 := ⟨c.numRows - 1, by omega⟩
      simp only [htarget] at hq'
      rw [hn, cutRows, if_pos hpos] at hq'
      obtain ⟨hpiece, -⟩ := cons_eq_cons.mp hq'
      -- the only piece has `min numRows target` rows, and all of them
      have hsize : 0 < min (c.numRows - 0) target := by omega
      have hle : 0 + min (c.numRows - 0) target ≤ c.numRows := by omega
      have hcount : c.numRows = min (c.numRows - 0) target := by
        rw [← hnum, ← hpiece, ← rows_length, rowSlicedDeep_rows hwf hsize hle,
          length_take, length_drop, rows_length]
        omega
      have hlimits := withinRowLimits_of_le_target htarget (by omega)
      intro hmany
      obtain ⟨hmax, hunsorted⟩ := hlimits (by omega)
      rw [hnum]
      refine ⟨hmax, fun h0 hs => hunsorted h0 ?_⟩
      by_contra hsorted
      rw [← hpiece, rowSlicedDeep_allTimelinesSorted hwf hsize hle _ _ (by simpa using hsorted)] at hs
      cases hs

/-! ## The outer loop -/

namespace ChunkStore

/-- One round of the loop over the pieces: split each once more, and stop when there are no more. -/
def splitLoopBody (env : Env) (st : ChunkStore) (s : Nat × List Chunk) : (Nat × List Chunk) ⊕ (List Chunk × Nat) :=
  let round := splitRound env st s.1 s.2
  if round.1.length = s.2.length then .inr round else .inl (round.2, round.1)

theorem splitRound_length (env : Env) (st : ChunkStore) : ∀ {ps : List Chunk} {k : Nat},
    (∀ p ∈ ps, p.WellFormed ∧ p.rowIds ≠ []) → (∀ p ∈ ps, st.descendsFromACompaction p.id = false) →
      ps.length ≤ (splitRound env st k ps).1.length ∧
      ((splitRound env st k ps).1.length = ps.length →
        ∀ q ∈ (splitRound env st k ps).1, WithinRowLimits st.config q)
  | [], k, _, _ => ⟨le_rfl, by simp [splitRound]⟩
  | p :: ps, k, hps, hroot => by
    obtain ⟨hwf, hne⟩ := hps p mem_cons_self
    obtain ⟨hone, hlimits⟩ := splitChunkIfNeeded_length env st.config k hwf hne
    obtain ⟨hrest, hrestLimits⟩ := @splitRound_length env st ps
      (splitChunkIfNeeded env st.config k p).2
      (fun q hq => hps q (mem_cons_of_mem _ hq)) (fun q hq => hroot q (mem_cons_of_mem _ hq))
    rw [splitRound, hroot p mem_cons_self]
    simp only [Bool.false_eq_true, if_false, length_append, length_cons]
    refine ⟨by omega, fun hlen q hq => ?_⟩
    rcases mem_append.mp hq with hq | hq
    · exact hlimits (by omega) q hq
    · exact hrestLimits (by omega) q hq

theorem SplitOf.length_le {env : Env} {k k' : Nat} {c : Chunk} {ps : List Chunk}
    (h : SplitOf env k k' c ps) : ps.length ≤ c.numRows := by
  have hall : ∀ {qs : List Chunk}, (∀ q ∈ qs, q.rowIds ≠ []) → qs.length ≤ (qs.flatMap Chunk.rows).length := by
    intro qs hqs
    induction qs with
    | nil => exact le_rfl
    | cons q qs ih =>
      have hq : 0 < q.numRows := length_pos_iff.mpr (hqs q mem_cons_self)
      have hrest := ih fun q' hq' => hqs q' (mem_cons_of_mem _ hq')
      rw [flatMap_cons, length_append, rows_length, length_cons]
      omega
  have hle := hall fun q hq => (h.pieces q hq).nonempty
  rwa [h.rows, rows_length] at hle

variable {env : Env} {st : ChunkStore} {c : Chunk}

/-- What a round starts from: the chunk as it is, or pieces under new ids. -/
def Splitting (env : Env) (st : ChunkStore) (k₀ : Nat) (c : Chunk) (s : Nat × List Chunk) : Prop :=
  SplitOf env k₀ s.1 c s.2 ∨
    s.2 = [c] ∧ st.descendsFromACompaction c.id = false ∧ splitChunkIfNeeded env st.config s.1 c = ([c], s.1)

theorem SplitOf.not_compaction {k k' : Nat} {ps : List Chunk} (h : SplitOf env k k' c ps)
    (hnew : ∀ j, st.descendsFromACompaction (env.newId j) = false) :
    ∀ p ∈ ps, st.descendsFromACompaction p.id = false := by
  intro p hp
  obtain ⟨j, -, -, hid⟩ := h.ids.mem p hp
  rw [hid]
  exact hnew j

theorem splitRound_whole {k : Nat} (hroot : st.descendsFromACompaction c.id = false)
    (h : splitChunkIfNeeded env st.config k c = ([c], k)) : splitRound env st k [c] = ([c], k) := by
  simp [splitRound, hroot, h]

/-- The loop over the pieces ends: a round that goes on has more pieces, and there are no more than
rows. -/
theorem splitLoop_ends {k₀ : Nat} (hnew : ∀ j, st.descendsFromACompaction (env.newId j) = false) :
    ∀ (fuel k : Nat) (ps : List Chunk), SplitOf env k₀ k c ps → c.numRows < ps.length + fuel →
      Loop.Ends (splitLoopBody env st) (k, ps) (splitLoop env st fuel k ps)
  | 0, k, ps, h, hfuel => by
    have := h.length_le
    omega
  | fuel + 1, k, ps, h, hfuel => by
    obtain ⟨hlen, -⟩ := splitRound_length env st (k := k)
      (fun p hp => ⟨(h.pieces p hp).wf, (h.pieces p hp).nonempty⟩) (h.not_compaction hnew)
    unfold splitLoop
    dsimp only
    by_cases hsame : (splitRound env st k ps).1.length = ps.length
    · rw [if_pos hsame]
      exact Loop.Ends.stop (if_pos hsame)
    · rw [if_neg hsame]
      have hbody : splitLoopBody env st (k, ps) = .inl ((splitRound env st k ps).2, (splitRound env st k ps).1) :=
        if_neg hsame
      refine Loop.Ends.next hbody ?_
      exact splitLoop_ends hnew fuel _ _ (splitRound_splitOf env st hnew h) (by omega)

theorem splitLoop_limits {k₀ : Nat} (hwf : c.WellFormed) (hne : c.rowIds ≠ [])
    (hnew : ∀ j, st.descendsFromACompaction (env.newId j) = false) {s : Nat × List Chunk}
    {r : List Chunk × Nat} (h : Loop.Ends (splitLoopBody env st) s r) (hs : Splitting env st k₀ c s) :
    ∀ p ∈ r.1, WithinRowLimits st.config p := by
  refine Loop.Ends.invariant (I := Splitting env st k₀ c)
    (Q := fun r => ∀ p ∈ r.1, WithinRowLimits st.config p) ?_ ?_ h hs
  · intro s s' hs hbody
    unfold splitLoopBody at hbody
    dsimp only at hbody
    split at hbody
    · cases hbody
    · rename_i hmore
      obtain rfl := Sum.inl.inj hbody
      rcases hs with hs | ⟨hps, hroot, hwhole⟩
      · exact .inl (splitRound_splitOf env st hnew hs)
      · rw [hps, splitRound_whole hroot hwhole] at hmore
        exact absurd rfl hmore
  · intro s r hs hbody
    unfold splitLoopBody at hbody
    dsimp only at hbody
    split at hbody
    · rename_i hsame
      obtain rfl := Sum.inr.inj hbody
      rcases hs with hs | ⟨hps, hroot, hwhole⟩
      · exact (splitRound_length env st (fun p hp => ⟨(hs.pieces p hp).wf, (hs.pieces p hp).nonempty⟩)
          (hs.not_compaction hnew)).2 hsame
      · refine (splitRound_length env st (fun p hp => ?_) fun p hp => ?_).2 hsame
        · rw [hps, mem_singleton] at hp
          exact hp ▸ ⟨hwf, hne⟩
        · rw [hps, mem_singleton] at hp
          exact hp ▸ hroot
    · cases hbody

theorem splitChunks_whole {k : Nat} (hroot : st.descendsFromACompaction c.id = false)
    (h : splitChunkIfNeeded env st.config k c = ([c], k)) :
    splitChunks env st k c = ([c], k) ∧ Loop.Ends (splitLoopBody env st)
      ((splitChunkIfNeeded env st.config k c).2, (splitChunkIfNeeded env st.config k c).1)
      (splitChunks env st k c) := by
  have hchunks : splitChunks env st k c = ([c], k) := by
    unfold splitChunks
    rw [h]
    exact splitLoop_whole env st hroot h _
  refine ⟨hchunks, ?_⟩
  rw [hchunks, h]
  apply Loop.Ends.stop
  unfold splitLoopBody
  rw [splitRound_whole hroot h]
  exact if_pos rfl

/-- Splitting on ingest: both loops end with what `splitChunkIfNeeded` and `splitChunks` compute, the
pieces are the rows of the chunk in order, none is empty unless the chunk is, and the pieces the outer
loop leaves are within the row limits. -/
theorem splitting_keeps_rows (env : Env) (st : ChunkStore) (cfg : ChunkSplitConfig) (k : Nat)
    (c : ValidChunk) (hroot : st.descendsFromACompaction c.id = false)
    (hnew : ∀ j, st.descendsFromACompaction (env.newId j) = false) :
    (∀ target, targetRows cfg c.toChunk = some target →
      Loop.Ends (cutRowsBody env c.toChunk target) (k, 0, []) (splitChunkIfNeeded env cfg k c.toChunk)) ∧
    SplitsRows c.toChunk (splitChunkIfNeeded env cfg k c.toChunk).1 ∧
    Loop.Ends (splitLoopBody env st)
      ((splitChunkIfNeeded env st.config k c.toChunk).2, (splitChunkIfNeeded env st.config k c.toChunk).1)
      (splitChunks env st k c.toChunk) ∧
    SplitsRows c.toChunk (splitChunks env st k c.toChunk).1 ∧
    ∀ p ∈ (splitChunks env st k c.toChunk).1, WithinRowLimits st.config p := by
  have hwf := c.wf
  have hcut : ∀ target, targetRows cfg c.toChunk = some target →
      Loop.Ends (cutRowsBody env c.toChunk target) (k, 0, [])
        (splitChunkIfNeeded env cfg k c.toChunk) := by
    intro target htarget
    have hends := cutRows_ends env c.toChunk (targetRows_pos htarget) c.numRows k 0 [] (by omega)
    unfold splitChunkIfNeeded
    rw [htarget]
    exact hends
  by_cases hne : c.rowIds = []
  · -- an empty chunk comes back as it is, from both loops
    have hwhole : ∀ cfg, splitChunkIfNeeded env cfg k c.toChunk = ([c.toChunk], k) := by
      intro cfg
      have hrows : c.numRows ≤ 1 := by
        rw [Chunk.numRows, hne]
        exact Nat.zero_le 1
      unfold splitChunkIfNeeded targetRows
      rw [if_pos hrows]
    obtain ⟨hloop, hends⟩ := splitChunks_whole (k := k) hroot (hwhole st.config)
    have hsplits : SplitsRows c.toChunk [c.toChunk] :=
      ⟨flatMap_singleton .., .inr ⟨hne, rfl⟩⟩
    refine ⟨hcut, ?_, hends, ?_, ?_⟩
    · rw [hwhole]
      exact hsplits
    · rw [hloop]
      exact hsplits
    · rw [hloop]
      intro p hp hmany
      rw [mem_singleton.mp hp, Chunk.numRows, hne] at hmany
      exact absurd hmany (by simp)
  · have hpieces : ∀ cfg, SplitsRows c.toChunk (splitChunkIfNeeded env cfg k c.toChunk).1 := fun cfg =>
      ⟨splitChunkIfNeeded_rows env cfg k hwf,
        .inl fun p hp => (splitChunkIfNeeded_pieceOf env cfg k hwf hne p hp).nonempty⟩
    have hstart : Splitting env st k c.toChunk
        ((splitChunkIfNeeded env st.config k c.toChunk).2, (splitChunkIfNeeded env st.config k c.toChunk).1) := by
      rcases splitChunkIfNeeded_ids env st.config k hwf with h | h
      · rw [h]
        exact .inr ⟨rfl, hroot, h⟩
      · exact .inl ⟨splitChunkIfNeeded_pieceOf env st.config k hwf hne,
          splitChunkIfNeeded_rows env st.config k hwf, h⟩
    have hends : Loop.Ends (splitLoopBody env st)
        ((splitChunkIfNeeded env st.config k c.toChunk).2, (splitChunkIfNeeded env st.config k c.toChunk).1)
        (splitChunks env st k c.toChunk) := by
      have hpos := (splitChunkIfNeeded_length env st.config k hwf hne).1
      rcases splitChunkIfNeeded_ids env st.config k hwf with h | h
      · exact (splitChunks_whole hroot h).2
      · exact splitLoop_ends hnew c.numRows _ _ ⟨splitChunkIfNeeded_pieceOf env st.config k hwf hne,
          splitChunkIfNeeded_rows env st.config k hwf, h⟩ (by omega)
    refine ⟨hcut, hpieces cfg, hends, ?_, splitLoop_limits hwf hne hnew hends hstart⟩
    rcases splitChunks_spec env st k hwf hne hroot hnew with h | h
    · rw [h]
      exact ⟨flatMap_singleton .., .inl fun p hp => mem_singleton.mp hp ▸ hne⟩
    · exact ⟨h.rows, .inl fun p hp => (h.pieces p hp).nonempty⟩

def unsortedTimesChunk : ValidChunk where
  toChunk := .ofColumns 1 ⟨["robot"]⟩ 0 [1, 2, 3] [(⟨"frame"⟩, [7, 9, 8].map I64.sat)]
    [(⟨"position"⟩, [some [], none, some []])]
  sane := rfl

/-- With at most two rows per unsorted chunk. -/
theorem splitting_keeps_rows_unsorted :
    SplitsRows unsortedTimesChunk.toChunk
      (splitChunks (.countingFrom 100) (.new ⟨0, 0, 2⟩) 0 unsortedTimesChunk.toChunk).1 :=
  (splitting_keeps_rows (.countingFrom 100) (.new ⟨0, 0, 2⟩) ⟨0, 0, 2⟩ 0 unsortedTimesChunk rfl
    fun _ => rfl).2.2.2.1

def emptyChunk : ValidChunk where
  toChunk := .ofColumns 1 ⟨["robot"]⟩ 0 [] [(⟨"frame"⟩, [])] [(⟨"position"⟩, [])]
  sane := rfl

/-- The chunk without rows comes back as the only piece, which is empty. -/
theorem splitChunkIfNeeded_empty_piece :
    (splitChunkIfNeeded (.countingFrom 100) ⟨0, 0, 0⟩ 0 emptyChunk.toChunk).1 = [emptyChunk.toChunk] ∧
      ¬ (∀ env cfg k (c : ValidChunk), ∀ p ∈ (splitChunkIfNeeded env cfg k c.toChunk).1, p.rowIds ≠ []) := by
  have hsplit : (splitChunkIfNeeded (.countingFrom 100) ⟨0, 0, 0⟩ 0 emptyChunk.toChunk).1 =
    [emptyChunk.toChunk] := rfl
  refine ⟨hsplit, fun h => ?_⟩
  exact h (.countingFrom 100) ⟨0, 0, 0⟩ 0 emptyChunk emptyChunk.toChunk
    (hsplit ▸ mem_singleton_self _) rfl

end ChunkStore

end Dalaran
