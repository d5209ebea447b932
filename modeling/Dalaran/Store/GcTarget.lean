import Dalaran.Store.DroppingEntities

/-
  How much a garbage collection drops.

  The mark phase counts the bytes of what it marks towards one target, first along
  the timeline of the cursor, then in RowId order. Nothing keeps the second pass
  from counting a chunk of the first one again. `gc_reachesTarget_iff` says exactly
  when it stops short of the target. Chunks without rows have no place in the RowId
  order.

  Correspondence (Rust ↔ Lean):
    the functions of `gc.rs` are in `Store/Gc`, both loops of `gc_find_candidates` being `markUntil`
      there
-/

namespace Dalaran

open List

/-! ## The mark phase -/

def bytes (cs : List Chunk) : Nat := (cs.map (·.sizeBytes)).sum

@[simp] theorem bytes_nil : bytes [] = 0 := rfl

@[simp] theorem bytes_cons (c : Chunk) (cs : List Chunk) : bytes (c :: cs) = c.sizeBytes + bytes cs := by
  simp [bytes]

@[simp] theorem bytes_append (cs ds : List Chunk) : bytes (cs ++ ds) = bytes cs + bytes ds := by
  simp [bytes]

variable {cs ds : List Chunk}

theorem bytes_perm (h : cs.Perm ds) : bytes cs = bytes ds :=
  (h.map _).sum_eq

namespace ChunkStore

theorem markUntil_spec {stop : Nat → Bool} (hstop : ∀ n, stop n = false) : ∀ {cs : List Chunk} {n remaining : Nat},
    0 < remaining →
      ((markUntil stop n remaining cs).2 = none ∧ remaining ≤ bytes (markUntil stop n remaining cs).1 ∧
        (∃ rest, cs = (markUntil stop n remaining cs).1 ++ rest) ∧
        ∀ p rest, cs = p ++ rest → remaining ≤ bytes p → (markUntil stop n remaining cs).1 ⊆ p) ∨
      (markUntil stop n remaining cs).1 = cs ∧ bytes cs < remaining ∧
        (markUntil stop n remaining cs).2 = some (remaining - bytes cs)
  | [], n, remaining, hpos => .inr ⟨rfl, hpos, rfl⟩
  | c :: cs, n, remaining, hpos => by
    have hshort : ∀ p rest, c :: cs = p ++ rest → remaining ≤ bytes p → ∃ q, p = c :: q ∧ cs = q ++ rest := by
      intro p rest heq hle
      cases p with
      | nil =>
        rw [bytes_nil] at hle
        omega
      | cons d q =>
        obtain ⟨rfl, hrest⟩ := cons.inj heq
        exact ⟨q, rfl, hrest⟩
    unfold markUntil
    rw [hstop, if_neg Bool.false_ne_true]
    by_cases hle : remaining ≤ c.sizeBytes
    · rw [if_pos hle]
      refine .inl ⟨rfl, by simpa using hle, ⟨cs, rfl⟩, fun p rest heq hp => ?_⟩
      obtain ⟨q, rfl, -⟩ := hshort p rest heq hp
      simp
    · rw [if_neg hle]
      dsimp only
      rcases @markUntil_spec stop hstop cs (n + 1) (remaining - c.sizeBytes) (by omega) with
        ⟨hnone, hreach, ⟨rest, hrest⟩, hleast⟩ | ⟨hall, hlt, hsome⟩
      · refine .inl ⟨hnone, ?_, ⟨rest, congrArg (List.cons c) hrest⟩, fun p rest' heq hp => ?_⟩
        · rw [bytes_cons]
          omega
        · obtain ⟨q, rfl, hq⟩ := hshort p rest' heq hp
          rw [bytes_cons] at hp
          exact cons_subset_cons c (hleast q rest' hq (by omega))
      · refine .inr ⟨congrArg (List.cons c) hall, ?_, ?_⟩
        · rw [bytes_cons]
          omega
        · rw [hsome, bytes_cons, Nat.sub_sub]

variable {st : ChunkStore} {options : GarbageCollectionOptions} {clock : GcClock}

/-- The unprotected chunks that the pass along the timeline of the cursor goes through. -/
def furthestChunks (st : ChunkStore) (options : GarbageCollectionOptions) : List Chunk :=
  match options.furthestFrom with
  | none => []
  | some (timeline, time) =>
    (st.findTemporalChunksFurthestFrom timeline time).filter fun c => !options.isChunkProtected c

/-- The unprotected physical chunks with a time on the timeline of the cursor. -/
def cursorChunks (st : ChunkStore) (options : GarbageCollectionOptions) : List Chunk :=
  match options.furthestFrom with
  | none => []
  | some (timeline, _) => st.physicalChunks.filter fun c =>
      ((c.timelines.lookup timeline).any fun tc => !tc.times.isEmpty) && !options.isChunkProtected c

theorem minDistance_isSome (tc : TimeColumn) (time : TimeInt) : (minDistance tc time).isSome = !tc.times.isEmpty := by
  have hmin : ∀ l : List Nat, l.min?.isSome = !l.isEmpty := by
    intro l
    cases l <;> rfl
  unfold minDistance
  split
  · rw [hmin]
    cases htimes : tc.times with
    | nil => simp
    | cons t times =>
      -- a neighbour of the cursor is a time of the column
      generalize hpivot : ((t :: times).takeWhile fun t => decide (t < time.asI64)).length = pivot
      have hle : pivot ≤ (t :: times).length := by
        rw [← hpivot]
        exact (takeWhile_sublist _).length_le
      have hlt : pivot - 1 < (t :: times).length := by
        rw [length_cons] at hle ⊢
        omega
      simp [List.getElem?_eq_getElem hlt]
  · rw [hmin]
    simp

theorem findTemporalChunksFurthestFrom_perm (st : ChunkStore) (timeline : TimelineName) (time : TimeInt) :
    (st.findTemporalChunksFurthestFrom timeline time).Perm
      (st.physicalChunks.filter fun c => (c.timelines.lookup timeline).any fun tc => !tc.times.isEmpty) := by
  let distance := fun e : ChunkId × Chunk =>
    (e.2.timelines.lookup timeline).bind fun tc => (minDistance tc time).map fun d => (e.2, d)
  have hfilter : ∀ es : List (ChunkId × Chunk), (es.filterMap distance).map (·.1) =
      (es.map (·.2)).filter fun c => (c.timelines.lookup timeline).any fun tc => !tc.times.isEmpty := by
    intro es
    induction es with
    | nil => rfl
    | cons e es ih =>
      rw [filterMap_cons, map_cons, filter_cons, ← ih]
      cases htc : e.2.timelines.lookup timeline with
      | none => simp [distance, htc]
      | some tc =>
        have hsome := minDistance_isSome tc time
        cases hd : minDistance tc time with
        | none => simp [distance, htc, hd, ← hsome]
        | some d => simp [distance, htc, hd, ← hsome]
  have hvalues : st.physicalChunks = (Assoc.toList st.physicalChunksPerChunkId).map (·.2) := by
    simp [physicalChunks, Assoc.values, Assoc.toList]
  rw [hvalues, ← hfilter]
  refine ((perm_insertionSort _ _).map _).trans (Perm.map _ ?_)
  exact (perm_insertionSort _ _).filterMap _

theorem gcFindCandidates_eq {target : Nat} (hpos : 0 < target) : st.gcFindCandidates options clock target =
    match (markUntil (fun _ => false) 0 target (st.furthestChunks options)).2 with
    | none => (markUntil (fun _ => false) 0 target (st.furthestChunks options)).1
    | some remaining => (markUntil (fun _ => false) 0 target (st.furthestChunks options)).1 ++
        (markUntil clock.markExhausted 0 remaining (st.chunksInPriorityOrder options)).1 := by
  unfold gcFindCandidates furthestChunks
  rw [if_neg hpos.ne']
  cases options.furthestFrom with
  | none => rfl
  | some cursor => rfl

theorem gcFindCandidates_unlimited (hmark : ∀ n, clock.markExhausted n = false) {target : Nat} (hpos : 0 < target) :
    (target ≤ bytes (st.gcFindCandidates options clock target) ∧
        ∃ rest, st.furthestChunks options = st.gcFindCandidates options clock target ++ rest) ∨
      ∃ p rest, st.gcFindCandidates options clock target = st.furthestChunks options ++ p ∧
        st.chunksInPriorityOrder options = p ++ rest ∧
        (rest = [] ∨ target ≤ bytes (st.furthestChunks options) + bytes p) ∧
        ∀ q rest', st.chunksInPriorityOrder options = q ++ rest' →
          rest' = [] ∨ target ≤ bytes (st.furthestChunks options) + bytes q → p ⊆ q := by
  rw [gcFindCandidates_eq hpos]
  rcases @markUntil_spec (fun _ => false) (fun _ => rfl) (st.furthestChunks options) 0 target hpos with
    ⟨hnone, hreach, hrest, -⟩ | ⟨hall, hlt, hsome⟩
  · rw [hnone]
    exact .inl ⟨hreach, hrest⟩
  · rw [hsome, hall]
    refine .inr ?_
    have hrow := @markUntil_spec clock.markExhausted hmark (st.chunksInPriorityOrder options) 0
      (target - bytes (st.furthestChunks options)) (by omega)
    rcases hrow with ⟨-, hreach, ⟨rest, hrest⟩, hleast⟩ | ⟨hall', hlt', -⟩
    · refine ⟨_, rest, rfl, hrest, .inr (by omega), fun q rest' hq hor => ?_⟩
      rcases hor with rfl | hor
      · rw [append_nil] at hq
        rw [← hq]
        exact fun c hc => hrest ▸ mem_append_left _ hc
      · exact hleast q rest' hq (by omega)
    · refine ⟨st.chunksInPriorityOrder options, [], congrArg _ hall', (append_nil _).symm, .inl rfl, fun q rest' hq hor => ?_⟩
      rcases hor with rfl | hor
      · rw [append_nil] at hq
        rw [hq]
        exact Subset.refl q
      · -- no part of what does not reach the target reaches it
        have hbytes := congrArg bytes hq
        rw [bytes_append] at hbytes
        omega

/-! ## The sweep phase -/

theorem gc_isPhysical_iff (hv : st.catalog.Sound) (hsweep : ∀ n, clock.sweepExhausted n = false) {c : Chunk}
    (hc : st.physical c.id = some c) :
    (st.gc options clock).1.IsPhysical c.id ↔ c ∉ st.gcMarked options clock := by
  have hphysical : (st.gc options clock).1.IsPhysical c.id ↔
      ((st.gc options clock).1.catalog.chunks c.id).isSome := Iff.rfl
  rw [hphysical]
  constructor
  · intro hsome hmarked
    have h₁ := gcPlan_removes hv options clock
    have hsound := hv.removes h₁.removes
    have hgone : (st.gc options clock).1.catalog.chunks c.id = none := by
      rw [gc_eq]
      rcases mem_gcPlan.mpr hmarked with hshallow | hdeep
      · have hnone := @removeShallowLoop_absent (some clock.sweepExhausted) hsweep .garbageCollection _ 0 st hv c hshallow
        exact (removeChunksDeep_removes hsound (st.gcPlan options clock).2 _).removes.absent hnone
      · rw [removeChunksDeep_physical]
        exact removeShallowLoop_absent (fun _ => rfl) .garbageCollection hsound c hdeep
    rw [hgone] at hsome
    cases hsome
  · intro hunmarked
    have hspared : ¬ st.GcMarks options clock c.id := by
      intro ⟨d, hd, hid⟩
      have hphys := gcFindCandidates_physical hv (mem_gcPlan.mp hd)
      rw [hid, hc] at hphys
      exact hunmarked (Option.some.inj hphys ▸ mem_gcPlan.mp hd)
    rw [(gc_spares hv options clock c.id hspared).1]
    exact Option.isSome_of_eq_some hc

/-! ## What a collection drops -/

/-- The chunks that a collection may drop, with nothing to protect them. -/
structure Unprotected (st : ChunkStore) (options : GarbageCollectionOptions) (c : Chunk) : Prop where
  physical : st.physical c.id = some c
  temporal : c.isStatic = false
  notProtected : options.isChunkProtected c = false
  notLatest : c.id ∉ st.findAllProtectedPhysicalChunkIds options.protectLatest

def numBytesToDrop (st : ChunkStore) (options : GarbageCollectionOptions) : Nat :=
  options.target.targetBytesFromSize
    (st.staticChunksStats + st.temporalPhysicalChunksStats).totalSizeBytes.toNat

/-- The physical chunks that a collection drops are of the target's bytes, or no unprotected one is left. -/
def ReachesTarget (st : ChunkStore) (options : GarbageCollectionOptions) (clock : GcClock) : Prop :=
  st.numBytesToDrop options ≤
      bytes (st.physicalChunks.filter fun c => !decide ((st.gc options clock).1.IsPhysical c.id)) ∨
    ∀ c, st.Unprotected options c → ¬ (st.gc options clock).1.IsPhysical c.id

/-- The physical chunks among some, each of them once. -/
def once (st : ChunkStore) (cs : List Chunk) : List Chunk :=
  st.physicalChunks.filter fun c => (cs.map (·.id)).contains c.id

/-- No chunk counted twice makes the difference: where the chunks on the timeline of the cursor and then
those in RowId order are of the target's bytes, each of them once is, or nothing unprotected is left. -/
def CountsOnce (st : ChunkStore) (options : GarbageCollectionOptions) : Prop :=
  ∀ p rest, st.chunksInPriorityOrder options = p ++ rest →
    rest = [] ∨ st.numBytesToDrop options ≤ bytes (st.cursorChunks options) + bytes p →
    st.numBytesToDrop options ≤ bytes (st.once (st.cursorChunks options ++ p)) ∨
      ∀ c, st.Unprotected options c → c ∈ st.cursorChunks options ++ p

theorem mem_once (hv : st.catalog.Sound) (hcs : ∀ c ∈ cs, st.physical c.id = some c) {c : Chunk} :
    c ∈ st.once cs ↔ c ∈ cs := by
  unfold once
  rw [mem_filter, contains_iff_mem, mem_physicalChunks hv]
  constructor
  · intro ⟨hc, hid⟩
    obtain ⟨d, hd, heq⟩ := mem_map.mp hid
    have hphys := hcs d hd
    rw [heq, hc] at hphys
    exact Option.some.inj hphys ▸ hd
  · exact fun hc => ⟨hcs c hc, mem_map_of_mem hc⟩

theorem bytes_once_mono (h : cs ⊆ ds) : bytes (st.once cs) ≤ bytes (st.once ds) := by
  have hsublist : (st.once cs).Sublist (st.once ds) := by
    refine monotone_filter_right _ fun c hc => ?_
    obtain ⟨d, hd, heq⟩ := mem_map.mp (contains_iff_mem.mp hc)
    exact contains_iff_mem.mpr (mem_map.mpr ⟨d, h hd, heq⟩)
  exact (hsublist.map _).sum_le_sum fun _ _ => Nat.zero_le _

theorem bytes_once (hv : st.catalog.Sound) (hcs : ∀ c ∈ cs, st.physical c.id = some c)
    (hnodup : cs.Nodup) : bytes (st.once cs) = bytes cs := by
  have hphysical : st.physicalChunks.Nodup := (physicalChunks_ids_nodup hv).of_map _
  exact bytes_perm ((perm_ext_iff_of_nodup (hphysical.filter _) hnodup).mpr fun _ => mem_once hv hcs)

theorem furthestChunks_perm (st : ChunkStore) (options : GarbageCollectionOptions) :
    (st.furthestChunks options).Perm (st.cursorChunks options) := by
  unfold furthestChunks cursorChunks
  cases options.furthestFrom with
  | none => exact .refl _
  | some cursor =>
    have hperm := (findTemporalChunksFurthestFrom_perm st cursor.1 cursor.2).filter fun c =>
      !options.isChunkProtected c
    rw [filter_filter] at hperm
    refine hperm.trans (Perm.of_eq (filter_congr fun c _ => ?_))
    exact Bool.and_comm _ _

theorem cursorChunks_nodup (hv : st.catalog.Sound) : (st.cursorChunks options).Nodup := by
  have hphysical : st.physicalChunks.Nodup := (physicalChunks_ids_nodup hv).of_map _
  unfold cursorChunks
  split
  · exact nodup_nil
  · exact hphysical.filter _

theorem dropped_eq_once (hv : st.catalog.Sound) (hsweep : ∀ n, clock.sweepExhausted n = false) :
    (st.physicalChunks.filter fun c => !decide ((st.gc options clock).1.IsPhysical c.id)) =
      st.once (st.gcMarked options clock) := by
  refine filter_congr fun c hc => ?_
  rw [mem_physicalChunks hv] at hc
  have hmarked : ∀ d ∈ st.gcMarked options clock, st.physical d.id = some d := fun d hd =>
    gcFindCandidates_physical hv hd
  have honce := mem_once hv hmarked (c := c)
  unfold once at honce
  rw [mem_filter, mem_physicalChunks hv, and_iff_right hc] at honce
  rw [Bool.eq_iff_iff, honce, Bool.not_eq_true', decide_eq_false_iff_not, gc_isPhysical_iff hv hsweep hc, not_not]

/-- With unlimited time, a collection of a reachable store reaches its target, or leaves nothing
unprotected, exactly if it does so counting every chunk once. -/
theorem gc_reachesTarget_iff (hst : Reachable (fun _ _ => True) st) (options : GarbageCollectionOptions)
    (hmark : ∀ n, clock.markExhausted n = false) (hsweep : ∀ n, clock.sweepExhausted n = false) :
    st.ReachesTarget options clock ↔ st.CountsOnce options := by
  have hv := hst.sound
  have hmarked : ∀ d ∈ st.gcMarked options clock, st.physical d.id = some d := fun d hd =>
    gcFindCandidates_physical hv hd
  have hfurthest := furthestChunks_perm st options
  have hreaches : st.ReachesTarget options clock ↔
      st.numBytesToDrop options ≤ bytes (st.once (st.gcMarked options clock)) ∨
        ∀ c, st.Unprotected options c → c ∈ st.gcMarked options clock := by
    unfold ReachesTarget
    rw [dropped_eq_once hv hsweep]
    refine or_congr Iff.rfl (forall_congr' fun c => forall_congr' fun hc => ?_)
    rw [gc_isPhysical_iff hv hsweep hc.physical, not_not]
  rw [hreaches]
  rcases Nat.eq_zero_or_pos (st.numBytesToDrop options) with hzero | hpos
  · have hnone : ∀ n, st.numBytesToDrop options ≤ n := fun n => hzero ▸ Nat.zero_le n
    exact ⟨fun _ _ _ _ _ => .inl (hnone _), fun _ => .inl (hnone _)⟩
  · rcases gcFindCandidates_unlimited hmark hpos with ⟨hreach, rest, hrest⟩ | ⟨p, rest, hfound, hrow, hstop, hleast⟩
    · -- the first pass is enough: it counts no chunk twice
      have hsub : st.gcMarked options clock ⊆ st.cursorChunks options := fun c hc =>
        hfurthest.mem_iff.mp (hrest ▸ mem_append_left _ hc)
      have hnodup : (st.gcMarked options clock).Nodup := by
        have hall := (hfurthest.nodup_iff).mpr (cursorChunks_nodup hv)
        rw [hrest] at hall
        exact hall.of_append_left
      have henough : st.numBytesToDrop options ≤ bytes (st.once (st.gcMarked options clock)) :=
        (bytes_once hv hmarked hnodup).symm ▸ hreach
      refine ⟨fun _ q rest' _ _ => .inl (henough.trans (bytes_once_mono fun c hc => ?_)), fun _ => .inl henough⟩
      exact mem_append_left _ (hsub hc)
    · have hmem : ∀ {q c}, c ∈ st.furthestChunks options ++ q ↔ c ∈ st.cursorChunks options ++ q := by
        intro q c
        rw [mem_append, mem_append, hfurthest.mem_iff]
      have hfound' : st.gcMarked options clock = st.furthestChunks options ++ p := hfound
      rw [bytes_perm hfurthest] at hstop hleast
      rw [hfound']
      constructor
      · intro h q rest' hq hor
        have hpq : st.furthestChunks options ++ p ⊆ st.cursorChunks options ++ q := by
          intro c hc
          rcases mem_append.mp (hmem.mp hc) with hc | hc
          · exact mem_append_left _ hc
          · exact mem_append_right _ (hleast q rest' hq hor hc)
        exact h.imp (fun hle => hle.trans (bytes_once_mono hpq)) fun hall c hc => hpq (hall c hc)
      · intro h
        have hsub : st.cursorChunks options ++ p ⊆ st.furthestChunks options ++ p := fun _ hc => hmem.mpr hc
        exact (h p rest hrow hstop).imp (fun hle => hle.trans (bytes_once_mono hsub)) fun hall c hc => hsub (hall c hc)

def unlimitedClock : GcClock := ⟨fun _ => false, fun _ => false⟩

def timelineChunk (id : ChunkId) (rowId : RowId) (timeline : TimelineName) (sizeBytes : Nat) : Chunk :=
  .ofColumns id ⟨["robot"]⟩ sizeBytes [rowId] [(timeline, [0].map I64.sat)] [(⟨"position"⟩, [some []])]

def twoTimelinesStore : ChunkStore :=
  (Op.insertChunk (.countingFrom 100) ⟨timelineChunk 2 2 ⟨"log"⟩ 100, rfl⟩).run
    ((Op.insertChunk (.countingFrom 100) ⟨timelineChunk 1 1 ⟨"frame"⟩ 100, rfl⟩).run (.new ⟨0, 0, 0⟩))

def dropFurthest : GarbageCollectionOptions :=
  ⟨.dropAtLeastBytes 150, 0, ∅, [], some (⟨"frame"⟩, ⟨.sat 0⟩), true⟩

theorem twoTimelinesStore_reachable : Reachable (fun _ _ => True) twoTimelinesStore :=
  .step (.step (.new _) fresh_countingFrom trivial)
    fresh_countingFrom trivial

/-- The first chunk is counted by both passes: 100 bytes are dropped, and the second chunk stays. -/
theorem twoTimelinesStore_not_reachesTarget :
    Reachable (fun _ _ => True) twoTimelinesStore ∧ twoTimelinesStore.numBytesToDrop dropFurthest = 150 ∧
      (twoTimelinesStore.gc dropFurthest unlimitedClock).1.physical 1 = none ∧
      (twoTimelinesStore.gc dropFurthest unlimitedClock).1.physical 2 = some (timelineChunk 2 2 ⟨"log"⟩ 100) ∧
      ¬ twoTimelinesStore.ReachesTarget dropFurthest unlimitedClock := by
  have hstays : (twoTimelinesStore.gc dropFurthest unlimitedClock).1.physical 2 =
      some (timelineChunk 2 2 ⟨"log"⟩ 100) := rfl
  have hbytes : bytes (twoTimelinesStore.physicalChunks.filter fun c =>
      !decide ((twoTimelinesStore.gc dropFurthest unlimitedClock).1.IsPhysical c.id)) = 100 := rfl
  refine ⟨twoTimelinesStore_reachable, rfl, rfl, hstays, ?_⟩
  rintro (hreach | hnone)
  · rw [hbytes] at hreach
    exact absurd hreach (by decide)
  · refine hnone (timelineChunk 2 2 ⟨"log"⟩ 100) ⟨rfl, rfl, rfl, by decide⟩ ?_
    exact Option.isSome_iff_exists.mpr ⟨_, hstays⟩

/-- Both sides fail there. -/
theorem twoTimelinesStore_reachesTarget_iff :
    twoTimelinesStore.ReachesTarget dropFurthest unlimitedClock ↔ twoTimelinesStore.CountsOnce dropFurthest :=
  gc_reachesTarget_iff twoTimelinesStore_reachable dropFurthest (fun _ => rfl) fun _ => rfl

end ChunkStore

end Dalaran
