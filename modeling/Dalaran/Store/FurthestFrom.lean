import Dalaran.Base.Scan
import Dalaran.Store.GcTarget

/-
  The chunks furthest from a time cursor, and the slow way to find them.

  The distance of a chunk is that of its closest time. Along a sorted column the
  distance falls up to the cursor and rises after it, so the two neighbours of the
  cursor are enough (`minDistance_eq`). The reference goes through all times, raw
  where the store reads temporal ones; a chunk that passes its check has no static
  time in a column.
-/

namespace Dalaran

namespace ChunkStore

variable {st : ChunkStore}

/-- The distance of the closest time of a column, whatever its order. -/
def minDistanceSlow (tc : TimeColumn) (time : TimeInt) : Option Nat :=
  (tc.times.map fun t => (TimeInt.newTemporal t).asI64.absDiff time.asI64).min?

/-- The physical chunks on a timeline, the furthest from the cursor first. -/
def findTemporalChunksFurthestFromSlow (st : ChunkStore) (timeline : TimelineName) (time : TimeInt) : List Chunk :=
  let byId := (Assoc.toList st.physicalChunksPerChunkId).insertionSort fun a b => a.1 ≤ b.1
  let distances := byId.filterMap fun e =>
    (e.2.timelines.lookup timeline).bind fun tc => (minDistanceSlow tc time).map fun d => (e.2, d)
  (distances.insertionSort fun a b => b.2 ≤ a.2).map (·.1)

/-! ## The closest time -/

theorem absDiff_falls {a b cursor : I64} (hab : a ≤ b) (hb : b < cursor) : b.absDiff cursor ≤ a.absDiff cursor := by
  have hle := I64.le_def.mp hab
  have hlt := I64.lt_def.mp hb
  simp only [I64.absDiff]
  omega

theorem absDiff_rises {a b cursor : I64} (hab : a ≤ b) (ha : ¬ a < cursor) :
    a.absDiff cursor ≤ b.absDiff cursor := by
  have hle := I64.le_def.mp hab
  have hnot : ¬ a.val < cursor.val := fun h => ha (I64.lt_def.mpr h)
  simp only [I64.absDiff]
  omega

theorem minDistance_eq {tc : TimeColumn} (hwf : tc.WellFormed) (time : TimeInt) :
    minDistance tc time = minDistanceSlow tc time := by
  have htemporal : (tc.times.map fun t => (TimeInt.newTemporal t).asI64.absDiff time.asI64) =
      tc.times.map fun t => t.absDiff time.asI64 := by
    apply List.map_congr_left
    intro t ht
    rw [TimeInt.newTemporal_of_ne (hwf.temporal t ht)]
  unfold minDistance minDistanceSlow
  rw [htemporal]
  split
  · rename_i hsorted
    have hasc : tc.times.Pairwise (· ≤ ·) := by
      apply Seq.ascending_iff.mp
      rw [← hwf.isSorted_eq, hsorted]
    apply Seq.min?_valley
    · apply hasc.imp
      intro a b hab hb
      exact decide_eq_true (hab.trans_lt (of_decide_eq_true hb))
    · apply hasc.imp
      intro a b hab hb
      exact absDiff_falls hab (of_decide_eq_true hb)
    · apply hasc.imp
      intro a b hab ha
      exact absDiff_rises hab (of_decide_eq_false ha)
  · rfl

/-! ## The order of the chunks -/

theorem furthestFrom_eq_of_wellFormed (hwf : ∀ id c, st.physical id = some c → c.WellFormed)
    (timeline : TimelineName) (time : TimeInt) :
    st.findTemporalChunksFurthestFrom timeline time = st.findTemporalChunksFurthestFromSlow timeline time := by
  unfold findTemporalChunksFurthestFrom findTemporalChunksFurthestFromSlow
  simp only
  congr 2
  apply List.filterMap_congr
  intro e he
  have hmem : e ∈ Assoc.toList st.physicalChunksPerChunkId := (List.perm_insertionSort _ _).mem_iff.mp he
  have hc : st.physical e.1 = some e.2 := Assoc.mem_toList.mp hmem
  cases htc : e.2.timelines.lookup timeline with
  | none => rfl
  | some tc =>
    rw [Option.bind_some, Option.bind_some, minDistance_eq ((hwf e.1 e.2 hc).times_wf timeline tc htc)]

/-- In every reachable store, the chunks come in the order of the reference, each physical chunk with a
time on the timeline once. -/
theorem findTemporalChunksFurthestFrom_eq_slow (hst : Reachable (fun _ _ => True) st)
    (timeline : TimelineName) (time : TimeInt) :
    st.findTemporalChunksFurthestFrom timeline time = st.findTemporalChunksFurthestFromSlow timeline time ∧
      (st.findTemporalChunksFurthestFrom timeline time).Perm
        (st.physicalChunks.filter fun c => (c.timelines.lookup timeline).any fun tc => !tc.times.isEmpty) := by
  constructor
  · apply furthestFrom_eq_of_wellFormed
    intro id c hc
    exact (hst.sound.chunk id c hc).wf
  · exact findTemporalChunksFurthestFrom_perm st timeline time

/-- From time 10 the four chunks are 30, 10, 4 and 2 away. -/
theorem findTemporalChunksFurthestFrom_eq_slow_scattered :
    (scatteredStore.findTemporalChunksFurthestFrom ⟨"frame"⟩ ⟨.sat 10⟩ =
        scatteredStore.findTemporalChunksFurthestFromSlow ⟨"frame"⟩ ⟨.sat 10⟩ ∧
      (scatteredStore.findTemporalChunksFurthestFrom ⟨"frame"⟩ ⟨.sat 10⟩).Perm
        (scatteredStore.physicalChunks.filter fun c =>
          (c.timelines.lookup ⟨"frame"⟩).any fun tc => !tc.times.isEmpty)) ∧
    (scatteredStore.findTemporalChunksFurthestFrom ⟨"frame"⟩ ⟨.sat 10⟩).map (·.id) = [4, 1, 2, 3] :=
  ⟨findTemporalChunksFurthestFrom_eq_slow scatteredStore_reachable ⟨"frame"⟩ ⟨.sat 10⟩, by decide⟩

end ChunkStore

end Dalaran
