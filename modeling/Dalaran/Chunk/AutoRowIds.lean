import Dalaran.Base.Comparing
import Dalaran.Chunk.Merge
import Mathlib.Data.List.Iterate

/-
  Chunks whose row ids are made up (`Chunk::from_auto_row_ids`).

  The rows are sorted by their times on one timeline after the other, and get row
  ids that count up from the id of the chunk. The sort comes first and the checks of
  `Chunk::new` second, so where a timeline is too short for a row that has to be
  compared on it, the call panics before the lengths are checked. Any stable sort
  does (`Base/Comparing`).

  Row ids are counted in the low half of a TUID, which wraps. A debug build notices
  that they do not ascend, a release build does not: its checks are of lengths only.

  Correspondence (Rust ↔ Lean):
    `Chunk::sanity_check` in debug and release builds ↔ `Chunk.sanityCheckIn`
    `slice::sort_by` ↔ any `StableSort`; its comparison ↔ `lexCompare`
    `Chunk::from_auto_row_ids` ↔ `Chunk.fromAutoRowIds`; `none` is a panic
-/

namespace Dalaran

open List Option Assoc

/-! ## Row ids -/

/-- The next TUID. The low half wraps. -/
def Tuid.next (tuid : Nat) : Nat := tuid / 2 ^ 64 * 2 ^ 64 + (tuid % 2 ^ 64 + 1) % 2 ^ 64

def autoRowIds (id count : Nat) : List RowId :=
  (List.iterate Tuid.next (Tuid.next id) count).map (Fin.ofNat (2 ^ 128))

/-- The low half does not wrap between two of the row ids. -/
def HasRoom (id count : Nat) : Prop := (id + 1) % 2 ^ 64 + count ≤ 2 ^ 64

theorem tuid_iterate_next (tuid n : Nat) :
    Tuid.next^[n] tuid = tuid / 2 ^ 64 * 2 ^ 64 + (tuid % 2 ^ 64 + n) % 2 ^ 64 := by
  induction n with
  | zero =>
    rw [Function.iterate_zero, id_eq]
    omega
  | succ n ih =>
    rw [Function.iterate_succ_apply', ih, Tuid.next]
    omega

@[simp] theorem autoRowIds_length (id count : Nat) : (autoRowIds id count).length = count := by
  rw [autoRowIds, length_map, length_iterate]

theorem autoRowIds_val (id : Nat) {count i : Nat} (hi : i < (autoRowIds id count).length) :
    ((autoRowIds id count)[i]).val = id / 2 ^ 64 % 2 ^ 64 * 2 ^ 64 + ((id + 1) % 2 ^ 64 + i) % 2 ^ 64 := by
  have hget : (autoRowIds id count)[i] = Fin.ofNat (2 ^ 128) (Tuid.next^[i] (Tuid.next id)) := by
    simp [autoRowIds]
  rw [hget, Fin.val_ofNat, ← Function.iterate_succ_apply, tuid_iterate_next]
  omega

theorem autoRowIds_increase_iff (id count : Nat) : (autoRowIds id count).Pairwise (· < ·) ↔ HasRoom id count := by
  rw [pairwise_iff_getElem]
  unfold HasRoom
  constructor
  · intro h
    by_contra hwraps
    -- the low half wraps between two neighbours
    have hi : 2 ^ 64 - 1 - (id + 1) % 2 ^ 64 < (autoRowIds id count).length := by
      rw [autoRowIds_length]
      omega
    have hj : 2 ^ 64 - (id + 1) % 2 ^ 64 < (autoRowIds id count).length := by
      rw [autoRowIds_length]
      omega
    have hlt : ((autoRowIds id count)[2 ^ 64 - 1 - (id + 1) % 2 ^ 64]).val <
        ((autoRowIds id count)[2 ^ 64 - (id + 1) % 2 ^ 64]).val := h _ _ hi hj (by omega)
    rw [autoRowIds_val, autoRowIds_val] at hlt
    omega
  · intro hroom i j hi hj hij
    rw [autoRowIds_length] at hi hj
    show ((autoRowIds id count)[i]).val < ((autoRowIds id count)[j]).val
    rw [autoRowIds_val, autoRowIds_val]
    omega

/-! ## The constructor -/

namespace Chunk

/-- The checks that a release build makes. -/
def checkLengths (c : Chunk) : Except ChunkError Unit := do
  (Assoc.toList c.timelines).forM fun entry =>
    if entry.2.times.length ≠ c.numRows then
      .error (.malformed (.timelineLength entry.1 c.numRows entry.2.times.length))
    else .ok ()
  (Assoc.toList c.components).forM c.checkComponent

def sanityCheckIn (debugAssertions : Bool) (c : Chunk) : Except ChunkError Unit :=
  if debugAssertions then c.sanityCheck else c.checkLengths

/-- The number of rows of the first component column. -/
def rowCount (components : ChunkComponents) : Nat :=
  (Assoc.values components).head?.elim 0 fun column => column.listArray.len

def timesInNameOrder (timelines : Assoc TimelineName TimeColumn) : List (List I64) :=
  (timelines.keys.mergeSort fun a b => decide (a.name ≤ b.name)).filterMap fun name =>
    (timelines.lookup name).map (·.times)

def withAutoRowIds (env : Env) (id : ChunkId) (entityPath : EntityPath) (timelines : Assoc TimelineName TimeColumn)
    (components : ChunkComponents) : Chunk where
  id := id
  entityPath := entityPath
  sizeBytes := env.sizeBytes id
  isSorted := true
  rowIds := autoRowIds id (rowCount components)
  timelines := timelines
  components := components

/-- The chunk with its rows moved, and row ids that count up from its new id. -/
def shuffledWith (env : Env) (k : Nat) (chunk : Chunk) (count : Nat) (swaps : List Nat) : Chunk :=
  { chunk.shuffleWith (env.newId k) (env.sizeBytes (env.newId k)) swaps with
    rowIds := autoRowIds (env.newId k) count
    isSorted := true }

/-- A chunk out of columns: its rows are put in the order of their times. -/
def fromAutoRowIds (debugAssertions : Bool) (sort : StableSort) (env : Env) (k : Nat) (id : ChunkId)
    (entityPath : EntityPath) (timelines : Assoc TimelineName TimeColumn) (components : ChunkComponents) :
    Option (Except ChunkError Chunk) :=
  ((sort.sort (rowCount components)).run (lexCompare (timesInNameOrder timelines))).bind fun swaps =>
    let chunk := withAutoRowIds env id entityPath timelines components
    match chunk.sanityCheckIn debugAssertions with
    | .error e => some (.error e)
    | .ok () =>
      if swaps.zipIdx.all fun e => e.2 == e.1 then some (.ok chunk)
      else
        let shuffled := shuffledWith env k chunk (rowCount components) swaps
        -- debug builds check the result once more
        if debugAssertions then
          match shuffled.sanityCheck with
          | .ok () => some (.ok shuffled)
          | .error _ => none
        else some (.ok shuffled)

/-! ## What it promises -/

/-- All columns have as many rows as the first component column. -/
def LengthsAgree (timelines : Assoc TimelineName TimeColumn) (components : ChunkComponents) : Prop :=
  (∀ name tc, timelines.lookup name = some tc → tc.times.length = rowCount components) ∧
    ∀ component column, components.lookup component = some column → column.listArray.len = rowCount components

/-- The rows are in the order of their times on one timeline after the other, and in the order they were in
where all of these are equal. -/
def InStableOrder (timelines : Assoc TimelineName TimeColumn) (order : List Nat) : Prop :=
  order.Pairwise fun a b => lexCompare (timesInNameOrder timelines) a b = some .lt ∨
    lexCompare (timesInNameOrder timelines) a b = some .eq ∧ a < b

structure HasRowsOf (chunk : Chunk) (entityPath : EntityPath) (timelines : Assoc TimelineName TimeColumn)
    (components : ChunkComponents) (order : List Nat) : Prop where
  entityPath : chunk.entityPath = entityPath
  numRows : chunk.numRows = rowCount components
  rowIds : chunk.rowIds.Pairwise (· < ·)
  times : ∀ name, (chunk.timelines.lookup name).map (·.times) =
    (timelines.lookup name).map fun tc => Seq.permute tc.times order
  cells : ∀ component, (chunk.components.lookup component).map (·.listArray.cells) =
    (components.lookup component).map fun column => Seq.permute column.listArray.cells order

/-- The call does not panic. It returns an error where lengths do not agree, and a chunk it returns has the rows
in the order of their times, with row ids that increase. -/
def AutoRowIdsRight (result : Option (Except ChunkError Chunk)) (entityPath : EntityPath)
    (timelines : Assoc TimelineName TimeColumn) (components : ChunkComponents) : Prop :=
  ∃ returned, result = some returned ∧ (¬LengthsAgree timelines components → ∃ e, returned = .error e) ∧
    ∀ chunk, returned = .ok chunk → ∃ order, order.Perm (List.range (rowCount components)) ∧
      InStableOrder timelines order ∧ HasRowsOf chunk entityPath timelines components order

/-- Every two rows can be compared: no timeline is too short for one of them that does not differ from the other
on the timelines before. -/
def Comparable (timelines : Assoc TimelineName TimeColumn) (components : ChunkComponents) : Prop :=
  ∀ a < rowCount components, ∀ b < rowCount components, a ≠ b → (lexCompare (timesInNameOrder timelines) a b).isSome

def InOrder (timelines : Assoc TimelineName TimeColumn) (components : ChunkComponents) : Prop :=
  ∀ a b, a < b → b < rowCount components → lexCompare (timesInNameOrder timelines) a b ≠ some .gt

variable {env : Env} {k : Nat} {id : ChunkId} {entityPath : EntityPath} {timelines : Assoc TimelineName TimeColumn}
  {components : ChunkComponents} {order : List Nat}

/-! ## The checks -/

theorem checkLengths_iff {c : Chunk} : c.checkLengths = .ok () ↔
    (∀ name tc, c.timelines.lookup name = some tc → tc.times.length = c.numRows) ∧
      ∀ component column, c.components.lookup component = some column → column.listArray.len = c.numRows := by
  have hbind : ∀ x y : Except ChunkError Unit, (x >>= fun _ => y) = .ok () ↔ x = .ok () ∧ y = .ok () := by
    intro x y
    cases x <;> simp [bind, Except.bind]
  unfold checkLengths
  rw [hbind, forM_ok_iff, forM_ok_iff]
  constructor
  · intro h
    refine ⟨?_, ?_⟩
    · intro name tc htc
      have hcheck := h.1 (name, tc) (mem_toList.mpr htc)
      by_contra hlen
      rw [if_pos hlen] at hcheck
      cases hcheck
    · intro component column hcol
      exact checkComponent_iff.mp (h.2 (component, column) (mem_toList.mpr hcol))
  · intro h
    refine ⟨?_, ?_⟩
    · intro entry hentry
      exact if_neg (not_not.mpr (h.1 entry.1 entry.2 (mem_toList.mp hentry)))
    · intro entry hentry
      exact checkComponent_iff.mpr (h.2 entry.1 entry.2 (mem_toList.mp hentry))

theorem lengthsAgree_of_check {debugAssertions : Bool}
    (h : (withAutoRowIds env id entityPath timelines components).sanityCheckIn debugAssertions = .ok ()) :
    LengthsAgree timelines components := by
  have hrows : (withAutoRowIds env id entityPath timelines components).numRows = rowCount components :=
    autoRowIds_length _ _
  cases debugAssertions with
  | true =>
    have hwf := sanityCheck_iff.mp h
    refine ⟨fun name tc htc => ?_, fun component column hcol => ?_⟩
    · rw [← hrows, ← hwf.times_length name tc htc]
    · rw [← hrows, ← hwf.cells_length component column hcol]
  | false =>
    have hlen := checkLengths_iff.mp h
    rw [hrows] at hlen
    exact hlen

/-! ## The order -/

theorem zipIdx_all_iff (hperm : order.Perm (List.range (rowCount components))) :
    (order.zipIdx.all fun e => e.2 == e.1) = true ↔ order = List.range (rowCount components) := by
  rw [List.all_eq_true]
  constructor
  · intro h
    apply ext_getElem
    · exact hperm.length_eq
    · intro i hi hi'
      have hmem : (order[i], i) ∈ order.zipIdx := by
        apply mem_iff_getElem?.mpr
        exact ⟨i, by simp [hi]⟩
      have heq : i = order[i] := by simpa using h _ hmem
      rw [getElem_range, ← heq]
  · intro h e he
    rw [h] at he
    obtain ⟨i, hi⟩ := mem_iff_getElem?.mp he
    rw [List.getElem?_zipIdx] at hi
    obtain ⟨a, ha, rfl⟩ := map_eq_some_iff.mp hi
    obtain ⟨hlt, rfl⟩ := List.getElem?_eq_some_iff.mp ha
    simp

theorem order_eq_range_iff (hperm : order.Perm (List.range (rowCount components)))
    (hsorted : InStableOrder timelines order) : order = List.range (rowCount components) ↔ InOrder timelines components := by
  constructor
  · intro h a b hab hb hgt
    rw [h] at hsorted
    have hpair := pairwise_iff_getElem.mp hsorted a b (by rw [length_range]; omega)
      (by rw [length_range]; omega) hab
    rw [getElem_range, getElem_range, hgt] at hpair
    simp at hpair
  · intro h
    have hlt : order.Pairwise (· < ·) := by
      have hnodup : order.Nodup := hperm.nodup_iff.mpr nodup_range
      apply (hsorted.and hnodup).imp_of_mem
      intro a b ha hb hab
      obtain ⟨hlt | hlt, hne⟩ := hab
      · by_contra hnot
        have hba : b < a := by omega
        exact h b a hba (mem_range.mp (hperm.mem_iff.mp ha)) (lexCompare_swap hlt)
      · exact hlt.2
    exact hperm.eq_of_pairwise (fun a b _ _ hab hba => absurd (hab.trans hba) (lt_irrefl a)) hlt
      pairwise_lt_range

/-! ## When it is right -/

theorem hasRowsOf_unmoved (hlengths : LengthsAgree timelines components)
    (hroom : HasRoom id (rowCount components)) :
    HasRowsOf (withAutoRowIds env id entityPath timelines components) entityPath timelines components
      (List.range (rowCount components)) := by
  refine ⟨rfl, autoRowIds_length _ _, (autoRowIds_increase_iff _ _).mpr hroom, ?_, ?_⟩
  · intro name
    show (timelines.lookup name).map _ = _
    cases htc : timelines.lookup name with
    | none => rfl
    | some tc => rw [map_some, map_some, ← hlengths.1 name tc htc, Seq.permute_range]
  · intro component
    show (components.lookup component).map _ = _
    cases hcol : components.lookup component with
    | none => rfl
    | some column =>
      rw [map_some, map_some, ← hlengths.2 component column hcol, ← ListArray.cells_length, Seq.permute_range]

theorem hasRowsOf_shuffled (hroom : HasRoom (env.newId k) (rowCount components)) :
    HasRowsOf (shuffledWith env k (withAutoRowIds env id entityPath timelines components) (rowCount components) order)
      entityPath timelines components order := by
  refine ⟨rfl, autoRowIds_length _ _, (autoRowIds_increase_iff _ _).mpr hroom, ?_, ?_⟩
  · intro name
    show (((withAutoRowIds env id entityPath timelines components).shuffleWith (env.newId k)
      (env.sizeBytes (env.newId k)) order).timelines.lookup name).map _ = _
    rw [shuffleWith, lookup_map, Option.map_map]
    rfl
  · intro component
    show (((withAutoRowIds env id entityPath timelines components).shuffleWith (env.newId k)
      (env.sizeBytes (env.newId k)) order).components.lookup component).map _ = _
    rw [shuffleWith, lookup_map, Option.map_map]
    show (components.lookup component).map _ = _
    congr 1
    funext column
    exact ListArray.shuffle_cells _ _

theorem shuffledWith_sane (hperm : order.Perm (List.range (rowCount components)))
    (hsane : (withAutoRowIds env id entityPath timelines components).sanityCheck = .ok ())
    (hroom : HasRoom (env.newId k) (rowCount components)) :
    (shuffledWith env k (withAutoRowIds env id entityPath timelines components) (rowCount components)
      order).sanityCheck = .ok () := by
  have hrows : (withAutoRowIds env id entityPath timelines components).numRows = rowCount components :=
    autoRowIds_length _ _
  have hperm' : order.Perm (List.range (withAutoRowIds env id entityPath timelines components).numRows) := by
    rwa [hrows]
  have hwf := shuffleWith_wf (sanityCheck_iff.mp hsane) hperm' (env.newId k) (env.sizeBytes (env.newId k))
  have hlen : ((withAutoRowIds env id entityPath timelines components).shuffleWith (env.newId k)
      (env.sizeBytes (env.newId k)) order).numRows = rowCount components :=
    (Seq.permute_perm hperm').length_eq.trans hrows
  have hlen' : (shuffledWith env k (withAutoRowIds env id entityPath timelines components) (rowCount components)
      order).numRows = rowCount components := autoRowIds_length _ _
  apply sanityCheck_iff.mpr
  refine ⟨?_, ?_, hwf.times_wf, ?_⟩
  · have hincrease := (autoRowIds_increase_iff (env.newId k) (rowCount components)).mpr hroom
    exact (Seq.ascending_iff.mpr (hincrease.imp fun h => le_of_lt h)).symm
  · intro name tc htc
    rw [hlen', ← hlen]
    exact hwf.times_length name tc htc
  · intro component column hcol
    rw [hlen', ← hlen]
    exact hwf.cells_length component column hcol

theorem right_of_ok {chunk : Chunk} {ids : Nat} (hlengths : LengthsAgree timelines components)
    (hids : chunk.rowIds = autoRowIds ids (rowCount components)) (hperm : order.Perm (List.range (rowCount components)))
    (hsorted : InStableOrder timelines order)
    (hrows : HasRoom ids (rowCount components) → HasRowsOf chunk entityPath timelines components order) :
    AutoRowIdsRight (some (.ok chunk)) entityPath timelines components ↔ HasRoom ids (rowCount components) := by
  constructor
  · intro h
    obtain ⟨returned, heq, -, hok⟩ := h
    obtain ⟨order', -, -, hrows'⟩ := hok chunk (some.inj heq).symm
    rw [← autoRowIds_increase_iff, ← hids]
    exact hrows'.rowIds
  · intro hroom
    refine ⟨.ok chunk, rfl, fun hmismatch => absurd hlengths hmismatch, ?_⟩
    intro chunk' heq
    cases heq
    exact ⟨order, hperm, hsorted, hrows hroom⟩

/-- The constructor is right exactly if every two rows can be compared and, for columns that pass the checks,
there is room for the row ids: counted from the id that is given where no row has to move, and from a new one
otherwise. -/
theorem fromAutoRowIds_right_iff (debugAssertions : Bool) (sort : StableSort) (env : Env) (k : Nat) (id : ChunkId)
    (entityPath : EntityPath) (timelines : Assoc TimelineName TimeColumn) (components : ChunkComponents) :
    AutoRowIdsRight (fromAutoRowIds debugAssertions sort env k id entityPath timelines components) entityPath
        timelines components ↔
      Comparable timelines components ∧
        ((withAutoRowIds env id entityPath timelines components).sanityCheckIn debugAssertions = .ok () →
          (InOrder timelines components → HasRoom id (rowCount components)) ∧
          (¬InOrder timelines components → HasRoom (env.newId k) (rowCount components))) := by
  have hcomparable : Comparable timelines components ↔
      ((sort.sort (rowCount components)).run (lexCompare (timesInNameOrder timelines))).isSome :=
    (sort.run_lexCompare_iff _ _).symm
  unfold fromAutoRowIds
  cases hrun : (sort.sort (rowCount components)).run (lexCompare (timesInNameOrder timelines)) with
  | none =>
    rw [hcomparable, hrun]
    constructor
    · intro h
      obtain ⟨returned, heq, -⟩ := h
      cases heq
    · intro h
      cases h.1
  | some order =>
    obtain ⟨hperm, hsorted⟩ := sort.run_lexCompare_spec hrun
    have hcompared : Comparable timelines components := hcomparable.mpr (by rw [hrun]; rfl)
    rw [bind_some]
    dsimp only
    cases hcheck : (withAutoRowIds env id entityPath timelines components).sanityCheckIn debugAssertions with
    | error e =>
      refine iff_of_true ?_ ⟨hcompared, fun h => by cases h⟩
      exact ⟨.error e, rfl, fun _ => ⟨e, rfl⟩, fun chunk h => by cases h⟩
    | ok _ =>
      have hlengths := lengthsAgree_of_check hcheck
      by_cases hmoved : order = List.range (rowCount components)
      · -- no row moves
        have hin := (order_eq_range_iff hperm hsorted).mp hmoved
        rw [if_pos ((zipIdx_all_iff hperm).mpr hmoved), right_of_ok hlengths rfl hperm hsorted
          fun hroom => hmoved ▸ hasRowsOf_unmoved hlengths hroom]
        exact ⟨fun h => ⟨hcompared, fun _ => ⟨fun _ => h, fun hnot => absurd hin hnot⟩⟩, fun h => (h.2 rfl).1 hin⟩
      · have hnot : ¬InOrder timelines components := fun h => hmoved ((order_eq_range_iff hperm hsorted).mpr h)
        have hiff : AutoRowIdsRight (some (.ok (shuffledWith env k
            (withAutoRowIds env id entityPath timelines components) (rowCount components) order))) entityPath timelines
            components ↔ HasRoom (env.newId k) (rowCount components) :=
          right_of_ok hlengths rfl hperm hsorted hasRowsOf_shuffled
        rw [if_neg fun h => hmoved ((zipIdx_all_iff hperm).mp h)]
        have hcondition : (Comparable timelines components ∧ (Except.ok () = (.ok () : Except ChunkError Unit) →
            (InOrder timelines components → HasRoom id (rowCount components)) ∧
              (¬InOrder timelines components → HasRoom (env.newId k) (rowCount components)))) ↔
            HasRoom (env.newId k) (rowCount components) :=
          ⟨fun h => (h.2 rfl).2 hnot, fun h => ⟨hcompared, fun _ => ⟨fun hin => absurd hin hnot, fun _ => h⟩⟩⟩
        rw [hcondition]
        cases debugAssertions with
        | false => exact hiff
        | true =>
          cases hsane : (shuffledWith env k (withAutoRowIds env id entityPath timelines components)
              (rowCount components) order).sanityCheck with
          | ok _ => exact hiff
          | error e =>
            -- the row ids do not ascend
            constructor
            · intro h
              obtain ⟨returned, heq, -⟩ := h
              cases heq
            · intro hroom
              have hcheck' : (withAutoRowIds env id entityPath timelines components).sanityCheck = .ok () := hcheck
              rw [shuffledWith_sane hperm hcheck' hroom] at hsane
              cases hsane

def oneTime : Assoc TimelineName TimeColumn :=
  AList.singleton ⟨"frame"⟩ (TimeColumn.new none ⟨⟨"frame"⟩, .sequence⟩ [I64.sat 5])

def twoCells : ChunkComponents := AList.singleton ⟨"position"⟩ ⟨none, ListArray.ofCells [some [], some []]⟩

/-- With more cells than times the call panics, instead of returning an error. -/
theorem fromAutoRowIds_panics :
    (∀ debugAssertions sort env k id, fromAutoRowIds debugAssertions sort env k id ⟨["robot"]⟩ oneTime twoCells = none) ∧
      ¬ ∀ debugAssertions sort env k id entityPath timelines components, AutoRowIdsRight
        (fromAutoRowIds debugAssertions sort env k id entityPath timelines components) entityPath timelines
        components := by
  have htimes : timesInNameOrder oneTime = [[I64.sat 5]] := by
    have hnames : (oneTime.keys.mergeSort fun a b => decide (a.name ≤ b.name)) = [⟨"frame"⟩] := mergeSort_singleton _
    rw [timesInNameOrder, hnames]
    rfl
  have hpanics : ∀ debugAssertions sort env k id,
      fromAutoRowIds debugAssertions sort env k id ⟨["robot"]⟩ oneTime twoCells = none := by
    intro debugAssertions sort env k id
    have hrun : (sort.sort (rowCount twoCells)).run (lexCompare (timesInNameOrder oneTime)) = none := by
      rw [← not_isSome_iff_eq_none, sort.run_lexCompare_iff, htimes]
      intro h
      exact absurd (h 0 (by decide) 1 (by decide) (by decide)) (by decide)
    unfold fromAutoRowIds
    rw [hrun]
    rfl
  refine ⟨hpanics, ?_⟩
  intro h
  obtain ⟨returned, heq, -⟩ := h true StableSort.insertion (.countingFrom 100) 0 1 ⟨["robot"]⟩ oneTime twoCells
  rw [hpanics] at heq
  cases heq

end Chunk

end Dalaran
