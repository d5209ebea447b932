import Dalaran.Base.IndexedSeq
import Dalaran.Base.Runs

/-
  A deque whose elements keep their indices (`dl_video::stable_index_deque`).

  The deque has its elements in a row and an offset, which is the index of the first
  one. Taking elements off the front raises the offset, so that the others keep their
  indices. It refines a sequence of elements with indices (`refines`).

  Indices are natural numbers here: it takes 2^64 elements for one to overflow. A
  plain subtraction that goes below zero, and a range that is out of bounds, panics,
  which is `none`.

  Correspondence (Rust ↔ Lean):
    `VecDeque::truncate`, `drain` ↔ `List.take`, `drain`
  The mutable iterators are the lists of what they visit.
-/

namespace Dalaran.Video

open List Option

structure StableIndexDeque (T : Type) where
  vec : List T
  indexOffset : Nat

/-- `checked_sub`, or the subtraction that panics below zero. -/
def subtract (a b : Nat) : Option Nat := if b ≤ a then some (a - b) else none

namespace StableIndexDeque

variable {T : Type}

def pushBack (d : StableIndexDeque T) (value : T) : StableIndexDeque T := { d with vec := d.vec ++ [value] }

def popFront : StableIndexDeque T → Option T × StableIndexDeque T
  | ⟨[], indexOffset⟩ => (none, ⟨[], indexOffset⟩)
  | ⟨value :: vec, indexOffset⟩ => (some value, ⟨vec, indexOffset + 1⟩)

def popBack (d : StableIndexDeque T) : Option T × StableIndexDeque T :=
  (d.vec.getLast?, { d with vec := d.vec.dropLast })

def extend (d : StableIndexDeque T) (values : List T) : StableIndexDeque T :=
  { d with vec := d.vec ++ values }

def iterIndexed (d : StableIndexDeque T) : List (Nat × T) :=
  d.vec.zipIdx.map fun pair => (pair.2 + d.indexOffset, pair.1)

def removeAllWithIndexLargerEqual (d : StableIndexDeque T) (firstIndexNotContained : Nat) : StableIndexDeque T :=
  -- The subtraction saturates.
  { d with vec := d.vec.take (firstIndexNotContained - d.indexOffset) }

/-- Pop from the front while the first index is not past the given one. -/
def removeAllWithIndexSmallerEqual (firstIndexContained : Nat) : List T → Nat → StableIndexDeque T
  | [], indexOffset => ⟨[], indexOffset⟩
  | value :: vec, indexOffset =>
    if indexOffset ≤ firstIndexContained then
      removeAllWithIndexSmallerEqual firstIndexContained vec (indexOffset + 1)
    else ⟨value :: vec, indexOffset⟩

/-- The elements that satisfy the predicate come first. -/
def partitionPoint (d : StableIndexDeque T) (f : T → Bool) : Nat := (d.vec.takeWhile f).length + d.indexOffset

def get (d : StableIndexDeque T) (index : Nat) : Option T :=
  (subtract index d.indexOffset).bind fun i => d.vec[i]?

def nextIndex (d : StableIndexDeque T) : Nat := d.vec.length + d.indexOffset

def minIndex (d : StableIndexDeque T) : Nat := d.indexOffset

/-- The elements of a range and the others; a range that is out of bounds panics. -/
def drain (vec : List T) (start stop : Nat) : Option (List T × List T) :=
  if start ≤ stop ∧ stop ≤ vec.length then
    some ((vec.drop start).take (stop - start), vec.take start ++ vec.drop stop)
  else none

def replace (d : StableIndexDeque T) (start stop : Nat) (replacement : List T) : Option (StableIndexDeque T) := do
  let localStart ← subtract start d.indexOffset
  let localEnd ← subtract stop d.indexOffset
  let (_, vec) ← drain d.vec localStart localEnd
  let (tail, vec) ← drain vec localStart vec.length
  some { d with vec := vec ++ replacement ++ tail }

/-- What the iterator visits. Both ends of the range are shifted, and no further than to zero. -/
def iterIndexRangeClamped (d : StableIndexDeque T) (start stop : Nat) : Option (List (Nat × T)) := do
  let shiftedStart := start - d.indexOffset
  let shiftedEnd := stop - d.indexOffset
  let numElements ← subtract shiftedEnd shiftedStart
  some ((d.iterIndexed.drop shiftedStart).take numElements)

/-- What the mutable iterator visits. The number of elements is that of the range as it was given. -/
def iterIndexRangeClampedMut (d : StableIndexDeque T) (start stop : Nat) : Option (List (Nat × T)) := do
  let rangeStart := start - d.indexOffset
  let numElements ← subtract stop start
  some ((d.iterIndexed.drop rangeStart).take numElements)

/-! ## The operations -/

inductive Op (T : Type) where
  | pushBack (value : T)
  | extend (values : List T)
  | popFront
  | popBack
  | removeAllWithIndexLargerEqual (firstIndexNotContained : Nat)
  | removeAllWithIndexSmallerEqual (firstIndexContained : Nat)
  | replace (start stop : Nat) (replacement : List T)

/-- The deque after an operation, unless it panics. -/
def step (d : StableIndexDeque T) : Op T → Option (StableIndexDeque T)
  | .pushBack value => some (d.pushBack value)
  | .extend values => some (d.extend values)
  | .popFront => some d.popFront.2
  | .popBack => some d.popBack.2
  | .removeAllWithIndexLargerEqual i => some (d.removeAllWithIndexLargerEqual i)
  | .removeAllWithIndexSmallerEqual i => some (removeAllWithIndexSmallerEqual i d.vec d.indexOffset)
  | .replace start stop replacement => d.replace start stop replacement

/-- A replacement moves the elements after it, and nothing else moves any. -/
def Op.Moves : Op T → Prop
  | .replace .. => True
  | _ => False

/-! ## The sequence that a deque is -/

theorem get_eq (d : StableIndexDeque T) (i : Nat) :
    d.get i = if d.indexOffset ≤ i then d.vec[i - d.indexOffset]? else none := by
  unfold get subtract
  split <;> rfl

/-- The map from `minIndex` up to `nextIndex`. -/
def toIndexedSeq (d : StableIndexDeque T) : IndexedSeq T where
  min := d.minIndex
  next := d.nextIndex
  get := d.get
  min_le := Nat.le_add_left ..
  isSome_iff i := by
    rw [get_eq, minIndex, nextIndex]
    split
    · rw [isSome_iff_ne_none, ne_eq, getElem?_eq_none_iff]
      omega
    · simp
      omega

/-- What an operation does to the sequence. -/
def specStep (s : IndexedSeq T) : Op T → Option (IndexedSeq T)
  | .pushBack value => some (s.push value)
  | .extend values => some (values.foldl IndexedSeq.push s)
  | .popFront => some (s.keepFrom (s.min + 1))
  | .popBack => some (s.keepBelow (s.next - 1))
  | .removeAllWithIndexLargerEqual i => some (s.keepBelow i)
  | .removeAllWithIndexSmallerEqual i => some (s.keepFrom (i + 1))
  | .replace start stop replacement =>
    if h : s.min ≤ start ∧ start ≤ stop ∧ stop ≤ s.next then some (s.splice start stop replacement h) else none

theorem get_add (d : StableIndexDeque T) (k : Nat) : d.get (d.indexOffset + k) = d.vec[k]? := by
  rw [get_eq, if_pos (Nat.le_add_right ..), Nat.add_sub_cancel_left]

theorem toIndexedSeq_eq {d : StableIndexDeque T} {s : IndexedSeq T} (hmin : s.min = d.indexOffset)
    (hnext : s.next = d.vec.length + d.indexOffset)
    (hget : ∀ k, k < d.vec.length → s.get (d.indexOffset + k) = d.vec[k]?) : d.toIndexedSeq = s := by
  apply IndexedSeq.ext
  · exact hmin.symm
  · exact hnext.symm
  · funext i
    by_cases hi : d.indexOffset ≤ i ∧ i < d.vec.length + d.indexOffset
    · obtain ⟨k, rfl⟩ := Nat.exists_eq_add_of_le hi.1
      rw [hget k (by omega)]
      exact get_add d k
    · rw [s.get_eq_none (by omega)]
      exact d.toIndexedSeq.get_eq_none (by simp only [toIndexedSeq, minIndex, nextIndex]; omega)

theorem pushBack_spec (d : StableIndexDeque T) (value : T) :
    (d.pushBack value).toIndexedSeq = d.toIndexedSeq.push value := by
  apply toIndexedSeq_eq rfl
  · show d.vec.length + d.indexOffset + 1 = (d.vec ++ [value]).length + d.indexOffset
    simp
    omega
  · intro k hk
    show (if d.indexOffset + k = d.vec.length + d.indexOffset then some value else d.get (d.indexOffset + k)) =
      (d.vec ++ [value])[k]?
    rw [get_add]
    by_cases hk' : k = d.vec.length
    · rw [if_pos (by omega), hk']
      simp
    · have hlt : k < d.vec.length := by
        simp [pushBack] at hk
        omega
      rw [if_neg (by omega), getElem?_append_left hlt]

theorem extend_spec (d : StableIndexDeque T) (values : List T) :
    (d.extend values).toIndexedSeq = values.foldl IndexedSeq.push d.toIndexedSeq := by
  induction values generalizing d with
  | nil => rw [extend, append_nil, foldl_nil]
  | cons value values ih =>
    rw [foldl_cons, ← pushBack_spec, ← ih]
    simp [extend, pushBack]

theorem take_spec (d : StableIndexDeque T) (i : Nat) :
    (d.removeAllWithIndexLargerEqual i).toIndexedSeq = d.toIndexedSeq.keepBelow i := by
  apply toIndexedSeq_eq rfl
  · show max d.indexOffset (Nat.min i (d.vec.length + d.indexOffset)) =
      (d.vec.take (i - d.indexOffset)).length + d.indexOffset
    have hmin : Nat.min i (d.vec.length + d.indexOffset) =
      if i ≤ d.vec.length + d.indexOffset then i else d.vec.length + d.indexOffset := Nat.min_def
    rw [length_take, hmin]
    split <;> omega
  · intro k hk
    simp only [removeAllWithIndexLargerEqual, length_take] at hk
    show (if d.indexOffset + k < i then d.get (d.indexOffset + k) else none) = (d.vec.take (i - d.indexOffset))[k]?
    rw [get_add, if_pos (by omega), getElem?_take_of_lt (by omega)]

theorem drop_spec (d : StableIndexDeque T) (i k : Nat) (hk : k = min d.vec.length (i - d.indexOffset)) :
    (⟨d.vec.drop k, d.indexOffset + k⟩ : StableIndexDeque T).toIndexedSeq = d.toIndexedSeq.keepFrom i := by
  have hmin : Nat.min i (d.vec.length + d.indexOffset) =
    if i ≤ d.vec.length + d.indexOffset then i else d.vec.length + d.indexOffset := Nat.min_def
  apply toIndexedSeq_eq
  · show max d.indexOffset (Nat.min i (d.vec.length + d.indexOffset)) = d.indexOffset + k
    rw [hmin]
    split <;> omega
  · show d.vec.length + d.indexOffset = (d.vec.drop k).length + (d.indexOffset + k)
    rw [length_drop]
    omega
  · intro j hj
    rw [length_drop] at hj
    show (if i ≤ d.indexOffset + k + j then d.get (d.indexOffset + k + j) else none) = (d.vec.drop k)[j]?
    rw [if_pos (by omega), Nat.add_assoc, get_add, getElem?_drop]

theorem removeAllWithIndexSmallerEqual_eq (i : Nat) (vec : List T) (indexOffset : Nat) :
    removeAllWithIndexSmallerEqual i vec indexOffset =
      ⟨vec.drop (min vec.length (i + 1 - indexOffset)), indexOffset + min vec.length (i + 1 - indexOffset)⟩ := by
  induction vec generalizing indexOffset with
  | nil => simp [removeAllWithIndexSmallerEqual]
  | cons value vec ih =>
    rw [removeAllWithIndexSmallerEqual]
    split
    · have hmin : min (value :: vec).length (i + 1 - indexOffset) =
          min vec.length (i + 1 - (indexOffset + 1)) + 1 := by
        rw [length_cons]
        omega
      rw [ih, hmin, drop_succ_cons, Nat.add_assoc, Nat.add_comm 1]
    · have hmin : min (value :: vec).length (i + 1 - indexOffset) = 0 := by omega
      rw [hmin, drop_zero, Nat.add_zero]

theorem popFront_eq (d : StableIndexDeque T) :
    d.popFront.2 = ⟨d.vec.drop (min d.vec.length 1), d.indexOffset + min d.vec.length 1⟩ := by
  obtain ⟨vec, indexOffset⟩ := d
  cases vec with
  | nil => rfl
  | cons value vec => simp [popFront]

theorem popBack_eq (d : StableIndexDeque T) : d.popBack.2 = d.removeAllWithIndexLargerEqual (d.nextIndex - 1) := by
  simp only [popBack, removeAllWithIndexLargerEqual, nextIndex, dropLast_eq_take]
  congr 2
  omega

variable {start stop : Nat}

theorem drain_eq {vec : List T} (h : start ≤ stop ∧ stop ≤ vec.length) :
    drain vec start stop = some ((vec.drop start).take (stop - start), vec.take start ++ vec.drop stop) :=
  if_pos h

theorem subtract_add (a b : Nat) : subtract (a + b) a = some b := by
  rw [subtract, if_pos (Nat.le_add_right ..), Nat.add_sub_cancel_left]

theorem replace_eq (d : StableIndexDeque T) {a b : Nat} (hab : a ≤ b) (hb : b ≤ d.vec.length)
    (replacement : List T) : d.replace (d.indexOffset + a) (d.indexOffset + b) replacement =
      some ⟨d.vec.take a ++ replacement ++ d.vec.drop b, d.indexOffset⟩ := by
  have hlength : (d.vec.take a).length = a := by
    rw [length_take]
    omega
  have htake : (d.vec.take a ++ d.vec.drop b).take a = d.vec.take a := take_left' hlength
  have hdrop : (d.vec.take a ++ d.vec.drop b).drop a = d.vec.drop b := drop_left' hlength
  have hbounds : a ≤ (d.vec.take a ++ d.vec.drop b).length := by
    rw [length_append, hlength]
    omega
  have hall : (d.vec.drop b).take ((d.vec.take a ++ d.vec.drop b).length - a) = d.vec.drop b := by
    apply take_of_length_le
    rw [length_append, hlength]
    omega
  simp only [replace, subtract_add, bind, Option.bind, drain_eq (And.intro hab hb),
    drain_eq (And.intro hbounds (Nat.le_refl _)), htake, hdrop, drop_length, append_nil, hall]

theorem replace_spec (d : StableIndexDeque T) (start stop : Nat) (replacement : List T) :
    (d.replace start stop replacement).map toIndexedSeq =
      specStep d.toIndexedSeq (.replace start stop replacement) := by
  have hbounds : (d.toIndexedSeq.min ≤ start ∧ start ≤ stop ∧ stop ≤ d.toIndexedSeq.next) ↔
      d.indexOffset ≤ start ∧ start ≤ stop ∧ stop ≤ d.vec.length + d.indexOffset := Iff.rfl
  rw [specStep]
  split
  · next h =>
    obtain ⟨hmin, hle, hnext⟩ := hbounds.mp h
    obtain ⟨a, rfl⟩ := Nat.exists_eq_add_of_le hmin
    obtain ⟨b, rfl⟩ := Nat.exists_eq_add_of_le (Nat.le_trans hmin hle)
    rw [replace_eq d (by omega) (by omega), map_some, some_inj]
    apply toIndexedSeq_eq rfl
    · show d.indexOffset + a + replacement.length + (d.vec.length + d.indexOffset - (d.indexOffset + b)) = _
      simp
      omega
    · intro k _
      show (if d.indexOffset + k < d.indexOffset + a then d.get (d.indexOffset + k)
        else if d.indexOffset + k < d.indexOffset + a + replacement.length then
          replacement[d.indexOffset + k - (d.indexOffset + a)]?
        else d.get (d.indexOffset + k - (d.indexOffset + a + replacement.length) + (d.indexOffset + b))) =
          (d.vec.take a ++ replacement ++ d.vec.drop b)[k]?
      rw [append_assoc, getElem?_append, getElem?_append, length_take, Nat.min_eq_left (by omega)]
      by_cases hbefore : k < a
      · rw [if_pos (by omega), if_pos hbefore, get_add, getElem?_take_of_lt hbefore]
      · rw [if_neg (by omega), if_neg hbefore]
        by_cases hinside : k - a < replacement.length
        · rw [if_pos (by omega), if_pos hinside, Nat.add_sub_add_left]
        · have hafter : d.indexOffset + k - (d.indexOffset + a + replacement.length) + (d.indexOffset + b) =
              d.indexOffset + (b + (k - a - replacement.length)) := by omega
          rw [if_neg (by omega), if_neg hinside, hafter, get_add, getElem?_drop]
  · next h =>
    rw [map_eq_none_iff]
    simp only [replace, subtract, drain, bind, Option.bind]
    by_cases hstart : d.indexOffset ≤ start
    · by_cases hstop : d.indexOffset ≤ stop
      · simp only [if_pos hstart, if_pos hstop]
        rw [if_neg (by omega)]
      · simp only [if_pos hstart, if_neg hstop]
    · simp only [if_neg hstart]

theorem step_spec (d : StableIndexDeque T) (op : Op T) :
    (d.step op).map toIndexedSeq = specStep d.toIndexedSeq op := by
  cases op with
  | pushBack value => exact congrArg some (pushBack_spec d value)
  | extend values => exact congrArg some (extend_spec d values)
  | popFront =>
    apply congrArg some
    rw [popFront_eq]
    exact drop_spec d _ _ (by rw [show d.toIndexedSeq.min = d.indexOffset from rfl]; omega)
  | popBack =>
    apply congrArg some
    rw [popBack_eq]
    exact take_spec d _
  | removeAllWithIndexLargerEqual i => exact congrArg some (take_spec d i)
  | removeAllWithIndexSmallerEqual i =>
    apply congrArg some
    rw [removeAllWithIndexSmallerEqual_eq]
    exact drop_spec d _ _ rfl
  | replace start stop replacement => exact replace_spec d start stop replacement

theorem run_spec (d : StableIndexDeque T) (ops : List (Op T)) :
    (Runs.run step d ops).map toIndexedSeq = Runs.run specStep d.toIndexedSeq ops := by
  induction ops generalizing d with
  | nil => rfl
  | cons op ops ih =>
    rw [Runs.run, Runs.run, ← step_spec, Option.map_bind]
    cases d.step op with
    | none => rfl
    | some next => exact ih next

theorem specStep_keeps {s s' : IndexedSeq T} {op : Op T} (hop : ¬ op.Moves) (h : specStep s op = some s') :
    s.Keeps s' := by
  cases op with
  | replace start stop replacement => exact absurd trivial hop
  | pushBack value => exact some.inj h ▸ s.keeps_push value
  | extend values => exact some.inj h ▸ s.keeps_foldl_push values
  | popFront => exact some.inj h ▸ s.keeps_keepFrom _
  | popBack => exact some.inj h ▸ s.keeps_keepBelow _
  | removeAllWithIndexLargerEqual i => exact some.inj h ▸ s.keeps_keepBelow i
  | removeAllWithIndexSmallerEqual i => exact some.inj h ▸ s.keeps_keepFrom _

theorem step_keeps {d d' : StableIndexDeque T} {op : Op T} (hop : ¬ op.Moves) (h : d.step op = some d') :
    d.toIndexedSeq.Keeps d'.toIndexedSeq := by
  apply specStep_keeps hop
  rw [← step_spec, h]
  rfl

/-! ## What the iterators visit -/

theorem iterIndexed_getElem? (d : StableIndexDeque T) (k : Nat) :
    d.iterIndexed[k]? = (d.get (d.indexOffset + k)).map (Prod.mk (d.indexOffset + k)) := by
  rw [get_add, iterIndexed, getElem?_map, getElem?_zipIdx, Option.map_map]
  apply congrArg (Option.map · d.vec[k]?)
  funext a
  show (0 + k + d.indexOffset, a) = (d.indexOffset + k, a)
  rw [Nat.zero_add, Nat.add_comm]

theorem take_drop_iterIndexed (d : StableIndexDeque T) (a n : Nat) :
    (d.iterIndexed.drop a).take n = d.toIndexedSeq.elements (d.indexOffset + a) (d.indexOffset + a + n) := by
  rw [IndexedSeq.elements, Nat.add_sub_cancel_left]
  induction n with
  | zero => rfl
  | succ n ih =>
    rw [take_add_one, ih, range'_concat, filterMap_append, getElem?_drop, iterIndexed_getElem?,
      Nat.one_mul, Nat.add_assoc]
    congr 1

theorem elements_clamped (d : StableIndexDeque T) (h : start ≤ stop) :
    d.toIndexedSeq.elements start stop =
      d.toIndexedSeq.elements (max start d.indexOffset) (max stop d.indexOffset) := by
  have hmin : d.toIndexedSeq.min = d.indexOffset := rfl
  by_cases hstart : d.indexOffset ≤ start
  · rw [Nat.max_eq_left hstart, Nat.max_eq_left (Nat.le_trans hstart h)]
  · have hlow : d.toIndexedSeq.elements start (min stop d.indexOffset) = [] := by
      rw [IndexedSeq.elements_eq_nil_iff]
      omega
    rw [Nat.max_eq_right (by omega), d.toIndexedSeq.elements_append (b := min stop d.indexOffset) (by omega)
      (by omega), hlow, nil_append]
    by_cases hstop : d.indexOffset ≤ stop
    · rw [Nat.min_eq_right hstop, Nat.max_eq_left hstop]
    · rw [Nat.min_eq_left (by omega), Nat.max_eq_right (by omega)]
      simp [IndexedSeq.elements]

theorem iterIndexRangeClamped_eq (d : StableIndexDeque T) (h : start ≤ stop) :
    d.iterIndexRangeClamped start stop = some (d.toIndexedSeq.elements start stop) := by
  simp only [iterIndexRangeClamped, subtract, bind, Option.bind]
  rw [if_pos (by omega), d.elements_clamped h]
  show some ((d.iterIndexed.drop (start - d.indexOffset)).take _) = _
  rw [take_drop_iterIndexed]
  congr 2 <;> omega

theorem iterIndexRangeClampedMut_eq (d : StableIndexDeque T) (h : start ≤ stop) :
    d.iterIndexRangeClampedMut start stop = some (d.toIndexedSeq.elements (max start d.indexOffset)
      (max start d.indexOffset + (stop - start))) := by
  simp only [iterIndexRangeClampedMut, subtract, bind, Option.bind]
  rw [if_pos h]
  show some ((d.iterIndexed.drop (start - d.indexOffset)).take _) = _
  rw [take_drop_iterIndexed]
  congr 2 <;> omega

theorem iterIndexRangeClampedMut_iff (d : StableIndexDeque T) (h : start ≤ stop) :
    d.iterIndexRangeClampedMut start stop = some (d.toIndexedSeq.elements start stop) ↔
      d.minIndex ≤ start ∨ start = stop ∨ d.nextIndex ≤ max stop d.minIndex := by
  have hmin : d.toIndexedSeq.min = d.indexOffset := rfl
  have hmin' : d.minIndex = d.indexOffset := rfl
  have hnext : d.toIndexedSeq.next = d.nextIndex := rfl
  have hle := d.toIndexedSeq.min_le
  rw [d.iterIndexRangeClampedMut_eq h, d.elements_clamped h, some_inj,
    d.toIndexedSeq.elements_append (a := max start d.indexOffset) (b := max stop d.indexOffset)
      (c := max start d.indexOffset + (stop - start)) (by omega) (by omega),
    append_right_eq_self, IndexedSeq.elements_eq_nil_iff]
  omega

/-- After every sequence of operations, the deque is the sequence that they make of the
one it was, every further one does what it says and keeps the indices, and both iterators
visit the elements of a range: the mutable one if and only if the range begins with an
element or later, is empty, or has nothing after it. -/
theorem refines_iff {d d' : StableIndexDeque T} {ops : List (Op T)} (hrun : Runs.run step d ops = some d')
    {start stop : Nat} (h : start ≤ stop) :
    (Runs.run specStep d.toIndexedSeq ops = some d'.toIndexedSeq ∧
      (∀ op, (d'.step op).map toIndexedSeq = specStep d'.toIndexedSeq op) ∧
      (∀ op next, ¬ op.Moves → d'.step op = some next → d'.toIndexedSeq.Keeps next.toIndexedSeq) ∧
      d'.iterIndexRangeClamped start stop = some (d'.toIndexedSeq.elements start stop) ∧
      d'.iterIndexRangeClampedMut start stop = some (d'.toIndexedSeq.elements start stop)) ↔
      d'.minIndex ≤ start ∨ start = stop ∨ d'.nextIndex ≤ max stop d'.minIndex := by
  rw [← d'.iterIndexRangeClampedMut_iff h]
  constructor
  · exact fun h => h.2.2.2.2
  · intro hmut
    have hspec : Runs.run specStep d.toIndexedSeq ops = some d'.toIndexedSeq := by
      rw [← run_spec, hrun, map_some]
    exact ⟨hspec, d'.step_spec, fun _ _ => step_keeps, d'.iterIndexRangeClamped_eq h, hmut⟩

theorem refines_iff_popFront :
    (⟨[2, 3, 4], 2⟩ : StableIndexDeque Nat).iterIndexRangeClampedMut 2 4 =
      some ((⟨[2, 3, 4], 2⟩ : StableIndexDeque Nat).toIndexedSeq.elements 2 4) := by
  have hrun : Runs.run step (⟨[0, 1, 2, 3, 4], 0⟩ : StableIndexDeque Nat) [.popFront, .popFront] =
    some ⟨[2, 3, 4], 2⟩ := rfl
  have hle : 2 ≤ 4 := by decide
  exact ((refines_iff hrun hle).mpr (.inl (by decide))).2.2.2.2

/-- The range begins before the first element and ends inside: two elements past its end are visited. -/
theorem iterIndexRangeClampedMut_past_end :
    Runs.run step (⟨[0, 1, 2, 3, 4, 5, 6], 0⟩ : StableIndexDeque Nat) [.popFront, .popFront] =
        some ⟨[2, 3, 4, 5, 6], 2⟩ ∧
      (⟨[2, 3, 4, 5, 6], 2⟩ : StableIndexDeque Nat).iterIndexRangeClampedMut 0 4 =
        some [(2, 2), (3, 3), (4, 4), (5, 5)] ∧
      (⟨[2, 3, 4, 5, 6], 2⟩ : StableIndexDeque Nat).iterIndexRangeClampedMut 0 4 ≠
        some ((⟨[2, 3, 4, 5, 6], 2⟩ : StableIndexDeque Nat).toIndexedSeq.elements 0 4) :=
  ⟨rfl, rfl, by decide⟩

end StableIndexDeque

end Dalaran.Video
