import Mathlib.Algebra.GroupWithZero.Nat
import Dalaran.Base.Seq

/-
  List arrays: the columns a chunk keeps its component cells in.

  An Arrow list array is a child array, ascending offsets into it and an optional
  validity buffer. The offsets cut the child array into the values before the first
  offset, one run per entry, and the values after the last offset; the model keeps
  those pieces (`front`, `entries`, `back`). A null entry may span child values, and
  a sliced array may have a non-empty `front`: neither is visible in the cells, and
  `pad_list_array_back` and `pad_list_array_front`, which rebuild the offsets from
  zero over the unchanged child array, get both wrong. Padding keeps the cells of
  `Paddable` arrays.

  Correspondence (Rust ↔ Lean):
    `dl_arrow_util::deep_slice_array` ↔ `ListArray.deepSlice`
    `dl_arrow_util::concat_arrays` ↔ `ListArray.concat`
    `dl_arrow_util::pad_list_array_{back, front}` ↔ `ListArray.padBack`, `ListArray.padFront`
    the component loop of `Chunk::shuffle_with` ↔ `ListArray.shuffle`
-/

namespace Dalaran

open List

/-- One value of a child array, as its bytes. -/
abbrev Value := List UInt8

/-- One cell of a component column: a batch of values. -/
abbrev Cell := List Value

/-- One entry of a list array: its validity bit and the child values its offsets span. -/
structure ListEntry where
  valid : Bool
  values : List Value
  deriving DecidableEq

/-- A list array. `hasNulls` says whether there is a validity buffer; without one every entry is
valid. -/
structure ListArray where
  dataType : String
  hasNulls : Bool
  front : List Value
  entries : List ListEntry
  back : List Value
  dense : hasNulls = false → ∀ e ∈ entries, e.valid = true
  deriving DecidableEq

def ListEntry.cell (e : ListEntry) : Option Cell := if e.valid then some e.values else none

/-- Cut a list into runs of the given lengths. -/
def splitLengths {α : Type} : List Nat → List α → List (List α)
  | [], _ => []
  | n :: ns, l => l.take n :: splitLengths ns (l.drop n)

namespace ListArray

def len (a : ListArray) : Nat := a.entries.length

/-- The validity mask; all set when there is no buffer. -/
def validity (a : ListArray) : List Bool := a.entries.map (·.valid)

def isValid (a : ListArray) (i : Nat) : Bool := (a.entries[i]?).any (·.valid)

def validityIsEmpty (a : ListArray) : Bool := a.hasNulls && a.entries.isEmpty

def nullCount (a : ListArray) : Nat := a.validity.count false

def cells (a : ListArray) : List (Option Cell) := a.entries.map ListEntry.cell

def child (a : ListArray) : List Value := a.front ++ (a.entries.map (·.values)).flatten ++ a.back

/-- The lengths `pad_list_array_*` rebuilds the offsets from: nulls count for nothing. -/
def validLengths (a : ListArray) : List Nat :=
  a.entries.map fun e => if e.valid then e.values.length else 0

/-! ## Operations -/

/-- A slice that shares the child array. -/
def slice (a : ListArray) (index len : Nat) : ListArray where
  dataType := a.dataType
  hasNulls := a.hasNulls
  front := a.front ++ ((a.entries.take index).map (·.values)).flatten
  entries := (a.entries.drop index).take len
  back := ((a.entries.drop (index + len)).map (·.values)).flatten ++ a.back
  dense h e he := a.dense h e (mem_of_mem_drop (mem_of_mem_take he))

/-- A slice with its own child array. -/
def deepSlice (a : ListArray) (index len : Nat) : ListArray where
  dataType := a.dataType
  hasNulls := a.hasNulls
  front := []
  entries := (a.entries.drop index).take len
  back := []
  dense h e he := a.dense h e (mem_of_mem_drop (mem_of_mem_take he))

def concat (a b : ListArray) : ListArray where
  dataType := a.dataType
  hasNulls := a.hasNulls || b.hasNulls
  front := []
  entries := a.entries ++ b.entries
  back := []
  dense h e he := by
    obtain ⟨ha, hb⟩ := Bool.or_eq_false_iff.mp h
    rcases mem_append.mp he with he | he
    · exact a.dense ha e he
    · exact b.dense hb e he

/-- The entries `pad_list_array_*` keeps: offsets rebuilt from zero over the same child array. -/
def rebased (a : ListArray) : List ListEntry :=
  zipWith ListEntry.mk a.validity (splitLengths a.validLengths a.child)

def padBack (a : ListArray) (targetLen : Nat) : ListArray :=
  if targetLen - a.len = 0 then a
  else
    { dataType := a.dataType
      hasNulls := true
      front := []
      entries := a.rebased ++ replicate (targetLen - a.len) ⟨false, []⟩
      back := a.child.drop a.validLengths.sum
      dense := by simp }

def padFront (a : ListArray) (targetLen : Nat) : ListArray :=
  if targetLen - a.len = 0 then a
  else
    { dataType := a.dataType
      hasNulls := true
      front := []
      entries := replicate (targetLen - a.len) ⟨false, []⟩ ++ a.rebased
      back := a.child.drop a.validLengths.sum
      dense := by simp }

def shuffle (a : ListArray) (swaps : List Nat) : ListArray where
  dataType := a.dataType
  hasNulls := a.hasNulls
  front := []
  entries := Seq.permute a.entries swaps
  back := []
  dense h e he := by
    obtain ⟨i, _, hi⟩ := mem_filterMap.mp he
    exact a.dense h e (mem_of_getElem? hi)

/-- `ListArray::new_null(field, 0)`. -/
def emptied (a : ListArray) : ListArray where
  dataType := a.dataType
  hasNulls := true
  front := []
  entries := []
  back := []
  dense := by simp

/-! ## Validity masks -/

@[simp] theorem validity_length (a : ListArray) : a.validity.length = a.len := by
  simp [validity, len]

@[simp] theorem cells_length (a : ListArray) : a.cells.length = a.len := by
  simp [cells, len]

theorem validity_eq_cells (a : ListArray) : a.validity = a.cells.map Option.isSome := by
  unfold validity cells
  rw [map_map]
  refine map_congr_left fun e _ => ?_
  cases he : e.valid <;> simp [ListEntry.cell, he]

theorem splitLengths_length {α : Type} (ns : List Nat) (l : List α) : (splitLengths ns l).length = ns.length := by
  induction ns generalizing l with
  | nil => rfl
  | cons n ns ih => simp [splitLengths, ih]

theorem rebased_length (a : ListArray) : a.rebased.length = a.len := by
  simp [rebased, splitLengths_length, validLengths, len]

theorem rebased_validity (a : ListArray) : a.rebased.map (·.valid) = a.validity := by
  apply ext_getElem
  · rw [length_map, rebased_length, validity_length]
  · intro i h₁ h₂
    simp [rebased]

theorem padBack_validity (a : ListArray) (n : Nat) :
    (a.padBack n).validity = a.validity ++ replicate (n - a.len) false := by
  unfold padBack
  split
  · rename_i h0
    simp [h0]
  · rw [← rebased_validity a]
    simp [validity]

theorem padFront_validity (a : ListArray) (n : Nat) :
    (a.padFront n).validity = replicate (n - a.len) false ++ a.validity := by
  unfold padFront
  split
  · rename_i h0
    simp [h0]
  · rw [← rebased_validity a]
    simp [validity]

@[simp] theorem concat_validity (a b : ListArray) : (a.concat b).validity = a.validity ++ b.validity := by
  simp [concat, validity]

theorem shuffle_validity (a : ListArray) (swaps : List Nat) :
    (a.shuffle swaps).validity = Seq.permute a.validity swaps := by
  simp [shuffle, validity, Seq.permute, map_filterMap]

/-! ## Packed arrays and their cells -/

/-- Nothing before the first offset, and nothing under a null. -/
def Packed (a : ListArray) : Prop := a.front = [] ∧ ∀ e ∈ a.entries, e.valid = false → e.values = []

instance (a : ListArray) : Decidable a.Packed := inferInstanceAs (Decidable (_ ∧ _))

theorem splitLengths_flatten {α : Type} (ls : List (List α)) (rest : List α) :
    splitLengths (ls.map length) (ls.flatten ++ rest) = ls := by
  induction ls with
  | nil => rfl
  | cons l ls ih => simp [splitLengths, ih]

variable {a : ListArray}

theorem rebased_of_packed (h : a.Packed) : a.rebased = a.entries := by
  obtain ⟨hfront, hnull⟩ := h
  have hlen : a.validLengths = (a.entries.map (·.values)).map length := by
    rw [map_map]
    refine map_congr_left fun e he => ?_
    cases hv : e.valid with
    | true => simp
    | false => simp [hnull e he hv]
  unfold rebased child
  rw [hlen, hfront, nil_append, splitLengths_flatten, validity]
  apply ext_getElem
  · simp
  · intro i h₁ h₂
    simp

/-- The rebuilt offsets cut out the same cells, so padding moves none. -/
def Paddable (a : ListArray) : Prop := a.rebased.map ListEntry.cell = a.cells

instance (a : ListArray) : Decidable a.Paddable := inferInstanceAs (Decidable (_ = _))

theorem Packed.paddable (h : a.Packed) : a.Paddable := by
  unfold Paddable cells
  rw [rebased_of_packed h]

theorem padBack_cells (h : a.Paddable) {n : Nat} :
    (a.padBack n).cells = a.cells ++ replicate (n - a.len) none := by
  unfold padBack
  split
  · rename_i h0
    simp [h0]
  · rw [← show a.rebased.map ListEntry.cell = a.cells from h]
    simp [cells, ListEntry.cell]

theorem padFront_cells (h : a.Paddable) {n : Nat} :
    (a.padFront n).cells = replicate (n - a.len) none ++ a.cells := by
  unfold padFront
  split
  · rename_i h0
    simp [h0]
  · rw [← show a.rebased.map ListEntry.cell = a.cells from h]
    simp [cells, ListEntry.cell]

/-- The array as padding reads it: its lengths laid out from the start of the child array. -/
def readFromStart (a : ListArray) : ListArray where
  dataType := a.dataType
  hasNulls := a.hasNulls
  front := []
  entries := a.rebased
  back := a.child.drop a.validLengths.sum
  dense h e he := by
    have hvalid : e.valid ∈ a.validity := by
      rw [← rebased_validity]
      exact mem_map_of_mem he
    obtain ⟨e', he', heq⟩ := mem_map.mp hvalid
    rw [← heq]
    exact a.dense h e' he'

@[simp] theorem readFromStart_len (a : ListArray) : a.readFromStart.len = a.len := rebased_length a

theorem readFromStart_validity (a : ListArray) : a.readFromStart.validity = a.validity := rebased_validity a

theorem readFromStart_packed (a : ListArray) : a.readFromStart.Packed := by
  have hnull : ∀ (es : List ListEntry) (l : List Value) (e : ListEntry),
      e ∈ zipWith ListEntry.mk (es.map (·.valid))
        (splitLengths (es.map fun e => if e.valid then e.values.length else 0) l) →
      e.valid = false → e.values = [] := by
    intro es
    induction es with
    | nil => exact fun l e he => absurd he (not_mem_nil)
    | cons e' es ih =>
      intro l e he hv
      rcases mem_cons.mp he with rfl | he
      · simp only at hv
        simp [hv]
      · exact ih _ e he hv
  exact ⟨rfl, fun e he => hnull a.entries a.child e he⟩

theorem padBack_readFromStart (a : ListArray) {n : Nat} (h : a.len < n) :
    (a.readFromStart.padBack n).cells = (a.padBack n).cells := by
  have hpos : n - a.len ≠ 0 := by omega
  rw [padBack_cells (readFromStart_packed a).paddable]
  unfold padBack
  rw [if_neg hpos, readFromStart_len]
  simp only [cells, readFromStart, map_append, map_replicate]
  rfl

theorem padFront_readFromStart (a : ListArray) {n : Nat} (h : a.len < n) :
    (a.readFromStart.padFront n).cells = (a.padFront n).cells := by
  have hpos : n - a.len ≠ 0 := by omega
  rw [padFront_cells (readFromStart_packed a).paddable]
  unfold padFront
  rw [if_neg hpos, readFromStart_len]
  simp only [cells, readFromStart, map_append, map_replicate]
  rfl

@[simp] theorem deepSlice_cells (a : ListArray) (i n : Nat) :
    (a.deepSlice i n).cells = (a.cells.drop i).take n := by
  simp [deepSlice, cells]

@[simp] theorem concat_cells (a b : ListArray) : (a.concat b).cells = a.cells ++ b.cells := by
  simp [concat, cells]

theorem shuffle_cells (a : ListArray) (swaps : List Nat) : (a.shuffle swaps).cells = Seq.permute a.cells swaps := by
  simp [shuffle, cells, Seq.permute, map_filterMap]

theorem padBack_packed (h : a.Packed) (n : Nat) : (a.padBack n).Packed := by
  unfold padBack
  split
  · exact h
  · refine ⟨rfl, fun e he hv => ?_⟩
    rcases mem_append.mp he with he | he
    · rw [rebased_of_packed h] at he
      exact h.2 e he hv
    · rw [eq_of_mem_replicate he]

theorem padFront_packed (h : a.Packed) (n : Nat) : (a.padFront n).Packed := by
  unfold padFront
  split
  · exact h
  · refine ⟨rfl, fun e he hv => ?_⟩
    rcases mem_append.mp he with he | he
    · rw [eq_of_mem_replicate he]
    · rw [rebased_of_packed h] at he
      exact h.2 e he hv

theorem deepSlice_packed (h : a.Packed) (i n : Nat) : (a.deepSlice i n).Packed :=
  ⟨rfl, fun e he => h.2 e (mem_of_mem_drop (mem_of_mem_take he))⟩

variable {b : ListArray}

theorem concat_packed (ha : a.Packed) (hb : b.Packed) : (a.concat b).Packed :=
  ⟨rfl, fun e he => (mem_append.mp he).elim (ha.2 e) (hb.2 e)⟩

theorem shuffle_packed (h : a.Packed) (swaps : List Nat) : (a.shuffle swaps).Packed := by
  refine ⟨rfl, fun e he => ?_⟩
  obtain ⟨i, _, hi⟩ := mem_filterMap.mp he
  exact h.2 e (mem_of_getElem? hi)

/-! ## Arrays from cells -/

/-- The packed array of some cells, with a validity buffer if one of them is null. -/
def ofCells (cells : List (Option Cell)) : ListArray where
  dataType := "List"
  hasNulls := cells.any (·.isNone)
  front := []
  entries := cells.map fun cell => ⟨cell.isSome, cell.getD []⟩
  back := []
  dense h e he := by
    obtain ⟨cell, hcell, rfl⟩ := mem_map.mp he
    have := any_eq_false.mp h cell hcell
    simpa [Option.isSome_iff_ne_none] using this

end ListArray

end Dalaran
