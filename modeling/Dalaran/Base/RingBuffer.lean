import Mathlib.Data.List.Perm.Basic
import Mathlib.Tactic.Common

/-
  A broadcast ring: every reader reads every value sent since it joined, unless the
  ring has come round meanwhile.

  Positions count the values from the first one on. A slot keeps its value until the
  number of readers that still have to read it (`rem`) is down to zero, or until the
  ring needs the slot again. A reader that is closed reads on up to where the ring
  was then, and may be overtaken on the way.

  `Consistent` ties the slots' counts to the readers' positions. So an open reader
  that has not been overtaken keeps everything in front of it alive
  (`unread_le_held`), and is not overtaken as long as fewer values are held
  than the ring has room for.
-/

variable {β : Type}

/-- A place of the ring, with the number of readers it still waits for. -/
structure Slot (β : Type) where
  value : β
  rem : Nat
  held : Bool

/-- A reader: the position it reads next, and where it stops once it is closed. -/
structure Cursor where
  next : Nat
  stop : Option Nat

structure RingBuffer (β : Type) where
  capacity : Nat
  slots : List (Slot β)
  cursors : List Cursor

def Cursor.unread (c : Cursor) (pos : Nat) : Bool :=
  decide (c.next ≤ pos) && (c.stop.map fun stop => decide (pos < stop)).getD true

def Slot.take (s : Slot β) : Slot β := { s with rem := s.rem - 1, held := s.held && s.rem != 1 }

def Slot.clear (s : Slot β) : Slot β := { s with held := false }

namespace RingBuffer

open List Option

def tail (r : RingBuffer β) : Nat := r.slots.length

/-- Whether the value at a position is still in the ring. -/
def holds (r : RingBuffer β) (pos : Nat) : Bool := (r.slots[pos]?.map (·.held)).getD false

def receiverCount (r : RingBuffer β) : Nat := r.cursors.countP (·.stop.isNone)

def lags (r : RingBuffer β) (c : Cursor) : Bool := decide (c.next + r.capacity < r.tail)

/-- The oldest value gives way to the next one, once the ring has come round. -/
def clearOldest (r : RingBuffer β) : List (Slot β) :=
  if r.capacity ≤ r.tail then r.slots.modify (r.tail - r.capacity) Slot.clear else r.slots

def send (r : RingBuffer β) (value : β) : RingBuffer β :=
  { r with slots := r.clearOldest ++ [⟨value, r.receiverCount, true⟩] }

def subscribe (r : RingBuffer β) : RingBuffer β := { r with cursors := r.cursors ++ [⟨r.tail, none⟩] }

def read (r : RingBuffer β) (i : Nat) (c : Cursor) : RingBuffer β :=
  { r with
    cursors := r.cursors.set i { c with next := c.next + 1 }
    slots := r.slots.modify c.next Slot.take }

def skip (r : RingBuffer β) (i : Nat) (c : Cursor) : RingBuffer β :=
  { r with cursors := r.cursors.set i { c with next := r.tail - r.capacity } }

def close (r : RingBuffer β) (i : Nat) (c : Cursor) : RingBuffer β :=
  { r with cursors := r.cursors.set i { c with stop := some r.tail } }

/-- Slots that are not overwritten count the readers that have to read them, and are held for
these. -/
structure Consistent (r : RingBuffer β) : Prop where
  capacity_pos : 0 < r.capacity
  rem : ∀ pos slot, r.slots[pos]? = some slot → r.tail ≤ pos + r.capacity →
    slot.rem = r.cursors.countP (·.unread pos) ∧ slot.held = decide (0 < slot.rem)
  overwritten : ∀ pos slot, r.slots[pos]? = some slot → pos + r.capacity < r.tail → slot.held = false
  next_le : ∀ c ∈ r.cursors, c.next ≤ r.tail
  stop_le : ∀ c ∈ r.cursors, ∀ stop, c.stop = some stop → stop ≤ r.tail

/-! ## What a reader has to read -/

variable {c : Cursor} {pos : Nat}

theorem unread_eq_true_iff : c.unread pos = true ↔ c.next ≤ pos ∧ ∀ stop, c.stop = some stop → pos < stop := by
  unfold Cursor.unread
  cases c.stop <;> simp

theorem unread_succ (h : pos ≠ c.next) : ({ c with next := c.next + 1 } : Cursor).unread pos = c.unread pos := by
  have hle : (c.next + 1 ≤ pos) = (c.next ≤ pos) := by
    apply propext
    omega
  simp only [Cursor.unread, hle]

theorem unread_succ_self (c : Cursor) : ({ c with next := c.next + 1 } : Cursor).unread c.next = false := by
  have h : ¬ c.next + 1 ≤ c.next := by omega
  simp [Cursor.unread, h]

variable {stop : Nat}

theorem unread_close (hopen : c.stop = none) (h : pos < stop) :
    ({ c with stop := some stop } : Cursor).unread pos = c.unread pos := by
  simp [Cursor.unread, hopen, h]

variable {next : Nat}

theorem unread_skip (hnext : c.next ≤ next) (h : next ≤ pos) :
    ({ c with next := next } : Cursor).unread pos = c.unread pos := by
  have hle : c.next ≤ pos := by omega
  simp only [Cursor.unread, h, hle]

variable {i : Nat} {c' : Cursor}

theorem countP_set_of_eq {cursors : List Cursor} (hc : cursors[i]? = some c) (h : c'.unread pos = c.unread pos) :
    (cursors.set i c').countP (·.unread pos) = cursors.countP (·.unread pos) := by
  obtain ⟨hi, hget⟩ := List.getElem?_eq_some_iff.mp hc
  rw [countP_set hi, hget, h]
  split
  · next hunread =>
    have hpos : 0 < cursors.countP (·.unread pos) :=
      countP_pos_iff.mpr ⟨c, mem_of_getElem? hc, hunread⟩
    omega
  · omega

/-! ## What holds of the slots -/

variable {r : RingBuffer β} {slot : Slot β}

theorem holds_eq (h : r.slots[pos]? = some slot) : r.holds pos = slot.held := by
  rw [holds, h, map_some, getD_some]

theorem lt_tail_of_holds (h : r.holds pos = true) : pos < r.tail := by
  apply Classical.byContradiction
  intro hge
  rw [holds, List.getElem?_eq_none (Nat.le_of_not_lt hge)] at h
  cases h

theorem getElem?_of_lt (h : pos < r.tail) : ∃ slot, r.slots[pos]? = some slot :=
  ⟨_, List.getElem?_eq_getElem h⟩

theorem holds_of_next_le (h : r.Consistent) (hc : c ∈ r.cursors) (hunread : c.unread pos = true)
    (hroom : r.tail ≤ pos + r.capacity) (hpos : pos < r.tail) :
    r.holds pos = true := by
  obtain ⟨slot, hslot⟩ := getElem?_of_lt hpos
  obtain ⟨hrem, hheld⟩ := h.rem pos slot hslot hroom
  rw [holds_eq hslot, hheld, decide_eq_true_iff, hrem]
  exact countP_pos_iff.mpr ⟨c, hc, hunread⟩

theorem unread_of_holds (h : r.Consistent) (hholds : r.holds pos = true) :
    ∃ c ∈ r.cursors, c.unread pos = true := by
  have hpos := lt_tail_of_holds hholds
  obtain ⟨slot, hslot⟩ := getElem?_of_lt hpos
  rw [holds_eq hslot] at hholds
  rcases Nat.lt_or_ge (pos + r.capacity) r.tail with hover | hroom
  · rw [h.overwritten pos slot hslot hover] at hholds
    cases hholds
  · obtain ⟨hrem, hheld⟩ := h.rem pos slot hslot hroom
    rw [hheld, decide_eq_true_iff, hrem] at hholds
    exact countP_pos_iff.mp hholds

def heldPositions (r : RingBuffer β) : List Nat := (List.range r.tail).filter r.holds

theorem unread_le_held (h : r.Consistent) (hc : c ∈ r.cursors) (hopen : c.stop = none)
    (hroom : r.tail ≤ c.next + r.capacity) :
    r.tail - c.next ≤ r.heldPositions.length := by
  have hsub : (List.range' c.next (r.tail - c.next)).Subperm r.heldPositions := by
    apply subperm_of_subset nodup_range'
    intro pos hpos
    obtain ⟨hle, hlt⟩ := mem_range'_1.mp hpos
    have hunread : c.unread pos = true :=
      unread_eq_true_iff.mpr ⟨hle, fun stop hstop => absurd (hopen.symm.trans hstop) (by simp)⟩
    have hnext := h.next_le c hc
    apply mem_filter.mpr
    exact ⟨mem_range.mpr (by omega), holds_of_next_le h hc hunread (by omega) (by omega)⟩
  calc r.tail - c.next = (List.range' c.next (r.tail - c.next)).length := length_range'.symm
    _ ≤ r.heldPositions.length := hsub.length_le

/-! ## What the operations keep -/

theorem subscribe_consistent (h : r.Consistent) : r.subscribe.Consistent where
  capacity_pos := h.capacity_pos
  rem := by
    intro pos slot hslot hroom
    obtain ⟨hrem, hheld⟩ := h.rem pos slot hslot hroom
    have hpos : pos < r.tail := (List.getElem?_eq_some_iff.mp hslot).1
    have hnew : (⟨r.tail, none⟩ : Cursor).unread pos = false := by
      apply Bool.eq_false_iff.mpr
      intro hunread
      have hle : r.tail ≤ pos := (unread_eq_true_iff.mp hunread).1
      omega
    refine ⟨?_, hheld⟩
    rw [hrem, subscribe, countP_append, countP_singleton, hnew]
    rfl
  overwritten := h.overwritten
  next_le := by
    intro c hc
    rcases mem_append.mp hc with hc | hc
    · exact h.next_le c hc
    · rw [mem_singleton.mp hc]
      exact Nat.le_refl _
  stop_le := by
    intro c hc stop hstop
    rcases mem_append.mp hc with hc | hc
    · exact h.stop_le c hc stop hstop
    · rw [mem_singleton.mp hc] at hstop
      cases hstop

theorem set_consistent (h : r.Consistent) (hc : r.cursors[i]? = some c)
    (hunread : ∀ pos, pos < r.tail → r.tail ≤ pos + r.capacity → c'.unread pos = c.unread pos)
    (hnext : c'.next ≤ r.tail) (hstop : ∀ stop, c'.stop = some stop → stop ≤ r.tail) :
    ({ r with cursors := r.cursors.set i c' } : RingBuffer β).Consistent where
  capacity_pos := h.capacity_pos
  rem := by
    intro pos slot hslot hroom
    obtain ⟨hrem, hheld⟩ := h.rem pos slot hslot hroom
    have hpos : pos < r.tail := (List.getElem?_eq_some_iff.mp hslot).1
    exact ⟨hrem.trans (countP_set_of_eq hc (hunread pos hpos hroom)).symm, hheld⟩
  overwritten := h.overwritten
  next_le := by
    intro d hd
    rcases mem_or_eq_of_mem_set hd with hd | heq
    · exact h.next_le d hd
    · exact heq ▸ hnext
  stop_le := by
    intro d hd stop hd'
    rcases mem_or_eq_of_mem_set hd with hd | heq
    · exact h.stop_le d hd stop hd'
    · exact hstop stop (heq ▸ hd')

theorem close_consistent (h : r.Consistent) (hc : r.cursors[i]? = some c)
    (hopen : c.stop = none) : (r.close i c).Consistent := by
  apply set_consistent h hc
  · intro pos hpos _
    exact unread_close hopen hpos
  · exact h.next_le c (mem_of_getElem? hc)
  · intro stop hstop
    exact Nat.le_of_eq (some.inj hstop).symm

theorem skip_consistent (h : r.Consistent) (hc : r.cursors[i]? = some c)
    (hlags : r.lags c = true) : (r.skip i c).Consistent := by
  have hlags := of_decide_eq_true hlags
  apply set_consistent h hc
  · intro pos _ hroom
    apply unread_skip <;> omega
  · exact Nat.sub_le _ _
  · exact h.stop_le c (mem_of_getElem? hc)

theorem take_held (h : slot.held = decide (0 < slot.rem)) : slot.take.held = decide (0 < slot.take.rem) := by
  simp only [Slot.take, h]
  generalize slot.rem = rem
  cases rem with
  | zero => rfl
  | succ rem => cases rem <;> simp

theorem read_slot (hslot : (r.read i c).slots[pos]? = some slot) :
    ∃ old, r.slots[pos]? = some old ∧ slot = if c.next = pos then old.take else old := by
  rw [read, List.getElem?_modify] at hslot
  obtain ⟨old, hold, heq⟩ := map_eq_some_iff.mp hslot
  exact ⟨old, hold, heq.symm⟩

@[simp] theorem read_tail (r : RingBuffer β) (i : Nat) (c : Cursor) : (r.read i c).tail = r.tail := by
  simp [read, tail]

theorem read_consistent (h : r.Consistent) (hc : r.cursors[i]? = some c) (hlt : c.next < r.tail)
    (hunread : c.unread c.next = true) : (r.read i c).Consistent where
  capacity_pos := h.capacity_pos
  rem := by
    intro pos slot hslot hroom
    rw [read_tail] at hroom
    obtain ⟨old, hold, rfl⟩ := read_slot hslot
    obtain ⟨hrem, hheld⟩ := h.rem pos old hold hroom
    split
    · next hpos =>
      subst hpos
      obtain ⟨hi, hget⟩ := List.getElem?_eq_some_iff.mp hc
      have hcount : (r.read i c).cursors.countP (·.unread c.next) = old.rem - 1 := by
        rw [read, countP_set hi, hget, hunread, unread_succ_self, hrem]
        rfl
      refine ⟨hcount.symm, ?_⟩
      -- the last one to read the value empties the slot
      exact take_held hheld
    · next hpos => exact ⟨hrem.trans (countP_set_of_eq hc (unread_succ (Ne.symm hpos))).symm, hheld⟩
  overwritten := by
    intro pos slot hslot hover
    rw [read_tail] at hover
    obtain ⟨old, hold, rfl⟩ := read_slot hslot
    have hnot := h.overwritten pos old hold hover
    split
    · simp [Slot.take, hnot]
    · exact hnot
  next_le := by
    intro d hd
    rw [read_tail]
    rcases mem_or_eq_of_mem_set hd with hd | heq
    · exact h.next_le d hd
    · rw [heq]
      exact hlt
  stop_le := by
    intro d hd stop hstop
    rw [read_tail]
    rcases mem_or_eq_of_mem_set hd with hd | heq
    · exact h.stop_le d hd stop hstop
    · rw [heq] at hstop
      exact h.stop_le c (mem_of_getElem? hc) stop hstop

theorem clearOldest_length (r : RingBuffer β) : r.clearOldest.length = r.tail := by
  unfold clearOldest
  split
  · exact length_modify ..
  · rfl

@[simp] theorem send_tail (r : RingBuffer β) (value : β) : (r.send value).tail = r.tail + 1 := by
  rw [tail, send, length_append, clearOldest_length, length_singleton]

@[simp] theorem send_capacity (r : RingBuffer β) (value : β) : (r.send value).capacity = r.capacity := rfl

theorem send_slot {value : β} (hslot : (r.send value).slots[pos]? = some slot) :
    (pos = r.tail ∧ slot = ⟨value, r.receiverCount, true⟩) ∨
      ∃ old, r.slots[pos]? = some old ∧ slot = if pos + r.capacity = r.tail then old.clear else old := by
  rw [send, List.getElem?_append, clearOldest_length] at hslot
  split at hslot
  · next hpos =>
    right
    unfold clearOldest at hslot
    split at hslot
    · next hroom =>
      rw [List.getElem?_modify] at hslot
      obtain ⟨old, hold, heq⟩ := map_eq_some_iff.mp hslot
      refine ⟨old, hold, heq.symm.trans ?_⟩
      by_cases heqpos : pos + r.capacity = r.tail
      · rw [if_pos (by omega), if_pos heqpos]
      · rw [if_neg (by omega), if_neg heqpos]
    · next hroom =>
      refine ⟨slot, hslot, ?_⟩
      rw [if_neg (by omega)]
  · next hpos =>
    left
    have hzero : pos - r.tail = 0 := by
      have hlt := (List.getElem?_eq_some_iff.mp hslot).1
      rw [length_singleton] at hlt
      omega
    rw [hzero] at hslot
    exact ⟨by omega, (some.inj hslot).symm⟩

theorem send_consistent (h : r.Consistent) (value : β) (hreceivers : 0 < r.receiverCount) :
    (r.send value).Consistent where
  capacity_pos := h.capacity_pos
  rem := by
    intro pos slot hslot hroom
    have hroom : r.tail + 1 ≤ pos + r.capacity := by simpa using hroom
    rcases send_slot hslot with ⟨rfl, rfl⟩ | ⟨old, hold, rfl⟩
    · -- the open readers are those that have to read the new value
      have hcount : r.receiverCount = r.cursors.countP (·.unread r.tail) := by
        apply countP_congr
        intro c hc
        rw [unread_eq_true_iff, isNone_iff_eq_none]
        constructor
        · intro hopen
          refine ⟨h.next_le c hc, fun stop hstop => ?_⟩
          rw [hopen] at hstop
          cases hstop
        · rintro ⟨-, hstop⟩
          cases hopen : c.stop with
          | none => rfl
          | some stop =>
            have hle := h.stop_le c hc stop hopen
            have hlt := hstop stop hopen
            omega
      exact ⟨hcount, by simp [hreceivers]⟩
    · rw [if_neg (by omega)]
      exact h.rem pos old hold (by omega)
  overwritten := by
    intro pos slot hslot hover
    have hover : pos + r.capacity < r.tail + 1 := by simpa using hover
    rcases send_slot hslot with ⟨rfl, rfl⟩ | ⟨old, hold, rfl⟩
    · have hpos := h.capacity_pos
      omega
    · split
      · rfl
      · exact h.overwritten pos old hold (by omega)
  next_le := by
    intro c hc
    rw [send_tail]
    exact Nat.le_succ_of_le (h.next_le c hc)
  stop_le := by
    intro c hc stop hstop
    rw [send_tail]
    exact Nat.le_succ_of_le (h.stop_le c hc stop hstop)

/-! ## Which values the operations let go -/

theorem read_holds (h : pos ≠ c.next) : (r.read i c).holds pos = r.holds pos := by
  rw [holds, holds, read, List.getElem?_modify]
  cases r.slots[pos]? with
  | none => rfl
  | some slot => simp [Ne.symm h]

def append (r : RingBuffer β) (value : β) : RingBuffer β := { r with slots := r.slots ++ [⟨value, r.receiverCount, true⟩] }

theorem append_tail (r : RingBuffer β) (value : β) : (r.append value).tail = r.tail + 1 := length_append ..

theorem append_holds (r : RingBuffer β) (value : β) (pos : Nat) :
    (r.append value).holds pos = if pos = r.tail then true else r.holds pos := by
  rw [holds, append, List.getElem?_append]
  split
  · next hlt =>
    have hne : ¬ pos = r.tail := Nat.ne_of_lt hlt
    rw [if_neg hne]
    rfl
  · next hge =>
    split
    · next heq => simp [heq, tail]
    · next hne =>
      have hover : ¬ pos - r.slots.length < 1 := by
        have hne : ¬ pos = r.slots.length := hne
        omega
      have hnone : r.slots[pos]? = none := List.getElem?_eq_none (Nat.le_of_not_lt hge)
      rw [holds, hnone, List.getElem?_eq_none (Nat.le_of_not_lt hover)]

theorem send_holds (hcapacity : 0 < r.capacity) (value : β) (pos : Nat) :
    (r.send value).holds pos = ((r.append value).holds pos && pos + r.capacity != r.tail) := by
  rw [append_holds]
  cases hslot : (r.send value).slots[pos]? with
  | none =>
    have hge : r.tail + 1 ≤ pos := by
      rw [← send_tail r value]
      exact List.getElem?_eq_none_iff.mp hslot
    have hnone : r.slots[pos]? = none := List.getElem?_eq_none (by exact Nat.le_of_succ_le hge)
    rw [holds, hslot, if_neg (by omega), holds, hnone]
    rfl
  | some slot =>
    rw [holds_eq hslot]
    rcases send_slot hslot with ⟨rfl, rfl⟩ | ⟨old, hold, rfl⟩
    · have hne : r.capacity ≠ 0 := Nat.ne_of_gt hcapacity
      simp [hne]
    · have hlt : pos < r.tail := (List.getElem?_eq_some_iff.mp hold).1
      have hne : ¬ pos = r.tail := by omega
      rw [if_neg hne, holds_eq hold]
      split
      · next heq => simp [Slot.clear, heq]
      · next hne => simp [hne]

/-! ## The values, from the first one on -/

def values (r : RingBuffer β) : List β := r.slots.map (·.value)

theorem values_length (r : RingBuffer β) : r.values.length = r.tail := length_map ..

theorem map_value_modify {f : Slot β → Slot β} (h : ∀ slot, (f slot).value = slot.value) (slots : List (Slot β))
    (pos : Nat) : (slots.modify pos f).map (·.value) = slots.map (·.value) := by
  apply ext_getElem?
  intro i
  rw [List.getElem?_map, List.getElem?_map, List.getElem?_modify]
  cases slots[i]? with
  | none => rfl
  | some slot =>
    split
    · exact congrArg some (h slot)
    · rfl

theorem take_value (slot : Slot β) : slot.take.value = slot.value := rfl

theorem clear_value (slot : Slot β) : slot.clear.value = slot.value := rfl

@[simp] theorem append_values (r : RingBuffer β) (value : β) : (r.append value).values = r.values ++ [value] := by
  rw [values, append, map_append]
  rfl

@[simp] theorem read_values (r : RingBuffer β) (i : Nat) (c : Cursor) : (r.read i c).values = r.values :=
  map_value_modify take_value r.slots c.next

@[simp] theorem send_values (r : RingBuffer β) (value : β) : (r.send value).values = r.values ++ [value] := by
  rw [values, send, map_append, values]
  unfold clearOldest
  split
  · rw [map_value_modify clear_value]
    rfl
  · rfl

end RingBuffer
