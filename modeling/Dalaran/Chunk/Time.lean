import Dalaran.Base.I64

/-
  Times and time ranges (`dl_log_types::index`).

  A `TimeInt` is an optional `NonMinI64`, stored in one word: the static time is
  `i64::MIN` and sorts before every temporal time. The model keeps the word.
-/

namespace Dalaran

/-! ## `TimeInt` -/

/-- A point in time on a timeline, or the static time. -/
structure TimeInt where
  asI64 : I64
  deriving DecidableEq

namespace TimeInt

theorem asI64_injective : Function.Injective TimeInt.asI64 := by
  rintro ⟨a⟩ ⟨b⟩ h
  simpa using h

instance : LinearOrder TimeInt := LinearOrder.lift' TimeInt.asI64 asI64_injective

def STATIC : TimeInt := ⟨I64.MIN⟩

/-- The smallest temporal time, one past the static time. -/
def MIN : TimeInt := ⟨⟨-9223372036854775807, by omega, by omega⟩⟩

def MAX : TimeInt := ⟨I64.MAX⟩

/-- A temporal time; the static time is clamped to `MIN`. -/
def newTemporal (time : I64) : TimeInt := if time = I64.MIN then MIN else ⟨time⟩

/-- Clamp the static time to `MIN`. -/
def saturatedTemporal (time : TimeInt) : TimeInt := max time MIN

/-- The next time. The static time stays. -/
def inc (time : TimeInt) : TimeInt :=
  if time = STATIC then time else newTemporal (time.asI64.saturatingAdd I64.ONE)

theorem le_def {a b : TimeInt} : a ≤ b ↔ a.asI64.val ≤ b.asI64.val := Iff.rfl

theorem lt_def {a b : TimeInt} : a < b ↔ a.asI64.val < b.asI64.val := Iff.rfl

@[simp] theorem MIN_val : MIN.asI64.val = -9223372036854775807 := rfl

@[simp] theorem MAX_val : MAX.asI64.val = 9223372036854775807 := rfl

theorem newTemporal_val (t : I64) : (newTemporal t).asI64.val = max (-9223372036854775807) t.val := by
  unfold newTemporal
  split
  · rename_i h
    rw [h, I64.MIN_val]
    rfl
  · rename_i h
    have hne : t.val ≠ -9223372036854775808 := fun hv => h (I64.val_injective hv)
    have := t.lo
    simp only
    omega

theorem newTemporal_of_ne {t : I64} (h : t ≠ I64.MIN) : newTemporal t = ⟨t⟩ := if_neg h

theorem MIN_le_newTemporal (t : I64) : MIN ≤ newTemporal t := by
  rw [le_def, newTemporal_val, MIN_val]
  omega

theorem le_MAX (t : TimeInt) : t ≤ MAX := t.asI64.hi

theorem saturatedTemporal_of_le {t : TimeInt} (h : MIN ≤ t) : saturatedTemporal t = t :=
  max_eq_left h

theorem saturatedTemporal_newTemporal (t : I64) : saturatedTemporal (newTemporal t) = newTemporal t :=
  saturatedTemporal_of_le (MIN_le_newTemporal t)

end TimeInt

/-! ## `AbsoluteTimeRange` -/

structure AbsoluteTimeRange where
  min : TimeInt
  max : TimeInt
  deriving DecidableEq

namespace AbsoluteTimeRange

def EMPTY : AbsoluteTimeRange := ⟨TimeInt.MAX, TimeInt.MIN⟩

/-- A range of two times, both made temporal. -/
def new (min max : TimeInt) : AbsoluteTimeRange := ⟨min.saturatedTemporal, max.saturatedTemporal⟩

/-- The distance of the two ends, as an unsigned length. -/
def absLength (r : AbsoluteTimeRange) : Nat := r.min.asI64.absDiff r.max.asI64

def contains (r : AbsoluteTimeRange) (t : TimeInt) : Bool := decide (r.min ≤ t) && decide (t ≤ r.max)

def intersects (r s : AbsoluteTimeRange) : Bool := decide (r.min ≤ s.max) && decide (s.min ≤ r.max)

def union (r s : AbsoluteTimeRange) : AbsoluteTimeRange :=
  ⟨Min.min r.min s.min, Max.max r.max s.max⟩

theorem contains_iff {r : AbsoluteTimeRange} {t : TimeInt} : r.contains t = true ↔ r.min ≤ t ∧ t ≤ r.max := by
  simp [contains]

theorem intersects_iff {r s : AbsoluteTimeRange} : r.intersects s = true ↔ r.min ≤ s.max ∧ s.min ≤ r.max := by
  simp [intersects]

end AbsoluteTimeRange

end Dalaran
