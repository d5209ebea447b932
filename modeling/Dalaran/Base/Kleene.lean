import Mathlib.Tactic.Common

/-
  Three-valued logic, as a query language has it.

  A truth value is `some true`, `some false`, or `none` where it is unknown. The
  lemmas say when a connective is true, which is all that a filter asks: it keeps
  the rows on which its expression is true.
-/

namespace Kleene

def and : Option Bool → Option Bool → Option Bool
  | some false, _ => some false
  | _, some false => some false
  | some true, some true => some true
  | _, _ => none

def or : Option Bool → Option Bool → Option Bool
  | some true, _ => some true
  | _, some true => some true
  | some false, some false => some false
  | _, _ => none

def not (a : Option Bool) : Option Bool := a.map (!·)

variable {a b : Option Bool}

@[simp] theorem and_eq_true : and a b = some true ↔ a = some true ∧ b = some true := by
  cases a with
  | none => cases b with
    | none => simp [and]
    | some b => cases b <;> simp [and]
  | some a => cases a <;> cases b with
    | none => simp [and]
    | some b => cases b <;> simp [and]

@[simp] theorem or_eq_true : or a b = some true ↔ a = some true ∨ b = some true := by
  cases a with
  | none => cases b with
    | none => simp [or]
    | some b => cases b <;> simp [or]
  | some a => cases a <;> cases b with
    | none => simp [or]
    | some b => cases b <;> simp [or]

/-! On known truth values the connectives are those of two-valued logic. -/

theorem and_some (p q : Bool) : and (some p) (some q) = some (p && q) := by
  cases p <;> cases q <;> rfl

theorem or_some (p q : Bool) : or (some p) (some q) = some (p || q) := by
  cases p <;> cases q <;> rfl

theorem not_some (p : Bool) : not (some p) = some (!p) := rfl

end Kleene
