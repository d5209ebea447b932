import Mathlib.Tactic.Common

/-
  Loops that break with a result.

  `Ends` is the loop of a body as a relation: no bound on the number of rounds is
  part of it, so to derive `Ends body s r` is to show that the loop terminates.
  `Ends.invariant` is the rule for what holds of the result, `Reaches.invariant` the
  one for the start of every round.
-/

namespace Loop

variable {σ ρ : Type}

/-- `loop { body }` from a state ends with a result. -/
inductive Ends (body : σ → σ ⊕ ρ) : σ → ρ → Prop
  | stop {s : σ} {r : ρ} (h : body s = .inr r) : Ends body s r
  | next {s s' : σ} {r : ρ} (h : body s = .inl s') (hs : Ends body s' r) : Ends body s r

variable {body : σ → σ ⊕ ρ}

theorem Ends.invariant {I : σ → Prop} {Q : ρ → Prop} (hnext : ∀ s s', I s → body s = .inl s' → I s')
    (hstop : ∀ s r, I s → body s = .inr r → Q r) {s : σ} {r : ρ} (h : Ends body s r) (hI : I s) : Q r := by
  induction h with
  | stop h => exact hstop _ _ hI h
  | next h hs ih => exact ih (hnext _ _ hI h)

inductive Reaches (body : σ → σ ⊕ ρ) (start : σ) : σ → Prop
  | start : Reaches body start start
  | next {s s' : σ} (hs : Reaches body start s) (h : body s = .inl s') : Reaches body start s'

theorem Reaches.invariant {I : σ → Prop} (hnext : ∀ s s', I s → body s = .inl s' → I s') {start s : σ}
    (h : Reaches body start s) (hI : I start) : I s := by
  induction h with
  | start => exact hI
  | next hs h ih => exact hnext _ _ ih h

theorem Reaches.ends {start s : σ} {r : ρ} (h : Reaches body start s) (hr : Ends body s r) : Ends body start r := by
  induction h with
  | start => exact hr
  | next hs h ih => exact ih (.next h hr)

end Loop
