import Mathlib.Tactic.Common

/-
  Loops that pop work off a stack and may push more.

  `run step n s ops` makes at most `n` steps of `while let Some(op) = ops.pop()`.
  The rule `run_invariant` packages the one induction such a loop needs: an
  invariant that a step preserves and a measure that a step decreases give the
  invariant with an empty stack as soon as `n` is at least the measure.
-/

namespace Worklist

variable {σ ω : Type}

/-- At most `n` steps; what a step pushes goes on top. -/
def run (step : σ → ω → σ × List ω) : Nat → σ → List ω → σ × List ω
  | 0, s, ops => (s, ops)
  | _ + 1, s, [] => (s, [])
  | n + 1, s, op :: ops => run step n (step s op).1 ((step s op).2 ++ ops)

theorem run_invariant {step : σ → ω → σ × List ω} (I : σ → List ω → Prop) (μ : σ → List ω → Nat)
    (hstep : ∀ s op ops, I s (op :: ops) → I (step s op).1 ((step s op).2 ++ ops) ∧
      μ (step s op).1 ((step s op).2 ++ ops) < μ s (op :: ops)) :
    ∀ (n : Nat) (s : σ) (ops : List ω), I s ops → μ s ops ≤ n →
      I (run step n s ops).1 [] ∧ (run step n s ops).2 = []
  | 0, s, [], hI, _ => ⟨hI, rfl⟩
  | 0, s, op :: ops, hI, hμ => by
    have := (hstep s op ops hI).2
    omega
  | n + 1, s, [], hI, _ => ⟨hI, rfl⟩
  | n + 1, s, op :: ops, hI, hμ => by
    obtain ⟨hI', hlt⟩ := hstep s op ops hI
    exact run_invariant I μ hstep n _ _ hI' (by omega)

end Worklist
