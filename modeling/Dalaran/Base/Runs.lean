import Mathlib.Data.List.Perm.Basic
import Mathlib.Tactic.Common

/-
  Runs of a system whose parties take atomic steps in any order.

  A system is a step function: what one operation makes of a state, or `none` where
  no party can take that step there. Every interleaving of the parties is a list of
  operations.

  `run_induction` is the rule for runs: what each step keeps, as long as it meets a
  condition in the state it is taken in, a run keeps whose steps all meet it. What
  the parties have in hand between their steps is a list, from which each takes the
  first thing that is its own (`takeFirst`).
-/

namespace Runs

open Option

variable {σ ω : Type} (step : σ → ω → Option σ)

/-- The state after a sequence of steps, if each of them can be taken. -/
def run (st : σ) : List ω → Option σ
  | [] => some st
  | op :: ops => (step st op).bind fun st => run st ops

/-- Every step of a run meets a condition in the state it is taken in. -/
def StepsMeet (condition : σ → ω → Prop) (st : σ) : List ω → Prop
  | [] => True
  | op :: ops => condition st op ∧ ∀ st', step st op = some st' → StepsMeet condition st' ops

variable {step}

theorem run_cons_eq_some {st st' : σ} {op : ω} {ops : List ω} :
    run step st (op :: ops) = some st' ↔ ∃ next, step st op = some next ∧ run step next ops = some st' :=
  bind_eq_some_iff

variable {condition : σ → ω → Prop}

theorem StepsMeet.cons {st next : σ} {op : ω} {ops : List ω} (hstep : step st op = some next) (hop : condition st op)
    (hops : StepsMeet step condition next ops) :
    StepsMeet step condition st (op :: ops) :=
  ⟨hop, fun _ h => mem_unique hstep h ▸ hops⟩

theorem StepsMeet.of_forall {ops : List ω} (h : ∀ op ∈ ops, ∀ st, condition st op) :
    ∀ st, StepsMeet step condition st ops := by
  induction ops with
  | nil => exact fun _ => trivial
  | cons op ops ih =>
    intro st
    exact ⟨h op List.mem_cons_self st, fun next _ => ih (fun op hop => h op (List.mem_cons_of_mem _ hop)) next⟩

theorem run_induction {P : σ → Prop} (hstep : ∀ st op st', P st → condition st op → step st op = some st' → P st') :
    ∀ (ops : List ω) (st st' : σ), P st → StepsMeet step condition st ops → run step st ops = some st' → P st' := by
  intro ops
  induction ops with
  | nil =>
    intro st st' h _ hrun
    exact some.inj hrun ▸ h
  | cons op ops ih =>
    intro st st' h hmeets hrun
    obtain ⟨next, hnext, hrun⟩ := run_cons_eq_some.mp hrun
    exact ih next st' (hstep st op next h hmeets.1 hnext) (hmeets.2 next hnext) hrun

theorem run_invariant {P : σ → Prop} (hstep : ∀ st op st', P st → step st op = some st' → P st')
    (ops : List ω) (st st' : σ) (h : P st) (hrun : run step st ops = some st') : P st' := by
  induction ops generalizing st with
  | nil => exact some.inj hrun ▸ h
  | cons op ops ih =>
    obtain ⟨next, hnext, hrun⟩ := run_cons_eq_some.mp hrun
    exact ih next (hstep st op next h hnext) hrun

theorem run_work {work : σ → Nat} (hstep : ∀ st op st', condition st op → step st op = some st' →
    work st' + 1 = work st) (ops : List ω) (st st' : σ) (hmeets : StepsMeet step condition st ops)
    (hrun : run step st ops = some st') : ops.length + work st' = work st := by
  induction ops generalizing st with
  | nil => rw [some.inj hrun, List.length_nil, Nat.zero_add]
  | cons op ops ih =>
    obtain ⟨next, hnext, hrun⟩ := run_cons_eq_some.mp hrun
    have hrest := ih next (hmeets.2 next hnext) hrun
    have hfirst := hstep st op next hmeets.1 hnext
    rw [List.length_cons]
    omega

/-! ## What the parties have in hand -/

def takeFirst {α : Type} (p : α → Bool) : List α → Option (α × List α)
  | [] => none
  | a :: l => if p a then some (a, l) else (takeFirst p l).map fun found => (found.1, a :: found.2)

theorem takeFirst_spec {α : Type} {p : α → Bool} {l rest : List α} {a : α}
    (h : takeFirst p l = some (a, rest)) : p a = true ∧ l.Perm (a :: rest) := by
  induction l generalizing rest with
  | nil => cases h
  | cons b l ih =>
    simp only [takeFirst] at h
    split at h
    · next hb =>
      cases h
      exact ⟨hb, .refl _⟩
    · obtain ⟨⟨c, others⟩, hfound, heq⟩ := map_eq_some_iff.mp h
      cases heq
      have hrest := ih hfound
      exact ⟨hrest.1, (hrest.2.cons b).trans (.swap c b others)⟩

theorem takeFirst_map_fst {α : Type} (p : α → Bool) (l : List α) : (takeFirst p l).map Prod.fst = l.find? p := by
  induction l with
  | nil => rfl
  | cons a l ih =>
    rw [takeFirst, List.find?_cons]
    split
    · next h => simp [h]
    · next h =>
      simp only [h, ← ih, map_map]
      rfl

end Runs
