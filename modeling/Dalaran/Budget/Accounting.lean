import Dalaran.Budget.PipelineBudget
import Mathlib.Algebra.Order.BigOperators.Group.List
import Mathlib.Algebra.Order.Group.Nat

/-
  The byte counter of the pipeline budget.

  `current` is the sum of the outstanding reservations and of the committed bytes
  that are not released yet, as long as no more is released than was committed and
  the sum stays below 2^64 (`KeepsBytes`). An admission through the gates ends
  within the budget; one past them (`escape`) need not.
-/

namespace Dalaran

open List U64

/-- The bytes that a fetch has reserved and neither committed nor given back. -/
def Fetch.outstanding (f : Fetch) : Nat :=
  if f.phase = .admitted ∨ f.phase = .escaping ∨ f.phase = .held then f.reservedBytes.toNat else 0

theorem Fetch.outstanding_notify (f : Fetch) (seq : Nat) : (f.notify seq).outstanding = f.outstanding := by
  unfold Fetch.notify
  split
  · next h => simp [Fetch.outstanding, h]
  · split
    · next h => simp [Fetch.outstanding, h]
    · rfl

theorem Fetch.outstanding_returnGuard (f : Fetch) : f.returnGuard.outstanding = f.outstanding := by
  unfold Fetch.returnGuard
  split
  · next h => simp [Fetch.outstanding, h]
  · rfl

namespace PipelineBudget

def outstanding (b : PipelineBudget) : Nat := (b.fetches.map Fetch.outstanding).sum

def load (b : PipelineBudget) : Nat := b.outstanding + (b.committedBytes - b.totalReleasedBytes)

/-- The bytes a step would add keep the sum below 2^64, and a release gives back committed bytes. -/
def KeepsBytes (b : PipelineBudget) : BudgetOp → Prop
  | .tryAdmit fetch | .escape fetch =>
    ∀ f, b.fetches[fetch]? = some f → b.load + f.reservedBytes.toNat < 2 ^ 64
  | .commit fetch actual =>
    ∀ f, b.fetches[fetch]? = some f → b.load + actual.toNat < 2 ^ 64 + f.reservedBytes.toNat
  | .release bytes => b.totalReleasedBytes + bytes.toNat ≤ b.committedBytes
  | _ => True

structure Exact (b : PipelineBudget) : Prop where
  current : b.current.toNat = b.load
  released : b.totalReleasedBytes ≤ b.committedBytes

/-! ## The sum over the fetches -/

variable {f : Fetch}

theorem sum_modify {fetches : List Fetch} {i : Nat} {g : Fetch → Fetch} (h : fetches[i]? = some f) :
    ((fetches.modify i g).map Fetch.outstanding).sum + f.outstanding =
      (fetches.map Fetch.outstanding).sum + (g f).outstanding := by
  induction fetches generalizing i with
  | nil => cases h
  | cons a fetches ih =>
    cases i with
    | zero =>
      cases h
      simp only [modify_zero_cons, map_cons, sum_cons]
      omega
    | succ i =>
      have hrest := ih h
      simp only [modify_succ_cons, map_cons, sum_cons]
      omega

theorem sum_modify_of_eq (fetches : List Fetch) (i : Nat) {g : Fetch → Fetch}
    (h : ∀ f, (g f).outstanding = f.outstanding) :
    ((fetches.modify i g).map Fetch.outstanding).sum = (fetches.map Fetch.outstanding).sum := by
  induction fetches generalizing i with
  | nil => simp
  | cons a fetches ih =>
    cases i with
    | zero => simp [h]
    | succ i =>
      simp [ih]

variable {b : PipelineBudget}

theorem le_outstanding (h : f ∈ b.fetches) : f.outstanding ≤ b.outstanding :=
  single_le_sum (by simp) _ (mem_map_of_mem h)

/-! ## What the steps do to the counter -/

/-- A step that neither counts nor discounts bytes. -/
structure SameBytes (b b' : PipelineBudget) : Prop where
  budget : b'.budget = b.budget
  current : b'.current = b.current
  outstanding : b'.outstanding = b.outstanding
  committed : b'.committedBytes = b.committedBytes
  released : b'.totalReleasedBytes = b.totalReleasedBytes

variable {b' : PipelineBudget}

theorem Exact.congr (hb : b.Exact) (h : SameBytes b b') : b'.Exact where
  current := by rw [h.current, hb.current, load, load, h.outstanding, h.committed, h.released]
  released := by rw [h.released, h.committed]; exact hb.released

theorem wakeNext_sameBytes (b : PipelineBudget) : SameBytes b b.wakeNext := by
  simp only [wakeNext]
  split
  · exact ⟨rfl, rfl, rfl, rfl, rfl⟩
  · exact ⟨rfl, rfl, sum_modify_of_eq _ _ fun f => f.outstanding_notify _, rfl, rfl⟩

theorem take_sameBytes (b : PipelineBudget) (todo : Todo) : SameBytes b (b.take todo).1 := by
  cases todo with
  | wakeNext => exact wakeNext_sameBytes b
  | returnGuard fetch => exact ⟨rfl, rfl, sum_modify_of_eq _ _ Fetch.outstanding_returnGuard, rfl, rfl⟩
  | cancel seq => exact ⟨rfl, rfl, rfl, rfl, rfl⟩
  | clearForce => exact ⟨rfl, rfl, rfl, rfl, rfl⟩
  | vacate segmentId => exact ⟨rfl, rfl, rfl, rfl, rfl⟩

theorem outstanding_of_attempt {next : Phase × List Todo}
    (h : b.attempt f = some next) : f.outstanding = 0 ∧ ({ f with phase := next.1 } : Fetch).outstanding = 0 := by
  obtain ⟨hphase | hphase, rfl⟩ | ⟨seq, permit, hphase, rfl⟩ := attempt_spec h
  · simp [Fetch.outstanding, hphase]
  · simp [Fetch.outstanding, hphase]
  · cases permit <;> simp [Fetch.outstanding, hphase]

variable {fetch : Nat}

theorem tryFetch_exact {next : Phase × List Todo} (h : b.Exact) (hf : b.fetches[fetch]? = some f)
    (hattempt : b.attempt f = some next)
    (hfits : b.load + f.reservedBytes.toNat < 2 ^ 64) : (b.tryFetch fetch f next).Exact := by
  obtain ⟨hbefore, hafter⟩ := outstanding_of_attempt hattempt
  have hcurrent := h.current
  unfold tryFetch
  cases htried : b.tryAdmit f.reservedBytes f.segmentIds with
  | none =>
    have hsum := sum_modify (g := fun f => { f with phase := next.1 }) hf
    apply h.congr
    refine ⟨rfl, rfl, ?_, rfl, rfl⟩
    rw [hbefore, hafter] at hsum
    exact hsum
  | some admitted =>
    obtain ⟨gate, rfl, -⟩ := tryAdmit_spec htried
    have hsum := sum_modify (g := fun f => { f with phase := .admitted, owns := f.segmentIds }) hf
    have hnew : ({ f with phase := .admitted, owns := f.segmentIds } : Fetch).outstanding = f.reservedBytes.toNat := by
      simp [Fetch.outstanding]
    rw [hbefore, hnew, Nat.add_zero] at hsum
    refine ⟨?_, h.released⟩
    simp only [load, outstanding] at hcurrent hfits ⊢
    rw [toNat_add_of_lt (by omega), hcurrent, hsum]
    omega

theorem escape_exact (h : b.Exact) (hf : b.fetches[fetch]? = some f) (hphase : f.phase = .reserving)
    (hfits : b.load + f.reservedBytes.toNat < 2 ^ 64) :
    ({ b.setPhase fetch .escaping with current := b.current + f.reservedBytes } : PipelineBudget).Exact := by
  have hcurrent := h.current
  have hsum := sum_modify (g := fun f => { f with phase := .escaping }) hf
  have hbefore : f.outstanding = 0 := by simp [Fetch.outstanding, hphase]
  have hnew : ({ f with phase := .escaping } : Fetch).outstanding = f.reservedBytes.toNat := by
    simp [Fetch.outstanding]
  rw [hbefore, hnew, Nat.add_zero] at hsum
  refine ⟨?_, h.released⟩
  simp only [load, outstanding, setPhase] at hcurrent hfits ⊢
  rw [toNat_add_of_lt (by omega), hcurrent, hsum]
  omega

theorem commit_exact {actual : UInt64} (h : b.Exact) (hf : b.fetches[fetch]? = some f) (hphase : f.phase = .held)
    (hfits : b.load + actual.toNat < 2 ^ 64 + f.reservedBytes.toNat) : (b.commit fetch f actual).Exact := by
  have hcurrent := h.current
  have hreleased := h.released
  have hsum := sum_modify (g := fun f => { f with phase := .committed }) hf
  have hbefore : f.outstanding = f.reservedBytes.toNat := by simp [Fetch.outstanding, hphase]
  have hnew : ({ f with phase := .committed } : Fetch).outstanding = 0 := by simp [Fetch.outstanding]
  simp only [load, outstanding] at hcurrent hfits
  simp only [commit, UInt64.lt_iff_toNat_lt]
  split
  · next hlt =>
    have hgrowth : (actual - f.reservedBytes).toNat = actual.toNat - f.reservedBytes.toNat :=
      toNat_sub_of_le (by omega)
    refine ⟨?_, Nat.le_trans hreleased (Nat.le_add_right ..)⟩
    simp only [load, outstanding]
    rw [toNat_add_of_lt (by omega), hgrowth]
    omega
  · split
    · refine ⟨?_, Nat.le_trans hreleased (Nat.le_add_right ..)⟩
      simp only [load, outstanding]
      rw [toNat_saturatingSub, toNat_sub_of_le (by omega)]
      omega
    · refine ⟨?_, Nat.le_trans hreleased (Nat.le_add_right ..)⟩
      simp only [load, outstanding]
      omega

theorem dropGuard_exact (h : b.Exact) (hf : b.fetches[fetch]? = some f)
    (hphase : f.phase = .held) : (b.dropGuard fetch f).Exact := by
  have hcurrent := h.current
  have hsum := sum_modify (g := fun f => { f with phase := .dropped, owns := [] }) hf
  have hbefore : f.outstanding = f.reservedBytes.toNat := by simp [Fetch.outstanding, hphase]
  have hnew : ({ f with phase := .dropped, owns := [] } : Fetch).outstanding = 0 := by simp [Fetch.outstanding]
  refine ⟨?_, h.released⟩
  simp only [load, outstanding, dropGuard] at hcurrent ⊢
  rw [toNat_saturatingSub]
  omega

theorem finalize_sameBytes (b : PipelineBudget) (segmentId : SegmentId) : SameBytes b (b.finalize segmentId) := by
  refine ⟨rfl, rfl, ?_, rfl, rfl⟩
  simp only [outstanding, finalize, removeSegment, map_map]
  congr 1
  apply map_congr_left
  intro f _
  simp only [Function.comp_apply]
  split
  · next hphase => simp [Fetch.outstanding, hphase]
  · rfl

theorem step_exact {op : BudgetOp} (h : b.Exact) (hkeeps : b.KeepsBytes op)
    (hstep : b.step op = some b') : b'.Exact := by
  have hcurrent := h.current
  cases op with
  | reserve taskTimeMin reservedBytes segmentIds =>
    cases hstep
    apply h.congr
    refine ⟨rfl, rfl, ?_, rfl, rfl⟩
    rw [outstanding, map_append, sum_append]
    rfl
  | tryAdmit fetch =>
    obtain ⟨f, hf, next, hattempt, rfl⟩ := of_attempted hstep
    exact tryFetch_exact h hf hattempt (hkeeps f hf)
  | enqueue fetch =>
    obtain ⟨f, hf, hphase, rfl⟩ := of_guarded hstep
    have hsum := sum_modify (g := fun f => { f with phase := .enqueued b.waitSeq false }) hf
    have hbefore : f.outstanding = 0 := by simp [Fetch.outstanding, hphase]
    have hnew : ({ f with phase := .enqueued b.waitSeq false } : Fetch).outstanding = 0 := by simp [Fetch.outstanding]
    rw [hbefore, hnew] at hsum
    exact h.congr ⟨rfl, rfl, hsum, rfl, rfl⟩
  | escape fetch =>
    obtain ⟨f, hf, ⟨hphase, -⟩, rfl⟩ := of_guarded hstep
    exact escape_exact h hf hphase (hkeeps f hf)
  | insertSegments fetch =>
    obtain ⟨f, hf, hphase, rfl⟩ := of_guarded hstep
    have hsum := sum_modify (g := fun f => { f with phase := .held, owns := f.segmentIds }) hf
    have hnew : ({ f with phase := .held, owns := f.segmentIds } : Fetch).outstanding = f.outstanding := by
      simp [Fetch.outstanding, hphase]
    rw [hnew] at hsum
    exact h.congr ⟨rfl, rfl, Nat.add_right_cancel hsum, rfl, rfl⟩
  | commit fetch actual =>
    obtain ⟨f, hf, hphase, rfl⟩ := of_guarded hstep
    exact commit_exact h hf hphase (hkeeps f hf)
  | dropGuard fetch =>
    obtain ⟨f, hf, hphase, rfl⟩ := of_guarded hstep
    exact dropGuard_exact h hf hphase
  | release bytes =>
    cases hstep
    have hcovered : b.totalReleasedBytes + bytes.toNat ≤ b.committedBytes := hkeeps
    refine ⟨?_, hcovered⟩
    simp only [load, outstanding] at hcurrent ⊢
    rw [toNat_saturatingSub]
    omega
  | finalize segmentId =>
    cases hstep
    exact h.congr (finalize_sameBytes b segmentId)
  | armStallBreaker =>
    cases hstep
    split
    · exact h
    · exact h.congr ⟨rfl, rfl, rfl, rfl, rfl⟩
  | notifyRowEmitted =>
    cases hstep
    exact h.congr ⟨rfl, rfl, rfl, rfl, rfl⟩
  | proceed call =>
    simp only [step] at hstep
    split at hstep
    · next todo rest _ =>
      cases hstep
      have htake := take_sameBytes b todo
      exact h.congr ⟨htake.budget, htake.current, htake.outstanding, htake.committed, htake.released⟩
    · cases hstep

theorem run_exact {budget : UInt64} {segmentLimit : Nat} {ops : List BudgetOp}
    (hsteps : Runs.StepsMeet step KeepsBytes (new budget segmentLimit) ops)
    (hrun : Runs.run step (new budget segmentLimit) ops = some b) : b.Exact :=
  Runs.run_induction (fun _ _ _ h hkeeps hstep => step_exact h hkeeps hstep) ops _ b ⟨rfl, le_rfl⟩ hsteps hrun

/-! ## Main results -/

theorem current_le_of_admitted (hstep : b.step (.tryAdmit fetch) = some b')
    (hadmitted : ∃ f, b'.fetches[fetch]? = some f ∧ f.phase = .admitted) (hforce : b.forceOvercommit = false) :
    b'.current ≤ b'.budget := by
  obtain ⟨f, hf, hnext⟩ := Option.bind_eq_some_iff.mp hstep
  obtain ⟨next, hattempt, heq⟩ := Option.map_eq_some_iff.mp hnext
  subst heq
  unfold tryFetch at hadmitted ⊢
  cases htried : b.tryAdmit f.reservedBytes f.segmentIds with
  | none =>
    -- a try that fails leaves the fetch in another phase
    obtain ⟨f', hf', hphase⟩ := hadmitted
    have hnot : next.1 ≠ .admitted := by
      rcases attempt_phase hattempt with h | h | ⟨seq, h⟩ <;> simp [h]
    simp only [htried, setPhase, List.getElem?_modify_eq, hf, Option.map_eq_map, Option.map_some,
      Option.some.injEq] at hf'
    rw [← hf'] at hphase
    exact absurd hphase hnot
  | some admitted =>
    obtain ⟨gate, rfl, hgate⟩ := tryAdmit_spec htried
    exact (hgate hforce).2

/-- The counter is the sum of the outstanding reservations and the committed bytes that are not
released, so nothing is subtracted that it does not hold; and an admission through the gates ends
within the budget. -/
theorem current_accounts (budget : UInt64) (segmentLimit : Nat) (ops : List BudgetOp) (b : PipelineBudget)
    (hsteps : Runs.StepsMeet step KeepsBytes (new budget segmentLimit) ops)
    (hrun : Runs.run step (new budget segmentLimit) ops = some b) :
    b.current.toNat = b.outstanding + (b.committedBytes - b.totalReleasedBytes) ∧
      (∀ f ∈ b.fetches, f.phase = .held → f.reservedBytes ≤ b.current) ∧
      b.committedBytes - b.totalReleasedBytes ≤ b.current.toNat ∧
      ∀ fetch b', b.step (.tryAdmit fetch) = some b' →
        (∃ f, b'.fetches[fetch]? = some f ∧ f.phase = .admitted) → b.forceOvercommit = false →
        b'.current ≤ b'.budget := by
  have h := (run_exact hsteps hrun).current
  refine ⟨h, fun f hf hphase => ?_, ?_, fun fetch b' hstep hadmitted hforce => ?_⟩
  · have hle := le_outstanding hf
    rw [Fetch.outstanding, if_pos (.inr (.inr hphase))] at hle
    rw [UInt64.le_iff_toNat_le, h, load]
    omega
  · rw [h, load]
    omega
  · exact current_le_of_admitted hstep hadmitted hforce

/-- A fetch of four bytes out of ten turns out to have six, of which two are released. -/
theorem current_accounts_of_release :
    ∃ b : PipelineBudget, Runs.run step (new 10 1)
        [.reserve I64.MIN 4 ["s"], .tryAdmit 0, .proceed 0, .proceed 0, .commit 0 6, .release 2] = some b ∧
      b.current.toNat = b.outstanding + (b.committedBytes - b.totalReleasedBytes) ∧
      (∀ f ∈ b.fetches, f.phase = .held → f.reservedBytes ≤ b.current) ∧
      b.committedBytes - b.totalReleasedBytes ≤ b.current.toNat ∧
      ∀ fetch b', b.step (.tryAdmit fetch) = some b' →
        (∃ f, b'.fetches[fetch]? = some f ∧ f.phase = .admitted) → b.forceOvercommit = false →
        b'.current ≤ b'.budget := by
  refine ⟨_, rfl, current_accounts 10 1
    [.reserve I64.MIN 4 ["s"], .tryAdmit 0, .proceed 0, .proceed 0, .commit 0 6, .release 2] _ ?_ rfl⟩
  refine .cons rfl trivial (.cons rfl (fun f hf => ?_) (.cons rfl trivial (.cons rfl trivial
    (.cons rfl (fun f hf => ?_) (.cons rfl ?_ trivial)))))
  · cases hf
    decide
  · cases hf
    decide
  · show (2 : Nat) ≤ 6
    decide

/-- A fetch of two segments is admitted where one is allowed, with bytes that are not left. And two
fetches of 2^63 bytes leave a counter at zero. -/
theorem current_overruns :
    (¬ ∀ (budget : UInt64) (segmentLimit : Nat) (ops : List BudgetOp) (b b' : PipelineBudget) (fetch : Nat) (f f' : Fetch),
      Runs.run step (new budget segmentLimit) ops = some b → b.fetches[fetch]? = some f →
      f.reservedBytes ≤ b.budget → b.forceOvercommit = false →
      (b.step (.tryAdmit fetch) = some b' ∨ b.step (.escape fetch) = some b') → b'.fetches[fetch]? = some f' →
      (f'.phase = .admitted ∨ f'.phase = .escaping) → b'.current ≤ b'.budget) ∧
    ¬ ∀ (budget : UInt64) (segmentLimit : Nat) (ops : List BudgetOp) (b : PipelineBudget),
      (∀ op ∈ ops, ∀ bytes, op ≠ .release bytes) → Runs.run step (new budget segmentLimit) ops = some b →
      b.current.toNat = b.outstanding + (b.committedBytes - b.totalReleasedBytes) := by
  constructor
  · intro h
    have hle := h 10 1 [.reserve I64.MIN 8 ["s"], .tryAdmit 0, .reserve I64.MIN 5 ["t", "u"]] _ _ 1 _ _
      rfl rfl (by decide) rfl (.inr rfl) rfl (.inr rfl)
    exact absurd hle (by decide)
  · intro h
    have heq := h 1 1 [.reserve I64.MIN 9223372036854775808 [], .escape 0,
      .reserve I64.MIN 9223372036854775808 [], .escape 1] _ (by simp) rfl
    exact absurd heq (by decide)

end PipelineBudget
end Dalaran
