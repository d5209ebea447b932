import Dalaran.Base.I64
import Dalaran.Base.Runs
import Dalaran.Base.U64
import Mathlib.Data.Finset.Card
import Mathlib.Data.List.Sort

/-
  The pipeline budget: how many bytes and how many segments are in flight.

  A fetch reserves bytes and the segments it touches before it starts, corrects its
  reservation when it knows its size, and the CPU worker gives the bytes and the
  segments back. The counter, the set of segments and the queue of waiting fetches
  are separate objects, so every call is several atomic steps, and those of different
  calls come in any order.

  A call is at most at one of its steps. Between its tries a fetch is in one of the
  `Phase`s. The steps that remain of any other call, once it has done its first one,
  stand in `calls`, and are taken one at a time (`BudgetOp.proceed`).

  Not modelled: the learned multiplier (a fetch comes with the bytes it reserves), the
  counter of empty emits (the stall breaker is armed at any time), metrics and logs.
  A fetch that waits is not cancelled. `committedBytes` and `Fetch.owns` only record
  what happened: the actual sizes of all commits, and the segments that a fetch holds.

  Correspondence (Rust ↔ Lean):
    `PriorityWaiter`, its order in the heap ↔ `Waiter`, `Waiter.before`
    `PipelineBudget::waiter_admittable` ↔ `admittable`
    `PipelineBudget::try_admit`, `try_acquire` ↔ `tryAdmit`
    `PipelineBudget::reserve_with_priority` ↔ `BudgetOp.reserve`, then `tryAdmit`, `enqueue`,
      `tryAdmit`, …
    its escape hatches ↔ `BudgetOp.escape`, then `insertSegments`
    `ReservationGuard::commit`, `adjust_reservation` ↔ `BudgetOp.commit`, then `clearForce`,
      `wakeNext`
    `Drop for ReservationGuard`, `refund_reservation` ↔ `BudgetOp.dropGuard`, then `wakeNext`,
      `vacate`
    `PipelineBudget::release` ↔ `BudgetOp.release`, then `clearForce`, `wakeNext`
    `PipelineBudget::publish_segment_finalized` ↔ `BudgetOp.finalize`, then `wakeNext`
-/

namespace Dalaran

open Option

abbrev SegmentId := String

/-- The segments that hold a reservation, and those of them that were admitted past the limit. -/
structure SegmentGate where
  all : Finset SegmentId
  bypass : Finset SegmentId
  bypass_subset : bypass ⊆ all

namespace SegmentGate

def empty : SegmentGate := ⟨∅, ∅, Finset.Subset.refl _⟩

/-- The segments that count against the limit. -/
def effectiveLen (gate : SegmentGate) : Nat := gate.all.card - gate.bypass.card

def newSegments (gate : SegmentGate) (segmentIds : List SegmentId) : Nat :=
  segmentIds.countP fun s => decide (s ∉ gate.all)

def extend (gate : SegmentGate) (segmentIds : List SegmentId) : SegmentGate :=
  ⟨gate.all ∪ segmentIds.toFinset, gate.bypass, gate.bypass_subset.trans Finset.subset_union_left⟩

/-- A segment that is new is admitted past the limit. -/
def insertPast (gate : SegmentGate) (s : SegmentId) : SegmentGate :=
  if s ∈ gate.all then gate
  else ⟨insert s gate.all, insert s gate.bypass, Finset.insert_subset_insert s gate.bypass_subset⟩

def extendPast (gate : SegmentGate) (segmentIds : List SegmentId) : SegmentGate := segmentIds.foldl insertPast gate

def remove (gate : SegmentGate) (s : SegmentId) : SegmentGate :=
  ⟨gate.all.erase s, gate.bypass.erase s, Finset.erase_subset_erase s gate.bypass_subset⟩

end SegmentGate

/-- An entry of the wait queue. -/
structure Waiter where
  taskTimeMin : I64
  seq : Nat
  fetch : Nat
  cancelled : Bool
  reservedBytes : UInt64
  segmentIds : List SegmentId

/-- The earlier time wakes first, and of equal times the one that was enqueued first. -/
def Waiter.before (a b : Waiter) : Prop :=
  a.taskTimeMin < b.taskTimeMin ∨ a.taskTimeMin = b.taskTimeMin ∧ a.seq ≤ b.seq

instance : DecidableRel Waiter.before := fun _ _ => inferInstanceAs (Decidable (_ ∨ _ ∧ _))

inductive Phase where
  /-- About to try for the first time. -/
  | reserving
  /-- The first try of a round failed. -/
  | failed
  /-- In the queue, about to try again; it may have been notified already. -/
  | enqueued (seq : Nat) (permit : Bool)
  /-- Waiting to be notified. -/
  | parked (seq : Nat)
  /-- Notified, about to start another round. -/
  | notified
  /-- Admitted; the call has not returned. -/
  | admitted
  /-- Its bytes are counted past the limits, its segments not yet. -/
  | escaping
  /-- The guard is held. -/
  | held
  | committed
  | dropped
  deriving DecidableEq

structure Fetch where
  taskTimeMin : I64
  reservedBytes : UInt64
  segmentIds : List SegmentId
  phase : Phase
  owns : List SegmentId

/-- A waiter's `Notify` is given its permit. -/
def Fetch.notify (f : Fetch) (seq : Nat) : Fetch :=
  if f.phase = .parked seq then { f with phase := .notified }
  else if f.phase = .enqueued seq false then { f with phase := .enqueued seq true }
  else f

def Fetch.returnGuard (f : Fetch) : Fetch := if f.phase = .admitted then { f with phase := .held } else f

/-- A step that remains of a call. -/
inductive Todo where
  | cancel (seq : Nat)
  | clearForce
  | wakeNext
  | vacate (segmentId : SegmentId)
  | returnGuard (fetch : Nat)
  deriving DecidableEq

structure PipelineBudget where
  budget : UInt64
  segmentLimit : Nat
  current : UInt64
  gate : SegmentGate
  forceOvercommit : Bool
  waitQueue : List Waiter
  waitSeq : Nat
  fetches : List Fetch
  calls : List (List Todo)
  committedBytes : Nat
  totalReleasedBytes : Nat

/-- One atomic step. -/
inductive BudgetOp where
  | reserve (taskTimeMin : I64) (reservedBytes : UInt64) (segmentIds : List SegmentId)
  | tryAdmit (fetch : Nat)
  | enqueue (fetch : Nat)
  | escape (fetch : Nat)
  | insertSegments (fetch : Nat)
  | commit (fetch : Nat) (actual : UInt64)
  | dropGuard (fetch : Nat)
  | release (bytes : UInt64)
  | finalize (segmentId : SegmentId)
  | armStallBreaker
  | notifyRowEmitted
  | proceed (call : Nat)

namespace PipelineBudget

/-- `with_exact_budget_and_metrics`. -/
def new (budget : UInt64) (segmentLimit : Nat) : PipelineBudget :=
  { budget, segmentLimit, current := 0, gate := .empty, forceOvercommit := false, waitQueue := [], waitSeq := 0,
    fetches := [], calls := [], committedBytes := 0, totalReleasedBytes := 0 }

/-- Whether a fetch of these bytes and segments passes the gates. -/
def admittable (b : PipelineBudget) (reservedBytes : UInt64) (segmentIds : List SegmentId) : Bool :=
  b.forceOvercommit ||
    (decide (b.gate.effectiveLen + b.gate.newSegments segmentIds ≤ b.segmentLimit) &&
      decide (b.current + reservedBytes ≤ b.budget))

/-- The two gates and what passing them changes. -/
def tryAdmit (b : PipelineBudget) (reservedBytes : UInt64) (segmentIds : List SegmentId) : Option PipelineBudget :=
  if b.forceOvercommit then
    some { b with current := b.current + reservedBytes, gate := b.gate.extendPast segmentIds }
  else if b.segmentLimit < b.gate.effectiveLen + b.gate.newSegments segmentIds then none
  else if b.current + reservedBytes ≤ b.budget then
    some { b with current := b.current + reservedBytes, gate := b.gate.extend segmentIds }
  else none

def setPhase (b : PipelineBudget) (fetch : Nat) (phase : Phase) : PipelineBudget :=
  { b with fetches := b.fetches.modify fetch fun f => { f with phase := phase } }

/-- The first waiter in order that passes the gates is notified; the cancelled ones are dropped. -/
def wakeNext (b : PipelineBudget) : PipelineBudget :=
  let live := b.waitQueue.filter (!·.cancelled)
  match Runs.takeFirst (fun w => b.admittable w.reservedBytes w.segmentIds) live with
  | none => { b with waitQueue := live }
  | some (w, rest) => { b with waitQueue := rest, fetches := b.fetches.modify w.fetch (Fetch.notify · w.seq) }

/-- `publish_segment_finalized` up to the end of the lock, and whether it wakes. -/
def removeSegment (b : PipelineBudget) (segmentId : SegmentId) : PipelineBudget × List Todo :=
  ({ b with gate := b.gate.remove segmentId }, if segmentId ∈ b.gate.all then [.wakeNext] else [])

/-- The first of the steps that remain of a call, and what remains then. -/
def take (b : PipelineBudget) (todo : Todo) : PipelineBudget × List Todo :=
  match todo with
  | .cancel seq =>
    ({ b with waitQueue := b.waitQueue.map fun w => if w.seq = seq then { w with cancelled := true } else w }, [])
  | .clearForce => ({ b with forceOvercommit := false }, [])
  | .wakeNext => (b.wakeNext, [])
  | .vacate segmentId => b.removeSegment segmentId
  | .returnGuard fetch => ({ b with fetches := b.fetches.modify fetch Fetch.returnGuard }, [])

/-- A fetch whose reservation can never pass the gates. -/
def isOversized (b : PipelineBudget) (f : Fetch) : Bool :=
  decide (b.budget < f.reservedBytes) || decide (b.segmentLimit < f.segmentIds.length)

/-- What a fetch does once it was admitted: it takes its waiter out of the queue and passes the wake on. -/
def afterAdmission (b : PipelineBudget) (fetch : Nat) (cancel : List Todo) : List Todo :=
  cancel ++ (if b.current < b.budget then [.wakeNext] else []) ++ [.returnGuard fetch]

/-- The phase after a try that failed, and the waiter a successful one cancels; `none` where a fetch
does not try. -/
def attempt (b : PipelineBudget) (f : Fetch) : Option (Phase × List Todo) :=
  match f.phase with
  | .reserving => if b.isOversized f then none else some (.failed, [])
  | .notified => some (.failed, [])
  | .enqueued seq permit => some (if permit then .notified else .parked seq, [.cancel seq])
  | _ => none

def tryFetch (b : PipelineBudget) (fetch : Nat) (f : Fetch) (next : Phase × List Todo) : PipelineBudget :=
  match b.tryAdmit f.reservedBytes f.segmentIds with
  | none => b.setPhase fetch next.1
  | some b =>
    { b with
      fetches := b.fetches.modify fetch fun f => { f with phase := .admitted, owns := f.segmentIds }
      calls := b.calls ++ [b.afterAdmission fetch next.2] }

def enqueue (b : PipelineBudget) (fetch : Nat) (f : Fetch) : PipelineBudget :=
  { b.setPhase fetch (.enqueued b.waitSeq false) with
    waitSeq := b.waitSeq + 1
    waitQueue := b.waitQueue.orderedInsert Waiter.before
      ⟨f.taskTimeMin, b.waitSeq, fetch, false, f.reservedBytes, f.segmentIds⟩ }

/-- `adjust_reservation`, up to the change of the counter. -/
def commit (b : PipelineBudget) (fetch : Nat) (f : Fetch) (actual : UInt64) : PipelineBudget :=
  let b := { b with
    fetches := b.fetches.modify fetch fun f => { f with phase := .committed }
    committedBytes := b.committedBytes + actual.toNat }
  if f.reservedBytes < actual then { b with current := b.current + (actual - f.reservedBytes) }
  else if actual < f.reservedBytes then
    { b with
      current := U64.saturatingSub b.current (f.reservedBytes - actual)
      calls := b.calls ++ [[.clearForce, .wakeNext]] }
  else b

/-- A guard that was not committed is dropped: the bytes go back, and the segments are vacated. -/
def dropGuard (b : PipelineBudget) (fetch : Nat) (f : Fetch) : PipelineBudget :=
  { b with
    current := U64.saturatingSub b.current f.reservedBytes
    fetches := b.fetches.modify fetch fun f => { f with phase := .dropped, owns := [] }
    calls := b.calls ++ [(if f.reservedBytes = 0 then [] else [.wakeNext]) ++ f.segmentIds.map .vacate] }

/-- The CPU worker is done with a segment, for all fetches that have committed it. -/
def finalize (b : PipelineBudget) (segmentId : SegmentId) : PipelineBudget :=
  let (b, wake) := b.removeSegment segmentId
  { b with
    fetches := b.fetches.map fun f =>
      if f.phase = .committed then { f with owns := f.owns.filter (· ≠ segmentId) } else f
    calls := b.calls ++ [wake] }

/-- One atomic step, unless nobody can take it there. -/
def step (b : PipelineBudget) : BudgetOp → Option PipelineBudget
  | .reserve taskTimeMin reservedBytes segmentIds =>
    some { b with fetches := b.fetches ++ [⟨taskTimeMin, reservedBytes, segmentIds, .reserving, []⟩] }
  | .tryAdmit fetch =>
    (b.fetches[fetch]?).bind fun f => (b.attempt f).map fun next => b.tryFetch fetch f next
  | .enqueue fetch =>
    (b.fetches[fetch]?).bind fun f => if f.phase = .failed then some (b.enqueue fetch f) else none
  | .escape fetch =>
    (b.fetches[fetch]?).bind fun f =>
      if f.phase = .reserving ∧ b.isOversized f = true then
        some { b.setPhase fetch .escaping with current := b.current + f.reservedBytes }
      else none
  | .insertSegments fetch =>
    (b.fetches[fetch]?).bind fun f =>
      if f.phase = .escaping then
        some { b with
          gate := b.gate.extendPast f.segmentIds
          fetches := b.fetches.modify fetch fun f => { f with phase := .held, owns := f.segmentIds } }
      else none
  | .commit fetch actual =>
    (b.fetches[fetch]?).bind fun f => if f.phase = .held then some (b.commit fetch f actual) else none
  | .dropGuard fetch =>
    (b.fetches[fetch]?).bind fun f => if f.phase = .held then some (b.dropGuard fetch f) else none
  | .release bytes =>
    some { b with
      current := U64.saturatingSub b.current bytes
      totalReleasedBytes := b.totalReleasedBytes + bytes.toNat
      calls := b.calls ++ [[.clearForce, .wakeNext]] }
  | .finalize segmentId => some (b.finalize segmentId)
  | .armStallBreaker =>
    some (if b.forceOvercommit then b else { b with forceOvercommit := true, calls := b.calls ++ [[.wakeNext]] })
  | .notifyRowEmitted => some { b with forceOvercommit := false }
  | .proceed call =>
    match b.calls[call]? with
    | some (todo :: rest) =>
      let (b, first) := b.take todo
      some { b with calls := b.calls.set call (first ++ rest) }
    | _ => none

section Inversion

variable {α β γ : Type} {found : Option α} {c : γ}

theorem of_guarded {p : α → Prop} {_ : ∀ a, Decidable (p a)} {g : α → γ}
    (h : (found.bind fun a => if p a then some (g a) else none) = some c) : ∃ a, found = some a ∧ p a ∧ c = g a := by
  obtain ⟨a, ha, h⟩ := bind_eq_some_iff.mp h
  obtain ⟨hp, h⟩ := ite_none_right_eq_some.mp h
  exact ⟨a, ha, hp, (some.inj h).symm⟩

theorem of_attempted {m : α → Option β} {g : α → β → γ} (h : (found.bind fun a => (m a).map (g a)) = some c) :
    ∃ a, found = some a ∧ ∃ next, m a = some next ∧ c = g a next := by
  obtain ⟨a, ha, h⟩ := bind_eq_some_iff.mp h
  obtain ⟨next, hnext, h⟩ := map_eq_some_iff.mp h
  exact ⟨a, ha, next, hnext, h.symm⟩

end Inversion

/-! ## The tries of a fetch -/

theorem mem_modify {fetches : List Fetch} {i : Nat} {g : Fetch → Fetch} {f' : Fetch} (h : f' ∈ fetches.modify i g) :
    f' ∈ fetches ∨ ∃ f, fetches[i]? = some f ∧ f' = g f := by
  obtain ⟨j, hj⟩ := List.mem_iff_getElem?.mp h
  rw [List.getElem?_modify] at hj
  obtain ⟨f, hf, heq⟩ := map_eq_some_iff.mp hj
  split at heq
  · next hij => exact .inr ⟨f, hij ▸ hf, heq.symm⟩
  · exact .inl (heq ▸ List.mem_of_getElem? hf)

variable {b : PipelineBudget}

theorem attempt_spec {f : Fetch} {next : Phase × List Todo} (h : b.attempt f = some next) :
    ((f.phase = .reserving ∨ f.phase = .notified) ∧ next = (.failed, [])) ∨
      ∃ seq permit, f.phase = .enqueued seq permit ∧
        next = (if permit then .notified else .parked seq, [.cancel seq]) := by
  unfold attempt at h
  split at h
  · next hphase =>
    obtain ⟨-, heq⟩ := ite_none_left_eq_some.mp h
    exact .inl ⟨.inl hphase, (some.inj heq).symm⟩
  · next hphase => exact .inl ⟨.inr hphase, (some.inj h).symm⟩
  · next seq permit hphase => exact .inr ⟨seq, permit, hphase, (some.inj h).symm⟩
  · cases h

theorem attempt_phase {f : Fetch} {next : Phase × List Todo} (h : b.attempt f = some next) :
    next.1 = .failed ∨ next.1 = .notified ∨ ∃ seq, next.1 = .parked seq := by
  obtain ⟨-, rfl⟩ | ⟨seq, permit, -, rfl⟩ := attempt_spec h
  · exact .inl rfl
  · cases permit with
    | true => exact .inr (.inl rfl)
    | false => exact .inr (.inr ⟨seq, rfl⟩)

variable {b' : PipelineBudget}

theorem tryAdmit_spec {reservedBytes : UInt64} {segmentIds : List SegmentId}
    (h : b.tryAdmit reservedBytes segmentIds = some b') :
    ∃ gate, b' = { b with current := b.current + reservedBytes, gate := gate } ∧
      (b.forceOvercommit = false → gate = b.gate.extend segmentIds ∧ b.current + reservedBytes ≤ b.budget) := by
  unfold tryAdmit at h
  split at h
  · next hforce =>
    cases h
    exact ⟨_, rfl, fun hnot => absurd (hforce.symm.trans hnot) (by decide)⟩
  · obtain ⟨-, h⟩ := ite_none_left_eq_some.mp h
    obtain ⟨hle, heq⟩ := ite_none_right_eq_some.mp h
    cases heq
    exact ⟨_, rfl, fun _ => ⟨rfl, hle⟩⟩

theorem tryAdmit_isSome (b : PipelineBudget) (reservedBytes : UInt64) (segmentIds : List SegmentId) :
    (b.tryAdmit reservedBytes segmentIds).isSome = b.admittable reservedBytes segmentIds := by
  unfold tryAdmit admittable
  by_cases hforce : b.forceOvercommit = true
  · simp [hforce]
  · by_cases hroom : b.segmentLimit < b.gate.effectiveLen + b.gate.newSegments segmentIds
    · simp [hforce, hroom]
    · by_cases hbytes : b.current + reservedBytes ≤ b.budget
      · simp [hforce, hroom, hbytes, Nat.not_lt.mp hroom]
      · simp [hforce, hroom, hbytes]

theorem tryAdmit_eq_none {reservedBytes : UInt64} {segmentIds : List SegmentId} :
    b.tryAdmit reservedBytes segmentIds = none ↔ b.admittable reservedBytes segmentIds = false := by
  rw [← tryAdmit_isSome, isSome_eq_false_iff, isNone_iff_eq_none]

end PipelineBudget
end Dalaran
