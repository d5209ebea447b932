import Dalaran.Budget.PipelineBudget
import Mathlib.Data.List.Forall2

/-
  The wake-ups of the pipeline budget.

  A wake goes to the first waiter that passes the gates. A fetch that was woken and
  finds the room taken parks again and passes nothing on. So no wake-up is lost as
  long as what was handed to a fetch stays there for it, and whatever lets a parked
  fetch in wakes somebody (`KeepsWaking`).
-/

namespace Dalaran

open List Option Runs Fetch

/-! ## Waiting fetches -/

def Fetch.parked (f : Fetch) : Bool :=
  match f.phase with
  | .parked _ => true
  | _ => false

def Fetch.notified (f : Fetch) : Bool :=
  match f.phase with
  | .notified => true
  | .enqueued _ permit => permit
  | _ => false

def Fetch.Idle (f : Fetch) : Prop := f.parked = false ∧ f.notified = false

def Fetch.seq? (f : Fetch) : Option Nat :=
  match f.phase with
  | .parked seq => some seq
  | .enqueued seq _ => some seq
  | _ => none

/-- Its waiter is in the queue, and a wake has not reached it. -/
def Fetch.WaitsAt (f : Fetch) (seq : Nat) : Prop := f.seq? = some seq ∧ f.notified = false

/-- A fetch that goes on without a new waiter. -/
def Fetch.Onward (f f' : Fetch) : Prop :=
  f'.reservedBytes = f.reservedBytes ∧ f'.segmentIds = f.segmentIds ∧ ∀ seq,
    (f'.seq? = some seq → f.seq? = some seq) ∧ (f'.WaitsAt seq → f.WaitsAt seq)

theorem Fetch.Onward.refl (f : Fetch) : f.Onward f := ⟨rfl, rfl, fun _ => ⟨id, id⟩⟩

variable {f f' : Fetch}

theorem Fetch.Onward.of_none (hbytes : f'.reservedBytes = f.reservedBytes) (hids : f'.segmentIds = f.segmentIds)
    (h : f'.seq? = none) : f.Onward f' := by
  refine ⟨hbytes, hids, fun seq => ⟨fun hseq => ?_, fun hwaits => ?_⟩⟩
  · cases h.symm.trans hseq
  · cases h.symm.trans hwaits.1

theorem Fetch.notify_of_waits {seq : Nat} (h : f.WaitsAt seq) : (f.notify seq).notified = true := by
  obtain ⟨hseq, hnot⟩ := h
  unfold seq? at hseq
  unfold notified at hnot
  unfold notify notified
  split at hseq
  · next hphase =>
    cases hseq
    simp [hphase]
  · next permit hphase =>
    cases hseq
    rw [hphase] at hnot
    have hpermit : permit = false := hnot
    simp [hphase, hpermit]
  · cases hseq

theorem Fetch.notify_of_not_waits {seq : Nat} (h : ¬ f.WaitsAt seq) : f.notify seq = f := by
  unfold notify
  split
  · next hphase => exact absurd (by simp [WaitsAt, seq?, notified, hphase]) h
  · split
    · next hphase => exact absurd (by simp [WaitsAt, seq?, notified, hphase]) h
    · rfl

theorem Fetch.notify_reserved (f : Fetch) (seq : Nat) :
    (f.notify seq).reservedBytes = f.reservedBytes ∧ (f.notify seq).segmentIds = f.segmentIds := by
  unfold notify
  split
  · exact ⟨rfl, rfl⟩
  · split <;> exact ⟨rfl, rfl⟩

theorem Fetch.notify_onward (f : Fetch) (seq : Nat) : f.Onward (f.notify seq) := by
  unfold notify
  split
  · exact .of_none rfl rfl rfl
  · split
    · next hphase =>
      refine ⟨rfl, rfl, fun seq' => ⟨fun hseq => ?_, fun hwaits => ?_⟩⟩
      · simpa [seq?, hphase] using hseq
      · cases hwaits.2
    · exact .refl f

theorem Fetch.returnGuard_onward (f : Fetch) : f.Onward f.returnGuard := by
  unfold returnGuard
  split
  · exact .of_none rfl rfl rfl
  · exact .refl f

namespace PipelineBudget

/-- Whether a fetch would pass the gates. -/
def passes (b : PipelineBudget) (f : Fetch) : Bool := b.admittable f.reservedBytes f.segmentIds

/-- The first waiter that `wakeNext` notifies. -/
def nextWaiter (b : PipelineBudget) : Option Waiter :=
  (b.waitQueue.filter (!·.cancelled)).find? fun w => b.admittable w.reservedBytes w.segmentIds

/-- A parked fetch would pass the gates. -/
def ParkedPasses (b : PipelineBudget) : Prop := ∃ f ∈ b.fetches, f.parked = true ∧ b.passes f = true

/-- A fetch that was woken would pass the gates. -/
def NotifiedPasses (b : PipelineBudget) : Prop := ∃ f ∈ b.fetches, f.notified = true ∧ b.passes f = true

/-- A call is still to wake somebody. -/
def WakeDue (b : PipelineBudget) : Prop := ∃ call ∈ b.calls, Todo.wakeNext ∈ call

/-- A parked fetch that would pass is going to be woken, now or by a fetch that was. -/
def Awake (b : PipelineBudget) : Prop := b.ParkedPasses → b.WakeDue ∨ b.NotifiedPasses

def counting (b : PipelineBudget) (f : Fetch) : PipelineBudget :=
  { b with current := b.current + f.reservedBytes, gate := b.gate.extend f.segmentIds }

/-- New gates let no parked fetch in, and do not shut out all those that were woken while one is to pass. -/
def KeepsWakes (b b' : PipelineBudget) : Prop :=
  b'.ParkedPasses → b.ParkedPasses ∧ (b.NotifiedPasses → b'.NotifiedPasses)

/-- A step that wakes nobody leaves nobody to be woken: a raise of the counter, segments admitted past
the limit, a row emitted, an admission that leaves no budget. And a wake goes to a fetch that waits,
or is not needed. -/
def KeepsWaking (b : PipelineBudget) : BudgetOp → Prop
  | .tryAdmit fetch =>
    ∀ f, b.fetches[fetch]? = some f → b.passes f = true → b.budget ≤ b.current + f.reservedBytes →
      ¬ (b.counting f).ParkedPasses
  | .escape fetch =>
    ∀ f, b.fetches[fetch]? = some f → b.KeepsWakes { b with current := b.current + f.reservedBytes }
  | .insertSegments fetch =>
    ∀ f, b.fetches[fetch]? = some f → b.KeepsWakes { b with gate := b.gate.extendPast f.segmentIds }
  | .commit fetch actual =>
    ∀ f, b.fetches[fetch]? = some f → f.reservedBytes < actual →
      b.KeepsWakes { b with current := b.current + (actual - f.reservedBytes) }
  | .notifyRowEmitted => b.KeepsWakes { b with forceOvercommit := false }
  | .proceed call =>
    ∀ rest w f, b.calls[call]? = some (.wakeNext :: rest) → b.nextWaiter = some w → b.fetches[w.fetch]? = some f →
      f.WaitsAt w.seq ∨ ({ b with calls := b.calls.set call rest } : PipelineBudget).Awake
  | _ => True

/-- No call is in progress, and no fetch is to try. -/
def Quiescent (b : PipelineBudget) : Prop :=
  (∀ call ∈ b.calls, call = []) ∧
    ∀ f ∈ b.fetches, f.parked = true ∨ f.phase = .held ∨ f.phase = .committed ∨ f.phase = .dropped

instance (b : PipelineBudget) : Decidable b.Quiescent := inferInstanceAs (Decidable (_ ∧ _))

/-! ## The waiters and the fetches agree -/

/-- What remains of a call: a waiter is cancelled whose fetch does not wait any more, and where the
stall breaker is reset a wake follows. -/
def CallFits (b : PipelineBudget) (call : List Todo) : Prop :=
  (∀ seq, .cancel seq ∈ call → seq < b.waitSeq ∧ ∀ f ∈ b.fetches, f.seq? ≠ some seq) ∧
    (.clearForce ∈ call → call = [.clearForce, .wakeNext])

structure Agrees (b : PipelineBudget) : Prop where
  entry : ∀ w ∈ b.waitQueue,
    ∃ f, b.fetches[w.fetch]? = some f ∧ w.reservedBytes = f.reservedBytes ∧ w.segmentIds = f.segmentIds
  waiter : ∀ i f seq, b.fetches[i]? = some f → f.WaitsAt seq →
    ∃ w ∈ b.waitQueue, w.fetch = i ∧ w.seq = seq ∧ w.cancelled = false
  fresh : ∀ f ∈ b.fetches, ∀ seq, f.seq? = some seq → seq < b.waitSeq
  distinct : ∀ (i j : Nat) f g seq, b.fetches[i]? = some f → b.fetches[j]? = some g →
    f.seq? = some seq → g.seq? = some seq → i = j
  calls : ∀ call ∈ b.calls, b.CallFits call

variable {g : Fetch → Fetch} {i : Nat} {R : Fetch → Fetch → Prop} {fetches : List Fetch}

theorem forall₂_modify (hrefl : ∀ f, R f f)
    (h : ∀ f, fetches[i]? = some f → R f (g f)) : Forall₂ R fetches (fetches.modify i g) := by
  induction fetches generalizing i with
  | nil => simp
  | cons a fetches ih =>
    cases i with
    | zero =>
      exact .cons (h a rfl) (forall₂_same.mpr fun f _ => hrefl f)
    | succ i =>
      exact .cons (hrefl a) (ih h)

theorem forall₂_getElem? {l l' : List Fetch} (h : Forall₂ R l l')
    (hf : l[i]? = some f) : ∃ f', l'[i]? = some f' ∧ R f f' := by
  induction h generalizing i with
  | nil => cases hf
  | cons hab _ ih =>
    cases i with
    | zero =>
      cases hf
      exact ⟨_, rfl, hab⟩
    | succ i => exact ih hf

theorem forall₂_getElem?_right {l l' : List Fetch} (h : Forall₂ R l l')
    (hf : l'[i]? = some f') : ∃ f, l[i]? = some f ∧ R f f' := forall₂_getElem? h.flip hf

variable {b b' : PipelineBudget}

theorem mem_onward (h : Forall₂ Fetch.Onward b.fetches b'.fetches) (hf' : f' ∈ b'.fetches) :
    ∃ f ∈ b.fetches, f.Onward f' := by
  obtain ⟨i, hi⟩ := mem_iff_getElem?.mp hf'
  obtain ⟨f, hf, honward⟩ := forall₂_getElem?_right h hi
  exact ⟨f, mem_of_getElem? hf, honward⟩

theorem CallFits.onward {call : List Todo} (h : b.CallFits call) (hseq : b.waitSeq ≤ b'.waitSeq)
    (hfetches : Forall₂ Fetch.Onward b.fetches b'.fetches) : b'.CallFits call := by
  refine ⟨fun seq hcancel => ?_, h.2⟩
  obtain ⟨hlt, hgone⟩ := h.1 seq hcancel
  refine ⟨by omega, fun f' hf' hseq' => ?_⟩
  obtain ⟨f, hf, honward⟩ := mem_onward hfetches hf'
  exact hgone f hf ((honward.2.2 seq).1 hseq')

theorem CallFits.of_plain {call : List Todo} (hcancel : ∀ seq, Todo.cancel seq ∉ call)
    (hclear : Todo.clearForce ∉ call) : b.CallFits call :=
  ⟨fun seq h => absurd h (hcancel seq), fun h => absurd h hclear⟩

theorem CallFits.clear : b.CallFits [.clearForce, .wakeNext] := by
  refine ⟨fun seq h => ?_, fun _ => rfl⟩
  simp at h

variable {first rest : List Todo} {todo : Todo}

theorem CallFits.tail (h : b.CallFits (todo :: rest))
    (hfirst : first = [] ∨ first = [.wakeNext]) : b.CallFits (first ++ rest) := by
  have hmem : ∀ t, t ∈ first ++ rest → t = .wakeNext ∨ t ∈ rest := by
    intro t ht
    rcases hfirst with rfl | rfl
    · exact .inr ht
    · exact mem_cons.mp ht
  refine ⟨fun seq hcancel => ?_, fun hclear => ?_⟩
  · rcases hmem _ hcancel with heq | hrest
    · cases heq
    · exact h.1 seq (mem_cons_of_mem _ hrest)
  · rcases hmem _ hclear with heq | hrest
    · cases heq
    · cases h.2 (mem_cons_of_mem _ hrest)
      simp at hrest

theorem Agrees.onward (h : b.Agrees) (hseq : b'.waitSeq = b.waitSeq)
    (hfetches : Forall₂ Fetch.Onward b.fetches b'.fetches)
    (hentry : ∀ w' ∈ b'.waitQueue, ∃ w ∈ b.waitQueue,
      w'.fetch = w.fetch ∧ w'.reservedBytes = w.reservedBytes ∧ w'.segmentIds = w.segmentIds)
    (hwaiter : ∀ w ∈ b.waitQueue, w.cancelled = false →
      (∃ f', b'.fetches[w.fetch]? = some f' ∧ f'.WaitsAt w.seq) → w ∈ b'.waitQueue)
    (hcalls : ∀ call ∈ b'.calls, b'.CallFits call) : b'.Agrees where
  entry := by
    intro w' hw'
    obtain ⟨w, hw, hfetch, hbytes, hids⟩ := hentry w' hw'
    obtain ⟨f, hf, hfbytes, hfids⟩ := h.entry w hw
    obtain ⟨f', hf', honward⟩ := forall₂_getElem? hfetches hf
    refine ⟨f', hfetch ▸ hf', ?_, ?_⟩
    · rw [hbytes, hfbytes, honward.1]
    · rw [hids, hfids, honward.2.1]
  waiter := by
    intro i f' seq hf' hwaits
    obtain ⟨f, hf, honward⟩ := forall₂_getElem?_right hfetches hf'
    obtain ⟨w, hw, rfl, rfl, hlive⟩ := h.waiter i f seq hf ((honward.2.2 seq).2 hwaits)
    exact ⟨w, hwaiter w hw hlive ⟨f', hf', hwaits⟩, rfl, rfl, hlive⟩
  fresh := by
    intro f' hf' seq hseq'
    obtain ⟨f, hf, honward⟩ := mem_onward hfetches hf'
    rw [hseq]
    exact h.fresh f hf seq ((honward.2.2 seq).1 hseq')
  distinct := by
    intro i j f' g' seq hf' hg' hfseq hgseq
    obtain ⟨f, hf, hfonward⟩ := forall₂_getElem?_right hfetches hf'
    obtain ⟨g, hg, hgonward⟩ := forall₂_getElem?_right hfetches hg'
    exact h.distinct i j f g seq hf hg ((hfonward.2.2 seq).1 hfseq) ((hgonward.2.2 seq).1 hgseq)
  calls := hcalls

theorem Agrees.sameQueue (h : b.Agrees) (hseq : b'.waitSeq = b.waitSeq) (hqueue : b'.waitQueue = b.waitQueue)
    (hfetches : Forall₂ Fetch.Onward b.fetches b'.fetches) (hcalls : ∀ call ∈ b'.calls, b'.CallFits call) :
    b'.Agrees := by
  refine h.onward hseq hfetches (fun w hw => ⟨w, hqueue ▸ hw, rfl, rfl, rfl⟩) (fun w hw _ _ => ?_) hcalls
  rw [hqueue]
  exact hw

variable {started : List (List Todo)}

theorem Agrees.calls_append (h : b.Agrees) (hseq : b'.waitSeq = b.waitSeq)
    (hfetches : Forall₂ Fetch.Onward b.fetches b'.fetches) (hcalls : b'.calls = b.calls ++ started)
    (hstarted : ∀ call ∈ started, b'.CallFits call) :
    ∀ call ∈ b'.calls, b'.CallFits call := by
  intro call hcall
  rw [hcalls] at hcall
  rcases mem_append.mp hcall with hmem | hnew
  · exact (h.calls call hmem).onward hseq.ge hfetches
  · exact hstarted call hnew

theorem forall₂_onward_refl (fetches : List Fetch) : Forall₂ Fetch.Onward fetches fetches :=
  forall₂_same.mpr fun f _ => .refl f

/-! ## What one step of a call does -/

theorem wakeNext_fetches (b : PipelineBudget) : Forall₂ Fetch.Onward b.fetches b.wakeNext.fetches := by
  simp only [wakeNext]
  split
  · exact forall₂_onward_refl _
  · exact forall₂_modify .refl fun f _ => f.notify_onward _

theorem wakeNext_queue {w : Waiter} (hw : w ∈ b.wakeNext.waitQueue) : w ∈ b.waitQueue := by
  have hlive : ∀ w ∈ b.waitQueue.filter (!·.cancelled), w ∈ b.waitQueue := fun w hw => (mem_filter.mp hw).1
  simp only [wakeNext] at hw
  split at hw
  · exact hlive w hw
  · next heq => exact hlive w ((takeFirst_spec heq).2.mem_iff.mpr (mem_cons_of_mem _ hw))

theorem wakeNext_waiter {w : Waiter} (hw : w ∈ b.waitQueue) (hlive : w.cancelled = false)
    (hwaits : ∃ f', b.wakeNext.fetches[w.fetch]? = some f' ∧ f'.WaitsAt w.seq) : w ∈ b.wakeNext.waitQueue := by
  have hmem : w ∈ b.waitQueue.filter (!·.cancelled) := mem_filter.mpr ⟨hw, by simp [hlive]⟩
  obtain ⟨f', hf', hwaits⟩ := hwaits
  simp only [wakeNext] at hf' ⊢
  split at hf'
  · exact hmem
  · next woken rest heq =>
    rcases mem_cons.mp ((takeFirst_spec heq).2.mem_iff.mp hmem) with rfl | hrest
    · rw [List.getElem?_modify_eq] at hf'
      obtain ⟨f, -, rfl⟩ := map_eq_some_iff.mp hf'
      by_cases h : f.WaitsAt w.seq
      · exact absurd ((notify_of_waits h).symm.trans hwaits.2) (by decide)
      · rw [notify_of_not_waits h] at hwaits
        exact absurd hwaits h
    · exact hrest

theorem take_fetches (b : PipelineBudget) (todo : Todo) :
    Forall₂ Fetch.Onward b.fetches (b.take todo).1.fetches := by
  cases todo with
  | wakeNext => exact wakeNext_fetches b
  | returnGuard fetch => exact forall₂_modify .refl fun f _ => f.returnGuard_onward
  | cancel seq => exact forall₂_onward_refl _
  | clearForce => exact forall₂_onward_refl _
  | vacate s => exact forall₂_onward_refl _

theorem removeSegment_wakes (b : PipelineBudget) (s : SegmentId) :
    (b.removeSegment s).2 = [] ∨ (b.removeSegment s).2 = [.wakeNext] := by
  simp only [removeSegment]
  split
  · exact .inr rfl
  · exact .inl rfl

theorem take_calls (b : PipelineBudget) (todo : Todo) :
    ((b.take todo).2 = [] ∨ (b.take todo).2 = [.wakeNext]) ∧ (b.take todo).1.calls = b.calls ∧
      (b.take todo).1.waitSeq = b.waitSeq := by
  cases todo with
  | wakeNext =>
    refine ⟨.inl rfl, ?_⟩
    show b.wakeNext.calls = b.calls ∧ b.wakeNext.waitSeq = b.waitSeq
    simp only [wakeNext]
    split <;> exact ⟨rfl, rfl⟩
  | vacate s => exact ⟨removeSegment_wakes b s, rfl, rfl⟩
  | returnGuard fetch => exact ⟨.inl rfl, rfl, rfl⟩
  | cancel seq => exact ⟨.inl rfl, rfl, rfl⟩
  | clearForce => exact ⟨.inl rfl, rfl, rfl⟩

theorem cancel_waiter {seq : Nat} (hgone : ∀ f ∈ b.fetches, f.seq? ≠ some seq) {w : Waiter} (hw : w ∈ b.waitQueue)
    (hwaits : ∃ f', b.fetches[w.fetch]? = some f' ∧ f'.WaitsAt w.seq) :
    w ∈ b.waitQueue.map fun w => if w.seq = seq then { w with cancelled := true } else w := by
  obtain ⟨f', hf', hseq, -⟩ := hwaits
  refine List.mem_map.mpr ⟨w, hw, if_neg ?_⟩
  rintro rfl
  exact hgone f' (mem_of_getElem? hf') hseq

variable {call : Nat}

theorem take_agrees (h : b.Agrees) (hcall : b.calls[call]? = some (todo :: rest)) :
    ({ (b.take todo).1 with calls := (b.take todo).1.calls.set call ((b.take todo).2 ++ rest) } :
      PipelineBudget).Agrees := by
  have hfits := h.calls _ (mem_of_getElem? hcall)
  have hfetches := take_fetches b todo
  obtain ⟨hfirst, hcalls, hseq⟩ := take_calls b todo
  refine h.onward ?_ ?_ ?_ ?_ ?_
  · exact hseq
  · exact hfetches
  · cases todo with
    | wakeNext => exact fun w hw => ⟨w, wakeNext_queue hw, rfl, rfl, rfl⟩
    | cancel seq =>
      intro w' hw'
      obtain ⟨w, hw, rfl⟩ := List.mem_map.mp hw'
      refine ⟨w, hw, ?_⟩
      split <;> exact ⟨rfl, rfl, rfl⟩
    | returnGuard fetch | clearForce => exact fun w hw => ⟨w, hw, rfl, rfl, rfl⟩
    | vacate s => exact fun w hw => ⟨w, hw, rfl, rfl, rfl⟩
  · cases todo with
    | wakeNext => exact fun w hw hlive hwaits => wakeNext_waiter hw hlive hwaits
    | cancel seq => exact fun w hw _ hwaits => cancel_waiter (hfits.1 seq mem_cons_self).2 hw hwaits
    | returnGuard fetch => exact fun w hw _ _ => hw
    | clearForce => exact fun w hw _ _ => hw
    | vacate s => exact fun w hw _ _ => hw
  · intro call' hcall'
    rcases mem_or_eq_of_mem_set hcall' with hmem | rfl
    · exact (h.calls call' (hcalls ▸ hmem)).onward hseq.ge hfetches
    · exact (hfits.tail hfirst).onward hseq.ge hfetches

/-! ## The other steps -/

theorem reserve_agrees (h : b.Agrees) (hphase : f.phase = .reserving) :
    ({ b with fetches := b.fetches ++ [f] } : PipelineBudget).Agrees := by
  have hseq : f.seq? = none := by simp [seq?, hphase]
  -- a fetch with a waiter is an old one
  have hold : ∀ (i : Nat) g seq, (b.fetches ++ [f])[i]? = some g → g.seq? = some seq → b.fetches[i]? = some g := by
    intro i g seq hg hgseq
    rcases Nat.lt_or_ge i b.fetches.length with hi | hi
    · rwa [List.getElem?_append_left hi] at hg
    · rw [List.getElem?_append_right hi] at hg
      cases mem_singleton.mp (mem_of_getElem? hg)
      cases hseq.symm.trans hgseq
  refine ⟨fun w hw => ?_, fun i g seq hg hwaits => ?_, fun g hg seq hgseq => ?_, fun i j g g' seq hg hg' hgseq hgseq' => ?_,
    fun call hcall => ?_⟩
  · obtain ⟨g, hg, hbytes, hids⟩ := h.entry w hw
    exact ⟨g, List.getElem?_append_left (List.getElem?_eq_some_iff.mp hg).1 ▸ hg, hbytes, hids⟩
  · exact h.waiter i g seq (hold i g seq hg hwaits.1) hwaits
  · obtain ⟨i, hi⟩ := mem_iff_getElem?.mp hg
    exact h.fresh g (mem_of_getElem? (hold i g seq hi hgseq)) seq hgseq
  · exact h.distinct i j g g' seq (hold i g seq hg hgseq) (hold j g' seq hg' hgseq') hgseq hgseq'
  · refine ⟨fun seq hcancel => ⟨((h.calls call hcall).1 seq hcancel).1, fun g hg hgseq => ?_⟩, (h.calls call hcall).2⟩
    obtain ⟨i, hi⟩ := mem_iff_getElem?.mp hg
    exact ((h.calls call hcall).1 seq hcancel).2 g (mem_of_getElem? (hold i g seq hi hgseq)) hgseq

variable {fetch : Nat}

theorem enqueue_agrees (h : b.Agrees) (hf : b.fetches[fetch]? = some f) : (b.enqueue fetch f).Agrees := by
  have hfetch : ∀ (i : Nat) g', (b.enqueue fetch f).fetches[i]? = some g' →
      (i = fetch ∧ g' = { f with phase := .enqueued b.waitSeq false }) ∨ i ≠ fetch ∧ b.fetches[i]? = some g' := by
    intro i g' hg'
    simp only [enqueue, setPhase, List.getElem?_modify] at hg'
    by_cases hi : fetch = i
    · subst hi
      rw [hf] at hg'
      simp only [if_pos, Option.map_eq_map, map_some, Option.some.injEq] at hg'
      exact .inl ⟨rfl, hg'.symm⟩
    · simp only [hi, if_false, Option.map_eq_map, Option.map_id'] at hg'
      exact .inr ⟨fun h => hi h.symm, hg'⟩
  have hnew : ({ f with phase := .enqueued b.waitSeq false } : Fetch).seq? = some b.waitSeq := rfl
  have hqueue : ∀ w, w ∈ (b.enqueue fetch f).waitQueue ↔
      w = ⟨f.taskTimeMin, b.waitSeq, fetch, false, f.reservedBytes, f.segmentIds⟩ ∨ w ∈ b.waitQueue := fun w =>
    mem_orderedInsert _
  have hfresh : ∀ (i : Nat) g, b.fetches[i]? = some g → g.seq? ≠ some b.waitSeq := fun i g hg hseq =>
    Nat.lt_irrefl _ (h.fresh g (mem_of_getElem? hg) _ hseq)
  refine ⟨fun w hw => ?_, fun i g' seq hg' hwaits => ?_, fun g' hg' seq hseq => ?_,
    fun i j g g' seq hg hg' hgseq hgseq' => ?_, fun call hcall => ?_⟩
  · have hmodify : ∀ (i : Nat) g, b.fetches[i]? = some g → ∃ g', (b.enqueue fetch f).fetches[i]? = some g' ∧
        g'.reservedBytes = g.reservedBytes ∧ g'.segmentIds = g.segmentIds := by
      intro i g hg
      simp only [enqueue, setPhase, List.getElem?_modify, hg]
      split <;> exact ⟨_, rfl, rfl, rfl⟩
    rcases (hqueue w).mp hw with rfl | hmem
    · obtain ⟨g', hg', hbytes, hids⟩ := hmodify fetch f hf
      exact ⟨g', hg', hbytes.symm, hids.symm⟩
    · obtain ⟨g, hg, hbytes, hids⟩ := h.entry w hmem
      obtain ⟨g', hg', hbytes', hids'⟩ := hmodify w.fetch g hg
      exact ⟨g', hg', hbytes.trans hbytes'.symm, hids.trans hids'.symm⟩
  · rcases hfetch i g' hg' with ⟨rfl, rfl⟩ | ⟨-, hg⟩
    · exact ⟨_, (hqueue _).mpr (.inl rfl), rfl, mem_unique hnew hwaits.1, rfl⟩
    · obtain ⟨w, hw, hfetch, hseq, hlive⟩ := h.waiter i g' seq hg hwaits
      exact ⟨w, (hqueue w).mpr (.inr hw), hfetch, hseq, hlive⟩
  · obtain ⟨i, hi⟩ := mem_iff_getElem?.mp hg'
    show seq < b.waitSeq + 1
    rcases hfetch i g' hi with ⟨-, rfl⟩ | ⟨-, hg⟩
    · cases hnew.symm.trans hseq
      exact Nat.lt_succ_self _
    · exact Nat.lt_succ_of_lt (h.fresh g' (mem_of_getElem? hg) seq hseq)
  · rcases hfetch i g hg with ⟨hi, rfl⟩ | ⟨-, hi⟩
    · rcases hfetch j g' hg' with ⟨hj, -⟩ | ⟨-, hj⟩
      · rw [hi, hj]
      · cases hnew.symm.trans hgseq
        exact absurd hgseq' (hfresh j g' hj)
    · rcases hfetch j g' hg' with ⟨-, rfl⟩ | ⟨-, hj⟩
      · cases hnew.symm.trans hgseq'
        exact absurd hgseq (hfresh i g hi)
      · exact h.distinct i j g g' seq hi hj hgseq hgseq'
  · have hfits := h.calls call hcall
    refine ⟨fun seq hcancel => ?_, hfits.2⟩
    obtain ⟨hlt, hgone⟩ := hfits.1 seq hcancel
    refine ⟨Nat.lt_succ_of_lt hlt, fun g' hg' hseq => ?_⟩
    obtain ⟨i, hi⟩ := mem_iff_getElem?.mp hg'
    rcases hfetch i g' hi with ⟨-, rfl⟩ | ⟨-, hg⟩
    · cases hnew.symm.trans hseq
      exact Nat.lt_irrefl _ hlt
    · exact hgone g' (mem_of_getElem? hg) hseq

variable {next : Phase × List Todo}

theorem failed_onward (hattempt : b.attempt f = some next) : f.Onward { f with phase := next.1 } := by
  obtain ⟨-, rfl⟩ | ⟨seq, permit, hphase, rfl⟩ := attempt_spec hattempt
  · exact .of_none rfl rfl rfl
  · cases permit with
    | true => exact .of_none rfl rfl rfl
    | false =>
      refine ⟨rfl, rfl, fun seq' => ⟨fun hseq => ?_, fun hwaits => ?_⟩⟩
      · simpa [seq?, hphase] using hseq
      · simpa [WaitsAt, seq?, notified, hphase] using hwaits

theorem afterAdmission_fits (h : b.Agrees) (hf : b.fetches[fetch]? = some f) (hattempt : b.attempt f = some next)
    (hg : (g f).seq? = none) (hseq : b'.waitSeq = b.waitSeq) (hfetches : b'.fetches = b.fetches.modify fetch g) :
    b'.CallFits (b'.afterAdmission fetch next.2) := by
  have hmem : ∀ todo, todo ∈ b'.afterAdmission fetch next.2 →
      todo ∈ next.2 ∨ todo = .wakeNext ∨ todo = .returnGuard fetch := by
    intro todo htodo
    rw [afterAdmission, mem_append, mem_append, mem_singleton] at htodo
    obtain (hcancel | hwake) | hguard := htodo
    · exact .inl hcancel
    · split at hwake
      · exact .inr (.inl (mem_singleton.mp hwake))
      · cases hwake
    · exact .inr (.inr hguard)
  obtain ⟨-, rfl⟩ | ⟨seq, permit, hphase, rfl⟩ := attempt_spec hattempt
  · apply CallFits.of_plain
    · intro seq hcancel
      simpa using hmem _ hcancel
    · intro hclear
      simpa using hmem _ hclear
  · have hfseq : f.seq? = some seq := by simp [seq?, hphase]
    refine ⟨fun seq' hcancel => ?_, fun hclear => ?_⟩
    · have hseq' : seq' = seq := by simpa using hmem _ hcancel
      subst hseq'
      refine ⟨hseq ▸ h.fresh f (mem_of_getElem? hf) seq' hfseq, fun f' hf' hseq' => ?_⟩
      obtain ⟨i, hi⟩ := mem_iff_getElem?.mp hf'
      rw [hfetches, List.getElem?_modify] at hi
      obtain ⟨f₀, hf₀, heq⟩ := map_eq_some_iff.mp hi
      split at heq
      · next hfetch =>
        subst hfetch
        cases hf.symm.trans hf₀
        rw [← heq, hg] at hseq'
        cases hseq'
      · next hne =>
        have hold : f₀ = f' := heq
        exact hne (h.distinct fetch i f f₀ seq' hf hf₀ hfseq (hold ▸ hseq'))
    · have hnot := hmem _ hclear
      simp at hnot

theorem tryFetch_agrees (h : b.Agrees) (hf : b.fetches[fetch]? = some f)
    (hattempt : b.attempt f = some next) : (b.tryFetch fetch f next).Agrees := by
  unfold tryFetch
  cases htried : b.tryAdmit f.reservedBytes f.segmentIds with
  | none =>
    have hfetches : Forall₂ Onward b.fetches (b.setPhase fetch next.1).fetches := by
      refine forall₂_modify .refl fun f₀ hf₀ => ?_
      cases hf.symm.trans hf₀
      exact failed_onward hattempt
    exact h.sameQueue rfl rfl hfetches fun call hcall => (h.calls call hcall).onward (le_rfl) hfetches
  | some admitted =>
    obtain ⟨gate, rfl, -⟩ := tryAdmit_spec htried
    have hfetches : Forall₂ Onward b.fetches
        (b.fetches.modify fetch fun f => { f with phase := .admitted, owns := f.segmentIds }) :=
      forall₂_modify .refl fun f _ => .of_none rfl rfl rfl
    refine h.sameQueue rfl rfl hfetches (h.calls_append rfl hfetches rfl fun call hcall => ?_)
    rw [mem_singleton.mp hcall]
    exact afterAdmission_fits h hf hattempt (g := fun f => { f with phase := .admitted, owns := f.segmentIds }) rfl rfl rfl

theorem Agrees.goOn (h : b.Agrees) (hseq : b'.waitSeq = b.waitSeq) (hqueue : b'.waitQueue = b.waitQueue)
    (hfetches : b'.fetches = b.fetches.modify fetch g) (hcalls : b'.calls = b.calls ++ started)
    (hg : ∀ f : Fetch, f.Onward (g f)) (hstarted : ∀ call ∈ started, b'.CallFits call) : b'.Agrees := by
  have honward : Forall₂ Onward b.fetches b'.fetches := by
    rw [hfetches]
    exact forall₂_modify .refl fun f _ => hg f
  exact h.sameQueue hseq hqueue honward (h.calls_append hseq honward hcalls hstarted)

theorem Agrees.stay (h : b.Agrees) (hseq : b'.waitSeq = b.waitSeq) (hqueue : b'.waitQueue = b.waitQueue)
    (hfetches : b'.fetches = b.fetches) (hcalls : b'.calls = b.calls ++ started)
    (hstarted : ∀ call ∈ started, b'.CallFits call) : b'.Agrees := by
  have honward : Forall₂ Onward b.fetches b'.fetches := by
    rw [hfetches]
    exact forall₂_onward_refl _
  exact h.sameQueue hseq hqueue honward (h.calls_append hseq honward hcalls hstarted)

theorem commit_agrees {actual : UInt64} (h : b.Agrees) : (b.commit fetch f actual).Agrees := by
  have hg : ∀ f : Fetch, f.Onward { f with phase := .committed } := fun f => .of_none rfl rfl rfl
  simp only [commit]
  split
  · exact h.goOn rfl rfl rfl (append_nil _).symm hg (by simp)
  · split
    · refine h.goOn rfl rfl rfl rfl hg fun call hcall => ?_
      rw [mem_singleton.mp hcall]
      exact .clear
    · exact h.goOn rfl rfl rfl (append_nil _).symm hg (by simp)

theorem dropGuard_agrees (h : b.Agrees) : (b.dropGuard fetch f).Agrees := by
  refine h.goOn rfl rfl rfl rfl (fun f => .of_none rfl rfl rfl) fun call hcall => ?_
  rw [mem_singleton.mp hcall]
  apply CallFits.of_plain
  · intro seq
    split <;> simp
  · split <;> simp

theorem finalize_agrees (h : b.Agrees) (s : SegmentId) : (b.finalize s).Agrees := by
  have honward : Forall₂ Onward b.fetches (b.finalize s).fetches := by
    refine forall₂_map_right_iff.mpr (forall₂_same.mpr fun f _ => ?_)
    split
    · next hphase => exact .of_none rfl rfl (by simp [seq?, hphase])
    · exact .refl f
  refine h.sameQueue rfl rfl honward (h.calls_append rfl honward rfl fun call hcall => ?_)
  rw [mem_singleton.mp hcall]
  show (b.finalize s).CallFits (b.removeSegment s).2
  rcases removeSegment_wakes b s with heq | heq
  · exact heq ▸ .of_plain (by simp) (by simp)
  · exact heq ▸ .of_plain (by simp) (by simp)

theorem step_agrees {op : BudgetOp} (h : b.Agrees) (hstep : b.step op = some b') : b'.Agrees := by
  cases op with
  | reserve taskTimeMin reservedBytes segmentIds =>
    cases hstep
    exact reserve_agrees h rfl
  | tryAdmit fetch =>
    obtain ⟨f, hf, next, hattempt, rfl⟩ := of_attempted hstep
    exact tryFetch_agrees h hf hattempt
  | enqueue fetch =>
    obtain ⟨f, hf, -, rfl⟩ := of_guarded hstep
    exact enqueue_agrees h hf
  | escape fetch | insertSegments fetch =>
    obtain ⟨f, hf, -, rfl⟩ := of_guarded hstep
    exact h.goOn rfl rfl rfl (append_nil _).symm (fun f => .of_none rfl rfl rfl) (by simp)
  | commit fetch actual =>
    obtain ⟨f, hf, -, rfl⟩ := of_guarded hstep
    exact commit_agrees h
  | dropGuard fetch =>
    obtain ⟨f, hf, -, rfl⟩ := of_guarded hstep
    exact dropGuard_agrees h
  | release bytes =>
    cases hstep
    refine h.stay rfl rfl rfl rfl fun call hcall => ?_
    rw [mem_singleton.mp hcall]
    exact .clear
  | finalize s =>
    cases hstep
    exact finalize_agrees h s
  | armStallBreaker =>
    cases hstep
    split
    · exact h
    · refine h.stay rfl rfl rfl rfl fun call hcall => ?_
      rw [mem_singleton.mp hcall]
      exact .of_plain (by simp) (by simp)
  | notifyRowEmitted =>
    cases hstep
    exact h.stay rfl rfl rfl (append_nil _).symm (by simp)
  | proceed call =>
    simp only [step] at hstep
    split at hstep
    · next todo rest hcall =>
      cases hstep
      exact take_agrees h hcall
    · cases hstep

/-! ## Who is to be woken -/

variable {Q : Fetch → Prop}

theorem exists_mem_modify_of
    (h : ∀ f, fetches[i]? = some f → (Q (g f) ↔ Q f)) : (∃ p ∈ fetches.modify i g, Q p) ↔ ∃ p ∈ fetches, Q p := by
  induction fetches generalizing i with
  | nil => simp
  | cons a fetches ih =>
    cases i with
    | zero => simp [h a rfl]
    | succ i => simp [ih h]

theorem exists_mem_modify (hf : fetches[i]? = some f)
    (h : Q (g f) ↔ Q f) : (∃ p ∈ fetches.modify i g, Q p) ↔ ∃ p ∈ fetches, Q p :=
  exists_mem_modify_of fun _ hf₀ => mem_unique hf hf₀ ▸ h

theorem Awake.of_due (h : b.WakeDue) : b.Awake := fun _ => .inl h

theorem Awake.same (h : b.Awake) (hdue : b.WakeDue → b'.WakeDue) (hparked : b'.ParkedPasses → b.ParkedPasses)
    (hnotified : b.NotifiedPasses → b'.NotifiedPasses) : b'.Awake :=
  fun hpasses => (h (hparked hpasses)).imp hdue hnotified

variable {c : PipelineBudget}

theorem Awake.keeps (h : b.Awake) (hkeeps : b.KeepsWakes c) (hdue : b.WakeDue → b'.WakeDue)
    (hparked : b'.ParkedPasses → c.ParkedPasses) (hnotified : c.NotifiedPasses → b'.NotifiedPasses) : b'.Awake := by
  intro hpasses
  obtain ⟨hbefore, hstill⟩ := hkeeps (hparked hpasses)
  exact (h hbefore).imp hdue fun hn => hnotified (hstill hn)

theorem parkedPasses_of_modify (hf : c.fetches[i]? = some f) (hfetches : b'.fetches = c.fetches.modify i g)
    (hpasses : ∀ f, b'.passes f = c.passes f) (hbefore : f.Idle) (hafter : (g f).Idle) (h : b'.ParkedPasses) :
    c.ParkedPasses := by
  simp only [ParkedPasses, hfetches, hpasses] at h
  exact (exists_mem_modify hf (by simp [hbefore.1, hafter.1])).mp h

theorem notifiedPasses_modify (hf : c.fetches[i]? = some f) (hfetches : b'.fetches = c.fetches.modify i g)
    (hpasses : ∀ f, b'.passes f = c.passes f) (hbefore : f.Idle) (hafter : (g f).Idle) (h : c.NotifiedPasses) :
    b'.NotifiedPasses := by
  simp only [NotifiedPasses, hfetches, hpasses]
  exact (exists_mem_modify hf (by simp [hbefore.2, hafter.2])).mpr h

theorem Awake.modify (h : b.Awake) (hkeeps : b.KeepsWakes c) (hf : c.fetches[i]? = some f)
    (hfetches : b'.fetches = c.fetches.modify i g) (hpasses : ∀ f, b'.passes f = c.passes f)
    (hcalls : b'.calls = b.calls) (hbefore : f.Idle) (hafter : (g f).Idle) :
    b'.Awake := by
  apply h.keeps hkeeps
  · exact fun hdue => by rwa [WakeDue, hcalls]
  · exact parkedPasses_of_modify hf hfetches hpasses hbefore hafter
  · exact notifiedPasses_modify hf hfetches hpasses hbefore hafter

theorem KeepsWakes.refl (b : PipelineBudget) : b.KeepsWakes b := fun h => ⟨h, id⟩

theorem wakeDue_append (hcalls : b'.calls = b.calls ++ started) (h : b.WakeDue) : b'.WakeDue := by
  obtain ⟨call, hcall, hwake⟩ := h
  exact ⟨call, hcalls ▸ mem_append_left _ hcall, hwake⟩

theorem wakeDue_started {call : List Todo} (hcalls : b'.calls = b.calls ++ [call]) (hwake : Todo.wakeNext ∈ call) :
    b'.WakeDue :=
  ⟨call, hcalls ▸ mem_append_right _ (mem_singleton_self call), hwake⟩

theorem wakeDue_set (hcall : b.calls[call]? = some (todo :: rest))
    (hcalls : b'.calls = b.calls.set call (first ++ rest)) (htodo : todo ≠ .wakeNext)
    (h : b.WakeDue) : b'.WakeDue := by
  obtain ⟨due, hdue, hwake⟩ := h
  obtain ⟨i, hi⟩ := mem_iff_getElem?.mp hdue
  rw [WakeDue, hcalls]
  by_cases heq : call = i
  · subst heq
    cases hcall.symm.trans hi
    have hrest : Todo.wakeNext ∈ rest := (mem_cons.mp hwake).resolve_left fun h => htodo h.symm
    have hlt := (List.getElem?_eq_some_iff.mp hcall).1
    exact ⟨_, mem_set hlt .., mem_append_right _ hrest⟩
  · refine ⟨due, mem_iff_getElem?.mpr ⟨i, ?_⟩, hwake⟩
    rw [List.getElem?_set_ne heq]
    exact hi

theorem wakeDue_set_first {next : List Todo} (hcall : b.calls[call]? = some (todo :: next)) {after : List Todo}
    (hcalls : b'.calls = b.calls.set call after) (hwake : Todo.wakeNext ∈ after) : b'.WakeDue := by
  have hlt := (List.getElem?_eq_some_iff.mp hcall).1
  rw [WakeDue, hcalls]
  exact ⟨after, mem_set hlt .., hwake⟩

theorem remove_of_notMem {s : SegmentId} (hs : s ∉ b.gate.all) : b.gate.remove s = b.gate := by
  have hbypass : s ∉ b.gate.bypass := fun h => hs (b.gate.bypass_subset h)
  simp only [SegmentGate.remove, Finset.erase_eq_of_notMem hs, Finset.erase_eq_of_notMem hbypass]

/-! ## No wake is lost -/

theorem tryFetch_awake (h : b.Awake) (hf : b.fetches[fetch]? = some f)
    (hkeeps : b.passes f = true → b.budget ≤ b.current + f.reservedBytes → ¬ (b.counting f).ParkedPasses) :
    (b.tryFetch fetch f next).Awake := by
  unfold tryFetch
  cases htried : b.tryAdmit f.reservedBytes f.segmentIds with
  | none =>
    -- the fetch that failed is not the one that would pass
    have hnot : b.passes f = false := tryAdmit_eq_none.mp htried
    have hnot' : b.passes { f with phase := next.1 } = false := hnot
    have hothers : ∀ waits : Fetch → Bool,
        (∃ p ∈ b.fetches.modify fetch fun f => { f with phase := next.1 }, waits p = true ∧ b.passes p = true) ↔
          ∃ p ∈ b.fetches, waits p = true ∧ b.passes p = true := fun _ => exists_mem_modify hf (by simp [hnot, hnot'])
    exact h.same id (hothers _).mp (hothers _).mpr
  | some admitted =>
    have hpasses : b.passes f = true := by
      rw [passes, ← tryAdmit_isSome, htried]
      rfl
    obtain ⟨gate, rfl, hgate⟩ := tryAdmit_spec htried
    by_cases hroom : b.current + f.reservedBytes < b.budget
    · apply Awake.of_due
      apply wakeDue_started rfl
      simp [afterAdmission, hroom]
    · -- no wake follows, and none is called for
      rintro ⟨p, hp, hparked, hppasses⟩
      refine absurd ?_ (hkeeps hpasses (UInt64.not_lt.mp hroom))
      rcases mem_modify hp with hmem | ⟨f₀, -, rfl⟩
      · refine ⟨p, hmem, hparked, ?_⟩
        cases hforce : b.forceOvercommit with
        | true => simp [passes, admittable, counting, hforce]
        | false =>
          obtain ⟨rfl, -⟩ := hgate hforce
          exact hppasses
      · cases hparked

theorem idle_of_phase (h : f.phase = .reserving ∨ f.phase = .failed ∨ f.phase = .admitted ∨
    f.phase = .escaping ∨ f.phase = .held ∨ f.phase = .committed ∨ f.phase = .dropped) : f.Idle := by
  rcases h with h | h | h | h | h | h | h <;> exact ⟨by simp [parked, h], by simp [notified, h]⟩

theorem commit_awake {actual : UInt64} (h : b.Awake) (hf : b.fetches[fetch]? = some f) (hphase : f.phase = .held)
    (hkeeps : f.reservedBytes < actual → b.KeepsWakes { b with current := b.current + (actual - f.reservedBytes) }) :
    (b.commit fetch f actual).Awake := by
  have hbefore : f.Idle := idle_of_phase (by simp [hphase])
  have hafter : ({ f with phase := .committed } : Fetch).Idle := idle_of_phase (by simp)
  simp only [commit]
  split
  · next hlt => exact h.modify (hkeeps hlt) hf rfl (fun _ => rfl) rfl hbefore hafter
  · split
    · exact .of_due (wakeDue_started rfl (by simp))
    · exact h.modify (.refl b) hf rfl (fun _ => rfl) rfl hbefore hafter

theorem dropGuard_awake (h : b.Awake) (hf : b.fetches[fetch]? = some f)
    (hphase : f.phase = .held) : (b.dropGuard fetch f).Awake := by
  have hbefore : f.Idle := idle_of_phase (by simp [hphase])
  by_cases hzero : f.reservedBytes = 0
  · have hcurrent : U64.saturatingSub b.current f.reservedBytes = b.current := by
      rw [← UInt64.toNat_inj, U64.toNat_saturatingSub, hzero]
      rfl
    have hpasses : ∀ p, (b.dropGuard fetch f).passes p = b.passes p := by
      intro p
      simp only [passes, admittable, dropGuard, hcurrent]
    apply h.same (wakeDue_append rfl)
    · exact parkedPasses_of_modify hf rfl hpasses hbefore (idle_of_phase (by simp))
    · exact notifiedPasses_modify hf rfl hpasses hbefore (idle_of_phase (by simp))
  · exact .of_due (wakeDue_started rfl (by simp [hzero]))

theorem exists_mem_finalize (s : SegmentId) (h : ∀ (f : Fetch) owns, Q { f with owns := owns } ↔ Q f) :
    (∃ p ∈ (b.finalize s).fetches, Q p) ↔ ∃ p ∈ b.fetches, Q p := by
  have hsame : ∀ f : Fetch, Q (if f.phase = .committed then { f with owns := f.owns.filter (· ≠ s) } else f) ↔ Q f := by
    intro f
    split
    · exact h f _
    · exact Iff.rfl
  simp only [finalize, removeSegment, List.mem_map]
  constructor
  · rintro ⟨_, ⟨f, hf, rfl⟩, hq⟩
    exact ⟨f, hf, (hsame f).mp hq⟩
  · rintro ⟨f, hf, hq⟩
    exact ⟨_, ⟨f, hf, rfl⟩, (hsame f).mpr hq⟩

theorem finalize_awake (h : b.Awake) (s : SegmentId) : (b.finalize s).Awake := by
  by_cases hs : s ∈ b.gate.all
  · exact .of_due (wakeDue_started rfl (by simp [hs]))
  · have hpasses : ∀ p, (b.finalize s).passes p = b.passes p := by
      intro p
      simp only [passes, admittable, finalize, removeSegment, remove_of_notMem hs]
    refine h.same (wakeDue_append rfl) (fun hparked => ?_) fun hnotified => ?_
    · simp only [ParkedPasses, hpasses] at hparked
      exact (exists_mem_finalize s (Q := fun f => f.parked = true ∧ b.passes f = true) fun _ _ => Iff.rfl).mp hparked
    · simp only [NotifiedPasses, hpasses]
      exact (exists_mem_finalize s (Q := fun f => f.notified = true ∧ b.passes f = true) fun _ _ => Iff.rfl).mpr hnotified

theorem not_parkedPasses (h : b.Agrees) (hnone : b.nextWaiter = none) : ¬ b.ParkedPasses := by
  rintro ⟨f, hf, hparked, hpasses⟩
  obtain ⟨i, hi⟩ := mem_iff_getElem?.mp hf
  obtain ⟨seq, hwaits⟩ : ∃ seq, f.WaitsAt seq := by
    unfold parked at hparked
    split at hparked
    · next seq hphase => exact ⟨seq, by simp [seq?, hphase], by simp [notified, hphase]⟩
    · cases hparked
  obtain ⟨w, hw, rfl, -, hlive⟩ := h.waiter i f seq hi hwaits
  obtain ⟨f', hf', hbytes, hids⟩ := h.entry w hw
  cases hi.symm.trans hf'
  have hmem : w ∈ b.waitQueue.filter (!·.cancelled) := mem_filter.mpr ⟨hw, by simp [hlive]⟩
  refine List.find?_eq_none.mp hnone w hmem ?_
  rw [hbytes, hids]
  exact hpasses

theorem wakeNext_awake (hagrees : b.Agrees) (hkeeps : ∀ w f, b.nextWaiter = some w → b.fetches[w.fetch]? = some f →
      f.WaitsAt w.seq ∨ ({ b with calls := b.calls.set call rest } : PipelineBudget).Awake) :
    ({ b.wakeNext with calls := b.wakeNext.calls.set call rest } : PipelineBudget).Awake := by
  have hfind : b.nextWaiter = (Runs.takeFirst (fun w => b.admittable w.reservedBytes w.segmentIds)
      (b.waitQueue.filter (!·.cancelled))).map Prod.fst := (takeFirst_map_fst ..).symm
  simp only [wakeNext]
  split
  · next heq =>
    rw [heq] at hfind
    intro hpasses
    have hparked : b.ParkedPasses := hpasses
    exact absurd hparked (not_parkedPasses hagrees hfind)
  · next w others heq =>
    rw [heq] at hfind
    obtain ⟨htried, hperm⟩ := takeFirst_spec heq
    have hw : w ∈ b.waitQueue := (mem_filter.mp (hperm.mem_iff.mpr mem_cons_self)).1
    obtain ⟨f, hf, hbytes, hids⟩ := hagrees.entry w hw
    by_cases hwaits : f.WaitsAt w.seq
    · refine fun _ => .inr ⟨f.notify w.seq, ?_, notify_of_waits hwaits, ?_⟩
      · apply mem_iff_getElem?.mpr
        exact ⟨w.fetch, by simp [hf]⟩
      · obtain ⟨hbytes', hids'⟩ := f.notify_reserved w.seq
        show b.admittable (f.notify w.seq).reservedBytes (f.notify w.seq).segmentIds = true
        rw [hbytes', hids', ← hbytes, ← hids]
        exact htried
    · have hawake := (hkeeps w f hfind hf).resolve_left hwaits
      have hsame : ∀ Q : Fetch → Prop, (∃ p ∈ b.fetches.modify w.fetch (notify · w.seq), Q p) ↔ ∃ p ∈ b.fetches, Q p :=
        fun Q => exists_mem_modify hf (by rw [notify_of_not_waits hwaits])
      exact hawake.same id (hsame _).mp (hsame _).mpr

theorem take_awake (h : b.Awake) (hagrees : b.Agrees) (hcall : b.calls[call]? = some (todo :: rest))
    (hkeeps : b.KeepsWaking (.proceed call)) :
    ({ (b.take todo).1 with calls := (b.take todo).1.calls.set call ((b.take todo).2 ++ rest) } :
      PipelineBudget).Awake := by
  cases todo with
  | wakeNext => exact wakeNext_awake hagrees fun w f hw hf => hkeeps rest w f hcall hw hf
  | cancel seq => exact h.same (wakeDue_set hcall rfl (by simp)) id id
  | clearForce =>
    obtain ⟨-, hclear⟩ := hagrees.calls _ (mem_of_getElem? hcall)
    cases hclear mem_cons_self
    exact .of_due (wakeDue_set_first hcall rfl (by simp))
  | vacate s =>
    by_cases hs : s ∈ b.gate.all
    · exact .of_due (wakeDue_set_first hcall rfl (by simp [take, removeSegment, hs]))
    · have hpasses : ∀ p, ({ b with gate := b.gate.remove s } : PipelineBudget).passes p = b.passes p := by
        intro p
        rw [remove_of_notMem hs]
      refine h.same (wakeDue_set hcall rfl (by simp)) ?_ ?_
      · rintro ⟨p, hp, hparked, hp'⟩
        exact ⟨p, hp, hparked, (hpasses p).symm.trans hp'⟩
      · rintro ⟨p, hp, hnotified, hp'⟩
        exact ⟨p, hp, hnotified, (hpasses p).trans hp'⟩
  | returnGuard fetch =>
    have hsame : ∀ f : Fetch, f.returnGuard.parked = f.parked ∧ f.returnGuard.notified = f.notified ∧
        b.passes f.returnGuard = b.passes f := by
      intro f
      unfold returnGuard
      split
      · next hphase => simp [parked, notified, hphase, passes]
      · exact ⟨rfl, rfl, rfl⟩
    apply h.same (wakeDue_set hcall rfl (by simp))
    · exact (exists_mem_modify_of (Q := fun f => f.parked = true ∧ b.passes f = true) fun f _ => by
        rw [(hsame f).1, (hsame f).2.2]).mp
    · exact (exists_mem_modify_of (Q := fun f => f.notified = true ∧ b.passes f = true) fun f _ => by
        rw [(hsame f).2.1, (hsame f).2.2]).mpr

theorem step_awake {op : BudgetOp} (h : b.Awake) (hagrees : b.Agrees) (hkeeps : b.KeepsWaking op)
    (hstep : b.step op = some b') : b'.Awake := by
  cases op with
  | reserve taskTimeMin reservedBytes segmentIds =>
    cases hstep
    refine h.same id ?_ ?_
    · rintro ⟨p, hp, hparked, hpasses⟩
      rcases mem_append.mp hp with hmem | hnew
      · exact ⟨p, hmem, hparked, hpasses⟩
      · cases mem_singleton.mp hnew
        cases hparked
    · rintro ⟨p, hp, hnotified, hpasses⟩
      exact ⟨p, mem_append_left _ hp, hnotified, hpasses⟩
  | tryAdmit fetch =>
    obtain ⟨f, hf, next, -, rfl⟩ := of_attempted hstep
    exact tryFetch_awake h hf (hkeeps f hf)
  | enqueue fetch =>
    obtain ⟨f, hf, hphase, rfl⟩ := of_guarded hstep
    exact h.modify (.refl b) hf rfl (fun _ => rfl) rfl (idle_of_phase (by simp [hphase])) ⟨rfl, rfl⟩
  | escape fetch =>
    obtain ⟨f, hf, ⟨hphase, -⟩, rfl⟩ := of_guarded hstep
    exact h.modify (hkeeps f hf) hf rfl (fun _ => rfl) rfl (idle_of_phase (by simp [hphase])) ⟨rfl, rfl⟩
  | insertSegments fetch =>
    obtain ⟨f, hf, hphase, rfl⟩ := of_guarded hstep
    exact h.modify (hkeeps f hf) hf rfl (fun _ => rfl) rfl (idle_of_phase (by simp [hphase])) ⟨rfl, rfl⟩
  | commit fetch actual =>
    obtain ⟨f, hf, hphase, rfl⟩ := of_guarded hstep
    exact commit_awake h hf hphase (hkeeps f hf)
  | dropGuard fetch =>
    obtain ⟨f, hf, hphase, rfl⟩ := of_guarded hstep
    exact dropGuard_awake h hf hphase
  | release bytes =>
    cases hstep
    exact .of_due (wakeDue_started rfl (by simp))
  | finalize s =>
    cases hstep
    exact finalize_awake h s
  | armStallBreaker =>
    cases hstep
    split
    · exact h
    · exact .of_due (wakeDue_started rfl (by simp))
  | notifyRowEmitted =>
    cases hstep
    exact h.keeps hkeeps id id id
  | proceed call =>
    simp only [step] at hstep
    split at hstep
    · next todo rest hcall =>
      cases hstep
      exact take_awake h hagrees hcall hkeeps
    · cases hstep

theorem run_awake {budget : UInt64} {segmentLimit : Nat} {ops : List BudgetOp}
    (hsteps : Runs.StepsMeet step KeepsWaking (new budget segmentLimit) ops)
    (hrun : Runs.run step (new budget segmentLimit) ops = some b) : b.Agrees ∧ b.Awake := by
  refine run_induction (P := fun b => b.Agrees ∧ b.Awake) (fun _ _ _ h hkeeps hstep => ?_) ops _ b ?_ hsteps hrun
  · exact ⟨step_agrees h.1 hstep, step_awake h.2 h.1 hkeeps hstep⟩
  · refine ⟨⟨?_, ?_, ?_, ?_, ?_⟩, ?_⟩
    · exact fun w hw => absurd hw not_mem_nil
    · exact fun i f seq hf => absurd hf (by simp [new])
    · exact fun f hf => absurd hf not_mem_nil
    · exact fun i j f g seq hf => absurd hf (by simp [new])
    · exact fun call hcall => absurd hcall not_mem_nil
    · exact fun ⟨f, hf, _⟩ => absurd hf not_mem_nil

/-! ## Main results -/

theorem not_awaited (h : b.Quiescent) : ¬ b.WakeDue ∧ ¬ b.NotifiedPasses := by
  constructor
  · rintro ⟨call, hcall, hwake⟩
    rw [h.1 call hcall] at hwake
    cases hwake
  · rintro ⟨f, hf, hnotified, -⟩
    rcases h.2 f hf with hparked | hphase
    · unfold parked at hparked
      split at hparked
      · next seq hphase => simp [notified, hphase] at hnotified
      · cases hparked
    · rw [(idle_of_phase (by tauto)).2] at hnotified
      cases hnotified

/-- When no call is in progress and no fetch is to try, a parked fetch has its waiter in the queue
and would not pass the gates. -/
theorem no_wake_lost (budget : UInt64) (segmentLimit : Nat) (ops : List BudgetOp) (b : PipelineBudget)
    (hsteps : Runs.StepsMeet step KeepsWaking (new budget segmentLimit) ops)
    (hrun : Runs.run step (new budget segmentLimit) ops = some b) (hquiet : b.Quiescent) :
    ∀ i f seq, b.fetches[i]? = some f → f.phase = .parked seq →
      (∃ w ∈ b.waitQueue, w.fetch = i ∧ w.seq = seq ∧ w.cancelled = false) ∧
        b.tryAdmit f.reservedBytes f.segmentIds = none := by
  obtain ⟨hagrees, hawake⟩ := run_awake hsteps hrun
  intro i f seq hf hphase
  refine ⟨hagrees.waiter i f seq hf ⟨by simp [seq?, hphase], by simp [notified, hphase]⟩, ?_⟩
  rw [tryAdmit_eq_none]
  by_contra hpasses
  rw [Bool.not_eq_false] at hpasses
  obtain ⟨hdue, hnotified⟩ := not_awaited hquiet
  have hparked : b.ParkedPasses := ⟨f, mem_of_getElem? hf, by simp [parked, hphase], hpasses⟩
  exact (hawake hparked).elim hdue hnotified

/-- Of ten bytes eight are committed, and a fetch of six waits. -/
theorem no_wake_lost_of_full :
    ∃ b : PipelineBudget, Runs.run step (new 10 2)
        [.reserve I64.MIN 8 ["s"], .tryAdmit 0, .proceed 0, .proceed 0, .commit 0 8,
          .reserve I64.MIN 6 ["t"], .tryAdmit 1, .enqueue 1, .tryAdmit 1] = some b ∧
      ∀ i f seq, b.fetches[i]? = some f → f.phase = .parked seq →
        (∃ w ∈ b.waitQueue, w.fetch = i ∧ w.seq = seq ∧ w.cancelled = false) ∧
          b.tryAdmit f.reservedBytes f.segmentIds = none := by
  refine ⟨_, rfl, no_wake_lost 10 2
    [.reserve I64.MIN 8 ["s"], .tryAdmit 0, .proceed 0, .proceed 0, .commit 0 8,
      .reserve I64.MIN 6 ["t"], .tryAdmit 1, .enqueue 1, .tryAdmit 1] _ ?_ rfl ?_⟩
  · refine .cons rfl trivial (.cons rfl ?_ (.cons rfl ?_ (.cons rfl ?_ (.cons rfl ?_ (.cons rfl trivial
      (.cons rfl ?_ (.cons rfl trivial (.cons rfl ?_ trivial))))))))
    · intro f hf _ hfull
      cases hf
      exact absurd hfull (by decide)
    · intro rest w f hcall hw
      cases hw
    · intro rest w f hcall hw
      cases hw
    · intro f hf hlt
      cases hf
      exact absurd hlt (by decide)
    · intro f hf hpasses
      cases hf
      exact absurd hpasses (by decide)
    · intro f hf hpasses
      cases hf
      exact absurd hpasses (by decide)
  · decide

/-- A fetch waits for a slot for its segment. An oversized fetch of that segment is let through, which
puts the segment in the gate: the waiting fetch would pass, and nobody wakes it. -/
theorem wake_lost_after_escape :
    ¬ ∀ (budget : UInt64) (segmentLimit : Nat) (ops : List BudgetOp) (b : PipelineBudget),
      .armStallBreaker ∉ ops → Runs.run step (new budget segmentLimit) ops = some b → b.Quiescent →
      ∀ f ∈ b.fetches, f.parked = true → b.tryAdmit f.reservedBytes f.segmentIds = none := by
  intro h
  have hnone := h 10 1
    [.reserve I64.MIN 2 ["s"], .tryAdmit 0, .proceed 0, .proceed 0,
      .reserve I64.MIN 2 ["t"], .tryAdmit 1, .enqueue 1, .tryAdmit 1,
      .reserve I64.MIN 2 ["t", "u"], .escape 2, .insertSegments 2] _ (by simp) rfl ?_ _
      (.tail _ (.head _)) rfl
  · exact absurd hnone (by decide)
  · decide

end PipelineBudget
end Dalaran
