import Dalaran.Budget.PipelineBudget

/-
  The segment slots of the pipeline budget.

  The gate is a plain set: it knows that a segment is in flight, and not for how
  many fetches. Where every segment is vacated by its last holder (`KeepsSlots`), a
  segment that is held keeps its slot, and no more segments are held than the limit
  allows, beside those that were admitted past it.
-/

namespace Dalaran

open List Option

/-! ## The gate -/

namespace SegmentGate

theorem insertPast_all (gate : SegmentGate) (s : SegmentId) : (gate.insertPast s).all = insert s gate.all := by
  unfold insertPast
  split
  · next h => exact (Finset.insert_eq_of_mem h).symm
  · rfl

theorem extendPast_all (gate : SegmentGate) (segmentIds : List SegmentId) :
    (gate.extendPast segmentIds).all = gate.all ∪ segmentIds.toFinset := by
  unfold extendPast
  induction segmentIds generalizing gate with
  | nil => simp
  | cons s segmentIds ih =>
    rw [foldl_cons, ih, insertPast_all, toFinset_cons, Finset.insert_union, Finset.union_insert]

theorem bypass_card_le (gate : SegmentGate) : gate.bypass.card ≤ gate.all.card :=
  Finset.card_le_card gate.bypass_subset

theorem extend_effectiveLen_le (gate : SegmentGate) (segmentIds : List SegmentId) :
    (gate.extend segmentIds).effectiveLen ≤ gate.effectiveLen + gate.newSegments segmentIds := by
  have hnew : gate.all ∪ segmentIds.toFinset = gate.all ∪ (segmentIds.filter (· ∉ gate.all)).toFinset := by
    ext s
    by_cases hs : s ∈ gate.all <;> simp [hs]
  have hcard : (gate.all ∪ segmentIds.toFinset).card ≤ gate.all.card + gate.newSegments segmentIds := by
    rw [hnew]
    apply (Finset.card_union_le _ _).trans
    apply Nat.add_le_add_left
    apply (toFinset_card_le _).trans
    rw [newSegments, countP_eq_length_filter]
  have hbypass := gate.bypass_card_le
  simp only [effectiveLen, extend]
  omega

theorem insertPast_effectiveLen (gate : SegmentGate) (s : SegmentId) :
    (gate.insertPast s).effectiveLen = gate.effectiveLen := by
  unfold insertPast
  split
  · rfl
  · next h =>
    simp only [effectiveLen, Finset.card_insert_of_notMem h,
      Finset.card_insert_of_notMem fun hs => h (gate.bypass_subset hs)]
    omega

theorem extendPast_effectiveLen (gate : SegmentGate) (segmentIds : List SegmentId) :
    (gate.extendPast segmentIds).effectiveLen = gate.effectiveLen := by
  unfold extendPast
  induction segmentIds generalizing gate with
  | nil => rfl
  | cons s segmentIds ih => rw [foldl_cons, ih, insertPast_effectiveLen]

theorem remove_effectiveLen_le (gate : SegmentGate) (s : SegmentId) :
    (gate.remove s).effectiveLen ≤ gate.effectiveLen := by
  have hbypass := gate.bypass_card_le
  simp only [effectiveLen, remove]
  by_cases hs : s ∈ gate.bypass
  · rw [Finset.card_erase_of_mem hs, Finset.card_erase_of_mem (gate.bypass_subset hs)]
    have hpos := Finset.card_pos.mpr ⟨s, hs⟩
    omega
  · rw [Finset.erase_eq_of_notMem hs]
    have hle := Finset.card_erase_le (s := gate.all) (a := s)
    omega

end SegmentGate

/-- A fetch that goes on without taking or giving up a segment. -/
def Fetch.SameOwns (f f' : Fetch) : Prop :=
  f'.owns = f.owns ∧ f'.segmentIds = f.segmentIds ∧
    (f'.phase = .admitted ∨ f'.phase = .held → f.phase = .admitted ∨ f.phase = .held)

theorem Fetch.SameOwns.refl (f : Fetch) : f.SameOwns f := ⟨rfl, rfl, id⟩

theorem Fetch.sameOwns_notify (f : Fetch) (seq : Nat) : f.SameOwns (f.notify seq) := by
  unfold Fetch.notify
  split
  · exact ⟨rfl, rfl, by simp⟩
  · split
    · exact ⟨rfl, rfl, by simp⟩
    · exact .refl f

theorem Fetch.sameOwns_returnGuard (f : Fetch) : f.SameOwns f.returnGuard := by
  unfold Fetch.returnGuard
  split
  · next h => exact ⟨rfl, rfl, fun _ => .inl h⟩
  · exact .refl f

namespace PipelineBudget

variable {segmentLimit : Nat}

/-- A segment is vacated, or finalized, by the last fetch that holds it. -/
def KeepsSlots (b : PipelineBudget) : BudgetOp → Prop
  | .finalize segmentId => ∀ f ∈ b.fetches, segmentId ∈ f.owns → f.phase = .committed
  | .proceed call =>
    ∀ segmentId rest, b.calls[call]? = some (.vacate segmentId :: rest) → ∀ f ∈ b.fetches, segmentId ∉ f.owns
  | _ => True

/-- What a fetch holds has its slots, and while it is live that is all its segments. -/
def HasSlots (gate : SegmentGate) (f : Fetch) : Prop :=
  (∀ s ∈ f.owns, s ∈ gate.all) ∧ (f.phase = .admitted ∨ f.phase = .held → f.owns = f.segmentIds)

structure Slotted (segmentLimit : Nat) (b : PipelineBudget) : Prop where
  owned : ∀ f ∈ b.fetches, HasSlots b.gate f
  effective : b.gate.effectiveLen ≤ segmentLimit
  limit : b.segmentLimit = segmentLimit

/-! ## What the steps do to the slots -/

variable {b b' : PipelineBudget}

theorem Slotted.of_grown (h : b.Slotted segmentLimit) (hall : b.gate.all ⊆ b'.gate.all)
    (heffective : b'.gate.effectiveLen ≤ segmentLimit) (hlimit : b'.segmentLimit = b.segmentLimit)
    (hfetches : ∀ f' ∈ b'.fetches, (∃ f ∈ b.fetches, f.SameOwns f') ∨ HasSlots b'.gate f') : b'.Slotted segmentLimit where
  owned := by
    intro f' hf'
    rcases hfetches f' hf' with ⟨f, hf, howns, hids, hphase⟩ | hslots
    · obtain ⟨hslots, hlive⟩ := h.owned f hf
      refine ⟨fun s hs => hall (hslots s (howns ▸ hs)), fun hphase' => ?_⟩
      rw [howns, hids]
      exact hlive (hphase hphase')
    · exact hslots
  effective := heffective
  limit := hlimit.trans h.limit

theorem Slotted.of_same (h : b.Slotted segmentLimit) (hgate : b'.gate = b.gate)
    (hlimit : b'.segmentLimit = b.segmentLimit)
    (hfetches : ∀ f' ∈ b'.fetches, ∃ f ∈ b.fetches, f.SameOwns f') : b'.Slotted segmentLimit := by
  apply h.of_grown (hgate ▸ Finset.Subset.refl _) (hgate ▸ h.effective) hlimit
  exact fun f' hf' => .inl (hfetches f' hf')

theorem sameOwns_of_modify {fetches : List Fetch} {i : Nat} {g : Fetch → Fetch}
    (h : ∀ f, fetches[i]? = some f → f.SameOwns (g f)) (f' : Fetch) (hf' : f' ∈ fetches.modify i g) :
    ∃ f ∈ fetches, f.SameOwns f' := by
  rcases mem_modify hf' with hmem | ⟨f, hf, rfl⟩
  · exact ⟨f', hmem, .refl f'⟩
  · exact ⟨f, mem_of_getElem? hf, h f hf⟩

theorem wakeNext_slotted (h : b.Slotted segmentLimit) : b.wakeNext.Slotted segmentLimit := by
  simp only [wakeNext]
  split
  · exact h.of_same rfl rfl fun f hf => ⟨f, hf, .refl f⟩
  · exact h.of_same rfl rfl (sameOwns_of_modify fun f _ => f.sameOwns_notify _)

theorem removeSegment_slotted {s : SegmentId} (h : b.Slotted segmentLimit)
    (hfree : ∀ f ∈ b.fetches, s ∉ f.owns) : (b.removeSegment s).1.Slotted segmentLimit where
  owned := by
    intro f hf
    obtain ⟨hslots, hlive⟩ := h.owned f hf
    refine ⟨fun t ht => Finset.mem_erase.mpr ⟨?_, hslots t ht⟩, hlive⟩
    rintro rfl
    exact hfree f hf ht
  effective := (b.gate.remove_effectiveLen_le s).trans h.effective
  limit := h.limit

theorem take_slotted {todo : Todo} (h : b.Slotted segmentLimit)
    (hfree : ∀ s, todo = .vacate s → ∀ f ∈ b.fetches, s ∉ f.owns) : (b.take todo).1.Slotted segmentLimit := by
  cases todo with
  | wakeNext => exact wakeNext_slotted h
  | returnGuard fetch => exact h.of_same rfl rfl (sameOwns_of_modify fun f _ => f.sameOwns_returnGuard)
  | cancel seq | clearForce => exact h.of_same rfl rfl fun f hf => ⟨f, hf, .refl f⟩
  | vacate s => exact removeSegment_slotted h (hfree s rfl)

theorem tryAdmit_gate {reservedBytes : UInt64} {segmentIds : List SegmentId}
    (h : b.tryAdmit reservedBytes segmentIds = some b') (heffective : b.gate.effectiveLen ≤ b.segmentLimit) :
    b' = { b with current := b.current + reservedBytes, gate := b'.gate } ∧
      b'.gate.all = b.gate.all ∪ segmentIds.toFinset ∧ b'.gate.effectiveLen ≤ b.segmentLimit := by
  unfold tryAdmit at h
  split at h
  · cases h
    refine ⟨rfl, b.gate.extendPast_all segmentIds, ?_⟩
    rw [SegmentGate.extendPast_effectiveLen]
    exact heffective
  · split at h
    · cases h
    · next hroom =>
      obtain ⟨-, heq⟩ := ite_none_right_eq_some.mp h
      cases heq
      exact ⟨rfl, rfl, (b.gate.extend_effectiveLen_le segmentIds).trans (Nat.not_lt.mp hroom)⟩

variable {f f' : Fetch}

theorem hasSlots_of_admitted {gate gate' : SegmentGate} (hall : gate'.all = gate.all ∪ f.segmentIds.toFinset)
    (howns : f'.owns = f.segmentIds) (hids : f'.segmentIds = f.segmentIds) : HasSlots gate' f' := by
  refine ⟨fun s hs => ?_, fun _ => howns.trans hids.symm⟩
  rw [hall]
  exact Finset.mem_union_right _ (mem_toFinset.mpr (howns ▸ hs))

variable {fetch : Nat}

theorem tryFetch_slotted {next : Phase × List Todo} (h : b.Slotted segmentLimit) (hf : b.fetches[fetch]? = some f)
    (hattempt : b.attempt f = some next) : (b.tryFetch fetch f next).Slotted segmentLimit := by
  have hphase := attempt_phase hattempt
  unfold tryFetch
  cases htried : b.tryAdmit f.reservedBytes f.segmentIds with
  | none =>
    refine h.of_same rfl rfl (sameOwns_of_modify fun f _ => ⟨rfl, rfl, fun hlive => ?_⟩)
    rcases hphase with hphase | hphase | ⟨seq, hphase⟩ <;> simp [hphase] at hlive
  | some admitted =>
    obtain ⟨heq, hall, heffective⟩ := tryAdmit_gate htried (h.limit ▸ h.effective)
    have hfetches : admitted.fetches = b.fetches := by rw [heq]
    apply h.of_grown
    · show b.gate.all ⊆ admitted.gate.all
      rw [hall]
      exact Finset.subset_union_left
    · show admitted.gate.effectiveLen ≤ segmentLimit
      rw [← h.limit]
      exact heffective
    · show admitted.segmentLimit = b.segmentLimit
      rw [heq]
    · intro f' hf'
      simp only [hfetches] at hf'
      rcases mem_modify hf' with hmem | ⟨f₀, hf₀, rfl⟩
      · exact .inl ⟨f', hmem, .refl f'⟩
      · cases hf.symm.trans hf₀
        exact .inr (hasSlots_of_admitted hall rfl rfl)

theorem insertSegments_slotted (h : b.Slotted segmentLimit) (hf : b.fetches[fetch]? = some f) :
    ({ b with
      gate := b.gate.extendPast f.segmentIds
      fetches := b.fetches.modify fetch fun f => { f with phase := .held, owns := f.segmentIds } } :
        PipelineBudget).Slotted segmentLimit := by
  have hall := b.gate.extendPast_all f.segmentIds
  refine h.of_grown ?_ ?_ rfl fun f' hf' => ?_
  · rw [hall]
    exact Finset.subset_union_left
  · rw [SegmentGate.extendPast_effectiveLen]
    exact h.effective
  · rcases mem_modify hf' with hmem | ⟨f₀, hf₀, rfl⟩
    · exact .inl ⟨f', hmem, .refl f'⟩
    · cases hf.symm.trans hf₀
      exact .inr (hasSlots_of_admitted hall rfl rfl)

theorem dropGuard_slotted (h : b.Slotted segmentLimit) : (b.dropGuard fetch f).Slotted segmentLimit := by
  refine h.of_grown (Finset.Subset.refl _) h.effective rfl fun f' hf' => ?_
  rcases mem_modify hf' with hmem | ⟨f₀, -, rfl⟩
  · exact .inl ⟨f', hmem, .refl f'⟩
  · exact .inr ⟨by simp, by simp⟩

theorem commit_slotted {actual : UInt64} (h : b.Slotted segmentLimit) :
    (b.commit fetch f actual).Slotted segmentLimit := by
  have hfetches : ∀ f' ∈ b.fetches.modify fetch fun f => { f with phase := .committed },
      ∃ f ∈ b.fetches, f.SameOwns f' := sameOwns_of_modify fun f _ => ⟨rfl, rfl, by simp⟩
  simp only [commit]
  split
  · exact h.of_same rfl rfl hfetches
  · split
    · exact h.of_same rfl rfl hfetches
    · exact h.of_same rfl rfl hfetches

theorem finalize_slotted {s : SegmentId} (h : b.Slotted segmentLimit)
    (hcommitted : ∀ f ∈ b.fetches, s ∈ f.owns → f.phase = .committed) : (b.finalize s).Slotted segmentLimit where
  owned := by
    intro f' hf'
    obtain ⟨f, hf, rfl⟩ := List.mem_map.mp hf'
    obtain ⟨hslots, hlive⟩ := h.owned f hf
    have hkept : ∀ t ∈ f.owns, t ≠ s → t ∈ b.gate.all.erase s := fun t ht hne =>
      Finset.mem_erase.mpr ⟨hne, hslots t ht⟩
    split
    · next hphase =>
      refine ⟨fun t ht => ?_, fun hlive => ?_⟩
      · obtain ⟨ht, hne⟩ := mem_filter.mp ht
        exact hkept t ht (of_decide_eq_true hne)
      · simp [hphase] at hlive
    · next hphase =>
      refine ⟨fun t ht => hkept t ht ?_, hlive⟩
      rintro rfl
      exact hphase (hcommitted f hf ht)
  effective := (b.gate.remove_effectiveLen_le s).trans h.effective
  limit := h.limit

theorem step_slotted {op : BudgetOp} (h : b.Slotted segmentLimit) (hkeeps : b.KeepsSlots op)
    (hstep : b.step op = some b') : b'.Slotted segmentLimit := by
  cases op with
  | reserve taskTimeMin reservedBytes segmentIds =>
    cases hstep
    refine h.of_grown (Finset.Subset.refl _) h.effective rfl fun f' hf' => ?_
    rcases mem_append.mp hf' with hmem | hnew
    · exact .inl ⟨f', hmem, .refl f'⟩
    · rw [mem_singleton.mp hnew]
      exact .inr ⟨by simp, by simp⟩
  | tryAdmit fetch =>
    obtain ⟨f, hf, next, hattempt, rfl⟩ := of_attempted hstep
    exact tryFetch_slotted h hf hattempt
  | enqueue fetch | escape fetch =>
    obtain ⟨f, hf, -, rfl⟩ := of_guarded hstep
    exact h.of_same rfl rfl (sameOwns_of_modify fun f _ => ⟨rfl, rfl, by simp⟩)
  | insertSegments fetch =>
    obtain ⟨f, hf, -, rfl⟩ := of_guarded hstep
    exact insertSegments_slotted h hf
  | commit fetch actual =>
    obtain ⟨f, hf, -, rfl⟩ := of_guarded hstep
    exact commit_slotted h
  | dropGuard fetch =>
    obtain ⟨f, hf, -, rfl⟩ := of_guarded hstep
    exact dropGuard_slotted h
  | release bytes | notifyRowEmitted =>
    cases hstep
    exact h.of_same rfl rfl fun f hf => ⟨f, hf, .refl f⟩
  | finalize s =>
    cases hstep
    exact finalize_slotted h hkeeps
  | armStallBreaker =>
    cases hstep
    split
    · exact h
    · exact h.of_same rfl rfl fun f hf => ⟨f, hf, .refl f⟩
  | proceed call =>
    simp only [step] at hstep
    split at hstep
    · next todo rest hcall =>
      cases hstep
      have htake : (b.take todo).1.Slotted segmentLimit := take_slotted h fun s hs => hkeeps s rest (hs ▸ hcall)
      exact htake.of_same rfl rfl fun f hf => ⟨f, hf, .refl f⟩
    · cases hstep

theorem run_slotted {budget : UInt64} {segmentLimit : Nat} {ops : List BudgetOp}
    (hsteps : Runs.StepsMeet step KeepsSlots (new budget segmentLimit) ops)
    (hrun : Runs.run step (new budget segmentLimit) ops = some b) : b.Slotted segmentLimit :=
  Runs.run_induction (fun _ _ _ h hkeeps hstep => step_slotted h hkeeps hstep) ops _ b
    ⟨fun _ hf => absurd hf (not_mem_nil), Nat.zero_le _, rfl⟩ hsteps hrun

/-! ## Main results -/

/-- The segments with a live reservation, or a committed one that is not finalized. -/
def heldSegments (b : PipelineBudget) : Finset SegmentId := (b.fetches.flatMap (·.owns)).toFinset

/-- A step of the stall breaker, or past the gates. -/
def Bypasses (op : BudgetOp) : Prop := op = .armStallBreaker ∨ ∃ fetch, op = .escape fetch

structure NoBypass (b : PipelineBudget) : Prop where
  force : b.forceOvercommit = false
  bypass : b.gate.bypass = ∅
  phases : ∀ f ∈ b.fetches, f.phase ≠ .escaping

theorem NoBypass.modify {i : Nat} {g : Fetch → Fetch} (h : b.NoBypass) (hforce : b'.forceOvercommit = false)
    (hbypass : b'.gate.bypass = ∅) (hfetches : b'.fetches = b.fetches.modify i g)
    (hg : ∀ f, f.phase ≠ .escaping → (g f).phase ≠ .escaping) : b'.NoBypass where
  force := hforce
  bypass := hbypass
  phases := by
    intro f' hf'
    rw [hfetches] at hf'
    rcases mem_modify hf' with hmem | ⟨f, hf, rfl⟩
    · exact h.phases f' hmem
    · exact hg f (h.phases f (mem_of_getElem? hf))

theorem Fetch.notify_phase (seq : Nat) (h : f.phase ≠ .escaping) : (f.notify seq).phase ≠ .escaping := by
  unfold Fetch.notify
  split
  · simp
  · split
    · simp
    · exact h

theorem Fetch.returnGuard_phase (h : f.phase ≠ .escaping) : f.returnGuard.phase ≠ .escaping := by
  unfold Fetch.returnGuard
  split
  · simp
  · exact h

theorem removeSegment_noBypass (h : b.NoBypass) (s : SegmentId) : (b.gate.remove s).bypass = ∅ := by
  simp [SegmentGate.remove, h.bypass]

theorem take_noBypass (h : b.NoBypass) (todo : Todo) : (b.take todo).1.NoBypass := by
  cases todo with
  | wakeNext =>
    show b.wakeNext.NoBypass
    simp only [wakeNext]
    split
    · exact ⟨h.force, h.bypass, h.phases⟩
    · exact h.modify h.force h.bypass rfl fun f hf => Fetch.notify_phase _ hf
  | returnGuard fetch => exact h.modify h.force h.bypass rfl fun f hf => Fetch.returnGuard_phase hf
  | cancel seq => exact ⟨h.force, h.bypass, h.phases⟩
  | clearForce => exact ⟨rfl, h.bypass, h.phases⟩
  | vacate s => exact ⟨h.force, removeSegment_noBypass h s, h.phases⟩

theorem tryFetch_noBypass {next : Phase × List Todo} (h : b.NoBypass)
    (hattempt : b.attempt f = some next) : (b.tryFetch fetch f next).NoBypass := by
  unfold tryFetch
  cases htried : b.tryAdmit f.reservedBytes f.segmentIds with
  | none =>
    refine h.modify h.force h.bypass rfl fun _ _ => ?_
    rcases attempt_phase hattempt with hphase | hphase | ⟨seq, hphase⟩ <;> simp [hphase]
  | some admitted =>
    obtain ⟨gate, rfl, hgate⟩ := tryAdmit_spec htried
    obtain ⟨rfl, -⟩ := hgate h.force
    exact h.modify h.force h.bypass rfl fun _ _ => by simp

theorem step_noBypass {op : BudgetOp} (h : b.NoBypass) (hop : ¬ Bypasses op)
    (hstep : b.step op = some b') : b'.NoBypass := by
  cases op with
  | reserve taskTimeMin reservedBytes segmentIds =>
    cases hstep
    refine ⟨h.force, h.bypass, fun f hf => ?_⟩
    rcases mem_append.mp hf with hmem | hnew
    · exact h.phases f hmem
    · rw [mem_singleton.mp hnew]
      simp
  | tryAdmit fetch =>
    obtain ⟨f, -, next, hattempt, rfl⟩ := of_attempted hstep
    exact tryFetch_noBypass h hattempt
  | enqueue fetch | dropGuard fetch =>
    obtain ⟨f, -, -, rfl⟩ := of_guarded hstep
    exact h.modify h.force h.bypass rfl fun _ _ => by simp
  | escape fetch => exact absurd (.inr ⟨fetch, rfl⟩) hop
  | insertSegments fetch =>
    obtain ⟨f, hf, hphase, -⟩ := of_guarded hstep
    exact absurd hphase (h.phases f (mem_of_getElem? hf))
  | commit fetch actual =>
    obtain ⟨f, -, -, rfl⟩ := of_guarded hstep
    simp only [commit]
    split
    · exact h.modify h.force h.bypass rfl fun _ _ => by simp
    · split
      · exact h.modify h.force h.bypass rfl fun _ _ => by simp
      · exact h.modify h.force h.bypass rfl fun _ _ => by simp
  | release bytes =>
    cases hstep
    exact ⟨h.force, h.bypass, h.phases⟩
  | finalize s =>
    cases hstep
    refine ⟨h.force, removeSegment_noBypass h s, fun f' hf' => ?_⟩
    obtain ⟨f, hf, rfl⟩ := List.mem_map.mp hf'
    split
    · exact h.phases f hf
    · exact h.phases f hf
  | armStallBreaker => exact absurd (.inl rfl) hop
  | notifyRowEmitted =>
    cases hstep
    exact ⟨rfl, h.bypass, h.phases⟩
  | proceed call =>
    simp only [step] at hstep
    split at hstep
    · next todo rest _ =>
      cases hstep
      have htake := take_noBypass h todo
      exact ⟨htake.force, htake.bypass, htake.phases⟩
    · cases hstep

theorem run_noBypass {budget : UInt64} {ops : List BudgetOp} (hops : ∀ op ∈ ops, ¬ Bypasses op)
    (hrun : Runs.run step (new budget segmentLimit) ops = some b) : b.NoBypass :=
  Runs.run_induction (fun _ _ _ h hop hstep => step_noBypass h hop hstep) ops _ b
    ⟨rfl, rfl, fun _ hf => absurd hf not_mem_nil⟩ (.of_forall (fun op hop _ => hops op hop) _) hrun

/-- Every segment that is held has its slot. No more segments are held than the limit allows, beside
those in flight that were admitted past it; and no more at all, if none ever was. -/
theorem slots_outlive_owners (budget : UInt64) (segmentLimit : Nat) (ops : List BudgetOp) (b : PipelineBudget)
    (hsteps : Runs.StepsMeet step KeepsSlots (new budget segmentLimit) ops)
    (hrun : Runs.run step (new budget segmentLimit) ops = some b) :
    (∀ f ∈ b.fetches, f.phase = .held → ∀ s ∈ f.segmentIds, s ∈ b.gate.all) ∧
      (∀ f ∈ b.fetches, f.phase = .committed → ∀ s ∈ f.owns, s ∈ b.gate.all) ∧
      b.heldSegments.card ≤ segmentLimit + b.gate.bypass.card ∧
      ((∀ op ∈ ops, ¬ Bypasses op) → b.heldSegments.card ≤ segmentLimit) := by
  have h := run_slotted hsteps hrun
  have hcard : b.heldSegments.card ≤ segmentLimit + b.gate.bypass.card := by
    have hsub : b.heldSegments ⊆ b.gate.all := by
      intro s hs
      obtain ⟨f, hf, hsf⟩ := mem_flatMap.mp (mem_toFinset.mp hs)
      exact (h.owned f hf).1 s hsf
    have heffective := h.effective
    have hle := Finset.card_le_card hsub
    rw [SegmentGate.effectiveLen] at heffective
    omega
  refine ⟨fun f hf hphase s hs => ?_, fun f hf _ => (h.owned f hf).1, hcard, fun hops => ?_⟩
  · obtain ⟨hslots, hlive⟩ := h.owned f hf
    exact hslots s (hlive (.inr hphase) ▸ hs)
  · rw [(run_noBypass hops hrun).bypass, Finset.card_empty] at hcard
    exact hcard

/-- Two fetches of one segment: the first is committed, finalized by nobody, and the second finds its
segment in the gate. -/
theorem slots_outlive_owners_of_shared :
    ∃ b : PipelineBudget, Runs.run step (new 10 1)
        [.reserve I64.MIN 4 ["s"], .tryAdmit 0, .proceed 0, .proceed 0, .commit 0 4, .reserve I64.MIN 2 ["s"],
          .tryAdmit 1] = some b ∧
      (∀ f ∈ b.fetches, f.phase = .held → ∀ s ∈ f.segmentIds, s ∈ b.gate.all) ∧
      (∀ f ∈ b.fetches, f.phase = .committed → ∀ s ∈ f.owns, s ∈ b.gate.all) ∧
      b.heldSegments.card ≤ 1 + b.gate.bypass.card ∧
      ((∀ op ∈ ([.reserve I64.MIN 4 ["s"], .tryAdmit 0, .proceed 0, .proceed 0, .commit 0 4,
          .reserve I64.MIN 2 ["s"], .tryAdmit 1] : List BudgetOp), ¬ Bypasses op) → b.heldSegments.card ≤ 1) := by
  refine ⟨_, rfl, slots_outlive_owners 10 1
    [.reserve I64.MIN 4 ["s"], .tryAdmit 0, .proceed 0, .proceed 0, .commit 0 4, .reserve I64.MIN 2 ["s"],
      .tryAdmit 1] _ ?_ rfl⟩
  refine .cons rfl trivial (.cons rfl trivial (.cons rfl (fun s rest hcall => ?_) (.cons rfl (fun s rest hcall => ?_)
    (.cons rfl trivial (.cons rfl trivial (.cons rfl trivial trivial))))))
  · cases hcall
  · cases hcall

/-- The first of two fetches of one segment fails. The other holds a segment that is no longer in the
gate, and a third fetch is admitted where one segment is allowed. -/
theorem slot_lost_with_failed_fetch :
    ¬ ∀ (budget : UInt64) (segmentLimit : Nat) (ops : List BudgetOp) (b : PipelineBudget),
      (∀ op ∈ ops, ¬ Bypasses op) → Runs.run step (new budget segmentLimit) ops = some b →
      (∀ f ∈ b.fetches, f.phase = .held → ∀ s ∈ f.segmentIds, s ∈ b.gate.all) ∧
        b.heldSegments.card ≤ segmentLimit := by
  intro h
  have hcard := (h 10 1
    [.reserve I64.MIN 4 ["s"], .tryAdmit 0, .proceed 0, .proceed 0,
      .reserve I64.MIN 2 ["s"], .tryAdmit 1, .proceed 1, .proceed 1,
      .dropGuard 0, .proceed 2, .proceed 2, .proceed 2,
      .reserve I64.MIN 2 ["t"], .tryAdmit 2] _ (by simp [Bypasses]) rfl).2
  exact absurd hcard (by decide)

end PipelineBudget
end Dalaran
