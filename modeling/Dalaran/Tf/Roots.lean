import Dalaran.Tf.TransformForest
import Mathlib.Algebra.Group.Int.Defs
import Mathlib.Algebra.Group.TypeTags.Basic

/-
  The tree roots of the transform forest.

  A stack is resolved from where its walk stopped (`resolve`,
  `addStackOfTransforms_spec`). Where no frame is above itself, a walk stops at a
  frame that is in the forest, at one nothing is known about, or at a top, so every
  frame is given its tree root and the transform to it.
-/

namespace Dalaran.TransformGraph

open TransformForest List Option

variable {Frame G P : Type} [DecidableEq Frame] [Monoid G] {g : TransformGraph Frame G P}
  {forest : TransformForest Frame G P}

/-! ## One stack -/

/-- The root of the lowest of these frames, each the parent of the one before it, and the transform to it. -/
def resolve (g : TransformGraph Frame G P) (start : Frame × G) : List Frame → Frame × G
  | [] => start
  | f :: above =>
    if (g.latestAtPinhole f).isSome then (f, 1)
    else ((resolve g start above).1, (resolve g start above).2 * g.parentFromChild f)

inductive StartsAt (forest : TransformForest Frame G P) (met : List Frame) :
    Option Frame → TransformForest Frame G P → Frame × G → Prop
  | known {p : Frame} {e : TreeTransform Frame G} (h : forest.rootFromFrame.lookup p = some e) :
    StartsAt forest met (some p) forest (e.root, e.targetFromSource)
  | unknown {p : Frame} (h : forest.rootFromFrame.lookup p = none) :
    StartsAt forest met (some p)
      ⟨forest.roots.insert p .transformFrameRoot, forest.rootFromFrame.insert p (.newRoot p)⟩ (p, 1)
  | top {l : Frame} (h : met.getLast? = some l) :
    StartsAt forest met none { forest with roots := forest.roots.insert l .transformFrameRoot } (l, 1)

variable {met : List Frame}

theorem rootOfStack_startsAt (forest : TransformForest Frame G P) {l : Frame} (hl : met.getLast? = some l) :
    ∃ forest₁ start, StartsAt forest met (g.transformsAt l).parentFrame forest₁ start ∧
      forest.rootOfStack (g.transformsAt l) = ⟨forest₁, start.1, start.2⟩ := by
  cases hparent : (g.transformsAt l).parentFrame with
  | some p =>
    cases hp : forest.rootFromFrame.lookup p with
    | some e => exact ⟨_, _, .known hp, by simp only [rootOfStack, hparent, hp]⟩
    | none => exact ⟨_, _, .unknown hp, by simp only [rootOfStack, hparent, hp]⟩
  | none =>
    -- a frame without a parent is no pinhole's child
    refine ⟨_, _, .top hl, ?_⟩
    simp only [rootOfStack, hparent, transformsAt_childFrame, transformsAt_pinhole,
      (transformsAt_of_no_parent hparent).2]

theorem popTransforms_spec (f : Frame) (p : Popping Frame G P) (above : List Frame) (start : Frame × G)
    (hp : (p.rootFrame, p.rootFromTarget) = g.resolve start above) :
    let p' := popTransforms (g.transformsAt f) p
    (p'.rootFrame, p'.rootFromTarget) = g.resolve start (f :: above) ∧
      p'.forest.rootFromFrame =
        p.forest.rootFromFrame.insert f ⟨(g.resolve start (f :: above)).1, (g.resolve start (f :: above)).2⟩ ∧
      ∀ k, k ∈ p'.forest.roots ↔ k ∈ p.forest.roots ∨ k = f ∧ (g.latestAtPinhole f).isSome = true := by
  simp only [popTransforms, transformsAt_pinhole, transformsAt_childFrame, resolve, ← hp]
  cases g.latestAtPinhole f with
  | some pinhole =>
    refine ⟨rfl, rfl, fun k => ?_⟩
    simp only [AList.mem_insert, isSome_some, and_true]
    exact Or.comm
  | none => exact ⟨rfl, rfl, by simp⟩

structure Added (g : TransformGraph Frame G P) (forest₁ : TransformForest Frame G P) (start : Frame × G)
    (met : List Frame) (forest' : TransformForest Frame G P) : Prop where
  kept : ∀ f, f ∉ met → forest'.rootFromFrame.lookup f = forest₁.rootFromFrame.lookup f
  given : ∀ before f above, met = before ++ f :: above → f ∉ before →
    forest'.rootFromFrame.lookup f = some ⟨(g.resolve start (f :: above)).1, (g.resolve start (f :: above)).2⟩
  roots : ∀ k, k ∈ forest'.roots ↔ k ∈ forest₁.roots ∨ k ∈ met ∧ (g.latestAtPinhole k).isSome = true

theorem foldr_popTransforms_spec (p : Popping Frame G P) (met : List Frame) :
    let p' := (met.map g.transformsAt).foldr popTransforms p
    (p'.rootFrame, p'.rootFromTarget) = g.resolve (p.rootFrame, p.rootFromTarget) met ∧
      Added g p.forest (p.rootFrame, p.rootFromTarget) met p'.forest := by
  induction met with
  | nil => exact ⟨rfl, fun f _ => rfl, fun before f above h => by simp at h, fun k => by simp⟩
  | cons f met ih =>
    obtain ⟨hresolve, hadded⟩ := ih
    obtain ⟨hroot, hentries, hroots⟩ := popTransforms_spec f _ met _ hresolve
    refine ⟨hroot, fun k hk => ?_, fun before k above heq hk => ?_, fun k => ?_⟩
    · rw [mem_cons, not_or] at hk
      simp only [map_cons, foldr_cons, hentries]
      rw [Assoc.lookup_insert_ite, if_neg hk.1]
      exact hadded.kept k hk.2
    · simp only [map_cons, foldr_cons, hentries]
      rw [Assoc.lookup_insert_ite]
      cases before with
      | nil =>
        cases heq
        exact if_pos rfl
      | cons a before =>
        cases heq
        rw [mem_cons, not_or] at hk
        rw [if_neg hk.1]
        exact hadded.given before k above rfl hk.2
    · simp only [map_cons, foldr_cons, hroots, hadded.roots, mem_cons]
      constructor
      · rintro ((h | ⟨h, hpin⟩) | ⟨rfl, hpin⟩)
        · exact .inl h
        · exact .inr ⟨.inr h, hpin⟩
        · exact .inr ⟨.inl rfl, hpin⟩
      · rintro (h | ⟨rfl | h, hpin⟩)
        · exact .inl (.inl h)
        · exact .inr ⟨rfl, hpin⟩
        · exact .inl (.inr ⟨h, hpin⟩)

variable {f : Frame} {stop : Option Frame}

theorem addStackOfTransforms_spec (forest : TransformForest Frame G P) {rest left : Finset Frame}
    (hrest : rest ⊆ g.frames) (hwalk : Ascent.Walked g.parentOf rest (some f) left met stop) (hmet : met ≠ []) :
    ∃ forest₁ start, StartsAt forest met stop forest₁ start ∧
      Added g forest₁ start met (forest.addStackOfTransforms (met.map g.transformsAt)) := by
  obtain ⟨l, hl⟩ : ∃ l, met.getLast? = some l := ⟨_, List.getLast?_eq_some_getLast hmet⟩
  have hmem : l ∈ g.frames := hrest (hwalk.mem_rest l (mem_of_getLast? hl))
  have hstop : (g.transformsAt l).parentFrame = stop := by
    rw [← parentOf_of_mem hmem]
    exact hwalk.up_last l hl
  obtain ⟨forest₁, start, hstarts, hroot⟩ := rootOfStack_startsAt (g := g) forest hl
  refine ⟨forest₁, start, hstop ▸ hstarts, ?_⟩
  have hfold := (foldr_popTransforms_spec (g := g) (forest.rootOfStack (g.transformsAt l)) met).2
  rw [hroot] at hfold
  simp only [addStackOfTransforms, List.getLast?_map, hl, map_some, hroot]
  exact hfold

theorem StartsAt.lookup {forest₁ : TransformForest Frame G P} {start : Frame × G}
    (h : StartsAt forest met stop forest₁ start) (f : Frame) :
    forest₁.rootFromFrame.lookup f = forest.rootFromFrame.lookup f ∨
      stop = some f ∧ forest.rootFromFrame.lookup f = none ∧ start = (f, 1) ∧
        forest₁.rootFromFrame.lookup f = some (.newRoot f) := by
  cases h with
  | known h => exact .inl rfl
  | @unknown p h =>
    by_cases hf : f = p
    · subst hf
      exact .inr ⟨rfl, h, rfl, AList.lookup_insert _⟩
    · exact .inl (AList.lookup_insert_ne hf)
  | top h => exact .inl rfl

/-! ## The frames that are processed -/

/-- Just the frames that are processed have an entry, with those that are not in the registry. -/
structure Filled (g : TransformGraph Frame G P) (st : Progress Frame G P) : Prop where
  subset : st.unprocessed ⊆ g.frames
  fresh : ∀ f ∈ st.unprocessed, st.forest.rootFromFrame.lookup f = none
  filled : ∀ f ∈ g.frames, f ∉ st.unprocessed → ∃ e, st.forest.rootFromFrame.lookup f = some e

variable {st st' : Progress Frame G P}

theorem step_spec (h : Filled g st) (hstep : g.step st f = some st') :
    ∃ met stop forest₁ start, Ascent.Walked g.parentOf st.unprocessed (some f) st'.unprocessed met stop ∧
      (∃ tail, met = f :: tail) ∧ StartsAt st.forest met stop forest₁ start ∧ Added g forest₁ start met st'.forest := by
  obtain ⟨hf, heq⟩ := ite_none_right_eq_some.mp hstep
  obtain ⟨met, stop, hwalk, hstack⟩ := walkTowardsParent_walked (g := g) st.unprocessed.card st.unprocessed (some f)
    (le_rfl) h.subset
  obtain ⟨tail, rfl⟩ := hwalk.head rfl hf
  obtain ⟨forest₁, start, hstarts, hadded⟩ := addStackOfTransforms_spec st.forest h.subset hwalk (by simp)
  have hst' := some.inj heq
  rw [← hst', hstack]
  exact ⟨_, stop, forest₁, start, hwalk, ⟨tail, rfl⟩, hstarts, hadded⟩

variable {p : Frame}

theorem stop_unknown {left : Finset Frame} (h : Filled g st)
    (hwalk : Ascent.Walked g.parentOf st.unprocessed (some f) left met stop) (hstop : stop = some p)
    (hnone : st.forest.rootFromFrame.lookup p = none) : p ∈ met ∨ p ∉ g.frames := by
  rcases hwalk.stop_cases hstop with hnot | hmem
  · refine .inr fun hp => ?_
    obtain ⟨e, he⟩ := h.filled p hp hnot
    cases hnone.symm.trans he
  · exact .inl hmem

theorem step_filled (h : Filled g st) (hstep : g.step st f = some st') : Filled g st' := by
  obtain ⟨met, stop, forest₁, start, hwalk, -, hstarts, hadded⟩ := step_spec h hstep
  refine ⟨fun k hk => ?_, fun k hk => ?_, fun k hk hnot => ?_⟩
  · exact h.subset ((hwalk.mem_left k).mp hk).1
  · obtain ⟨hrest, hmet⟩ := (hwalk.mem_left k).mp hk
    rw [hadded.kept k hmet]
    rcases hstarts.lookup k with heq | ⟨hstop, -⟩
    · rw [heq]
      exact h.fresh k hrest
    · exact absurd hk (hwalk.stop_notMem k hstop)
  · by_cases hmet : k ∈ met
    · obtain ⟨before, above, rfl, hbefore⟩ := eq_append_cons_of_mem hmet
      exact ⟨_, hadded.given before k above rfl hbefore⟩
    · rw [hadded.kept k hmet]
      obtain ⟨e, he⟩ := h.filled k hk fun hrest => hnot ((hwalk.mem_left k).mpr ⟨hrest, hmet⟩)
      rcases hstarts.lookup k with heq | ⟨-, hnone, -⟩
      · exact ⟨e, heq.trans he⟩
      · cases hnone.symm.trans he

/-! ## Tree roots -/

variable {r r' : Frame}

theorem Leads.unique {t t' : G} (h : g.Leads f r t) (h' : g.Leads f r' t') : r = r' ∧ t = t' := by
  induction h generalizing r' t' with
  | top htop =>
    cases h' with
    | top _ => exact ⟨rfl, rfl⟩
    | pinhole _ => exact ⟨rfl, rfl⟩
    | up _ hparent _ => cases htop.symm.trans hparent
  | pinhole hpinhole =>
    cases h' with
    | top _ => exact ⟨rfl, rfl⟩
    | pinhole _ => exact ⟨rfl, rfl⟩
    | up hnot _ _ => exact absurd hpinhole hnot
  | up hnot hparent _ ih =>
    cases h' with
    | top htop => cases htop.symm.trans hparent
    | pinhole hpinhole => exact absurd hpinhole hnot
    | up _ hparent' hup =>
      cases hparent.symm.trans hparent'
      obtain ⟨rfl, rfl⟩ := ih hup
      exact ⟨rfl, rfl⟩

theorem resolve_leads {rest left : Finset Frame} {start : Frame × G} (hrest : rest ⊆ g.frames)
    (hwalk : Ascent.Walked g.parentOf rest (some f) left met stop)
    (hsome : ∀ p, stop = some p → g.Leads p start.1 start.2)
    (hnone : stop = none → ∃ l, met.getLast? = some l ∧ start = (l, 1)) :
    g.Leads f (g.resolve start met).1 (g.resolve start met).2 := by
  generalize hnext : some f = next at hwalk
  induction hwalk generalizing f with
  | stop _ => exact hsome f hnext.symm
  | @go rest _ a tail _ ha hwalk ih =>
    cases hnext
    rw [resolve]
    split
    · next hpinhole => exact .pinhole ⟨hrest ha, hpinhole⟩
    · next hpinhole =>
      have hnot : ¬ g.PinholeChild a := fun h => hpinhole h.2
      cases hparent : g.parentOf a with
      | some p =>
        refine .up hnot hparent (ih ((Finset.erase_subset ..).trans hrest) hsome (fun hstop => ?_) hparent.symm)
        obtain ⟨l, hl, hstart⟩ := hnone hstop
        cases tail with
        | nil =>
          rw [hparent] at hwalk
          cases hwalk
          cases hstop
        | cons b tail => exact ⟨l, hl, hstart⟩
      | none =>
        rw [hparent] at hwalk
        cases hwalk
        obtain ⟨l, hl, rfl⟩ := hnone rfl
        cases hl
        rw [parentOf_of_mem (hrest ha)] at hparent
        have htransform : g.parentFromChild a = 1 := by
          rw [parentFromChild, (transformsAt_of_no_parent hparent).1]
          rfl
        simp only [resolve, htransform, mul_one]
        exact .top ((parentOf_of_mem (hrest ha)).trans hparent)

/-- Every entry is the tree root of its frame with the transform to it. -/
def Resolved (g : TransformGraph Frame G P) (st : Progress Frame G P) : Prop :=
  ∀ f e, st.forest.rootFromFrame.lookup f = some e → g.Leads f e.root e.targetFromSource

theorem step_resolved (hacyclic : g.Acyclic) (h : Filled g st) (hresolved : Resolved g st)
    (hstep : g.step st f = some st') : Resolved g st' := by
  obtain ⟨met, stop, forest₁, start, hwalk, -, hstarts, hadded⟩ := step_spec h hstep
  -- the walk comes to nothing that it has met
  have hfresh : ∀ p, stop = some p → st.forest.rootFromFrame.lookup p = none → g.parentOf p = none := by
    intro p hstop hnone
    rcases stop_unknown h hwalk hstop hnone with hmem | hnot
    · exact absurd (hwalk.enters_of_mem rfl hstop hmem).onCycle (hacyclic p)
    · exact parentOf_of_notMem hnot
  have hstart : ∀ p, stop = some p → g.Leads p start.1 start.2 := by
    intro p hstop
    cases hstarts with
    | known he =>
      cases hstop
      exact hresolved _ _ he
    | unknown hnone =>
      cases hstop
      exact .top (hfresh _ rfl hnone)
    | top _ => cases hstop
  have htop : stop = none → ∃ l, met.getLast? = some l ∧ start = (l, 1) := by
    intro hstop
    cases hstarts with
    | known _ => cases hstop
    | unknown _ => cases hstop
    | top hl => exact ⟨_, hl, rfl⟩
  intro k e he
  by_cases hmet : k ∈ met
  · obtain ⟨before, above, rfl, hbefore⟩ := eq_append_cons_of_mem hmet
    rw [hadded.given before k above rfl hbefore] at he
    cases he
    obtain ⟨rest', hsub, hsuffix⟩ := hwalk.suffix rfl
    refine resolve_leads (hsub.trans h.subset) hsuffix hstart fun hstop => ?_
    obtain ⟨l, hl, hstart⟩ := htop hstop
    exact ⟨l, by simpa using hl, hstart⟩
  · rw [hadded.kept k hmet] at he
    rcases hstarts.lookup k with heq | ⟨hstop, hnone, -, hnew⟩
    · exact hresolved k e (heq.symm.trans he)
    · cases hnew.symm.trans he
      exact .top (hfresh k hstop hnone)

theorem length_add_card_le (h : Filled g st) (drained : List Frame)
    (hrun : Runs.run g.step st drained = some st') : drained.length + st'.unprocessed.card ≤ st.unprocessed.card := by
  induction drained generalizing st with
  | nil =>
    cases hrun
    simp
  | cons f drained ih =>
    obtain ⟨next, hstep, hrun⟩ := Runs.run_cons_eq_some.mp hrun
    have hle := ih (step_filled h hstep) hrun
    obtain ⟨met, stop, _, _, hwalk, ⟨tail, rfl⟩, -⟩ := step_spec h hstep
    have hlt : next.unprocessed.card < st.unprocessed.card := by
      apply Finset.card_lt_card
      refine ⟨fun k hk => ((hwalk.mem_left k).mp hk).1, fun hsub => ?_⟩
      have hf := hsub (hwalk.mem_rest f mem_cons_self)
      exact ((hwalk.mem_left f).mp hf).2 mem_cons_self
    simp only [length_cons]
    omega

omit [Monoid G] in
theorem start_filled : Filled g g.start where
  subset := Finset.Subset.refl _
  fresh := fun _ _ => AList.lookup_empty _
  filled := fun _ hf hnot => absurd hf hnot

theorem run_filled {drained : List Frame} (hrun : Runs.run g.step g.start drained = some st) : Filled g st :=
  Runs.run_invariant (P := Filled g) (fun _ _ _ h hstep => step_filled h hstep) drained _ st start_filled hrun

theorem drain_ends (drained : List Frame) (st : Progress Frame G P)
    (hrun : Runs.run g.step g.start drained = some st) :
    drained.length ≤ g.frames.card ∧ ∀ f ∈ st.unprocessed, (g.step st f).isSome = true := by
  have hle := length_add_card_le start_filled drained hrun
  have hstart : g.start.unprocessed.card = g.frames.card := rfl
  refine ⟨by omega, fun f hf => ?_⟩
  simp [step, hf]

theorem run_resolved {drained : List Frame} (hacyclic : g.Acyclic)
    (hrun : Runs.run g.step g.start drained = some st) : Resolved g st := by
  have hboth : Filled g st ∧ Resolved g st := by
    refine Runs.run_invariant (P := fun st => Filled g st ∧ Resolved g st)
      (fun _ _ _ h hstep => ⟨step_filled h.1 hstep, step_resolved hacyclic h.1 h.2 hstep⟩) drained _ st ⟨?_, ?_⟩ hrun
    · exact start_filled
    · exact fun f e he => absurd ((AList.lookup_empty f).symm.trans he) (by simp)
  exact hboth.2

/-! ## Main results -/

/-- In a graph without cycles every frame of the registry is given its tree root and the product of the
transforms on the way there, in whatever order the frames are drained; and a drain ends. -/
theorem builds_tree_roots (g : TransformGraph Frame G P) (hacyclic : g.Acyclic) :
    (∀ drained st, Runs.run g.step g.start drained = some st → drained.length ≤ g.frames.card ∧
      ∀ f ∈ st.unprocessed, (g.step st f).isSome = true) ∧
    ∀ drained forest, g.Builds drained forest → ∀ f ∈ g.frames,
      ∃ e, forest.rootFromFrame.lookup f = some e ∧ g.Leads f e.root e.targetFromSource ∧
        ∀ root t, g.Leads f root t → root = e.root ∧ t = e.targetFromSource := by
  refine ⟨drain_ends, fun drained forest hbuilds f hf => ?_⟩
  obtain ⟨e, he⟩ := (run_filled hbuilds).filled f hf (Finset.notMem_empty f)
  have hleads := run_resolved hacyclic hbuilds f e he
  exact ⟨e, he, hleads, fun root t h => h.unique hleads⟩

theorem acyclic_of_rank (rank : Frame → Nat) (h : ∀ f p, g.parentOf f = some p → rank p < rank f) : g.Acyclic := by
  have hle : ∀ f p, Ascent.Reaches g.parentOf f p → rank p ≤ rank f := by
    intro f p hreaches
    induction hreaches with
    | refl => exact le_rfl
    | tail _ hup ih => exact (Nat.le_of_lt (h _ _ hup)).trans ih
  intro f hcycle
  obtain ⟨p, hup, hback⟩ := Ascent.onCycle_iff.mp hcycle
  exact Nat.lt_irrefl _ (Nat.lt_of_lt_of_le (h f p hup) (hle p f hback))

def chainGraph : TransformGraph Nat (Multiplicative Int) Unit where
  frames := {0, 1, 2, 3}
  latestAtTransform := fun f => if 0 < f ∧ f < 4 then some ⟨f - 1, .ofAdd f⟩ else none
  latestAtPinhole := fun f => if f = 1 then some ⟨0, ()⟩ else none
  implicitTransformParent := fun _ => none

theorem builds_tree_roots_of_chain :
    ∃ forest, chainGraph.Builds [2, 3] forest ∧
      ∃ e, forest.rootFromFrame.lookup 3 = some e ∧ chainGraph.Leads 3 e.root e.targetFromSource ∧
        ∀ root t, chainGraph.Leads 3 root t → root = e.root ∧ t = e.targetFromSource := by
  refine ⟨_, rfl, (builds_tree_roots chainGraph (acyclic_of_rank id fun f p h => ?_)).2 [2, 3] _ rfl 3 (by decide)⟩
  have hf : f ∈ ({0, 1, 2, 3} : Finset Nat) := mem_of_parentOf h
  simp only [Finset.mem_insert, Finset.mem_singleton] at hf
  rcases hf with rfl | rfl | rfl | rfl <;> cases h <;> decide

end Dalaran.TransformGraph
