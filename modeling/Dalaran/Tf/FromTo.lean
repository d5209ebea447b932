import Dalaran.Tf.Roots
import Mathlib.Algebra.Ring.Int.Defs

/-
  The transform from one frame to another.

  `transform_from_to` looks up the target's and the source's way to their tree
  roots. Within one tree the transform is that of the source to the root, taken
  from the left by the inverse of the target's, or the source's alone when the
  target is the root. Between two trees there is a transform where a pinhole's
  tree hangs in the other one.

  A path between two frames goes up and down edges of the graph, and its product
  takes an edge's inverse on the way down (`Path`). Its product is what the ways to
  the root say (`path_leads`); so every path between two frames has the same one,
  and that is the transform found.

  The transforms are the elements of a group. What a pinhole's projection makes of
  an image plane's distance is a function `pinhole3dFromImagePlane`. The cache of
  these products lasts for one call and is left out.
-/

namespace Dalaran

variable {Frame G P D : Type}

def TreeTransform.leftMultiply [Mul G] (transform : TreeTransform Frame G) (targetFromReference : G) :
    TreeTransform Frame G :=
  ⟨transform.root, targetFromReference * transform.targetFromSource⟩

inductive TransformFromToError (Frame : Type) where
  | unknownTargetFrame (target : Frame)
  | unknownSourceFrame (source : Frame)
  | noPathBetweenFrames (target src targetRoot sourceRoot : Frame)
  deriving DecidableEq

structure TargetInfo (Frame G : Type) where
  id : Frame
  root : Frame
  targetFromRoot : G

structure SourceInfo (Frame G : Type) where
  id : Frame
  root : Frame
  rootFromSource : TreeTransform Frame G

def TransformFromToError.noPathBetweenTargetAndSource (target : TargetInfo Frame G) (source : SourceInfo Frame G) :
    TransformFromToError Frame :=
  .noPathBetweenFrames target.id source.id target.root source.root

namespace TransformForest

variable [DecidableEq Frame] [Group G]

/-- What the image planes of pinholes need: their transform by projection and distance, and the
distance that stands in for one where there is none (500). -/
structure ImagePlanes (Frame P D G : Type) where
  pinhole3dFromImagePlane : ResolvedPinholeProjection Frame P → D → G
  distance3dTo2d : D

def from2dSourceTo3dTarget (planes : ImagePlanes Frame P D G) (target : TargetInfo Frame G)
    (source : SourceInfo Frame G) (sourcePinholeTreeRoot : PinholeTreeRoot Frame G P)
    (lookupImagePlaneDistance : Frame → D) : Except (TransformFromToError Frame) (TreeTransform Frame G) :=
  if sourcePinholeTreeRoot.parentTreeRoot ≠ target.root then
    .error (.noPathBetweenTargetAndSource target source)
  else
    let targetFromImagePlane := target.targetFromRoot * sourcePinholeTreeRoot.parentRootFromPinholeRoot *
      planes.pinhole3dFromImagePlane sourcePinholeTreeRoot.pinholeProjection
        (lookupImagePlaneDistance source.root)
    .ok (source.rootFromSource.leftMultiply targetFromImagePlane)

def from3dSourceTo2dTarget (planes : ImagePlanes Frame P D G) (target : TargetInfo Frame G)
    (source : SourceInfo Frame G) (targetPinholeTreeRoot : PinholeTreeRoot Frame G P) :
    Except (TransformFromToError Frame) (TreeTransform Frame G) :=
  if targetPinholeTreeRoot.parentTreeRoot ≠ source.root then
    .error (.noPathBetweenTargetAndSource target source)
  else
    let imagePlaneFromPinhole3d :=
      (planes.pinhole3dFromImagePlane targetPinholeTreeRoot.pinholeProjection planes.distance3dTo2d)⁻¹
    let pinhole3dFromRoot := targetPinholeTreeRoot.parentRootFromPinholeRoot⁻¹
    .ok (source.rootFromSource.leftMultiply
      (target.targetFromRoot * imagePlaneFromPinhole3d * pinhole3dFromRoot))

/-- The transform of one source, with the target looked up before. -/
def transformFromSource (forest : TransformForest Frame G P) (planes : ImagePlanes Frame P D G)
    (lookupImagePlaneDistance : Frame → D) (target : TargetInfo Frame G) (source : Frame) :
    Except (TransformFromToError Frame) (TreeTransform Frame G) :=
  match forest.rootFromFrame.lookup source with
  | none => .error (.unknownSourceFrame source)
  | some rootFromSource =>
    let source : SourceInfo Frame G := ⟨source, rootFromSource.root, rootFromSource⟩
    if source.root = target.root then
      if source.root = target.id then
        -- The target is the root itself.
        .ok source.rootFromSource
      else .ok (rootFromSource.leftMultiply target.targetFromRoot)
    else
      match forest.roots.lookup target.root with
      | some (.pinhole pinholeTreeRoot) => from3dSourceTo2dTarget planes target source pinholeTreeRoot
      | _ =>
        match forest.roots.lookup source.root with
        | some (.pinhole pinholeTreeRoot) =>
          from2dSourceTo3dTarget planes target source pinholeTreeRoot lookupImagePlaneDistance
        | _ => .error (.noPathBetweenTargetAndSource target source)

def transformFromTo (forest : TransformForest Frame G P) (planes : ImagePlanes Frame P D G) (target : Frame)
    (sources : List Frame) (lookupImagePlaneDistance : Frame → D) :
    List (Frame × Except (TransformFromToError Frame) (TreeTransform Frame G)) :=
  match forest.rootFromFrame.lookup target with
  | none => sources.map fun source => (source, .error (.unknownTargetFrame target))
  | some rootFromTarget =>
    let target : TargetInfo Frame G := ⟨target, rootFromTarget.root, rootFromTarget.targetFromSource⁻¹⟩
    sources.map fun source =>
      (source, forest.transformFromSource planes lookupImagePlaneDistance target source)

end TransformForest

namespace TransformGraph

open TransformForest

/-! ## The frames with an entry -/

section Known

variable [DecidableEq Frame] [Monoid G] {g : TransformGraph Frame G P}

def Known (g : TransformGraph Frame G P) (f : Frame) : Prop :=
  f ∈ g.frames ∨ ∃ child, g.parentOf child = some f

def ParentsFilled (g : TransformGraph Frame G P) (st : Progress Frame G P) : Prop :=
  ∀ f p, g.parentOf f = some p → f ∉ st.unprocessed → ∃ e, st.forest.rootFromFrame.lookup p = some e

theorem StartsAt.stop_filled {forest forest₁ : TransformForest Frame G P} {met : List Frame} {p : Frame}
    {start : Frame × G} (h : StartsAt forest met (some p) forest₁ start) :
    ∃ e, forest₁.rootFromFrame.lookup p = some e := by
  cases h with
  | known h => exact ⟨_, h⟩
  | unknown h => exact ⟨_, AList.lookup_insert _⟩

theorem step_parentsFilled {st st' : Progress Frame G P} {f : Frame} (h : Filled g st)
    (hparents : ParentsFilled g st) (hstep : g.step st f = some st') : ParentsFilled g st' := by
  obtain ⟨met, stop, forest₁, start, hwalk, -, hstarts, hadded⟩ := step_spec h hstep
  -- The frames of the stack are given entries, and those of before keep theirs.
  have hfilled : ∀ p, (p ∈ met ∨ ∃ e, forest₁.rootFromFrame.lookup p = some e) →
      ∃ e, st'.forest.rootFromFrame.lookup p = some e := by
    intro p hp
    by_cases hmet : p ∈ met
    · obtain ⟨before, above, rfl, hbefore⟩ := List.eq_append_cons_of_mem hmet
      exact ⟨_, hadded.given before p above rfl hbefore⟩
    · rw [hadded.kept p hmet]
      exact hp.resolve_left hmet
  intro k p hparent hk
  apply hfilled
  by_cases hmet : k ∈ met
  · obtain hp | hstop := hwalk.up_mem hmet hparent
    · exact .inl hp
    · subst hstop
      exact .inr hstarts.stop_filled
  · obtain ⟨e, he⟩ := hparents k p hparent fun hrest => hk ((hwalk.mem_left k).mpr ⟨hrest, hmet⟩)
    obtain heq | ⟨-, hnone, -⟩ := hstarts.lookup p
    · exact .inr ⟨e, heq.trans he⟩
    · cases hnone.symm.trans he

theorem run_parentsFilled {st : Progress Frame G P} {drained : List Frame}
    (hrun : Runs.run g.step g.start drained = some st) : Filled g st ∧ ParentsFilled g st := by
  refine Runs.run_invariant (P := fun st => Filled g st ∧ ParentsFilled g st)
    (fun _ _ _ h hstep => ⟨step_filled h.1 hstep, step_parentsFilled h.1 h.2 hstep⟩) drained _ st
    ⟨start_filled, ?_⟩ hrun
  intro f p hparent hf
  exact absurd (mem_of_parentOf hparent) hf

theorem lookup_of_known {drained : List Frame} {forest : TransformForest Frame G P}
    (hbuilds : g.Builds drained forest) {f : Frame} (h : g.Known f) :
    ∃ e, forest.rootFromFrame.lookup f = some e := by
  obtain ⟨hfilled, hparents⟩ := run_parentsFilled hbuilds
  obtain hf | ⟨child, hchild⟩ := h
  · exact hfilled.filled f hf (Finset.notMem_empty f)
  · exact hparents child f hchild (Finset.notMem_empty child)

end Known

/-! ## Paths -/

section Paths

variable [DecidableEq Frame] [Group G] {g : TransformGraph Frame G P}

/-- A path from one frame to another over edges of the graph, up and down, with the product of their
transforms. -/
inductive Path (g : TransformGraph Frame G P) : Frame → Frame → G → Prop
  | refl (f : Frame) : Path g f f 1
  | up {source parent target : Frame} {t : G} (hparent : g.parentOf source = some parent)
      (h : Path g parent target t) : Path g source target (t * g.parentFromChild source)
  | down {source child target : Frame} {t : G} (hparent : g.parentOf child = some source)
      (h : Path g child target t) : Path g source target (t * (g.parentFromChild child)⁻¹)

def SameTree (g : TransformGraph Frame G P) (a b : Frame) : Prop := ∃ t, g.Path a b t

theorem Path.trans {a b c : Frame} {t u : G} (h : g.Path a b t) (h' : g.Path b c u) : g.Path a c (u * t) := by
  induction h with
  | refl => rwa [mul_one]
  | up hparent _ ih =>
    rw [← mul_assoc]
    exact .up hparent (ih h')
  | down hparent _ ih =>
    rw [← mul_assoc]
    exact .down hparent (ih h')

theorem Leads.root {f root : Frame} {t : G} (h : g.Leads f root t) : g.Leads root root 1 := by
  induction h with
  | top h => exact .top h
  | pinhole h => exact .pinhole h
  | up _ _ _ ih => exact ih

theorem path_leads (hpinhole : ∀ f, ¬ g.PinholeChild f) {source target r r' : Frame} {t u u' : G}
    (hpath : g.Path source target t) (hsource : g.Leads source r u) (htarget : g.Leads target r' u') :
    r = r' ∧ u = u' * t := by
  induction hpath generalizing r u with
  | refl f =>
    obtain ⟨rfl, rfl⟩ := hsource.unique htarget
    exact ⟨rfl, (mul_one u).symm⟩
  | @up source parent target t hparent _ ih =>
    cases hsource with
    | top htop => cases htop.symm.trans hparent
    | pinhole h => exact absurd h (hpinhole source)
    | @up _ parent' _ u₀ _ hparent' hup =>
      cases hparent.symm.trans hparent'
      obtain ⟨hroot, hu⟩ := ih hup htarget
      refine ⟨hroot, ?_⟩
      calc u₀ * g.parentFromChild source
          = u' * t * g.parentFromChild source := by rw [hu]
        _ = u' * (t * g.parentFromChild source) := mul_assoc ..
  | @down source child target t hparent _ ih =>
    obtain ⟨hroot, hu⟩ := ih (.up (hpinhole child) hparent hsource) htarget
    refine ⟨hroot, ?_⟩
    calc u = u * g.parentFromChild child * (g.parentFromChild child)⁻¹ := (mul_inv_cancel_right ..).symm
      _ = u' * t * (g.parentFromChild child)⁻¹ := by rw [hu]
      _ = u' * (t * (g.parentFromChild child)⁻¹) := mul_assoc ..

end Paths

/-! ## The transform found -/

section FromTo

variable [DecidableEq Frame] [Group G] {g : TransformGraph Frame G P}

/-- Among whatever sources, the source is answered with this transform. -/
def Finds (forest : TransformForest Frame G P) (planes : ImagePlanes Frame P D G)
    (lookupImagePlaneDistance : Frame → D) (source target : Frame) (t : G) : Prop :=
  ∃ root, ∀ sources, source ∈ sources → ∀ answer,
    (source, answer) ∈ forest.transformFromTo planes target sources lookupImagePlaneDistance ↔
      answer = .ok ⟨root, t⟩

variable {forest : TransformForest Frame G P} {planes : ImagePlanes Frame P D G}
  {lookupImagePlaneDistance : Frame → D} {drained : List Frame}

theorem transformFromSource_of_root (planes : ImagePlanes Frame P D G) (lookupImagePlaneDistance : Frame → D)
    {target source : Frame} {et es : TreeTransform Frame G}
    (htarget : g.Leads target et.root et.targetFromSource)
    (hsource : forest.rootFromFrame.lookup source = some es) (hroot : es.root = et.root) :
    forest.transformFromSource planes lookupImagePlaneDistance ⟨target, et.root, et.targetFromSource⁻¹⟩ source =
      .ok ⟨es.root, et.targetFromSource⁻¹ * es.targetFromSource⟩ := by
  simp only [transformFromSource, hsource, if_pos hroot]
  split
  · next hid =>
    -- The root's way to itself is the identity, so that its inverse can be left out.
    have hself : g.Leads target target 1 := by
      rw [hroot] at hid
      have h := htarget.root
      rwa [hid] at h
    obtain ⟨-, hone⟩ := htarget.unique hself
    rw [hone, inv_one, one_mul]
  · rfl

theorem finds_of_path (hacyclic : g.Acyclic) (hpinhole : ∀ f, ¬ g.PinholeChild f)
    (hbuilds : g.Builds drained forest) {source target : Frame} (hsource : g.Known source)
    (htarget : g.Known target) {t : G} (hpath : g.Path source target t) :
    Finds forest planes lookupImagePlaneDistance source target t := by
  obtain ⟨es, hes⟩ := lookup_of_known hbuilds hsource
  obtain ⟨et, het⟩ := lookup_of_known hbuilds htarget
  have hleads := run_resolved hacyclic hbuilds
  obtain ⟨hroot, hproduct⟩ := path_leads hpinhole hpath (hleads source es hes) (hleads target et het)
  have hanswer := transformFromSource_of_root planes lookupImagePlaneDistance (hleads target et het) hes hroot
  have ht : et.targetFromSource⁻¹ * es.targetFromSource = t := by
    rw [hproduct, inv_mul_cancel_left]
  refine ⟨es.root, fun sources hmem answer => ?_⟩
  rw [ht] at hanswer
  simp only [transformFromTo, het, List.mem_map, Prod.mk.injEq]
  constructor
  · intro h
    obtain ⟨s, -, rfl, rfl⟩ := h
    exact hanswer
  · intro h
    exact ⟨source, hmem, rfl, hanswer.trans h.symm⟩

/-- In a graph without cycles and pinholes, whatever the order in which its frames are drained: the
transform from a frame to itself is the identity, transforms compose, and the transform between two
frames is the product of the edges on any path between them. -/
theorem transformFromTo_composes (g : TransformGraph Frame G P) (hacyclic : g.Acyclic)
    (hpinhole : ∀ f, ¬ g.PinholeChild f) (drained : List Frame) (forest : TransformForest Frame G P)
    (hbuilds : g.Builds drained forest) (planes : ImagePlanes Frame P D G) (lookupImagePlaneDistance : Frame → D)
    (a b c : Frame) (ha : g.Known a) (hb : g.Known b) (hc : g.Known c) (hba : g.SameTree b a)
    (hcb : g.SameTree c b) :
    ∃ fromBtoA fromCtoB fromCtoA : G, Finds forest planes lookupImagePlaneDistance b a fromBtoA ∧
      Finds forest planes lookupImagePlaneDistance c b fromCtoB ∧
      Finds forest planes lookupImagePlaneDistance c a fromCtoA ∧
      fromCtoA = fromBtoA * fromCtoB ∧
      Finds forest planes lookupImagePlaneDistance a a 1 ∧
      ∀ t, g.Path c a t → fromCtoA = t := by
  obtain ⟨t, hba⟩ := hba
  obtain ⟨u, hcb⟩ := hcb
  have hca := hcb.trans hba
  refine ⟨t, u, t * u, finds_of_path hacyclic hpinhole hbuilds hb ha hba,
    finds_of_path hacyclic hpinhole hbuilds hc hb hcb,
    finds_of_path hacyclic hpinhole hbuilds hc ha hca, rfl,
    finds_of_path hacyclic hpinhole hbuilds ha ha (.refl a), fun v hv => ?_⟩
  -- Both paths say how the way of `c` to the root comes from that of `a`.
  obtain ⟨ea, hea⟩ := lookup_of_known hbuilds ha
  obtain ⟨ec, hec⟩ := lookup_of_known hbuilds hc
  have hleads := run_resolved hacyclic hbuilds
  have h₁ := (path_leads hpinhole hca (hleads c ec hec) (hleads a ea hea)).2
  have h₂ := (path_leads hpinhole hv (hleads c ec hec) (hleads a ea hea)).2
  exact mul_left_cancel (h₁.symm.trans h₂)

end FromTo

def twoArmsGraph : TransformGraph Nat (Multiplicative Int) Unit where
  frames := {1, 2, 3}
  latestAtTransform := fun f => match f with
    | 1 => some ⟨0, .ofAdd 5⟩
    | 2 => some ⟨0, .ofAdd 7⟩
    | 3 => some ⟨2, .ofAdd 11⟩
    | _ => none
  latestAtPinhole := fun _ => none
  implicitTransformParent := fun _ => none

theorem twoArmsGraph_parentOf {f p : Nat} (h : twoArmsGraph.parentOf f = some p) : p < f := by
  have hf : f ∈ ({1, 2, 3} : Finset Nat) := mem_of_parentOf h
  simp only [Finset.mem_insert, Finset.mem_singleton] at hf
  obtain rfl | rfl | rfl := hf
  · cases h
    decide
  · cases h
    decide
  · cases h
    decide

/-- From the end of one arm to that of the other: up by 11 and 7, down by 5. -/
theorem transformFromTo_composes_arms : ∃ forest, twoArmsGraph.Builds [3, 1] forest ∧
    Finds forest (⟨fun _ _ => 1, ()⟩ : ImagePlanes Nat Unit Unit (Multiplicative Int)) (fun _ => ()) 3 1
      (.ofAdd 13) := by
  have hone : twoArmsGraph.Path 0 1 (1 * (.ofAdd 5)⁻¹) := .down rfl (.refl 1)
  have htwo : twoArmsGraph.Path 3 2 (1 * .ofAdd 11) := .up rfl (.refl 2)
  have hzero : twoArmsGraph.Path 2 0 (1 * .ofAdd 7) := .up rfl (.refl 0)
  refine ⟨_, rfl, ?_⟩
  obtain ⟨_, _, fromCtoA, -, -, hfinds, -, -, hproduct⟩ :=
    transformFromTo_composes twoArmsGraph (acyclic_of_rank id fun f p => twoArmsGraph_parentOf)
      (fun f h => absurd h.2 Bool.false_ne_true) [3, 1] _ rfl
      (⟨fun _ _ => 1, ()⟩ : ImagePlanes Nat Unit Unit (Multiplicative Int)) (fun _ => ()) 1 0 3
      (.inl (by decide)) (.inr ⟨1, rfl⟩) (.inl (by decide)) ⟨_, hone⟩ ⟨_, htwo.trans hzero⟩
  rw [hproduct _ ((htwo.trans hzero).trans hone)] at hfinds
  exact hfinds

end TransformGraph

end Dalaran
