import Dalaran.Base.Ascent
import Dalaran.Base.Assoc
import Dalaran.Base.Runs
import Mathlib.Algebra.Group.Defs

/-
  The transform forest of a recording at one point in time.

  `new` takes an arbitrary frame that is not processed yet, walks from it towards the
  parents until there is none or a frame that was processed, and adds the transforms
  it collected on the way, from the last to the first. Which frame the hash set hands
  out is not fixed: a run is a list of frames, each of them unprocessed when it is its
  turn (`step`), and `Builds` says that one has processed all.

  The transforms are the elements of a monoid. What `new` looks up is a `TransformGraph`:
  the frames of the registry and, for each frame, what the transform cache has for it at
  the query's time and the frame above it in the entity hierarchy.

  Not modelled: missing chunks, warnings, assertions, the ids behind the frames' hashes.

  Correspondence (Rust ↔ Lean):
    `TransformForest::add_stack_of_transforms` ↔ `rootOfStack`, `popTransforms`,
      `addStackOfTransforms`
    `TransformForest::new` ↔ `TransformGraph.step`, `TransformGraph.Builds`
-/

namespace Dalaran

structure ParentFromChildTransform (Frame G : Type) where
  parent : Frame
  transform : G

structure ResolvedPinholeProjection (Frame P : Type) where
  parent : Frame
  projection : P

structure ParentChildTransforms (Frame G P : Type) where
  parentFrame : Option Frame
  childFrame : Frame
  parentFromChild : Option (ParentFromChildTransform Frame G)
  pinholeProjection : Option (ResolvedPinholeProjection Frame P)

/-- What is known about the frames. -/
structure TransformGraph (Frame G P : Type) where
  frames : Finset Frame
  latestAtTransform : Frame → Option (ParentFromChildTransform Frame G)
  latestAtPinhole : Frame → Option (ResolvedPinholeProjection Frame P)
  implicitTransformParent : Frame → Option Frame

structure TreeTransform (Frame G : Type) where
  root : Frame
  targetFromSource : G
  deriving DecidableEq

structure PinholeTreeRoot (Frame G P : Type) where
  parentTreeRoot : Frame
  pinholeProjection : ResolvedPinholeProjection Frame P
  parentRootFromPinholeRoot : G

inductive TransformTreeRootInfo (Frame G P : Type) where
  | transformFrameRoot
  | pinhole (root : PinholeTreeRoot Frame G P)

structure TransformForest (Frame G P : Type) where
  roots : Assoc Frame (TransformTreeRootInfo Frame G P)
  rootFromFrame : Assoc Frame (TreeTransform Frame G)

variable {Frame G P : Type}

def TreeTransform.newRoot [One G] (root : Frame) : TreeTransform Frame G := ⟨root, 1⟩

namespace TransformForest

variable [DecidableEq Frame] [Monoid G]

def empty : TransformForest Frame G P := ⟨∅, ∅⟩

/-- The forest and the root that the rest of a stack is under. -/
structure Popping (Frame G P : Type) where
  forest : TransformForest Frame G P
  rootFrame : Frame
  rootFromTarget : G

def rootOfStack (forest : TransformForest Frame G P) (top : ParentChildTransforms Frame G P) : Popping Frame G P :=
  match top.parentFrame with
  | some parentFrame =>
    match forest.rootFromFrame.lookup parentFrame with
    | some known => ⟨forest, known.root, known.targetFromSource⟩
    | none =>
      -- nothing is known about the parent, so it is a root
      ⟨⟨forest.roots.insert parentFrame .transformFrameRoot,
        forest.rootFromFrame.insert parentFrame (.newRoot parentFrame)⟩, parentFrame, 1⟩
  | none =>
    let info := match top.pinholeProjection with
      | some pinhole => .pinhole ⟨top.childFrame, pinhole, 1⟩
      | none => .transformFrameRoot
    ⟨{ forest with roots := forest.roots.insert top.childFrame info }, top.childFrame, 1⟩

/-- One turn of the loop over the stack. -/
def popTransforms (transforms : ParentChildTransforms Frame G P) (p : Popping Frame G P) : Popping Frame G P :=
  let rootFromCurrent := p.rootFromTarget * transforms.parentFromChild.elim 1 (·.transform)
  match transforms.pinholeProjection with
  | some pinhole =>
    ⟨⟨p.forest.roots.insert transforms.childFrame (.pinhole ⟨p.rootFrame, pinhole, rootFromCurrent⟩),
      p.forest.rootFromFrame.insert transforms.childFrame ⟨transforms.childFrame, 1⟩⟩, transforms.childFrame, 1⟩
  | none =>
    ⟨{ p.forest with
      rootFromFrame := p.forest.rootFromFrame.insert transforms.childFrame ⟨p.rootFrame, rootFromCurrent⟩ },
      p.rootFrame, rootFromCurrent⟩

/-- The stack is popped from its end. -/
def addStackOfTransforms (forest : TransformForest Frame G P) (stack : List (ParentChildTransforms Frame G P)) :
    TransformForest Frame G P :=
  match stack.getLast? with
  | none => forest
  | some top => (stack.foldr popTransforms (forest.rootOfStack top)).forest

end TransformForest

namespace TransformGraph

section

variable [Monoid G]

def transformsAt (g : TransformGraph Frame G P) (childFrame : Frame) : ParentChildTransforms Frame G P :=
  let pinholeProjection := g.latestAtPinhole childFrame
  match g.latestAtTransform childFrame, pinholeProjection with
  | some transform, _ => ⟨some transform.parent, childFrame, some transform, pinholeProjection⟩
  | none, some pinhole => ⟨some pinhole.parent, childFrame, none, pinholeProjection⟩
  | none, none =>
    match g.implicitTransformParent childFrame with
    | some parent => ⟨some parent, childFrame, some ⟨parent, 1⟩, none⟩
    | none => ⟨none, childFrame, none, none⟩

variable {g : TransformGraph Frame G P}

@[simp] theorem transformsAt_childFrame (f : Frame) : (g.transformsAt f).childFrame = f := by
  simp only [transformsAt]
  split
  · rfl
  · rfl
  · split <;> rfl

@[simp] theorem transformsAt_pinhole (f : Frame) : (g.transformsAt f).pinholeProjection = g.latestAtPinhole f := by
  simp only [transformsAt]
  split
  · rfl
  · rfl
  · next heq => split <;> exact heq.symm

theorem transformsAt_of_no_parent {f : Frame} (h : (g.transformsAt f).parentFrame = none) :
    (g.transformsAt f).parentFromChild = none ∧ g.latestAtPinhole f = none := by
  simp only [transformsAt] at h ⊢
  split at h
  · cases h
  · cases h
  · next heq =>
    split at h
    · cases h
    · exact ⟨rfl, heq⟩

end

variable [DecidableEq Frame] [Monoid G]

/-- Walk while the next frame is unprocessed. A turn takes a frame out of the set, so that as many
turns as there are unprocessed frames are enough. -/
def walkTowardsParent (g : TransformGraph Frame G P) :
    Nat → Finset Frame → Option Frame → Finset Frame × List (ParentChildTransforms Frame G P)
  | turns + 1, unprocessed, some currentFrame =>
    if currentFrame ∈ unprocessed then
      let transforms := g.transformsAt currentFrame
      let (unprocessed, stack) := walkTowardsParent g turns (unprocessed.erase currentFrame) transforms.parentFrame
      (unprocessed, transforms :: stack)
    else (unprocessed, [])
  | _, unprocessed, _ => (unprocessed, [])

structure Progress (Frame G P : Type) where
  unprocessed : Finset Frame
  forest : TransformForest Frame G P

def start (g : TransformGraph Frame G P) : Progress Frame G P := ⟨g.frames, .empty⟩

/-- One turn of the loop in `new`, where the hash set hands out `currentFrame`. -/
def step (g : TransformGraph Frame G P) (st : Progress Frame G P) (currentFrame : Frame) :
    Option (Progress Frame G P) :=
  if currentFrame ∈ st.unprocessed then
    let (unprocessed, stack) := g.walkTowardsParent st.unprocessed.card st.unprocessed (some currentFrame)
    some ⟨unprocessed, st.forest.addStackOfTransforms stack⟩
  else none

/-- `new` ends with this forest, if the hash set hands out these frames. -/
def Builds (g : TransformGraph Frame G P) (drained : List Frame) (forest : TransformForest Frame G P) : Prop :=
  Runs.run g.step g.start drained = some ⟨∅, forest⟩

/-! ## The graph as `new` sees it -/

def parentOf (g : TransformGraph Frame G P) (f : Frame) : Option Frame :=
  if f ∈ g.frames then (g.transformsAt f).parentFrame else none

def PinholeChild (g : TransformGraph Frame G P) (f : Frame) : Prop := f ∈ g.frames ∧ (g.latestAtPinhole f).isSome = true

def parentFromChild (g : TransformGraph Frame G P) (f : Frame) : G :=
  (g.transformsAt f).parentFromChild.elim 1 (·.transform)

/-- A walk up: the tree root of a frame, the nearest one from it upwards that is the child of a
pinhole or has no parent, with the product of the transforms on the way. -/
inductive Leads (g : TransformGraph Frame G P) : Frame → Frame → G → Prop
  | top {f : Frame} (h : g.parentOf f = none) : Leads g f f 1
  | pinhole {f : Frame} (h : g.PinholeChild f) : Leads g f f 1
  | up {f parent root : Frame} {t : G} (hpinhole : ¬ g.PinholeChild f) (hparent : g.parentOf f = some parent)
      (h : Leads g parent root t) : Leads g f root (t * g.parentFromChild f)

def Acyclic (g : TransformGraph Frame G P) : Prop := ∀ f, ¬ Ascent.OnCycle g.parentOf f

variable {g : TransformGraph Frame G P}

theorem parentOf_of_mem {f : Frame} (h : f ∈ g.frames) : g.parentOf f = (g.transformsAt f).parentFrame := if_pos h

theorem parentOf_of_notMem {f : Frame} (h : f ∉ g.frames) : g.parentOf f = none := if_neg h

theorem mem_of_parentOf {f p : Frame} (h : g.parentOf f = some p) : f ∈ g.frames := by
  unfold parentOf at h
  split at h
  · assumption
  · cases h

theorem walkTowardsParent_walked (turns : Nat) (unprocessed : Finset Frame) (next : Option Frame)
    (hturns : unprocessed.card ≤ turns) (hframes : unprocessed ⊆ g.frames) :
    ∃ met stop, Ascent.Walked g.parentOf unprocessed next (g.walkTowardsParent turns unprocessed next).1 met stop ∧
      (g.walkTowardsParent turns unprocessed next).2 = met.map g.transformsAt := by
  induction turns generalizing unprocessed next with
  | zero =>
    have hempty : unprocessed = ∅ := Finset.card_eq_zero.mp (Nat.le_zero.mp hturns)
    subst hempty
    exact ⟨[], next, .stop (by simp), rfl⟩
  | succ turns ih =>
    cases next with
    | none => exact ⟨[], none, .stop (by simp), rfl⟩
    | some f =>
      simp only [walkTowardsParent]
      split
      · next hf =>
        have hcard := Finset.card_erase_lt_of_mem hf
        obtain ⟨met, stop, hwalk, hstack⟩ := ih (unprocessed.erase f) (g.transformsAt f).parentFrame (by omega)
          ((Finset.erase_subset ..).trans hframes)
        refine ⟨f :: met, stop, .go hf ?_, by rw [hstack]; rfl⟩
        rw [parentOf_of_mem (hframes hf)]
        exact hwalk
      · next hf => exact ⟨[], some f, .stop (fun a ha => Option.some.inj ha ▸ hf), rfl⟩

end TransformGraph
end Dalaran
