import Dalaran.Path.Subtree

/-
  Evaluating a filter at a path in one pass (`ResolvedEntityPathFilter::evaluate`).

  The pass goes over the rules from the front and keeps the last one that matches.
  That is the rule that decides the path, and with the inclusions at the path and
  below it is all that is remembered (`evaluate_eq`).

  For the subtree this is not enough: where the last rule excludes the path alone,
  the rules for subtrees around it still decide what is below. The pass answers that
  the subtree can be skipped; `is_anything_in_subtree_included` looks on
  (`evaluate_agrees_iff`).
-/

namespace Dalaran

open List

structure FilterEvaluation where
  subtreeIncluded : Bool
  matchesPath : Bool
  matchesExactly : Bool
  deriving DecidableEq

namespace ResolvedEntityPathFilter

variable [NaturalOrder]

/-! ## The pass -/

structure Pass where
  subtreeIncluded : Bool
  matchesExactly : Bool
  lastMatch : Option (RuleEffect × Bool)
  foundIncludeInSubtree : Bool

def Pass.start : Pass :=
  { subtreeIncluded := false, matchesExactly := false, lastMatch := none, foundIncludeInSubtree := false }

def Pass.step (path : EntityPath) (pass : Pass) (e : ResolvedEntityPathRule × RuleEffect) : Pass :=
  let found := !pass.foundIncludeInSubtree && (e.2 == .includes && e.1.resolvedPath.startsWith path)
  let exact := !pass.matchesExactly && (e.2 == .includes && !e.1.includeSubtree && e.1.resolvedPath = path)
  { subtreeIncluded := if found then true else pass.subtreeIncluded
    matchesExactly := if exact then true else pass.matchesExactly
    lastMatch := if e.1.matchesPath path then some (e.2, e.1.includeSubtree) else pass.lastMatch
    foundIncludeInSubtree := if found then true else pass.foundIncludeInSubtree }

def evaluate (f : ResolvedEntityPathFilter) (path : EntityPath) : FilterEvaluation :=
  let pass := f.rules.entries.foldl (Pass.step path) Pass.start
  { subtreeIncluded :=
      match pass.lastMatch with
      | some (.includes, _) => true
      | some (.excludes, includeSubtree) =>
        if includeSubtree && !pass.foundIncludeInSubtree then false else pass.subtreeIncluded
      | none => pass.subtreeIncluded
    matchesPath := pass.lastMatch.any fun last => last.1 == .includes
    matchesExactly := pass.matchesExactly }

/-- Whether a rule includes just this path. -/
def matchesExactly (f : ResolvedEntityPathFilter) (entityPath : EntityPath) : Bool :=
  f.rules.entries.any fun e => e.2 == .includes && !e.1.includeSubtree && e.1.resolvedPath = entityPath

/-! ## What the pass finds -/

/-- The pass over some rules, from the front. -/
structure Passed (path : EntityPath) (rules : List (ResolvedEntityPathRule × RuleEffect)) (pass : Pass) : Prop where
  found : pass.foundIncludeInSubtree = rules.any fun e => e.2 == .includes && e.1.resolvedPath.startsWith path
  subtreeIncluded : pass.subtreeIncluded = pass.foundIncludeInSubtree
  matchesExactly : pass.matchesExactly =
    rules.any fun e => e.2 == .includes && !e.1.includeSubtree && e.1.resolvedPath = path
  lastMatch : pass.lastMatch = (rules.reverse.find? fun e => e.1.matchesPath path).map fun e => (e.2, e.1.includeSubtree)

omit [NaturalOrder] in
theorem set_once (flag now : Bool) : (if (!flag && now) = true then true else flag) = (flag || now) := by
  cases flag <;> cases now <;> rfl

omit [NaturalOrder] in
theorem Passed.step {path : EntityPath} {rules : List (ResolvedEntityPathRule × RuleEffect)} {pass : Pass}
    (h : Passed path rules pass) (e : ResolvedEntityPathRule × RuleEffect) :
    Passed path (rules ++ [e]) (pass.step path e) := by
  obtain ⟨hfound, hsubtree, hexactly, hlast⟩ := h
  refine ⟨?_, ?_, ?_, ?_⟩
  · calc (pass.step path e).foundIncludeInSubtree
        = (pass.foundIncludeInSubtree || (e.2 == .includes && e.1.resolvedPath.startsWith path)) := set_once _ _
      _ = _ := by rw [hfound, any_append, any_cons, any_nil, Bool.or_false]
  · unfold Pass.step
    dsimp only
    rw [hsubtree]
  · calc (pass.step path e).matchesExactly
        = (pass.matchesExactly || (e.2 == .includes && !e.1.includeSubtree && e.1.resolvedPath = path)) := set_once _ _
      _ = _ := by rw [hexactly, any_append, any_cons, any_nil, Bool.or_false]
  · unfold Pass.step
    dsimp only
    rw [reverse_append, reverse_singleton, singleton_append, List.find?_cons, hlast]
    cases e.1.matchesPath path with
    | true => rfl
    | false => rfl

theorem passed (f : ResolvedEntityPathFilter) (path : EntityPath) :
    Passed path f.rules.entries (f.rules.entries.foldl (Pass.step path) Pass.start) := by
  induction f.rules.entries using reverseRecOn with
  | nil => exact ⟨rfl, rfl, rfl, rfl⟩
  | append_singleton rules e ih =>
    rw [foldl_append]
    exact ih.step e

theorem evaluate_eq (f : ResolvedEntityPathFilter) (path : EntityPath) :
    f.evaluate path =
      { subtreeIncluded := f.includedBelow path || f.matchesPath path
        matchesPath := f.matchesPath path
        matchesExactly := f.matchesExactly path } := by
  obtain ⟨hfound, hsubtree, hexactly, hlast⟩ := passed f path
  have hlast' : (f.rules.entries.foldl (Pass.step path) Pass.start).lastMatch =
      (f.lastMatch path).map fun e => (e.2, e.1.includeSubtree) := hlast
  have hfound' : (f.rules.entries.foldl (Pass.step path) Pass.start).foundIncludeInSubtree =
      f.includedBelow path := hfound
  have hexactly' : (f.rules.entries.foldl (Pass.step path) Pass.start).matchesExactly =
      f.matchesExactly path := hexactly
  unfold evaluate matchesPath mostSpecificMatch
  dsimp only
  rw [hlast', hsubtree, hfound', hexactly']
  cases f.lastMatch path with
  | none => simp
  | some e =>
    obtain ⟨⟨resolvedPath, includeSubtree⟩, effect⟩ := e
    cases effect with
    | includes => simp
    | excludes => cases includeSubtree <;> cases f.includedBelow path <;> rfl

/-! ## What it says of the subtree -/

structure ExcludedInside (f : ResolvedEntityPathFilter) (path : EntityPath) : Prop where
  excluded : (⟨path, false⟩, RuleEffect.excludes) ∈ f.rules.entries
  notBelow : ∀ rule, (rule, RuleEffect.includes) ∈ f.rules.entries → rule.resolvedPath.startsWith path = false
  around : ∃ rule, f.lastSubtree path = some (rule, .includes)

/-- What the evaluation is to say. -/
structure Agrees (f : ResolvedEntityPathFilter) (path : EntityPath) : Prop where
  matchesPath : (f.evaluate path).matchesPath = f.matchesPath path
  matchesExactly : (f.evaluate path).matchesExactly = f.matchesExactly path
  subtreeIncluded : (f.evaluate path).subtreeIncluded = f.isAnythingInSubtreeIncluded path
  prunes : (f.evaluate path).subtreeIncluded = false → ∀ q : EntityPath, q.startsWith path = true →
    f.matchesPath q = false

theorem lastMatch_of_lastSubtree {f : ResolvedEntityPathFilter} {path : EntityPath}
    {e : ResolvedEntityPathRule × RuleEffect} (h : f.lastSubtree path = some e)
    (hexact : ∀ effect, (⟨path, false⟩, effect) ∉ f.rules.entries) : f.lastMatch path = some e := by
  obtain ⟨hmem, haround, hlast⟩ := OrdMap.findLast_eq_some_iff.mp h
  refine OrdMap.findLast_eq_some_iff.mpr
    ⟨hmem, matchesPath_of_around haround (prefix_refl _), fun other hother hmatch => ?_⟩
  obtain ⟨hstart, hself⟩ := ResolvedEntityPathRule.matchesPath_iff.mp hmatch
  obtain ⟨⟨otherPath, includeSubtree⟩, effect⟩ := other
  cases includeSubtree with
  | true => exact hlast _ hother (around_iff.mpr ⟨rfl, hstart⟩)
  | false =>
    obtain rfl := hself rfl
    exact absurd hother (hexact effect)

theorem excludedInside_iff {f : ResolvedEntityPathFilter} {path : EntityPath} : f.ExcludedInside path ↔
    f.isAnythingInSubtreeIncluded path = true ∧ (f.evaluate path).subtreeIncluded = false := by
  rw [evaluate_eq, isAnythingInSubtreeIncluded_eq_true]
  rw [Bool.or_eq_false_iff]
  constructor
  · intro h
    obtain ⟨hexcluded, hbelow, haround⟩ := h
    refine ⟨.inr haround, ?_, ?_⟩
    · refine Bool.eq_false_iff.mpr fun hincluded => ?_
      obtain ⟨rule, hrule, hstart⟩ := includedBelow_iff.mp hincluded
      have hout := hbelow rule hrule
      rw [startsWith_iff.mpr hstart] at hout
      cases hout
    · unfold matchesPath mostSpecificMatch
      rw [lastMatch_exact hexcluded rfl]
      rfl
  · intro h
    obtain ⟨hanything, hbelow, hmatch⟩ := h
    obtain ⟨rule, haround⟩ := hanything.resolve_left (by rw [hbelow]; exact Bool.false_ne_true)
    have hnone : ∀ other, (other, RuleEffect.includes) ∈ f.rules.entries →
        other.resolvedPath.startsWith path = false := by
      intro other hother
      refine Bool.eq_false_iff.mpr fun hstart => Bool.eq_false_iff.mp hbelow ?_
      exact includedBelow_iff.mpr ⟨other, hother, startsWith_iff.mp hstart⟩
    refine ⟨?_, hnone, rule, haround⟩
    by_contra hexcluded
    have hlast := lastMatch_of_lastSubtree haround fun effect hexact => ?_
    · exact Bool.eq_false_iff.mp hmatch (matchesPath_eq_true_iff.mpr ⟨rule, hlast⟩)
    · cases effect with
      | excludes => exact hexcluded hexact
      | includes =>
        have hout := hnone _ hexact
        rw [startsWith_iff.mpr (prefix_refl _)] at hout
        cases hout

/-- The evaluation agrees with the functions it stands for, and prunes soundly, exactly where the path is not excluded
inside of a subtree that is included. -/
theorem evaluate_agrees_iff (f : ResolvedEntityPathFilter) (path : EntityPath) :
    f.Agrees path ↔ ¬ f.ExcludedInside path := by
  rw [excludedInside_iff]
  constructor
  · intro h hinside
    obtain ⟨hanything, hskipped⟩ := hinside
    rw [h.subtreeIncluded, hanything] at hskipped
    cases hskipped
  · intro h
    have hsubtree : (f.evaluate path).subtreeIncluded = f.isAnythingInSubtreeIncluded path := by
      rw [Bool.eq_iff_iff]
      constructor
      · intro hincluded
        rw [evaluate_eq] at hincluded
        rcases Bool.or_eq_true_iff.mp hincluded with hbelow | hmatch
        · exact isAnythingInSubtreeIncluded_eq_true.mpr (.inl hbelow)
        · exact isAnythingInSubtreeIncluded_of_included (prefix_refl _) hmatch
      · intro hanything
        by_contra hskipped
        exact h ⟨hanything, Bool.eq_false_iff.mpr hskipped⟩
    refine ⟨by rw [evaluate_eq], by rw [evaluate_eq], hsubtree, fun hskipped q hq => ?_⟩
    rw [hsubtree] at hskipped
    refine Bool.eq_false_iff.mpr fun hincluded => Bool.eq_false_iff.mp hskipped ?_
    exact isAnythingInSubtreeIncluded_of_included (startsWith_iff.mp hq) hincluded

end ResolvedEntityPathFilter

/-! ## A subtree that is skipped -/

namespace ResolvedEntityPathFilter

def withoutRobot : @ResolvedEntityPathFilter alphabetical :=
  @ResolvedEntityPathFilter.mk alphabetical (@OrdMap.ofList _ _ (@ResolvedEntityPathRule.ruleOrder alphabetical)
    [(⟨⟨[]⟩, true⟩, .includes), (⟨⟨["robot"]⟩, false⟩, .excludes), (⟨⟨["__properties"]⟩, true⟩, .excludes)])

/-- The evaluation at `/robot` says that its subtree can be skipped, though `/robot/arm` is included. -/
theorem withoutRobot_skips_arm :
    (@evaluate alphabetical withoutRobot ⟨["robot"]⟩).subtreeIncluded = false ∧
      @isAnythingInSubtreeIncluded alphabetical withoutRobot ⟨["robot"]⟩ = true ∧
      @matchesPath alphabetical withoutRobot ⟨["robot", "arm"]⟩ = true ∧
      ¬ @Agrees alphabetical withoutRobot ⟨["robot"]⟩ := by
  refine ⟨by decide, by decide, by decide, fun h => ?_⟩
  have heq := @Agrees.subtreeIncluded alphabetical _ _ h
  revert heq
  decide

end ResolvedEntityPathFilter

end Dalaran
