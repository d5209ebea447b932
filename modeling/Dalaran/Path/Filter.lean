import Mathlib.Data.List.Lex
import Mathlib.Data.String.Basic
import Dalaran.Base.OrdMap
import Dalaran.Path.ParsePath

/-
  Entity path filters (`entity_path_filter.rs`).

  A resolved filter is an ordered map from rules to effects, in the order of the
  paths, with the rule for a subtree in front of the one for the entity alone.
  A path is decided by the last rule that matches it. A rule is its path and
  whether it takes the subtree in: of its original text nothing else is read.

  Paths are ordered part by part, the reserved parts last and the others by
  `natural_ordering::compare`, which is a parameter here. Paths are compared by
  their parts where the source compares 64-bit hashes of them.

  Correspondence (Rust ↔ Lean):
    `ResolvedEntityPathRule::matches` ↔ `ResolvedEntityPathRule.matchesPath`
    `ResolvedEntityPathFilter::matches` ↔ `ResolvedEntityPathFilter.matchesPath`
-/

namespace Dalaran

/-! ## The order of paths -/

/-- `natural_ordering::compare`. -/
class NaturalOrder where
  natural : LinearOrder String

/-- The alphabetical order, which is the natural one on names of lower-case letters. -/
@[reducible] def alphabetical : NaturalOrder := ⟨inferInstance⟩

structure NaturalPart where
  text : String

theorem NaturalPart.text_injective : Function.Injective NaturalPart.text := by
  intro a b h
  cases a
  cases h
  rfl

instance naturalPartOrder [order : NaturalOrder] : LinearOrder NaturalPart :=
  @LinearOrder.lift' _ _ order.natural NaturalPart.text NaturalPart.text_injective

/-- `Ord for EntityPathPart`: reserved parts behind everything else. -/
def partKey (part : String) : Bool ×ₗ NaturalPart := toLex (['_', '_'].isPrefixOf part.toList, ⟨part⟩)

theorem partKey_injective : Function.Injective partKey := by
  intro a b h
  exact congrArg (fun key => (ofLex key).2.text) h

def EntityPath.key (p : EntityPath) : List (Bool ×ₗ NaturalPart) := p.parts.map partKey

theorem EntityPath.key_injective : Function.Injective EntityPath.key := by
  intro p q h
  have hparts : p.parts = q.parts := List.map_injective_iff.mpr partKey_injective h
  cases p
  cases q
  exact congrArg EntityPath.mk hparts

instance entityPathOrder [NaturalOrder] : LinearOrder EntityPath :=
  LinearOrder.lift' EntityPath.key EntityPath.key_injective

def EntityPath.startsWith (p start : EntityPath) : Bool := start.parts.isPrefixOf p.parts

/-! ## Rules -/

inductive RuleEffect where
  | includes
  | excludes
  deriving DecidableEq

structure ResolvedEntityPathRule where
  resolvedPath : EntityPath
  includeSubtree : Bool
  deriving DecidableEq

namespace ResolvedEntityPathRule

/-- Most specific last, which means recursive first. -/
def key (r : ResolvedEntityPathRule) : EntityPath ×ₗ Bool := toLex (r.resolvedPath, !r.includeSubtree)

theorem key_injective : Function.Injective key := by
  intro r s h
  have hpath : r.resolvedPath = s.resolvedPath := congrArg (fun key => (ofLex key).1) h
  have hsubtree : (!r.includeSubtree) = !s.includeSubtree := congrArg (fun key => (ofLex key).2) h
  cases r
  cases s
  simp_all

instance ruleOrder [NaturalOrder] : LinearOrder ResolvedEntityPathRule :=
  LinearOrder.lift' key key_injective

def matchesPath (r : ResolvedEntityPathRule) (path : EntityPath) : Bool :=
  if r.includeSubtree then path.startsWith r.resolvedPath else path = r.resolvedPath

end ResolvedEntityPathRule

/-! ## Filters -/

structure ResolvedEntityPathFilter [NaturalOrder] where
  rules : OrdMap ResolvedEntityPathRule RuleEffect

namespace ResolvedEntityPathFilter

variable [NaturalOrder]

def lastMatch (f : ResolvedEntityPathFilter) (path : EntityPath) : Option (ResolvedEntityPathRule × RuleEffect) :=
  f.rules.findLast fun rule => rule.matchesPath path

def mostSpecificMatch (f : ResolvedEntityPathFilter) (path : EntityPath) : Option RuleEffect :=
  (f.lastMatch path).map (·.2)

def matchesPath (f : ResolvedEntityPathFilter) (path : EntityPath) : Bool :=
  (f.mostSpecificMatch path).getD .excludes == .includes

/-- Whether what a rule of the other filter includes is included here, by the last rule for its path. -/
def covers (self : ResolvedEntityPathFilter) (other : ResolvedEntityPathRule × RuleEffect) : Bool :=
  match other.2 with
  | .includes =>
    match self.lastMatch other.1.resolvedPath with
    | some (selfRule, .includes) => !(other.1.includeSubtree && !selfRule.includeSubtree)
    | some (_, .excludes) => false
    | none => false
  | .excludes => true

/-- Whether what a rule here excludes is not included by the other filter, by the last rule for its path. -/
def spares (other : ResolvedEntityPathFilter) (self : ResolvedEntityPathRule × RuleEffect) : Bool :=
  match self.2 with
  | .includes => true
  | .excludes =>
    match other.lastMatch self.1.resolvedPath with
    | some (_, .includes) => false
    | some (_, .excludes) => true
    | none => true

def isSupersetOf (self other : ResolvedEntityPathFilter) : Bool :=
  other.rules.entries.all self.covers && self.rules.entries.all other.spares

end ResolvedEntityPathFilter

end Dalaran
