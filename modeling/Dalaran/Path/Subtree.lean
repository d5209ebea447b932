import Dalaran.Path.FilterText
import Dalaran.Path.Superset

/-
  What a filter says of a whole subtree (`entity_path_filter.rs`).

  A path is decided by the most specific rule that matches it: the longest, and of
  two of the same path the exact one (`mostSpecificMatch_iff`).

  An inclusion at the root of a subtree or below it includes its own path or, if
  another rule excludes just that, a child no rule names; without one the last rule
  for a subtree around it decides (`isAnythingInSubtreeIncluded_iff`). Removing a
  subtree deletes the rules at its root and below it
  (`removeSubtreeAndMatchingRules_spec`).

  Correspondence (Rust ↔ Lean), for `ResolvedEntityPathFilter`:
    `is_anything_in_subtree_included`     ↔ `isAnythingInSubtreeIncluded`
    `remove_subtree_and_matching_rules`   ↔ `removeSubtreeAndMatchingRules`
-/

namespace Dalaran

open List Bool ResolvedEntityPathRule OrdMap

variable {p q : EntityPath}

theorem EntityPath.eq_of_parts (h : p.parts = q.parts) : p = q := by
  cases p
  cases q
  exact congrArg EntityPath.mk h

/-! ## The most specific rule -/

namespace ResolvedEntityPathRule

theorem rank_lt_iff {r s : ResolvedEntityPathRule} (hr : r.matchesPath p = true)
    (hs : s.matchesPath p = true) : r.rank < s.rank ↔
      r.resolvedPath.parts.length < s.resolvedPath.parts.length ∨
        (r.resolvedPath = s.resolvedPath ∧ r.includeSubtree = true ∧ s.includeSubtree = false) := by
  have hpath : r.resolvedPath.parts.length = s.resolvedPath.parts.length ↔ r.resolvedPath = s.resolvedPath := by
    refine ⟨fun hlength => EntityPath.eq_of_parts ?_, fun h => by rw [h]⟩
    have hstart := prefix_of_prefix_length_le (matchesPath_iff.mp hr).1 (matchesPath_iff.mp hs).1 hlength.le
    exact hstart.eq_of_length hlength
  rw [← hpath, rank, rank]
  cases r.includeSubtree <;> cases s.includeSubtree <;> simp <;> omega

end ResolvedEntityPathRule

namespace ResolvedEntityPathFilter

variable [NaturalOrder]

/-- A rule of the filter that matches the path, with its effect. Every other one has a shorter path or, for the same
path, is the one for the subtree. -/
structure IsMostSpecific (f : ResolvedEntityPathFilter) (path : EntityPath) (rule : ResolvedEntityPathRule)
    (effect : RuleEffect) : Prop where
  mem : (rule, effect) ∈ f.rules.entries
  matchesPath : rule.matchesPath path = true
  wins : ∀ other ∈ f.rules.entries, other.1.matchesPath path = true → other.1 ≠ rule →
    other.1.resolvedPath.parts.length < rule.resolvedPath.parts.length ∨
      (other.1.resolvedPath = rule.resolvedPath ∧ other.1.includeSubtree = true ∧ rule.includeSubtree = false)

variable {f : ResolvedEntityPathFilter} {path : EntityPath} {rule : ResolvedEntityPathRule}

theorem lastMatch_iff_isMostSpecific
    {effect : RuleEffect} : f.lastMatch path = some (rule, effect) ↔ f.IsMostSpecific path rule effect := by
  rw [lastMatch_eq_some_iff]
  constructor
  · intro h
    obtain ⟨hmem, hmatch, hlast⟩ := h
    refine ⟨hmem, hmatch, fun other hother hothers hne => ?_⟩
    refine (rank_lt_iff hothers hmatch).mp (lt_of_le_of_ne (hlast other hother hothers) ?_)
    intro hrank
    exact hne (le_antisymm (le_of_rank_le hothers hmatch hrank.le)
      (le_of_rank_le hmatch hothers hrank.ge))
  · intro h
    refine ⟨h.mem, h.matchesPath, fun other hother hothers => ?_⟩
    by_cases heq : other.1 = rule
    · rw [heq]
    · exact ((rank_lt_iff hothers h.matchesPath).mpr (h.wins other hother hothers heq)).le

/-- The effect of the most specific rule is found, and none exactly if no rule matches. -/
theorem mostSpecificMatch_iff (f : ResolvedEntityPathFilter) (path : EntityPath) :
    (∀ effect, f.mostSpecificMatch path = some effect ↔ ∃ rule, f.IsMostSpecific path rule effect) ∧
      (f.mostSpecificMatch path = none ↔ ∀ e ∈ f.rules.entries, e.1.matchesPath path = false) := by
  unfold mostSpecificMatch
  constructor
  · intro effect
    rw [Option.map_eq_some_iff]
    constructor
    · intro h
      obtain ⟨⟨rule, effect⟩, hlast, rfl⟩ := h
      exact ⟨rule, lastMatch_iff_isMostSpecific.mp hlast⟩
    · intro h
      obtain ⟨rule, hspecific⟩ := h
      exact ⟨(rule, effect), lastMatch_iff_isMostSpecific.mpr hspecific, rfl⟩
  · rw [Option.map_eq_none_iff]
    exact findLast_eq_none_iff

/-! ## Whether anything is included -/

/-- The loop over the rules from the most specific one on: an exclusion of the path alone is passed over. -/
def includedAround (path : EntityPath) : List (ResolvedEntityPathRule × RuleEffect) → Bool
  | [] => false
  | (rule, effect) :: rules =>
    if rule.matchesPath path then
      match effect with
      | .includes => true
      | .excludes => if rule.includeSubtree then false else includedAround path rules
    else includedAround path rules

/-- Whether a rule includes a path at the root of the subtree or below. -/
def includedBelow (f : ResolvedEntityPathFilter) (path : EntityPath) : Bool :=
  f.rules.entries.any fun e => e.2 == .includes && e.1.resolvedPath.startsWith path

def isAnythingInSubtreeIncluded (f : ResolvedEntityPathFilter) (path : EntityPath) : Bool :=
  if f.includedBelow path then true else includedAround path f.rules.entries.reverse

omit [NaturalOrder] in
theorem startsWith_iff {start : EntityPath} : p.startsWith start = true ↔ start.parts <+: p.parts :=
  isPrefixOf_iff_prefix

theorem includedBelow_iff : f.includedBelow path = true ↔
    ∃ rule, (rule, RuleEffect.includes) ∈ f.rules.entries ∧ path.parts <+: rule.resolvedPath.parts := by
  unfold includedBelow
  rw [any_eq_true]
  constructor
  · intro h
    obtain ⟨⟨rule, effect⟩, hmem, hrule⟩ := h
    rw [and_eq_true, beq_iff_eq] at hrule
    obtain ⟨rfl, hstart⟩ := hrule
    exact ⟨rule, hmem, startsWith_iff.mp hstart⟩
  · intro h
    obtain ⟨rule, hmem, hstart⟩ := h
    exact ⟨(rule, .includes), hmem, Bool.and_eq_true_iff.mpr ⟨rfl, startsWith_iff.mpr hstart⟩⟩

def around (path : EntityPath) (rule : ResolvedEntityPathRule) : Bool :=
  rule.includeSubtree && path.startsWith rule.resolvedPath

omit [NaturalOrder] in
theorem around_iff :
    around path rule = true ↔ rule.includeSubtree = true ∧ rule.resolvedPath.parts <+: path.parts := by
  unfold around
  rw [and_eq_true, startsWith_iff]

omit [NaturalOrder] in
theorem matchesPath_of_around (h : around path rule = true)
    (hq : path.parts <+: q.parts) : rule.matchesPath q = true := by
  obtain ⟨hsubtree, hstart⟩ := around_iff.mp h
  refine matchesPath_iff.mpr ⟨hstart.trans hq, fun hexact => ?_⟩
  rw [hsubtree] at hexact
  cases hexact

omit [NaturalOrder] in
theorem includedAround_iff {rules : List (ResolvedEntityPathRule × RuleEffect)}
    (h : ∀ rule, (rule, RuleEffect.includes) ∈ rules → ¬ path.parts <+: rule.resolvedPath.parts) :
    includedAround path rules = true ↔ ∃ rule, rules.find? (fun e => around path e.1) = some (rule, .includes) := by
  induction rules with
  | nil => simp [includedAround]
  | cons e rules ih =>
    obtain ⟨rule, effect⟩ := e
    have hrest := ih fun other hother => h other (mem_cons_of_mem _ hother)
    unfold includedAround
    by_cases hmatch : rule.matchesPath path = true
    · obtain ⟨hstart, hexact⟩ := matchesPath_iff.mp hmatch
      rw [if_pos hmatch]
      cases hsubtree : rule.includeSubtree with
      | true =>
        have haround : around path rule = true := around_iff.mpr ⟨hsubtree, hstart⟩
        rw [List.find?_cons, haround]
        cases effect <;> simp
      | false =>
        have haround : around path rule = false := by
          unfold around
          rw [hsubtree, Bool.false_and]
        rw [List.find?_cons, haround, ← hrest]
        cases effect with
        | includes => exact absurd (hexact hsubtree ▸ prefix_refl _) (h rule mem_cons_self)
        | excludes => exact Iff.rfl
    · have haround : around path rule = false :=
        Bool.eq_false_iff.mpr fun haround => hmatch (matchesPath_of_around haround (prefix_refl _))
      rw [if_neg hmatch, List.find?_cons, haround, hrest]

theorem isAnythingInSubtreeIncluded_eq_true :
    f.isAnythingInSubtreeIncluded path = true ↔
      f.includedBelow path = true ∨ ∃ rule, f.lastSubtree path = some (rule, .includes) := by
  unfold isAnythingInSubtreeIncluded
  by_cases hbelow : f.includedBelow path = true
  · simp [hbelow]
  · rw [if_neg hbelow, or_iff_right hbelow]
    refine includedAround_iff fun rule hrule hstart => hbelow ?_
    exact includedBelow_iff.mpr ⟨rule, mem_reverse.mp hrule, hstart⟩

theorem lastMatch_exact {effect : RuleEffect} (hmem : (rule, effect) ∈ f.rules.entries)
    (hexact : rule.includeSubtree = false) :
    f.lastMatch rule.resolvedPath = some (rule, effect) := by
  refine lastMatch_eq_some_iff.mpr ⟨hmem, ?_, fun other _ hother => ?_⟩
  · exact matchesPath_iff.mpr ⟨prefix_refl _, fun _ => rfl⟩
  · have hlength := (matchesPath_iff.mp hother).1.length_le
    unfold ResolvedEntityPathRule.rank
    rw [hexact]
    split
    · simp only [false_eq_true, if_false]
      omega
    · simp only [false_eq_true, if_false]
      omega

theorem exists_fresh_child (f : ResolvedEntityPathFilter) :
    ∃ part, ∀ e ∈ f.rules.entries, part ∉ e.1.resolvedPath.parts := by
  obtain ⟨part, hfresh⟩ := exists_fresh (f.rules.entries.flatMap fun e => e.1.resolvedPath.parts)
  exact ⟨part, fun e he hmem => hfresh (mem_flatMap.mpr ⟨e, he, hmem⟩)⟩

theorem included_of_lastSubtree (h : f.lastSubtree path = some (rule, .includes)) :
    ∃ q : EntityPath, path.parts <+: q.parts ∧ f.matchesPath q = true := by
  obtain ⟨part, hfresh⟩ := f.exists_fresh_child
  refine ⟨child path part, prefix_append _ _, matchesPath_eq_true_iff.mpr ⟨rule, ?_⟩⟩
  rw [lastMatch_child hfresh, h]

theorem lastSubtree_of_included (hq : path.parts <+: q.parts) (h : f.lastMatch q = some (rule, .includes)) :
    path.parts <+: rule.resolvedPath.parts ∨ f.lastSubtree path = some (rule, .includes) := by
  obtain ⟨hmem, hmatch, hlast⟩ := lastMatch_eq_some_iff.mp h
  obtain ⟨hstart, hexact⟩ := matchesPath_iff.mp hmatch
  rcases prefix_or_prefix_of_prefix hq hstart with hbelow | habove
  · exact .inl hbelow
  · cases hsubtree : rule.includeSubtree with
    | false =>
      left
      rwa [← hexact hsubtree]
    | true =>
      right
      refine findLast_eq_some_iff.mpr
        ⟨hmem, around_iff.mpr ⟨hsubtree, habove⟩, fun other hother haround => ?_⟩
      have hothers := matchesPath_of_around haround hq
      exact le_of_rank_le hothers hmatch (hlast other hother hothers)

theorem isAnythingInSubtreeIncluded_of_included (hq : path.parts <+: q.parts)
    (h : f.matchesPath q = true) : f.isAnythingInSubtreeIncluded path = true := by
  obtain ⟨rule, hrule⟩ := matchesPath_eq_true_iff.mp h
  have hmem := (lastMatch_eq_some_iff.mp hrule).1
  rw [isAnythingInSubtreeIncluded_eq_true, includedBelow_iff]
  exact (lastSubtree_of_included hq hrule).imp (fun hbelow => ⟨rule, hmem, hbelow⟩) fun hlast => ⟨rule, hlast⟩

/-- A filter includes something in a subtree exactly if it says so. -/
theorem isAnythingInSubtreeIncluded_iff (f : ResolvedEntityPathFilter) (path : EntityPath) :
    f.isAnythingInSubtreeIncluded path = true ↔
      ∃ q : EntityPath, q.startsWith path = true ∧ f.matchesPath q = true := by
  constructor
  · intro h
    rw [isAnythingInSubtreeIncluded_eq_true, includedBelow_iff] at h
    simp only [startsWith_iff]
    rcases h with ⟨rule, hmem, hstart⟩ | ⟨rule, hlast⟩
    · cases hsubtree : rule.includeSubtree with
      | false =>
        exact ⟨rule.resolvedPath, hstart, matchesPath_eq_true_iff.mpr ⟨rule, lastMatch_exact hmem hsubtree⟩⟩
      | true =>
        obtain ⟨q, hq, hincluded⟩ := included_of_lastSubtree (lastSubtree_self hmem hsubtree)
        exact ⟨q, hstart.trans hq, hincluded⟩
    · exact included_of_lastSubtree hlast
  · intro h
    obtain ⟨q, hq, hincluded⟩ := h
    exact isAnythingInSubtreeIncluded_of_included (startsWith_iff.mp hq) hincluded

/-! ## Removing a subtree -/

def removeSubtreeAndMatchingRules (cls : CharClass) (f : ResolvedEntityPathFilter) (entityPath : EntityPath) :
    ResolvedEntityPathFilter :=
  let newExclusion : ResolvedEntityPathRule :=
    { includeSubtree := (EntityPathRule.includingEntitySubtree cls entityPath).includeSubtree
      resolvedPath := entityPath }
  ⟨(f.rules.retain fun rule => !newExclusion.matchesPath rule.resolvedPath).insert newExclusion .excludes⟩

variable {entityPath : EntityPath}

theorem mem_removeSubtree {cls : CharClass} {e : ResolvedEntityPathRule × RuleEffect} :
    e ∈ (f.removeSubtreeAndMatchingRules cls entityPath).rules.entries ↔
      e = (⟨entityPath, true⟩, .excludes) ∨
        (e ∈ f.rules.entries ∧ ¬ entityPath.parts <+: e.1.resolvedPath.parts) := by
  unfold removeSubtreeAndMatchingRules
  rw [includingEntitySubtree_includeSubtree, mem_insert, mem_retain]
  have hkeep : (!(ResolvedEntityPathRule.mk entityPath true).matchesPath e.1.resolvedPath) = true ↔
      ¬ entityPath.parts <+: e.1.resolvedPath.parts := by
    rw [not_eq_true', ← not_eq_true, matchesPath_iff]
    simp
  rw [hkeep]
  refine or_congr_right ⟨fun h => h.2, fun h => ⟨fun heq => h.2 ?_, h⟩⟩
  rw [heq]

theorem lastMatch_removeSubtree_inside (cls : CharClass) (f : ResolvedEntityPathFilter)
    (hq : entityPath.parts <+: q.parts) :
    (f.removeSubtreeAndMatchingRules cls entityPath).lastMatch q = some (⟨entityPath, true⟩, .excludes) := by
  have hnew : (ResolvedEntityPathRule.mk entityPath true).matchesPath q = true :=
    matchesPath_iff.mpr ⟨hq, fun hexact => Bool.noConfusion hexact⟩
  refine lastMatch_eq_some_iff.mpr ⟨mem_removeSubtree.mpr (.inl rfl), hnew, fun other hother hothers => ?_⟩
  rcases mem_removeSubtree.mp hother with rfl | ⟨-, habove⟩
  · exact le_refl _
  · -- what is left lies above the root of the subtree
    have hstart := (matchesPath_iff.mp hothers).1
    have hshort : other.1.resolvedPath.parts.length < entityPath.parts.length :=
      Nat.lt_of_not_le fun hlength => habove (prefix_of_prefix_length_le hq hstart hlength)
    exact ((rank_lt_iff hothers hnew).mpr (.inl hshort)).le

theorem lastMatch_removeSubtree_outside (cls : CharClass) (f : ResolvedEntityPathFilter)
    (hq : ¬ entityPath.parts <+: q.parts) :
    (f.removeSubtreeAndMatchingRules cls entityPath).lastMatch q = f.lastMatch q := by
  have hmem : ∀ e : ResolvedEntityPathRule × RuleEffect, e.1.matchesPath q = true →
      (e ∈ (f.removeSubtreeAndMatchingRules cls entityPath).rules.entries ↔ e ∈ f.rules.entries) := by
    intro e he
    have hstart := (matchesPath_iff.mp he).1
    rw [mem_removeSubtree]
    constructor
    · intro h
      rcases h with rfl | h
      · exact absurd hstart hq
      · exact h.1
    · exact fun h => .inr ⟨h, fun hinside => hq (hinside.trans hstart)⟩
  apply Option.ext
  intro e
  rw [lastMatch_eq_some_iff, lastMatch_eq_some_iff]
  constructor
  · intro h
    obtain ⟨hin, hmatch, hlast⟩ := h
    exact ⟨(hmem e hmatch).mp hin, hmatch, fun d hd hdmatch => hlast d ((hmem d hdmatch).mpr hd) hdmatch⟩
  · intro h
    obtain ⟨hin, hmatch, hlast⟩ := h
    exact ⟨(hmem e hmatch).mpr hin, hmatch, fun d hd hdmatch => hlast d ((hmem d hdmatch).mp hd) hdmatch⟩

/-- A removed subtree is left out whole, and nothing changes outside of it. -/
theorem removeSubtreeAndMatchingRules_spec (cls : CharClass) (f : ResolvedEntityPathFilter) (entityPath : EntityPath) :
    (∀ q : EntityPath, q.startsWith entityPath = true →
      (f.removeSubtreeAndMatchingRules cls entityPath).matchesPath q = false) ∧
    ∀ q : EntityPath, q.startsWith entityPath = false →
      (f.removeSubtreeAndMatchingRules cls entityPath).matchesPath q = f.matchesPath q := by
  constructor
  · intro q hq
    unfold matchesPath mostSpecificMatch
    rw [lastMatch_removeSubtree_inside cls f (startsWith_iff.mp hq)]
    rfl
  · intro q hq
    have hout : ¬ entityPath.parts <+: q.parts := by
      rw [← startsWith_iff, hq]
      exact Bool.false_ne_true
    unfold matchesPath mostSpecificMatch
    rw [lastMatch_removeSubtree_outside cls f hout]

end ResolvedEntityPathFilter

end Dalaran
